import Monkey.Proofs.Eval.Nesting

/-!
# What a `return` ends

A `return` gives a return signal. If it stands where a statement may stand, in however many blocks and conditionals, its
activation ends there with the value that is returned (`result_of_return`). A conditional may stand elsewhere too, as
the value of a `let` or as an operand, and whoever takes its value there does not ask whether it is a signal
(`result_of_return_in_let`).
-/

namespace Monkey

namespace Eval

variable {depth : Nat} {t : Token} {value : Node} {scope : ScopeId} {v : Value} {h h' : Heap}

theorem eval_integer (depth : Nat) (t : Token) (n : Int) (scope : ScopeId) (h : Heap) :
    eval (depth + 1) (.integer t n) scope h =
      .ok (.integer h.nextObject n) { h with nextObject := h.nextObject + 1 } := by
  rw [eval]
  rfl

theorem eval_boolean (depth : Nat) (t : Token) (b : Bool) (scope : ScopeId) (h : Heap) :
    eval (depth + 1) (.boolean t b) scope h = .ok (.boolean b) h := by
  rw [eval]
  rfl

theorem ne_hole_of_ok (hv : eval depth value scope h = .ok v h') : value ≠ .hole := by
  rintro rfl
  cases depth with
  | zero =>
    rw [eval] at hv
    cases hv
  | succ depth =>
    rw [eval] at hv
    cases hv

/-- A `return` gives a signal that carries the value to return. -/
theorem eval_returnStatement_of_ok (hv : eval depth value scope h = .ok v h') (he : v.isError = false) :
    eval (depth + 1) (.returnStatement t value) scope h =
      .ok (.returned h'.nextObject v) { h' with nextObject := h'.nextObject + 1 } := by
  rw [eval_returnStatement (ne_hole_of_ok hv), proceed_of_ok hv he]
  rfl

end Eval

open Eval
open Evaluation (Opens Arrives Performs)

/-- **A return ends its activation.** Where the statements of a program or of a function body arrive at a `return` and
its value turns out to be no error, that value is the result. The heap is the one that was there when the value was,
but for the number of the signal: whatever stands behind the `return`, nothing of it is evaluated or bound. -/
theorem result_of_return {activation first : Evaluation} {depth : Nat} {t : Token} {value : Node} {scope : ScopeId}
    {h h' : Heap} {v : Value} (hopens : Opens activation first)
    (harrives : Arrives first (.node (depth + 1) (.returnStatement t value) scope h))
    (hv : eval depth value scope h = .ok v h') (he : v.isError = false) :
    activation.result = .ok v { h' with nextObject := h'.nextObject + 1 } := by
  have hreturn : Evaluation.result (.node (depth + 1) (.returnStatement t value) scope h) =
      .ok (.returned h'.nextObject v) { h' with nextObject := h'.nextObject + 1 } :=
    Eval.eval_returnStatement_of_ok hv he
  exact hopens.result_of_signal (harrives.result_of_signal hreturn rfl) rfl

/-! ## A conditional that returns -/

/-- `if (true) { return value; }` -/
def Node.returnIfTrue (value : Node) : Node :=
  .conditional .blank (.boolean .blank true) (.block .blank [.returnStatement .blank value]) .hole

theorem arrives_returnIfTrue (depth : Nat) (value : Node) (scope : ScopeId) (h : Heap) :
    Arrives (.node (depth + 5) (.returnIfTrue value) scope h)
      (.node (depth + 1) (.returnStatement .blank value) scope h) :=
  .head (.consequence (eval_boolean (depth + 2) .blank true scope h) rfl rfl) (.single (.block .here))

/-- `if (true) { return 5; } 7` as the body of a function: the call gives 5. -/
theorem result_of_return_in_block :
    ∃ (h : Heap) (body : Node), h = ⟨#[⟨none, []⟩], 1, []⟩ ∧
      body = .block .blank
        [.expressionStatement .blank (.returnIfTrue (.integer .blank 5)),
          .expressionStatement .blank (.integer .blank 7)] ∧
      apply 10 (.function 0 ⟨[], body, 0⟩) [] h = .ok (.integer 1 5) ⟨#[⟨none, []⟩, ⟨some 0, []⟩], 3, []⟩ := by
  refine ⟨_, _, rfl, rfl, ?_⟩
  have harrives := arrives_returnIfTrue 1 (.integer .blank 5) 1 ⟨#[⟨none, []⟩, ⟨some 0, []⟩], 1, []⟩
  have hvalue := eval_integer 0 .blank 5 1 ⟨#[⟨none, []⟩, ⟨some 0, []⟩], 1, []⟩
  exact result_of_return (.body rfl rfl rfl) (.head (.block .here) (.head .expressionStatement harrives)) hvalue rfl

/-- `let x = if (true) { return 5; }; 7` as the body of a function: the value of the `return` is not the result. All this
is in the scope of one call. -/
theorem result_of_return_in_let :
    ¬∀ (activation : Evaluation) (depth depth' : Nat) (s : Node) (t : Token) (value : Node) (scope : ScopeId)
      (h h' h'' : Heap) (v : Value), Opens activation (.node depth s scope h) →
        Performs (.node depth s scope h) (.node (depth' + 1) (.returnStatement t value) scope h') →
          eval depth' value scope h' = .ok v h'' → v.isError = false → ∃ h₃, activation.result = .ok v h₃ := by
  intro hall
  let body : Node := .block .blank
    [.letStatement .blank ⟨.blank, "x"⟩ (.returnIfTrue (.integer .blank 5)),
      .expressionStatement .blank (.integer .blank 7)]
  have harrives := arrives_returnIfTrue 1 (.integer .blank 5) 1 ⟨#[⟨none, []⟩, ⟨some 0, []⟩], 1, []⟩
  have hvalue := eval_integer 0 .blank 5 1 ⟨#[⟨none, []⟩, ⟨some 0, []⟩], 1, []⟩
  obtain ⟨h₃, hresult⟩ := hall (.call 10 (.function 0 ⟨[], body, 0⟩) [] ⟨#[⟨none, []⟩], 1, []⟩) 9 1 body .blank _ 1
    ⟨#[⟨none, []⟩, ⟨some 0, []⟩], 1, []⟩ _ _ _ (.body rfl rfl rfl)
    (.head (.passes (.block .here)) (.head .letValue harrives.performs))
    hvalue rfl
  have hseven : apply 10 (.function 0 ⟨[], body, 0⟩) [] ⟨#[⟨none, []⟩], 1, []⟩ =
      .ok (.integer 3 7) ⟨#[⟨none, []⟩, ⟨some 0, [("x", .returned 2 (.integer 1 5))]⟩], 4,
        [⟨1, "x", .returned 2 (.integer 1 5)⟩]⟩ := by
    with_unfolding_all rfl
  rw [Evaluation.result, hseven] at hresult
  cases hresult

end Monkey
