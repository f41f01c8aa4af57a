import Monkey.Proofs.Eval.Invariant

/-!
# Errors are not captured

An error is a value like others, so a name could be bound to one, or a signal could carry one; it would then come up
again long after the fault, whenever the name is read. But where a value is stored, by `let`, by the call of a function
or by `return`, it has been asked before whether it is an error. So none is ever stored, not even within a signal, if
none has been stored before (`Evaluation.uncaptured`).
-/

namespace Monkey

/-- A value that neither is an error nor carries one, however deep. -/
def Value.ErrorFree : Value → Prop
  | .error .. => False
  | .returned _ v => v.ErrorFree
  | _ => True

/-- A value that may be handed on: one that is an error itself, or one with no error in it. -/
def Value.BareError (v : Value) : Prop :=
  v.isError ∨ v.ErrorFree

namespace Value

variable {v : Value}

theorem ErrorFree.bareError (hv : v.ErrorFree) : v.BareError :=
  .inr hv

/-- A value that may be an error and is none contains none. -/
theorem BareError.errorFree (hv : v.BareError) (he : v.isError = false) : v.ErrorFree :=
  hv.resolve_left (Bool.eq_false_iff.1 he)

/-- Unwrapping finds no error within a signal. -/
theorem BareError.unwrap (hv : v.BareError) : v.unwrap.BareError := by
  rcases hv with hv | hv
  · rw [unwrap_of_isError hv]
    exact .inl hv
  · cases v with
    | returned _ w => exact .inr hv
    | _ => exact .inr hv

/-- A computed value is an error itself or contains none. -/
theorem bareError_of_isComputed (hv : v.isComputed) : v.BareError := by
  cases v with
  | error => exact .inl rfl
  | returned => cases hv
  | _ => exact .inr trivial

end Value

namespace Evaluation

open Eval

/-- Errors are handed on bare, and what is bound is free of them. -/
def uncaptured : Invariant where
  covers _ := True
  gives _ v := v.BareError
  binds := Value.ErrorFree
  starts _ _ := trivial
  calls _ _ _ := trivial
  passes _ _ hv := hv
  opens _ _ hv := hv.unwrap
  called _ hv := hv
  computed _ hv := Value.bareError_of_isComputed hv
  literal _ _ := .inr trivial
  identifier _ hv := hv.bareError
  function _ _ := .inr trivial
  returnNothing _ _ := .inr trivial
  returnValue _ _ _ hv he := .inr (hv.errorFree he)
  letValue _ hv he := hv.errorFree he
  argument _ _ hv he := hv.errorFree he

end Evaluation

open Evaluation (Performs)

/-- **Errors are never captured.** If no scope binds an error, nor a signal with one in it, then none does afterwards,
however the evaluation of a node ends, and none on the way: whatever else is evaluated begins with such bindings, is
called with arguments free of errors, and gives an error bare or none at all, not one that a signal carries. -/
theorem errorFree_of_performs (depth : Nat) (n : Node) (scope : ScopeId) {h : Heap} (hh : h.BindsOnly Value.ErrorFree) :
    Eval.Kept Value.ErrorFree Value.BareError (eval depth n scope h) ∧
      ∀ b, Performs (.node depth n scope h) b →
        (∀ v ∈ b.arguments, v.ErrorFree) ∧ b.heap.BindsOnly Value.ErrorFree ∧
          Eval.Kept Value.ErrorFree Value.BareError b.result := by
  have hstart : Evaluation.uncaptured.Holds (.node depth n scope h) := ⟨trivial, hh, List.forall_mem_nil _⟩
  refine ⟨hstart.ends, fun b hb => ?_⟩
  have hholds := hstart.performs hb
  exact ⟨hholds.arguments, hholds.heap, hholds.ends⟩

/-- `let x = fn(a) { return a; }(y)`: the error that `y` is not bound is the value of all of it, and neither `a` nor `x`
is bound to it. -/
theorem errorFree_of_performs_argument :
    ∃ (h h' : Heap) (n : Node), h = ⟨#[⟨none, []⟩], 0, []⟩ ∧
      n = .letStatement .blank ⟨.blank, "x"⟩ (.call .blank
        (.function .blank [⟨.blank, "a"⟩] (.block .blank [.returnStatement .blank (.identifier ⟨.blank, "a"⟩)]))
        [.identifier ⟨.blank, "y"⟩]) ∧
      eval 9 n 0 h = .ok (.error 1 (.unbound "y")) h' ∧ h'.BindsOnly Value.ErrorFree ∧
      ∀ b, Performs (.node 9 n 0 h) b →
        (∀ v ∈ b.arguments, v.ErrorFree) ∧ b.heap.BindsOnly Value.ErrorFree ∧
          Eval.Kept Value.ErrorFree Value.BareError b.result := by
  obtain ⟨hends, hperforms⟩ := errorFree_of_performs 9 (.letStatement .blank ⟨.blank, "x"⟩ (.call .blank
    (.function .blank [⟨.blank, "a"⟩] (.block .blank [.returnStatement .blank (.identifier ⟨.blank, "a"⟩)]))
    [.identifier ⟨.blank, "y"⟩])) 0 (Heap.bindsOnly_single Value.ErrorFree none 0 [])
  have herr : eval 9 (.letStatement .blank ⟨.blank, "x"⟩ (.call .blank
      (.function .blank [⟨.blank, "a"⟩] (.block .blank [.returnStatement .blank (.identifier ⟨.blank, "a"⟩)]))
      [.identifier ⟨.blank, "y"⟩])) 0 ⟨#[⟨none, []⟩], 0, []⟩ =
      .ok (.error 1 (.unbound "y")) ⟨#[⟨none, []⟩], 2, []⟩ := by
    with_unfolding_all rfl
  exact ⟨_, _, _, rfl, rfl, herr, (hends.of_ok herr).2, hperforms⟩

end Monkey
