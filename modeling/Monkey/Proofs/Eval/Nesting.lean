import Mathlib.Logic.Relation
import Monkey.Proofs.Eval.Frame
import Monkey.Proofs.Tree.Everywhere

/-!
# What is evaluated on the way to a value

`Evaluation.Starts` tells which evaluation another one starts, and with which heap, after those it has started before
have ended. All that is evaluated during an evaluation is reached by such steps (`Evaluation.Performs`).

* `Passes` are the steps to a part that stands where a statement may stand: a statement of a block, an expression that is
  a statement, a branch of a conditional. A signal of the part is the value of the whole (`Passes.result_of_signal`).
* `Opens` are the steps into an activation, to a statement of a program or to the body of a function. There a return
  signal is unwrapped (`Opens.result_of_signal`).
* An error of a part is the value of the whole, wherever the part stands (`Starts.result_of_error`).
-/

namespace Monkey

theorem Value.isSignal_of_isError {v : Value} (hv : v.isError) : v.isSignal := by
  cases v with
  | error => rfl
  | integer | boolean | null | returned | function => exact absurd hv Bool.false_ne_true

theorem Value.unwrap_of_isError {v : Value} (hv : v.isError) : v.unwrap = v := by
  cases v with
  | returned => exact absurd hv Bool.false_ne_true
  | integer | boolean | null | error | function => rfl

namespace Eval

/-! ## Steps of a computation -/

/-- Evaluation of some nodes in order gets to one of them: none of those before has given a value that stops it. -/
inductive GetsTo (each : Node → Eval Value) (stops : Value → Bool) : List Node → Heap → Node → Heap → Prop
  | here {n ns h} : GetsTo each stops (n :: ns) h n h
  | later {n ns h v h' n' h''} : each n h = .ok v h' → stops v = false → GetsTo each stops ns h' n' h'' →
    GetsTo each stops (n :: ns) h n' h''

section Steps

variable {each : Node → Eval Value} {stops : Value → Bool} {x : Eval Value} {next : Value → Eval Value} {v : Value}
  {ns : List Node} {n : Node} {depth : Nat} {scope : ScopeId} {c t e : Node} {h h' h'' : Heap}

theorem bind_of_ok {α β : Type} {x : Eval α} {f : α → Eval β} {a : α} (hx : x h = .ok a h') :
    (x >>= f) h = f a h' := by
  rw [run_bind, hx]

theorem proceed_of_ok (hx : x h = .ok v h') (hv : v.isError = false) : proceed x next h = next v h' := by
  rw [proceed, bind_of_ok hx, hv]
  rfl

theorem proceed_of_error (hx : x h = .ok v h') (hv : v.isError) : proceed x next h = .ok v h' := by
  rw [proceed, bind_of_ok hx, if_pos hv]
  rfl

theorem run_get : (get : Eval Heap) h = .ok h h :=
  rfl

theorem lookup_of_some {name : String} (hv : h.lookup scope name = some v) : lookup scope name h = .ok v h := by
  rw [lookup, bind_of_ok run_get, hv]
  rfl

theorem lookup_of_none {name : String} (hv : h.lookup scope name = none) :
    lookup scope name h = fail (.unbound name) h := by
  rw [lookup, bind_of_ok run_get, hv]

theorem GetsTo.mem (hn : GetsTo each stops ns h n h') : n ∈ ns := by
  induction hn with
  | here => exact List.mem_cons_self
  | later _ _ _ ih => exact List.mem_cons_of_mem _ ih

/-- The first signal is the value of the sequence. -/
theorem GetsTo.sequence (hn : GetsTo each Value.isSignal ns h n h') (hv : each n h' = .ok v h'') (hs : v.isSignal)
    (last : Value) : sequence each last ns h = .ok v h'' := by
  induction hn generalizing last with
  | here =>
    rw [Eval.sequence, bind_of_ok hv, if_pos hs]
    rfl
  | later hm hgo _ ih =>
    rw [Eval.sequence, bind_of_ok hm, hgo]
    exact ih hv _

/-- The first error is all that comes of the list. -/
theorem GetsTo.collect (hn : GetsTo each Value.isError ns h n h') (hv : each n h' = .ok v h'') (he : v.isError) :
    collect each ns h = .ok (.error v) h'' := by
  induction hn with
  | here =>
    rw [Eval.collect, bind_of_ok hv, if_pos he]
    rfl
  | later hm hgo _ ih =>
    rw [Eval.collect, bind_of_ok hm, hgo, if_neg Bool.false_ne_true, bind_of_ok (ih hv)]
    rfl

/-- The value of a sequence is that of one of its nodes, if there are any. -/
theorem getsTo_of_sequence {last : Value} (hns : sequence each last ns h = .ok v h'') :
    (v = last ∧ h'' = h) ∨ ∃ n h', GetsTo each Value.isSignal ns h n h' ∧ each n h' = .ok v h'' := by
  induction ns generalizing last h with
  | nil =>
    cases hns
    exact Or.inl ⟨rfl, rfl⟩
  | cons n ns ih =>
    rw [Eval.sequence, run_bind] at hns
    cases hn : each n h with
    | error why h' =>
      rw [hn] at hns
      cases hns
    | ok w h' =>
      rw [hn] at hns
      dsimp only at hns
      cases hw : w.isSignal with
      | true =>
        rw [hw] at hns
        cases hns
        exact Or.inr ⟨n, h, .here, hn⟩
      | false =>
        rw [hw] at hns
        rcases ih hns with ⟨rfl, rfl⟩ | ⟨m, h₁, hm, hv⟩
        · exact Or.inr ⟨n, h, .here, hn⟩
        · exact Or.inr ⟨m, h₁, .later hn hw hm, hv⟩

/-- Behind some nodes others are evaluated if none of those has a signal as its value. -/
theorem sequence_append (ns' : List Node) {last : Value} (hlast : last.isSignal = false) :
    sequence each last (ns ++ ns') =
      sequence each last ns >>= fun v => if v.isSignal then pure v else sequence each v ns' := by
  induction ns generalizing last with
  | nil =>
    rw [Eval.sequence, pure_bind, hlast]
    rfl
  | cons n ns ih =>
    rw [List.cons_append, Eval.sequence, Eval.sequence, bind_assoc]
    congr 1
    funext v
    cases hv : v.isSignal with
    | true =>
      rw [if_pos rfl, if_pos rfl, pure_bind, hv]
      rfl
    | false => exact ih hv

theorem evalConditional_consequence (hc : eval depth c scope h = .ok v h') (hv : v.isError = false) (ht : v.isTruthy) :
    evalConditional (depth + 1) c t e scope h = eval depth t scope h' := by
  unfold evalConditional
  rw [proceed_of_ok hc hv, if_pos ht]

theorem evalConditional_alternative (hc : eval depth c scope h = .ok v h') (hv : v.isError = false)
    (ht : v.isTruthy = false) (he : e ≠ .hole) : evalConditional (depth + 1) c t e scope h = eval depth e scope h' := by
  unfold evalConditional
  rw [proceed_of_ok hc hv, ht, if_neg Bool.false_ne_true]
  split
  · exact absurd rfl he
  · rfl

theorem eval_returnStatement {t : Token} (hne : n ≠ .hole) :
    eval (depth + 1) (.returnStatement t n) scope = proceed (eval depth n scope) signal := by
  rw [eval]
  exact hne

end Steps

end Eval

/-! ## Evaluations within an evaluation -/

/-- An evaluation: that of a node in a scope or that of a call, and the heap it begins with. -/
inductive Evaluation where
  | node (depth : Nat) (n : Node) (scope : ScopeId) (h : Heap)
  | call (depth : Nat) (callee : Value) (arguments : List Value) (h : Heap)

namespace Evaluation

open Eval

/-- How an evaluation ends. -/
def result : Evaluation → EStateM.Result Halt Heap Value
  | .node depth n scope h => eval depth n scope h
  | .call depth callee args h => apply depth callee args h

/-- A step to a part that stands where a statement may stand. -/
inductive Passes : Evaluation → Evaluation → Prop
  | block {depth t ss scope h s h'} : GetsTo (fun s => eval depth s scope) Value.isSignal ss h s h' →
    Passes (.node (depth + 2) (.block t ss) scope h) (.node depth s scope h')
  | expressionStatement {depth t e scope h} :
    Passes (.node (depth + 1) (.expressionStatement t e) scope h) (.node depth e scope h)
  | consequence {depth t c b e scope h v h'} : eval depth c scope h = .ok v h' → v.isError = false → v.isTruthy →
    Passes (.node (depth + 2) (.conditional t c b e) scope h) (.node depth b scope h')
  | alternative {depth t c b e scope h v h'} : eval depth c scope h = .ok v h' → v.isError = false →
    v.isTruthy = false → e ≠ .hole →
    Passes (.node (depth + 2) (.conditional t c b e) scope h) (.node depth e scope h')

/-- A step into an activation. -/
inductive Opens : Evaluation → Evaluation → Prop
  | program {depth ss scope h s h'} : GetsTo (fun s => eval depth s scope) Value.isSignal ss h s h' →
    Opens (.node (depth + 2) (.program ss) scope h) (.node depth s scope h')
  | body {depth id f args h scope h' h''} : args.length = f.parameters.length →
    openScope (some f.scope) h = .ok scope h' → bindAll scope f.parameters args h' = .ok () h'' →
    Opens (.call (depth + 1) (.function id f) args h) (.node depth f.body scope h'')

/-- A step from an evaluation to one that it starts. -/
inductive Starts : Evaluation → Evaluation → Prop
  | passes {a b} : Passes a b → Starts a b
  | opens {a b} : Opens a b → Starts a b
  | letValue {depth t target value scope h} :
    Starts (.node (depth + 1) (.letStatement t target value) scope h) (.node depth value scope h)
  | returnValue {depth t value scope h} : value ≠ .hole →
    Starts (.node (depth + 1) (.returnStatement t value) scope h) (.node depth value scope h)
  | operand {depth t op e scope h} : Starts (.node (depth + 1) (.unary t op e) scope h) (.node depth e scope h)
  | left {depth t l op r scope h} : Starts (.node (depth + 1) (.binary t l op r) scope h) (.node depth l scope h)
  | right {depth t l op r scope h v h'} : eval depth l scope h = .ok v h' → v.isError = false →
    Starts (.node (depth + 1) (.binary t l op r) scope h) (.node depth r scope h')
  | condition {depth t c b e scope h} :
    Starts (.node (depth + 2) (.conditional t c b e) scope h) (.node depth c scope h)
  | callee {depth t callee args scope h} :
    Starts (.node (depth + 1) (.call t callee args) scope h) (.node depth callee scope h)
  | argument {depth t callee args scope h f h' a h''} : eval (depth + 1) callee scope h = .ok f h' →
    f.isError = false → GetsTo (fun a => eval depth a scope) Value.isError args h' a h'' →
    Starts (.node (depth + 2) (.call t callee args) scope h) (.node depth a scope h'')
  | call {depth t callee args scope h f h' vs h''} : eval depth callee scope h = .ok f h' → f.isError = false →
    evalArguments depth args scope h' = .ok (.ok vs) h'' →
    Starts (.node (depth + 1) (.call t callee args) scope h) (.call depth f vs h'')

/-- The steps from an evaluation to one during it. -/
abbrev Performs : Evaluation → Evaluation → Prop :=
  Relation.ReflTransGen Starts

/-- The steps from an evaluation to one of a part that stands where a statement may stand, in the same activation. -/
abbrev Arrives : Evaluation → Evaluation → Prop :=
  Relation.ReflTransGen Passes

variable {a b : Evaluation} {v : Value} {h : Heap}

/-- The nodes that are evaluated in the course of the evaluation of a node are its children. -/
theorem Starts.mem_children {depth depth' : Nat} {m n : Node} {scope scope' : ScopeId} {h h' : Heap}
    (hab : Starts (.node depth n scope h) (.node depth' m scope' h')) : m ∈ n.children := by
  cases hab with
  | passes hab =>
    cases hab with
    | block hs => exact hs.mem
    | _ => simp [Node.children]
  | opens hab =>
    cases hab with
    | program hs => exact hs.mem
  | argument _ _ ha => exact List.mem_cons_of_mem _ ha.mem
  | _ => simp [Node.children]

/-- The node that is evaluated in the course of a call is the body of the function that is called. -/
theorem Starts.exists_function {depth depth' : Nat} {f : Value} {args : List Value} {n : Node} {scope : ScopeId}
    {h h' : Heap} (hab : Starts (.call depth f args h) (.node depth' n scope h')) :
    ∃ id closure, f = .function id closure ∧ n = closure.body := by
  cases hab with
  | passes hab => cases hab
  | opens hab =>
    cases hab with
    | body => exact ⟨_, _, rfl, rfl⟩

/-- A signal of the part is the value of the whole, and nothing more is evaluated. -/
theorem Passes.result_of_signal (hab : Passes a b) (hb : b.result = .ok v h) (hv : v.isSignal) : a.result = .ok v h := by
  cases hab with
  | block hs =>
    rw [result, eval, evalBlock]
    exact hs.sequence hb hv .null
  | expressionStatement =>
    rw [result, eval]
    exact hb
  | consequence hc he ht =>
    rw [result, eval, evalConditional_consequence hc he ht]
    exact hb
  | alternative hc he ht hne =>
    rw [result, eval, evalConditional_alternative hc he ht hne]
    exact hb

theorem Arrives.result_of_signal (hab : Arrives a b) (hb : b.result = .ok v h) (hv : v.isSignal) :
    a.result = .ok v h := by
  induction hab using Relation.ReflTransGen.head_induction_on with
  | refl => exact hb
  | head hstep _ ih => exact hstep.result_of_signal ih hv

theorem Arrives.performs (hab : Arrives a b) : Performs a b :=
  Relation.ReflTransGen.mono (fun _ _ => Starts.passes) a b hab

/-- A signal of the activation is unwrapped, and nothing more is evaluated. -/
theorem Opens.result_of_signal (hab : Opens a b) (hb : b.result = .ok v h) (hv : v.isSignal) :
    a.result = .ok v.unwrap h := by
  rw [result.eq_def] at hb
  cases hab with
  | program hs =>
    rw [result, eval, evalProgram, bind_of_ok (hs.sequence hb hv .null)]
    rfl
  | body hlength hopen hbind =>
    rw [result, apply, if_pos hlength, bind_of_ok hopen, bind_of_ok hbind, bind_of_ok hb]
    rfl

/-- An error of the part is the value of the whole, and nothing more is evaluated. -/
theorem Starts.result_of_error (hab : Starts a b) (hb : b.result = .ok v h) (hv : v.isError) : a.result = .ok v h := by
  cases hab with
  | passes hab => exact hab.result_of_signal hb (Value.isSignal_of_isError hv)
  | opens hab => rw [hab.result_of_signal hb (Value.isSignal_of_isError hv), Value.unwrap_of_isError hv]
  | letValue | operand | left | callee =>
    rw [result, eval]
    exact proceed_of_error hb hv
  | returnValue hne =>
    rw [result, eval_returnStatement hne]
    exact proceed_of_error hb hv
  | right hl hgo =>
    rw [result, eval, proceed_of_ok hl hgo]
    exact proceed_of_error hb hv
  | condition =>
    rw [result, eval]
    unfold evalConditional
    exact proceed_of_error hb hv
  | argument hf hgo ha =>
    rw [result, eval, proceed_of_ok hf hgo, evalArguments, bind_of_ok (ha.collect hb hv)]
    rfl
  | call hf hgo hargs =>
    rw [result, eval, proceed_of_ok hf hgo, bind_of_ok hargs]
    exact hb

/-- An error of any evaluation is the value of the evaluation it is part of. -/
theorem Performs.result_of_error (hab : Performs a b) (hb : b.result = .ok v h) (hv : v.isError) :
    a.result = .ok v h := by
  induction hab using Relation.ReflTransGen.head_induction_on with
  | refl => exact hb
  | head hstep _ ih => exact hstep.result_of_error ih hv

end Evaluation

end Monkey
