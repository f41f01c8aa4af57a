import Monkey.Proofs.Eval.Nesting
import Monkey.Proofs.Heap.Closed

/-!
# Evaluation names only what is there

Evaluation in a scope that exists, in a closed heap, gives values that exist and leaves a closed heap, however it ends;
so does a call of a function that exists with arguments that exist (`Eval.Closing.all`). So all heaps are closed that
can be reached from the empty one by opening scopes, making and binding values, evaluation and calls
(`Heap.Reachable.closed`).

`Eval.StaysClosed h₀ Q x` says so of a computation that names only what exists in `h₀`: it may begin with any closed heap
in which that still exists.
-/

namespace Monkey

namespace Eval

/-! ## Computations step by step -/

/-- A computation that began with `h₀` leaves a closed heap in which nothing has gone away; what it gives satisfies `Q`
there. -/
inductive EndsClosed {α : Type} (h₀ : Heap) (Q : Heap → α → Prop) : EStateM.Result Halt Heap α → Prop
  | ok {a h} : h₀ ≤ h → h.Closed → Q h a → EndsClosed h₀ Q (.ok a h)
  | error {why h} : h₀ ≤ h → h.Closed → EndsClosed h₀ Q (.error why h)

/-- From any closed heap in which there is what is there in `h₀`, the computation leaves a closed heap. -/
def StaysClosed {α : Type} (h₀ : Heap) (Q : Heap → α → Prop) (x : Eval α) : Prop :=
  ∀ ⦃h : Heap⦄, h₀ ≤ h → h.Closed → EndsClosed h Q (x h)

/-- Values that exist, or an error that does. -/
def ArgumentsExist (h : Heap) : Except Value (List Value) → Prop
  | .ok vs => ∀ v ∈ vs, v.ExistsIn h
  | .error err => err.ExistsIn h

section Steps

variable {α β : Type} {h₀ : Heap} {Q : Heap → α → Prop} {R : Heap → β → Prop} {x : Eval α} {f : α → Eval β}
  {i : ScopeId} {v w : Value} {each : Node → Eval Value}

/-- An ending from a larger heap is one from the heap that it grew from. -/
theorem EndsClosed.trans {h : Heap} {r : EStateM.Result Halt Heap α} (hle : h₀ ≤ h) (hr : EndsClosed h Q r) :
    EndsClosed h₀ Q r := by
  cases hr with
  | ok hle' hh ha => exact .ok (Heap.le_trans hle hle') hh ha
  | error hle' hh => exact .error (Heap.le_trans hle hle') hh

/-- Whichever way it ends, the heap that is left is closed. -/
theorem EndsClosed.closed_after {h : Heap} (hx : EndsClosed h₀ Q (x h)) : (x.after h).Closed := by
  unfold after
  generalize x h = r at hx
  cases hx with
  | ok _ hh _ => exact hh
  | error _ hh => exact hh

/-- A computation that gives something leaves a closed heap in which this exists. -/
theorem EndsClosed.of_ok {h : Heap} {r : EStateM.Result Halt Heap α} {a : α} (hr : EndsClosed h₀ Q r)
    (heq : r = .ok a h) : h₀ ≤ h ∧ h.Closed ∧ Q h a := by
  subst heq
  cases hr with
  | ok hle hh ha => exact ⟨hle, hh, ha⟩

/-- A computation that halts leaves a closed heap. -/
theorem EndsClosed.of_error {h : Heap} {r : EStateM.Result Halt Heap α} {why : Halt} (hr : EndsClosed h₀ Q r)
    (heq : r = .error why h) : h.Closed := by
  subst heq
  cases hr with
  | error _ hh => exact hh

theorem staysClosed_pure {a : α} (ha : ∀ h, h₀ ≤ h → Q h a) : StaysClosed h₀ Q (pure a) :=
  fun h hle hh => .ok h.le_refl hh (ha h hle)

/-- A value that exists may be given. -/
theorem staysClosed_value (hv : v.ExistsIn h₀) : StaysClosed h₀ Value.ExistsIn (pure v) :=
  staysClosed_pure fun _ => hv.mono

theorem staysClosed_throw (why : Halt) : StaysClosed h₀ Q (throw why) :=
  fun h _ hh => .error h.le_refl hh

/-- One step after another keeps the heap closed if each does, from the larger heap of the step before. -/
theorem StaysClosed.bind (hx : StaysClosed h₀ Q x) (hf : ∀ {h a}, h₀ ≤ h → Q h a → StaysClosed h R (f a)) :
    StaysClosed h₀ R (x >>= f) := by
  intro h hle hh
  rw [run_bind]
  have hends := hx hle hh
  generalize x h = r at hends
  cases hends with
  | @ok a h' hle' hh' ha => exact .trans hle' (hf (Heap.le_trans hle hle') ha h'.le_refl hh')
  | error hle' hh' => exact .error hle' hh'

/-- Errors and signals are passed on, and exist as any other value. -/
theorem StaysClosed.proceed {x : Eval Value} {next : Value → Eval Value} (hx : StaysClosed h₀ Value.ExistsIn x)
    (hnext : ∀ {h v}, h₀ ≤ h → v.ExistsIn h → StaysClosed h Value.ExistsIn (next v)) :
    StaysClosed h₀ Value.ExistsIn (proceed x next) := by
  refine hx.bind fun hle hv => ?_
  split
  · exact staysClosed_value hv
  · exact hnext hle hv

/-- A value that is made exists from then on. -/
theorem staysClosed_make {value : ObjectId → Value}
    (hv : ∀ h, h₀ ≤ h → ∀ id < h.nextObject, (value id).ExistsIn h) : StaysClosed h₀ Value.ExistsIn (make value) :=
  fun h hle hh => .ok h.le_number hh.number (hv _ (Heap.le_trans hle h.le_number) _ (Nat.lt_succ_self _))

theorem staysClosed_integer (n : Int) : StaysClosed h₀ Value.ExistsIn (integer n) :=
  staysClosed_make fun _ _ _ hid => hid

theorem staysClosed_fail (cause : RuntimeError) : StaysClosed h₀ Value.ExistsIn (fail cause) :=
  staysClosed_make fun _ _ _ hid => hid

/-- A signal around a value that exists, exists. -/
theorem staysClosed_signal (hv : v.ExistsIn h₀) : StaysClosed h₀ Value.ExistsIn (signal v) :=
  staysClosed_make fun _ hle _ hid => ⟨hid, hv.mono hle⟩

/-! ### Scopes -/

/-- **What a name is looked up to exists**, since all that is bound does. -/
theorem staysClosed_lookup (i : ScopeId) (name : String) : StaysClosed h₀ Value.ExistsIn (lookup i name) := by
  intro h hle hh
  cases hv : h.lookup i name with
  | some v =>
    rw [lookup_of_some hv]
    exact .ok h.le_refl hh (hh.lookup hv)
  | none =>
    rw [lookup_of_none hv]
    exact staysClosed_fail _ hle hh

/-- A new scope in one that exists, exists. -/
theorem staysClosed_openScope (hi : i < h₀.scopes.size) :
    StaysClosed h₀ (fun h scope => scope < h.scopes.size) (openScope (some i)) := by
  intro h hle hh
  refine .ok (h.le_openScope (some i)) (hh.openScope ?_) ?_
  · rintro o ⟨⟩
    exact Nat.lt_of_lt_of_le hi hle.scopes
  · exact Nat.lt_of_lt_of_eq (Nat.lt_succ_self _) (Heap.size_scopes_openScope h (some i)).symm

/-- Binding a value that exists keeps the heap closed. -/
theorem staysClosed_bind (i : ScopeId) (name : String) (hv : v.ExistsIn h₀) :
    StaysClosed h₀ (fun _ _ => True) (Eval.bind i name v) :=
  fun h hle hh => .ok (h.le_bind i name v) (hh.bind i name (hv.mono hle)) trivial

/-- Binding parameters to values that exist keeps the heap closed. -/
theorem staysClosed_bindAll : ∀ {ps : List Identifier} {vs : List Value} {h₀ : Heap}, (∀ v ∈ vs, v.ExistsIn h₀) →
    StaysClosed h₀ (fun _ _ => True) (bindAll i ps vs)
  | [], _, _, _ | _ :: _, [], _, _ => staysClosed_pure fun _ _ => trivial
  | p :: ps, v :: vs, h₀, hvs => by
    obtain ⟨hv, hvs⟩ := List.forall_mem_cons.1 hvs
    exact (staysClosed_bind i p.name hv).bind fun hle _ => staysClosed_bindAll fun w hw => (hvs w hw).mono hle

/-! ### Operators -/

/-- What an operator of one operand gives names nothing. -/
theorem staysClosed_unary (op : UnaryOp) (v : Value) : StaysClosed h₀ Value.ExistsIn (unary op v) := by
  unfold unary
  split
  · exact staysClosed_value (.boolean _)
  · exact staysClosed_integer _
  · exact staysClosed_fail _

/-- What an operator gives on integers names nothing. -/
theorem staysClosed_integers (op : BinaryOp) (a b : Int) : StaysClosed h₀ Value.ExistsIn (integers op a b) := by
  cases op with
  | add | sub | mul => exact staysClosed_integer _
  | div =>
    rw [integers]
    split
    · exact staysClosed_fail _
    · exact staysClosed_integer _
  | lt | gt | eq | ne => exact staysClosed_value (.boolean _)
  | other s => exact staysClosed_fail _

/-- What an operator of two operands gives names nothing. -/
theorem staysClosed_binary (op : BinaryOp) (v w : Value) : StaysClosed h₀ Value.ExistsIn (binary op v w) := by
  unfold binary
  split
  · exact staysClosed_integers _ _ _
  · unfold objects
    split
    · exact staysClosed_value (.boolean _)
    · exact staysClosed_value (.boolean _)
    · split
      · exact staysClosed_fail _
      · exact staysClosed_fail _

/-! ### Runs of statements and arguments -/

/-- Statements in a row keep the heap closed if each of them does from every larger heap. -/
theorem staysClosed_sequence : ∀ {ss : List Node} {h₀ : Heap} {last : Value}, last.ExistsIn h₀ →
    (∀ {h} s, h₀ ≤ h → StaysClosed h Value.ExistsIn (each s)) →
      StaysClosed h₀ Value.ExistsIn (sequence each last ss)
  | [], _, _, hlast, _ => staysClosed_value hlast
  | s :: ss, h₀, last, _, heach => by
    refine (heach s h₀.le_refl).bind fun hle hv => ?_
    split
    · exact staysClosed_value hv
    · exact staysClosed_sequence hv fun s hle' => heach s (Heap.le_trans hle hle')

/-- Arguments keep the heap closed, and those that were evaluated exist in the heap at the end. -/
theorem staysClosed_collect : ∀ {es : List Node} {h₀ : Heap},
    (∀ {h} e, h₀ ≤ h → StaysClosed h Value.ExistsIn (each e)) → StaysClosed h₀ ArgumentsExist (collect each es)
  | [], _, _ => staysClosed_pure fun _ _ => List.forall_mem_nil _
  | e :: es, h₀, heach => by
    refine (heach e h₀.le_refl).bind fun hle hv => ?_
    split
    · exact staysClosed_pure fun _ => hv.mono
    · refine (staysClosed_collect fun e hle' => heach e (Heap.le_trans hle hle')).bind @fun _ r hle' hr => ?_
      cases r with
      | ok vs =>
        refine staysClosed_pure fun h hle'' => List.forall_mem_cons.2 ⟨?_, fun w hw => (hr w hw).mono hle''⟩
        exact hv.mono (Heap.le_trans hle' hle'')
      | error err => exact staysClosed_pure fun _ => hr.mono

end Steps

/-! ## Evaluation -/

/-- Each rule of evaluation, in scopes and on values that exist, with `depth` levels of nesting left. -/
structure Closing (depth : Nat) : Prop where
  eval : ∀ {h₀ i} n, i < h₀.scopes.size → StaysClosed h₀ Value.ExistsIn (eval depth n i)
  evalProgram : ∀ {h₀ i} ss, i < h₀.scopes.size → StaysClosed h₀ Value.ExistsIn (evalProgram depth ss i)
  evalBlock : ∀ {h₀ i} ss, i < h₀.scopes.size → StaysClosed h₀ Value.ExistsIn (evalBlock depth ss i)
  evalConditional : ∀ {h₀ i} c t e, i < h₀.scopes.size →
    StaysClosed h₀ Value.ExistsIn (evalConditional depth c t e i)
  evalArguments : ∀ {h₀ i} args, i < h₀.scopes.size → StaysClosed h₀ ArgumentsExist (evalArguments depth args i)
  apply : ∀ {h₀ f vs}, f.ExistsIn h₀ → (∀ v ∈ vs, v.ExistsIn h₀) → StaysClosed h₀ Value.ExistsIn (apply depth f vs)

namespace Closing

variable {depth : Nat} {h₀ h : Heap} {i : ScopeId}

/-- Without depth the evaluation is cut off with the heap as it is. -/
theorem zero : Closing 0 := by
  constructor <;> intros
  · unfold Monkey.eval
    exact staysClosed_throw _
  · unfold Monkey.evalProgram
    exact staysClosed_throw _
  · unfold Monkey.evalBlock
    exact staysClosed_throw _
  · unfold Monkey.evalConditional
    exact staysClosed_throw _
  · unfold Monkey.evalArguments
    exact staysClosed_throw _
  · unfold Monkey.apply
    exact staysClosed_throw _

/-- A scope that exists still exists later on. -/
theorem eval_later (hc : Closing depth) (n : Node) (hi : i < h₀.scopes.size) (hle : h₀ ≤ h) :
    StaysClosed h Value.ExistsIn (Monkey.eval depth n i) :=
  hc.eval n (Nat.lt_of_lt_of_le hi hle.scopes)

theorem step_program (hc : Closing depth) (ss : List Node) (hi : i < h₀.scopes.size) :
    StaysClosed h₀ Value.ExistsIn (Monkey.evalProgram (depth + 1) ss i) := by
  unfold Monkey.evalProgram
  exact (staysClosed_sequence .null fun s => hc.eval_later s hi).bind fun _ hv => staysClosed_value hv.unwrap

theorem step_block (hc : Closing depth) (ss : List Node) (hi : i < h₀.scopes.size) :
    StaysClosed h₀ Value.ExistsIn (Monkey.evalBlock (depth + 1) ss i) := by
  unfold Monkey.evalBlock
  exact staysClosed_sequence .null fun s => hc.eval_later s hi

theorem step_arguments (hc : Closing depth) (args : List Node) (hi : i < h₀.scopes.size) :
    StaysClosed h₀ ArgumentsExist (Monkey.evalArguments (depth + 1) args i) := by
  unfold Monkey.evalArguments
  exact staysClosed_collect fun a => hc.eval_later a hi

/-- Whichever branch is taken, it is evaluated in a heap that has only grown. -/
theorem step_conditional (hc : Closing depth) (c t e : Node) (hi : i < h₀.scopes.size) :
    StaysClosed h₀ Value.ExistsIn (Monkey.evalConditional (depth + 1) c t e i) := by
  unfold Monkey.evalConditional
  refine (hc.eval c hi).proceed fun hle _ => ?_
  split
  · exact hc.eval_later t hi hle
  · split
    · exact staysClosed_value .null
    · exact hc.eval_later e hi hle

/-- **A call** opens a scope in the one that its function names, which exists. -/
theorem step_apply (hc : Closing depth) {f : Value} {vs : List Value} (hf : f.ExistsIn h₀)
    (hvs : ∀ v ∈ vs, v.ExistsIn h₀) : StaysClosed h₀ Value.ExistsIn (Monkey.apply (depth + 1) f vs) := by
  unfold Monkey.apply
  cases f with
  | function id f =>
    dsimp only
    split
    · refine (staysClosed_openScope hf.2).bind fun hle hscope => ?_
      refine (staysClosed_bindAll fun v hv => (hvs v hv).mono hle).bind fun hle' _ => ?_
      exact (hc.eval_later f.body hscope hle').bind fun _ hv => staysClosed_value hv.unwrap
    · exact staysClosed_fail _
  | integer | boolean | null | returned | error => exact staysClosed_fail _

/-- A signal is made around a value that exists. -/
theorem step_return (hc : Closing depth) (t : Token) (value : Node) (hi : i < h₀.scopes.size) :
    StaysClosed h₀ Value.ExistsIn (Monkey.eval (depth + 1) (.returnStatement t value) i) := by
  by_cases hv : value = .hole
  · subst hv
    rw [Monkey.eval]
    exact staysClosed_signal .null
  · rw [eval_returnStatement hv]
    exact (hc.eval value hi).proceed fun _ hv => staysClosed_signal hv

/-- **One node**, evaluated in a scope that exists. -/
theorem step_eval (hc : Closing depth) (n : Node) (hi : i < h₀.scopes.size) :
    StaysClosed h₀ Value.ExistsIn (Monkey.eval (depth + 1) n i) := by
  cases n
  case returnStatement t value => exact hc.step_return t value hi
  all_goals rw [Monkey.eval]
  case hole => exact staysClosed_throw _
  case unknown cls => exact staysClosed_throw _
  case program ss => exact hc.evalProgram ss hi
  case block t ss => exact hc.evalBlock ss hi
  case expressionStatement t e => exact hc.eval e hi
  case letStatement t target value =>
    exact (hc.eval value hi).proceed fun _ hv =>
      (staysClosed_bind i target.name hv).bind fun _ _ => staysClosed_value .null
  case identifier id => exact staysClosed_lookup i id.name
  case integer t n => exact staysClosed_integer n
  case boolean t b => exact staysClosed_value (.boolean b)
  case function t ps body => exact staysClosed_make fun _ hle _ hid => ⟨hid, Nat.lt_of_lt_of_le hi hle.scopes⟩
  case unary t op operand => exact (hc.eval operand hi).proceed fun _ _ => staysClosed_unary op _
  case binary t left op right =>
    exact (hc.eval left hi).proceed fun hle _ =>
      (hc.eval_later right hi hle).proceed fun _ _ => staysClosed_binary op _ _
  case conditional t c b e => exact hc.evalConditional c b e hi
  case call t callee args =>
    refine (hc.eval callee hi).proceed fun hle hf => ?_
    refine (hc.evalArguments args (Nat.lt_of_lt_of_le hi hle.scopes)).bind @fun _ r hle' hr => ?_
    cases r with
    | ok vs => exact hc.apply (hf.mono hle') hr
    | error err => exact staysClosed_value hr

/-- One level of the evaluator keeps what holds one level below. -/
theorem step (hc : Closing depth) : Closing (depth + 1) where
  eval := hc.step_eval
  evalProgram := hc.step_program
  evalBlock := hc.step_block
  evalConditional := hc.step_conditional
  evalArguments := hc.step_arguments
  apply := hc.step_apply

/-- **Evaluation of what exists gives what exists.** -/
theorem all : ∀ depth, Closing depth
  | 0 => zero
  | depth + 1 => (all depth).step

end Closing

end Eval

/-! ## Heaps that can be reached -/

/-- The heaps that can be reached from the empty one: by opening scopes, in others that exist or in none, by making
values, by binding values that exist, by evaluation in scopes that exist, and by calls of what exists. Evaluation and
calls need not come to an end. -/
inductive Heap.Reachable : Heap → Prop
  | empty : Reachable .empty
  | openScope {h outer} : Reachable h → (∀ o ∈ outer, o < h.scopes.size) → Reachable (h.openScope outer).2
  | number {h} : Reachable h → Reachable { h with nextObject := h.nextObject + 1 }
  | bind {h i name v} : Reachable h → i < h.scopes.size → v.ExistsIn h → Reachable (h.bind i name v)
  | eval {h depth n i} : Reachable h → i < h.scopes.size → Reachable ((Monkey.eval depth n i).after h)
  | apply {h depth f vs} : Reachable h → f.ExistsIn h → (∀ v ∈ vs, v.ExistsIn h) →
    Reachable ((Monkey.apply depth f vs).after h)

/-- **Whatever heap can be reached is closed.** -/
theorem Heap.Reachable.closed {h : Heap} (hh : h.Reachable) : h.Closed := by
  induction hh with
  | empty => exact closed_empty
  | openScope _ houter ih => exact ih.openScope houter
  | number _ ih => exact ih.number
  | bind _ _ hv ih => exact ih.bind _ _ hv
  | @eval h depth n i _ hi ih => exact ((Eval.Closing.all depth).eval n hi h.le_refl ih).closed_after
  | @apply h depth f vs _ hf hvs ih => exact ((Eval.Closing.all depth).apply hf hvs h.le_refl ih).closed_after

end Monkey
