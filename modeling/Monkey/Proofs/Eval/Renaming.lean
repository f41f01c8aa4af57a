import Monkey.Proofs.Eval.Nesting
import Monkey.Proofs.Heap.Renaming

/-!
# Evaluation up to the numbers of scopes and objects

Evaluation makes numbers and compares them, but nothing else depends on them. So a tree that is evaluated in two heaps
that are the same up to renaming gives values and leaves heaps that are the same up to a renaming again, or it halts for
the same reason (`Renaming.Simulation.all`).

`Renaming.Simulates ρ Q x y` says so of two computations step by step: what they give satisfies `Q`, and what has come
to stand for each other since then are new scopes (`Renaming.Grows`).
-/

namespace Monkey

namespace Renaming

/-! ## Computations step by step -/

/-- The renaming has grown by new scopes of the heap on the right, which was `h` then and is `h'` now. -/
structure Grows (ρ ρ' : Renaming) (h h' : Heap) : Prop where
  le : ρ ≤ ρ'
  fresh : ∀ {i j}, ρ'.scope i j → ρ.scope i j ∨ h.scopes.size ≤ j
  size_le : h.scopes.size ≤ h'.scopes.size

theorem Grows.refl (ρ : Renaming) (h : Heap) : ρ.Grows ρ h h :=
  ⟨ρ.le_refl, Or.inl, Nat.le_refl _⟩

/-- Growing in two steps is growing in one. -/
theorem Grows.trans {ρ ρ₁ ρ₂ : Renaming} {h h₁ h₂ : Heap} (hg : ρ.Grows ρ₁ h h₁) (hg' : ρ₁.Grows ρ₂ h₁ h₂) :
    ρ.Grows ρ₂ h h₂ where
  le := le_trans hg.le hg'.le
  fresh hij := by
    rcases hg'.fresh hij with hij | hlt
    · exact hg.fresh hij
    · exact Or.inr (Nat.le_trans hg.size_le hlt)
  size_le := Nat.le_trans hg.size_le hg'.size_le

/-- How two computations end that are the same up to renaming: what they give is related by `Q`, or they halt for the
same reason. The heap on the right was `h₀` at the start. -/
inductive Outcome {α β : Type} (ρ : Renaming) (Q : Renaming → α → β → Prop) (h₀ : Heap) :
    EStateM.Result Halt Heap α → EStateM.Result Halt Heap β → Prop
  | ok {ρ' a b h h'} : ρ.Grows ρ' h₀ h' → Q ρ' a b → h.Renamed ρ' h' → Outcome ρ Q h₀ (.ok a h) (.ok b h')
  | error {ρ' why h h'} : ρ.Grows ρ' h₀ h' → h.Renamed ρ' h' → Outcome ρ Q h₀ (.error why h) (.error why h')

/-- From heaps that are the same up to renaming the two computations end in the same way up to renaming. -/
def Simulates {α β : Type} (ρ : Renaming) (Q : Renaming → α → β → Prop) (x : Eval α) (y : Eval β) : Prop :=
  ∀ ⦃h h' : Heap⦄, h.Renamed ρ h' → Outcome ρ Q h' (x h) (y h')

/-- Values that are the same up to renaming, or an error on either side. -/
inductive Arguments (ρ : Renaming) : Except Value (List Value) → Except Value (List Value) → Prop
  | ok {vs vs'} : List.Forall₂ (Value.Renamed ρ) vs vs' → Arguments ρ (.ok vs) (.ok vs')
  | error {v v'} : v.Renamed ρ v' → Arguments ρ (.error v) (.error v')

section Steps

variable {α β α' β' : Type} {ρ : Renaming} {Q : Renaming → α → β → Prop} {R : Renaming → α' → β' → Prop}
  {i j : ScopeId} {v v' w w' : Value}

/-- An outcome reached from a larger renaming is one from the renaming that it grew from. -/
theorem Outcome.trans {ρ' : Renaming} {h h₁ : Heap} {r : EStateM.Result Halt Heap α} {r' : EStateM.Result Halt Heap β}
    (hg : ρ.Grows ρ' h h₁) (hr : Outcome ρ' Q h₁ r r') : Outcome ρ Q h r r' := by
  cases hr with
  | ok hg' hQ hh => exact .ok (hg.trans hg') hQ hh
  | error hg' hh => exact .error (hg.trans hg') hh

theorem Simulates.pure {a : α} {b : β} (hQ : Q ρ a b) : Simulates ρ Q (pure a) (pure b) :=
  fun _ h' hh => .ok (.refl ρ h') hQ hh

theorem Simulates.throw (why : Halt) : Simulates ρ Q (throw why) (throw why) :=
  fun _ h' hh => .error (.refl ρ h') hh

/-- One step after another: the second may rely on all that the first has renamed. -/
theorem Simulates.bind {x : Eval α} {y : Eval β} {f : α → Eval α'} {g : β → Eval β'} (hxy : Simulates ρ Q x y)
    (hfg : ∀ {ρ' a b}, ρ ≤ ρ' → Q ρ' a b → Simulates ρ' R (f a) (g b)) : Simulates ρ R (x >>= f) (y >>= g) := by
  intro h h' hh
  rw [Eval.run_bind, Eval.run_bind]
  have hout := hxy hh
  generalize x h = r at hout
  generalize y h' = r' at hout
  cases hout with
  | ok hg hQ hh' => exact .trans hg (hfg hg.le hQ hh')
  | error hg hh' => exact .error hg hh'

/-- Values that are made anew differ in their number. -/
theorem simulates_make {value value' : ObjectId → Value}
    (hv : ∀ {ρ' id id'}, ρ ≤ ρ' → ρ'.object id id' → (value id).Renamed ρ' (value' id')) :
    Simulates ρ Value.Renamed (Eval.make value) (Eval.make value') := by
  intro h h' hh
  have hle := ρ.le_addObject h.nextObject h'.nextObject
  exact .ok ⟨hle, Or.inl, Nat.le_refl _⟩ (hv hle (Or.inr ⟨rfl, rfl⟩)) hh.number

theorem simulates_integer (n : Int) : Simulates ρ Value.Renamed (Eval.integer n) (Eval.integer n) :=
  simulates_make fun _ => .integer

theorem simulates_fail (cause : RuntimeError) : Simulates ρ Value.Renamed (Eval.fail cause) (Eval.fail cause) :=
  simulates_make fun _ => .error

/-- Signals around values that are the same up to renaming are so themselves. -/
theorem simulates_signal (hv : v.Renamed ρ v') : Simulates ρ Value.Renamed (Eval.signal v) (Eval.signal v') :=
  simulates_make fun hle ho => .returned ho (hv.mono hle)

/-- Errors and signals stop both sides alike, and other values are passed on. -/
theorem Simulates.proceed {x y : Eval Value} {f g : Value → Eval Value} (hxy : Simulates ρ Value.Renamed x y)
    (hfg : ∀ {ρ' v v'}, ρ ≤ ρ' → v.Renamed ρ' v' → Simulates ρ' Value.Renamed (f v) (g v')) :
    Simulates ρ Value.Renamed (Eval.proceed x f) (Eval.proceed y g) := by
  refine hxy.bind fun hle hv => ?_
  rw [hv.isError_eq]
  split
  · exact .pure hv
  · exact hfg hle hv

/-! ### Scopes -/

/-- **A name is looked up to the same value** from scopes that are renamed into each other. -/
theorem simulates_lookup (hij : ρ.scope i j) (name : String) :
    Simulates ρ Value.Renamed (Eval.lookup i name) (Eval.lookup j name) := by
  intro h h' hh
  have hfound := hh.lookup hij name
  cases hv : h.lookup i name with
  | none =>
    rw [hv] at hfound
    rw [Eval.lookup_of_none hv]
    cases hv' : h'.lookup j name with
    | none =>
      rw [Eval.lookup_of_none hv']
      exact simulates_fail _ hh
    | some v' =>
      rw [hv'] at hfound
      cases hfound
  | some v =>
    rw [hv] at hfound
    rw [Eval.lookup_of_some hv]
    cases hv' : h'.lookup j name with
    | none =>
      rw [hv'] at hfound
      cases hfound
    | some v' =>
      rw [hv'] at hfound
      rw [Eval.lookup_of_some hv']
      cases hfound with
      | some hvv' => exact .ok (.refl ρ h') hvv' hh

/-- Scopes opened in scopes that are renamed into each other are so as well, in a larger renaming. -/
theorem simulates_openScope (hij : ρ.scope i j) :
    Simulates ρ (fun ρ' i j => ρ'.scope i j) (Eval.openScope (some i)) (Eval.openScope (some j)) := by
  intro h h' hh
  refine .ok ⟨ρ.le_addScope _ _, ?_, ?_⟩ (Or.inr ⟨rfl, rfl⟩) (hh.openScope hij)
  · rintro i' j' (hij' | ⟨rfl, rfl⟩)
    · exact Or.inl hij'
    · exact Or.inr (Nat.le_refl _)
  · have hsize : (h'.openScope (some j)).2.scopes.size = h'.scopes.size + 1 := Heap.size_scopes_openScope ..
    exact Nat.le_of_lt (Nat.lt_of_lt_of_eq (Nat.lt_succ_self _) hsize.symm)

/-- The same value up to renaming is bound on both sides. -/
theorem simulates_bind (hij : ρ.scope i j) (name : String) (hv : v.Renamed ρ v') :
    Simulates ρ (fun _ _ _ => True) (Eval.bind i name v) (Eval.bind j name v') := by
  intro h h' hh
  exact .ok ⟨ρ.le_refl, Or.inl, Nat.le_of_eq (Heap.size_scopes_bind ..).symm⟩ trivial (hh.bind hij name hv)

/-- Parameters are bound one after another, each to the same value up to renaming. -/
theorem simulates_bindAll : ∀ {ps : List Identifier} {vs vs' : List Value} {ρ : Renaming}, ρ.scope i j →
    List.Forall₂ (Value.Renamed ρ) vs vs' →
      Simulates ρ (fun _ _ _ => True) (Eval.bindAll i ps vs) (Eval.bindAll j ps vs')
  | [], _, _, _, _, _ | _ :: _, [], [], _, _, _ => .pure trivial
  | p :: ps, v :: vs, v' :: vs', ρ, hij, .cons hv hvs => by
    rw [Eval.bindAll, Eval.bindAll]
    exact (simulates_bind hij _ hv).bind fun hle _ =>
      simulates_bindAll (hle.scope hij) (hvs.imp fun _ _ hv => hv.mono hle)

/-! ### Operators -/

/-- Operators of one operand compute the same up to renaming. -/
theorem simulates_unary (op : UnaryOp) (hv : v.Renamed ρ v') :
    Simulates ρ Value.Renamed (Eval.unary op v) (Eval.unary op v') := by
  cases op with
  | not =>
    rw [Eval.unary, Eval.unary, hv.isTruthy_eq]
    exact .pure .boolean
  | negate =>
    cases hv with
    | integer => exact simulates_integer _
    | boolean | null | returned | error | function => exact simulates_fail _
  | other s =>
    rw [Eval.unary, Eval.unary, hv.tag_eq]
    · exact simulates_fail _
    all_goals exact nofun

/-- On integers nothing has to be renamed but the number of the result. -/
theorem simulates_integers (op : BinaryOp) (a b : Int) :
    Simulates ρ Value.Renamed (Eval.integers op a b) (Eval.integers op a b) := by
  cases op with
  | add | sub | mul => exact simulates_integer _
  | div =>
    rw [Eval.integers]
    split
    · exact simulates_fail _
    · exact simulates_integer _
  | lt | gt | eq | ne => exact .pure .boolean
  | other s => exact simulates_fail _

/-- Values are compared alike, since a renaming sends different objects to different ones. -/
theorem simulates_objects (op : BinaryOp) (hv : v.Renamed ρ v') (hw : w.Renamed ρ w') :
    Simulates ρ Value.Renamed (Eval.objects op v w) (Eval.objects op v' w') := by
  intro h h' hh
  revert hh
  unfold Eval.objects
  rw [hv.tag_eq, hw.tag_eq]
  intro hh
  rw [hv.same_eq hh.objects_unique hw]
  split
  · exact Simulates.pure .boolean hh
  · exact Simulates.pure .boolean hh
  · split
    · exact simulates_fail _ hh
    · exact simulates_fail _ hh

/-- Operators of two operands compute the same up to renaming. -/
theorem simulates_binary (op : BinaryOp) (hv : v.Renamed ρ v') (hw : w.Renamed ρ w') :
    Simulates ρ Value.Renamed (Eval.binary op v w) (Eval.binary op v' w') := by
  by_cases hint : v.tag = .integer ∧ w.tag = .integer
  · obtain ⟨hvint, hwint⟩ := hint
    cases hv <;> cases hvint
    cases hw <;> cases hwint
    exact simulates_integers _ _ _
  · have hint' : ¬(v'.tag = .integer ∧ w'.tag = .integer) := by rwa [← hv.tag_eq, ← hw.tag_eq]
    rw [Eval.binary, Eval.binary]
    · exact simulates_objects op hv hw
    · rintro m a n b rfl rfl
      exact hint' ⟨rfl, rfl⟩
    · rintro m a n b rfl rfl
      exact hint ⟨rfl, rfl⟩

/-! ### Runs of statements and arguments -/

/-- Statements in a row end alike on both sides, in whatever renaming has grown from the first. -/
theorem simulates_sequence {each each' : Node → Eval Value} : ∀ {ss : List Node} {ρ : Renaming} {last last' : Value},
    last.Renamed ρ last' → (∀ {ρ'} s, ρ ≤ ρ' → Simulates ρ' Value.Renamed (each s) (each' s)) →
      Simulates ρ Value.Renamed (Eval.sequence each last ss) (Eval.sequence each' last' ss)
  | [], _, _, _, hlast, _ => .pure hlast
  | s :: ss, ρ, last, last', _, heach => by
    refine (heach s ρ.le_refl).bind fun hle hv => ?_
    rw [hv.isSignal_eq]
    split
    · exact .pure hv
    · exact simulates_sequence hv fun s hle' => heach s (le_trans hle hle')

/-- Arguments are evaluated alike on both sides, up to the first error. -/
theorem simulates_collect {each each' : Node → Eval Value} : ∀ {es : List Node} {ρ : Renaming},
    (∀ {ρ'} e, ρ ≤ ρ' → Simulates ρ' Value.Renamed (each e) (each' e)) →
      Simulates ρ Arguments (Eval.collect each es) (Eval.collect each' es)
  | [], _, _ => .pure (.ok .nil)
  | e :: es, ρ, heach => by
    refine (heach e ρ.le_refl).bind fun hle hv => ?_
    rw [hv.isError_eq]
    split
    · exact .pure (.error hv)
    · refine (simulates_collect fun e hle' => heach e (le_trans hle hle')).bind fun hle' hvs => ?_
      cases hvs with
      | ok hvs => exact .pure (.ok (.cons (hv.mono hle') hvs))
      | error herr => exact .pure (.error herr)

end Steps

/-! ## Evaluation -/

/-- Each rule of evaluation, in scopes that stand for each other, with `depth` levels of nesting left. -/
structure Simulation (depth : Nat) : Prop where
  eval : ∀ {ρ i j} n, ρ.scope i j → Simulates ρ Value.Renamed (eval depth n i) (eval depth n j)
  evalProgram : ∀ {ρ i j} ss, ρ.scope i j →
    Simulates ρ Value.Renamed (evalProgram depth ss i) (evalProgram depth ss j)
  evalBlock : ∀ {ρ i j} ss, ρ.scope i j → Simulates ρ Value.Renamed (evalBlock depth ss i) (evalBlock depth ss j)
  evalConditional : ∀ {ρ i j} c t e, ρ.scope i j →
    Simulates ρ Value.Renamed (evalConditional depth c t e i) (evalConditional depth c t e j)
  evalArguments : ∀ {ρ i j} args, ρ.scope i j →
    Simulates ρ Arguments (evalArguments depth args i) (evalArguments depth args j)
  apply : ∀ {ρ f f' vs vs'}, f.Renamed ρ f' → List.Forall₂ (Value.Renamed ρ) vs vs' →
    Simulates ρ Value.Renamed (apply depth f vs) (apply depth f' vs')

namespace Simulation

variable {depth : Nat} {ρ : Renaming} {i j : ScopeId}

/-- Without depth both sides are cut off. -/
theorem zero : Simulation 0 := by
  constructor <;> intros
  · unfold Monkey.eval
    exact .throw _
  · unfold Monkey.evalProgram
    exact .throw _
  · unfold Monkey.evalBlock
    exact .throw _
  · unfold Monkey.evalConditional
    exact .throw _
  · unfold Monkey.evalArguments
    exact .throw _
  · unfold Monkey.apply
    exact .throw _

/-- A program unwraps the same signal on both sides. -/
theorem step_program (hsim : Simulation depth) (ss : List Node) (hij : ρ.scope i j) :
    Simulates ρ Value.Renamed (Monkey.evalProgram (depth + 1) ss i) (Monkey.evalProgram (depth + 1) ss j) := by
  unfold Monkey.evalProgram
  exact (simulates_sequence .null fun s hle => hsim.eval s (hle.scope hij)).bind fun _ hv => .pure hv.unwrap

theorem step_block (hsim : Simulation depth) (ss : List Node) (hij : ρ.scope i j) :
    Simulates ρ Value.Renamed (Monkey.evalBlock (depth + 1) ss i) (Monkey.evalBlock (depth + 1) ss j) := by
  unfold Monkey.evalBlock
  exact simulates_sequence .null fun s hle => hsim.eval s (hle.scope hij)

theorem step_arguments (hsim : Simulation depth) (args : List Node) (hij : ρ.scope i j) :
    Simulates ρ Arguments (Monkey.evalArguments (depth + 1) args i) (Monkey.evalArguments (depth + 1) args j) := by
  unfold Monkey.evalArguments
  exact simulates_collect fun a hle => hsim.eval a (hle.scope hij)

/-- Both sides take the same branch, since a value is truthy or not whatever it is renamed to. -/
theorem step_conditional (hsim : Simulation depth) (c t e : Node) (hij : ρ.scope i j) :
    Simulates ρ Value.Renamed (Monkey.evalConditional (depth + 1) c t e i)
      (Monkey.evalConditional (depth + 1) c t e j) := by
  unfold Monkey.evalConditional
  refine (hsim.eval c hij).proceed fun hle hv => ?_
  rw [hv.isTruthy_eq]
  split
  · exact hsim.eval t (hle.scope hij)
  · split
    · exact .pure .null
    · exact hsim.eval e (hle.scope hij)

/-- **A call of renamed functions on renamed arguments**: the scope of the call is new on both sides, and so is added to
the renaming. -/
theorem step_apply (hsim : Simulation depth) {f f' : Value} {vs vs' : List Value} (hf : f.Renamed ρ f')
    (hvs : List.Forall₂ (Value.Renamed ρ) vs vs') :
    Simulates ρ Value.Renamed (Monkey.apply (depth + 1) f vs) (Monkey.apply (depth + 1) f' vs') := by
  unfold Monkey.apply
  cases hf with
  | function _ hf =>
    dsimp only
    rw [hvs.length_eq, hf.parameters, hf.body]
    split
    · refine (simulates_openScope hf.scope).bind fun hle hscope => ?_
      refine (simulates_bindAll hscope (hvs.imp fun _ _ hv => hv.mono hle)).bind fun hle' _ => ?_
      exact (hsim.eval _ (hle'.scope hscope)).bind fun _ hv => .pure hv.unwrap
    · exact simulates_fail _
  | integer | boolean | null | returned | error => exact simulates_fail _

theorem step_return (hsim : Simulation depth) (t : Token) (value : Node) (hij : ρ.scope i j) :
    Simulates ρ Value.Renamed (Monkey.eval (depth + 1) (.returnStatement t value) i)
      (Monkey.eval (depth + 1) (.returnStatement t value) j) := by
  by_cases hhole : value = .hole
  · subst hhole
    rw [Monkey.eval, Monkey.eval]
    exact simulates_signal .null
  · rw [Eval.eval_returnStatement hhole, Eval.eval_returnStatement hhole]
    exact (hsim.eval value hij).proceed fun _ hv => simulates_signal hv

/-- **One node**, evaluated in scopes that are renamed into each other. -/
theorem step_eval (hsim : Simulation depth) (n : Node) (hij : ρ.scope i j) :
    Simulates ρ Value.Renamed (Monkey.eval (depth + 1) n i) (Monkey.eval (depth + 1) n j) := by
  cases n
  case returnStatement t value => exact hsim.step_return t value hij
  all_goals rw [Monkey.eval, Monkey.eval]
  case hole => exact .throw _
  case unknown cls => exact .throw _
  case program ss => exact hsim.evalProgram ss hij
  case block t ss => exact hsim.evalBlock ss hij
  case expressionStatement t e => exact hsim.eval e hij
  case letStatement t target value =>
    exact (hsim.eval value hij).proceed fun hle hv =>
      (simulates_bind (hle.scope hij) _ hv).bind fun _ _ => .pure .null
  case identifier id => exact simulates_lookup hij _
  case integer t n => exact simulates_integer _
  case boolean t b => exact .pure .boolean
  case function t ps body => exact simulates_make fun hle ho => .function ho ⟨rfl, rfl, hle.scope hij⟩
  case unary t op operand => exact (hsim.eval operand hij).proceed fun _ hv => simulates_unary _ hv
  case binary t left op right =>
    refine (hsim.eval left hij).proceed fun hle hv => ?_
    exact (hsim.eval right (hle.scope hij)).proceed fun hle' hw => simulates_binary _ (hv.mono hle') hw
  case conditional t c b e => exact hsim.evalConditional c b e hij
  case call t callee args =>
    refine (hsim.eval callee hij).proceed fun hle hv =>
      (hsim.evalArguments args (hle.scope hij)).bind fun hle' hvs => ?_
    cases hvs with
    | ok hvs => exact hsim.apply (hv.mono hle') hvs
    | error herr => exact .pure herr

/-- One level of the evaluator keeps what holds one level below. -/
theorem step (hsim : Simulation depth) : Simulation (depth + 1) where
  eval := hsim.step_eval
  evalProgram := hsim.step_program
  evalBlock := hsim.step_block
  evalConditional := hsim.step_conditional
  evalArguments := hsim.step_arguments
  apply := hsim.step_apply

/-- **Evaluation is the same up to renaming**, to whatever depth. -/
theorem all : ∀ depth, Simulation depth
  | 0 => zero
  | depth + 1 => (all depth).step

end Simulation

end Renaming

end Monkey
