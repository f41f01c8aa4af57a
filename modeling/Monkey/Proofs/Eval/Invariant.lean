import Monkey.Proofs.Eval.Nesting
import Monkey.Proofs.Heap.Bound

/-!
# What every evaluation keeps

An `Evaluation.Invariant` says what evaluations it is about, what values those give, and what values may be bound. It
has a rule for each kind of step. From the rules it follows that an evaluation of which it holds gives such a value and
leaves a heap with such bindings, however it ends (`Invariant.Holds.ends`), and that it holds of whatever evaluation is
performed on the way (`Invariant.Holds.performs`).

The induction is on the depth of nesting. An evaluation is seen as what it makes of the ends of its parts
(`Invariant.Founded`), so the rules speak of a step and not of how evaluation goes about it.
-/

namespace Monkey

namespace Eval

/-- A computation ends with a value that satisfies `Q`, or without one, and the heap binds only values that satisfy
`P`. -/
inductive Kept {α : Type} (P : Value → Prop) (Q : α → Prop) : EStateM.Result Halt Heap α → Prop
  | ok {a h} : Q a → h.BindsOnly P → Kept P Q (.ok a h)
  | error {why h} : h.BindsOnly P → Kept P Q (.error why h)

/-- What comes of a list of arguments: values that satisfy `Q`, or an error. -/
def AllOrError (Q : Value → Prop) : Except Value (List Value) → Prop
  | .ok vs => ∀ v ∈ vs, Q v
  | .error err => err.isError

section Steps

variable {α β : Type} {P : Value → Prop} {Q Q' : α → Prop} {R : β → Prop} {r : EStateM.Result Halt Heap α}
  {x : Eval α} {f : α → Eval β} {V W : Value → Prop} {y : Eval Value} {next : Value → Eval Value}
  {each : Node → Eval Value} {a : α} {h h' : Heap}

/-- What a computation ends with may be described more loosely. -/
theorem Kept.mono (hr : Kept P Q r) (hQ : ∀ a, Q a → Q' a) : Kept P Q' r := by
  cases hr with
  | ok ha hh => exact .ok (hQ _ ha) hh
  | error hh => exact .error hh

theorem Kept.of_ok (hr : Kept P Q r) (heq : r = .ok a h) : Q a ∧ h.BindsOnly P := by
  subst heq
  cases hr with
  | ok ha hh => exact ⟨ha, hh⟩

/-- A computation followed by another keeps the bindings if both do. -/
theorem Kept.bind (hx : Kept P Q (x h))
    (hf : ∀ a h', x h = .ok a h' → Q a → h'.BindsOnly P → Kept P R (f a h')) : Kept P R ((x >>= f) h) := by
  rw [run_bind]
  generalize heq : x h = r at hx
  cases hx with
  | ok ha hh => exact hf _ _ heq ha hh
  | error hh => exact .error hh

/-- An error is handed on; any other value goes on to the next computation. -/
theorem Kept.proceed (hy : Kept P V (y h)) (herr : ∀ v, v.isError → W v)
    (hnext : ∀ v h', y h = .ok v h' → v.isError = false → V v → h'.BindsOnly P → Kept P W (next v h')) :
    Kept P W (proceed y next h) := by
  refine hy.bind fun v h' heq hv hh => ?_
  cases he : v.isError with
  | true => exact .ok (herr v he) hh
  | false => exact hnext v h' heq he hv hh

/-- Making a value changes no binding. -/
theorem kept_make {value : ObjectId → Value} (hh : h.BindsOnly P) (hV : ∀ id, V (value id)) :
    Kept P V (make value h) :=
  .ok (hV _) hh

/-- An operation gives a computed value and changes no binding. -/
theorem Operates.kept (hy : Operates y) (hh : h.BindsOnly P) (hV : ∀ v, v.isComputed → V v) : Kept P V (y h) := by
  obtain ⟨v, hv, heq | heq⟩ := hy h
  · rw [heq]
    exact .ok (hV v hv) hh
  · rw [heq]
    exact .ok (hV v hv) hh

/-- A lookup gives a bound value or a computed one. -/
theorem kept_lookup {scope : ScopeId} {name : String} (hh : h.BindsOnly P) (hV : ∀ v, P v → V v)
    (hcomputed : ∀ v, v.isComputed → V v) : Kept P V (lookup scope name h) := by
  cases hv : h.lookup scope name with
  | some v =>
    rw [lookup_of_some hv]
    exact .ok (hV v (hh.lookup hv)) hh
  | none =>
    rw [lookup_of_none hv]
    exact (operates_fail _).kept hh hcomputed

/-- Binding parameters to such values keeps the bindings. -/
theorem kept_bindAll {scope : ScopeId} : ∀ {ps : List Identifier} {vs : List Value} {h : Heap},
    (∀ v ∈ vs, P v) → h.BindsOnly P → Kept P (fun _ => True) (bindAll scope ps vs h)
  | [], _, _, _, hh | _ :: _, [], _, _, hh => .ok trivial hh
  | p :: ps, v :: vs, h, hvs, hh =>
    have hvs := List.forall_mem_cons.1 hvs
    show Kept P _ (bindAll scope ps vs (h.bind scope p.name v)) from
      kept_bindAll hvs.2 (hh.bind hvs.1 scope p.name)

/-- A sequence of statements keeps what each of them keeps on the heap it comes to. -/
theorem kept_sequence {ss : List Node} {last : Value} (hh : h.BindsOnly P) (hlast : V last)
    (hss : ∀ s h', GetsTo each Value.isSignal ss h s h' → Kept P V (each s h')) :
    Kept P V (sequence each last ss h) := by
  induction ss generalizing last h with
  | nil => exact .ok hlast hh
  | cons s rest ih =>
    refine (hss s h .here).bind fun v h' heq hv hh' => ?_
    cases hgo : v.isSignal with
    | true => exact .ok hv hh'
    | false => exact ih hh' hv fun s' h'' hs' => hss s' h'' (.later heq hgo hs')

/-- Arguments are collected as values that each of them gives, or as an error. -/
theorem kept_collect {es : List Node} (hh : h.BindsOnly P)
    (hes : ∀ e h', GetsTo each Value.isError es h e h' → Kept P (fun v => v.isError = false → V v) (each e h')) :
    Kept P (AllOrError V) (collect each es h) := by
  induction es generalizing h with
  | nil => exact .ok (List.forall_mem_nil _) hh
  | cons e rest ih =>
    refine (hes e h .here).bind fun v h' heq hv hh' => ?_
    cases hgo : v.isError with
    | true => exact .ok hgo hh'
    | false =>
      refine (ih hh' fun e' h'' he' => hes e' h'' (.later heq hgo he')).bind fun vs h'' _ hvs hh'' => ?_
      cases vs with
      | ok vs => exact .ok (List.forall_mem_cons.2 ⟨hv hgo, hvs⟩) hh''
      | error err => exact .ok hvs hh''

/-- On the way to one of some nodes, bindings stay what they may be. -/
theorem GetsTo.bindsOnly {stops : Value → Bool} {ns : List Node} {n : Node} {V : Node → Heap → Value → Prop}
    (hn : GetsTo each stops ns h n h') (hh : h.BindsOnly P)
    (hns : ∀ m h₁, GetsTo each stops ns h m h₁ → h₁.BindsOnly P → Kept P (V m h₁) (each m h₁)) : h'.BindsOnly P := by
  induction hn with
  | here => exact hh
  | later hm hgo _ ih =>
    have hh₁ := ((hns _ _ .here hh).of_ok hm).2
    exact ih hh₁ fun m h₁ hm' => hns m h₁ (.later hm hgo hm')

end Steps

end Eval

namespace Evaluation

open Eval

/-- The heap that an evaluation begins with. -/
def heap : Evaluation → Heap
  | .node _ _ _ h => h
  | .call _ _ _ h => h

/-- The values that an evaluation is handed. -/
def arguments : Evaluation → List Value
  | .node .. => []
  | .call _ _ args _ => args

/-- The levels of nesting that an evaluation has left. -/
def depth : Evaluation → Nat
  | .node depth _ _ _ => depth
  | .call depth _ _ _ => depth

theorem Passes.depth_lt {a b : Evaluation} (hab : Passes a b) : b.depth < a.depth := by
  cases hab <;> simp only [depth] <;> omega

theorem Opens.depth_lt {a b : Evaluation} (hab : Opens a b) : b.depth < a.depth := by
  cases hab <;> simp only [depth] <;> omega

/-- A part has fewer levels of nesting left. -/
theorem Starts.depth_lt {a b : Evaluation} (hab : Starts a b) : b.depth < a.depth := by
  cases hab with
  | passes hab => exact hab.depth_lt
  | opens hab => exact hab.depth_lt
  | _ => simp only [depth]; omega

/-- What holds of evaluations, of the values they give and of the values that are bound, with a rule for each step. -/
structure Invariant where
  /-- The evaluations it is about. -/
  covers : Evaluation → Prop
  /-- What an evaluation may give. -/
  gives : Evaluation → Value → Prop
  /-- What a name may be bound to. -/
  binds : Value → Prop
  -- It is about what is evaluated on the way too; of a call this may depend on the callee.
  starts {a depth n scope h} : covers a → Starts a (.node depth n scope h) → covers (.node depth n scope h)
  calls {depth t callee args scope h f vs h'} : covers (.node (depth + 1) (.call t callee args) scope h) →
    Starts (.node (depth + 1) (.call t callee args) scope h) (.call depth f vs h') →
    gives (.node depth callee scope h) f → covers (.call depth f vs h')
  -- Values that are handed on by the evaluation of which the part is.
  passes {a b v} : covers a → Passes a b → gives b v → gives a v
  opens {a b v} : covers a → Opens a b → gives b v → gives a v.unwrap
  called {depth t callee args scope h f vs h' v} : covers (.node (depth + 1) (.call t callee args) scope h) →
    gives (.call depth f vs h') v → gives (.node (depth + 1) (.call t callee args) scope h) v
  -- Values that are made or looked up.
  computed {a v} : covers a → v.isComputed → gives a v
  literal {depth t n scope h} (id : ObjectId) : covers (.node (depth + 1) (.integer t n) scope h) →
    gives (.node (depth + 1) (.integer t n) scope h) (.integer id n)
  identifier {depth id scope h v} : covers (.node (depth + 1) (.identifier id) scope h) → binds v →
    gives (.node (depth + 1) (.identifier id) scope h) v
  function {depth t ps body scope h} (id : ObjectId) : covers (.node (depth + 1) (.function t ps body) scope h) →
    gives (.node (depth + 1) (.function t ps body) scope h) (.function id ⟨ps, body, scope⟩)
  returnNothing {depth t scope h} (id : ObjectId) : covers (.node (depth + 1) (.returnStatement t .hole) scope h) →
    gives (.node (depth + 1) (.returnStatement t .hole) scope h) (.returned id .null)
  returnValue {depth t value scope h v h'} (id : ObjectId) :
    covers (.node (depth + 1) (.returnStatement t value) scope h) → eval depth value scope h = .ok v h' →
    gives (.node depth value scope h) v → v.isError = false →
    gives (.node (depth + 1) (.returnStatement t value) scope h) (.returned id v)
  -- Values that are bound, to a name by `let` or to a parameter by a call.
  letValue {depth t target value scope h v} : covers (.node (depth + 1) (.letStatement t target value) scope h) →
    gives (.node depth value scope h) v → v.isError = false → binds v
  argument {depth t callee args scope h a h' v} : covers (.node (depth + 2) (.call t callee args) scope h) → a ∈ args →
    gives (.node depth a scope h') v → v.isError = false → binds v

namespace Invariant

variable (I : Invariant)

/-- An evaluation that it is about begins with bindings and values that may be there. -/
structure Holds (a : Evaluation) : Prop where
  covers : I.covers a
  heap : a.heap.BindsOnly I.binds
  arguments : ∀ v ∈ a.arguments, I.binds v

/-- The evaluation ends as it should. -/
def Ends (a : Evaluation) : Prop :=
  Kept I.binds (I.gives a) a.result

/-- It holds of an evaluation, whose parts end as they should if they begin so. -/
structure Founded (a : Evaluation) : Prop extends I.Holds a where
  parts : ∀ b, Starts a b → I.Holds b → I.Ends b

namespace Founded

variable {I} {a b : Evaluation} {depth : Nat} {t : Token} {n c e : Node} {ns : List Node} {scope : ScopeId} {f : Value}
  {fs : List Value} {h h' h'' : Heap}

/-! ### What is bound when a part is started -/

/-- A part that begins with such bindings ends as it should. -/
theorem part (ha : I.Founded a) (hab : Starts a (.node depth n scope h)) (hh : h.BindsOnly I.binds) :
    Kept I.binds (I.gives (.node depth n scope h)) (eval depth n scope h) :=
  ha.parts _ hab ⟨I.starts ha.covers hab, hh, List.forall_mem_nil _⟩

/-- A part whose value is handed on begins with such bindings. -/
theorem heap_of_passes (ha : I.Founded a) (hab : Passes a b) : b.heap.BindsOnly I.binds := by
  cases hab with
  | block hs => exact hs.bindsOnly ha.heap fun s h' hs' => ha.part (.passes (.block hs'))
  | expressionStatement => exact ha.heap
  | consequence hc he ht => exact ((ha.part .condition ha.heap).of_ok hc).2
  | alternative hc he ht hne => exact ((ha.part .condition ha.heap).of_ok hc).2

/-- A part whose value is unwrapped begins with such bindings. -/
theorem heap_of_opens (ha : I.Founded a) (hab : Opens a b) : b.heap.BindsOnly I.binds := by
  cases hab with
  | program hs => exact hs.bindsOnly ha.heap fun s h' hs' => ha.part (.opens (.program hs'))
  | body hlength hopen hbind =>
    cases hopen
    exact ((kept_bindAll ha.arguments (ha.heap.openScope _)).of_ok hbind).2

/-- The callee leaves such bindings to the arguments. -/
theorem heap_of_callee (ha : I.Founded (.node (depth + 1) (.call t n ns) scope h))
    (hf : eval depth n scope h = .ok f h') : h'.BindsOnly I.binds :=
  ((ha.part .callee ha.heap).of_ok hf).2

/-- Each argument leaves such bindings to the next one. -/
theorem heap_of_argument (ha : I.Founded (.node (depth + 2) (.call t n ns) scope h))
    (hf : eval (depth + 1) n scope h = .ok f h') (hgo : f.isError = false)
    (he : GetsTo (fun e => eval depth e scope) Value.isError ns h' e h'') : h''.BindsOnly I.binds :=
  he.bindsOnly (ha.heap_of_callee hf) fun _ _ he => ha.part (.argument hf hgo he)

/-- The arguments of a call may be bound. -/
theorem kept_evalArguments (ha : I.Founded (.node (depth + 1) (.call t n ns) scope h))
    (hf : eval depth n scope h = .ok f h') (hgo : f.isError = false) :
    Kept I.binds (AllOrError I.binds) (evalArguments depth ns scope h') := by
  cases depth with
  | zero =>
    unfold evalArguments
    exact .error (ha.heap_of_callee hf)
  | succ depth =>
    unfold evalArguments
    refine kept_collect (ha.heap_of_callee hf) fun e h'' he => ?_
    exact (ha.part (.argument hf hgo he) (ha.heap_of_argument hf hgo he)).mono fun v => I.argument ha.covers he.mem

/-- Every part begins with such bindings. -/
theorem heap_of_starts (ha : I.Founded a) (hab : Starts a b) : b.heap.BindsOnly I.binds := by
  cases hab with
  | passes hab => exact ha.heap_of_passes hab
  | opens hab => exact ha.heap_of_opens hab
  | letValue | returnValue | operand | left | condition | callee => exact ha.heap
  | right hl hgo => exact ((ha.part .left ha.heap).of_ok hl).2
  | argument hf hgo he => exact ha.heap_of_argument hf hgo he
  | call hf hgo hargs => exact ((ha.kept_evalArguments hf hgo).of_ok hargs).2

/-- It holds of the parts. -/
theorem holds_of_starts (ha : I.Founded a) (hab : Starts a b) : I.Holds b := by
  have hh := ha.heap_of_starts hab
  cases b with
  | node depth n scope h => exact ⟨I.starts ha.covers hab, hh, List.forall_mem_nil _⟩
  | call depth f vs h =>
    cases hab with
    | passes hab => cases hab
    | opens hab => cases hab
    | call hf hgo hargs =>
      have hcallee := ((ha.part .callee ha.heap).of_ok hf).1
      exact ⟨I.calls ha.covers (.call hf hgo hargs) hcallee, hh, ((ha.kept_evalArguments hf hgo).of_ok hargs).1⟩

/-! ### The end of an evaluation from the ends of its parts -/

/-- Every part ends as it should. -/
theorem ends_of_starts (ha : I.Founded a) (hab : Starts a b) : I.Ends b :=
  ha.parts b hab (ha.holds_of_starts hab)

/-- An error is given by whatever evaluation it comes to. -/
theorem gives_error (ha : I.Founded a) (v : Value) (hv : v.isError) : I.gives a v :=
  I.computed ha.covers (Value.isComputed_of_isError hv)

theorem ends_of_passes (ha : I.Founded a) (hab : Passes a b) : Kept I.binds (I.gives a) b.result :=
  (ha.ends_of_starts (.passes hab)).mono fun _ => I.passes ha.covers hab

theorem ends_of_opens (ha : I.Founded a) (hab : Opens a b) : Kept I.binds (fun v => I.gives a v.unwrap) b.result :=
  (ha.ends_of_starts (.opens hab)).mono fun _ => I.opens ha.covers hab

/-- A program unwraps what its last statement gives. -/
theorem program (ha : I.Founded (.node (depth + 1) (.program ns) scope h)) :
    I.Ends (.node (depth + 1) (.program ns) scope h) := by
  rw [Ends, result, eval]
  cases depth with
  | zero =>
    unfold evalProgram
    exact .error ha.heap
  | succ depth =>
    unfold evalProgram
    have hlast : I.gives (.node (depth + 2) (.program ns) scope h) Value.null.unwrap := I.computed ha.covers rfl
    have hss := kept_sequence (V := fun v => I.gives _ v.unwrap) ha.heap hlast fun s h' hs =>
      ha.ends_of_opens (.program hs)
    exact hss.bind fun v h' _ hv hh => .ok hv hh

/-- A block hands on what its last statement gives. -/
theorem block (ha : I.Founded (.node (depth + 1) (.block t ns) scope h)) :
    I.Ends (.node (depth + 1) (.block t ns) scope h) := by
  rw [Ends, result, eval]
  cases depth with
  | zero =>
    unfold evalBlock
    exact .error ha.heap
  | succ depth =>
    unfold evalBlock
    exact kept_sequence ha.heap (I.computed ha.covers rfl) fun s h' hs => ha.ends_of_passes (.block hs)

/-- A conditional hands on what the branch gives that is taken. -/
theorem conditional (ha : I.Founded (.node (depth + 1) (.conditional t c n e) scope h)) :
    I.Ends (.node (depth + 1) (.conditional t c n e) scope h) := by
  rw [Ends, result, eval]
  cases depth with
  | zero =>
    unfold evalConditional
    exact .error ha.heap
  | succ depth =>
    unfold evalConditional
    refine (ha.part .condition ha.heap).proceed ha.gives_error fun v h' hv hgo _ hh => ?_
    split
    next ht => exact ha.ends_of_passes (.consequence hv hgo ht)
    next ht =>
      split
      next => exact .ok (I.computed ha.covers rfl) hh
      next hne => exact ha.ends_of_passes (.alternative hv hgo (Bool.eq_false_iff.2 ht) hne)

/-- A `let` binds the value it is given, unless that is an error. -/
theorem letStatement {target : Identifier} (ha : I.Founded (.node (depth + 1) (.letStatement t target n) scope h)) :
    I.Ends (.node (depth + 1) (.letStatement t target n) scope h) := by
  rw [Ends, result, eval]
  refine (ha.part .letValue ha.heap).proceed ha.gives_error fun v h' _ hgo hv hh => ?_
  exact .ok (I.computed ha.covers rfl) (hh.bind (I.letValue ha.covers hv hgo) scope target.name)

/-- A `return` wraps the value it is given, unless that is an error. -/
theorem returnStatement (ha : I.Founded (.node (depth + 1) (.returnStatement t n) scope h)) :
    I.Ends (.node (depth + 1) (.returnStatement t n) scope h) := by
  by_cases hne : n = .hole
  · subst hne
    rw [Ends, result, eval]
    exact kept_make ha.heap fun id => I.returnNothing id ha.covers
  · rw [Ends, result, eval_returnStatement hne]
    refine (ha.part (.returnValue hne) ha.heap).proceed ha.gives_error fun v h' heq hgo hv hh => ?_
    exact kept_make hh fun id => I.returnValue id ha.covers heq hv hgo

/-- A prefix operator computes a value from its operand's. -/
theorem unary {op : UnaryOp} (ha : I.Founded (.node (depth + 1) (.unary t op n) scope h)) :
    I.Ends (.node (depth + 1) (.unary t op n) scope h) := by
  rw [Ends, result, eval]
  refine (ha.part .operand ha.heap).proceed ha.gives_error fun v h' _ _ _ hh => ?_
  exact (operates_unary op v).kept hh fun w => I.computed ha.covers

/-- An operator computes a value from both of its operands'. -/
theorem binary {op : BinaryOp} (ha : I.Founded (.node (depth + 1) (.binary t n op e) scope h)) :
    I.Ends (.node (depth + 1) (.binary t n op e) scope h) := by
  rw [Ends, result, eval]
  refine (ha.part .left ha.heap).proceed ha.gives_error fun l h' hl hgo _ hh => ?_
  refine (ha.part (.right hl hgo) hh).proceed ha.gives_error fun r h'' _ _ _ hh' => ?_
  exact (operates_binary op l r).kept hh' fun w => I.computed ha.covers

/-- A call gives what comes of calling the callee, or an error. -/
theorem call (ha : I.Founded (.node (depth + 1) (.call t n ns) scope h)) :
    I.Ends (.node (depth + 1) (.call t n ns) scope h) := by
  rw [Ends, result, eval]
  refine (ha.part .callee ha.heap).proceed ha.gives_error fun f h' hf hgo _ hh => ?_
  refine (ha.kept_evalArguments hf hgo).bind fun r h'' hargs hr hh' => ?_
  cases r with
  | ok vs => exact (ha.ends_of_starts (.call hf hgo hargs)).mono fun v => I.called ha.covers
  | error err => exact .ok (ha.gives_error err hr) hh'

/-- A node ends as it should if its parts do. -/
theorem node (ha : I.Founded (.node depth n scope h)) : I.Ends (.node depth n scope h) := by
  cases depth with
  | zero =>
    rw [Ends, result, eval]
    exact .error ha.heap
  | succ depth =>
    cases n with
    | program ss => exact ha.program
    | block t ss => exact ha.block
    | conditional t c b e => exact ha.conditional
    | letStatement t target value => exact ha.letStatement
    | returnStatement t value => exact ha.returnStatement
    | unary t op operand => exact ha.unary
    | binary t left op right => exact ha.binary
    | call t callee args => exact ha.call
    | expressionStatement t e =>
      rw [Ends, result, eval]
      exact ha.ends_of_passes .expressionStatement
    | hole | unknown =>
      rw [Ends, result, eval]
      exact .error ha.heap
    | identifier id =>
      rw [Ends, result, eval]
      exact kept_lookup ha.heap (fun v => I.identifier ha.covers) fun v => I.computed ha.covers
    | integer t m =>
      rw [Ends, result, eval]
      exact kept_make ha.heap fun id => I.literal id ha.covers
    | boolean =>
      rw [Ends, result, eval]
      exact .ok (I.computed ha.covers rfl) ha.heap
    | function t ps body =>
      rw [Ends, result, eval]
      exact kept_make ha.heap fun id => I.function id ha.covers

/-- A call ends as it should if the body of the function does. -/
theorem apply (ha : I.Founded (.call depth f fs h)) : I.Ends (.call depth f fs h) := by
  rw [Ends, result]
  cases depth with
  | zero =>
    rw [Monkey.apply]
    exact .error ha.heap
  | succ depth =>
    unfold Monkey.apply
    split
    next id f =>
      split
      next hlength =>
        show Kept I.binds _ ((bindAll h.scopes.size f.parameters fs >>= fun _ => do
          let v ← eval depth f.body h.scopes.size
          return v.unwrap) (h.openScope (some f.scope)).2)
        refine (kept_bindAll ha.arguments (ha.heap.openScope _)).bind fun _ h' hbind _ _ => ?_
        exact (ha.ends_of_opens (.body hlength rfl hbind)).bind fun v h'' _ hv hh => .ok hv hh
      next => exact (operates_fail _).kept ha.heap fun v => I.computed ha.covers
    next => exact (operates_fail _).kept ha.heap fun v => I.computed ha.covers

/-- An evaluation that is founded ends as it should. -/
theorem ends (ha : I.Founded a) : I.Ends a := by
  cases a with
  | node => exact ha.node
  | call => exact ha.apply

end Founded

variable {I}

/-- **What an invariant says of an evaluation is so**, however the evaluation ends. -/
theorem Holds.ends {a : Evaluation} (ha : I.Holds a) : I.Ends a :=
  Founded.ends ⟨ha, fun b hab hb =>
    have : b.depth < a.depth := hab.depth_lt
    Holds.ends hb⟩
termination_by a.depth

/-- The parts of an evaluation end as they should, so every evaluation is founded. -/
theorem Holds.founded {a : Evaluation} (ha : I.Holds a) : I.Founded a :=
  ⟨ha, fun _ _ hb => hb.ends⟩

/-- An invariant holds of all evaluations on the way. -/
theorem Holds.performs {a b : Evaluation} (ha : I.Holds a) (hab : Performs a b) : I.Holds b := by
  induction hab with
  | refl => exact ha
  | tail _ hstep ih => exact ih.founded.holds_of_starts hstep

end Invariant

end Evaluation

end Monkey
