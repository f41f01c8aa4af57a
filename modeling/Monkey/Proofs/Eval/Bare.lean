import Monkey.Proofs.Eval.Nesting
import Monkey.Proofs.Heap.Bare

/-!
# Evaluation up to tokens

Evaluation does not look at tokens. It only hands them on, in the functions that it makes. So a tree without its tokens,
evaluated in a heap without tokens, gives what the tree gives and leaves what the tree leaves, but for the tokens there
(`Eval.Forgetting.all`). Hence trees that are the same up to tokens give the same up to tokens, in whatever heap
(`Eval.withoutTokens_eval_eq`).
-/

namespace Monkey

namespace Eval

/-! ## Computations step by step -/

/-- How a computation ends, but for the tokens in the heap; `f` forgets those in what it gives. -/
def withoutTokens {α β : Type} (f : α → β) : EStateM.Result Halt Heap α → EStateM.Result Halt Heap β
  | .ok a h => .ok (f a) h.bare
  | .error why h => .error why h.bare

/-- Two ends that are the same up to tokens. -/
theorem withoutTokens_eq_cases {α β : Type} {f : α → β} {r r' : EStateM.Result Halt Heap α}
    (hr : withoutTokens f r = withoutTokens f r') :
    (∃ a a' h h', r = .ok a h ∧ r' = .ok a' h' ∧ f a = f a' ∧ h.bare = h'.bare) ∨
      ∃ why h h', r = .error why h ∧ r' = .error why h' ∧ h.bare = h'.bare := by
  rcases r with ⟨a, h⟩ | ⟨why, h⟩ <;> rcases r' with ⟨a', h'⟩ | ⟨why', h'⟩ <;>
    simp only [withoutTokens, EStateM.Result.ok.injEq, EStateM.Result.error.injEq, reduceCtorEq] at hr
  · exact Or.inl ⟨a, a', h, h', rfl, rfl, hr⟩
  · obtain ⟨rfl, hh⟩ := hr
    exact Or.inr ⟨why, h, h', rfl, rfl, hh⟩

/-- `y` does without tokens what `x` does with them; `f` forgets those in what `x` gives. -/
def Forgets {α β : Type} (f : α → β) (x : Eval α) (y : Eval β) : Prop :=
  ∀ h : Heap, y h.bare = withoutTokens f (x h)

/-- The values of arguments without the tokens in them, or an error. -/
def bareArguments : Except Value (List Value) → Except Value (List Value)
  | .ok vs => .ok (vs.map Value.bare)
  | .error v => .error v.bare

section Steps

variable {α β α' β' : Type} {f : α → β} {g : α' → β'}

theorem Forgets.pure {a : α} {b : β} (h : f a = b) : Forgets f (pure a) (pure b) := by
  subst h
  exact fun _ => rfl

theorem Forgets.throw (why : Halt) : Forgets f (throw why) (throw why) :=
  fun _ => rfl

/-- One step after another forgets tokens if each step does, on what the one before gives. -/
theorem Forgets.bind {x : Eval α} {y : Eval β} {u : α → Eval α'} {v : β → Eval β'} (hxy : Forgets f x y)
    (huv : ∀ a, Forgets g (u a) (v (f a))) : Forgets g (x >>= u) (y >>= v) := by
  intro h
  rw [run_bind, run_bind, hxy h]
  cases x h with
  | ok a h' => exact huv a h'
  | error why h' => rfl

/-- What is decided without tokens is decided alike. -/
theorem Forgets.ite {x x' : Eval α} {y y' : Eval β} {c : Prop} [Decidable c] (hxy : Forgets f x y)
    (hxy' : Forgets f x' y') : Forgets f (if c then x else x') (if c then y else y') := by
  split
  · exact hxy
  · exact hxy'

/-- Errors and signals are told apart from other values without tokens. -/
theorem Forgets.proceed {x y : Eval Value} {u v : Value → Eval Value} (hxy : Forgets Value.bare x y)
    (huv : ∀ w, Forgets Value.bare (u w) (v w.bare)) : Forgets Value.bare (proceed x u) (proceed y v) := by
  refine hxy.bind fun w => ?_
  rw [Value.isError_bare]
  exact .ite (.pure rfl) (huv w)

/-- A new value gets the same number on both sides. -/
theorem forgets_make {value value' : ObjectId → Value} (hv : ∀ id, (value id).bare = value' id) :
    Forgets Value.bare (make value) (make value') := by
  intro h
  show EStateM.Result.ok (value' h.nextObject) _ = .ok (value h.nextObject).bare _
  rw [hv]
  rfl

theorem forgets_integer (n : Int) : Forgets Value.bare (integer n) (integer n) :=
  forgets_make fun _ => rfl

theorem forgets_fail (cause : RuntimeError) : Forgets Value.bare (fail cause) (fail cause) :=
  forgets_make fun _ => rfl

/-- A signal holds its value without tokens. -/
theorem forgets_signal (v : Value) : Forgets Value.bare (signal v) (signal v.bare) :=
  forgets_make fun _ => rfl

/-! ### Scopes -/

/-- **A name is looked up to the same value** but for the tokens in it. -/
theorem forgets_lookup (scope : ScopeId) (name : String) :
    Forgets Value.bare (lookup scope name) (lookup scope name) := by
  intro h
  have hbare := h.lookup_bare scope name
  cases hv : h.lookup scope name with
  | none =>
    rw [hv] at hbare
    rw [lookup_of_none hv, lookup_of_none hbare]
    exact forgets_fail _ h
  | some v =>
    rw [hv] at hbare
    rw [lookup_of_some hv, lookup_of_some hbare]
    rfl

/-- The scope that is opened has the same number on both sides. -/
theorem forgets_openScope (outer : Option ScopeId) : Forgets id (openScope outer) (openScope outer) := by
  intro h
  show EStateM.Result.ok (h.bare.openScope outer).1 (h.bare.openScope outer).2 = _
  rw [Heap.openScope_bare]
  rfl

/-- A value without tokens is bound where the value is bound. -/
theorem forgets_bind (scope : ScopeId) (name : String) (v : Value) :
    Forgets id (Eval.bind scope name v) (Eval.bind scope name v.bare) := by
  intro h
  show EStateM.Result.ok () (h.bare.bind scope name v.bare) = _
  rw [Heap.bind_bare]
  rfl

/-- Parameters are bound by their names, and so without their tokens. -/
theorem forgets_bindAll (scope : ScopeId) : ∀ (ps : List Identifier) (vs : List Value),
    Forgets id (bindAll scope ps vs) (bindAll scope (ps.map Identifier.bare) (vs.map Value.bare))
  | [], _ | _ :: _, [] => .pure rfl
  | p :: ps, v :: vs => (forgets_bind scope p.name v).bind fun _ => forgets_bindAll scope ps vs

/-! ### Operators -/

/-- An operator of one operand looks at no token. -/
theorem forgets_unary (op : UnaryOp) (v : Value) : Forgets Value.bare (unary op v) (unary op v.bare) := by
  cases op with
  | not =>
    rw [unary, unary, Value.isTruthy_bare]
    exact .pure rfl
  | negate =>
    cases v with
    | integer => exact forgets_integer _
    | boolean | null | returned | error | function => exact forgets_fail _
  | other s =>
    rw [unary, unary, Value.tag_bare]
    · exact forgets_fail _
    all_goals exact nofun

/-- An operator on integers looks at no token. -/
theorem forgets_integers (op : BinaryOp) (a b : Int) : Forgets Value.bare (integers op a b) (integers op a b) := by
  cases op with
  | add | sub | mul => exact forgets_integer _
  | div => exact .ite (forgets_fail _) (forgets_integer _)
  | lt | gt | eq | ne => exact .pure rfl
  | other s => exact forgets_fail _

/-- Values are compared without tokens. -/
theorem forgets_objects (op : BinaryOp) (v w : Value) :
    Forgets Value.bare (objects op v w) (objects op v.bare w.bare) := by
  unfold objects
  rw [Value.tag_bare, Value.tag_bare, Value.same_bare]
  split
  · exact .pure rfl
  · exact .pure rfl
  · exact .ite (forgets_fail _) (forgets_fail _)

/-- An operator of two operands looks at no token. -/
theorem forgets_binary (op : BinaryOp) (v w : Value) :
    Forgets Value.bare (binary op v w) (binary op v.bare w.bare) := by
  cases v with
  | integer =>
    cases w with
    | integer => exact forgets_integers _ _ _
    | boolean | null | returned | error | function => exact forgets_objects _ _ _
  | boolean | null | returned | error | function => exact forgets_objects _ _ _

/-! ### Runs of statements and arguments -/

variable {each : Node → Eval Value}

/-- Statements in a row forget tokens if each of them does. -/
theorem forgets_sequence (heach : ∀ s, Forgets Value.bare (each s) (each s.bare)) (ss : List Node) (last : Value) :
    Forgets Value.bare (sequence each last ss) (sequence each last.bare (Node.bareAll ss)) := by
  induction ss generalizing last with
  | nil => exact .pure rfl
  | cons s ss ih =>
    refine (heach s).bind fun v => ?_
    rw [Value.isSignal_bare]
    exact .ite (.pure rfl) (ih v)

/-- Arguments forget tokens if each of them does. -/
theorem forgets_collect (heach : ∀ e, Forgets Value.bare (each e) (each e.bare)) (es : List Node) :
    Forgets bareArguments (collect each es) (collect each (Node.bareAll es)) := by
  induction es with
  | nil => exact .pure rfl
  | cons e es ih =>
    refine (heach e).bind fun v => ?_
    rw [Value.isError_bare]
    refine .ite (.pure rfl) (ih.bind fun vs => ?_)
    cases vs with
    | ok vs => exact .pure rfl
    | error v => exact .pure rfl

end Steps

/-! ## Evaluation -/

/-- Each rule of evaluation, with `depth` levels of nesting left. -/
structure Forgetting (depth : Nat) : Prop where
  eval : ∀ n scope, Forgets Value.bare (eval depth n scope) (eval depth n.bare scope)
  evalProgram : ∀ ss scope,
    Forgets Value.bare (evalProgram depth ss scope) (evalProgram depth (Node.bareAll ss) scope)
  evalBlock : ∀ ss scope, Forgets Value.bare (evalBlock depth ss scope) (evalBlock depth (Node.bareAll ss) scope)
  evalConditional : ∀ c t e scope,
    Forgets Value.bare (evalConditional depth c t e scope) (evalConditional depth c.bare t.bare e.bare scope)
  evalArguments : ∀ args scope,
    Forgets bareArguments (evalArguments depth args scope) (evalArguments depth (Node.bareAll args) scope)
  apply : ∀ callee args, Forgets Value.bare (apply depth callee args) (apply depth callee.bare (args.map Value.bare))

namespace Forgetting

variable {depth : Nat}

/-- Without depth both sides are cut off. -/
theorem zero : Forgetting 0 := by
  constructor <;> intros
  · unfold Monkey.eval
    exact .throw _
  · unfold Monkey.evalProgram
    exact .throw _
  · unfold Monkey.evalBlock
    exact .throw _
  · unfold Monkey.evalConditional
    exact .throw _
  · unfold Monkey.evalArguments
    exact .throw _
  · unfold Monkey.apply
    exact .throw _

theorem step_program (hf : Forgetting depth) (ss : List Node) (scope : ScopeId) :
    Forgets Value.bare (Monkey.evalProgram (depth + 1) ss scope)
      (Monkey.evalProgram (depth + 1) (Node.bareAll ss) scope) := by
  unfold Monkey.evalProgram
  exact (forgets_sequence (hf.eval · scope) ss .null).bind fun v => .pure v.unwrap_bare.symm

theorem step_block (hf : Forgetting depth) (ss : List Node) (scope : ScopeId) :
    Forgets Value.bare (Monkey.evalBlock (depth + 1) ss scope)
      (Monkey.evalBlock (depth + 1) (Node.bareAll ss) scope) := by
  unfold Monkey.evalBlock
  exact forgets_sequence (hf.eval · scope) ss .null

theorem step_arguments (hf : Forgetting depth) (args : List Node) (scope : ScopeId) :
    Forgets bareArguments (Monkey.evalArguments (depth + 1) args scope)
      (Monkey.evalArguments (depth + 1) (Node.bareAll args) scope) := by
  unfold Monkey.evalArguments
  exact forgets_collect (hf.eval · scope) args

/-- The same branch is taken without tokens, and a missing one stays missing. -/
theorem step_conditional (hf : Forgetting depth) (c t e : Node) (scope : ScopeId) :
    Forgets Value.bare (Monkey.evalConditional (depth + 1) c t e scope)
      (Monkey.evalConditional (depth + 1) c.bare t.bare e.bare scope) := by
  unfold Monkey.evalConditional
  refine (hf.eval c scope).proceed fun v => ?_
  rw [Value.isTruthy_bare]
  refine .ite (hf.eval t scope) ?_
  have halternative := hf.eval e scope
  cases e with
  | hole => exact .pure rfl
  | _ => exact halternative

/-- A call binds parameters by name and evaluates the body, neither of which needs tokens. -/
theorem step_apply (hf : Forgetting depth) (callee : Value) (args : List Value) :
    Forgets Value.bare (Monkey.apply (depth + 1) callee args)
      (Monkey.apply (depth + 1) callee.bare (args.map Value.bare)) := by
  unfold Monkey.apply
  cases callee with
  | function id f =>
    dsimp only [Value.bare, Closure.bare]
    rw [List.length_map, List.length_map]
    refine .ite ?_ (forgets_fail _)
    exact (forgets_openScope _).bind fun scope => (forgets_bindAll scope _ args).bind fun _ =>
      (hf.eval f.body scope).bind fun v => .pure v.unwrap_bare.symm
  | integer | boolean | null | returned | error => exact forgets_fail _

/-- **One node**: no kind of node looks at its token. -/
theorem step_eval (hf : Forgetting depth) (n : Node) (scope : ScopeId) :
    Forgets Value.bare (Monkey.eval (depth + 1) n scope) (Monkey.eval (depth + 1) n.bare scope) := by
  cases n with
  | returnStatement t value =>
    rw [Node.bare]
    by_cases hhole : value = .hole
    · subst hhole
      rw [Node.bare, Monkey.eval, Monkey.eval]
      exact forgets_signal .null
    · rw [eval_returnStatement hhole, eval_returnStatement (Node.bare_ne_hole hhole)]
      exact (hf.eval value scope).proceed forgets_signal
  | hole | unknown cls =>
    rw [Node.bare, Monkey.eval]
    exact .throw _
  | program ss =>
    rw [Node.bare, Monkey.eval, Monkey.eval]
    exact hf.evalProgram ss scope
  | letStatement t target value =>
    rw [Node.bare, Monkey.eval, Monkey.eval]
    exact (hf.eval value scope).proceed fun v => (forgets_bind scope _ v).bind fun _ => .pure rfl
  | expressionStatement t e =>
    rw [Node.bare, Monkey.eval, Monkey.eval]
    exact hf.eval e scope
  | block t ss =>
    rw [Node.bare, Monkey.eval, Monkey.eval]
    exact hf.evalBlock ss scope
  | identifier id =>
    rw [Node.bare, Monkey.eval, Monkey.eval]
    exact forgets_lookup scope id.name
  | integer t n =>
    rw [Node.bare, Monkey.eval, Monkey.eval]
    exact forgets_integer n
  | boolean t b =>
    rw [Node.bare, Monkey.eval, Monkey.eval]
    exact .pure rfl
  | unary t op e =>
    rw [Node.bare, Monkey.eval, Monkey.eval]
    exact (hf.eval e scope).proceed (forgets_unary op)
  | binary t l op r =>
    rw [Node.bare, Monkey.eval, Monkey.eval]
    exact (hf.eval l scope).proceed fun v => (hf.eval r scope).proceed (forgets_binary op v)
  | conditional t c b e =>
    rw [Node.bare, Monkey.eval, Monkey.eval]
    exact hf.evalConditional c b e scope
  | function t ps body =>
    rw [Node.bare, Monkey.eval, Monkey.eval]
    exact forgets_make fun _ => rfl
  | call t callee args =>
    rw [Node.bare, Monkey.eval, Monkey.eval]
    refine (hf.eval callee scope).proceed fun v => (hf.evalArguments args scope).bind fun vs => ?_
    cases vs with
    | ok vs => exact hf.apply v vs
    | error v => exact .pure rfl

/-- One level of the evaluator keeps what holds one level below. -/
theorem step (hf : Forgetting depth) : Forgetting (depth + 1) where
  eval := hf.step_eval
  evalProgram := hf.step_program
  evalBlock := hf.step_block
  evalConditional := hf.step_conditional
  evalArguments := hf.step_arguments
  apply := hf.step_apply

/-- **Evaluation does not look at tokens**, to whatever depth. -/
theorem all : ∀ depth, Forgetting depth
  | 0 => zero
  | depth + 1 => (all depth).step

end Forgetting

/-- Trees that are the same up to tokens are evaluated in the same way up to tokens. -/
theorem withoutTokens_eval_eq {n n' : Node} (hn : n.bare = n'.bare) (depth : Nat) (scope : ScopeId) (h : Heap) :
    withoutTokens Value.bare (eval depth n scope h) = withoutTokens Value.bare (eval depth n' scope h) := by
  have hforgets := Forgetting.all depth
  rw [← hforgets.eval n scope h, hn, hforgets.eval n' scope h]

end Eval

end Monkey
