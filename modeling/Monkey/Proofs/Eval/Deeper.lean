import Monkey.Proofs.Eval.Frame

/-!
# Evaluation with more depth

The depth only cuts evaluation off. What ends within some depth ends in the same way within any greater one, with the
same value and the same heap. What is cut off has made those bindings that are made first if it is not cut off so soon
(`Eval.Deepening.all`).

`Eval.Continues x y` says so of two computations step by step: `y` does what `x` does, and where `x` is cut off, `y`
has got as far or gets further.
-/

namespace Monkey

namespace Eval

/-- `y` ends as `x` does, or `x` is cut off and all that it has recorded by then is what `y` records first. -/
def Continues {α : Type} (x y : Eval α) : Prop :=
  ∀ h : Heap, h.journal <:+ (y.after h).journal ∧
    (x h = y h ∨ ∃ h', x h = .error .tooDeep h' ∧ h'.journal <:+ (y.after h).journal)

/-- What may be bound anywhere. -/
abbrev anywhere : ScopeId → String → Prop :=
  fun _ _ => True

section Steps

variable {α β : Type} {x y : Eval α} {f g : α → Eval β} {W : ScopeId → String → Prop} {each each' : Node → Eval Value}

/-- Whatever does not depend on the depth. -/
theorem Within.continues (hx : Within anywhere x) : Continues x x :=
  fun h => ⟨(hx h).journal_suffix, Or.inl rfl⟩

/-- A computation that runs out of levels at once is continued by every other one that opens and binds scopes. -/
theorem Within.continues_throw (hy : Within W y) : Continues (throw .tooDeep) y :=
  fun h => ⟨(hy h).journal_suffix, Or.inr ⟨h, rfl, (hy h).journal_suffix⟩⟩

/-- Giving a value at once does not depend on the depth. -/
theorem continues_pure (a : α) : Continues (pure a) (pure a) :=
  (within_pure a).continues

/-- Behind a computation that has been cut off nothing more is done; what has been recorded stays so. -/
theorem Continues.bind (hxy : Continues x y) (hfg : ∀ a, Continues (f a) (g a)) : Continues (x >>= f) (y >>= g) := by
  intro h
  obtain ⟨hgrows, hends⟩ := hxy h
  have hlater : (y.after h).journal <:+ ((y >>= g).after h).journal := by
    unfold after
    rw [run_bind]
    cases y h with
    | ok a h' => exact (hfg a h').1
    | error why h' => exact List.suffix_refl _
  refine ⟨hgrows.trans hlater, ?_⟩
  rcases hends with heq | ⟨h', hcut, hsuffix⟩
  · unfold after
    rw [run_bind, run_bind, heq]
    cases y h with
    | ok a h' => exact (hfg a h').2
    | error why h' => exact Or.inl rfl
  · exact Or.inr ⟨h', by rw [run_bind, hcut], hsuffix.trans hlater⟩

/-- What goes on with a value unless it is an error continues where both parts do. -/
theorem Continues.proceed {x y : Eval Value} {f g : Value → Eval Value} (hxy : Continues x y)
    (hfg : ∀ v, Continues (f v) (g v)) : Continues (proceed x f) (proceed y g) := by
  refine hxy.bind fun v => ?_
  split
  · exact continues_pure v
  · exact hfg v

/-- A sequence of statements continues where each of them does. -/
theorem continues_sequence (heach : ∀ s, Continues (each s) (each' s)) (ss : List Node) (last : Value) :
    Continues (sequence each last ss) (sequence each' last ss) := by
  induction ss generalizing last with
  | nil => exact continues_pure last
  | cons s ss ih =>
    refine (heach s).bind fun v => ?_
    split
    · exact continues_pure v
    · exact ih v

/-- The arguments of a call continue where each of them does. -/
theorem continues_collect (heach : ∀ e, Continues (each e) (each' e)) (es : List Node) :
    Continues (collect each es) (collect each' es) := by
  induction es with
  | nil => exact continues_pure _
  | cons e es ih =>
    refine (heach e).bind fun v => ?_
    split
    · exact continues_pure _
    · refine ih.bind fun r => ?_
      cases r with
      | ok vs => exact continues_pure _
      | error err => exact continues_pure _

/-- A computation that is not cut off ends in the same way with more depth. -/
theorem Continues.eq_of_ne (hxy : Continues x y) {h : Heap} (hne : ∀ h', x h ≠ .error .tooDeep h') : x h = y h := by
  rcases (hxy h).2 with heq | ⟨h', hcut, -⟩
  · exact heq
  · exact absurd hcut (hne h')

end Steps

/-! ## Evaluation -/

/-- Each rule of evaluation, with `n` levels of nesting left and with `m` levels. -/
structure Deepening (n m : Nat) : Prop where
  eval : ∀ node scope, Continues (eval n node scope) (eval m node scope)
  evalProgram : ∀ ss scope, Continues (evalProgram n ss scope) (evalProgram m ss scope)
  evalBlock : ∀ ss scope, Continues (evalBlock n ss scope) (evalBlock m ss scope)
  evalConditional : ∀ c t e scope, Continues (evalConditional n c t e scope) (evalConditional m c t e scope)
  evalArguments : ∀ args scope, Continues (evalArguments n args scope) (evalArguments m args scope)
  apply : ∀ callee args, Continues (apply n callee args) (apply m callee args)

namespace Deepening

variable {n m : Nat}

/-- Without any depth left everything is cut off at once. -/
theorem zero (m : Nat) : Deepening 0 m where
  eval node scope := by
    rw [Monkey.eval]
    exact ((Frames.all m).eval node scope).continues_throw
  evalProgram ss scope := by
    rw [Monkey.evalProgram]
    exact ((Frames.all m).evalProgram ss scope).continues_throw
  evalBlock ss scope := by
    rw [Monkey.evalBlock]
    exact ((Frames.all m).evalBlock ss scope).continues_throw
  evalConditional c t e scope := by
    rw [Monkey.evalConditional]
    exact ((Frames.all m).evalConditional c t e scope).continues_throw
  evalArguments args scope := by
    rw [Monkey.evalArguments]
    exact ((Frames.all m).evalArguments args scope).continues_throw
  apply callee args := by
    rw [Monkey.apply]
    exact ((Frames.all m).apply anywhere callee args).continues_throw

theorem step_program (hd : Deepening n m) (ss : List Node) (scope : ScopeId) :
    Continues (Monkey.evalProgram (n + 1) ss scope) (Monkey.evalProgram (m + 1) ss scope) := by
  unfold Monkey.evalProgram
  exact (continues_sequence (hd.eval · scope) ss .null).bind fun v => continues_pure v.unwrap

theorem step_block (hd : Deepening n m) (ss : List Node) (scope : ScopeId) :
    Continues (Monkey.evalBlock (n + 1) ss scope) (Monkey.evalBlock (m + 1) ss scope) := by
  unfold Monkey.evalBlock
  exact continues_sequence (hd.eval · scope) ss .null

theorem step_arguments (hd : Deepening n m) (args : List Node) (scope : ScopeId) :
    Continues (Monkey.evalArguments (n + 1) args scope) (Monkey.evalArguments (m + 1) args scope) := by
  unfold Monkey.evalArguments
  exact continues_collect (hd.eval · scope) args

theorem step_conditional (hd : Deepening n m) (c t e : Node) (scope : ScopeId) :
    Continues (Monkey.evalConditional (n + 1) c t e scope) (Monkey.evalConditional (m + 1) c t e scope) := by
  unfold Monkey.evalConditional
  refine (hd.eval c scope).proceed fun v => ?_
  split
  · exact hd.eval t scope
  · split
    · exact continues_pure _
    · exact hd.eval e scope

/-- A call continues where the body of the function does. -/
theorem step_apply (hd : Deepening n m) (callee : Value) (args : List Value) :
    Continues (Monkey.apply (n + 1) callee args) (Monkey.apply (m + 1) callee args) := by
  have hopen (outer : Option ScopeId) : Within anywhere (openScope outer) := fun _ => .openScope outer .refl
  unfold Monkey.apply
  cases callee with
  | function id f =>
    dsimp only
    split
    · refine (hopen _).continues.bind fun scope => ?_
      refine (within_bindAll (fun _ => trivial) f.parameters args).continues.bind fun _ => ?_
      exact (hd.eval f.body scope).bind fun v => continues_pure v.unwrap
    · exact (within_fail _).continues
  | integer | boolean | null | returned | error => exact (within_fail _).continues

theorem step_return (hd : Deepening n m) (t : Token) (value : Node) (scope : ScopeId) :
    Continues (Monkey.eval (n + 1) (.returnStatement t value) scope)
      (Monkey.eval (m + 1) (.returnStatement t value) scope) := by
  have hsignal (v : Value) : Within anywhere (signal v) := within_make _
  by_cases hv : value = .hole
  · subst hv
    rw [Monkey.eval, Monkey.eval]
    exact (hsignal .null).continues
  · rw [Monkey.eval, Monkey.eval]
    · exact (hd.eval value scope).proceed fun v => (hsignal v).continues
    · exact hv
    · exact hv

/-- Each kind of node continues where its parts do. -/
theorem step_eval (hd : Deepening n m) (node : Node) (scope : ScopeId) :
    Continues (Monkey.eval (n + 1) node scope) (Monkey.eval (m + 1) node scope) := by
  cases node
  case returnStatement t value => exact hd.step_return t value scope
  all_goals unfold Monkey.eval
  case hole => exact (within_throw _).continues
  case unknown cls => exact (within_throw _).continues
  case program ss => exact hd.evalProgram ss scope
  case block t ss => exact hd.evalBlock ss scope
  case expressionStatement t e => exact hd.eval e scope
  case letStatement t target value =>
    refine (hd.eval value scope).proceed fun v => ?_
    exact (within_bind v trivial).continues.bind fun _ => continues_pure _
  case identifier id => exact (within_lookup scope id.name).continues
  case integer t k => exact (within_integer k).continues
  case boolean t b => exact continues_pure _
  case function t ps body => exact (within_make _).continues
  case unary t op operand =>
    exact (hd.eval operand scope).proceed fun v => ((operates_unary op v).within).continues
  case binary t left op right =>
    refine (hd.eval left scope).proceed fun l => (hd.eval right scope).proceed fun r => ?_
    exact ((operates_binary op l r).within).continues
  case conditional t c b e => exact hd.evalConditional c b e scope
  case call t callee args =>
    refine (hd.eval callee scope).proceed fun f => (hd.evalArguments args scope).bind fun r => ?_
    cases r with
    | ok vs => exact hd.apply f vs
    | error err => exact continues_pure err

theorem step (hd : Deepening n m) : Deepening (n + 1) (m + 1) where
  eval := hd.step_eval
  evalProgram := hd.step_program
  evalBlock := hd.step_block
  evalConditional := hd.step_conditional
  evalArguments := hd.step_arguments
  apply := hd.step_apply

/-- **More depth lets evaluation go on**, and changes nothing of what has ended without it. -/
theorem all : ∀ {n m : Nat}, n ≤ m → Deepening n m
  | 0, _, _ => zero _
  | _ + 1, _ + 1, hle => (all (Nat.le_of_succ_le_succ hle)).step

end Deepening

end Eval

end Monkey
