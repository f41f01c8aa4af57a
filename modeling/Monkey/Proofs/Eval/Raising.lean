import Monkey.Proofs.Eval.Nesting
import Monkey.Proofs.Heap.Bound

/-!
# Errors as exceptions

Evaluation hands errors on as values: whoever needs a value asks whether it is one. `Raising.eval` evaluates the same
programs and never asks. What an operation finds wrong is raised there, and nothing catches it before the end.

Both come to the same, the same value from the same heap (`eval_eq_caught`), if no scope binds an error to begin with:
`Raising.Agrees` says so of two computations step by step, and it is shown of all rules of evaluation together, by
induction on the depth (`Raising.Agreement.all`).
-/

namespace Monkey

/-- No scope binds a name to an error. -/
def Heap.BindsNoError (h : Heap) : Prop :=
  ∀ (i : ScopeId) (s : Scope), h.scopes[i]? = some s → ∀ (name : String) (v : Value), s.find? name = some v →
    v.isError = false

/-! ## Evaluation with exceptions -/

/-- Why evaluation with exceptions ends without a value. -/
inductive Raised where
  | fault (err : Value)
  | halt (why : Halt)

/-- Evaluation with exceptions. -/
abbrev Raising := EStateM Raised Heap

namespace Raising

/-- A step that finds nothing wrong. -/
def step {α : Type} (x : Eval α) : Raising α := fun h =>
  match x h with
  | .ok a h' => .ok a h'
  | .error why h' => .error (.halt why) h'

/-- An operation; what it finds wrong is raised. -/
def operation (x : Eval Value) : Raising Value := fun h =>
  match x h with
  | .ok v h' => if v.isError then .error (.fault v) h' else .ok v h'
  | .error why h' => .error (.halt why) h'

/-- The value a name is bound to. -/
def lookup (scope : ScopeId) (name : String) : Raising Value := do
  match (← get).lookup scope name with
  | some v => return v
  | none => operation (Eval.fail (.unbound name))

/-- What a return signal carries; any other value is left as it is. -/
def unwrap : Value → Raising Value
  | .returned _ v => operation (return v)
  | v => return v

/-- The value of the last of some statements, or the first return signal among their values. -/
def sequence (each : Node → Raising Value) (last : Value) : List Node → Raising Value
  | [] => return last
  | s :: rest => do
    let v ← each s
    match v with
    | .returned .. => return v
    | _ => sequence each v rest

/-- The values of some expressions, from left to right. -/
def collect (each : Node → Raising Value) : List Node → Raising (List Value)
  | [] => return []
  | e :: rest => do
    let v ← each e
    let vs ← collect each rest
    return v :: vs

mutual

/-- The value of a node in a scope. -/
def eval : Nat → Node → ScopeId → Raising Value
  | 0, _, _ => throw (.halt .tooDeep)
  | depth + 1, node, scope =>
    match node with
    | .hole => throw (.halt .missingNode)
    | .unknown cls => throw (.halt (.unknownNode cls))
    | .program ss => evalProgram depth ss scope
    | .block _ ss => evalBlock depth ss scope
    | .expressionStatement _ e => eval depth e scope
    | .letStatement _ target value => do
      let v ← eval depth value scope
      step (Eval.bind scope target.name v)
      return .null
    | .returnStatement _ .hole => step (Eval.signal .null)
    | .returnStatement _ value => do
      let v ← eval depth value scope
      step (Eval.signal v)
    | .identifier id => lookup scope id.name
    | .integer _ n => step (Eval.integer n)
    | .boolean _ b => return .boolean b
    | .function _ ps body => step (Eval.function ⟨ps, body, scope⟩)
    | .unary _ op operand => do
      let v ← eval depth operand scope
      operation (Eval.unary op v)
    | .binary _ left op right => do
      let l ← eval depth left scope
      let r ← eval depth right scope
      operation (Eval.binary op l r)
    | .conditional _ c t e => evalConditional depth c t e scope
    | .call _ callee args => do
      let f ← eval depth callee scope
      let vs ← evalArguments depth args scope
      apply depth f vs

/-- The value of a program. -/
def evalProgram : Nat → List Node → ScopeId → Raising Value
  | 0, _, _ => throw (.halt .tooDeep)
  | depth + 1, ss, scope => do
    let v ← sequence (fun s => eval depth s scope) .null ss
    unwrap v

/-- The value of a block. -/
def evalBlock : Nat → List Node → ScopeId → Raising Value
  | 0, _, _ => throw (.halt .tooDeep)
  | depth + 1, ss, scope => sequence (fun s => eval depth s scope) .null ss

/-- The value of the branch that a condition chooses; null if that branch is not there. -/
def evalConditional : Nat → Node → Node → Node → ScopeId → Raising Value
  | 0, _, _, _, _ => throw (.halt .tooDeep)
  | depth + 1, c, t, e, scope => do
    let v ← eval depth c scope
    if v.isTruthy then eval depth t scope
    else
      match e with
      | .hole => return .null
      | e => eval depth e scope

/-- The values of the arguments of a call. -/
def evalArguments : Nat → List Node → ScopeId → Raising (List Value)
  | 0, _, _ => throw (.halt .tooDeep)
  | depth + 1, args, scope => collect (fun a => eval depth a scope) args

/-- The value of a call. -/
def apply : Nat → Value → List Value → Raising Value
  | 0, _, _ => throw (.halt .tooDeep)
  | depth + 1, callee, args =>
    match callee with
    | .function _ f =>
      if args.length = f.parameters.length then do
        let scope ← step (Eval.openScope (some f.scope))
        step (Eval.bindAll scope f.parameters args)
        let v ← eval depth f.body scope
        unwrap v
      else operation (Eval.fail (.wrongArity f.parameters.length args.length))
    | v => operation (Eval.fail (.notAFunction v.tag))

end

/-- What is raised is caught at the very end: an error is the value then. -/
def caught (x : Raising Value) : Eval Value := fun h =>
  match x h with
  | .ok v h' => .ok v h'
  | .error (.fault err) h' => .ok err h'
  | .error (.halt why) h' => .error why h'

end Raising

/-! ## Heaps that bind no error -/

namespace Heap.BindsNoError

variable {h : Heap} {v : Value}

theorem number (hh : h.BindsNoError) : BindsNoError { h with nextObject := h.nextObject + 1 } :=
  hh

theorem openScope (hh : h.BindsNoError) (outer : Option ScopeId) : (h.openScope outer).2.BindsNoError :=
  BindsOnly.openScope hh outer

theorem bind (hh : h.BindsNoError) (hv : v.isError = false) (scope : ScopeId) (name : String) :
    (h.bind scope name v).BindsNoError :=
  BindsOnly.bind hh hv scope name

/-- What is looked up where no error is bound is no error. -/
theorem lookup (hh : h.BindsNoError) {scope : ScopeId} {name : String} (hv : h.lookup scope name = some v) :
    v.isError = false :=
  BindsOnly.lookup hh hv

end Heap.BindsNoError

namespace Raising

/-! ## Agreement step by step -/

/-- How two computations of a value end if they agree: with the same value, which is not an error; with an error that
the one gives and the other raises; or both without a value. The heap is the same. -/
inductive Outcome : EStateM.Result Halt Heap Value → EStateM.Result Raised Heap Value → Prop
  | value {v h} : v.isError = false → h.BindsNoError → Outcome (.ok v h) (.ok v h)
  | fault {err h} : err.isError → Outcome (.ok err h) (.error (.fault err) h)
  | halt {why h} : Outcome (.error why h) (.error (.halt why) h)

/-- How two computations of some values end if they agree. -/
inductive Outcomes : EStateM.Result Halt Heap (Except Value (List Value)) →
    EStateM.Result Raised Heap (List Value) → Prop
  | values {vs h} : (∀ v ∈ vs, v.isError = false) → h.BindsNoError → Outcomes (.ok (.ok vs) h) (.ok vs h)
  | fault {err h} : err.isError → Outcomes (.ok (.error err) h) (.error (.fault err) h)
  | halt {why h} : Outcomes (.error why h) (.error (.halt why) h)

/-- From a heap that binds no error the two computations end alike. -/
def Agrees (x : Eval Value) (y : Raising Value) : Prop :=
  ∀ ⦃h : Heap⦄, h.BindsNoError → Outcome (x h) (y h)

/-- From a heap that binds no error the two computations of some values end alike. -/
def AgreesOnAll (x : Eval (Except Value (List Value))) (y : Raising (List Value)) : Prop :=
  ∀ ⦃h : Heap⦄, h.BindsNoError → Outcomes (x h) (y h)

section Steps

variable {α β : Type} {v : Value} {x : Eval Value} {y : Raising Value} {f : Value → Eval Value}
  {g : Value → Raising Value}

/-- A computation after another one. -/
theorem run_bind (y : Raising α) (g : α → Raising β) (h : Heap) :
    (y >>= g) h = match y h with
      | .ok a h' => g a h'
      | .error why h' => .error why h' := by
  show EStateM.bind y g h = _
  unfold EStateM.bind
  cases y h <;> rfl

theorem Agrees.pure (hv : v.isError = false) : Agrees (pure v) (pure v) :=
  fun _ hh => .value hv hh

theorem Agrees.throw (why : Halt) : Agrees (throw why) (throw (.halt why)) :=
  fun _ _ => .halt

/-- Making a value that is no error agrees with a step that does. -/
theorem Agrees.make {value : ObjectId → Value} (hv : ∀ id, (value id).isError = false) :
    Agrees (Eval.make value) (step (Eval.make value)) :=
  fun _ hh => .value (hv _) hh.number

/-- Where the one computation goes on unless there is an error, the other one just goes on. -/
theorem Agrees.proceed (hxy : Agrees x y) (hfg : ∀ v, v.isError = false → Agrees (f v) (g v)) :
    Agrees (Eval.proceed x f) (y >>= g) := by
  intro h hh
  rw [run_bind]
  have hout := hxy hh
  generalize hx : x h = r at hout
  generalize y h = r' at hout
  cases hout with
  | value hv hh' =>
    rw [Eval.proceed_of_ok hx hv]
    exact hfg _ hv hh'
  | fault he =>
    rw [Eval.proceed_of_error hx he]
    exact .fault he
  | halt =>
    rw [Eval.proceed, Eval.run_bind, hx]
    exact .halt

/-- A computation of values after one of a value. -/
theorem AgreesOnAll.cons {xs : Eval (Except Value (List Value))} {ys : Raising (List Value)} (hxy : Agrees x y)
    (hxys : AgreesOnAll xs ys) :
    AgreesOnAll
      (do
        let v ← x
        if v.isError then return .error v
        else
          match ← xs with
          | .ok vs => return .ok (v :: vs)
          | .error err => return .error err)
      (do
        let v ← y
        let vs ← ys
        return v :: vs) := by
  intro h hh
  rw [Eval.run_bind, run_bind]
  have hout := hxy hh
  generalize x h = r at hout
  generalize y h = r' at hout
  cases hout with
  | fault he =>
    dsimp only
    rw [if_pos he]
    exact .fault he
  | halt => exact .halt
  | @value v h' hv hh' =>
    dsimp only
    rw [hv, if_neg Bool.false_ne_true, Eval.run_bind, run_bind]
    have hout := hxys hh'
    generalize xs h' = r at hout
    generalize ys h' = r' at hout
    cases hout with
    | values hvs hh'' => exact .values (List.forall_mem_cons.2 ⟨hv, hvs⟩) hh''
    | fault he => exact .fault he
    | halt => exact .halt

/-! ### Operations -/

/-- An operation that binds nothing. -/
theorem Agrees.operation (hx : ∀ h, (x.after h).scopes = h.scopes) : Agrees x (operation x) := by
  intro h hh
  have hscopes := hx h
  unfold Eval.after at hscopes
  unfold Raising.operation
  generalize x h = r at hscopes
  cases r with
  | ok v h' =>
    dsimp only at hscopes ⊢
    by_cases hv : v.isError
    · rw [if_pos hv]
      exact .fault hv
    · rw [if_neg hv]
      exact .value (Bool.eq_false_iff.2 hv) (Heap.BindsOnly.of_scopes hh hscopes)
  | error why h' => exact .halt

/-- An error that is made agrees with one that is raised. -/
theorem Agrees.fail (cause : RuntimeError) : Agrees (Eval.fail cause) (Raising.operation (Eval.fail cause)) :=
  .operation (Eval.operates_fail cause).scopes_after

/-- A lookup that fails raises what it would give. -/
theorem agrees_lookup (scope : ScopeId) (name : String) : Agrees (Eval.lookup scope name) (lookup scope name) := by
  intro h hh
  show Outcome ((match h.lookup scope name with
    | some v => Pure.pure v
    | none => Eval.fail (.unbound name)) h) ((match h.lookup scope name with
    | some v => Pure.pure v
    | none => Raising.operation (Eval.fail (.unbound name))) h)
  cases hv : h.lookup scope name with
  | some v => exact .value (hh.lookup hv) hh
  | none => exact Agrees.fail _ hh

/-! ### Runs of statements, arguments and calls -/

/-- Binding a value that is no error agrees with a step that does. -/
theorem agrees_bind (hv : v.isError = false) (scope : ScopeId) (name : String) :
    Agrees (do
      Eval.bind scope name v
      return .null) (do
      step (Eval.bind scope name v)
      return .null) :=
  fun _ hh => .value rfl (hh.bind hv scope name)

/-- Unwrapping raises an error that a signal carries. -/
theorem agrees_unwrap (hxy : Agrees x y) : Agrees (do return (← x).unwrap) (do unwrap (← y)) := by
  intro h hh
  rw [Eval.run_bind, run_bind]
  have hout := hxy hh
  generalize x h = r at hout
  generalize y h = r' at hout
  cases hout with
  | halt => exact .halt
  | @fault err h' he =>
    show Outcome (.ok err.unwrap h') _
    rw [Value.unwrap_of_isError he]
    exact .fault he
  | @value v h' hv hh' =>
    cases v with
    | returned id w => exact Agrees.operation (x := Pure.pure w) (fun _ => rfl) hh'
    | error => exact absurd hv.symm Bool.false_ne_true
    | integer | boolean | null | function => exact .value hv hh'

/-- A sequence of statements that agree one by one agrees. -/
theorem agrees_sequence {each : Node → Eval Value} {each' : Node → Raising Value} {ss : List Node} {last : Value}
    (hlast : last.isError = false) (hss : ∀ s ∈ ss, Agrees (each s) (each' s)) :
    Agrees (Eval.sequence each last ss) (sequence each' last ss) := by
  induction ss generalizing last with
  | nil => exact .pure hlast
  | cons s rest ih =>
    intro h hh
    rw [Eval.sequence, sequence, Eval.run_bind, run_bind]
    have hout := hss s List.mem_cons_self hh
    generalize each s h = r at hout
    generalize each' s h = r' at hout
    cases hout with
    | halt => exact .halt
    | fault he =>
      dsimp only
      rw [if_pos (Value.isSignal_of_isError he)]
      exact .fault he
    | @value v h' hv hh' =>
      have hrest := ih hv fun s' hs' => hss s' (List.mem_cons_of_mem s hs')
      cases v with
      | returned => exact .value hv hh'
      | error => exact absurd hv.symm Bool.false_ne_true
      | integer | boolean | null | function => exact hrest hh'

/-- Arguments that agree one by one agree. -/
theorem agrees_collect {each : Node → Eval Value} {each' : Node → Raising Value} {es : List Node}
    (hes : ∀ e ∈ es, Agrees (each e) (each' e)) : AgreesOnAll (Eval.collect each es) (collect each' es) := by
  induction es with
  | nil => exact fun _ hh => .values nofun hh
  | cons e rest ih =>
    exact .cons (hes e List.mem_cons_self) (ih fun e' he' => hes e' (List.mem_cons_of_mem e he'))

/-- Where the one computation looks whether some values are there, the other one just goes on. -/
theorem AgreesOnAll.bind {xs : Eval (Except Value (List Value))} {ys : Raising (List Value)}
    {f : List Value → Eval Value} {g : List Value → Raising Value} (hxys : AgreesOnAll xs ys)
    (hfg : ∀ vs, (∀ v ∈ vs, v.isError = false) → Agrees (f vs) (g vs)) :
    Agrees
      (do
        match ← xs with
        | .ok vs => f vs
        | .error err => return err)
      (ys >>= g) := by
  intro h hh
  rw [Eval.run_bind, run_bind]
  have hout := hxys hh
  generalize xs h = r at hout
  generalize ys h = r' at hout
  cases hout with
  | values hvs hh' => exact hfg _ hvs hh'
  | fault he => exact .fault he
  | halt => exact .halt

/-- Binding values that are no errors never fails and leaves a heap that binds none. -/
theorem exists_bindAll (scope : ScopeId) : ∀ (ps : List Identifier) {vs : List Value} {h : Heap},
    (∀ v ∈ vs, v.isError = false) → h.BindsNoError →
      ∃ h', Eval.bindAll scope ps vs h = .ok () h' ∧ h'.BindsNoError
  | [], _, h, _, hh | _ :: _, [], h, _, hh => ⟨h, rfl, hh⟩
  | p :: ps, _ :: _, _, hvs, hh =>
    have hvs := List.forall_mem_cons.1 hvs
    exists_bindAll scope ps hvs.2 (hh.bind hvs.1 scope p.name)

/-- The parameters of a function are bound in a new scope, and its body is evaluated there. -/
theorem agrees_call {outer : Option ScopeId} {ps : List Identifier} {args : List Value} {f : ScopeId → Eval Value}
    {g : ScopeId → Raising Value} (hargs : ∀ v ∈ args, v.isError = false) (hfg : ∀ scope, Agrees (f scope) (g scope)) :
    Agrees
      (do
        let scope ← Eval.openScope outer
        Eval.bindAll scope ps args
        f scope)
      (do
        let scope ← step (Eval.openScope outer)
        step (Eval.bindAll scope ps args)
        g scope) := by
  intro h hh
  obtain ⟨h', hbind, hh'⟩ := exists_bindAll h.scopes.size ps hargs (hh.openScope outer)
  have hstep : step (Eval.bindAll h.scopes.size ps args) (h.openScope outer).2 = .ok () h' := by
    rw [step, hbind]
  show Outcome ((Eval.bindAll h.scopes.size ps args >>= fun _ => f h.scopes.size) (h.openScope outer).2)
    ((step (Eval.bindAll h.scopes.size ps args) >>= fun _ => g h.scopes.size) (h.openScope outer).2)
  rw [Eval.run_bind, run_bind, hbind, hstep]
  exact hfg _ hh'

end Steps

/-! ## Agreement of the rules -/

/-- Each rule of evaluation agrees with its counterpart, with `depth` levels of nesting left. -/
structure Agreement (depth : Nat) : Prop where
  eval : ∀ (node : Node) (scope : ScopeId), Agrees (Monkey.eval depth node scope) (eval depth node scope)
  evalProgram : ∀ (ss : List Node) (scope : ScopeId),
    Agrees (Monkey.evalProgram depth ss scope) (evalProgram depth ss scope)
  evalBlock : ∀ (ss : List Node) (scope : ScopeId), Agrees (Monkey.evalBlock depth ss scope) (evalBlock depth ss scope)
  evalConditional : ∀ (c t e : Node) (scope : ScopeId),
    Agrees (Monkey.evalConditional depth c t e scope) (evalConditional depth c t e scope)
  evalArguments : ∀ (args : List Node) (scope : ScopeId),
    AgreesOnAll (Monkey.evalArguments depth args scope) (evalArguments depth args scope)
  apply : ∀ (callee : Value) (args : List Value), (∀ v ∈ args, v.isError = false) →
    Agrees (Monkey.apply depth callee args) (apply depth callee args)

namespace Agreement

variable {depth : Nat}

/-- Without levels of nesting left both halt. -/
theorem zero : Agreement 0 := by
  constructor <;> intros
  · unfold Monkey.eval Raising.eval
    exact .throw _
  · unfold Monkey.evalProgram Raising.evalProgram
    exact .throw _
  · unfold Monkey.evalBlock Raising.evalBlock
    exact .throw _
  · unfold Monkey.evalConditional Raising.evalConditional
    exact .throw _
  · unfold Monkey.evalArguments Raising.evalArguments
    exact fun _ _ => .halt
  · unfold Monkey.apply Raising.apply
    exact .throw _

/-- Programs agree if their statements do. -/
theorem step_program (ha : Agreement depth) (ss : List Node) (scope : ScopeId) :
    Agrees (Monkey.evalProgram (depth + 1) ss scope) (Raising.evalProgram (depth + 1) ss scope) := by
  unfold Monkey.evalProgram Raising.evalProgram
  exact agrees_unwrap (agrees_sequence rfl fun s _ => ha.eval s scope)

/-- Blocks agree if their statements do. -/
theorem step_block (ha : Agreement depth) (ss : List Node) (scope : ScopeId) :
    Agrees (Monkey.evalBlock (depth + 1) ss scope) (Raising.evalBlock (depth + 1) ss scope) := by
  unfold Monkey.evalBlock Raising.evalBlock
  exact agrees_sequence rfl fun s _ => ha.eval s scope

/-- Arguments agree if each of them does. -/
theorem step_arguments (ha : Agreement depth) (args : List Node) (scope : ScopeId) :
    AgreesOnAll (Monkey.evalArguments (depth + 1) args scope) (Raising.evalArguments (depth + 1) args scope) := by
  unfold Monkey.evalArguments Raising.evalArguments
  exact agrees_collect fun a _ => ha.eval a scope

/-- Conditionals agree if their parts do. -/
theorem step_conditional (ha : Agreement depth) (c t e : Node) (scope : ScopeId) :
    Agrees (Monkey.evalConditional (depth + 1) c t e scope) (Raising.evalConditional (depth + 1) c t e scope) := by
  unfold Monkey.evalConditional Raising.evalConditional
  refine (ha.eval c scope).proceed fun v _ => ?_
  split
  · exact ha.eval t scope
  · cases e
    case hole => exact .pure rfl
    all_goals exact ha.eval _ scope

/-- Calls agree if the bodies do. -/
theorem step_apply (ha : Agreement depth) (callee : Value) (args : List Value)
    (hargs : ∀ v ∈ args, v.isError = false) :
    Agrees (Monkey.apply (depth + 1) callee args) (Raising.apply (depth + 1) callee args) := by
  unfold Monkey.apply Raising.apply
  cases callee with
  | function id f =>
    dsimp only
    split
    · exact agrees_call hargs fun scope => agrees_unwrap (ha.eval f.body scope)
    · exact .fail _
  | integer | boolean | null | returned | error => exact .fail _

/-- A `return` agrees if its value does. -/
theorem step_return (ha : Agreement depth) (t : Token) (value : Node) (scope : ScopeId) :
    Agrees (Monkey.eval (depth + 1) (.returnStatement t value) scope)
      (Raising.eval (depth + 1) (.returnStatement t value) scope) := by
  by_cases hv : value = .hole
  · subst hv
    rw [Monkey.eval, Raising.eval]
    exact .make fun _ => rfl
  · rw [Eval.eval_returnStatement hv, Raising.eval]
    · exact (ha.eval value scope).proceed fun v _ => .make fun _ => rfl
    · exact hv

/-- Each kind of node agrees if its parts do. -/
theorem step_eval (ha : Agreement depth) (node : Node) (scope : ScopeId) :
    Agrees (Monkey.eval (depth + 1) node scope) (Raising.eval (depth + 1) node scope) := by
  cases node
  case returnStatement t value => exact ha.step_return t value scope
  all_goals unfold Monkey.eval Raising.eval
  case hole => exact .throw _
  case unknown cls => exact .throw _
  case program ss => exact ha.evalProgram ss scope
  case block t ss => exact ha.evalBlock ss scope
  case expressionStatement t e => exact ha.eval e scope
  case letStatement t target value => exact (ha.eval value scope).proceed fun v hv => agrees_bind hv scope target.name
  case identifier id => exact agrees_lookup scope id.name
  case integer t n => exact .make fun _ => rfl
  case boolean t b => exact .pure rfl
  case function t ps body => exact .make fun _ => rfl
  case unary t op operand => exact (ha.eval operand scope).proceed fun v _ => .operation (Eval.operates_unary op v).scopes_after
  case binary t left op right =>
    exact (ha.eval left scope).proceed fun l _ => (ha.eval right scope).proceed fun r _ =>
      .operation (Eval.operates_binary op l r).scopes_after
  case conditional t c b e => exact ha.evalConditional c b e scope
  case call t callee args =>
    exact (ha.eval callee scope).proceed fun f _ => (ha.evalArguments args scope).bind fun vs hvs => ha.apply f vs hvs

theorem step (ha : Agreement depth) : Agreement (depth + 1) where
  eval := ha.step_eval
  evalProgram := ha.step_program
  evalBlock := ha.step_block
  evalConditional := ha.step_conditional
  evalArguments := ha.step_arguments
  apply := ha.step_apply

/-- At every depth both ways of evaluation agree. -/
theorem all : ∀ depth, Agreement depth
  | 0 => zero
  | depth + 1 => (all depth).step

end Agreement

/-- Where two computations agree, the one gives what the other comes to when all is caught. -/
theorem Agrees.eq_caught {x : Eval Value} {y : Raising Value} (hxy : Agrees x y) {h : Heap} (hh : h.BindsNoError) :
    x h = y.caught h := by
  have hout := hxy hh
  unfold caught
  generalize x h = r at hout
  generalize y h = r' at hout
  cases hout <;> rfl

end Raising

/-- **Errors are exceptions that nothing catches.** From a heap that binds no error, evaluation gives the same value and
the same heap as evaluation with exceptions. An error that comes of any evaluation on the way is the value of the whole,
whose heap is the one that was there when the error came: nothing more is evaluated or bound. -/
theorem eval_eq_caught (depth : Nat) (node : Node) (scope : ScopeId) {h : Heap} (hh : h.BindsNoError) :
    eval depth node scope h = (Raising.eval depth node scope).caught h ∧
      ∀ (part : Evaluation) (err : Value) (h' : Heap), Evaluation.Performs (.node depth node scope h) part →
        part.result = .ok err h' → err.isError → eval depth node scope h = .ok err h' :=
  ⟨((Raising.Agreement.all depth).eval node scope).eq_caught hh, fun _ _ _ hpart herr he =>
    Evaluation.Performs.result_of_error hpart herr he⟩

/-- A name that is not bound, in the operand of the value of a `let`: the name on the left is not bound either. -/
theorem eval_eq_caught_unbound :
    ∃ (h : Heap) (node : Node), h = ⟨#[⟨none, []⟩], 0, []⟩ ∧ h.BindsNoError ∧
      node = .letStatement .blank ⟨.blank, "x"⟩ (.unary .blank .not (.identifier ⟨.blank, "y"⟩)) ∧
      eval 3 node 0 h = (Raising.eval 3 node 0).caught h ∧
      eval 3 node 0 h = .ok (.error 0 (.unbound "y")) ⟨#[⟨none, []⟩], 1, []⟩ := by
  have hh : Heap.BindsNoError ⟨#[⟨none, []⟩], 0, []⟩ := Heap.bindsOnly_single _ none 0 []
  obtain ⟨hcaught, hpart⟩ := eval_eq_caught 3
    (.letStatement .blank ⟨.blank, "x"⟩ (.unary .blank .not (.identifier ⟨.blank, "y"⟩))) 0 hh
  refine ⟨_, _, rfl, hh, rfl, hcaught, ?_⟩
  refine hpart (.node 1 (.identifier ⟨.blank, "y"⟩) 0 ⟨#[⟨none, []⟩], 0, []⟩) _ _ ?_ ?_ rfl
  · exact .tail (.single .letValue) .operand
  · rw [Evaluation.result, eval]
    rfl

end Monkey
