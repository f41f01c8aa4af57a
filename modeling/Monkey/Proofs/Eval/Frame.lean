import Monkey.Proofs.Eval.Operator
import Monkey.Proofs.Heap.Evolution
import Monkey.Proofs.Tree.Bare

/-!
# What evaluation may bind

Evaluation in a scope binds names of that scope only by `let`, and a `let` in the body of a function binds in the scope
of a call. So a node that is evaluated in a scope changes, among the scopes there were, that scope alone, and in it only
the names in `Node.lets` (`scope_eval`); a call changes none of them (`scopes_apply`).

`Eval.Within W` says of a computation that the heap it leaves comes from the one it began with by steps that `W` allows,
also when it halts. It is shown of all rules of evaluation together, by induction on the depth (`Frames.all`).
-/

namespace Monkey

namespace Node

mutual

/-- The names that a node binds by `let` outside of functions. -/
def lets : Node → List String
  | .hole | .unknown _ | .identifier _ | .integer _ _ | .boolean _ _ | .function .. => []
  | .program ss | .block _ ss => letsAll ss
  | .letStatement _ target value => target.name :: value.lets
  | .returnStatement _ value => value.lets
  | .expressionStatement _ e => e.lets
  | .unary _ _ operand => operand.lets
  | .binary _ left _ right => left.lets ++ right.lets
  | .conditional _ c t e => c.lets ++ (t.lets ++ e.lets)
  | .call _ callee args => callee.lets ++ letsAll args

/-- The names that some nodes bind by `let` outside of functions. -/
def letsAll : List Node → List String
  | [] => []
  | s :: ss => s.lets ++ letsAll ss

end

/-- What one of some nodes binds they all bind together. -/
theorem mem_letsAll {name : String} {s : Node} :
    ∀ {ss : List Node}, s ∈ ss → name ∈ s.lets → name ∈ letsAll ss
  | s' :: ss, hs, hname => by
    rw [letsAll]
    rcases List.mem_cons.1 hs with rfl | hs
    · exact List.mem_append_left _ hname
    · exact List.mem_append_right _ (mem_letsAll hs hname)

end Node

namespace Eval

open Heap (Evolves)

/-- The heap that a computation leaves, however it ends. -/
def after {α : Type} (x : Eval α) (h : Heap) : Heap :=
  match x h with
  | .ok _ h' => h'
  | .error _ h' => h'

/-- A computation that makes only bindings allowed by `W` in the scopes there were. -/
def Within {α : Type} (W : ScopeId → String → Prop) (x : Eval α) : Prop :=
  ∀ h : Heap, Evolves W h (x.after h)

/-- The bindings of some names in one scope. -/
def Writes (scope : ScopeId) (names : List String) : ScopeId → String → Prop :=
  fun i name => i = scope ∧ name ∈ names

/-- What may bind some names may bind more. -/
theorem writes_append_left {scope : ScopeId} {names : List String} (names' : List String) (i : ScopeId)
    (name : String) (hi : Writes scope names i name) : Writes scope (names ++ names') i name :=
  ⟨hi.1, List.mem_append_left names' hi.2⟩

theorem writes_append_right {scope : ScopeId} {names' : List String} (names : List String) (i : ScopeId)
    (name : String) (hi : Writes scope names' i name) : Writes scope (names ++ names') i name :=
  ⟨hi.1, List.mem_append_right names hi.2⟩

/-! ## Computations step by step -/

section Steps

variable {α β : Type} {W W' : ScopeId → String → Prop}

/-- A computation may be allowed more bindings. -/
theorem Within.mono {x : Eval α} (hx : Within W x) (hWW' : ∀ i name, W i name → W' i name) : Within W' x :=
  fun h => (hx h).mono hWW'

theorem within_pure (a : α) : Within W (pure a : Eval α) :=
  fun _ => .refl

theorem within_throw (e : Halt) : Within W (throw e : Eval α) :=
  fun _ => .refl

/-- A computation after another one. -/
theorem run_bind (x : Eval α) (f : α → Eval β) (h : Heap) :
    (x >>= f) h = match x h with
      | .ok a h' => f a h'
      | .error e h' => .error e h' := by
  show EStateM.bind x f h = _
  unfold EStateM.bind
  cases x h <;> rfl

/-- A computation followed by another makes the bindings of both. -/
theorem Within.bind {x : Eval α} {f : α → Eval β} (hx : Within W x) (hf : ∀ a, Within W (f a)) :
    Within W (x >>= f) := by
  intro h
  have hw := hx h
  unfold after at hw ⊢
  rw [run_bind]
  cases he : x h with
  | ok a h' =>
    rw [he] at hw
    exact hw.trans (hf a h')
  | error e h' =>
    rw [he] at hw
    exact hw

/-- Making a value binds nothing. -/
theorem within_make (value : ObjectId → Value) : Within W (make value) :=
  fun _ => .number .refl

theorem within_integer (n : Int) : Within W (integer n) :=
  within_make _

theorem within_fail (cause : RuntimeError) : Within W (fail cause) :=
  within_make _

/-- Binding a name makes that binding only. -/
theorem within_bind {scope : ScopeId} {name : String} (value : Value) (hW : W scope name) :
    Within W (Eval.bind scope name value) :=
  fun _ => .bind value .refl (Or.inl hW)

/-- Binding parameters in a scope makes bindings in that scope only. -/
theorem within_bindAll {scope : ScopeId} (hW : ∀ name, W scope name) :
    ∀ (ps : List Identifier) (vs : List Value), Within W (bindAll scope ps vs)
  | [], _ | _ :: _, [] => within_pure ()
  | p :: ps, v :: vs => (within_bind v (hW p.name)).bind fun _ => within_bindAll hW ps vs

/-- A lookup binds nothing. -/
theorem within_lookup (scope : ScopeId) (name : String) : Within W (lookup scope name) := by
  refine Within.bind (fun _ => .refl) fun h => ?_
  cases h.lookup scope name with
  | none => exact within_fail _
  | some v => exact within_pure v

/-- What happens in a scope that is opened for it touches no other scope. -/
theorem within_openScope {outer : Option ScopeId} {x : ScopeId → Eval α}
    (hx : ∀ scope, Within (fun i _ => i = scope) (x scope)) : Within W (openScope outer >>= x) := by
  intro h
  show Evolves W h ((x h.scopes.size).after (h.openScope outer).2)
  have hopen : Evolves W h (h.openScope outer).2 := .openScope outer .refl
  exact hopen.trans_of (hx h.scopes.size _) fun i _ hi => Or.inr (Nat.le_of_eq hi.symm)

/-- An operation changes no scope. -/
theorem Operates.scopes_after {x : Eval Value} (hx : Operates x) (h : Heap) : (x.after h).scopes = h.scopes := by
  unfold after
  obtain ⟨v, -, heq | heq⟩ := hx h
  · rw [heq]
  · rw [heq]

/-- An operation binds nothing. -/
theorem Operates.within {x : Eval Value} (hx : Operates x) : Within W x := by
  intro h
  unfold after
  obtain ⟨v, -, heq | heq⟩ := hx h
  · rw [heq]
    exact .refl
  · rw [heq]
    exact .number .refl

/-- What goes on with a value unless it is an error makes the bindings of both. -/
theorem Within.proceed {x : Eval Value} {next : Value → Eval Value} (hx : Within W x)
    (hnext : ∀ v, Within W (next v)) : Within W (proceed x next) := by
  refine hx.bind fun v => ?_
  split
  · exact within_pure v
  · exact hnext v

/-- A sequence of statements makes the bindings of each. -/
theorem within_sequence {each : Node → Eval Value} :
    ∀ (ss : List Node) (last : Value), (∀ s ∈ ss, Within W (each s)) → Within W (sequence each last ss)
  | [], last, _ => within_pure last
  | s :: ss, _, hss => by
    refine (hss s List.mem_cons_self).bind fun v => ?_
    split
    · exact within_pure v
    · exact within_sequence ss v fun s' hs' => hss s' (List.mem_cons_of_mem s hs')

/-- The arguments of a call make the bindings of each. -/
theorem within_collect {each : Node → Eval Value} :
    ∀ es : List Node, (∀ e ∈ es, Within W (each e)) → Within W (collect each es)
  | [], _ => within_pure _
  | e :: es, hes => by
    have hrest := within_collect es fun e' he' => hes e' (List.mem_cons_of_mem e he')
    refine (hes e List.mem_cons_self).bind fun v => ?_
    split
    · exact within_pure _
    · refine hrest.bind fun r => ?_
      cases r with
      | ok vs => exact within_pure _
      | error err => exact within_pure _

end Steps

/-! ## Evaluation -/

/-- What the rules of evaluation may bind, with `depth` levels of nesting left. -/
structure Frames (depth : Nat) : Prop where
  eval : ∀ (node : Node) (scope : ScopeId), Within (Writes scope node.lets) (eval depth node scope)
  evalProgram : ∀ (ss : List Node) (scope : ScopeId),
    Within (Writes scope (Node.letsAll ss)) (evalProgram depth ss scope)
  evalBlock : ∀ (ss : List Node) (scope : ScopeId), Within (Writes scope (Node.letsAll ss)) (evalBlock depth ss scope)
  evalConditional : ∀ (c t e : Node) (scope : ScopeId),
    Within (Writes scope (c.lets ++ (t.lets ++ e.lets))) (evalConditional depth c t e scope)
  evalArguments : ∀ (args : List Node) (scope : ScopeId),
    Within (Writes scope (Node.letsAll args)) (evalArguments depth args scope)
  apply : ∀ (W : ScopeId → String → Prop) (callee : Value) (args : List Value), Within W (apply depth callee args)

namespace Frames

variable {depth : Nat}

/-- Without levels of nesting left nothing is bound. -/
theorem zero : Frames 0 := by
  constructor <;> intros
  · unfold Monkey.eval
    exact within_throw _
  · unfold Monkey.evalProgram
    exact within_throw _
  · unfold Monkey.evalBlock
    exact within_throw _
  · unfold Monkey.evalConditional
    exact within_throw _
  · unfold Monkey.evalArguments
    exact within_throw _
  · unfold Monkey.apply
    exact within_throw _

/-- Evaluation of one of some nodes binds no more than they all may. -/
theorem eval_mem (hf : Frames depth) {ss : List Node} {s : Node} (hs : s ∈ ss) (scope : ScopeId) :
    Within (Writes scope (Node.letsAll ss)) (Monkey.eval depth s scope) :=
  (hf.eval s scope).mono fun _ _ hi => ⟨hi.1, Node.mem_letsAll hs hi.2⟩

/-- A program makes the bindings of its statements. -/
theorem step_program (hf : Frames depth) (ss : List Node) (scope : ScopeId) :
    Within (Writes scope (Node.letsAll ss)) (Monkey.evalProgram (depth + 1) ss scope) := by
  unfold Monkey.evalProgram
  exact (within_sequence ss _ fun s hs => hf.eval_mem hs scope).bind fun v => within_pure _

/-- A block makes the bindings of its statements, in the scope around it. -/
theorem step_block (hf : Frames depth) (ss : List Node) (scope : ScopeId) :
    Within (Writes scope (Node.letsAll ss)) (Monkey.evalBlock (depth + 1) ss scope) := by
  unfold Monkey.evalBlock
  exact within_sequence ss _ fun s hs => hf.eval_mem hs scope

/-- Arguments make the bindings of each. -/
theorem step_arguments (hf : Frames depth) (args : List Node) (scope : ScopeId) :
    Within (Writes scope (Node.letsAll args)) (Monkey.evalArguments (depth + 1) args scope) := by
  unfold Monkey.evalArguments
  exact within_collect args fun a ha => hf.eval_mem ha scope

/-- A conditional makes the bindings of its condition and of its branches at most. -/
theorem step_conditional (hf : Frames depth) (c t e : Node) (scope : ScopeId) :
    Within (Writes scope (c.lets ++ (t.lets ++ e.lets))) (Monkey.evalConditional (depth + 1) c t e scope) := by
  have hc := (hf.eval c scope).mono (writes_append_left (t.lets ++ e.lets))
  have ht := ((hf.eval t scope).mono (writes_append_left e.lets)).mono (writes_append_right c.lets)
  have he := ((hf.eval e scope).mono (writes_append_right t.lets)).mono (writes_append_right c.lets)
  unfold Monkey.evalConditional
  refine hc.proceed fun v => ?_
  split
  · exact ht
  · split
    · exact within_pure _
    · exact he

/-- A call binds only in the scope that it opens. -/
theorem step_apply (hf : Frames depth) (W : ScopeId → String → Prop) (callee : Value) (args : List Value) :
    Within W (Monkey.apply (depth + 1) callee args) := by
  unfold Monkey.apply
  split
  · split
    · refine within_openScope fun scope => ?_
      refine (within_bindAll (fun _ => rfl) _ args).bind fun _ => ?_
      exact ((hf.eval _ scope).mono fun _ _ hi => hi.1).bind fun v => within_pure _
    · exact within_fail _
  · exact within_fail _

/-- A `return` makes the bindings of its value. -/
theorem step_return (hf : Frames depth) (t : Token) (value : Node) (scope : ScopeId) :
    Within (Writes scope value.lets) (Monkey.eval (depth + 1) (.returnStatement t value) scope) := by
  by_cases hv : value = .hole
  · subst hv
    rw [Monkey.eval]
    exact within_make _
  · rw [Monkey.eval]
    · exact (hf.eval value scope).proceed fun v => within_make _
    · exact hv

/-- Each kind of node makes the bindings that stand in it, and in its scope only. -/
theorem step_eval (hf : Frames depth) (node : Node) (scope : ScopeId) :
    Within (Writes scope node.lets) (Monkey.eval (depth + 1) node scope) := by
  cases node
  case returnStatement t value => exact hf.step_return t value scope
  all_goals unfold Monkey.eval
  case hole => exact within_throw _
  case unknown cls => exact within_throw _
  case program ss => exact hf.evalProgram ss scope
  case block t ss => exact hf.evalBlock ss scope
  case expressionStatement t e => exact hf.eval e scope
  case letStatement t target value =>
    refine ((hf.eval value scope).mono (writes_append_right [target.name])).proceed fun v => ?_
    exact (within_bind v ⟨rfl, List.mem_cons_self⟩).bind fun _ => within_pure _
  case identifier id => exact within_lookup scope id.name
  case integer t n => exact within_integer n
  case boolean t b => exact within_pure _
  case function t ps body => exact within_make _
  case unary t op operand => exact (hf.eval operand scope).proceed fun v => (operates_unary op v).within
  case binary t left op right =>
    have hl := (hf.eval left scope).mono (writes_append_left right.lets)
    have hr := (hf.eval right scope).mono (writes_append_right left.lets)
    exact hl.proceed fun l => hr.proceed fun r => (operates_binary op l r).within
  case conditional t c b e => exact hf.evalConditional c b e scope
  case call t callee args =>
    have hcallee := (hf.eval callee scope).mono (writes_append_left (Node.letsAll args))
    have hargs := (hf.evalArguments args scope).mono (writes_append_right callee.lets)
    refine hcallee.proceed fun f => hargs.bind fun r => ?_
    cases r with
    | ok vs => exact hf.apply _ f vs
    | error err => exact within_pure err

theorem step (hf : Frames depth) : Frames (depth + 1) where
  eval := hf.step_eval
  evalProgram := hf.step_program
  evalBlock := hf.step_block
  evalConditional := hf.step_conditional
  evalArguments := hf.step_arguments
  apply := hf.step_apply

/-- At every depth no more is bound than the nodes say. -/
theorem all : ∀ depth, Frames depth
  | 0 => zero
  | depth + 1 => (all depth).step

end Frames

end Eval

open Eval

/-- A call leaves every scope there was as it is. -/
theorem scopes_apply (depth : Nat) (h : Heap) (callee : Value) (args : List Value) {i : ScopeId}
    (hi : i < h.scopes.size) : ((apply depth callee args).after h).scopes[i]? = h.scopes[i]? :=
  ((Frames.all depth).apply (fun _ _ => False) callee args h).scope_eq hi fun _ => id

/-- A scope after the evaluation of a node in some scope: the outer scope is the same, and so are all bindings if the
scope is another one. The bindings of names that the node does not bind are the same, and no name loses its binding. -/
theorem scope_eval (depth : Nat) (h : Heap) (node : Node) (env : ScopeId) {i : ScopeId} {s : Scope}
    (hi : h.scopes[i]? = some s) :
    ∃ s', ((eval depth node env).after h).scopes[i]? = some s' ∧ s'.outer = s.outer ∧ (i ≠ env → s' = s) ∧
      (∀ name, name ∉ node.lets → s'.find? name = s.find? name) ∧
      ∀ name, (s.find? name).isSome → (s'.find? name).isSome := by
  obtain ⟨new, hnew, hW⟩ := ((Frames.all depth).eval node env h).scope hi
  refine ⟨_, hnew, rfl, ?_, ?_, ?_⟩
  · intro hne
    have hnil : new = [] := List.eq_nil_iff_forall_not_mem.2 fun b hb => hne (hW b hb).1
    rw [hnil]
    rfl
  · intro name hname
    refine Scope.find?_append fun b hb e => hname ?_
    rw [← e]
    exact (hW b hb).2
  · intro name hname
    exact Scope.isSome_find?_append new hname

/-- **The frame law**: however the evaluation of a node in a scope ends, it changes only that scope among those there
were, and in it only the bindings of names that the node binds by `let` outside of functions. No name loses its binding
and no outer scope changes. However a call ends, it changes no scope that was there. -/
theorem eval_frame (depth : Nat) (h : Heap) :
    (∀ (node : Node) (env i : ScopeId) (s : Scope), h.scopes[i]? = some s →
      ∃ s', ((eval depth node env).after h).scopes[i]? = some s' ∧ s'.outer = s.outer ∧ (i ≠ env → s' = s) ∧
        (∀ name, name ∉ node.lets → s'.find? name = s.find? name) ∧
        ∀ name, (s.find? name).isSome → (s'.find? name).isSome) ∧
      ∀ (callee : Value) (args : List Value) (i : ScopeId), i < h.scopes.size →
        ((apply depth callee args).after h).scopes[i]? = h.scopes[i]? :=
  ⟨fun node env _ _ hi => scope_eval depth h node env hi, fun callee args _ hi => scopes_apply depth h callee args hi⟩

/-- A `let` in an inner scope, and one in the body of a function, do not change the name's outer binding. The inner scope
binds the name from then on. -/
theorem eval_frame_shadowing :
    ∃ (h : Heap) (s : Scope) (node : Node), h = ⟨#[s, ⟨some 0, []⟩], 0, []⟩ ∧ s = ⟨none, [("x", .null)]⟩ ∧
      node = .letStatement .blank ⟨.blank, "x"⟩ (.boolean .blank true) ∧
      ((eval 2 node 1).after h).scopes[0]? = some s ∧
      ((eval 2 node 1).after h).scopes[1]? = some ⟨some 0, [("x", .boolean true)]⟩ ∧
      ((apply 3 (.function 0 ⟨[], node, 0⟩) []).after h).scopes[0]? = some s := by
  refine ⟨_, _, _, rfl, rfl, rfl, ?_, ?_, ?_⟩
  · have hframe := (eval_frame 2 ⟨#[⟨none, [("x", .null)]⟩, ⟨some 0, []⟩], 0, []⟩).1
    obtain ⟨s', hs', _, hother, _⟩ := hframe _ 1 0 ⟨none, [("x", .null)]⟩ rfl
    rw [hs', hother (by decide)]
  · rw [eval, eval]
    rfl
  · exact (eval_frame 3 _).2 _ _ 0 (by decide)

end Monkey
