import Monkey.Heap
import Monkey.Proofs.Tree.Bare

/-!
# Heaps up to tokens

A function keeps its parameters and its body, tokens and all. `Value.bare` forgets these tokens and nothing else, and
`Heap.bare` forgets them in all values that are bound. A lookup, a new scope and a binding are the same without tokens
(`Heap.lookup_bare`, `Heap.openScope_bare`, `Heap.bind_bare`).
-/

namespace Monkey

/-- A function without the tokens of its parameters and of its body. -/
def Closure.bare (f : Closure) : Closure :=
  ⟨f.parameters.map Identifier.bare, f.body.bare, f.scope⟩

namespace Value

/-- A value without the tokens in it. -/
def bare : Value → Value
  | .integer id n => .integer id n
  | .boolean b => .boolean b
  | .null => .null
  | .returned id v => .returned id v.bare
  | .error id cause => .error id cause
  | .function id f => .function id f.bare

variable (v w : Value)

@[simp] theorem tag_bare : v.bare.tag = v.tag := by
  cases v <;> rfl

@[simp] theorem isError_bare : v.bare.isError = v.isError := by
  cases v <;> rfl

@[simp] theorem isSignal_bare : v.bare.isSignal = v.isSignal := by
  cases v <;> rfl

@[simp] theorem isTruthy_bare : v.bare.isTruthy = v.isTruthy := by
  cases v <;> rfl

@[simp] theorem identity_bare : v.bare.identity = v.identity := by
  cases v <;> rfl

@[simp] theorem same_bare : v.bare.same w.bare = v.same w := by
  rw [same, same, identity_bare, identity_bare]

/-- What a signal carries is the same without tokens. -/
theorem unwrap_bare : v.bare.unwrap = v.unwrap.bare := by
  cases v <;> rfl

/-- Tokens are not shown. -/
@[simp] theorem inspect_bare : v.bare.inspect = v.inspect := by
  induction v with
  | integer | boolean | null | error => rfl
  | returned _ _ ih => simpa only [bare, inspect] using ih
  | function => simp only [bare, inspect, Closure.bare, Node.names_bare]

end Value

/-- A scope without the tokens in it. -/
def Scope.bare (s : Scope) : Scope :=
  ⟨s.outer, s.bindings.map (Prod.map id Value.bare)⟩

/-- A scope binds the same names without tokens, to the same values but for theirs. -/
theorem Scope.find?_bare (s : Scope) (name : String) : s.bare.find? name = (s.find? name).map Value.bare := by
  obtain ⟨outer, bindings⟩ := s
  induction bindings with
  | nil => rfl
  | cons b bindings ih =>
    show Scope.find? ⟨outer, (b.1, b.2.bare) :: bindings.map (Prod.map id Value.bare)⟩ name = _
    rw [Scope.find?_cons, Scope.find?_cons]
    split
    · rfl
    · exact ih

theorem Scope.names_bare (s : Scope) : s.bare.names = s.names := by
  rw [Scope.names, Scope.names, Scope.bare, ← List.map_reverse, List.map_map]
  rfl

/-- A binding without the tokens in it. -/
def Binding.bare (b : Binding) : Binding :=
  { b with value := b.value.bare }

namespace Heap

/-- A heap without the tokens in it. -/
def bare (h : Heap) : Heap :=
  ⟨h.scopes.map Scope.bare, h.nextObject, h.journal.map Binding.bare⟩

variable (h : Heap)

theorem getElem?_scopes_bare (i : ScopeId) : h.bare.scopes[i]? = h.scopes[i]?.map Scope.bare :=
  Array.getElem?_map ..

/-- A walk over scopes finds the same value but for its tokens. -/
theorem lookupWithin_bare (steps : Nat) (i : ScopeId) (name : String) :
    h.bare.lookupWithin steps i name = (h.lookupWithin steps i name).map Value.bare := by
  induction steps generalizing i with
  | zero => rfl
  | succ steps ih =>
    rw [lookupWithin, lookupWithin, getElem?_scopes_bare]
    cases h.scopes[i]? with
    | none => rfl
    | some s =>
      rw [Option.map_some]
      dsimp only
      rw [Scope.find?_bare, Scope.bare]
      rcases s.find? name with _ | v
      · rcases s.outer with _ | outer
        · rfl
        · exact ih outer
      · rfl

/-- **A name is looked up to the same value** but for its tokens. -/
theorem lookup_bare (i : ScopeId) (name : String) : h.bare.lookup i name = (h.lookup i name).map Value.bare := by
  rw [lookup, lookup, lookupWithin_bare, bare, Array.size_map]

/-- Opening a scope and leaving out tokens may be done in either order. -/
theorem openScope_bare (outer : Option ScopeId) :
    h.bare.openScope outer = ((h.openScope outer).1, (h.openScope outer).2.bare) := by
  simp [openScope, bare, Scope.bare]

/-- Binding a value and leaving out tokens may be done in either order. -/
theorem bind_bare (i : ScopeId) (name : String) (v : Value) : h.bare.bind i name v.bare = (h.bind i name v).bare := by
  have hscopes : (h.bare.bind i name v.bare).scopes = (h.bind i name v).bare.scopes := by
    refine Array.ext_getElem? fun j => ?_
    rw [getElem?_scopes_bind, getElem?_scopes_bare, getElem?_scopes_bare, getElem?_scopes_bind]
    split
    · cases h.scopes[j]? <;> rfl
    · rfl
  exact congrArg (fun scopes => Heap.mk scopes _ _) hscopes

/-- What is bound shows the same. -/
theorem bindingsOf_bare (i : ScopeId) :
    (h.bare.bindingsOf i).map (Prod.map id Value.inspect) = (h.bindingsOf i).map (Prod.map id Value.inspect) := by
  rw [bindingsOf, bindingsOf, getElem?_scopes_bare]
  cases h.scopes[i]? with
  | none => rfl
  | some s =>
    rw [Option.map_some]
    dsimp only
    rw [Scope.names_bare, List.map_filterMap, List.map_filterMap]
    congr 1
    funext name
    rw [Scope.find?_bare]
    cases s.find? name with
    | none => rfl
    | some v => exact congrArg (fun text => some (name, text)) v.inspect_bare

/-- Heaps that are the same but for tokens show the same bindings. -/
theorem bindingsOf_of_bare_eq {h h' : Heap} (hh : h.bare = h'.bare) (i : ScopeId) :
    (h.bindingsOf i).map (Prod.map id Value.inspect) = (h'.bindingsOf i).map (Prod.map id Value.inspect) := by
  rw [← bindingsOf_bare, hh, bindingsOf_bare]

end Heap

end Monkey
