import Monkey.Text.Quoted
import Monkey.Value

/-!
# Scopes

A scope binds names to values and may lie inside an outer scope. A name is looked up from the inside outwards and
bound in the innermost scope. A `Heap` holds all scopes ever opened, since functions keep the scope they were made in.

Bindings are kept newest first, so that the first one for a name is the one that counts, and so is the journal of all
bindings in all scopes.
-/

namespace Monkey

/-- A scope. -/
structure Scope where
  outer : Option ScopeId
  bindings : List (String × Value)

namespace Scope

/-- The value a scope binds a name to, the latest one. -/
def find? (s : Scope) (name : String) : Option Value :=
  s.bindings.lookup name

@[simp] theorem find?_nil (outer : Option ScopeId) (name : String) : find? ⟨outer, []⟩ name = none := rfl

/-- The latest binding of a name is the one that counts. -/
theorem find?_cons (outer : Option ScopeId) (n : String) (v : Value) (bindings : List (String × Value)) (name : String) :
    find? ⟨outer, (n, v) :: bindings⟩ name = if name = n then some v else find? ⟨outer, bindings⟩ name := by
  rw [find?, List.lookup_cons]
  by_cases h : name = n
  · simp [h]
  · simp [h, beq_eq_false_iff_ne.2 h, find?]

/-- The names a scope binds, in the order of their first binding. -/
def names (s : Scope) : List String :=
  (s.bindings.reverse.map Prod.fst).eraseDups

end Scope

/-- A binding that was made. -/
structure Binding where
  scope : ScopeId
  name : String
  value : Value

/-- All scopes, the number for the next value with an identity, and all bindings ever made. -/
structure Heap where
  scopes : Array Scope
  nextObject : ObjectId
  journal : List Binding

namespace Heap

/-- The heap in which nothing has happened. -/
def empty : Heap :=
  ⟨#[], 0, []⟩

/-- Open a scope. -/
def openScope (h : Heap) (outer : Option ScopeId) : ScopeId × Heap :=
  (h.scopes.size, { h with scopes := h.scopes.push ⟨outer, []⟩ })

/-- Bind a name in a scope. -/
def bind (h : Heap) (scope : ScopeId) (name : String) (value : Value) : Heap :=
  { h with
    scopes := h.scopes.modify scope fun s => { s with bindings := (name, value) :: s.bindings }
    journal := ⟨scope, name, value⟩ :: h.journal }

@[simp] theorem size_scopes_openScope (h : Heap) (outer : Option ScopeId) :
    (h.openScope outer).2.scopes.size = h.scopes.size + 1 := by
  simp [openScope]

@[simp] theorem size_scopes_bind (h : Heap) (scope : ScopeId) (name : String) (value : Value) :
    (h.bind scope name value).scopes.size = h.scopes.size := by
  simp [bind]

/-- A new scope binds nothing and leaves the others as they are. -/
theorem getElem?_scopes_openScope (h : Heap) (outer : Option ScopeId) (i : ScopeId) :
    (h.openScope outer).2.scopes[i]? = if i = h.scopes.size then some ⟨outer, []⟩ else h.scopes[i]? := by
  simp [openScope, Array.getElem?_push]

/-- A binding changes the scope it is made in, and no other. -/
theorem getElem?_scopes_bind (h : Heap) (scope : ScopeId) (name : String) (value : Value) (i : ScopeId) :
    (h.bind scope name value).scopes[i]? =
      if scope = i then h.scopes[i]?.map fun s => ⟨s.outer, (name, value) :: s.bindings⟩ else h.scopes[i]? := by
  simp [bind, Array.getElem?_modify]

/-- The value of a name, from a scope outwards over at most `steps` scopes. -/
def lookupWithin (h : Heap) : Nat → ScopeId → String → Option Value
  | 0, _, _ => none
  | steps + 1, scope, name =>
    match h.scopes[scope]? with
    | none => none
    | some s =>
      match s.find? name, s.outer with
      | some v, _ => some v
      | none, none => none
      | none, some outer => h.lookupWithin steps outer name

/-- The value of a name in a scope: that of the nearest scope outwards that binds it. -/
def lookup (h : Heap) (scope : ScopeId) (name : String) : Option Value :=
  h.lookupWithin h.scopes.size scope name

/-- A name has a value in a scope. -/
def contains (h : Heap) (scope : ScopeId) (name : String) : Bool :=
  (h.lookup scope name).isSome

/-- The names that a scope itself binds, each with its value. -/
def bindingsOf (h : Heap) (scope : ScopeId) : List (String × Value) :=
  match h.scopes[scope]? with
  | none => []
  | some s => s.names.filterMap fun name => (s.find? name).map (name, ·)

/-- A scope in a listing: the names it binds, sorted, and whether it lies inside another. -/
def listing? (h : Heap) (scope : ScopeId) : Option String :=
  h.scopes[scope]?.map fun s =>
    let names := (s.names.mergeSort (· ≤ ·)).map quoted
    "Environment([" ++ ", ".intercalate names ++ "], outer=" ++ (if s.outer.isSome then "True" else "False") ++ ")"

end Heap

end Monkey
