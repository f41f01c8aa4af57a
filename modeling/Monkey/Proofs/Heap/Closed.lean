import Monkey.Proofs.Heap.Bound

/-!
# Heaps in which all that is named is there

A value names an object by its number, and a function names a scope. `v.ExistsIn h` says that what `v` names has been
made in `h`. A heap is closed if what is bound in it exists in it, and each outer scope is older than the scope inside
it. A heap stays closed as long as only what exists is bound, and new scopes are opened inside of scopes that exist.
-/

namespace Monkey

/-- What a value names, and what the value it carries names, has been made. -/
def Value.ExistsIn (h : Heap) : Value → Prop
  | .integer id _ => id < h.nextObject
  | .boolean _ => True
  | .null => True
  | .returned id v => id < h.nextObject ∧ v.ExistsIn h
  | .error id _ => id < h.nextObject
  | .function id f => id < h.nextObject ∧ f.scope < h.scopes.size

namespace Heap

/-- What is there in the one heap is there in the other. -/
structure Le (h h' : Heap) : Prop where
  scopes : h.scopes.size ≤ h'.scopes.size
  objects : h.nextObject ≤ h'.nextObject

instance : LE Heap where
  le := Le

variable {h h₁ h₂ : Heap} {v : Value}

theorem le_refl (h : Heap) : h ≤ h :=
  ⟨Nat.le_refl _, Nat.le_refl _⟩

theorem le_trans (hle : h ≤ h₁) (hle' : h₁ ≤ h₂) : h ≤ h₂ :=
  ⟨Nat.le_trans hle.scopes hle'.scopes, Nat.le_trans hle.objects hle'.objects⟩

theorem le_number (h : Heap) : h ≤ { h with nextObject := h.nextObject + 1 } :=
  ⟨Nat.le_refl _, Nat.le_succ _⟩

/-- A new scope leaves the scopes and numbers that were there. -/
theorem le_openScope (h : Heap) (outer : Option ScopeId) : h ≤ (h.openScope outer).2 :=
  ⟨Nat.le_trans (Nat.le_succ _) (Nat.le_of_eq (size_scopes_openScope ..).symm), Nat.le_refl _⟩

/-- A binding adds neither scopes nor numbers. -/
theorem le_bind (h : Heap) (i : ScopeId) (name : String) (v : Value) : h ≤ h.bind i name v :=
  ⟨Nat.le_of_eq (size_scopes_bind ..).symm, Nat.le_refl _⟩

end Heap

namespace Value.ExistsIn

variable {h h' : Heap} {v : Value}

theorem null : Value.null.ExistsIn h :=
  trivial

theorem boolean (b : Bool) : (Value.boolean b).ExistsIn h :=
  trivial

/-- What exists in a heap exists in every larger one. -/
theorem mono (hv : v.ExistsIn h) (hle : h ≤ h') : v.ExistsIn h' := by
  induction v with
  | integer | error => exact Nat.lt_of_lt_of_le hv hle.objects
  | boolean | null => trivial
  | returned id v ih => exact ⟨Nat.lt_of_lt_of_le hv.1 hle.objects, ih hv.2⟩
  | function id f => exact ⟨Nat.lt_of_lt_of_le hv.1 hle.objects, Nat.lt_of_lt_of_le hv.2 hle.scopes⟩

/-- What a signal carries exists if the signal does. -/
theorem unwrap (hv : v.ExistsIn h) : v.unwrap.ExistsIn h := by
  cases v with
  | returned id w => exact hv.2
  | _ => exact hv

end Value.ExistsIn

namespace Heap

/-- All that is bound exists, and outer scopes are older than those inside them. -/
structure Closed (h : Heap) : Prop where
  outer : ∀ {i : ScopeId} {s : Scope} {o : ScopeId}, h.scopes[i]? = some s → s.outer = some o → o < i
  bound : ∀ {i : ScopeId} {s : Scope} {b : String × Value}, h.scopes[i]? = some s → b ∈ s.bindings → b.2.ExistsIn h

/-- In the heap with nothing in it there is nothing to name. -/
theorem closed_empty : Closed .empty :=
  ⟨nofun, nofun⟩

namespace Closed

variable {h : Heap} {v : Value} {outer : Option ScopeId}

/-- A new number names nothing. -/
theorem number (hh : h.Closed) : Closed { h with nextObject := h.nextObject + 1 } :=
  ⟨hh.outer, fun hs hb => (hh.bound hs hb).mono h.le_number⟩

/-- A new scope keeps a heap closed if the scope around it exists, since it is newer than that one. -/
theorem openScope (hh : h.Closed) (houter : ∀ o ∈ outer, o < h.scopes.size) : (h.openScope outer).2.Closed where
  outer := by
    intro i s o hs ho
    rw [getElem?_scopes_openScope] at hs
    split at hs
    · next hi =>
      cases hs
      exact hi ▸ houter o ho
    · exact hh.outer hs ho
  bound := by
    intro i s b hs hb
    rw [getElem?_scopes_openScope] at hs
    split at hs
    · cases hs
      cases hb
    · exact (hh.bound hs hb).mono (h.le_openScope outer)

/-- A binding keeps a heap closed if the value exists. -/
theorem bind (hh : h.Closed) (i : ScopeId) (name : String) (hv : v.ExistsIn h) : (h.bind i name v).Closed := by
  have hle := h.le_bind i name v
  constructor
  · intro j s o hs ho
    rw [getElem?_scopes_bind] at hs
    split at hs
    · obtain ⟨s', hs', rfl⟩ := Option.map_eq_some_iff.1 hs
      exact hh.outer hs' ho
    · exact hh.outer hs ho
  · intro j s b hs hb
    rw [getElem?_scopes_bind] at hs
    split at hs
    · obtain ⟨s', hs', rfl⟩ := Option.map_eq_some_iff.1 hs
      rcases List.mem_cons.1 hb with rfl | hb
      · exact hv.mono hle
      · exact (hh.bound hs' hb).mono hle
    · exact (hh.bound hs hb).mono hle

/-- All that is bound in a closed heap exists. -/
theorem bindsOnly (hh : h.Closed) : h.BindsOnly (Value.ExistsIn h) := by
  intro i s hs name v hv
  obtain ⟨before, after, hbindings, -⟩ := List.lookup_eq_some_iff.1 hv
  exact hh.bound hs (b := (name, v)) (by rw [hbindings]; simp)

/-- What is looked up exists. -/
theorem lookup (hh : h.Closed) {i : ScopeId} {name : String} (hv : h.lookup i name = some v) : v.ExistsIn h :=
  hh.bindsOnly.lookup hv

end Closed

end Heap

end Monkey
