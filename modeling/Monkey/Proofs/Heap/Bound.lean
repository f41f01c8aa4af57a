import Monkey.Heap

/-!
# What a heap binds

`Heap.BindsOnly P`: the values that names are bound to, in whatever scopes, satisfy `P`. A new scope binds nothing and a
binding adds its own value, so it is the values that are bound on which it depends whether this is kept.
-/

namespace Monkey.Heap

/-- All scopes bind names only to values that satisfy `P`. -/
def BindsOnly (P : Value → Prop) (h : Heap) : Prop :=
  ∀ (i : ScopeId) (s : Scope), h.scopes[i]? = some s → ∀ (name : String) (v : Value), s.find? name = some v → P v

namespace BindsOnly

variable {P Q : Value → Prop} {h : Heap} {v : Value} {name : String}

theorem mono (hh : h.BindsOnly P) (hPQ : ∀ v, P v → Q v) : h.BindsOnly Q :=
  fun i s hs name v hv => hPQ v (hh i s hs name v hv)

/-- It is the scopes alone that count. -/
theorem of_scopes {h' : Heap} (hh : h.BindsOnly P) (hscopes : h'.scopes = h.scopes) : h'.BindsOnly P := by
  rwa [BindsOnly, hscopes]

/-- A new scope binds nothing yet. -/
theorem openScope (hh : h.BindsOnly P) (outer : Option ScopeId) : (h.openScope outer).2.BindsOnly P := by
  intro i s hi name v hv
  rw [getElem?_scopes_openScope] at hi
  split at hi
  · cases hi
    cases hv
  · exact hh i s hi name v hv

/-- Binding such a value keeps the bound. -/
theorem bind (hh : h.BindsOnly P) (hv : P v) (scope : ScopeId) (name : String) :
    (h.bind scope name v).BindsOnly P := by
  intro i s hi n w hw
  rw [getElem?_scopes_bind] at hi
  split at hi
  · obtain ⟨s', hs', rfl⟩ := Option.map_eq_some_iff.1 hi
    rw [Scope.find?_cons] at hw
    split at hw
    · cases hw
      exact hv
    · exact hh i s' hs' n w hw
  · exact hh i s hi n w hw

theorem lookupWithin (hh : h.BindsOnly P) {steps : Nat} {scope : ScopeId}
    (hv : h.lookupWithin steps scope name = some v) : P v := by
  induction steps generalizing scope with
  | zero => cases hv
  | succ steps ih =>
    rw [Heap.lookupWithin] at hv
    cases hs : h.scopes[scope]? with
    | none =>
      rw [hs] at hv
      cases hv
    | some s =>
      rw [hs] at hv
      dsimp only at hv
      split at hv
      · next w hw =>
        cases hv
        exact hh scope s hs name _ hw
      · cases hv
      · exact ih hv

/-- What is looked up is such a value. -/
theorem lookup (hh : h.BindsOnly P) {scope : ScopeId} (hv : h.lookup scope name = some v) : P v :=
  hh.lookupWithin hv

end BindsOnly

/-- A heap whose only scope binds nothing. -/
theorem bindsOnly_single (P : Value → Prop) (outer : Option ScopeId) (n : ObjectId) (journal : List Binding) :
    BindsOnly P ⟨#[⟨outer, []⟩], n, journal⟩ := by
  intro i s hs name v hv
  obtain ⟨hi, rfl⟩ := Array.getElem?_eq_some_iff.1 hs
  have hzero : i = 0 := by simpa using hi
  subst hzero
  cases hv

end Monkey.Heap
