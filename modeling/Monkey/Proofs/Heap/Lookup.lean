import Mathlib.Data.Fintype.Card
import Monkey.Heap

/-!
# Lookups

A lookup walks outwards over at most as many scopes as there are. No more are ever needed: a name that is found is found
within that many steps, since no scope is passed twice on the way to it (`Finds.lt_size`). So it does not matter how far
a lookup may walk if it may pass all scopes (`lookupWithin_of_size_le`), be there a circle of scopes or not.
-/

namespace Monkey.Heap

/-- Outwards from a scope, a name is bound to a value `n` scopes further on, and in no scope before. -/
inductive Finds (h : Heap) (name : String) (v : Value) : Nat → ScopeId → Prop
  | here {i s} : h.scopes[i]? = some s → s.find? name = some v → Finds h name v 0 i
  | outwards {n i s outer} : h.scopes[i]? = some s → s.find? name = none → s.outer = some outer →
    Finds h name v n outer → Finds h name v (n + 1) i

variable {h : Heap} {name : String} {v w : Value} {n m steps : Nat} {i : ScopeId}

namespace Finds

theorem lookupWithin (hn : h.Finds name v n i) : ∀ {steps}, n < steps → h.lookupWithin steps i name = some v := by
  induction hn with
  | here hs hv =>
    intro steps hlt
    obtain ⟨steps, rfl⟩ := Nat.exists_eq_add_of_lt hlt
    simp only [Heap.lookupWithin, hs, hv]
  | outwards hs hv houter _ ih =>
    intro steps hlt
    obtain ⟨steps, rfl⟩ := Nat.exists_eq_add_of_lt hlt
    simp only [Heap.lookupWithin, hs, hv, houter]
    exact ih (by omega)

/-- From one scope there is one distance. -/
theorem distance_eq (hn : h.Finds name v n i) : ∀ {m}, h.Finds name w m i → n = m := by
  induction hn with
  | here hs hv =>
    intro m hm
    cases hm with
    | here => rfl
    | outwards hs' hv' =>
      cases hs.symm.trans hs'
      cases hv.symm.trans hv'
  | outwards hs hv houter _ ih =>
    intro m hm
    cases hm with
    | here hs' hv' =>
      cases hs.symm.trans hs'
      cases hv.symm.trans hv'
    | outwards hs' _ houter' hm =>
      cases hs.symm.trans hs'
      cases houter.symm.trans houter'
      rw [ih hm]

theorem scope_lt (hn : h.Finds name v n i) : i < h.scopes.size := by
  cases hn with
  | here hs => exact (Array.getElem?_eq_some_iff.1 hs).1
  | outwards hs => exact (Array.getElem?_eq_some_iff.1 hs).1

/-- On the way lies a scope for each smaller distance. -/
theorem exists_of_le (hn : h.Finds name v n i) : ∀ m ≤ n, ∃ j, h.Finds name v m j := by
  induction hn with
  | @here i s hs hv =>
    intro m hm
    obtain rfl := Nat.le_zero.1 hm
    exact ⟨i, .here hs hv⟩
  | @outwards n i s outer hs hv houter hn ih =>
    intro m hm
    rcases Nat.lt_or_eq_of_le hm with hlt | rfl
    · exact ih m (Nat.le_of_lt_succ hlt)
    · exact ⟨i, .outwards hs hv houter hn⟩

/-- **A name that is found is found within as many steps as there are scopes**: the scopes on the way lie at different
distances, so they are different. -/
theorem lt_size (hn : h.Finds name v n i) : n < h.scopes.size := by
  choose scope hscope using fun m : Fin (n + 1) => hn.exists_of_le m (Nat.le_of_lt_succ m.isLt)
  have hinj : Function.Injective fun m => (⟨scope m, (hscope m).scope_lt⟩ : Fin h.scopes.size) := by
    intro m m' heq
    have hsame : scope m = scope m' := congrArg Fin.val heq
    exact Fin.ext ((hscope m).distance_eq (hsame ▸ hscope m'))
  have hcard := Fintype.card_le_of_injective _ hinj
  rwa [Fintype.card_fin, Fintype.card_fin] at hcard

end Finds

theorem finds_of_lookupWithin (hv : h.lookupWithin steps i name = some v) : ∃ n, h.Finds name v n i := by
  induction steps generalizing i with
  | zero => cases hv
  | succ steps ih =>
    rw [lookupWithin] at hv
    cases hs : h.scopes[i]? with
    | none =>
      rw [hs] at hv
      cases hv
    | some s =>
      rw [hs] at hv
      dsimp only at hv
      split at hv
      · next w hw =>
        cases hv
        exact ⟨0, .here hs hw⟩
      · cases hv
      · next outer hnone houter =>
        obtain ⟨n, hn⟩ := ih hv
        exact ⟨n + 1, .outwards hs hnone houter hn⟩

/-- **How far a lookup may walk does not matter** if it may pass all scopes. -/
theorem lookupWithin_of_size_le (hsteps : h.scopes.size ≤ steps) (i : ScopeId) (name : String) :
    h.lookupWithin steps i name = h.lookup i name := by
  refine Option.ext fun v => ⟨fun hv => ?_, fun hv => ?_⟩
  · obtain ⟨n, hn⟩ := finds_of_lookupWithin hv
    exact hn.lookupWithin hn.lt_size
  · obtain ⟨n, hn⟩ := finds_of_lookupWithin hv
    exact hn.lookupWithin (Nat.lt_of_lt_of_le hn.lt_size hsteps)

/-- It is the scopes alone that count. -/
theorem lookup_of_scopes {h' : Heap} (hscopes : h'.scopes = h.scopes) (i : ScopeId) (name : String) :
    h'.lookup i name = h.lookup i name := by
  have hwithin (steps : Nat) (i : ScopeId) : h'.lookupWithin steps i name = h.lookupWithin steps i name := by
    induction steps generalizing i with
    | zero => rfl
    | succ steps ih => simp only [lookupWithin, hscopes, ih]
  rw [lookup, hwithin, hscopes, lookup]

end Monkey.Heap
