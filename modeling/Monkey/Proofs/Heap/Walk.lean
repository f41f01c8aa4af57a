import Monkey.Proofs.Heap.Closed

/-!
# Walks outwards

In search of a name one walks from a scope outwards, until a scope binds the name or there is no further one.
`h.Walks name n i r` says that the walk from `i` ends in the `n`-th scope on its way, and with what. Nothing in it says
that walks end, and in a circle of scopes they need not.

In a closed heap they do: each outer scope is older than the one inside of it, so every walk gets to an end, and it has
passed no scope twice by then (`Closed.rooted`).
-/

namespace Monkey.Heap

/-- The walk from a scope outwards in search of a name ends in the `n`-th scope, with the value that the name has there,
or with nothing if that is the outermost one. -/
inductive Walks (h : Heap) (name : String) : Nat → ScopeId → Option Value → Prop
  | found {i s v} : h.scopes[i]? = some s → s.find? name = some v → Walks h name 1 i (some v)
  | outermost {i s} : h.scopes[i]? = some s → s.find? name = none → s.outer = none → Walks h name 1 i none
  | outwards {n i s outer r} : h.scopes[i]? = some s → s.find? name = none → s.outer = some outer →
    Walks h name n outer r → Walks h name (n + 1) i r

/-- A closed heap in which every walk ends, after as many scopes as there are at most, and finds what is looked up. -/
structure Rooted (h : Heap) : Prop extends h.Closed where
  ends : ∀ {i : ScopeId}, i < h.scopes.size → ∀ name, ∃ n r, h.Walks name n i r
  within : ∀ {i : ScopeId} {name : String} {n : Nat} {r : Option Value},
    h.Walks name n i r → n ≤ h.scopes.size ∧ h.lookup i name = r

variable {h : Heap} {name : String} {n steps : Nat} {i : ScopeId} {r : Option Value}

namespace Walks

theorem scope_lt (hw : h.Walks name n i r) : i < h.scopes.size := by
  cases hw with
  | found hs => exact (Array.getElem?_eq_some_iff.1 hs).1
  | outermost hs => exact (Array.getElem?_eq_some_iff.1 hs).1
  | outwards hs => exact (Array.getElem?_eq_some_iff.1 hs).1

/-- Who may pass as many scopes finds the same. -/
theorem lookupWithin (hw : h.Walks name n i r) (hsteps : n ≤ steps) : h.lookupWithin steps i name = r := by
  induction hw generalizing steps with
  | found hs hv =>
    obtain ⟨steps, rfl⟩ := Nat.exists_eq_add_of_le' hsteps
    simp only [Heap.lookupWithin, hs, hv]
  | outermost hs hv houter =>
    obtain ⟨steps, rfl⟩ := Nat.exists_eq_add_of_le' hsteps
    simp only [Heap.lookupWithin, hs, hv, houter]
  | outwards hs hv houter _ ih =>
    obtain ⟨steps, rfl⟩ := Nat.exists_eq_add_of_le' hsteps
    simp only [Heap.lookupWithin, hs, hv, houter]
    exact ih (Nat.le_add_left _ _)

/-- Only older scopes are passed on the way. -/
theorem le_succ (hw : h.Walks name n i r) (hh : h.Closed) : n ≤ i + 1 := by
  induction hw with
  | found | outermost => exact Nat.le_add_left _ _
  | outwards hs _ houter _ ih => exact Nat.succ_le_succ (Nat.le_trans ih (hh.outer hs houter))

end Walks

/-- A scope leads to an older one or to none, so the walk ends. -/
theorem Closed.exists_walks (hh : h.Closed) (hi : i < h.scopes.size) (name : String) : ∃ n r, h.Walks name n i r := by
  induction i using Nat.strongRecOn with
  | ind i ih =>
    have hs : h.scopes[i]? = some h.scopes[i] := Array.getElem?_eq_getElem hi
    cases hv : h.scopes[i].find? name with
    | some v => exact ⟨1, some v, .found hs hv⟩
    | none =>
      cases houter : h.scopes[i].outer with
      | none => exact ⟨1, none, .outermost hs hv houter⟩
      | some o =>
        have ho : o < i := hh.outer hs houter
        obtain ⟨n, r, hw⟩ := ih o ho (Nat.lt_trans ho hi)
        exact ⟨n + 1, r, .outwards hs hv houter hw⟩

/-- **Where outer scopes are older, every walk ends**, after no more scopes than there are. -/
theorem Closed.rooted (hh : h.Closed) : h.Rooted where
  toClosed := hh
  ends := hh.exists_walks
  within hw := by
    have hle : _ ≤ h.scopes.size := Nat.le_trans (hw.le_succ hh) hw.scope_lt
    exact ⟨hle, hw.lookupWithin hle⟩

end Monkey.Heap
