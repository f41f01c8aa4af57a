import Monkey.Heap

/-!
# How a heap may change

`Evolves W h h'`: `h'` comes from `h` by numbering new objects, opening scopes and making bindings. A scope of `h` gets
only bindings that `W` allows; scopes opened on the way may get any. What holds of every such heap is shown here once,
by induction over the steps: no scope goes away (`Evolves.size_le`), and an old scope keeps its outer scope and its
bindings, in front of which stand new ones that were allowed (`Evolves.scope`).
-/

namespace Monkey

/-! ## Lookup behind new bindings -/

namespace Scope

variable {bindings : List (String × Value)} {outer : Option ScopeId} {name : String}

/-- New bindings do not hide a name they do not bind. -/
theorem find?_append {new : List (String × Value)} (h : ∀ b ∈ new, b.1 ≠ name) :
    find? ⟨outer, new ++ bindings⟩ name = find? ⟨outer, bindings⟩ name := by
  induction new with
  | nil => rfl
  | cons b new ih =>
    have hb : name ≠ b.1 := fun e => h b List.mem_cons_self e.symm
    rw [List.cons_append, find?_cons, if_neg hb]
    exact ih fun c hc => h c (List.mem_cons_of_mem b hc)

/-- A bound name stays bound. -/
theorem isSome_find?_append (new : List (String × Value)) (h : (find? ⟨outer, bindings⟩ name).isSome) :
    (find? ⟨outer, new ++ bindings⟩ name).isSome := by
  induction new with
  | nil => exact h
  | cons b new ih =>
    rw [List.cons_append, find?_cons]
    split
    · rfl
    · exact ih

end Scope

namespace Heap

/-- The heaps that come from `h` if bindings in its scopes are allowed by `W`. -/
inductive Evolves (W : ScopeId → String → Prop) (h : Heap) : Heap → Prop
  | refl : Evolves W h h
  | number {h' : Heap} : Evolves W h h' → Evolves W h { h' with nextObject := h'.nextObject + 1 }
  | openScope {h' : Heap} (outer : Option ScopeId) : Evolves W h h' → Evolves W h (h'.openScope outer).2
  | bind {h' : Heap} {i : ScopeId} {name : String} (value : Value) :
    Evolves W h h' → W i name ∨ h.scopes.size ≤ i → Evolves W h (h'.bind i name value)

namespace Evolves

variable {W W' : ScopeId → String → Prop} {h h₁ h₂ : Heap}

/-- No scope goes away. -/
theorem size_le (hw : Evolves W h h₁) : h.scopes.size ≤ h₁.scopes.size := by
  induction hw with
  | refl => exact Nat.le_refl _
  | number _ ih => exact ih
  | openScope outer _ ih =>
    rw [size_scopes_openScope]
    omega
  | bind value _ _ ih =>
    rw [size_scopes_bind]
    exact ih

/-- Numbers are not given anew. -/
theorem nextObject_le (hw : Evolves W h h₁) : h.nextObject ≤ h₁.nextObject := by
  induction hw with
  | refl => exact Nat.le_refl _
  | number _ ih => exact Nat.le_succ_of_le ih
  | openScope _ _ ih => exact ih
  | bind _ _ _ ih => exact ih

/-- What has been recorded stays recorded. -/
theorem journal_suffix (hw : Evolves W h h₁) : h.journal <:+ h₁.journal := by
  induction hw with
  | refl => exact List.suffix_refl _
  | number _ ih => exact ih
  | openScope _ _ ih => exact ih
  | bind _ _ _ ih => exact ih.trans (List.suffix_cons _ _)

/-- A change after a change. What the second one may bind has to be allowed from the start, or be in a scope that was
not there at the start. -/
theorem trans_of (hw : Evolves W h h₁) (hw' : Evolves W' h₁ h₂)
    (hWW' : ∀ i name, W' i name → W i name ∨ h.scopes.size ≤ i) : Evolves W h h₂ := by
  induction hw' with
  | refl => exact hw
  | number _ ih => exact .number ih
  | openScope outer _ ih => exact .openScope outer ih
  | bind value _ hi ih =>
    refine .bind value ih ?_
    rcases hi with hi | hi
    · exact hWW' _ _ hi
    · exact Or.inr (Nat.le_trans hw.size_le hi)

theorem trans (hw : Evolves W h h₁) (hw' : Evolves W h₁ h₂) : Evolves W h h₂ :=
  hw.trans_of hw' fun _ _ => Or.inl

theorem mono (hw : Evolves W h h₁) (hWW' : ∀ i name, W i name → W' i name) : Evolves W' h h₁ :=
  Evolves.refl.trans_of hw fun i name hi => Or.inl (hWW' i name hi)

/-- An old scope keeps its outer scope and its bindings. The new ones are allowed. -/
theorem scope (hw : Evolves W h h₁) {i : ScopeId} {s : Scope} (hi : h.scopes[i]? = some s) :
    ∃ new, h₁.scopes[i]? = some ⟨s.outer, new ++ s.bindings⟩ ∧ ∀ b ∈ new, W i b.1 := by
  have hlt : i < h.scopes.size := (Array.getElem?_eq_some_iff.1 hi).1
  induction hw with
  | refl => exact ⟨[], hi, by simp⟩
  | number _ ih => exact ih
  | openScope outer hw ih =>
    obtain ⟨new, hnew, hW⟩ := ih
    have hne : i ≠ _ := Nat.ne_of_lt (Nat.lt_of_lt_of_le hlt hw.size_le)
    exact ⟨new, by rw [getElem?_scopes_openScope, if_neg hne, hnew], hW⟩
  | @bind h' j name value hw hj ih =>
    obtain ⟨new, hnew, hW⟩ := ih
    rw [getElem?_scopes_bind]
    by_cases hji : j = i
    · subst hji
      have hallowed : W j name := hj.resolve_right (Nat.not_le.2 hlt)
      refine ⟨(name, value) :: new, by rw [if_pos rfl, hnew]; rfl, ?_⟩
      intro b hb
      rcases List.mem_cons.1 hb with rfl | hb
      · exact hallowed
      · exact hW b hb
    · exact ⟨new, by rw [if_neg hji, hnew], hW⟩

/-- A scope in which nothing may be bound stays as it is. -/
theorem scope_eq (hw : Evolves W h h₁) {i : ScopeId} (hlt : i < h.scopes.size) (hW : ∀ name, ¬W i name) :
    h₁.scopes[i]? = h.scopes[i]? := by
  have hi : h.scopes[i]? = some h.scopes[i] := Array.getElem?_eq_getElem hlt
  obtain ⟨new, hnew, hall⟩ := hw.scope hi
  have hnil : new = [] := List.eq_nil_iff_forall_not_mem.2 fun b hb => hW b.1 (hall b hb)
  rw [hnew, hi, hnil]
  rfl

end Evolves

end Heap

end Monkey
