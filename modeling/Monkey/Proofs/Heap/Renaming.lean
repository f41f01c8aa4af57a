import Mathlib.Data.List.Forall2
import Mathlib.Logic.Relator
import Monkey.Proofs.Heap.Lookup

/-!
# Heaps up to the numbers in them

Scopes and values are numbered in the order in which they are made, so the numbers depend on whatever else has been
going on. A `Renaming` says which scopes and which objects of one heap stand for which of another one, each for at most
one. Values are the same up to it if they differ in nothing but numbers that stand for each other. `h.Renamed ρ h'` says
that scopes that stand for each other have such bindings; what else is in the heaps does not matter.

* `Heap.Renamed.lookup`: lookups in scopes that stand for each other give values that are the same up to renaming.
* `Heap.Renamed.number`, `openScope`, `bind`: so it stays when both heaps are changed in the same way.
* `Heap.Renamed.of_unchanged`: so it stays when one heap changes elsewhere.
-/

namespace Monkey

/-- Which scopes and which objects of one heap stand for which of another. -/
structure Renaming where
  scope : ScopeId → ScopeId → Prop
  object : ObjectId → ObjectId → Prop

namespace Renaming

/-- What stands for each other still does so. -/
structure Le (ρ ρ' : Renaming) : Prop where
  scope : ∀ {i j}, ρ.scope i j → ρ'.scope i j
  object : ∀ {m n}, ρ.object m n → ρ'.object m n

instance : LE Renaming where
  le := Le

theorem le_refl (ρ : Renaming) : ρ ≤ ρ :=
  ⟨id, id⟩

theorem le_trans {ρ ρ₁ ρ₂ : Renaming} (h : ρ ≤ ρ₁) (h' : ρ₁ ≤ ρ₂) : ρ ≤ ρ₂ :=
  ⟨fun hs => h'.scope (h.scope hs), fun ho => h'.object (h.object ho)⟩

/-- Two scopes more. -/
def addScope (ρ : Renaming) (i j : ScopeId) : Renaming :=
  { ρ with scope := fun i' j' => ρ.scope i' j' ∨ (i' = i ∧ j' = j) }

/-- Two objects more. -/
def addObject (ρ : Renaming) (m n : ObjectId) : Renaming :=
  { ρ with object := fun m' n' => ρ.object m' n' ∨ (m' = m ∧ n' = n) }

/-- A pair of scopes more extends a renaming. -/
theorem le_addScope (ρ : Renaming) (i j : ScopeId) : ρ ≤ ρ.addScope i j :=
  ⟨Or.inl, id⟩

/-- A pair of objects more extends a renaming. -/
theorem le_addObject (ρ : Renaming) (m n : ObjectId) : ρ ≤ ρ.addObject m n :=
  ⟨id, Or.inl⟩

/-- The renaming of nothing, but for one scope. -/
def single (i j : ScopeId) : Renaming :=
  ⟨fun i' j' => i' = i ∧ j' = j, fun _ _ => False⟩

/-- Numbers that are too large to stand for anything yet can be added. -/
theorem biUnique_or {R : Nat → Nat → Prop} (hR : Relator.BiUnique R) {m n : Nat}
    (hlt : ∀ {a b}, R a b → a < m ∧ b < n) : Relator.BiUnique fun a b => R a b ∨ (a = m ∧ b = n) := by
  constructor
  · rintro a b c (hac | ⟨rfl, rfl⟩) (hbc | ⟨rfl, hc⟩)
    · exact hR.1 hac hbc
    · exact absurd (hlt hac).2 (by omega)
    · exact absurd (hlt hbc).2 (by omega)
    · rfl
  · rintro a b c (hab | ⟨rfl, rfl⟩) (hac | ⟨hc, rfl⟩)
    · exact hR.2 hab hac
    · exact absurd (hlt hab).1 (by omega)
    · exact absurd (hlt hac).1 (by omega)
    · rfl

end Renaming

/-- Functions that differ in the number of their scope. -/
structure Closure.Renamed (ρ : Renaming) (f f' : Closure) : Prop where
  parameters : f.parameters = f'.parameters
  body : f.body = f'.body
  scope : ρ.scope f.scope f'.scope

/-- Values that differ in the numbers in them. -/
inductive Value.Renamed (ρ : Renaming) : Value → Value → Prop
  | integer {id id' n} : ρ.object id id' → Renamed ρ (.integer id n) (.integer id' n)
  | boolean {b} : Renamed ρ (.boolean b) (.boolean b)
  | null : Renamed ρ .null .null
  | returned {id id' v v'} : ρ.object id id' → Renamed ρ v v' → Renamed ρ (.returned id v) (.returned id' v')
  | error {id id' cause} : ρ.object id id' → Renamed ρ (.error id cause) (.error id' cause)
  | function {id id' f f'} : ρ.object id id' → f.Renamed ρ f' → Renamed ρ (.function id f) (.function id' f')

namespace Value.Renamed

variable {ρ ρ' : Renaming} {v v' w w' : Value}

theorem mono (h : v.Renamed ρ v') (hle : ρ ≤ ρ') : v.Renamed ρ' v' := by
  induction h with
  | integer ho => exact .integer (hle.object ho)
  | boolean => exact .boolean
  | null => exact .null
  | returned ho _ ih => exact .returned (hle.object ho) ih
  | error ho => exact .error (hle.object ho)
  | function ho hf => exact .function (hle.object ho) ⟨hf.parameters, hf.body, hle.scope hf.scope⟩

/-- Values up to renaming are of one kind. -/
theorem tag_eq (h : v.Renamed ρ v') : v.tag = v'.tag := by
  cases h <;> rfl

/-- They show the same. -/
theorem inspect_eq (h : v.Renamed ρ v') : v.inspect = v'.inspect := by
  induction h with
  | integer | boolean | null | error => rfl
  | returned _ _ ih => simpa only [Value.inspect] using ih
  | function _ hf => simp only [Value.inspect, hf.parameters]

/-- Of values up to renaming either both are errors or none is. -/
theorem isError_eq (h : v.Renamed ρ v') : v.isError = v'.isError := by
  cases h <;> rfl

theorem isSignal_eq (h : v.Renamed ρ v') : v.isSignal = v'.isSignal := by
  cases h <;> rfl

theorem isNull_eq (h : v.Renamed ρ v') : v.isNull = v'.isNull := by
  cases h <;> rfl

theorem isTruthy_eq (h : v.Renamed ρ v') : v.isTruthy = v'.isTruthy := by
  cases h <;> rfl

theorem unwrap (h : v.Renamed ρ v') : v.unwrap.Renamed ρ v'.unwrap := by
  cases h with
  | returned _ hv => exact hv
  | integer ho => exact .integer ho
  | boolean => exact .boolean
  | null => exact .null
  | error ho => exact .error ho
  | function ho hf => exact .function ho hf

/-- What makes a value the same as another: each object stands for at most one. -/
theorem identity_eq_iff (hρ : Relator.BiUnique ρ.object) (hv : v.Renamed ρ v') (hw : w.Renamed ρ w') :
    v.identity = w.identity ↔ v'.identity = w'.identity := by
  have hobject : ∀ {m m' n n'}, ρ.object m m' → ρ.object n n' →
      (Identity.object m = .object n ↔ Identity.object m' = .object n') := by
    intro m m' n n' hm hn
    rw [Identity.object.injEq, Identity.object.injEq]
    exact ⟨fun e => hρ.2 (e ▸ hm) hn, fun e => hρ.1 (e ▸ hm) hn⟩
  cases hv <;> cases hw <;> simp only [identity, reduceCtorEq]
  all_goals exact hobject ‹_› ‹_›

/-- Values up to renaming are told apart alike. -/
theorem same_eq (hρ : Relator.BiUnique ρ.object) (hv : v.Renamed ρ v') (hw : w.Renamed ρ w') :
    v.same w = v'.same w' :=
  decide_eq_decide.2 (identity_eq_iff hρ hv hw)

end Value.Renamed

/-- Scopes with the same names, in the same order, bound to values that are the same up to renaming. -/
structure Scope.Renamed (ρ : Renaming) (s s' : Scope) : Prop where
  outer : Option.Rel ρ.scope s.outer s'.outer
  bindings : List.Forall₂ (fun b b' => b.1 = b'.1 ∧ b.2.Renamed ρ b'.2) s.bindings s'.bindings

namespace Scope.Renamed

variable {ρ ρ' : Renaming} {s s' : Scope} {v v' : Value}

theorem mono (h : s.Renamed ρ s') (hle : ρ ≤ ρ') : s.Renamed ρ' s' where
  outer := by
    obtain ⟨houter, -⟩ := h
    generalize s.outer = o at houter
    generalize s'.outer = o' at houter
    cases houter with
    | some ho => exact .some (hle.scope ho)
    | none => exact .none
  bindings := h.bindings.imp fun _ _ hb => ⟨hb.1, hb.2.mono hle⟩

theorem find? (h : s.Renamed ρ s') (name : String) : Option.Rel (Value.Renamed ρ) (s.find? name) (s'.find? name) := by
  obtain ⟨outer, bindings⟩ := s
  obtain ⟨outer', bindings'⟩ := s'
  obtain ⟨-, hbindings⟩ := h
  dsimp only at hbindings
  induction hbindings with
  | nil => exact .none
  | @cons b b' bindings bindings' hb _ ih =>
    rw [Scope.find?_cons, Scope.find?_cons, hb.1]
    split
    · exact .some hb.2
    · exact ih

/-- Scopes up to renaming bind the same names in the same order. -/
theorem names_eq (h : s.Renamed ρ s') : s.names = s'.names := by
  have hnames : s.bindings.map Prod.fst = s'.bindings.map Prod.fst := by
    obtain ⟨-, hbindings⟩ := h
    generalize s.bindings = bindings at hbindings
    generalize s'.bindings = bindings' at hbindings
    induction hbindings with
    | nil => rfl
    | cons hb _ ih => rw [List.map_cons, List.map_cons, hb.1, ih]
  rw [Scope.names, Scope.names, List.map_reverse, List.map_reverse, hnames]

theorem bind (h : s.Renamed ρ s') (name : String) (hv : v.Renamed ρ v') :
    Scope.Renamed ρ ⟨s.outer, (name, v) :: s.bindings⟩ ⟨s'.outer, (name, v') :: s'.bindings⟩ :=
  ⟨h.outer, .cons ⟨rfl, hv⟩ h.bindings⟩

end Scope.Renamed

/-- Heaps in which the scopes that stand for each other are the same up to renaming. -/
structure Heap.Renamed (ρ : Renaming) (h h' : Heap) : Prop where
  scope : ∀ {i j}, ρ.scope i j → ∃ s s', h.scopes[i]? = some s ∧ h'.scopes[j]? = some s' ∧ s.Renamed ρ s'
  object : ∀ {m n}, ρ.object m n → m < h.nextObject ∧ n < h'.nextObject
  scopes_unique : Relator.BiUnique ρ.scope
  objects_unique : Relator.BiUnique ρ.object

namespace Heap.Renamed

variable {ρ : Renaming} {h h' h₁ : Heap} {i j : ScopeId} {v v' : Value}

/-- Renamed scopes are there. -/
theorem scope_lt (hh : h.Renamed ρ h') (hij : ρ.scope i j) : i < h.scopes.size ∧ j < h'.scopes.size := by
  obtain ⟨s, s', hs, hs', -⟩ := hh.scope hij
  exact ⟨(Array.getElem?_eq_some_iff.1 hs).1, (Array.getElem?_eq_some_iff.1 hs').1⟩

/-- Walks of as many steps find values up to renaming. -/
theorem lookupWithin (hh : h.Renamed ρ h') (steps : Nat) (hij : ρ.scope i j) (name : String) :
    Option.Rel (Value.Renamed ρ) (h.lookupWithin steps i name) (h'.lookupWithin steps j name) := by
  induction steps generalizing i j with
  | zero => exact .none
  | succ steps ih =>
    obtain ⟨s, s', hs, hs', hrenamed⟩ := hh.scope hij
    have hfind := hrenamed.find? name
    have houter := hrenamed.outer
    rw [Heap.lookupWithin, Heap.lookupWithin, hs, hs']
    dsimp only
    generalize s.find? name = r at hfind
    generalize s'.find? name = r' at hfind
    generalize s.outer = o at houter
    generalize s'.outer = o' at houter
    cases hfind with
    | some hv => exact .some hv
    | none =>
      cases houter with
      | none => exact .none
      | some ho => exact ih ho

/-- **Lookups in scopes that stand for each other.** -/
theorem lookup (hh : h.Renamed ρ h') (hij : ρ.scope i j) (name : String) :
    Option.Rel (Value.Renamed ρ) (h.lookup i name) (h'.lookup j name) := by
  rw [← lookupWithin_of_size_le (Nat.le_max_left h.scopes.size h'.scopes.size),
    ← lookupWithin_of_size_le (Nat.le_max_right h.scopes.size h'.scopes.size)]
  exact hh.lookupWithin _ hij name

/-- What is bound in scopes that stand for each other shows the same. -/
theorem bindingsOf_eq (hh : h.Renamed ρ h') (hij : ρ.scope i j) :
    (h.bindingsOf i).map (Prod.map id Value.inspect) = (h'.bindingsOf j).map (Prod.map id Value.inspect) := by
  obtain ⟨s, s', hs, hs', hrenamed⟩ := hh.scope hij
  rw [bindingsOf, bindingsOf, hs, hs']
  dsimp only
  rw [hrenamed.names_eq, List.map_filterMap, List.map_filterMap]
  congr 1
  funext name
  have hfind := hrenamed.find? name
  generalize s.find? name = r at hfind
  generalize s'.find? name = r' at hfind
  cases hfind with
  | none => rfl
  | some hv => exact congrArg (fun text => some (name, text)) hv.inspect_eq

/-- Two scopes that lie in no other and bind nothing. -/
theorem single (hi : h.scopes[i]? = some ⟨none, []⟩) (hj : h'.scopes[j]? = some ⟨none, []⟩) :
    h.Renamed (.single i j) h' where
  scope := by
    rintro _ _ ⟨rfl, rfl⟩
    exact ⟨_, _, hi, hj, .none, .nil⟩
  object := False.elim
  scopes_unique := ⟨fun _ _ _ hk hk' => hk.1.trans hk'.1.symm, fun _ _ _ hk hk' => hk.2.trans hk'.2.symm⟩
  objects_unique := ⟨fun _ _ _ => False.elim, fun _ _ _ => False.elim⟩

/-! ## The same change in both heaps -/

/-- A new object in each heap. -/
theorem number (hh : h.Renamed ρ h') :
    Heap.Renamed (ρ.addObject h.nextObject h'.nextObject) { h with nextObject := h.nextObject + 1 }
      { h' with nextObject := h'.nextObject + 1 } where
  scope hij := by
    obtain ⟨s, s', hs, hs', hrenamed⟩ := hh.scope hij
    exact ⟨s, s', hs, hs', hrenamed.mono (ρ.le_addObject _ _)⟩
  object := by
    rintro m n (hmn | ⟨rfl, rfl⟩)
    · have := hh.object hmn
      exact ⟨Nat.lt_succ_of_lt this.1, Nat.lt_succ_of_lt this.2⟩
    · exact ⟨Nat.lt_succ_self _, Nat.lt_succ_self _⟩
  scopes_unique := hh.scopes_unique
  objects_unique := Renaming.biUnique_or hh.objects_unique hh.object

/-- A new scope in each heap, within scopes that stand for each other. -/
theorem openScope (hh : h.Renamed ρ h') (hij : ρ.scope i j) :
    Heap.Renamed (ρ.addScope h.scopes.size h'.scopes.size) (h.openScope (some i)).2 (h'.openScope (some j)).2 where
  scope := by
    rintro i' j' (hij' | ⟨rfl, rfl⟩)
    · obtain ⟨s, s', hs, hs', hrenamed⟩ := hh.scope hij'
      have hlt := hh.scope_lt hij'
      refine ⟨s, s', ?_, ?_, hrenamed.mono (ρ.le_addScope _ _)⟩
      · rw [getElem?_scopes_openScope, if_neg (Nat.ne_of_lt hlt.1), hs]
      · rw [getElem?_scopes_openScope, if_neg (Nat.ne_of_lt hlt.2), hs']
    · refine ⟨⟨some i, []⟩, ⟨some j, []⟩, ?_, ?_, .some ((ρ.le_addScope _ _).scope hij), .nil⟩
      · rw [getElem?_scopes_openScope, if_pos rfl]
      · rw [getElem?_scopes_openScope, if_pos rfl]
  object := hh.object
  scopes_unique := Renaming.biUnique_or hh.scopes_unique hh.scope_lt
  objects_unique := hh.objects_unique

/-- A binding of the same name in scopes that stand for each other. -/
theorem bind (hh : h.Renamed ρ h') (hij : ρ.scope i j) (name : String) (hv : v.Renamed ρ v') :
    Heap.Renamed ρ (h.bind i name v) (h'.bind j name v') where
  scope := by
    intro i' j' hij'
    obtain ⟨s, s', hs, hs', hrenamed⟩ := hh.scope hij'
    rw [getElem?_scopes_bind, getElem?_scopes_bind, hs, hs']
    by_cases hi : i = i'
    · have hj : j = j' := hh.scopes_unique.2 hij (hi ▸ hij')
      rw [if_pos hi, if_pos hj]
      exact ⟨_, _, rfl, rfl, hrenamed.bind name hv⟩
    · have hj : j ≠ j' := fun hj => hi (hh.scopes_unique.1 hij (hj ▸ hij'))
      rw [if_neg hi, if_neg hj]
      exact ⟨s, s', rfl, rfl, hrenamed⟩
  object := hh.object
  scopes_unique := hh.scopes_unique
  objects_unique := hh.objects_unique

/-! ## A change elsewhere -/

/-- The heap on the right may change as long as the scopes that stand for something stay as they are. -/
theorem of_unchanged (hh : h.Renamed ρ h') (hscopes : ∀ {i j}, ρ.scope i j → h₁.scopes[j]? = h'.scopes[j]?)
    (hobject : h'.nextObject ≤ h₁.nextObject) : h.Renamed ρ h₁ where
  scope hij := by
    obtain ⟨s, s', hs, hs', hrenamed⟩ := hh.scope hij
    exact ⟨s, s', hs, (hscopes hij).trans hs', hrenamed⟩
  object hmn := ⟨(hh.object hmn).1, Nat.lt_of_lt_of_le (hh.object hmn).2 hobject⟩
  scopes_unique := hh.scopes_unique
  objects_unique := hh.objects_unique

end Heap.Renamed

end Monkey
