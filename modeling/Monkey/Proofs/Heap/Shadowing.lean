import Mathlib.Data.List.Induction
import Monkey.Proofs.Heap.Lookup

/-!
# The nearest scope and the latest binding

Scopes are opened, and names are bound in them, in any order (`Move`). What a name means in a scope is told by the moves
alone: outwards from there, it is the value of the latest binding in the nearest scope in which the name has been bound
at all (`lookup_eq_findSome?`). So a binding changes what a name means only in scopes from which its own scope is found
before any other that binds the name (`isNearest_of_changed`).
-/

namespace Monkey.Heap

/-! ## Moves -/

/-- What is done to scopes: one is opened, inside of another or not, or a name is bound in one. -/
inductive Move where
  | openScope (outer : Option ScopeId)
  | bind (scope : ScopeId) (name : String) (value : Value)

namespace Move

/-- The heap after a move; a scope that is named has to be there. -/
def after? (h : Heap) : Move → Option Heap
  | .openScope outer => if ∀ o ∈ outer, o < h.scopes.size then some (h.openScope outer).2 else none
  | .bind scope name value => if scope < h.scopes.size then some (h.bind scope name value) else none

/-- The outer scope of the scope that is opened. -/
def opened? : Move → Option (Option ScopeId)
  | .openScope outer => some outer
  | .bind .. => none

/-- The value that a name is bound to in a scope. -/
def value? (i : ScopeId) (name : String) : Move → Option Value
  | .openScope _ => none
  | .bind scope n value => if scope = i ∧ n = name then some value else none

theorem value?_eq_some {i : ScopeId} {name : String} {v : Value} {m : Move} :
    m.value? i name = some v ↔ m = .bind i name v := by
  cases m with
  | openScope outer => simp [value?]
  | bind scope n value =>
    rw [value?]
    split
    · next h => simp [h.1, h.2]
    · next h =>
      refine ⟨nofun, fun heq => ?_⟩
      cases heq
      exact absurd ⟨rfl, rfl⟩ h

end Move

/-- The heap after some moves, from the one in which nothing has happened. -/
def build? (moves : List Move) : Option Heap :=
  moves.foldlM Move.after? .empty

/-- The outer scopes of the scopes that have been opened, in the order of their numbers. -/
def outers (moves : List Move) : List (Option ScopeId) :=
  moves.filterMap Move.opened?

/-- The value of the latest binding of a name in a scope. -/
def latest? (moves : List Move) (i : ScopeId) (name : String) : Option Value :=
  moves.reverse.findSome? (Move.value? i name)

/-- The scopes from a scope outwards, each inside of the next. -/
inductive Outwards (moves : List Move) : ScopeId → List ScopeId → Prop
  | last {i} : (outers moves)[i]? = some none → Outwards moves i [i]
  | inside {i o chain} : (outers moves)[i]? = some (some o) → Outwards moves o chain → Outwards moves i (i :: chain)

variable {moves : List Move} {m : Move} {h h' : Heap} {i j e : ScopeId} {name : String} {v : Value}

/-- One move more is made on the heap that was built before. -/
theorem build?_concat_eq_some : build? (moves ++ [m]) = some h' ↔ ∃ h, build? moves = some h ∧ m.after? h = some h' := by
  rw [build?, List.foldlM_append, Option.bind_eq_bind, Option.bind_eq_some_iff]
  simp only [List.foldlM_cons, List.foldlM_nil, bind_pure]
  rfl

theorem outers_concat_openScope (outer : Option ScopeId) :
    outers (moves ++ [.openScope outer]) = outers moves ++ [outer] := by
  simp [outers, Move.opened?]

theorem outers_concat_bind : outers (moves ++ [.bind i name v]) = outers moves := by
  simp [outers, Move.opened?]

/-- The latest binding is that of the last move, if it makes one. -/
theorem latest?_concat : latest? (moves ++ [m]) i name = (m.value? i name).or (latest? moves i name) := by
  rw [latest?, List.reverse_append, List.findSome?_append, List.reverse_singleton, List.findSome?_singleton, latest?]

/-- A name has no latest binding exactly where it has never been bound. -/
theorem latest?_eq_none_iff : latest? moves i name = none ↔ ∀ v, .bind i name v ∉ moves := by
  rw [latest?, List.findSome?_eq_none_iff]
  constructor
  · intro hnone v hv
    have hbound := hnone _ (List.mem_reverse.2 hv)
    rw [Move.value?_eq_some.2 rfl] at hbound
    cases hbound
  · intro hnever m hm
    refine Option.eq_none_iff_forall_ne_some.2 fun v hv => ?_
    exact hnever v (Move.value?_eq_some.1 hv ▸ List.mem_reverse.1 hm)

/-! ## What the moves tell of the heap -/

/-- Scopes lie inside of each other, and bind names, as the moves tell. -/
structure ToldBy (moves : List Move) (h : Heap) : Prop where
  size : (outers moves).length = h.scopes.size
  outer : ∀ {i : ScopeId} {s : Scope}, h.scopes[i]? = some s → (outers moves)[i]? = some s.outer
  find? : ∀ {i : ScopeId} {s : Scope}, h.scopes[i]? = some s → ∀ name, s.find? name = latest? moves i name
  older : ∀ {i o : ScopeId}, (outers moves)[i]? = some (some o) → o < i
  unopened : ∀ {i : ScopeId}, h.scopes.size ≤ i → ∀ name, latest? moves i name = none

namespace ToldBy

theorem openScope {outer : Option ScopeId} (hm : ToldBy moves h) (houter : ∀ o ∈ outer, o < h.scopes.size) :
    ToldBy (moves ++ [.openScope outer]) (h.openScope outer).2 where
  size := by rw [outers_concat_openScope, List.length_append, hm.size, size_scopes_openScope]; rfl
  outer {i s} hs := by
    rw [outers_concat_openScope]
    rw [getElem?_scopes_openScope] at hs
    split at hs
    · next hi =>
      cases hs
      rw [hi, ← hm.size, List.getElem?_concat_length]
    · exact List.getElem?_append_left (hm.size ▸ (Array.getElem?_eq_some_iff.1 hs).1) ▸ hm.outer hs
  find? {i s} hs name := by
    rw [latest?_concat]
    rw [getElem?_scopes_openScope] at hs
    split at hs
    · next hi =>
      cases hs
      exact (hm.unopened (Nat.le_of_eq hi.symm) name).symm
    · exact hm.find? hs name
  older {i o} ho := by
    rw [outers_concat_openScope, List.getElem?_append] at ho
    split at ho
    · exact hm.older ho
    · next hi =>
      rw [List.getElem?_singleton] at ho
      split at ho
      · cases ho
        exact Nat.lt_of_lt_of_le (houter o rfl) (hm.size ▸ Nat.le_of_not_lt hi)
      · cases ho
  unopened {i} hi name := by
    rw [latest?_concat]
    rw [size_scopes_openScope] at hi
    exact hm.unopened (Nat.le_of_succ_le hi) name

theorem bind (hm : ToldBy moves h) (hi : i < h.scopes.size) (name : String) (v : Value) :
    ToldBy (moves ++ [.bind i name v]) (h.bind i name v) where
  size := by rw [outers_concat_bind, hm.size, size_scopes_bind]
  outer {j s} hs := by
    rw [outers_concat_bind]
    rw [getElem?_scopes_bind] at hs
    split at hs
    · obtain ⟨s', hs', rfl⟩ := Option.map_eq_some_iff.1 hs
      exact hm.outer (s := s') hs'
    · exact hm.outer hs
  find? {j s} hs n := by
    rw [latest?_concat, Move.value?]
    rw [getElem?_scopes_bind] at hs
    split at hs
    · next hij =>
      obtain ⟨s, hs', rfl⟩ := Option.map_eq_some_iff.1 hs
      rw [Scope.find?_cons, hm.find? hs']
      by_cases hn : n = name
      · simp [hij, hn]
      · simp [hn, Ne.symm hn]
    · next hij =>
      rw [if_neg fun hbound => hij hbound.1]
      exact hm.find? hs n
  older {j o} ho := hm.older (outers_concat_bind ▸ ho)
  unopened {j} hj n := by
    rw [size_scopes_bind] at hj
    rw [latest?_concat, Move.value?, if_neg fun (hij : i = j ∧ name = n) => Nat.not_le.2 hi (hij.1 ▸ hj)]
    exact hm.unopened hj n

end ToldBy

/-- **The moves tell all there is in the heap.** -/
theorem toldBy_of_build? (hb : build? moves = some h) : ToldBy moves h := by
  induction moves using List.reverseRecOn generalizing h with
  | nil =>
    cases hb
    exact ⟨rfl, nofun, nofun, nofun, fun _ _ => rfl⟩
  | append_singleton moves m ih =>
    obtain ⟨before, hbefore, hm⟩ := build?_concat_eq_some.1 hb
    cases m with
    | openScope outer =>
      obtain ⟨houter, heq⟩ := Option.ite_none_right_eq_some.1 hm
      cases heq
      exact (ih hbefore).openScope houter
    | bind i name v =>
      obtain ⟨hi, heq⟩ := Option.ite_none_right_eq_some.1 hm
      cases heq
      exact (ih hbefore).bind hi name v

/-! ## Lookups -/

theorem lookupWithin_succ {s : Scope} (hs : h.scopes[i]? = some s) (steps : Nat) :
    h.lookupWithin (steps + 1) i name = (s.find? name).or (s.outer.bind (h.lookupWithin steps · name)) := by
  rw [lookupWithin, hs]
  dsimp only
  cases s.find? name <;> cases s.outer <;> rfl

namespace ToldBy

/-- Every scope that was opened is there, with the outer one it was opened in. -/
theorem exists_scope (hm : ToldBy moves h) {outer : Option ScopeId} (hi : (outers moves)[i]? = some outer) :
    ∃ s, h.scopes[i]? = some s ∧ s.outer = outer := by
  have hlt : i < h.scopes.size := hm.size ▸ (List.getElem?_eq_some_iff.1 hi).1
  have hs := Array.getElem?_eq_getElem hlt
  exact ⟨_, hs, Option.some.inj ((hm.outer hs).symm.trans hi)⟩

/-- Outwards from each scope one comes to a scope that lies in no other. -/
theorem exists_outwards (hm : ToldBy moves h) (he : e < h.scopes.size) : ∃ chain, Outwards moves e chain := by
  induction e using Nat.strongRecOn with
  | ind e ih =>
    have houter := hm.outer (Array.getElem?_eq_getElem he)
    cases hs : h.scopes[e].outer with
    | none => exact ⟨[e], .last (hs ▸ houter)⟩
    | some o =>
      have ho := hm.older (hs ▸ houter)
      obtain ⟨chain, hchain⟩ := ih o ho (Nat.lt_trans ho he)
      exact ⟨e :: chain, .inside (hs ▸ houter) hchain⟩

/-- A walk along the chain finds the latest binding of the first scope that has one. -/
theorem lookupWithin_eq (hm : ToldBy moves h) {chain : List ScopeId} (hchain : Outwards moves e chain) {steps : Nat}
    (hsteps : chain.length ≤ steps) (name : String) :
    h.lookupWithin steps e name = chain.findSome? (latest? moves · name) := by
  induction hchain generalizing steps with
  | last hi =>
    obtain ⟨s, hs, houter⟩ := hm.exists_scope hi
    obtain ⟨steps, rfl⟩ := Nat.exists_eq_add_of_le' hsteps
    rw [List.length_singleton, lookupWithin_succ hs, hm.find? hs, houter, List.findSome?_singleton]
    exact Option.or_none
  | @inside i o chain hi hchain ih =>
    obtain ⟨s, hs, houter⟩ := hm.exists_scope hi
    obtain ⟨steps, rfl⟩ := Nat.exists_eq_add_of_le' hsteps
    rw [List.length_cons, ← Nat.add_assoc, lookupWithin_succ hs, hm.find? hs, houter, List.findSome?_cons]
    rw [Option.bind_some, ih (Nat.le_add_left _ _)]
    cases latest? moves i name <;> rfl

/-- **A name means what it was last bound to in the nearest scope that binds it.** -/
theorem lookup_eq_findSome? (hm : ToldBy moves h) {chain : List ScopeId} (hchain : Outwards moves e chain)
    (name : String) : h.lookup e name = chain.findSome? (latest? moves · name) := by
  rw [← lookupWithin_of_size_le (Nat.le_max_left _ chain.length)]
  exact hm.lookupWithin_eq hchain (Nat.le_max_right _ _) name

end ToldBy

/-! ## One more binding -/

/-- A binding changes no chain of scopes. -/
theorem Outwards.concat_bind {chain : List ScopeId} (hchain : Outwards moves e chain) (i : ScopeId) (name : String)
    (v : Value) : Outwards (moves ++ [.bind i name v]) e chain := by
  induction hchain with
  | last hi => exact .last (outers_concat_bind.symm ▸ hi)
  | inside hi _ ih => exact .inside (outers_concat_bind.symm ▸ hi) ih

/-- The scope stands in the chain, and no scope before it binds the name. -/
def IsNearest (moves : List Move) (name : String) (i : ScopeId) (chain : List ScopeId) : Prop :=
  ∃ nearer further, chain = nearer ++ i :: further ∧ ∀ j ∈ nearer, ∀ v, .bind j name v ∉ moves

section

variable {n : String} {chain : List ScopeId}

theorem IsNearest.cons (hn : IsNearest moves name i chain) (hj : latest? moves j name = none) :
    IsNearest moves name i (j :: chain) := by
  obtain ⟨nearer, further, rfl, hnearer⟩ := hn
  exact ⟨j :: nearer, further, rfl, List.forall_mem_cons.2 ⟨latest?_eq_none_iff.1 hj, hnearer⟩⟩

/-- One more binding changes only what is found in its scope, and only if nothing is found before. -/
theorem isNearest_of_changed
    (hne : chain.findSome? (latest? (moves ++ [.bind i n v]) · name) ≠ chain.findSome? (latest? moves · name)) :
    n = name ∧ IsNearest moves name i chain := by
  induction chain with
  | nil => exact absurd rfl hne
  | cons j chain ih =>
    simp only [List.findSome?_cons, latest?_concat, Move.value?] at hne ih
    by_cases hbound : i = j ∧ n = name
    · exact ⟨hbound.2, [], chain, hbound.1 ▸ rfl, List.forall_mem_nil _⟩
    · rw [if_neg hbound, Option.none_or] at hne
      cases hj : latest? moves j name with
      | some w =>
        rw [hj] at hne
        exact absurd rfl hne
      | none =>
        rw [hj] at hne
        obtain ⟨hname, hnearest⟩ := ih hne
        exact ⟨hname, hnearest.cons hj⟩

/-- One more binding is what is found where nothing is found before. -/
theorem IsNearest.findSome?_concat (hn : IsNearest moves name i chain) :
    chain.findSome? (latest? (moves ++ [.bind i name v]) · name) = some v := by
  obtain ⟨nearer, further, rfl, hnearer⟩ := hn
  induction nearer with
  | nil => simp [latest?_concat, Move.value?]
  | cons j nearer ih =>
    obtain ⟨hj, hnearer⟩ := List.forall_mem_cons.1 hnearer
    rw [List.cons_append, List.findSome?_cons, latest?_concat, latest?_eq_none_iff.2 hj, Option.or_none, Move.value?]
    by_cases hij : i = j
    · rw [if_pos ⟨hij, rfl⟩]
    · rw [if_neg fun hbound => hij hbound.1]
      exact ih hnearer

end

/-- **A name means the value of its latest binding in the nearest scope.** However scopes have been opened and names
bound in them: from a scope one comes outwards over finitely many scopes, and what a name means there is the value of
the latest binding in the first of them in which it has ever been bound, and nothing exactly if it has been bound in
none. One more binding changes what a name means only if its scope is one of them and none before it binds the name;
and then the name means the new value. -/
theorem lookup_nearest_latest {moves : List Move} {h : Heap} (hb : build? moves = some h) {e : ScopeId}
    (he : e < h.scopes.size) :
    (∃ chain, Outwards moves e chain) ∧ ∀ chain, Outwards moves e chain → ∀ name,
      h.lookup e name = chain.findSome? (latest? moves · name) ∧
      (h.lookup e name = none ↔ ∀ i ∈ chain, ∀ v, .bind i name v ∉ moves) ∧
      (h.contains e name = false ↔ ∀ i ∈ chain, ∀ v, .bind i name v ∉ moves) ∧
      ∀ i < h.scopes.size, ∀ n v,
        ((h.bind i n v).lookup e name ≠ h.lookup e name → n = name ∧ IsNearest moves name i chain) ∧
        (n = name → IsNearest moves name i chain → (h.bind i n v).lookup e name = some v) := by
  have hm := toldBy_of_build? hb
  refine ⟨hm.exists_outwards he, fun chain hchain name => ?_⟩
  have hlookup := hm.lookup_eq_findSome? hchain name
  have hnone : h.lookup e name = none ↔ ∀ i ∈ chain, ∀ v, .bind i name v ∉ moves := by
    rw [hlookup, List.findSome?_eq_none_iff]
    exact forall₂_congr fun _ _ => latest?_eq_none_iff
  refine ⟨hlookup, hnone, ?_, fun i hi n v => ?_⟩
  · rw [contains, Option.isSome_eq_false_iff, Option.isNone_iff_eq_none]
    exact hnone
  · have hbound := (hm.bind hi n v).lookup_eq_findSome? (hchain.concat_bind i n v) name
    rw [hbound, hlookup]
    refine ⟨isNearest_of_changed, ?_⟩
    rintro rfl hnearest
    exact hnearest.findSome?_concat

/-- A name that is bound in the outermost scope, then in a scope inside of it, then in the outermost scope again: the
innermost scope, opened before that, still finds what the scope between them binds, and goes on doing so until it binds
the name itself. -/
theorem lookup_nearest_latest_between :
    ∃ moves h, moves = [.openScope none, .bind 0 "x" .null, .openScope (some 0), .openScope (some 1),
        .bind 1 "x" (.boolean true), .bind 0 "x" (.boolean false)] ∧
      build? moves = some h ∧ 2 < h.scopes.size ∧ Outwards moves 2 [2, 1, 0] ∧
      h.lookup 2 "x" = some (.boolean true) ∧ h.contains 2 "y" = false ∧
      (h.bind 0 "x" .null).lookup 2 "x" = h.lookup 2 "x" ∧ (h.bind 2 "x" .null).lookup 2 "x" = some .null := by
  have hchain : Outwards [.openScope none, .bind 0 "x" .null, .openScope (some 0), .openScope (some 1),
      .bind 1 "x" (.boolean true), .bind 0 "x" (.boolean false)] 2 [2, 1, 0] := .inside rfl (.inside rfl (.last rfl))
  refine ⟨_, _, rfl, rfl, by decide, hchain, ?_⟩
  have hmeans := (lookup_nearest_latest (e := 2) rfl (by decide)).2 _ hchain
  obtain ⟨hx, -, -, hbind⟩ := hmeans "x"
  refine ⟨hx, (hmeans "y").2.2.1.2 (by simp), ?_, ?_⟩
  · by_contra hne
    obtain ⟨-, nearer, further, hsplit, hnever⟩ := (hbind 0 (by decide) "x" .null).1 hne
    have hbetween : 1 ∈ nearer := by
      rcases nearer with _ | ⟨a, _ | ⟨b, nearer⟩⟩
      · cases (List.cons.inj hsplit).1
      · cases (List.cons.inj (List.cons.inj hsplit).2).1
      · rw [← (List.cons.inj (List.cons.inj hsplit).2).1]
        exact List.mem_cons_of_mem a List.mem_cons_self
    exact hnever 1 hbetween (.boolean true) (by simp)
  · exact (hbind 2 (by decide) "x" .null).2 rfl ⟨[], [1, 0], rfl, List.forall_mem_nil _⟩

end Monkey.Heap
