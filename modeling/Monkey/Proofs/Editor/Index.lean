import Mathlib.Data.List.Induction
import Monkey.Editor.Index
import Monkey.Proofs.Parse.Mistakes

/-!
# The index holds the latest texts

A document may be indexed any number of times, between other documents, and with texts that are refused. Whatever the
calls have been, the index tells of the latest text of each document that was not refused, and of nothing else.

* `Index.Reflects`: what the index holds, in terms of the calls alone. One more call keeps it (`Index.Reflects.settle`).
* `Index.reflects_latest`: so it holds after any calls, and names are looked up accordingly; a call that fails changes
  nothing.
-/

namespace Monkey.Editor

/-! ## Tables -/

namespace Table

variable {table : Table} {key k : String} {f : List Symbol → List Symbol} {s : Symbol} {ss : List Symbol}

theorem find?_cons (k key : String) (ss : List Symbol) (rest : Table) :
    find? ((k, ss) :: rest) key = if key = k then some ss else rest.find? key := by
  rw [find?, List.lookup_cons]
  by_cases h : key = k
  · simp [h]
  · rw [if_neg h, beq_false_of_ne h]
    rfl

/-- Only what stands under the key is changed. -/
theorem find?_alter (table : Table) (key : String) (f : List Symbol → List Symbol) (k : String) :
    (table.alter key f).find? k = if k = key then some (f ((table.find? key).getD [])) else table.find? k := by
  induction table with
  | nil => exact find?_cons key k (f []) []
  | cons entry rest ih =>
    obtain ⟨k', ss⟩ := entry
    rw [alter]
    split
    · next h =>
      subst h
      rw [find?_cons, find?_cons, find?_cons, if_pos rfl]
      split <;> rfl
    · next h =>
      rw [find?_cons, find?_cons, find?_cons, ih, if_neg (Ne.symm h)]
      split
      · next hk => rw [if_neg (hk ▸ h)]
      · rfl

/-- A table keeps the order of its keys, and a new key comes last. -/
theorem alter_map {keys : List String} (hkeys : keys.Nodup) (g : String → List Symbol) (ss : List Symbol) :
    alter key (fun _ => ss) (keys.map fun k => (k, g k)) =
      (if key ∈ keys then keys else keys ++ [key]).map fun k => (k, if k = key then ss else g k) := by
  induction keys with
  | nil => simp [alter]
  | cons k keys ih =>
    obtain ⟨hk, hkeys⟩ := List.nodup_cons.1 hkeys
    rw [List.map_cons, alter]
    split
    · next h =>
      subst h
      have hothers : ∀ k' ∈ keys, k' ≠ k := fun k' hk' h => hk (h ▸ hk')
      rw [if_pos List.mem_cons_self, List.map_cons, if_pos rfl]
      exact congrArg _ (List.map_congr_left fun k' hk' => by rw [if_neg (hothers k' hk')])
    · next h =>
      have hmem : key ∈ k :: keys ↔ key ∈ keys := by simp [Ne.symm h]
      rw [ih hkeys]
      by_cases hkey : key ∈ keys
      · rw [if_pos hkey, if_pos (hmem.2 hkey), List.map_cons, if_neg h]
      · rw [if_neg hkey, if_neg (hkey ∘ hmem.1), List.cons_append, List.map_cons, if_neg h]

theorem byName_append_singleton (ss : List Symbol) (s : Symbol) : byName (ss ++ [s]) = (byName ss).add s := by
  rw [byName, byName, List.foldl_append]
  rfl

/-- Under a name stand the symbols with that name, in their order; a name without symbols is no key. -/
theorem find?_byName (ss : List Symbol) (name : String) :
    (byName ss).find? name =
      if ss.filter (·.name = name) = [] then none else some (ss.filter (·.name = name)) := by
  induction ss using List.reverseRecOn with
  | nil => rfl
  | append_singleton ss s ih =>
    rw [byName_append_singleton, add, find?_alter, List.filter_append]
    by_cases h : name = s.name
    · subst h
      rw [if_pos rfl, ih, List.filter_cons_of_pos (by simp)]
      split
      · next hnil => simp [hnil]
      · simp
    · rw [if_neg h, ih, List.filter_cons_of_neg (by simp [Ne.symm h])]
      simp

/-- What a table of keys with their symbols tells of a key. -/
theorem find?_map (keys : List String) (g : String → List Symbol) (key : String) :
    find? (keys.map fun k => (k, g k)) key = if key ∈ keys then some (g key) else none := by
  induction keys with
  | nil => rfl
  | cons k keys ih =>
    rw [List.map_cons, find?_cons, ih]
    by_cases h : key = k
    · subst h
      simp
    · simp [h]

theorem symbols_map (keys : List String) (g : String → List Symbol) :
    symbols (keys.map fun k => (k, g k)) = keys.flatMap g := by
  rw [symbols, List.flatMap_map]

end Table

/-! ## What some calls have said -/

/-- The symbols that the statements of a text bind at its top level. -/
def topLevel (document text : String) : List Symbol :=
  match parse text with
  | .ok p => p.program.statements.filterMap (Symbol.ofStatement? document)
  | .error _ => []

theorem document_of_mem_topLevel {document text : String} {s : Symbol} (h : s ∈ topLevel document text) :
    s.document = document := by
  unfold topLevel at h
  split at h
  · obtain ⟨n, -, hn⟩ := List.mem_filterMap.1 h
    cases n with
    | letStatement =>
      cases hn
      rfl
    | _ => cases hn
  · cases h

/-- A text is read, whatever is wrong with it. -/
def isRead (text : String) : Bool :=
  (parse text).isOk

section

variable (calls : List (String × String))

/-- The calls whose text is read. -/
def accepted : List (String × String) :=
  calls.filter fun call => isRead call.2

/-- The documents that are indexed, each where it was indexed first. -/
def indexed : List String :=
  ((accepted calls).map Prod.fst).eraseDups

/-- The latest text of a document, if it is indexed. -/
def latest? (document : String) : Option String :=
  (accepted calls).reverse.lookup document

/-- The symbols of the latest text of a document. -/
def latestSymbols (document : String) : List Symbol :=
  ((latest? calls document).map (topLevel document)).getD []

end

section

variable {calls : List (String × String)} {document text name : String}

theorem accepted_append_of_isRead (h : isRead text) :
    accepted (calls ++ [(document, text)]) = accepted calls ++ [(document, text)] := by
  simp [accepted, h]

theorem accepted_append_of_not_isRead (h : isRead text = false) :
    accepted (calls ++ [(document, text)]) = accepted calls := by
  simp [accepted, h]

/-- A document that is indexed again keeps its old place. -/
theorem indexed_append (h : isRead text) : indexed (calls ++ [(document, text)]) =
    if document ∈ indexed calls then indexed calls else indexed calls ++ [document] := by
  rw [indexed, accepted_append_of_isRead h, List.map_append, List.eraseDups_append, ← indexed]
  have hmem : document ∈ (accepted calls).map Prod.fst ↔ document ∈ indexed calls := List.mem_eraseDups.symm
  by_cases hdocument : document ∈ indexed calls
  · rw [if_pos hdocument, List.map_singleton, List.removeAll,
      List.filter_cons_of_neg (by simpa using hmem.2 hdocument)]
    exact List.append_nil _
  · rw [if_neg hdocument, List.map_singleton, List.removeAll,
      List.filter_cons_of_pos (by simpa using hdocument ∘ hmem.1)]
    rfl

theorem nodup_indexed (calls : List (String × String)) : (indexed calls).Nodup := by
  induction calls using List.reverseRecOn with
  | nil => exact List.nodup_nil
  | append_singleton calls call ih =>
    by_cases h : isRead call.2
    · rw [indexed_append h]
      split
      · exact ih
      · next hnew =>
        have hother : ∀ d ∈ indexed calls, ∀ d' ∈ [call.1], d ≠ d' := by
          rintro d hd d' hd' rfl
          exact hnew (List.mem_singleton.1 hd' ▸ hd)
        exact List.nodup_append.2 ⟨ih, List.pairwise_singleton _ _, hother⟩
    · rw [indexed, accepted_append_of_not_isRead (Bool.eq_false_iff.2 h)]
      exact ih

/-- A document that is not indexed has no symbols. -/
theorem latestSymbols_of_not_mem (h : document ∉ indexed calls) : latestSymbols calls document = [] := by
  have hlatest : latest? calls document = none := by
    refine List.lookup_eq_none_iff.2 fun call hcall => bne_iff_ne.2 fun hdocument => h ?_
    exact List.mem_eraseDups.2 (List.mem_map.2 ⟨call, List.mem_reverse.1 hcall, hdocument.symm⟩)
  rw [latestSymbols, hlatest]
  rfl

/-- The text of a document takes the place of the one before; all others stay. -/
theorem latestSymbols_append (h : isRead text) (document' : String) :
    latestSymbols (calls ++ [(document, text)]) document' =
      if document' = document then topLevel document text else latestSymbols calls document' := by
  rw [latestSymbols, latest?, accepted_append_of_isRead h, List.reverse_append, List.reverse_singleton,
    List.singleton_append, List.lookup_cons]
  by_cases hdocument : document' = document
  · subst hdocument
    rw [if_pos rfl, beq_self_eq_true]
    rfl
  · rw [if_neg hdocument, beq_false_of_ne hdocument]
    rfl

theorem document_of_mem_latestSymbols {s : Symbol} (h : s ∈ latestSymbols calls document) :
    s.document = document := by
  rw [latestSymbols] at h
  cases hlatest : latest? calls document with
  | none => simp [hlatest] at h
  | some text => exact document_of_mem_topLevel (by simpa [hlatest] using h)

end

/-! ## The index -/

namespace Index

/-- The index after a call, whichever way it ends. -/
def settle (ix : Index) (document text : String) : Index :=
  match record document text ix with
  | .ok _ ix' => ix'
  | .error _ ix' => ix'

/-- The index after some calls, each of a document and a text. -/
def after (ix : Index) (calls : List (String × String)) : Index :=
  calls.foldl (fun ix call => ix.settle call.1 call.2) ix

theorem after_concat (ix : Index) (calls : List (String × String)) (call : String × String) :
    ix.after (calls ++ [call]) = (ix.after calls).settle call.1 call.2 :=
  List.foldl_append

section

variable {ix : Index} {document text : String}

theorem record_of_ok {p : Parse} (h : parse text = .ok p) :
    record document text ix = .ok (p.diagnostics.map Notice.ofDiagnostic)
      ⟨ix.documents.alter document fun _ => topLevel document text,
        .byName (ix.documents.alter document fun _ => topLevel document text).symbols⟩ := by
  unfold record
  rw [Symbol.collect, topLevel, h]
  rfl

/-- A text that is refused changes nothing. -/
theorem record_of_error {why : Refusal} (h : parse text = .error why) : record document text ix = .error why ix := by
  unfold record
  rw [Symbol.collect, h]
  rfl

/-- The index tells of the latest texts. -/
structure Reflects (calls : List (String × String)) (ix : Index) : Prop where
  documents : ix.documents = (indexed calls).map fun d => (d, latestSymbols calls d)
  bindings : ix.bindings = .byName ((indexed calls).flatMap (latestSymbols calls))

variable {calls : List (String × String)}

theorem reflects_empty : empty.Reflects [] :=
  ⟨rfl, rfl⟩

/-- **One more call keeps the index at the latest texts.** -/
theorem Reflects.settle (h : ix.Reflects calls) (document text : String) :
    (ix.settle document text).Reflects (calls ++ [(document, text)]) := by
  cases hparse : parse text with
  | error why =>
    have hread : isRead text = false := by
      rw [isRead, hparse]
      rfl
    have hindexed : indexed (calls ++ [(document, text)]) = indexed calls := by
      rw [indexed, accepted_append_of_not_isRead hread, indexed]
    have hlatest : latestSymbols (calls ++ [(document, text)]) = latestSymbols calls := by
      funext d
      rw [latestSymbols, latest?, accepted_append_of_not_isRead hread, ← latest?, ← latestSymbols]
    rw [Index.settle, record_of_error hparse]
    exact ⟨by rw [hindexed, hlatest]; exact h.documents, by rw [hindexed, hlatest]; exact h.bindings⟩
  | ok p =>
    have hread : isRead text := by
      rw [isRead, hparse]
      rfl
    have hdocuments : (ix.documents.alter document fun _ => topLevel document text) =
        (indexed (calls ++ [(document, text)])).map fun d => (d, latestSymbols (calls ++ [(document, text)]) d) := by
      rw [h.documents, Table.alter_map (nodup_indexed calls), indexed_append hread]
      exact List.map_congr_left fun d _ => by rw [latestSymbols_append hread]
    rw [Index.settle, record_of_ok hparse]
    exact ⟨hdocuments, by rw [hdocuments, Table.symbols_map]⟩

theorem reflects_after (calls : List (String × String)) : (empty.after calls).Reflects calls := by
  induction calls using List.reverseRecOn with
  | nil => exact reflects_empty
  | append_singleton calls call ih =>
    rw [after_concat]
    exact ih.settle call.1 call.2

namespace Reflects

variable {name : String}

/-- The symbols of a document are those of its latest text. -/
theorem symbolsOf_eq (h : ix.Reflects calls) (document : String) :
    ix.symbolsOf document = latestSymbols calls document := by
  rw [symbolsOf, h.documents, Table.find?_map]
  split
  · rfl
  · next hmem => rw [latestSymbols_of_not_mem hmem]; rfl

/-- The symbols with a name are those of the latest texts. -/
theorem named_eq (h : ix.Reflects calls) (name : String) :
    ix.named name = (indexed calls).flatMap fun d => (latestSymbols calls d).filter (·.name = name) := by
  rw [named, h.bindings, Table.find?_byName, ← List.filter_flatMap]
  split
  · next hnil => rw [hnil]; rfl
  · rfl

/-- The first symbol with a name is that of the document which was indexed first of those that have one. -/
theorem head?_named (h : ix.Reflects calls) (name : String) :
    (ix.named name).head? = (indexed calls).findSome? fun d => (latestSymbols calls d).find? (·.name = name) := by
  simp only [h.named_eq, List.head?_flatMap, List.head?_filter]

/-- The first symbol with a name in a document is that of its latest text. -/
theorem find?_named (h : ix.Reflects calls) (name document : String) :
    ((ix.named name).find? fun s => some s.document = some document) =
      (latestSymbols calls document).find? (·.name = name) := by
  -- no other document has a symbol that is one of this document
  have hpart (d : String) :
      (((latestSymbols calls d).filter (·.name = name)).find? fun s => some s.document = some document) =
        if d = document then (latestSymbols calls document).find? (·.name = name) else none := by
    have hdocument : ∀ s ∈ (latestSymbols calls d).filter (·.name = name), s.document = d := fun s hs =>
      document_of_mem_latestSymbols (List.mem_filter.1 hs).1
    split
    · next heq =>
      subst heq
      rw [← List.head?_filter, ← List.head?_filter, List.filter_eq_self.2 fun s hs => by simp [hdocument s hs]]
    · next hne => exact List.find?_eq_none.2 fun s hs => by simp [hdocument s hs, hne]
  rw [h.named_eq, List.find?_flatMap]
  simp only [hpart]
  cases hfound : (latestSymbols calls document).find? (·.name = name) with
  | none => exact List.findSome?_eq_none_iff.2 fun d _ => ite_self none
  | some s =>
    have hmem : document ∈ indexed calls := Decidable.byContradiction fun hmem => by
      rw [latestSymbols_of_not_mem hmem] at hfound
      cases hfound
    obtain ⟨before, behind, hsplit, hbefore⟩ := List.eq_append_cons_of_mem hmem
    have hnone : ∀ d ∈ before, (if d = document then some s else none) = none := fun d hd =>
      if_neg (ne_of_mem_of_not_mem hd hbefore)
    exact List.findSome?_eq_some_iff.2 ⟨before, document, behind, hsplit, if_pos rfl, hnone⟩

/-- A name is looked up in the latest text of a document, and then in those of all. -/
theorem lookup_some_eq (h : ix.Reflects calls) (name document : String) : ix.lookup name (some document) =
    ((latestSymbols calls document).find? (·.name = name)).or
      ((indexed calls).findSome? fun d => (latestSymbols calls d).find? (·.name = name)) := by
  rw [lookup, h.find?_named, h.head?_named]

/-- Nothing is found exactly if no latest text binds the name. -/
theorem lookup_eq_none_iff (h : ix.Reflects calls) (name : String) (document : Option String) :
    ix.lookup name document = none ↔ ∀ d ∈ indexed calls, ∀ s ∈ latestSymbols calls d, s.name ≠ name := by
  have hnamed : ix.lookup name document = none ↔ ix.named name = [] := by
    rw [lookup, Option.or_eq_none_iff, List.head?_eq_none_iff]
    exact ⟨And.right, fun hnil => ⟨by rw [hnil]; rfl, hnil⟩⟩
  rw [hnamed, h.named_eq, List.flatMap_eq_nil_iff]
  simp [List.filter_eq_nil_iff]

/-- A name that the latest text of a document binds is looked up to the first symbol of it there. -/
theorem exists_lookup_eq (h : ix.Reflects calls) {document : String} {s : Symbol}
    (hs : s ∈ latestSymbols calls document) :
    ∃ binding ∈ latestSymbols calls document, binding.name = s.name ∧
      ix.lookup s.name (some document) = some binding := by
  obtain ⟨binding, hfound⟩ := Option.isSome_iff_exists.1
    (List.find?_isSome (p := (·.name = s.name)).2 ⟨s, hs, decide_eq_true rfl⟩)
  refine ⟨binding, List.mem_of_find?_eq_some hfound, by simpa using List.find?_some hfound, ?_⟩
  rw [h.lookup_some_eq, hfound]
  rfl

end Reflects

end

/-- A document that is indexed again keeps its place, but none of its old symbols. -/
example : ((empty.after [("a", "let x = 1;"), ("b", "let x = 2;"), ("a", "let x = 3;")]).named "x").map
    (fun s => (s.document, s.detail)) = [("a", "let x = 3;"), ("b", "let x = 2;")] := by
  decide +kernel

end Index

end Monkey.Editor
