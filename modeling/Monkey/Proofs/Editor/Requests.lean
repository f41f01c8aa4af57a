import Monkey.Editor.Server
import Monkey.Proofs.Editor.Index
import Monkey.Proofs.Editor.Places
import Monkey.Proofs.Editor.Ranges
import Monkey.Proofs.Parse.Bindings
import Monkey.Proofs.Parse.Greedy
import Monkey.Proofs.Token.Standing

/-!
# Requests at the places of symbols

The name of every symbol stands somewhere in its document, between characters that are in no word, so an editor that
finds words finds it there (`FindsWords.wordAt_of_mem_topLevel`). A request at that place, as the editor counts it, is
answered with a binding of the same name in the same document, and so is one at the place that the symbol tells if both
are the same (`Server.answers_at_symbols`). They need not be: lines that end in a carriage return alone are not counted
by the symbol, whose place may then be that of another name.
-/

namespace Monkey.Editor

variable {wordAt : String → Place → String}

/-- The name of a symbol stands in its text between a `let` and an equals sign. -/
theorem exists_of_mem_topLevel {document text : String} {s : Symbol} (h : s ∈ topLevel document text) :
    ∃ u : Token, ∃ pre rest, s.name = u.literal ∧ s.place = .ofPosition u.position ∧
      text.toList = pre ++ u.literal.toList ++ rest ∧ u.NameBetween pre rest := by
  unfold topLevel at h
  split at h
  · next p hp =>
    obtain ⟨ss, hprogram, hlocated⟩ := located_of_parse hp
    obtain ⟨n, hn, hsymbol⟩ := List.mem_filterMap.1 h
    rw [hprogram] at hn
    obtain ⟨t, target, value, rfl, hname, hplace⟩ := Symbol.ofStatement?_eq_some hsymbol
    obtain ⟨v, pre, rest, -, -, -, -, hliteral, htext, hstands⟩ := hlocated.exists_name hn
    exact ⟨target.token, pre, rest, hname.trans hliteral.symm, hplace, hliteral ▸ htext, hstands⟩
  · cases h

theorem isWordChar_of_isBlank {c : Char} (h : isBlank c) : isWordChar c = false := by
  simp only [isBlank, Bool.or_eq_true, decide_eq_true_eq] at h
  rcases h with ((rfl | rfl) | rfl) | rfl <;> decide

/-- An editor finds the name of a symbol in its text, at the place that the editor counts to. -/
theorem FindsWords.wordAt_of_mem_topLevel (hwords : FindsWords wordAt) {document text : String} {s : Symbol}
    (h : s ∈ topLevel document text) :
    ∃ pre rest, text.toList = pre ++ s.name.toList ++ rest ∧ s.range.start = .ofPosition (.behind pre) ∧
      s.name.toList ≠ [] ∧ wordAt text (Place.first.after pre (s.name.toList ++ rest)) = s.name := by
  obtain ⟨u, pre, rest, hname, hplace, htext, hstands⟩ := exists_of_mem_topLevel h
  rw [← hname] at htext
  have hstart : s.range.start = .ofPosition (.behind pre) := by
    rw [← Position.after_start, ← hstands.position]
    exact hplace
  have hne : s.name.toList ≠ [] := hname ▸ hstands.ne_nil
  refine ⟨pre, rest, htext, hstart, hne, ?_⟩
  rw [hwords.wordAt_after htext hne (hname ▸ hstands.letters), String.ofList_toList]
  · exact fun b hb => isWordChar_of_isBlank (hstands.before b hb)
  · rintro d hd
    obtain hblank | rfl := hstands.behind d hd
    · exact isWordChar_of_isBlank hblank
    · rfl

namespace Server

/-- The server after the text of a document has been received, whichever way that ends. -/
def settle (s : Server) (document text : String) : Server :=
  match receive document text s with
  | .ok _ s' => s'
  | .error _ s' => s'

/-- The server after some calls, each of a document and a text. -/
def after (s : Server) (calls : List (String × String)) : Server :=
  calls.foldl (fun s call => s.settle call.1 call.2) s

theorem after_concat (s : Server) (calls : List (String × String)) (call : String × String) :
    s.after (calls ++ [call]) = (s.after calls).settle call.1 call.2 :=
  List.foldl_append

theorem index_settle (s : Server) (document text : String) :
    (s.settle document text).index = s.index.settle document text := by
  rw [settle, receive, Index.settle]
  cases Index.record document text s.index <;> rfl

/-- The index of a server is that of its documents, whatever has been refused. -/
theorem index_after (calls : List (String × String)) : (empty.after calls).index = Index.empty.after calls := by
  induction calls using List.reverseRecOn with
  | nil => rfl
  | append_singleton calls call ih => rw [after_concat, Index.after_concat, index_settle, ih]

/-- A request is answered with the binding that the word at its place is looked up to. -/
theorem answers_of_word {s : Server} {document text name : String} {place : Place} {binding : Symbol}
    (htext : s.text? document = some text) (hword : wordAt text place = name) (hname : name.toList ≠ [])
    (hlookup : s.index.lookup name (some document) = some binding) :
    s.definition wordAt document place = some (binding.document, binding.range) ∧
      s.hover wordAt document place = some binding.detail := by
  have hempty : name.isEmpty = false := by simpa [String.toList_eq_nil_iff] using hname
  have hsymbol : s.symbolAt wordAt document place = some binding := by
    rw [symbolAt, htext]
    dsimp only
    rw [hword, hempty]
    exact hlookup
  rw [definition, hover, hsymbol]
  exact ⟨rfl, rfl⟩

/-- **A request at the place of a symbol is answered with a binding of its name.** -/
theorem answers_at_symbols (hwords : FindsWords wordAt) (calls : List (String × String)) (document text : String)
    (hdigits : ∀ ds, ds <:+: text.toList → (∀ c ∈ ds, isDigit c) → ds.length ≤ maxDigits) :
    ∃ notices s, (empty.after calls).take document text = .ok (notices, s) ∧
      ∀ symbol ∈ s.index.symbolsOf document, ∃ pre rest,
        text.toList = pre ++ symbol.name.toList ++ rest ∧ symbol.range.start = .ofPosition (.behind pre) ∧
        ∃ binding ∈ s.index.symbolsOf document, binding.name = symbol.name ∧
          (let place := Place.first.after pre (symbol.name.toList ++ rest)
           s.definition wordAt document place = some (document, binding.range) ∧
             s.hover wordAt document place = some binding.detail) ∧
          (countsAlike pre (symbol.name.toList ++ rest) →
            s.definition wordAt document symbol.range.start = some (document, binding.range) ∧
              s.hover wordAt document symbol.range.start = some binding.detail) := by
  obtain ⟨p, hp⟩ := (shortNumerals_lexemesOf hdigits).parse_ok
  have hread : isRead text := by
    rw [isRead, hp]
    rfl
  have hreflects : ((empty.after calls).index.settle document text).Reflects (calls ++ [(document, text)]) :=
    (index_after calls ▸ Index.reflects_after calls).settle document text
  have htake : (empty.after calls).take document text = .ok (p.diagnostics.map Notice.ofDiagnostic,
      ⟨(document, text) :: (empty.after calls).texts, (empty.after calls).index.settle document text⟩) := by
    rw [take, receive, Index.settle, Index.record_of_ok hp]
  refine ⟨_, _, htake, ?_⟩
  generalize (empty.after calls).index.settle document text = ix at hreflects
  have hlatest : latestSymbols (calls ++ [(document, text)]) document = topLevel document text := by
    rw [latestSymbols_append hread, if_pos rfl]
  rw [hreflects.symbolsOf_eq, hlatest]
  intro symbol hsymbol
  obtain ⟨pre, rest, htext, hstart, hne, hword⟩ := hwords.wordAt_of_mem_topLevel hsymbol
  obtain ⟨binding, hmem, hbinding, hlookup⟩ := hreflects.exists_lookup_eq (hlatest.symm ▸ hsymbol)
  rw [hlatest] at hmem
  have hat {place : Place} (hplace : wordAt text place = symbol.name) :=
    answers_of_word (s := ⟨(document, text) :: (empty.after calls).texts, ix⟩) List.lookup_cons_self hplace hne hlookup
  rw [document_of_mem_topLevel hmem] at hat
  refine ⟨pre, rest, htext, hstart, binding, hmem, hbinding, hat hword, fun hcounts => ?_⟩
  rw [hstart, ← (after_eq_ofPosition_iff _ _).2 hcounts]
  exact hat hword

/-- A document of two bindings whose lines end as they may, while another document binds one of the names as well. -/
theorem answers_at_symbols_newline :
    FindsWords wordAround ∧
    (∀ ds, ds <:+: "let e = 1;\r\nlet f = e;".toList → (∀ c ∈ ds, isDigit c) → ds.length ≤ maxDigits) ∧
    countsAlike "let e = 1;\r\nlet ".toList "f = e;".toList ∧
    ∃ notices s, (empty.after [("b", "let f = 2;")]).take "a" "let e = 1;\r\nlet f = e;" = .ok (notices, s) ∧
      (s.index.symbolsOf "a").map Symbol.name = ["e", "f"] ∧
      ∀ symbol ∈ s.index.symbolsOf "a", ∃ pre rest,
        "let e = 1;\r\nlet f = e;".toList = pre ++ symbol.name.toList ++ rest ∧
        symbol.range.start = .ofPosition (.behind pre) ∧
        ∃ binding ∈ s.index.symbolsOf "a", binding.name = symbol.name ∧
          (let place := Place.first.after pre (symbol.name.toList ++ rest)
           s.definition wordAround "a" place = some ("a", binding.range) ∧
             s.hover wordAround "a" place = some binding.detail) ∧
          (countsAlike pre (symbol.name.toList ++ rest) →
            s.definition wordAround "a" symbol.range.start = some ("a", binding.range) ∧
              s.hover wordAround "a" symbol.range.start = some binding.detail) := by
  have hdigits : ∀ ds, ds <:+: "let e = 1;\r\nlet f = e;".toList → (∀ c ∈ ds, isDigit c) →
      ds.length ≤ maxDigits := fun ds hds _ => Nat.le_trans hds.length_le (by decide)
  obtain ⟨notices, s, htake, hanswers⟩ :=
    answers_at_symbols findsWords_wordAround [("b", "let f = 2;")] "a" _ hdigits
  have hnames : ((empty.after [("b", "let f = 2;")]).take "a" "let e = 1;\r\nlet f = e;").toOption.map
      (fun r => (r.2.index.symbolsOf "a").map Symbol.name) = some ["e", "f"] := by
    decide +kernel
  rw [htake] at hnames
  exact ⟨findsWords_wordAround, hdigits, by decide +kernel, notices, s, htake, Option.some.inj hnames, hanswers⟩

/-- **Behind a carriage return alone** a symbol tells a place where an editor finds another name. -/
theorem not_answers_at_symbols :
    (∀ ds, ds <:+: "\rlet f = 1;\nlet e = 2;".toList → (∀ c ∈ ds, isDigit c) → ds.length ≤ maxDigits) ∧
    ∀ wordAt, FindsWords wordAt → ∃ notices s, empty.take "a" "\rlet f = 1;\nlet e = 2;" = .ok (notices, s) ∧
      ¬ ∀ symbol ∈ s.index.symbolsOf "a", ∃ binding ∈ s.index.symbolsOf "a", binding.name = symbol.name ∧
        s.definition wordAt "a" symbol.range.start = some ("a", binding.range) ∧
          s.hover wordAt "a" symbol.range.start = some binding.detail := by
  refine ⟨fun ds hds _ => Nat.le_trans hds.length_le (by decide), fun wordAt hwords => ?_⟩
  -- the place told for `e` is in the line that begins behind the carriage return
  have hword : wordAt "\rlet f = 1;\nlet e = 2;" ⟨1, 4⟩ = "f" :=
    hwords.around 1 ['l', 'e', 't', ' '] [] ['f'] [' ', '=', ' ', '1', ';', '\n'] (by decide +kernel) (by simp)
      (by simp [isWordChar]) (by simp [isWordChar]) (by simp [isWordChar])
  have hserver : (empty.take "a" "\rlet f = 1;\nlet e = 2;").toOption.map
      (fun r => (r.2.text? "a", r.2.index.symbolsOf "a", r.2.index.lookup "f" (some "a"))) =
      some (some "\rlet f = 1;\nlet e = 2;",
        [⟨"f", .variable, "a", ⟨0, 5⟩, "let f = 1;"⟩, ⟨"e", .variable, "a", ⟨1, 4⟩, "let e = 2;"⟩],
        some ⟨"f", .variable, "a", ⟨0, 5⟩, "let f = 1;"⟩) := by
    decide +kernel
  cases htake : empty.take "a" "\rlet f = 1;\nlet e = 2;" with
  | error why =>
    rw [htake] at hserver
    cases hserver
  | ok r =>
    rw [htake] at hserver
    obtain ⟨htext, hsymbols, hlookup⟩ := by simpa only [Prod.mk.injEq] using Option.some.inj hserver
    refine ⟨r.1, r.2, rfl, fun hanswers => ?_⟩
    rw [hsymbols] at hanswers
    obtain ⟨binding, hmem, hname, hdefinition, -⟩ := hanswers _ (List.mem_cons_of_mem _ List.mem_cons_self)
    rw [Symbol.range, Range.onLine, (answers_of_word htext hword (by decide) hlookup).1] at hdefinition
    obtain ⟨-, hrange⟩ := Prod.mk.inj (Option.some.inj hdefinition)
    obtain rfl | rfl : binding = _ ∨ binding = _ := by simpa using hmem
    · exact absurd hname (by decide)
    · exact absurd hrange (by decide)

end Server

end Monkey.Editor
