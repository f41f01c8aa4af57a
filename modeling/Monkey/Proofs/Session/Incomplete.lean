import Monkey.Proofs.Parse.Completion
import Monkey.Session

/-!
# When a text is only incomplete

Whether a text only ended too early is told from the words of its diagnostics. These words speak of the end of the text
exactly if the problem is one at the end (`Malformed.speaksOfEnd_message`), so the test tells a text that can go on from
one in which something is wrong already (`Malformed.isIncomplete_iff_exists_lines`).
-/

namespace Monkey

namespace Malformed

/-! ## Words about the end -/

/-- Whether a text ends with `w` is decided by as much of its end. -/
theorem suffix_append_iff {w t : String} (a : String) (h : w.toList.length ≤ t.toList.length) :
    w.toList <:+ (a ++ t).toList ↔ w.toList <:+ t.toList := by
  rw [String.toList_append]
  exact ⟨fun hw => List.suffix_of_suffix_length_le hw (List.suffix_append _ _) h,
    fun hw => hw.trans (List.suffix_append _ _)⟩

/-- Words that two texts end with do not matter. -/
theorem suffix_append_self_iff (w a t : String) : (w ++ t).toList <:+ (a ++ t).toList ↔ w.toList <:+ a.toList := by
  rw [String.toList_append, String.toList_append, List.suffix_append_self_iff]

/-- Texts that begin with different characters are different. -/
theorem append_ne {a w : String} {c : Char} (ha : a.toList.head? = some c) (hw : w.toList.head? ≠ some c) (t : String) :
    a ++ t ≠ w := by
  rintro rfl
  rw [String.toList_append, List.head?_append, ha] at hw
  exact hw rfl

theorem speaksOfEnd_iff {message : String} : speaksOfEnd message ↔
    ("got EOF" ++ " instead").toList <:+ message.toList ∨
      message = "no prefix parse function for " ++ "EOF" ++ " found" := by
  have hgot : "got EOF" ++ " instead" = "got EOF instead" := rfl
  have hfound : "no prefix parse function for " ++ "EOF" ++ " found" = "no prefix parse function for EOF found" :=
    rfl
  rw [speaksOfEnd, Bool.or_eq_true, decide_eq_true_iff, List.isSuffixOf_iff_suffix, hgot, hfound]

theorem display_eq_iff {k : TokenKind} : k.display = "EOF" ↔ k = .eof := by
  cases k <;> decide

theorem suffix_display_iff {k : TokenKind} : "got EOF".toList <:+ (", got " ++ k.display).toList ↔ k = .eof := by
  cases k <;> decide

theorem length_display_pos (k : TokenKind) : 0 < k.display.toList.length := by
  cases k <;> decide

theorem speaksOfEnd_unexpected (expected got : TokenKind) :
    speaksOfEnd (Problem.unexpected expected got).message ↔ got = .eof := by
  have hlength : "got EOF".toList.length ≤ (", got " ++ got.display).toList.length := by
    rw [String.toList_append, List.length_append]
    exact Nat.add_le_add_left (length_display_pos got) 6
  have hwords (a b c d e : String) : a ++ b ++ c ++ d ++ e = a ++ b ++ (c ++ d) ++ e := by
    simp only [String.append_assoc]
  have hmessage : (Problem.unexpected expected got).message =
      "expected next token to be " ++ expected.display ++ (", got " ++ got.display) ++ " instead" := hwords ..
  have hne : (Problem.unexpected expected got).message ≠ "no prefix parse function for " ++ "EOF" ++ " found" := by
    rw [hmessage, String.append_assoc, String.append_assoc]
    exact append_ne (c := 'e') (by decide) (by decide) _
  rw [speaksOfEnd_iff, or_iff_left hne, hmessage, suffix_append_self_iff, suffix_append_iff _ hlength,
    suffix_display_iff]

/-- What ends with other words does not speak of the end. -/
theorem not_suffix_of_end {t : String} (ht : "nstead".toList.length ≤ t.toList.length)
    (h : ¬ "nstead".toList <:+ t.toList) (a : String) : ¬ ("got EOF" ++ " instead").toList <:+ (a ++ t).toList := by
  intro hend
  have hlast : "nstead".toList <:+ ("got EOF" ++ " instead").toList := by decide
  exact h ((suffix_append_iff a ht).1 (hlast.trans hend))

theorem speaksOfEnd_noExpression (kind : TokenKind) :
    speaksOfEnd (Problem.noExpression kind).message ↔ kind = .eof := by
  have hmessage : (Problem.noExpression kind).message = "no prefix parse function for " ++ kind.display ++ " found" := rfl
  have hend := not_suffix_of_end (t := " found") (by decide) (by decide)
    ("no prefix parse function for " ++ kind.display)
  rw [speaksOfEnd_iff, hmessage, or_iff_right hend, String.append_left_inj, String.append_right_inj, display_eq_iff]

theorem not_speaksOfEnd_outOfRange (numeral : String) : ¬ speaksOfEnd (Problem.outOfRange numeral).message := by
  have hmessage : (Problem.outOfRange numeral).message = "could not parse " ++ numeral ++ " as integer" := rfl
  have hend := not_suffix_of_end (t := " as integer") (by decide) (by decide)
    ("could not parse " ++ numeral)
  have hne : (Problem.outOfRange numeral).message ≠ "no prefix parse function for " ++ "EOF" ++ " found" := by
    rw [hmessage, String.append_assoc]
    exact append_ne (c := 'c') (by decide) (by decide) _
  rw [speaksOfEnd_iff, or_iff_left hne, hmessage]
  exact hend

/-- **The words for a diagnostic speak of the end of the text exactly if the problem is there.** -/
theorem speaksOfEnd_message (d : Diagnostic) : speaksOfEnd d.message ↔ d.problem.atEnd := by
  rw [Diagnostic.message]
  cases d.problem with
  | unexpected expected got => rw [speaksOfEnd_unexpected, Problem.atEnd, decide_eq_true_iff]
  | noExpression kind => rw [speaksOfEnd_noExpression, Problem.atEnd, decide_eq_true_iff]
  | outOfRange numeral => exact iff_of_false (not_speaksOfEnd_outOfRange numeral) Bool.false_ne_true

theorem isIncomplete_iff {t : Parse} {file : Option String} : isIncomplete ⟨t.messages, file⟩ ↔
    t.diagnostics ≠ [] ∧ ∀ d ∈ t.diagnostics, d.problem.atEnd := by
  simp [isIncomplete, Parse.messages, speaksOfEnd_message]

/-! ## Incomplete texts -/

/-- **A text is incomplete exactly if something is wrong with it that more lines put right.** -/
theorem isIncomplete_iff_exists_lines {text : String}
    (h : ∀ ds, ds <:+: text.toList → (∀ c ∈ ds, isDigit c) → ds.length ≤ maxDigits) (file : Option String) :
    ∃ t, parse text = .ok t ∧ (isIncomplete ⟨t.messages, file⟩ ↔
      t.diagnostics ≠ [] ∧ ∃ more t', parse (text ++ "\n" ++ more) = .ok t' ∧ t'.diagnostics = []) := by
  have hshort := shortNumerals_lexemesOf h
  obtain ⟨t, ht⟩ := hshort.parse_ok
  refine ⟨t, ht, isIncomplete_iff.trans (and_congr_right fun hne => ⟨fun hend => ?_, ?_⟩)⟩
  · exact parse_lines_of_atEnd hshort ht hne hend
  · rintro ⟨more, t', ht', hclean⟩
    exact atEnd_of_parse_lines ht ht' hclean

/-- A function whose body is still open. -/
theorem isIncomplete_iff_exists_lines_open_body :
    (∀ ds, ds <:+: "let f = fn(x) \x7b".toList → (∀ c ∈ ds, isDigit c) → ds.length ≤ maxDigits) ∧
      ∃ t, parse "let f = fn(x) \x7b" = .ok t ∧ (isIncomplete ⟨t.messages, none⟩ ↔ t.diagnostics ≠ [] ∧
        ∃ more t', parse ("let f = fn(x) \x7b" ++ "\n" ++ more) = .ok t' ∧ t'.diagnostics = []) := by
  have hshort : ∀ ds, ds <:+: "let f = fn(x) \x7b".toList → (∀ c ∈ ds, isDigit c) → ds.length ≤ maxDigits :=
    fun ds hds _ => Nat.le_trans hds.length_le (by decide)
  exact ⟨hshort, isIncomplete_iff_exists_lines hshort none⟩

end Malformed

end Monkey
