import Monkey.Proofs.Token.Longest

/-!
# Blanks between lexemes

`Relaid text text'` says that the texts have the same words in the same order, those that the lexemes of the first are
written with. Between them, before and behind them there are blanks in the second one at least wherever there are blanks
in the first. Such texts have the same lexemes (`lexemesOf_eq_of_relaid`).

A word is cut off as a whole from a text in which other blanks stand behind it, or none stood there before: what follows
it is a blank, with which no form goes on, or what followed it before (`Cut.append_of_head`).
-/

namespace Monkey

/-! ## Layouts -/

/-- Blanks in the place of others. There may be other ones and more or fewer, but not none where there have been some. -/
def Gap (bs bs' : List Char) : Prop :=
  (∀ b ∈ bs, isBlank b) ∧ (∀ b ∈ bs', isBlank b) ∧ (bs' = [] → bs = [])

/-- Two texts with the same words in the same order, and blanks before, between and behind them. -/
inductive Respaced : List String → List Char → List Char → Prop
  | blanks {bs bs'} : Gap bs bs' → Respaced [] bs bs'
  | word {w ws bs bs' cs cs'} : Gap bs bs' → Respaced ws cs cs' →
    Respaced (w :: ws) (bs ++ w.toList ++ cs) (bs' ++ w.toList ++ cs')

/-- The second text has the words of the first, with other blanks between them. -/
def Relaid (text text' : String) : Prop :=
  Respaced ((lexemesOf text).map Lexeme.literal) text.toList text'.toList

/-! ## Words in another layout -/

section Words

variable {w w' bs cs cs' : List Char} {k : TokenKind} {ls : List Lexeme} {ws : List String}

/-- No blank is part of a form. -/
theorem Form.not_isBlank (h : Form w k) : ∀ c ∈ w, isBlank c = false := by
  have hsymbols : ∀ p ∈ symbols, isBlank p.1 = false := by simp [symbols, isBlank]
  cases h with
  | eq | notEq => simp [isBlank]
  | symbol hc => exact List.forall_mem_singleton.2 (hsymbols _ hc)
  | word _ hw _ => exact fun c hc => isBlank_eq_false (.inl (hw c hc))
  | numeral _ hw => exact fun c hc => isBlank_eq_false (.inr (hw c hc))

theorem eq_or_eq_of_isPrefix {c d : Char} (hpre : w' <+: [c, d]) (hne : w' ≠ []) : w' = [c] ∨ w' = [c, d] := by
  obtain hnil | ⟨t, rfl, ht⟩ := List.prefix_cons_iff.1 hpre
  · exact absurd hnil hne
  · obtain rfl | ⟨u, rfl, hu⟩ := List.prefix_cons_iff.1 ht
    · exact Or.inl rfl
    · exact Or.inr (by rw [List.prefix_nil.1 hu])

/-- The front of a form has a form. -/
theorem Form.of_isPrefix (h : Form w k) (hpre : w' <+: w) (hne : w' ≠ []) : ∃ k', Form w' k' := by
  cases h with
  | eq =>
    obtain rfl | rfl := eq_or_eq_of_isPrefix hpre hne
    · exact ⟨.assign, .symbol (by decide)⟩
    · exact ⟨_, .eq⟩
  | notEq =>
    obtain rfl | rfl := eq_or_eq_of_isPrefix hpre hne
    · exact ⟨.bang, .symbol (by decide)⟩
    · exact ⟨_, .notEq⟩
  | symbol hc =>
    obtain rfl : w' = _ := hpre.eq_of_length_le (List.length_pos_iff.2 hne)
    exact ⟨_, .symbol hc⟩
  | word _ hw _ => exact ⟨_, .word hne (fun c hc => hw c (hpre.subset hc)) (TokenKind.wordKind_word _)⟩
  | numeral _ hw => exact ⟨_, .numeral hne fun c hc => hw c (hpre.subset hc)⟩

/-- What `cs'` begins with is a blank, or what `cs` begins with. -/
def HeadsBlankOr (cs cs' : List Char) : Prop :=
  ∀ d ∈ cs'.head?, isBlank d ∨ d ∈ cs.head?

/-- A form that goes beyond a word in the one text does so in the other, at least by one character. -/
theorem Form.exists_beyond (h : Form w' k) (hpre : w' <+: w ++ cs') (hlong : w.length < w'.length)
    (hhead : HeadsBlankOr cs cs') : ∃ w'' k'', Form w'' k'' ∧ w'' <+: w ++ cs ∧ w.length < w''.length := by
  obtain ⟨e, rfl⟩ := List.prefix_of_prefix_length_le (List.prefix_append w cs') hpre (Nat.le_of_lt hlong)
  obtain ⟨d, e, rfl⟩ : ∃ d es, e = d :: es := List.exists_cons_of_ne_nil (by rintro rfl; simp at hlong)
  obtain ⟨ds, rfl⟩ := (List.prefix_append_right_inj w).1 hpre
  have hd : isBlank d = false := h.not_isBlank d (by simp)
  have hcs : d ∈ cs.head? := (hhead d rfl).resolve_left (by simp [hd])
  obtain ⟨ds', rfl⟩ := List.head?_eq_some_iff.1 hcs
  have hfront : w ++ [d] <+: w ++ d :: e := ⟨e, by simp⟩
  obtain ⟨k'', hform⟩ := h.of_isPrefix hfront (by simp)
  exact ⟨_, k'', hform, ⟨ds', by simp⟩, by simp⟩

/-- **What is cut off does not depend on what follows it**, as long as that is a blank or what followed it before. -/
theorem Cut.append_of_head (h : Cut w k (w ++ cs)) (hhead : HeadsBlankOr cs cs') : Cut w k (w ++ cs') := by
  generalize hwhole : w ++ cs = whole at h
  cases h with
  | longest hform _ hlongest =>
    subst hwhole
    refine .longest hform (List.prefix_append w cs') fun w' k' hform' hpre => Nat.le_of_not_lt fun hlong => ?_
    obtain ⟨w'', k'', hform'', hpre'', hlong''⟩ := hform'.exists_beyond hpre hlong hhead
    exact Nat.not_le.2 hlong'' (hlongest w'' k'' hform'' hpre'')
  | @illegal c _ hnone =>
    refine .illegal fun w' k' hform hpre => ?_
    obtain hnil | ⟨t, rfl, -⟩ := List.prefix_cons_iff.1 hpre
    · exact hform.ne_nil hnil
    · have hfront : [c] <+: c :: t := ⟨t, rfl⟩
      obtain ⟨k'', hc⟩ := hform.of_isPrefix hfront (List.cons_ne_nil _ _)
      exact hnone [c] k'' hc ⟨_, rfl⟩

end Words

/-! ## Texts in another layout -/

section Texts

variable {w bs cs cs' : List Char} {ls : List Lexeme} {ws : List String} {word : String}

theorem Respaced.headsBlankOr (h : Respaced ws cs cs') : HeadsBlankOr cs cs' := by
  induction h with
  | blanks hgap => exact fun d hd => Or.inl (hgap.2.1 d (List.mem_of_mem_head? hd))
  | @word w ws bs bs' cs cs' hgap _ ih =>
    cases bs' with
    | nil =>
      rw [hgap.2.2 rfl]
      cases w.toList with
      | nil => exact ih
      | cons x xs => exact fun d hd => Or.inr hd
    | cons b bs' =>
      rintro d ⟨⟩
      exact Or.inl (hgap.2.1 b List.mem_cons_self)

theorem Respaced.exists_of_cons (h : Respaced (word :: ws) cs cs') :
    ∃ bs bs' ds ds', Gap bs bs' ∧ Respaced ws ds ds' ∧
      cs = bs ++ word.toList ++ ds ∧ cs' = bs' ++ word.toList ++ ds' := by
  cases h with
  | word hgap hrest => exact ⟨_, _, _, _, hgap, hrest, rfl, rfl⟩

/-- A word with blanks before it stands in one place only. -/
theorem append_inj_of_blanks {bs bs₁ cs cs₁ : List Char} (hbs : ∀ b ∈ bs, isBlank b) (hbs₁ : ∀ b ∈ bs₁, isBlank b)
    (hne : w ≠ []) (hw : ∀ c ∈ w.head?, isBlank c = false) (heq : bs ++ w ++ cs = bs₁ ++ w ++ cs₁) :
    bs = bs₁ ∧ cs = cs₁ := by
  have hcut {bs : List Char} (cs : List Char) (hbs : ∀ b ∈ bs, isBlank b) :
      (bs ++ w ++ cs).takeWhile isBlank = bs := by
    obtain ⟨x, xs, rfl⟩ := List.exists_cons_of_ne_nil hne
    have hx : ¬isBlank x := by simp [hw x rfl]
    rw [List.append_assoc, List.takeWhile_append_of_pos hbs, List.cons_append, List.takeWhile_cons_of_neg hx,
      List.append_nil]
  have hblanks : bs = bs₁ := by rw [← hcut cs hbs, heq, hcut cs₁ hbs₁]
  subst hblanks
  exact ⟨rfl, List.append_cancel_left heq⟩

theorem Cut.ne_nil {k : TokenKind} (h : Cut w k cs) : w ≠ [] := by
  cases h with
  | longest hform => exact hform.ne_nil
  | illegal => exact List.cons_ne_nil _ _

/-- In another layout a text is cut up in the same way. -/
theorem Tokenized.respaced (h : Tokenized cs ls) (hrespaced : Respaced (ls.map Lexeme.literal) cs cs') :
    Tokenized cs' ls := by
  induction h generalizing cs' with
  | blanks =>
    cases hrespaced with
    | blanks hgap => exact .blanks hgap.2.1
  | @lexeme bs w k cs ls hbs hw hcut _ ih =>
    obtain ⟨bs₁, bs', ds, ds', hgap, hrest, heq, rfl⟩ := hrespaced.exists_of_cons
    rw [String.toList_ofList] at heq ⊢
    obtain ⟨rfl, rfl⟩ := append_inj_of_blanks hbs hgap.1 hcut.ne_nil hw heq
    exact .lexeme hgap.2.1 hw (hcut.append_of_head hrest.headsBlankOr) (ih hrest)

end Texts

/-- **A text has the same lexemes in every layout.** -/
theorem lexemesOf_eq_of_relaid {text text' : String} (h : Relaid text text') : lexemesOf text' = lexemesOf text :=
  (tokenized_iff.1 ((tokenized_iff.2 rfl).respaced h)).symm

/-- The end token has no characters. -/
theorem lexemes_tokens (text : String) :
    (Cursor.ofText text).tokens.map Token.lexeme = lexemesOf text ++ [⟨.eof, ""⟩] := by
  rw [Cursor.tokens, List.map_append, (Cursor.read_of_eof (Cursor.kind_read_toEnd _)).1]
  rfl

end Monkey
