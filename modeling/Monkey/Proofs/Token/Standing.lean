import Monkey.Proofs.Token.Longest

/-!
# Where tokens stand

The tokens of a text stand in it one behind the other, with nothing but blanks in between. So any row of tokens at the
end of a text is read from some place in it (`Cursor.exists_of_suffix`), and what stands around a token can be told from
its neighbors: a name between a `let` and an equals sign has a blank before it, and a blank or the sign behind it
(`Cursor.exists_name`).
-/

namespace Monkey

namespace Cursor

variable {c : Cursor}

/-- The cursor has moved over some characters. -/
structure Over (cs : List Char) (c c' : Cursor) : Prop where
  rest : c.rest = cs ++ c'.rest
  position : c'.position = c.position.after cs

namespace Over

variable {c' c'' : Cursor} {cs ds : List Char}

theorem refl (c : Cursor) : Over [] c c :=
  ⟨rfl, rfl⟩

theorem trans (h : Over cs c c') (h' : Over ds c' c'') : Over (cs ++ ds) c c'' where
  rest := by rw [h.rest, h'.rest, List.append_assoc]
  position := by rw [h'.position, h.position, Position.after_append]

theorem advance (h : c.rest = cs ++ ds) : Over cs c (c.advance cs.length) := by
  induction cs generalizing c with
  | nil => exact .refl c
  | cons x xs ih =>
    have hstep : c.step = ⟨xs ++ ds, c.offset + 1, c.position.next x⟩ := step_cons h
    have hxs : Over xs c.step (c.step.advance xs.length) := ih (congrArg Cursor.rest hstep)
    refine ⟨?_, ?_⟩
    · rw [h, List.cons_append, List.cons_append, List.length_cons, Cursor.advance, ← hxs.rest, hstep]
    · rw [List.length_cons, Cursor.advance, hxs.position, hstep, Position.after_cons]

end Over

theorem over_skipBlanks (c : Cursor) : Over (c.rest.takeWhile isBlank) c c.skipBlanks :=
  .advance List.takeWhile_append_dropWhile.symm

/-- A token stands behind some blanks, and the next one is looked for where it ends. -/
theorem over_read (hk : c.read.1.kind ≠ .eof) :
    ∃ bs x xs, (∀ b ∈ bs, isBlank b) ∧ c.rest = bs ++ x :: xs ∧ isBlank x = false ∧
      c.read.1 = ⟨(lexeme x xs).1, .ofList (lexeme x xs).2, c.position.after bs⟩ ∧
      x :: xs = (lexeme x xs).2 ++ c.read.2.rest ∧ Over (bs ++ (lexeme x xs).2) c c.read.2 := by
  have hskip := over_skipBlanks c
  cases hr : c.skipBlanks.rest with
  | nil => exact absurd ((kind_read_eq_eof_iff c).2 (rest_skipBlanks c ▸ hr)) hk
  | cons x xs =>
    have hread : c.read = (⟨(lexeme x xs).1, .ofList (lexeme x xs).2, c.skipBlanks.position⟩,
        c.skipBlanks.advance (lexeme x xs).2.length) := by
      rw [read, lex, hr]
    have hlexeme : Over (lexeme x xs).2 c.skipBlanks c.read.2 := by
      rw [hread]
      exact .advance (hr.trans (lexeme_append_drop x xs))
    refine ⟨_, x, xs, List.all_eq_true.1 List.all_takeWhile, hr ▸ hskip.rest, isBlank_of_skipBlanks hr, ?_,
      hr ▸ hlexeme.rest, hskip.trans hlexeme⟩
    rw [hread, hskip.position]

/-- **Tokens at the end of a text are read from some place in it.** -/
theorem exists_of_suffix {ts : List Token} (h : ts <:+ c.toEnd.1) : ∃ cs c', Over cs c c' ∧ c'.toEnd.1 = ts := by
  fun_induction toEnd c with
  | case1 c next hk =>
    obtain rfl := List.suffix_nil.1 h
    exact ⟨[], c, .refl c, toEnd_of_eof hk⟩
  | case2 c next hk later ih =>
    obtain rfl | h := List.suffix_cons_iff.1 h
    · exact ⟨[], c, .refl c, toEnd_of_ne_eof hk⟩
    · obtain ⟨bs, x, xs, -, -, -, -, -, hover⟩ := over_read hk
      obtain ⟨cs, c', hcs, hts⟩ := ih h
      exact ⟨_, c', hover.trans hcs, hts⟩

end Cursor

/-! ## Names -/

/-- A name stands in a text behind `pre` and before `rest`, and neither could belong to it. -/
structure Token.NameBetween (pre rest : List Char) (t : Token) : Prop where
  position : t.position = Position.start.after pre
  ne_nil : t.literal.toList ≠ []
  letters : ∀ c ∈ t.literal.toList, isLetter c
  before : ∀ b ∈ pre.getLast?, isBlank b
  behind : ∀ d ∈ rest.head?, isBlank d ∨ d = '='

namespace Cursor

variable {c : Cursor}

/-- The next token is the first one of those that are left. -/
theorem toEnd_eq_cons {t : Token} {ts : List Token} (h : c.toEnd.1 = t :: ts) :
    c.read.1.kind ≠ .eof ∧ c.read.1 = t ∧ c.read.2.toEnd.1 = ts := by
  have hk : c.read.1.kind ≠ .eof := by
    intro hk
    rw [toEnd_of_eof hk] at h
    cases h
  rw [toEnd_of_ne_eof hk] at h
  exact ⟨hk, List.cons.inj h⟩

end Cursor

section

variable {x : Char} {xs : List Char}

theorem isLetter_of_letKeyword (h : (lexeme x xs).1 = .letKeyword) : isLetter x := by
  have hx := lexeme_append_drop x xs
  obtain hform | ⟨hillegal, -⟩ := lexeme_cases x xs
  · rw [h] at hform
    generalize (lexeme x xs).2 = w at hform hx
    cases hform with
    | symbol hc => exact absurd hc (by simp [symbols])
    | word hne hletters =>
      obtain ⟨y, ys, rfl⟩ := List.exists_cons_of_ne_nil hne
      obtain ⟨rfl, -⟩ := List.cons.inj hx
      exact hletters x List.mem_cons_self
  · rw [hillegal] at h
    cases h

theorem eq_of_assign (h : (lexeme x xs).1 = .assign) : x = '=' := by
  have hx := lexeme_append_drop x xs
  obtain hform | ⟨hillegal, -⟩ := lexeme_cases x xs
  · rw [h] at hform
    generalize (lexeme x xs).2 = w at hform hx
    cases hform with
    | symbol hc =>
      obtain ⟨rfl, -⟩ := List.cons.inj hx
      simpa [symbols] using hc
    | word _ _ hk =>
      obtain hk | ⟨hk, -⟩ := hk
      · exact absurd hk (by simp [keywordKinds])
      · cases hk
  · rw [hillegal] at h
    cases h

/-- Behind a run of letters stands no letter. -/
theorem isLetter_head?_of_lexeme {rest : List Char} (hx : isLetter x) (h : x :: xs = (lexeme x xs).2 ++ rest) :
    ∀ d ∈ rest.head?, isLetter d = false := by
  have hrest : rest = xs.dropWhile isLetter := by
    rw [lexeme_of_isLetter hx, List.cons_append, List.cons.injEq] at h
    exact (List.append_cancel_left (h.2.symm.trans List.takeWhile_append_dropWhile.symm))
  intro d hd
  have hhead := List.head?_dropWhile_not isLetter xs
  rw [← hrest, Option.mem_def.1 hd] at hhead
  simpa using hhead

end

/-- **A name between a `let` and an equals sign** has a blank before it, and a blank or the sign behind it. -/
theorem Cursor.exists_name {text : String} {t u v : Token} {ts : List Token}
    (h : t :: u :: v :: ts <:+ (ofText text).toEnd.1) (ht : t.kind = .letKeyword) (hu : u.kind = .ident)
    (hv : v.kind = .assign) : ∃ pre rest, text.toList = pre ++ u.literal.toList ++ rest ∧ u.NameBetween pre rest := by
  obtain ⟨cs, c, hc, hts⟩ := exists_of_suffix h
  obtain ⟨hk₁, rfl, hts₁⟩ := toEnd_eq_cons hts
  obtain ⟨hk₂, rfl, hts₂⟩ := toEnd_eq_cons hts₁
  obtain ⟨hk₃, rfl, -⟩ := toEnd_eq_cons hts₂
  obtain ⟨bs₁, x₁, xs₁, -, -, -, ht', hx₁, hover₁⟩ := over_read hk₁
  obtain ⟨bs₂, x₂, xs₂, hbs₂, hrest₂, -, hu', hx₂, -⟩ := over_read hk₂
  obtain ⟨bs₃, x₃, xs₃, hbs₃, hrest₃, -, hv', -, -⟩ := over_read hk₃
  rw [ht'] at ht
  rw [hu'] at hu
  rw [hv'] at hv
  obtain ⟨hletter, hletters, -⟩ := lexeme_of_ident hu
  obtain ⟨htext, hposition⟩ := hc.trans hover₁
  have hliteral : c.read.2.read.1.literal.toList = x₂ :: xs₂.takeWhile isLetter := by
    rw [hu', String.toList_ofList, hletters]
  -- the name would go on with the letters of `let` if no blank stood before it
  have hne : bs₂ ≠ [] := by
    rintro rfl
    have hhead := isLetter_head?_of_lexeme (isLetter_of_letKeyword ht) hx₁ x₂ (by rw [hrest₂]; rfl)
    exact Bool.false_ne_true (hhead.symm.trans hletter)
  refine ⟨cs ++ (bs₁ ++ (lexeme x₁ xs₁).2) ++ bs₂, c.read.2.read.2.rest, ?_, ?_, ?_, ?_, ?_, ?_⟩
  · rw [hliteral, ← hletters, List.append_assoc, ← hx₂, List.append_assoc, ← hrest₂]
    exact htext
  · rw [hu', hposition, ← Position.after_append]
    rfl
  · rw [hliteral]
    exact List.cons_ne_nil _ _
  · rw [hliteral]
    exact forall_mem_cons_takeWhile hletter xs₂
  · rw [List.getLast?_append, List.getLast?_eq_some_getLast hne]
    rintro b ⟨⟩
    exact hbs₂ _ (List.getLast_mem hne)
  · rw [hrest₃]
    cases bs₃ with
    | nil =>
      rintro d ⟨⟩
      exact .inr (eq_of_assign hv)
    | cons b bs =>
      rintro d ⟨⟩
      exact .inl (hbs₃ b List.mem_cons_self)

end Monkey
