import Monkey.Proofs.Token.Lexemes

/-!
# The places of tokens

A text has the same tokens wherever it stands. If it stands some lines further down, each of them does
(`Cursor.Lowered.toEnd`). So the tokens of a text with another one on the next line are those of the first and behind
them those of the other, lowered by the lines of the first (`toEnd_lines`).
-/

namespace Monkey

/-! ## Places further down -/

namespace Position

/-- The place so many lines further down. -/
def lower (k : Nat) (p : Position) : Position :=
  ⟨p.line + k, p.column⟩

theorem next_lower (k : Nat) (p : Position) (c : Char) : (p.lower k).next c = (p.next c).lower k := by
  unfold next lower
  split
  · rw [Nat.add_right_comm]
  · rfl

theorem line_after (p : Position) (cs : List Char) : (p.after cs).line = p.line + cs.count '\n' := by
  induction cs generalizing p with
  | nil => rfl
  | cons c cs ih =>
    rw [after_cons, ih, next]
    by_cases hc : c = '\n'
    · subst hc
      rw [if_pos rfl, List.count_cons_self, Nat.add_right_comm, Nat.add_assoc]
    · rw [if_neg hc, List.count_cons_of_ne hc]

/-- The line behind some characters begins one line below the last of them. -/
theorem after_newline (cs : List Char) : start.after (cs ++ ['\n']) = start.lower (cs.count '\n' + 1) := by
  rw [after_append, after_cons, after_nil, next, if_pos rfl, line_after, lower, Nat.add_assoc]
  rfl

end Position

/-- The token so many lines further down. -/
def Token.lower (k : Nat) (t : Token) : Token :=
  { t with position := t.position.lower k }

/-! ## Texts further down -/

namespace Cursor

theorem step_nil {c : Cursor} (hr : c.rest = []) : c.step = c := by
  rw [step, hr]

theorem step_cons {c : Cursor} {x : Char} {xs : List Char} (hr : c.rest = x :: xs) :
    c.step = ⟨xs, c.offset + 1, c.position.next x⟩ := by
  rw [step, hr]

/-- The same text, so many lines further down. -/
structure Lowered (k : Nat) (c c' : Cursor) : Prop where
  rest : c'.rest = c.rest
  position : c'.position = c.position.lower k

namespace Lowered

variable {k : Nat} {c c' : Cursor}

theorem step (h : Lowered k c c') : Lowered k c.step c'.step := by
  cases hr : c.rest with
  | nil =>
    rw [step_nil hr, step_nil (h.rest.trans hr)]
    exact h
  | cons x xs =>
    rw [step_cons hr, step_cons (h.rest.trans hr), h.position]
    exact ⟨rfl, Position.next_lower k _ x⟩

theorem advance (h : Lowered k c c') (n : Nat) : Lowered k (c.advance n) (c'.advance n) := by
  induction n generalizing c c' with
  | zero => exact h
  | succ n ih => exact ih h.step

theorem skipBlanks (h : Lowered k c c') : Lowered k c.skipBlanks c'.skipBlanks := by
  rw [Cursor.skipBlanks, Cursor.skipBlanks, h.rest]
  exact h.advance _

theorem lex (h : Lowered k c c') : c'.lex.1 = c.lex.1.lower k ∧ Lowered k c.lex.2 c'.lex.2 := by
  rw [Cursor.lex, Cursor.lex, h.rest, h.position]
  cases c.rest with
  | nil => exact ⟨rfl, h⟩
  | cons x xs => exact ⟨rfl, h.advance _⟩

theorem read (h : Lowered k c c') : c'.read.1 = c.read.1.lower k ∧ Lowered k c.read.2 c'.read.2 :=
  h.skipBlanks.lex

/-- **A text further down has the same tokens further down.** -/
theorem toEnd (h : Lowered k c c') :
    c'.toEnd.1 = c.toEnd.1.map (Token.lower k) ∧ Lowered k c.toEnd.2 c'.toEnd.2 := by
  fun_induction Cursor.toEnd c generalizing c'
  case case1 c next hk =>
    obtain ⟨htoken, hnext⟩ := h.read
    have hk' : c'.read.1.kind = .eof := by rwa [htoken]
    rw [toEnd_eq_of_eof hk']
    exact ⟨rfl, hnext⟩
  case case2 c next hk later ih =>
    obtain ⟨htoken, hnext⟩ := h.read
    have hk' : c'.read.1.kind ≠ .eof := by rwa [htoken]
    obtain ⟨htokens, hend⟩ := ih hnext
    rw [toEnd_eq_of_ne_eof hk', htoken, htokens]
    exact ⟨rfl, hend⟩

end Lowered

/-! ## A text behind another -/

/-- The end of what is left is the same wherever one has got to. -/
theorem after_rest_advance (c : Cursor) (n : Nat) :
    (c.advance n).position.after (c.advance n).rest = c.position.after c.rest := by
  induction n generalizing c with
  | zero => rfl
  | succ n ih =>
    rw [advance, ih]
    cases hr : c.rest with
    | nil => rw [step_nil hr, hr]
    | cons x xs => rw [step_cons hr, Position.after_cons]

theorem after_rest_read (c : Cursor) : c.read.2.position.after c.read.2.rest = c.position.after c.rest := by
  rw [read, lex]
  cases hr : c.skipBlanks.rest with
  | nil => exact after_rest_advance c _
  | cons x xs =>
    dsimp only
    rw [after_rest_advance]
    exact after_rest_advance c _

/-- The same place in a text that goes on with some more characters. -/
structure Begins (more : List Char) (c c' : Cursor) : Prop where
  rest : c'.rest = c.rest ++ more
  position : c'.position = c.position

namespace Begins

variable {more : List Char} {c c' : Cursor}

theorem step (h : Begins more c c') (hne : c.rest ≠ []) : Begins more c.step c'.step := by
  obtain ⟨x, xs, hr⟩ := List.exists_cons_of_ne_nil hne
  have hr' : c'.rest = x :: (xs ++ more) := by rw [h.rest, hr, List.cons_append]
  rw [step_cons hr, step_cons hr', h.position]
  exact ⟨rfl, rfl⟩

theorem advance (h : Begins more c c') {n : Nat} (hn : n ≤ c.rest.length) :
    Begins more (c.advance n) (c'.advance n) := by
  induction n generalizing c c' with
  | zero => exact h
  | succ n ih =>
    have hne : c.rest ≠ [] := List.ne_nil_of_length_pos (Nat.lt_of_lt_of_le (Nat.succ_pos n) hn)
    refine ih (h.step hne) ?_
    obtain ⟨x, xs, hr⟩ := List.exists_cons_of_ne_nil hne
    rw [hr] at hn
    rw [step_cons hr]
    exact Nat.le_of_succ_le_succ hn

/-- Where not only blanks are left, the same token is read. -/
theorem read (h : Begins more c c') (hmore : EndsLexeme more) (hk : c.read.1.kind ≠ .eof) :
    c'.read.1 = c.read.1 ∧ Begins more c.read.2 c'.read.2 := by
  have hskip := rest_skipBlanks c
  cases hr : c.skipBlanks.rest with
  | nil => exact absurd ((kind_read_eq_eof_iff c).2 (hskip ▸ hr)) hk
  | cons x xs =>
    have hblanks : c'.rest.takeWhile isBlank = c.rest.takeWhile isBlank := by
      have hlength : (c.rest.takeWhile isBlank).length ≠ c.rest.length := by
        intro hlength
        have hall := List.takeWhile_append_dropWhile (p := isBlank) (l := c.rest)
        rw [← hskip, hr] at hall
        have := congrArg List.length hall
        rw [List.length_append, List.length_cons] at this
        omega
      rw [h.rest, List.takeWhile_append, if_neg hlength]
    have hbegins : Begins more c.skipBlanks c'.skipBlanks := by
      rw [skipBlanks, skipBlanks, hblanks]
      exact h.advance (List.takeWhile_prefix isBlank).length_le
    have hr' : c'.skipBlanks.rest = x :: (xs ++ more) := by rw [hbegins.rest, hr, List.cons_append]
    have hcut : (lexeme x xs).2.length ≤ (x :: xs).length := by
      have := congrArg List.length (lexeme_append_drop x xs)
      rw [List.length_append] at this
      omega
    rw [Cursor.read, Cursor.read, lex, lex, hr, hr', hbegins.position]
    dsimp only
    rw [lexeme_append_of_endsLexeme x xs hmore]
    exact ⟨rfl, hbegins.advance (hr ▸ hcut)⟩

/-- Where only blanks are left before a newline, what is read stands on the next line. -/
theorem read_of_eof {ds : List Char} (h : Begins ('\n' :: ds) c c') (hk : c.read.1.kind = .eof) :
    ∃ c'' : Cursor, c''.rest = ds ∧ c''.position = c.position.after (c.rest ++ ['\n']) ∧ c'.read = c''.read := by
  have hblank : ∀ b ∈ c.rest ++ ['\n'], isBlank b := by
    rw [List.forall_mem_append]
    exact ⟨isBlank_of_eof hk, List.forall_mem_singleton.2 rfl⟩
  have hrest : c'.rest = (c.rest ++ ['\n']) ++ ds := by rw [h.rest, List.append_assoc, List.singleton_append]
  rw [← h.position]
  generalize c.rest ++ ['\n'] = bs at hblank hrest
  clear h hk
  induction bs generalizing c' with
  | nil => exact ⟨c', hrest, rfl, rfl⟩
  | cons b bs ih =>
    obtain ⟨hb, hbs⟩ := List.forall_mem_cons.1 hblank
    have hstep : c'.step = ⟨bs ++ ds, c'.offset + 1, c'.position.next b⟩ := step_cons hrest
    obtain ⟨c'', hrest'', hposition, hread⟩ := ih hbs (congrArg Cursor.rest hstep)
    refine ⟨c'', hrest'', ?_, (read_step hrest hb).trans hread⟩
    rw [hposition, hstep, Position.after_cons]

/-- **The tokens of a text with another one on the next line** are those of the first and, behind them, those of the
other from where it stands. -/
theorem toEnd {ds : List Char} (h : Begins ('\n' :: ds) c c') :
    ∃ c'' : Cursor, c''.rest = ds ∧ c''.position = c.position.after (c.rest ++ ['\n']) ∧
      c'.toEnd = (c.toEnd.1 ++ c''.toEnd.1, c''.toEnd.2) := by
  fun_induction Cursor.toEnd c generalizing c'
  case case1 c next hk =>
    obtain ⟨c'', hrest, hposition, hread⟩ := h.read_of_eof hk
    exact ⟨c'', hrest, hposition, toEnd_congr hread⟩
  case case2 c next hk later ih =>
    have hends : EndsLexeme ('\n' :: ds) := by
      rintro d ⟨⟩
      rfl
    obtain ⟨htoken, hbegins⟩ := h.read hends hk
    obtain ⟨c'', hrest, hposition, htokens⟩ := ih hbegins
    refine ⟨c'', hrest, ?_, ?_⟩
    · rw [hposition, Position.after_append, Position.after_append, after_rest_read]
    · rw [toEnd_eq_of_ne_eof (c := c') (htoken ▸ hk), htokens, htoken]
      rfl

end Begins

end Cursor

/-- The tokens of a text with another one on the next line, and the end of both. -/
theorem toEnd_lines (text more : String) :
    ∃ c, ((Cursor.ofText more).Lowered (text.toList.count '\n' + 1) c) ∧
      (Cursor.ofText (text ++ "\n" ++ more)).toEnd = ((Cursor.ofText text).toEnd.1 ++ c.toEnd.1, c.toEnd.2) := by
  have hbegins : (Cursor.ofText text).Begins ('\n' :: more.toList) (Cursor.ofText (text ++ "\n" ++ more)) :=
    ⟨by rw [Cursor.ofText, String.toList_append, String.toList_append, List.append_assoc]; rfl, rfl⟩
  obtain ⟨c, hrest, hposition, htokens⟩ := hbegins.toEnd
  exact ⟨c, ⟨hrest, hposition.trans (Position.after_newline text.toList)⟩, htokens⟩

end Monkey
