import Monkey.Token

/-!
# Reading tokens off a text

A `Cursor` is what is left of a text, with the place reached. `Cursor.read` skips blanks and takes the longest lexeme:
`==` and `!=`, an operator or delimiter of one character, a run of letters, a run of digits, else one character of no
kind. At the end of the text it gives the end token and moves nothing.

* `Cursor.kind_read_eq_eof_iff`: the end token is read exactly where only blanks are left.
* `Cursor.length_read_lt`: a token other than the end token makes the text shorter.
* `Cursor.toEnd`: all tokens before the end token.
-/

namespace Monkey

/-- Blanks separate tokens and belong to none. -/
def isBlank (c : Char) : Bool :=
  c = ' ' || c = '\t' || c = '\n' || c = '\r'

/-- The characters of names and keywords: the ASCII letters and the underscore. -/
def isLetter (c : Char) : Bool :=
  c.isAlpha || c = '_'

/-- The characters of numerals: the ASCII digits. -/
def isDigit (c : Char) : Bool :=
  c.isDigit

/-- The longest lexeme of the text `c :: cs`, with its kind. -/
def lexeme (c : Char) (cs : List Char) : TokenKind × List Char :=
  match cs.head?.bind (TokenKind.pair? c) with
  | some kind => (kind, c :: cs.take 1)
  | none =>
    match TokenKind.symbol? c with
    | some kind => (kind, [c])
    | none =>
      if isLetter c then
        let letters := c :: cs.takeWhile isLetter
        (.word (.ofList letters), letters)
      else if isDigit c then (.int, c :: cs.takeWhile isDigit)
      else (.illegal, [c])

/-- A place in a text that is being read: what is left, how much lies behind, and where that is. -/
structure Cursor where
  rest : List Char
  offset : Nat
  position : Position

namespace Cursor

/-- The cursor before the first character of a text. -/
def ofText (text : String) : Cursor :=
  ⟨text.toList, 0, .start⟩

/-- The character under the cursor. -/
def current? (c : Cursor) : Option Char :=
  c.rest.head?

/-- The cursor behind the next character; at the end it stays. -/
def step (c : Cursor) : Cursor :=
  match c.rest with
  | [] => c
  | x :: xs => ⟨xs, c.offset + 1, c.position.next x⟩

/-- The cursor `n` characters further. -/
def advance (c : Cursor) : Nat → Cursor
  | 0 => c
  | n + 1 => c.step.advance n

/-- The cursor at the next character that is not blank. -/
def skipBlanks (c : Cursor) : Cursor :=
  c.advance (c.rest.takeWhile isBlank).length

/-- The token whose literal begins at the cursor, and the cursor behind it. -/
def lex (c : Cursor) : Token × Cursor :=
  match c.rest with
  | [] => (⟨.eof, "", c.position⟩, c)
  | x :: xs => (⟨(lexeme x xs).1, .ofList (lexeme x xs).2, c.position⟩, c.advance (lexeme x xs).2.length)

/-- The next token and the cursor behind it. -/
def read (c : Cursor) : Token × Cursor :=
  c.skipBlanks.lex

/-! ## What a step leaves -/

theorem rest_advance (c : Cursor) (n : Nat) : (c.advance n).rest = c.rest.drop n := by
  induction n generalizing c with
  | zero => rfl
  | succ n ih =>
    rw [advance, ih, step]
    cases h : c.rest <;> simp [h]

theorem rest_skipBlanks (c : Cursor) : c.skipBlanks.rest = c.rest.dropWhile isBlank := by
  rw [skipBlanks, rest_advance]
  generalize c.rest = cs
  induction cs with
  | nil => rfl
  | cons x xs ih => by_cases h : isBlank x <;> simp [h, ih]

theorem length_rest_skipBlanks_le (c : Cursor) : c.skipBlanks.rest.length ≤ c.rest.length := by
  rw [skipBlanks, rest_advance, List.length_drop]
  omega

/-- A lexeme is not empty. -/
theorem length_lexeme_pos (c : Char) (cs : List Char) : 0 < (lexeme c cs).2.length := by
  unfold lexeme
  split
  · simp
  · split
    · simp
    · split
      · simp
      · split <;> simp

theorem kind_word_ne_eof (s : String) : TokenKind.word s ≠ .eof := by
  unfold TokenKind.word
  repeat (split; · simp)
  simp

theorem pair?_ne_eof (c d : Char) : TokenKind.pair? c d ≠ some .eof := by
  unfold TokenKind.pair?
  repeat' split
  all_goals simp

theorem symbol?_ne_eof (c : Char) : TokenKind.symbol? c ≠ some .eof := by
  unfold TokenKind.symbol?
  split <;> simp

theorem kind_lexeme_ne_eof (c : Char) (cs : List Char) : (lexeme c cs).1 ≠ .eof := by
  unfold lexeme
  split
  · next kind h =>
    obtain ⟨d, -, h⟩ := Option.bind_eq_some_iff.1 h
    exact fun he => pair?_ne_eof c d (he ▸ h)
  · split
    · next kind h => exact fun he => symbol?_ne_eof c (he ▸ h)
    · split
      · exact kind_word_ne_eof _
      · split <;> simp

/-- The end token is read exactly where the text holds nothing but blanks. -/
theorem kind_read_eq_eof_iff (c : Cursor) : c.read.1.kind = .eof ↔ c.rest.dropWhile isBlank = [] := by
  rw [read, lex, rest_skipBlanks]
  split
  · simp_all
  · simp_all [kind_lexeme_ne_eof]

/-- The end token is read again and again, and moves nothing. -/
theorem read_read_of_eof {c : Cursor} (h : c.read.1.kind = .eof) : c.read.2.read = c.read := by
  rw [kind_read_eq_eof_iff, ← rest_skipBlanks] at h
  have hread : c.read = (⟨.eof, "", c.skipBlanks.position⟩, c.skipBlanks) := by rw [read, lex, h]
  have hskip : c.skipBlanks.skipBlanks = c.skipBlanks := by
    rw [skipBlanks.eq_1 c.skipBlanks, h]
    rfl
  rw [hread, read, hskip, lex, h]

/-- A token other than the end token makes the text shorter. -/
theorem length_read_lt {c : Cursor} (h : c.read.1.kind ≠ .eof) : c.read.2.rest.length < c.rest.length := by
  have hle := length_rest_skipBlanks_le c
  unfold read lex at h ⊢
  split
  · next hr => simp [hr] at h
  · next x xs hr =>
    have hpos := length_lexeme_pos x xs
    rw [hr] at hle
    simp only [rest_advance, hr, List.length_drop, List.length_cons] at hle ⊢
    omega

/-! ## All tokens -/

/-- The tokens before the end token, and the cursor at the end of the text, where the end token is read. -/
def toEnd (c : Cursor) : List Token × Cursor :=
  let next := c.read
  if _h : next.1.kind = .eof then ([], next.2)
  else
    let later := next.2.toEnd
    (next.1 :: later.1, later.2)
termination_by c.rest.length
decreasing_by exact length_read_lt _h

/-- Behind all tokens the end token is read. -/
theorem kind_read_toEnd (c : Cursor) : c.toEnd.2.read.1.kind = .eof := by
  fun_induction toEnd c with
  | case1 c next h => rwa [read_read_of_eof h]
  | case2 c next h later ih => exact ih

/-- The tokens that are left, the end token last. -/
def tokens (c : Cursor) : List Token :=
  c.toEnd.1 ++ [c.toEnd.2.read.1]

end Cursor

end Monkey
