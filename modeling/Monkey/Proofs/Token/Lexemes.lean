import Mathlib.Data.List.TakeWhile
import Monkey.Token.Scan

/-!
# The lexemes of a text

A lexeme is a token without its place. `Scans cs ls` says which lexemes a run of characters is cut into, wherever it
stands in a text.

* `exists_suffix_of_mem_toEnd`: every token of a text is the longest lexeme somewhere in it.
* `Scans.word`: a word that is cut off as a whole is one lexeme where no character follows that could belong to it.
* `lexemesOf_intercalate`: words with a space between any two of them are cut into these words.
* `lexemesOf_lines`: the lexemes of a text with another one on the next line are those of both.
-/

namespace Monkey

/-- A token without its place. -/
structure Lexeme where
  kind : TokenKind
  literal : String
deriving DecidableEq

/-- What a token is apart from its place. -/
def Token.lexeme (t : Token) : Lexeme :=
  ⟨t.kind, t.literal⟩

/-- The lexemes of a text. -/
def lexemesOf (text : String) : List Lexeme :=
  (Cursor.ofText text).toEnd.1.map Token.lexeme

/-! ## All tokens of a text -/

namespace Cursor

variable {c : Cursor} {x : Char} {xs : List Char} {t : Token}

theorem toEnd_eq_of_eof (h : c.read.1.kind = .eof) : c.toEnd = ([], c.read.2) := by
  rw [toEnd]
  simp [h]

theorem toEnd_eq_of_ne_eof (h : c.read.1.kind ≠ .eof) :
    c.toEnd = (c.read.1 :: c.read.2.toEnd.1, c.read.2.toEnd.2) := by
  rw [toEnd]
  simp [h]

theorem toEnd_of_eof (h : c.read.1.kind = .eof) : c.toEnd.1 = [] := by
  rw [toEnd_eq_of_eof h]

theorem toEnd_of_ne_eof (h : c.read.1.kind ≠ .eof) : c.toEnd.1 = c.read.1 :: c.read.2.toEnd.1 := by
  rw [toEnd_eq_of_ne_eof h]

/-- What is left is cut up as from wherever the same is read. -/
theorem toEnd_congr {c' : Cursor} (h : c.read = c'.read) : c.toEnd = c'.toEnd := by
  rw [toEnd.eq_1 c, toEnd.eq_1 c', h]

/-- A blank is skipped. -/
theorem read_step {cs : List Char} {b : Char} (hc : c.rest = b :: cs) (hb : isBlank b) : c.read = c.step.read := by
  have hstep : c.step.rest = cs := by rw [step, hc]
  have hskip : c.skipBlanks = c.step.skipBlanks := by
    rw [skipBlanks, skipBlanks, hc, hstep, List.takeWhile_cons_of_pos hb, List.length_cons, advance]
  rw [read, read, hskip]

theorem kind_ne_eof_of_mem_toEnd (h : t ∈ c.toEnd.1) : t.kind ≠ .eof := by
  fun_induction toEnd c with
  | case1 c next hk => simp at h
  | case2 c next hk later ih =>
    obtain rfl | h := List.mem_cons.1 h
    · exact hk
    · exact ih h

theorem read_of_skipBlanks (h : c.skipBlanks.rest = x :: xs) :
    c.read.1.lexeme = ⟨(lexeme x xs).1, .ofList (lexeme x xs).2⟩ ∧
      c.read.2.rest = (x :: xs).drop (lexeme x xs).2.length := by
  rw [read, lex, h]
  exact ⟨rfl, by rw [rest_advance, h]⟩

/-- Behind the blanks stands no blank. -/
theorem isBlank_of_skipBlanks (h : c.skipBlanks.rest = x :: xs) : isBlank x = false := by
  have hhead := List.head?_dropWhile_not isBlank c.rest
  rw [← rest_skipBlanks, h] at hhead
  simpa using hhead

/-- Where the end token is read, only blanks are left. -/
theorem isBlank_of_eof (h : c.read.1.kind = .eof) : ∀ b ∈ c.rest, isBlank b := by
  rw [← List.takeWhile_append_dropWhile (p := isBlank) (l := c.rest), (kind_read_eq_eof_iff c).1 h, List.append_nil]
  exact List.all_eq_true.1 List.all_takeWhile

/-- Every token of a text is the longest lexeme somewhere in it, and no blank begins it. -/
theorem exists_suffix_of_mem_toEnd (h : t ∈ c.toEnd.1) :
    ∃ x xs, x :: xs <:+ c.rest ∧ isBlank x = false ∧ t.lexeme = ⟨(lexeme x xs).1, .ofList (lexeme x xs).2⟩ := by
  fun_induction toEnd c with
  | case1 c next hk => simp at h
  | case2 c next hk later ih =>
    have hskip := rest_skipBlanks c
    cases hr : c.skipBlanks.rest with
    | nil => exact absurd ((kind_read_eq_eof_iff c).2 (hskip ▸ hr)) hk
    | cons x xs =>
      obtain ⟨hlex, hrest⟩ := read_of_skipBlanks hr
      rw [hr] at hskip
      have hsuffix : x :: xs <:+ c.rest := hskip ▸ List.dropWhile_suffix isBlank
      obtain rfl | h := List.mem_cons.1 h
      · exact ⟨x, xs, hsuffix, isBlank_of_skipBlanks hr, hlex⟩
      · obtain ⟨y, ys, hys, hy⟩ := ih h
        have hnext : next.2.rest <:+ x :: xs := by
          change c.read.2.rest <:+ _
          rw [hrest]
          exact List.drop_suffix _ _
        exact ⟨y, ys, (hys.trans hnext).trans hsuffix, hy⟩

end Cursor

/-! ## Runs of characters -/

/-- Wherever the characters `cs` are what is left of a text, they are cut into the lexemes `ls`. -/
def Scans (cs : List Char) (ls : List Lexeme) : Prop :=
  ∀ c : Cursor, c.rest = cs → c.toEnd.1.map Token.lexeme = ls

theorem Scans.lexemesOf_eq {text : String} {ls : List Lexeme} (h : Scans text.toList ls) : lexemesOf text = ls :=
  h _ rfl

theorem Scans.nil : Scans [] [] := by
  intro c hc
  rw [Cursor.toEnd_of_eof ((Cursor.kind_read_eq_eof_iff c).2 (by rw [hc]; rfl))]
  rfl

theorem Scans.blank {b : Char} {cs : List Char} {ls : List Lexeme} (hb : isBlank b) (h : Scans cs ls) :
    Scans (b :: cs) ls := by
  intro c hc
  rw [← h c.step (by rw [Cursor.step, hc]), Cursor.toEnd_congr (Cursor.read_step hc hb)]

theorem Scans.lexeme {x : Char} {xs cs : List Char} {ls : List Lexeme} (hx : isBlank x = false)
    (hcs : x :: xs = (Monkey.lexeme x xs).2 ++ cs) (h : Scans cs ls) :
    Scans (x :: xs) (⟨(Monkey.lexeme x xs).1, .ofList (Monkey.lexeme x xs).2⟩ :: ls) := by
  intro c hc
  have hskip : c.skipBlanks.rest = x :: xs := by
    rw [Cursor.rest_skipBlanks, hc, List.dropWhile_cons_of_neg (by simp [hx])]
  obtain ⟨hlex, hrest⟩ := Cursor.read_of_skipBlanks hskip
  have hk : c.read.1.kind ≠ .eof := by
    change c.read.1.lexeme.kind ≠ .eof
    rw [hlex]
    exact Cursor.kind_lexeme_ne_eof x xs
  rw [Cursor.toEnd_of_ne_eof hk, List.map_cons, hlex, h c.read.2]
  calc c.read.2.rest = (x :: xs).drop (Monkey.lexeme x xs).2.length := hrest
    _ = ((Monkey.lexeme x xs).2 ++ cs).drop (Monkey.lexeme x xs).2.length := by rw [← hcs]
    _ = cs := List.drop_left

/-! ## Words -/

/-- The lexeme that a word is if it is cut off as a whole. -/
def Lexeme.ofWord (w : String) : Lexeme :=
  match w.toList with
  | [] => ⟨.eof, w⟩
  | c :: cs => ⟨(lexeme c cs).1, w⟩

theorem Lexeme.ofWord_eq {w : String} {c : Char} {cs : List Char} (h : w.toList = c :: cs) :
    Lexeme.ofWord w = ⟨(lexeme c cs).1, w⟩ := by
  unfold Lexeme.ofWord
  split <;> simp_all

/-- The word is cut off as a whole: it is one lexeme, and no blank begins it. -/
def IsWord (w : String) : Prop :=
  ∃ c cs, w.toList = c :: cs ∧ isBlank c = false ∧ (lexeme c cs).2 = c :: cs

/-- Where `cs` follows, no lexeme that begins with `c` goes on. -/
def Parts (c : Char) (cs : List Char) : Prop :=
  ∀ d ∈ cs.head?, TokenKind.pair? c d = none ∧ ¬ (isLetter c ∧ isLetter d) ∧ ¬ (isDigit c ∧ isDigit d)

theorem takeWhile_eq_nil_of_head {p : Char → Bool} {cs : List Char} (h : ∀ d ∈ cs.head?, ¬ p d) :
    cs.takeWhile p = [] := by
  cases cs with
  | nil => rfl
  | cons d ds => exact List.takeWhile_cons_of_neg (h d rfl)

theorem takeWhile_append_of_head {p : Char → Bool} {c : Char} {cs rest : List Char} (hcs : cs.takeWhile p = cs)
    (hc : p c) (h : ∀ d ∈ rest.head?, ¬ (p c ∧ p d)) : (cs ++ rest).takeWhile p = cs := by
  have hrest := takeWhile_eq_nil_of_head fun d hd hp => h d hd ⟨hc, hp⟩
  rw [List.takeWhile_append, hcs, if_pos rfl, hrest, List.append_nil]

theorem not_isLetter_of_isDigit {c : Char} (h : isDigit c) : isLetter c = false := by
  have hne : c ≠ '_' := by
    rintro rfl
    exact absurd h (by decide)
  have h₁ : 48 ≤ c.toNat ∧ c.toNat ≤ 57 := by
    simpa [isDigit, Char.isDigit, UInt32.le_iff_toNat_le] using h
  have h₂ : c.isAlpha = false := by
    unfold Char.isAlpha Char.isUpper Char.isLower
    simp [UInt32.le_iff_toNat_le]
    omega
  simp [isLetter, h₂, hne]

/-- A lexeme that was cut off as a whole stays what it is where no character follows that could belong to it. -/
theorem lexeme_append {c : Char} {cs rest : List Char} (hw : (lexeme c cs).2 = c :: cs) (h : Parts c rest) :
    lexeme c (cs ++ rest) = lexeme c cs := by
  have hpair : ((cs ++ rest).head?.bind (TokenKind.pair? c)) = cs.head?.bind (TokenKind.pair? c) := by
    cases cs with
    | cons e es => rfl
    | nil =>
      cases rest with
      | nil => rfl
      | cons d ds => exact (h d rfl).1
  unfold lexeme at hw ⊢
  rw [hpair]
  split at hw
  · next k hk =>
    obtain ⟨e, he, -⟩ := Option.bind_eq_some_iff.1 hk
    cases cs with
    | nil => cases he
    | cons e es => simp_all
  · split at hw
    · simp_all
    · split at hw
      · next hc =>
        have hcs : cs.takeWhile isLetter = cs := by simpa using hw
        simp only [if_pos hc, hcs, takeWhile_append_of_head hcs hc fun d hd => (h d hd).2.1]
      · next hletter =>
        split at hw
        · next hc =>
          have hcs : cs.takeWhile isDigit = cs := by simpa using hw
          simp only [if_neg hletter, if_pos hc, hcs, takeWhile_append_of_head hcs hc fun d hd => (h d hd).2.2]
        · simp_all

/-- A word is one lexeme where no character follows that could belong to it. -/
theorem Scans.word {w : String} {c : Char} {cs rest : List Char} {ls : List Lexeme} (hw : IsWord w)
    (hc : w.toList = c :: cs) (h : Parts c rest) (hrest : Scans rest ls) :
    Scans (w.toList ++ rest) (.ofWord w :: ls) := by
  obtain ⟨c', cs', hc', hblank, hlex⟩ := hw
  obtain ⟨rfl, rfl⟩ := List.cons.inj (hc'.symm.trans hc)
  have happend := lexeme_append hlex h
  have hcut : c' :: (cs' ++ rest) = (Monkey.lexeme c' (cs' ++ rest)).2 ++ rest := by
    rw [happend, hlex, List.cons_append]
  have hscan := Scans.lexeme hblank hcut hrest
  have hword : Lexeme.ofWord w = ⟨(Monkey.lexeme c' cs').1, .ofList (Monkey.lexeme c' cs').2⟩ := by
    rw [Lexeme.ofWord_eq hc, hlex, ← hc, String.ofList_toList]
  rw [happend, ← hword] at hscan
  rw [hc]
  exact hscan

theorem parts_space (c : Char) (cs : List Char) : Parts c (' ' :: cs) := by
  rintro d ⟨⟩
  exact ⟨rfl, fun h => absurd h.2 (by decide), fun h => absurd h.2 (by decide)⟩

/-- **Words with a space between any two of them are cut into these words.** -/
theorem lexemesOf_intercalate {ws : List String} (h : ∀ w ∈ ws, IsWord w) :
    lexemesOf (" ".intercalate ws) = ws.map .ofWord := by
  apply Scans.lexemesOf_eq
  induction ws with
  | nil => exact .nil
  | cons w ws ih =>
    obtain ⟨c, cs, hc, -⟩ := h w List.mem_cons_self
    have hws := ih fun v hv => h v (List.mem_cons_of_mem _ hv)
    cases ws with
    | nil =>
      have hscan : Scans (w.toList ++ []) [.ofWord w] := .word (h w List.mem_cons_self) hc nofun .nil
      rw [String.intercalate_singleton]
      rwa [List.append_nil] at hscan
    | cons v vs =>
      have hscan := Scans.word (h w List.mem_cons_self) hc (parts_space c _) (.blank rfl hws)
      rw [String.intercalate_cons_cons, String.toList_append, String.toList_append, List.append_assoc]
      exact hscan

/-! ## A text behind another -/

/-- The characters end every lexeme before them: there are none, or a newline comes first. -/
def EndsLexeme (cs : List Char) : Prop :=
  ∀ c ∈ cs.head?, c = '\n'

theorem takeWhile_append_of_endsLexeme {p : Char → Bool} (hp : p '\n' = false) (cs : List Char) {ds : List Char}
    (hds : EndsLexeme ds) : (cs ++ ds).takeWhile p = cs.takeWhile p := by
  induction cs with
  | nil =>
    cases ds with
    | nil => rfl
    | cons d ds =>
      obtain rfl := hds d rfl
      exact List.takeWhile_cons_of_neg (by simp [hp])
  | cons c cs ih =>
    by_cases hc : p c
    · rw [List.cons_append, List.takeWhile_cons_of_pos hc, List.takeWhile_cons_of_pos hc, ih]
    · rw [List.cons_append, List.takeWhile_cons_of_neg hc, List.takeWhile_cons_of_neg hc]

theorem lexeme_append_of_endsLexeme (c : Char) (cs : List Char) {ds : List Char} (hds : EndsLexeme ds) :
    lexeme c (cs ++ ds) = lexeme c cs := by
  have hpair : (cs ++ ds).head?.bind (TokenKind.pair? c) = cs.head?.bind (TokenKind.pair? c) := by
    cases cs with
    | cons e es => rfl
    | nil =>
      cases ds with
      | nil => rfl
      | cons d ds =>
        obtain rfl := hds d rfl
        rfl
  unfold lexeme
  rw [hpair, takeWhile_append_of_endsLexeme rfl cs hds, takeWhile_append_of_endsLexeme rfl cs hds]
  split
  · next k hk =>
    obtain ⟨d, hd, -⟩ := Option.bind_eq_some_iff.1 hk
    cases cs with
    | nil => cases hd
    | cons e es => rfl
  · rfl

/-- A lexeme is cut off from the front. -/
theorem lexeme_append_drop (c : Char) (cs : List Char) :
    c :: cs = (lexeme c cs).2 ++ (c :: cs).drop (lexeme c cs).2.length := by
  have hprefix : (lexeme c cs).2 <+: c :: cs := by
    unfold lexeme
    split
    · exact (List.prefix_cons_inj c).2 (List.take_prefix 1 cs)
    · split
      · exact (List.prefix_cons_inj c).2 List.nil_prefix
      · split
        · exact (List.prefix_cons_inj c).2 (List.takeWhile_prefix isLetter)
        · split
          · exact (List.prefix_cons_inj c).2 (List.takeWhile_prefix isDigit)
          · exact (List.prefix_cons_inj c).2 List.nil_prefix
  exact (List.prefix_iff_eq_append.1 hprefix).symm

theorem Scans.blanks {bs cs : List Char} {ls : List Lexeme} (hbs : ∀ b ∈ bs, isBlank b) (h : Scans cs ls) :
    Scans (bs ++ cs) ls := by
  induction bs with
  | nil => exact h
  | cons b bs ih => exact .blank (hbs b List.mem_cons_self) (ih fun d hd => hbs d (List.mem_cons_of_mem _ hd))

/-- What is left of a text is cut up in the same way if something stands behind it that ends every lexeme. -/
theorem scans_append {ds : List Char} {ls : List Lexeme} (hds : EndsLexeme ds) (h : Scans ds ls) (c : Cursor) :
    Scans (c.rest ++ ds) (c.toEnd.1.map Token.lexeme ++ ls) := by
  fun_induction Cursor.toEnd c with
  | case1 c next hk => exact .blanks (Cursor.isBlank_of_eof hk) h
  | case2 c next hk later ih =>
    have hskip := Cursor.rest_skipBlanks c
    cases hr : c.skipBlanks.rest with
    | nil => exact absurd ((Cursor.kind_read_eq_eof_iff c).2 (hskip ▸ hr)) hk
    | cons x xs =>
      obtain ⟨hlex, hrest⟩ := Cursor.read_of_skipBlanks hr
      have hx : isBlank x = false := Cursor.isBlank_of_skipBlanks hr
      have hcut : x :: (xs ++ ds) = (Monkey.lexeme x (xs ++ ds)).2 ++ (next.2.rest ++ ds) := by
        calc x :: (xs ++ ds)
          _ = (x :: xs) ++ ds := rfl
          _ = ((Monkey.lexeme x xs).2 ++ c.read.2.rest) ++ ds := by rw [hrest, ← lexeme_append_drop]
          _ = (Monkey.lexeme x (xs ++ ds)).2 ++ (next.2.rest ++ ds) := by
            rw [lexeme_append_of_endsLexeme x xs hds, List.append_assoc]
      have hscan := Scans.lexeme hx hcut ih
      rw [lexeme_append_of_endsLexeme x xs hds, ← hlex] at hscan
      rw [← List.takeWhile_append_dropWhile (p := isBlank) (l := c.rest), ← hskip, hr, List.append_assoc]
      exact .blanks (List.all_eq_true.1 List.all_takeWhile) hscan

/-- **The lexemes of a text with another one on the next line are those of both.** -/
theorem lexemesOf_lines (text more : String) : lexemesOf (text ++ "\n" ++ more) = lexemesOf text ++ lexemesOf more := by
  have hmore : Scans more.toList (lexemesOf more) := by
    have h := scans_append (show EndsLexeme [] from nofun) .nil (Cursor.ofText more)
    rwa [List.append_nil, List.append_nil] at h
  have hnewline : EndsLexeme ('\n' :: more.toList) := by
    rintro c ⟨⟩
    rfl
  have h := scans_append hnewline (.blank rfl hmore) (Cursor.ofText text)
  apply Scans.lexemesOf_eq
  rw [String.toList_append, String.toList_append, List.append_assoc]
  exact h

/-! ## Names and numerals -/

theorem TokenKind.pair?_eq_none {c : Char} (h : isLetter c ∨ isDigit c) (d : Char) : pair? c d = none := by
  have h₁ : c ≠ '=' := by rintro rfl; exact absurd h (by decide)
  have h₂ : c ≠ '!' := by rintro rfl; exact absurd h (by decide)
  simp [pair?, h₁, h₂]

theorem TokenKind.symbol?_eq_none {c : Char} (h : isLetter c ∨ isDigit c) : symbol? c = none := by
  unfold symbol?
  split <;> first | exact absurd h (by decide) | rfl

theorem lexeme_of_isLetter {c : Char} (h : isLetter c) (cs : List Char) :
    lexeme c cs = (.word (.ofList (c :: cs.takeWhile isLetter)), c :: cs.takeWhile isLetter) := by
  have hpair : cs.head?.bind (TokenKind.pair? c) = none :=
    Option.bind_eq_none_iff.2 fun d _ => TokenKind.pair?_eq_none (.inl h) d
  simp only [lexeme, hpair, TokenKind.symbol?_eq_none (.inl h), if_pos h]

theorem lexeme_of_isDigit {c : Char} (h : isDigit c) (cs : List Char) :
    lexeme c cs = (.int, c :: cs.takeWhile isDigit) := by
  have hpair : cs.head?.bind (TokenKind.pair? c) = none :=
    Option.bind_eq_none_iff.2 fun d _ => TokenKind.pair?_eq_none (.inr h) d
  simp only [lexeme, hpair, TokenKind.symbol?_eq_none (.inr h), not_isLetter_of_isDigit h, if_pos h, Bool.false_eq_true,
    if_false]

theorem isBlank_eq_false {c : Char} (h : isLetter c ∨ isDigit c) : isBlank c = false := by
  rw [Bool.eq_false_iff]
  intro hb
  simp only [isBlank, Bool.or_eq_true, decide_eq_true_eq] at hb
  rcases hb with ((rfl | rfl) | rfl) | rfl <;> exact absurd h (by decide)

theorem TokenKind.pair?_ne {c d : Char} {k : TokenKind} (h : pair? c d = some k) : k ≠ .ident ∧ k ≠ .int := by
  unfold pair? at h
  repeat' split at h
  all_goals cases h
  all_goals decide

theorem TokenKind.symbol?_ne {c : Char} {k : TokenKind} (h : symbol? c = some k) : k ≠ .ident ∧ k ≠ .int := by
  unfold symbol? at h
  split at h <;> cases h <;> decide

/-- Names, keywords and numerals begin with letters and digits. -/
theorem isLetter_or_isDigit_of_kind {c : Char} {cs : List Char}
    (h : (lexeme c cs).1 = .ident ∨ (lexeme c cs).1 = .int) : isLetter c ∨ isDigit c := by
  unfold lexeme at h
  split at h
  · next k hk =>
    obtain ⟨d, -, hd⟩ := Option.bind_eq_some_iff.1 hk
    have hne := TokenKind.pair?_ne hd
    exact h.elim (absurd · hne.1) (absurd · hne.2)
  · split at h
    · next k hk =>
      have hne := TokenKind.symbol?_ne hk
      exact h.elim (absurd · hne.1) (absurd · hne.2)
    · split at h
      · next hc => exact .inl hc
      · split at h
        · next hc => exact .inr hc
        · exact h.elim nofun nofun

theorem TokenKind.word_ne_int (s : String) : word s ≠ .int := by
  unfold word
  repeat' split
  all_goals nofun

/-- An integer token is a run of digits. -/
theorem lexeme_of_int {c : Char} {cs : List Char} (h : (lexeme c cs).1 = .int) :
    isDigit c ∧ (lexeme c cs).2 = c :: cs.takeWhile isDigit := by
  obtain hc | hc := isLetter_or_isDigit_of_kind (.inr h)
  · rw [lexeme_of_isLetter hc] at h
    exact absurd h (TokenKind.word_ne_int _)
  · exact ⟨hc, by rw [lexeme_of_isDigit hc]⟩

/-- An identifier is a run of letters that is not a keyword. -/
theorem lexeme_of_ident {c : Char} {cs : List Char} (h : (lexeme c cs).1 = .ident) :
    isLetter c ∧ (lexeme c cs).2 = c :: cs.takeWhile isLetter ∧ TokenKind.word (.ofList (lexeme c cs).2) = .ident := by
  obtain hc | hc := isLetter_or_isDigit_of_kind (.inl h)
  · rw [lexeme_of_isLetter hc] at h ⊢
    exact ⟨hc, rfl, h⟩
  · rw [lexeme_of_isDigit hc] at h
    cases h

/-- A word of characters of which the longest run is always cut off. -/
theorem isWord_of_run {p : Char → Bool} {kind : String → TokenKind} {w : String}
    (hp : ∀ {c}, p c → isBlank c = false ∧
      ∀ cs, lexeme c cs = (kind (.ofList (c :: cs.takeWhile p)), c :: cs.takeWhile p))
    (hne : w ≠ "") (h : ∀ c ∈ w.toList, p c) : IsWord w ∧ Lexeme.ofWord w = ⟨kind w, w⟩ := by
  cases hw : w.toList with
  | nil => exact absurd (String.toList_eq_nil_iff.1 hw) hne
  | cons c cs =>
    rw [hw] at h
    obtain ⟨hblank, hlex⟩ := hp (h c List.mem_cons_self)
    have hcs : cs.takeWhile p = cs := List.takeWhile_eq_self_iff.2 fun d hd => h d (List.mem_cons_of_mem _ hd)
    specialize hlex cs
    rw [hcs] at hlex
    refine ⟨⟨c, cs, hw, hblank, by rw [hlex]⟩, ?_⟩
    rw [Lexeme.ofWord_eq hw, hlex, ← hw, String.ofList_toList]

theorem isWord_of_letters {w : String} (hne : w ≠ "") (h : ∀ c ∈ w.toList, isLetter c) :
    IsWord w ∧ Lexeme.ofWord w = ⟨.word w, w⟩ :=
  isWord_of_run (fun hc => ⟨isBlank_eq_false (.inl hc), lexeme_of_isLetter hc⟩) hne h

theorem isWord_of_digits {w : String} (hne : w ≠ "") (h : ∀ c ∈ w.toList, isDigit c) :
    IsWord w ∧ Lexeme.ofWord w = ⟨.int, w⟩ :=
  @isWord_of_run isDigit (fun _ => .int) w (fun hc => ⟨isBlank_eq_false (.inr hc), lexeme_of_isDigit hc⟩) hne h

/-! ## The tokens of a text -/

theorem forall_mem_cons_takeWhile {p : Char → Bool} {x : Char} (hx : p x) (xs : List Char) :
    ∀ c ∈ x :: xs.takeWhile p, p c := by
  intro c hc
  obtain rfl | hc := List.mem_cons.1 hc
  · exact hx
  · exact List.all_eq_true.1 List.all_takeWhile c hc

/-- An integer token of a text is written with digits that stand next to each other in the text. -/
theorem digits_of_mem_lexemesOf {text : String} {l : Lexeme} (h : l ∈ lexemesOf text) (hk : l.kind = .int) :
    l.literal ≠ "" ∧ (∀ c ∈ l.literal.toList, isDigit c) ∧ l.literal.toList <:+: text.toList := by
  obtain ⟨t, ht, rfl⟩ := List.mem_map.1 h
  obtain ⟨x, xs, hsuffix, -, hlex⟩ := Cursor.exists_suffix_of_mem_toEnd ht
  rw [hlex] at hk ⊢
  obtain ⟨hx, hdigits⟩ := lexeme_of_int hk
  simp only [hdigits, String.toList_ofList]
  refine ⟨by simp [← String.toList_eq_nil_iff], ?_, ?_⟩
  · exact forall_mem_cons_takeWhile hx xs
  · exact (List.IsPrefix.isInfix ((List.prefix_cons_inj x).2 (List.takeWhile_prefix isDigit))).trans hsuffix.isInfix

/-- A name in a text is a run of letters that is not a keyword. -/
theorem letters_of_mem_lexemesOf {text : String} {l : Lexeme} (h : l ∈ lexemesOf text) (hk : l.kind = .ident) :
    l.literal ≠ "" ∧ (∀ c ∈ l.literal.toList, isLetter c) ∧ TokenKind.word l.literal = .ident := by
  obtain ⟨t, ht, rfl⟩ := List.mem_map.1 h
  obtain ⟨x, xs, -, -, hlex⟩ := Cursor.exists_suffix_of_mem_toEnd ht
  rw [hlex] at hk ⊢
  obtain ⟨hx, hletters, hword⟩ := lexeme_of_ident hk
  rw [hletters] at hword ⊢
  refine ⟨by simp [← String.toList_eq_nil_iff], ?_, hword⟩
  simpa only [String.toList_ofList] using forall_mem_cons_takeWhile hx xs

end Monkey
