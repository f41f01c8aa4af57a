import Mathlib.Data.List.Induction
import Monkey.Proofs.Token.Longest

/-!
# Reading and counting

A `Reader` goes over a text one character at a time. It keeps the current character and counts as it goes: how many
characters lie behind, where the next one is taken from, and the line and column, where a newline counts only when it is
left.

* `Reader.At.next`: it hands out the tokens that a cursor reads and gets to where the cursor gets to.
* `Reader.Reached.next`: it takes a character only where there is a current one, so it does not run beyond the end.
* `Reader.places_exact`: at every moment the counts are right, and so are the places of all tokens, the end token too.
-/

namespace Monkey

/-- The place that follows some characters: one line further for each newline among them, and one column further for
each character behind the last newline. -/
def Position.behind (cs : List Char) : Position :=
  ⟨1 + cs.count '\n', 1 + (cs.reverse.takeWhile (· ≠ '\n')).length⟩

theorem Position.after_start (cs : List Char) : start.after cs = behind cs := by
  induction cs using List.reverseRecOn with
  | nil => rfl
  | append_singleton cs c ih =>
    rw [after_append, ih, after_cons, after_nil, next, behind, behind, List.count_append, List.reverse_append]
    by_cases hc : c = '\n'
    · subst hc
      rfl
    · rw [if_neg hc, List.count_singleton]
      simp [hc, Nat.add_assoc]

/-- A step for each character, as long as there are so many. -/
theorem Cursor.offset_advance {c : Cursor} {n : Nat} (hn : n ≤ c.rest.length) :
    (c.advance n).offset = c.offset + n := by
  induction n generalizing c with
  | zero => rfl
  | succ n ih =>
    obtain ⟨x, xs, hr⟩ := List.exists_cons_of_ne_nil (List.ne_nil_of_length_pos (Nat.zero_lt_of_lt hn))
    have hstep := step_cons hr
    have hn' : n ≤ c.step.rest.length := by
      simp only [hr, List.length_cons] at hn
      simp only [hstep]
      omega
    have hoffset : c.step.offset = c.offset + 1 := by rw [hstep]
    rw [advance, ih hn', hoffset]
    omega

/-- A reader of a text. -/
structure Reader where
  source : List Char
  /-- How many characters lie behind the current one. -/
  offset : Nat
  /-- How many lie behind the one that is taken next. -/
  ahead : Nat
  /-- The current character; there is none at the end. -/
  current? : Option Char
  line : Nat
  column : Nat

namespace Reader

/-! ## The reader -/

/-- Take the next character. -/
def readChar (r : Reader) : Reader :=
  { r with
    offset := r.ahead
    ahead := r.ahead + 1
    current? := r.source[r.ahead]?
    line := if r.current? = some '\n' then r.line + 1 else r.line
    column := if r.current? = some '\n' then 1 else r.column + 1 }

/-- The reader that has taken the first character of a text. -/
def ofText (text : String) : Reader :=
  readChar ⟨text.toList, 0, 0, none, 1, 0⟩

/-- How many characters can be taken, the current one among them. -/
def left (r : Reader) : Nat :=
  (r.source.length - r.ahead) + r.current?.toList.length

theorem left_readChar_lt {r : Reader} {c : Char} (h : r.current? = some c) : r.readChar.left < r.left := by
  unfold left readChar
  rw [h]
  by_cases hahead : r.ahead < r.source.length
  · rw [List.getElem?_eq_getElem hahead]
    simp only [Option.toList_some, List.length_singleton]
    omega
  · rw [List.getElem?_eq_none (Nat.not_lt.1 hahead)]
    simp only [Option.toList_some, Option.toList_none, List.length_singleton, List.length_nil]
    omega

/-- Take characters as long as the current one satisfies `p`. -/
def readWhile (p : Char → Bool) (r : Reader) : Reader :=
  match _h : r.current? with
  | none => r
  | some c => if p c then r.readChar.readWhile p else r
termination_by r.left
decreasing_by exact left_readChar_lt _h

/-- The characters that have been taken since another moment. -/
def since (r start : Reader) : List Char :=
  (r.source.take r.offset).drop start.offset

/-- The next token, and the reader behind it. -/
def next (r : Reader) : Token × Reader :=
  let first := r.readWhile isBlank
  let token (kind : TokenKind) (literal : List Char) : Token := ⟨kind, .ofList literal, ⟨first.line, first.column⟩⟩
  match first.current? with
  | none => (token .eof [], first)
  | some c =>
    match first.source[first.ahead]?.bind (TokenKind.pair? c) with
    | some kind => (token kind (c :: first.source[first.ahead]?.toList), first.readChar.readChar)
    | none =>
      match TokenKind.symbol? c with
      | some kind => (token kind [c], first.readChar)
      | none =>
        if isLetter c then
          let last := first.readWhile isLetter
          (token (.word (.ofList (last.since first))) (last.since first), last)
        else if isDigit c then
          let last := first.readWhile isDigit
          (token .int (last.since first), last)
        else (token .illegal [c], first.readChar)

/-- The reader after so many tokens. -/
def after (r : Reader) : Nat → Reader
  | 0 => r
  | n + 1 => r.next.2.after n

/-! ## The reader and the cursor -/

/-- The reader has got to where the cursor stands in the text. -/
structure At (text : List Char) (r : Reader) (c : Cursor) : Prop where
  source : r.source = text
  offset : r.offset = c.offset
  ahead : r.ahead = c.offset + 1
  current : r.current? = c.rest.head?
  place : (⟨r.line, r.column⟩ : Position) = c.position
  rest : c.rest = text.drop c.offset
  offset_le : c.offset ≤ text.length
  position : c.position = Position.start.after (text.take c.offset)

namespace At

variable {text : List Char} {r : Reader} {c : Cursor} {x : Char} {xs : List Char}

theorem start (text : String) : At text.toList (ofText text) (Cursor.ofText text) where
  source := rfl
  offset := rfl
  ahead := rfl
  current := List.head?_eq_getElem?.symm
  place := rfl
  rest := rfl
  offset_le := Nat.zero_le _
  position := rfl

/-- The character that is taken next. -/
theorem getElem?_ahead (h : At text r c) (hr : c.rest = x :: xs) : r.source[r.ahead]? = xs.head? := by
  have hdrop : xs = text.drop (c.offset + 1) := by
    rw [← List.drop_drop, ← h.rest, hr, List.drop_one, List.tail_cons]
  rw [h.source, h.ahead, hdrop, List.head?_drop]

/-- Where there is a current character, one more is taken and the cursor makes a step. -/
theorem readChar (h : At text r c) (hr : c.rest = x :: xs) : At text r.readChar c.step := by
  have hx : text[c.offset]? = some x := by
    rw [← List.head?_drop, ← h.rest, hr, List.head?_cons]
  have hcurrent : r.current? = some x := by rw [h.current, hr, List.head?_cons]
  rw [Cursor.step_cons hr]
  refine ⟨h.source, h.ahead, congrArg (· + 1) h.ahead, h.getElem?_ahead hr, ?_, ?_, ?_, ?_⟩
  · rw [← h.place, Reader.readChar, hcurrent, Position.next]
    by_cases hnewline : x = '\n'
    · simp [hnewline]
    · simp [hnewline]
  · rw [← List.drop_drop, ← h.rest, hr, List.drop_one, List.tail_cons]
  · exact (List.getElem?_eq_some_iff.1 hx).1
  · rw [List.take_add_one, hx, Position.after_append, ← h.position]
    rfl

/-- A run of characters is taken one by one. -/
theorem readWhile (h : At text r c) (p : Char → Bool) :
    At text (r.readWhile p) (c.advance (c.rest.takeWhile p).length) := by
  generalize hcs : c.rest = cs
  induction cs generalizing r c with
  | nil =>
    have hcurrent : r.current? = none := by rw [h.current, hcs, List.head?_nil]
    unfold Reader.readWhile
    split
    next => exact h
    next hd => cases hcurrent.symm.trans hd
  | cons x xs ih =>
    have hcurrent : r.current? = some x := by rw [h.current, hcs, List.head?_cons]
    have hstep : c.step.rest = xs := by rw [Cursor.step_cons hcs]
    unfold Reader.readWhile
    split
    next hd => cases hcurrent.symm.trans hd
    next d hd =>
      cases hcurrent.symm.trans hd
      by_cases hx : p x
      · rw [if_pos hx, List.takeWhile_cons_of_pos hx, List.length_cons, Cursor.advance]
        exact ih (h.readChar hcs) hstep
      · rw [if_neg hx, List.takeWhile_cons_of_neg hx]
        exact h

/-- What has been taken since another moment is what the cursor has been moved over. -/
theorem since_eq {last : Reader} {n : Nat} (h : At text r c) (hlast : At text last (c.advance n))
    (hn : n ≤ c.rest.length) : last.since r = c.rest.take n := by
  rw [since, hlast.source, hlast.offset, h.offset, h.rest, Cursor.offset_advance hn, List.drop_take,
    Nat.add_sub_cancel_left]

/-- The characters of one class from the current one on. -/
theorem since_readWhile (h : At text r c) (hr : c.rest = x :: xs) {p : Char → Bool} (hx : p x) :
    (r.readWhile p).since r = x :: xs.takeWhile p ∧
      At text (r.readWhile p) (c.advance (x :: xs.takeWhile p).length) := by
  have hlast := h.readWhile p
  rw [hr, List.takeWhile_cons_of_pos hx] at hlast
  have hpre : x :: xs.takeWhile p <+: c.rest := by
    rw [hr]
    exact (List.prefix_cons_inj x).2 (List.takeWhile_prefix p)
  exact ⟨(h.since_eq hlast hpre.length_le).trans (List.prefix_iff_eq_take.1 hpre).symm, hlast⟩

/-- **A reader hands out the token that a cursor reads** at the same place, and gets to where the cursor gets to. -/
theorem next (h : At text r c) : r.next.1 = c.read.1 ∧ At text r.next.2 c.read.2 := by
  have hfirst := h.readWhile isBlank
  rw [← Cursor.skipBlanks] at hfirst
  unfold Reader.next
  rw [Cursor.read]
  generalize r.readWhile isBlank = first at hfirst
  generalize c.skipBlanks = c' at hfirst
  cases hr : c'.rest with
  | nil =>
    have hcurrent : first.current? = none := by rw [hfirst.current, hr, List.head?_nil]
    simp only [hcurrent, hfirst.place]
    rw [Cursor.lex, hr]
    exact ⟨rfl, hfirst⟩
  | cons x xs =>
    have hcurrent : first.current? = some x := by rw [hfirst.current, hr, List.head?_cons]
    have hahead := hfirst.getElem?_ahead hr
    have hone := hfirst.readChar hr
    simp only [hcurrent, hahead, hfirst.place]
    rw [Cursor.lex, hr]
    dsimp only
    unfold lexeme
    cases hpair : xs.head?.bind (TokenKind.pair? x) with
    | some kind =>
      obtain ⟨d, hd, -⟩ := Option.bind_eq_some_iff.1 hpair
      obtain ⟨ds, rfl⟩ := List.head?_eq_some_iff.1 hd
      have hrest : c'.step.rest = d :: ds := by rw [Cursor.step_cons hr]
      exact ⟨rfl, hone.readChar hrest⟩
    | none =>
      dsimp only
      cases hsymbol : TokenKind.symbol? x with
      | some kind => exact ⟨rfl, hone⟩
      | none =>
        dsimp only
        by_cases hletter : isLetter x
        · obtain ⟨hsince, hlast⟩ := hfirst.since_readWhile hr hletter
          rw [if_pos hletter, if_pos hletter, hsince]
          exact ⟨rfl, hlast⟩
        · rw [if_neg hletter, if_neg hletter]
          by_cases hdigit : isDigit x
          · obtain ⟨hsince, hlast⟩ := hfirst.since_readWhile hr hdigit
            rw [if_pos hdigit, if_pos hdigit, hsince]
            exact ⟨rfl, hlast⟩
          · rw [if_neg hdigit, if_neg hdigit]
            exact ⟨rfl, hone⟩

theorem after (h : At text r c) {s : Supply} (hs : s.cursor = c) (n : Nat) :
    At text (r.after n) (s.after n).cursor := by
  induction n generalizing r c s with
  | zero => exact hs ▸ h
  | succ n ih => exact ih h.next.2 (congrArg (·.read.2) hs)

end At

/-! ## Every moment -/

/-- What becomes of a reader that takes characters only where there is a current one. -/
inductive Reached (text : String) : Reader → Prop
  | start : Reached text (ofText text)
  | readChar {r} : Reached text r → r.current? ≠ none → Reached text r.readChar

namespace Reached

variable {text : String} {r : Reader}

theorem readWhile (h : Reached text r) (p : Char → Bool) : Reached text (r.readWhile p) := by
  fun_induction Reader.readWhile p r with
  | case1 r hr => exact h
  | case2 r c hr hc ih => exact ih (h.readChar (hr ▸ Option.some_ne_none c))
  | case3 r c hr hc => exact h

/-- **A token is taken without running beyond the end.** -/
theorem next (h : Reached text r) : Reached text r.next.2 := by
  have hfirst := h.readWhile isBlank
  unfold Reader.next
  generalize r.readWhile isBlank = first at hfirst
  dsimp only
  split
  next => exact hfirst
  next c hc =>
    have hone := hfirst.readChar (hc ▸ Option.some_ne_none c)
    split
    next kind hpair =>
      obtain ⟨d, hd, -⟩ := Option.bind_eq_some_iff.1 hpair
      exact hone.readChar fun hnone => Option.some_ne_none d (hd.symm.trans hnone)
    next =>
      split
      next => exact hone
      next =>
        split
        next => exact hfirst.readWhile isLetter
        next =>
          split
          next => exact hfirst.readWhile isDigit
          next => exact hone

theorem after (h : Reached text r) (n : Nat) : Reached text (r.after n) := by
  induction n generalizing r with
  | zero => exact h
  | succ n ih => exact ih h.next

/-- There is a cursor at the same place. -/
theorem exists_at (h : Reached text r) : ∃ c, At text.toList r c := by
  induction h with
  | start => exact ⟨_, .start text⟩
  | readChar _ hne ih =>
    obtain ⟨c, hc⟩ := ih
    cases hr : c.rest with
    | nil => exact absurd (hc.current.trans (by rw [hr, List.head?_nil])) hne
    | cons x xs => exact ⟨_, hc.readChar hr⟩

end Reached

/-! ## Places -/

/-- The token stands in the text behind so many characters. The end token stands behind all of them. -/
structure Stands (text : List Char) (k : Nat) (t : Token) : Prop where
  literal : t.literal.toList <+: text.drop k
  position : t.position = .behind (text.take k)
  final : t.kind = .eof → k = text.length

/-- The next token stands behind the next blanks, and the reader gets to where it ends. -/
theorem At.stands {text : List Char} {r : Reader} {c : Cursor} (h : At text r c) :
    ∃ k, r.offset ≤ k ∧ (∀ b ∈ (text.take k).drop r.offset, isBlank b) ∧ Stands text k r.next.1 ∧
      r.next.2.offset = k + r.next.1.literal.toList.length := by
  have hblanks := (List.takeWhile_prefix (p := isBlank) (l := c.rest)).length_le
  have hfirst := h.readWhile isBlank
  have hoffset : c.skipBlanks.offset = c.offset + (c.rest.takeWhile isBlank).length := Cursor.offset_advance hblanks
  rw [← Cursor.skipBlanks] at hfirst
  have hposition : c.skipBlanks.position = .behind (text.take c.skipBlanks.offset) := by
    rw [hfirst.position, Position.after_start]
  have hle : r.offset ≤ c.skipBlanks.offset := by
    rw [h.offset, hoffset]
    omega
  refine ⟨c.skipBlanks.offset, hle, ?_, ?_⟩
  · have hbetween : (text.take c.skipBlanks.offset).drop r.offset = c.rest.takeWhile isBlank := by
      rw [h.offset, hoffset, List.drop_take, Nat.add_sub_cancel_left, ← h.rest]
      exact (List.prefix_iff_eq_take.1 (List.takeWhile_prefix isBlank)).symm
    rw [hbetween]
    exact List.all_eq_true.1 List.all_takeWhile
  · obtain ⟨htoken, hnext⟩ := h.next
    rw [htoken, hnext.offset, Cursor.read, Cursor.lex]
    cases hr : c.skipBlanks.rest with
    | nil =>
      have hend : c.skipBlanks.offset = text.length := by
        have hlength := congrArg List.length (hfirst.rest.symm.trans hr)
        have hle := hfirst.offset_le
        simp only [List.length_drop, List.length_nil] at hlength
        omega
      exact ⟨⟨List.nil_prefix, hposition, fun _ => hend⟩, rfl⟩
    | cons x xs =>
      have hpre : (lexeme x xs).2 <+: c.skipBlanks.rest := hr ▸ ⟨_, (lexeme_append_drop x xs).symm⟩
      dsimp only
      refine ⟨⟨?_, hposition, fun hk => absurd hk (Cursor.kind_lexeme_ne_eof x xs)⟩, ?_⟩
      · rw [String.toList_ofList, ← hfirst.rest]
        exact hpre
      · rw [String.toList_ofList]
        exact Cursor.offset_advance hpre.length_le

/-- **All places are exact.** Whenever a reader has taken a character, the next one is taken from right behind it; it
has not run beyond the end of the text; the current character is the one that it has got to, and the line and column are
those of that character. It is after any number of tokens where a supply is that has handed out as many, and the next
token, be it the end token once more, is placed where its first character stands. -/
theorem places_exact (text : String) :
    (∀ r, Reached text r → r.ahead = r.offset + 1 ∧ r.offset ≤ text.toList.length ∧
      r.current? = text.toList[r.offset]? ∧
        (⟨r.line, r.column⟩ : Position) = .behind (text.toList.take r.offset)) ∧
      ∀ n, let r := (ofText text).after n
        Reached text r ∧ At text.toList r ((Supply.ofText text).after n).cursor ∧
          r.next.1 = (Supply.ofText text).token n ∧
          ∃ k, r.offset ≤ k ∧ (∀ b ∈ (text.toList.take k).drop r.offset, isBlank b) ∧
            Stands text.toList k ((Supply.ofText text).token n) ∧
            r.next.2.offset = k + ((Supply.ofText text).token n).literal.toList.length := by
  refine ⟨fun r hr => ?_, fun n => ?_⟩
  · obtain ⟨c, hc⟩ := hr.exists_at
    refine ⟨hc.ahead.trans (congrArg (· + 1) hc.offset.symm), hc.offset ▸ hc.offset_le, ?_, ?_⟩
    · rw [hc.current, hc.rest, List.head?_drop, hc.offset]
    · rw [hc.place, hc.position, Position.after_start, hc.offset]
  · have hat := (At.start text).after (s := Supply.ofText text) rfl n
    have htoken : ((ofText text).after n).next.1 = (Supply.ofText text).token n := hat.next.1
    refine ⟨Reached.start.after n, hat, htoken, ?_⟩
    rw [← htoken]
    exact hat.stands

end Reader

end Monkey
