import Monkey.Editor.Server
import Monkey.Proofs.Token.Reader
import Monkey.Text.Lines

/-!
# Places in an editor

An editor breaks lines at more characters than a newline and counts UTF-16 units, two for a character outside the first
plane, so it may count on from a place in another way than positions of tokens are counted.

* `FindsWords`: how an editor is known to search for the word at a place.
* `FindsWords.wordAt_after`: at the place of a name, as the editor counts, the word is that name.
* `after_eq_ofPosition_iff`: that place is the position of the name exactly if the only line ends before it are newlines
  and no character before it on its line is counted twice.
-/

namespace Monkey.Editor

/-! ## Counting as an editor does -/

/-- The characters that end a line of a document. -/
def lineEnds : List Char :=
  ['\n', '\r', '\x0b', '\x0c', '\x1c', '\x1d', '\x1e', '\u0085', '\u2028', '\u2029']

/-- A character ends a line of a document where `rest` follows; a carriage return and a newline together end one. -/
def endsLine (c : Char) (rest : List Char) : Bool :=
  lineEnds.contains c && !(c = '\r' && rest.head? = some '\n')

theorem endsLine_newline (rest : List Char) : endsLine '\n' rest := rfl

/-- The lines of a document, each with what ends it. -/
def documentLines (text : List Char) : List (List Char) :=
  cutLines endsLine text

/-- How many UTF-16 units a character takes. -/
def units (c : Char) : Nat :=
  if c.toNat < 0x10000 then 1 else 2

/-- How many UTF-16 units a line takes. -/
def width : List Char → Nat
  | [] => 0
  | c :: cs => units c + width cs

/-- The first place of a document. -/
def Place.first : Place :=
  ⟨0, 0⟩

/-- The place behind a character, where `rest` follows. -/
def Place.next (p : Place) (c : Char) (rest : List Char) : Place :=
  if endsLine c rest then ⟨p.line + 1, 0⟩ else ⟨p.line, p.character + units c⟩

/-- The place behind some characters, where `rest` follows. -/
def Place.after (p : Place) : List Char → List Char → Place
  | [], _ => p
  | c :: cs, rest => (p.next c (cs ++ rest)).after cs rest

/-- The first line of a document. -/
def firstLine (cs : List Char) : List Char :=
  (documentLines cs).head?.getD []

section

variable {c : Char} {cs rest w : List Char}

/-- The lines of a document together are the document. -/
theorem flatten_documentLines (cs : List Char) : (documentLines cs).flatten = cs :=
  flatten_cutLines _ cs

theorem documentLines_cons_of_endsLine (h : endsLine c cs) : documentLines (c :: cs) = [c] :: documentLines cs := by
  rw [documentLines, cutLines, if_pos h, documentLines]

theorem documentLines_cons (h : endsLine c cs = false) :
    documentLines (c :: cs) = (c :: firstLine cs) :: (documentLines cs).tail := by
  rw [firstLine, documentLines, documentLines, cutLines, if_neg (by rw [h]; exact Bool.false_ne_true)]
  cases cutLines endsLine cs <;> rfl

theorem firstLine_cons (h : endsLine c cs = false) : firstLine (c :: cs) = c :: firstLine cs := by
  rw [firstLine, documentLines_cons h]
  rfl

/-- A run of characters that end no line is at the front of the first line. -/
theorem firstLine_append (hw : ∀ c ∈ w, lineEnds.contains c = false) (rest : List Char) :
    firstLine (w ++ rest) = w ++ firstLine rest := by
  induction w with
  | nil => rfl
  | cons c cs ih =>
    obtain ⟨hc, hcs⟩ := List.forall_mem_cons.1 hw
    have hends : endsLine c (cs ++ rest) = false := by rw [endsLine, hc, Bool.false_and]
    rw [List.cons_append, firstLine_cons hends, ih hcs, List.cons_append]

/-- A document begins with its first line. -/
theorem firstLine_isPrefix (cs : List Char) : firstLine cs <+: cs := by
  have hflatten := flatten_documentLines cs
  rw [firstLine]
  cases h : documentLines cs with
  | nil => exact List.nil_prefix
  | cons line lines =>
    rw [h] at hflatten
    exact ⟨lines.flatten, hflatten⟩

/-- **The line that one gets to behind some characters**: what stands on it before and behind the place. -/
theorem exists_line (cs : List Char) (hrest : rest ≠ []) :
    ∃ k before l, cs = before ++ l ∧ '\n' ∉ l ∧ (k = 0 → before = []) ∧
      (documentLines (cs ++ rest))[k]? = some (l ++ firstLine rest) ∧
      ∀ p : Place, p.after cs rest = ⟨p.line + k, (if k = 0 then p.character else 0) + width l⟩ := by
  induction cs with
  | nil =>
    have hlines : documentLines rest ≠ [] := by
      intro hnil
      exact hrest (by rw [← flatten_documentLines rest, hnil]; rfl)
    obtain ⟨line, lines, hlines⟩ := List.exists_cons_of_ne_nil hlines
    exact ⟨0, [], [], rfl, List.not_mem_nil, fun _ => rfl, by simp [firstLine, hlines], fun p => rfl⟩
  | cons c cs ih =>
    obtain ⟨k, before, l, rfl, hl, hbefore, hline, hplace⟩ := ih
    by_cases hends : endsLine c (before ++ l ++ rest)
    · refine ⟨k + 1, c :: before, l, rfl, hl, nofun, ?_, fun p => ?_⟩
      · rw [List.cons_append, documentLines_cons_of_endsLine hends, List.getElem?_cons_succ, hline]
      · rw [Place.after, Place.next, if_pos hends, hplace, if_neg (Nat.succ_ne_zero k), ite_self, Nat.add_assoc,
          Nat.add_comm 1]
    rw [Bool.not_eq_true] at hends
    have hnewline : c ≠ '\n' := by
      rintro rfl
      exact Bool.false_ne_true (hends.symm.trans (endsLine_newline _))
    have hnext (p : Place) : p.next c (before ++ l ++ rest) = ⟨p.line, p.character + units c⟩ :=
      if_neg (by rw [hends]; exact Bool.false_ne_true)
    have hcut := documentLines_cons hends
    cases k with
    | zero =>
      obtain rfl := hbefore rfl
      refine ⟨0, [], c :: l, rfl, ?_, fun _ => rfl, ?_, fun p => ?_⟩
      · exact List.not_mem_cons_of_ne_of_not_mem (Ne.symm hnewline) hl
      · have hfirst : firstLine ([] ++ l ++ rest) = l ++ firstLine rest := by
          rw [firstLine, List.head?_eq_getElem?, hline]
          rfl
        rw [List.cons_append, hcut, hfirst]
        rfl
      · rw [Place.after, hnext, hplace, if_pos rfl, if_pos rfl, width, Nat.add_assoc]
    | succ k =>
      refine ⟨k + 1, c :: before, l, rfl, hl, nofun, ?_, fun p => ?_⟩
      · rw [List.cons_append, hcut, List.getElem?_cons_succ, List.getElem?_tail, hline]
      · rw [Place.after, hnext, hplace, if_neg (Nat.succ_ne_zero k), if_neg (Nat.succ_ne_zero k)]

end

/-! ## The word at a place -/

/-- A character of a word. -/
def isWordChar (c : Char) : Bool :=
  c.isAlpha || c.isDigit || c = '_'

/-- How an editor searches for the word at a place: it is the run of word characters around the place, and behind the
last line there is none. Nothing is said of a place behind a newline or behind the end of its line. -/
structure FindsWords (wordAt : String → Place → String) : Prop where
  around {text : String} (n : Nat) (pre left right post : List Char)
    (hline : (documentLines text.toList)[n]? = some (pre ++ left ++ (right ++ post))) (hnewline : '\n' ∉ pre)
    (hword : ∀ c ∈ left ++ right, isWordChar c) (hbefore : ∀ b ∈ pre.getLast?, isWordChar b = false)
    (hbehind : ∀ d ∈ post.head?, isWordChar d = false) :
    wordAt text ⟨n, width (pre ++ left)⟩ = .ofList (left ++ right)
  behind {text : String} {n : Nat} (character : Nat) (hlines : (documentLines text.toList).length ≤ n) :
    wordAt text ⟨n, character⟩ = ""

/-- How many characters of a line begin before a number of units. -/
def charactersBefore : Nat → List Char → Nat
  | 0, _ => 0
  | _ + 1, [] => 0
  | n + 1, c :: cs => charactersBefore (n + 1 - units c) cs + 1

/-- The word characters before a place and those behind it. -/
def wordAround (text : String) (place : Place) : String :=
  match (documentLines text.toList)[place.line]? with
  | none => ""
  | some line =>
    let k := charactersBefore place.character line
    .ofList (((line.take k).reverse.takeWhile isWordChar).reverse ++ (line.drop k).takeWhile isWordChar)

section

variable {pre left right post : List Char}

/-- Every character takes up at least one unit. -/
theorem units_pos (c : Char) : 0 < units c := by
  rw [units]
  split <;> decide

/-- So many characters stand before so many units. -/
theorem charactersBefore_width (pre post : List Char) : charactersBefore (width pre) (pre ++ post) = pre.length := by
  induction pre with
  | nil => cases post <;> rfl
  | cons c cs ih =>
    have hpos := units_pos c
    obtain ⟨n, hn⟩ : ∃ n, width (c :: cs) = n + 1 := ⟨units c + width cs - 1, by rw [width]; omega⟩
    have hrest : n + 1 - units c = width cs := by rw [width] at hn; omega
    rw [hn, List.cons_append, charactersBefore, hrest, ih, List.length_cons]

/-- A run of word characters ends before a character of no word. -/
theorem takeWhile_isWordChar (hright : ∀ c ∈ right, isWordChar c) (hpost : ∀ d ∈ post.head?, isWordChar d = false) :
    (right ++ post).takeWhile isWordChar = right := by
  have hstop : post.takeWhile isWordChar = [] :=
    takeWhile_eq_nil_of_head fun d hd => Bool.eq_false_iff.1 (hpost d hd)
  rw [List.takeWhile_append_of_pos hright, hstop, List.append_nil]

/-- There is a way to search for words as an editor does. -/
theorem findsWords_wordAround : FindsWords wordAround where
  around {text} n pre left right post hline _ hword hbefore hbehind := by
    obtain ⟨hleft, hright⟩ := List.forall_mem_append.1 hword
    have hback : ((pre ++ left).reverse.takeWhile isWordChar).reverse = left := by
      rw [List.reverse_append, takeWhile_isWordChar, List.reverse_reverse]
      · exact fun c hc => hleft c (List.mem_reverse.1 hc)
      · exact fun b hb => hbefore b (by rwa [List.getLast?_eq_head?_reverse])
    rw [wordAround, hline]
    dsimp only
    rw [charactersBefore_width, List.take_left, List.drop_left, hback, takeWhile_isWordChar hright hbehind]
  behind {text n} character hlines := by
    rw [wordAround, List.getElem?_eq_none hlines]

end

section

variable {wordAt : String → Place → String} {w pre rest : List Char}

/-- A letter of a name does not end a line. -/
theorem lineEnds_of_isLetter {c : Char} (h : isLetter c) : lineEnds.contains c = false := by
  have hends : lineEnds.all (!isLetter ·) := by decide
  rw [Bool.eq_false_iff]
  intro hc
  have hnot := List.all_eq_true.1 hends c (List.contains_iff_mem.1 hc)
  rw [h] at hnot
  cases hnot

/-- A letter of a name is a character of a word. -/
theorem isWordChar_of_isLetter {c : Char} (h : isLetter c) : isWordChar c := by
  rw [isLetter, Bool.or_eq_true] at h
  rcases h with h | h <;> simp [isWordChar, h]

/-- **At the place of a word, as the editor counts, that word is found.** -/
theorem FindsWords.wordAt_after {text : String} (hwords : FindsWords wordAt) (htext : text.toList = pre ++ w ++ rest)
    (hne : w ≠ []) (hw : ∀ c ∈ w, isLetter c) (hpre : ∀ b ∈ pre.getLast?, isWordChar b = false)
    (hrest : ∀ d ∈ rest.head?, isWordChar d = false) :
    wordAt text (Place.first.after pre (w ++ rest)) = .ofList w := by
  have hbehind : w ++ rest ≠ [] := fun h => hne (List.append_eq_nil_iff.1 h).1
  obtain ⟨k, before, l, hsplit, hl, -, hline, hplace⟩ := exists_line pre hbehind
  have hplace : Place.first.after pre (w ++ rest) = ⟨k, width (l ++ [])⟩ := by
    rw [hplace, Place.first, ite_self, Nat.zero_add, Nat.zero_add, List.append_nil]
  have hlast : ∀ b ∈ l.getLast?, isWordChar b = false := by
    intro b hb
    refine hpre b ?_
    rw [hsplit, List.getLast?_append, Option.mem_def.1 hb]
    rfl
  have hnext : ∀ d ∈ (firstLine rest).head?, isWordChar d = false := by
    obtain ⟨later, hlater⟩ := firstLine_isPrefix rest
    intro d hd
    refine hrest d ?_
    rw [← hlater, List.head?_append, Option.mem_def.1 hd]
    rfl
  rw [hplace]
  refine hwords.around k l [] w (firstLine rest) ?_ hl (fun c hc => isWordChar_of_isLetter (hw c hc)) hlast hnext
  rw [htext, List.append_assoc, hline, firstLine_append fun c hc => lineEnds_of_isLetter (hw c hc), List.append_nil]

end

/-! ## The place of a position -/

/-- Where `rest` follows, the only line ends are newlines, some of them perhaps behind a carriage return. -/
def hasPlainLines : List Char → List Char → Bool
  | [], _ => true
  | c :: cs, rest => (c = '\n' || !endsLine c (cs ++ rest)) && hasPlainLines cs rest

/-- The characters behind the last newline, the last one first. -/
def sinceNewline (cs : List Char) : List Char :=
  cs.reverse.takeWhile (· ≠ '\n')

/-- Where `rest` follows, an editor counts the lines and the characters on the last one as positions are counted: the
only line ends are newlines, and no character behind the last of them takes two units. -/
def countsAlike (cs rest : List Char) : Bool :=
  hasPlainLines cs rest && (sinceNewline cs).all (units · = 1)

section

variable {c : Char} {cs rest : List Char}

theorem Place.after_concat (p : Place) (cs : List Char) (c : Char) (rest : List Char) :
    p.after (cs ++ [c]) rest = (p.after cs (c :: rest)).next c rest := by
  induction cs generalizing p with
  | nil => rfl
  | cons d ds ih => rw [List.cons_append, Place.after, Place.after, ih, List.append_assoc, List.singleton_append]

theorem hasPlainLines_concat (cs : List Char) (c : Char) (rest : List Char) :
    hasPlainLines (cs ++ [c]) rest = (hasPlainLines cs (c :: rest) && (c = '\n' || !endsLine c rest)) := by
  induction cs with
  | nil => rw [List.nil_append, hasPlainLines, hasPlainLines, hasPlainLines, List.nil_append, Bool.and_comm]
  | cons d ds ih =>
    rw [List.cons_append, hasPlainLines, hasPlainLines, ih, List.append_assoc, List.singleton_append, Bool.and_assoc]

theorem sinceNewline_concat (cs : List Char) (c : Char) :
    sinceNewline (cs ++ [c]) = if c = '\n' then [] else c :: sinceNewline cs := by
  rw [sinceNewline, List.reverse_append, List.reverse_singleton, List.singleton_append, List.takeWhile_cons]
  by_cases hc : c = '\n' <;> simp [hc, sinceNewline]

/-- How the place that an editor counts to compares with the position. -/
structure Compares (cs rest : List Char) (p : Place) (q : Position) : Prop where
  line_le : q.line ≤ p.line + 1
  line_eq_iff : q.line = p.line + 1 ↔ hasPlainLines cs rest
  column_le : hasPlainLines cs rest → q.column ≤ p.character + 1
  column_eq_iff : hasPlainLines cs rest → (q.column = p.character + 1 ↔ (sinceNewline cs).all (units · = 1))

namespace Compares

variable {p : Place} {q : Position}

/-- At a newline a line ends for both. -/
theorem newline (h : Compares cs ('\n' :: rest) p q) : Compares (cs ++ ['\n']) rest (p.next '\n' rest) (q.next '\n') := by
  have hplace : p.next '\n' rest = ⟨p.line + 1, 0⟩ := if_pos (endsLine_newline rest)
  have hposition : q.next '\n' = ⟨q.line + 1, 1⟩ := if_pos rfl
  have hplain : hasPlainLines (cs ++ ['\n']) rest = hasPlainLines cs ('\n' :: rest) := by
    simp [hasPlainLines_concat]
  rw [hplace, hposition]
  refine ⟨Nat.succ_le_succ h.line_le, ?_, fun _ => Nat.le_refl _, fun _ => ?_⟩
  · rw [hplain, ← h.line_eq_iff]
    exact Nat.succ_inj
  · simp [sinceNewline_concat]

/-- At any other line end the editor gets ahead by a line. -/
theorem line_end (h : Compares cs (c :: rest) p q) (hc : c ≠ '\n') (hends : endsLine c rest) :
    Compares (cs ++ [c]) rest (p.next c rest) (q.next c) := by
  have hplace : p.next c rest = ⟨p.line + 1, 0⟩ := if_pos hends
  have hposition : q.next c = ⟨q.line, q.column + 1⟩ := if_neg hc
  have hplain : hasPlainLines (cs ++ [c]) rest = false := by
    simp [hasPlainLines_concat, hc, hends]
  rw [hplace, hposition]
  refine ⟨Nat.le_succ_of_le h.line_le, ?_, fun h => ?_, fun h => ?_⟩
  · have hle := h.line_le
    simp only [hplain, Bool.false_eq_true, iff_false]
    omega
  · exact absurd (hplain.symm.trans h) Bool.false_ne_true
  · exact absurd (hplain.symm.trans h) Bool.false_ne_true

/-- Within a line the editor gets ahead where a character takes two units. -/
theorem within (h : Compares cs (c :: rest) p q) (hc : c ≠ '\n') (hends : ¬endsLine c rest) :
    Compares (cs ++ [c]) rest (p.next c rest) (q.next c) := by
  have hpos := units_pos c
  have hplace : p.next c rest = ⟨p.line, p.character + units c⟩ := if_neg hends
  have hposition : q.next c = ⟨q.line, q.column + 1⟩ := if_neg hc
  have hplain : hasPlainLines (cs ++ [c]) rest = hasPlainLines cs (c :: rest) := by
    simp [hasPlainLines_concat, hends]
  rw [hplace, hposition]
  refine ⟨h.line_le, hplain ▸ h.line_eq_iff, fun hlines => ?_, fun hlines => ?_⟩
  · have hle := h.column_le (hplain ▸ hlines)
    dsimp only
    omega
  · have hle := h.column_le (hplain ▸ hlines)
    rw [sinceNewline_concat, if_neg hc, List.all_cons, Bool.and_eq_true, decide_eq_true_iff,
      ← h.column_eq_iff (hplain ▸ hlines)]
    dsimp only
    omega

end Compares

/-- **An editor counts at least as many lines**, and as many characters on the last line if it counts the same lines. -/
theorem compares (cs rest : List Char) : Compares cs rest (Place.first.after cs rest) (Position.start.after cs) := by
  induction cs using List.reverseRecOn generalizing rest with
  | nil => exact ⟨Nat.le_refl _, iff_of_true rfl rfl, fun _ => Nat.le_refl _, fun _ => iff_of_true rfl rfl⟩
  | append_singleton cs c ih =>
    rw [Place.after_concat, Position.after_append, Position.after_cons, Position.after_nil]
    by_cases hc : c = '\n'
    · subst hc
      exact (ih _).newline
    · by_cases hends : endsLine c rest
      · exact (ih _).line_end hc hends
      · exact (ih _).within hc hends

/-- **An editor counts to a position exactly if it counts alike up to there.** -/
theorem after_eq_ofPosition_iff (cs rest : List Char) :
    Place.first.after cs rest = .ofPosition (.behind cs) ↔ countsAlike cs rest := by
  have hline : 1 ≤ (Position.behind cs).line := Nat.le_add_right _ _
  have hcolumn : 1 ≤ (Position.behind cs).column := Nat.le_add_right _ _
  have hcompares := compares cs rest
  rw [Position.after_start] at hcompares
  obtain ⟨-, hlineIff, -, hcolumnIff⟩ := hcompares
  rw [countsAlike, Bool.and_eq_true, ← hlineIff, Place.ofPosition]
  generalize Place.first.after cs rest = p at *
  constructor
  · rintro rfl
    have heq : (Position.behind cs).line = (Position.behind cs).line - 1 + 1 := by omega
    exact ⟨heq, (hcolumnIff (hlineIff.1 heq)).1 (by dsimp only; omega)⟩
  · rintro ⟨heq, hunits⟩
    have heq' := (hcolumnIff (hlineIff.1 heq)).2 hunits
    rw [heq, heq', Nat.add_sub_cancel, Nat.add_sub_cancel]

end

end Monkey.Editor
