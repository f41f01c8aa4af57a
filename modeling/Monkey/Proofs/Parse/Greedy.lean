import Monkey.Proofs.Parse.Completeness
import Monkey.Proofs.Parse.Grammar

/-!
# Derivable lexemes are read

The grammar leaves open where a statement without a semicolon ends and how operators group; a reading goes on as long as
it can. Both come together in the flat form of an expression: a head, which is an operand with its prefix operators, and
a tail of operators with their operands and calls. Any tail may be split between the operators that bind tighter than
some floor and those that do not (`Grammar.absorbs`), and a statement that begins like a tail continues the one before
it (`Grammar.Resumes`). So derivable statements are read, though perhaps as fewer and longer ones.
-/

namespace Monkey

/-- No numeral has more digits than are ever read. -/
def ShortNumerals (ls : List Lexeme) : Prop :=
  ∀ l ∈ ls, l.kind = .int → l.literal.length ≤ maxDigits

theorem shortNumerals_cons {l : Lexeme} {ls : List Lexeme} :
    ShortNumerals (l :: ls) ↔ (l.kind = .int → l.literal.length ≤ maxDigits) ∧ ShortNumerals ls :=
  List.forall_mem_cons

theorem shortNumerals_append {ls ls' : List Lexeme} :
    ShortNumerals (ls ++ ls') ↔ ShortNumerals ls ∧ ShortNumerals ls' :=
  List.forall_mem_append

/-- Every operator binds tighter than the lowest floor. -/
theorem TokenKind.lowest_lt_precedence {k : TokenKind} (h : k ∈ Grammar.operators) :
    Precedence.lowest < k.precedence := by
  revert h
  cases k <;> decide

namespace Grammar

open Reading (Operand Chain Ending)

/-! ## Heads and tails -/

/-- An operand with its prefix operators, up to what it needs to be read before any lexemes. -/
inductive Head : List Lexeme → Prop
  | operand {ls} : (∀ rest, headKind rest ≠ .elseKeyword → ∃ e, Operand (ls ++ rest) e rest) →
      (headKind ls).endsExpression → Head ls
  | group {s₁ ls s₂} : (∀ rest, ∃ e, Chain .lowest (ls ++ ⟨.rparen, s₂⟩ :: rest) e (⟨.rparen, s₂⟩ :: rest)) →
      Head (⟨.lparen, s₁⟩ :: (ls ++ [⟨.rparen, s₂⟩]))
  | not {s ls} : Head ls → Head (⟨.bang, s⟩ :: ls)
  | negate {s ls} : Head ls → Head (⟨.minus, s⟩ :: ls)

/-- What may follow an operand: operators with their operands, and calls. -/
inductive Tail : List Lexeme → Prop
  | nil : Tail []
  | operator {k s hs ts} : k ∈ operators → Head hs → Tail ts → Tail (⟨k, s⟩ :: (hs ++ ts))
  | call {s as ts} : (∀ rest, ∃ args, Reading.Arguments (as ++ rest) args rest) → Tail ts →
      Tail (⟨.lparen, s⟩ :: (as ++ ts))

/-- A head begins as an expression does. -/
theorem Head.begins {hs : List Lexeme} (h : Head hs) : (headKind hs).startsExpression := by
  cases h with
  | operand h _ =>
    obtain ⟨e, he⟩ := h [] nofun
    have := he.begins
    rwa [List.append_nil] at this
  | group | not | negate => rfl

/-- A tail may be followed by another one. -/
theorem Tail.append {ts ts' : List Lexeme} (h : Tail ts) (h' : Tail ts') : Tail (ts ++ ts') := by
  induction h with
  | nil => exact h'
  | operator hk hh _ ih =>
    rw [List.cons_append, List.append_assoc]
    exact .operator hk hh ih
  | call hargs _ ih =>
    rw [List.cons_append, List.append_assoc]
    exact .call hargs ih

/-- A tail does not begin with `else`. -/
theorem Tail.headKind_ne_else {ts rest : List Lexeme} (h : Tail ts) (hrest : headKind rest ≠ .elseKeyword) :
    headKind (ts ++ rest) ≠ .elseKeyword := by
  cases h with
  | nil => exact hrest
  | operator hk =>
    rintro rfl
    exact absurd hk (by decide)
  | call => nofun

/-- A tail that does not bind tighter than the lowest level is empty. -/
theorem Tail.eq_nil {ts rest : List Lexeme} (h : Tail ts) (hstop : (headKind (ts ++ rest)).endsExpression) :
    ts = [] := by
  cases h with
  | nil => rfl
  | operator hk => exact absurd (TokenKind.lowest_lt_precedence hk) hstop
  | call => exact absurd hstop (show ¬ TokenKind.lparen.endsExpression by decide)

/-- An operand that begins as a tail does is one. -/
theorem Head.resumes {hs : List Lexeme} (h : Head hs) : Tail hs ∨ (headKind hs).endsExpression := by
  cases h with
  | operand _ hstop => exact .inr hstop
  | @group s₁ ls s₂ h =>
    -- a group behind an expression is a call with one argument
    have hargs : ∀ rest, ∃ args, Reading.Arguments ((ls ++ [⟨.rparen, s₂⟩]) ++ rest) args rest := by
      intro rest
      obtain ⟨e, he⟩ := h rest
      refine ⟨[e], ?_⟩
      rw [List.append_assoc]
      exact .some he .close
    have htail := Tail.call (s := s₁) hargs .nil
    rw [List.append_nil] at htail
    exact .inl htail
  | not => exact .inr (show TokenKind.bang.endsExpression by decide)
  | @negate s ls h =>
    have htail : Tail (⟨.minus, s⟩ :: (ls ++ [])) := .operator (by decide) h .nil
    rw [List.append_nil] at htail
    exact .inl htail

/-! ## How much of a tail an expression takes -/

/-- An expression takes as much of its tail as binds tighter than its floor, for heads and tails of `n` lexemes. -/
def Absorbs (n : Nat) : Prop :=
  ∀ {hs ts rest : List Lexeme} (floor : Precedence), hs.length + ts.length = n → Head hs → Tail ts →
    (headKind rest).endsExpression → headKind rest ≠ .elseKeyword → ∃ e ts', Tail ts' ∧ ts'.length ≤ ts.length ∧
      Chain floor (hs ++ (ts ++ rest)) e (ts' ++ rest) ∧ ¬ floor < (headKind (ts' ++ rest)).precedence

/-- What an expression has come to stand for takes as much of the tail as binds tighter than the floor. -/
theorem absorbs_tail {floor : Precedence} {ls ts rest : List Lexeme} {e : Node} (ih : ∀ m < ts.length, Absorbs m)
    (hts : Tail ts) (hrest : (headKind rest).endsExpression) (helse : headKind rest ≠ .elseKeyword)
    (he : Chain floor ls e (ts ++ rest)) : ∃ e' ts', Tail ts' ∧ ts'.length ≤ ts.length ∧
      Chain floor ls e' (ts' ++ rest) ∧ ¬ floor < (headKind (ts' ++ rest)).precedence := by
  generalize hn : ts.length = n at ih
  induction n using Nat.strongRecOn generalizing ts e with
  | ind n ihn =>
    cases hts with
    | nil => exact ⟨e, [], .nil, Nat.zero_le _, he, TokenKind.not_lt_of_endsExpression hrest floor⟩
    | @operator k s hs ts hk hh hts =>
      have hlen := hn
      rw [List.length_cons, List.length_append] at hlen
      by_cases hlt : floor < k.precedence
      · obtain ⟨op, hop⟩ := TokenKind.mem_operators_iff.1 hk
        obtain ⟨r, ts₁, hts₁, hle₁, hr, hstop⟩ := ih _ (by omega) k.precedence rfl hh hts hrest helse
        rw [List.cons_append, List.append_assoc] at he
        have hbin := Chain.binary (t := .blank) he hop hlt hr hstop
        obtain ⟨e', ts₂, hts₂, hle₂, he', hstop'⟩ :=
          ihn ts₁.length (by omega) hts₁ hbin rfl (fun m hm => ih m (by omega))
        exact ⟨e', ts₂, hts₂, by omega, he', hstop'⟩
      · exact ⟨e, _, .operator hk hh hts, Nat.le_of_eq hn, he, hlt⟩
    | @call s as ts hargs hts =>
      have hlen := hn
      rw [List.length_cons, List.length_append] at hlen
      by_cases hlt : floor < .call
      · obtain ⟨args, hargs⟩ := hargs (ts ++ rest)
        rw [List.cons_append, List.append_assoc] at he
        have hcall := Chain.call (t := .blank) he hlt hargs
        obtain ⟨e', ts₂, hts₂, hle₂, he', hstop'⟩ :=
          ihn ts.length (by omega) hts hcall rfl (fun m hm => ih m (by omega))
        exact ⟨e', ts₂, hts₂, by omega, he', hstop'⟩
      · exact ⟨e, _, .call hargs hts, Nat.le_of_eq hn, he, hlt⟩

/-- An operand, and what of a tail its prefix operators leave. -/
theorem absorbs_head {hs ts rest : List Lexeme} (ih : ∀ m < hs.length + ts.length, Absorbs m) (hh : Head hs)
    (hts : Tail ts) (hrest : (headKind rest).endsExpression) (helse : headKind rest ≠ .elseKeyword) :
    ∃ e ts', Tail ts' ∧ ts'.length ≤ ts.length ∧ Operand (hs ++ (ts ++ rest)) e (ts' ++ rest) := by
  cases hh with
  | operand h _ =>
    obtain ⟨e, he⟩ := h (ts ++ rest) (hts.headKind_ne_else helse)
    exact ⟨e, ts, hts, Nat.le_refl _, he⟩
  | group h =>
    obtain ⟨e, he⟩ := h (ts ++ rest)
    refine ⟨e, ts, hts, Nat.le_refl _, ?_⟩
    rw [List.cons_append, List.append_assoc]
    exact .group he
  | not hh =>
    obtain ⟨e, ts', hts', hle, he, hstop⟩ :=
      ih _ (by rw [List.length_cons]; omega) .unary rfl hh hts hrest helse
    exact ⟨.unary .blank .not e, ts', hts', hle, .not he hstop⟩
  | negate hh =>
    obtain ⟨e, ts', hts', hle, he, hstop⟩ :=
      ih _ (by rw [List.length_cons]; omega) .unary rfl hh hts hrest helse
    exact ⟨.unary .blank .negate e, ts', hts', hle, .negate he hstop⟩

/-- **An expression takes as much of its tail as binds tighter than its floor.** -/
theorem absorbs (n : Nat) : Absorbs n := by
  induction n using Nat.strongRecOn with
  | ind n ih =>
    intro hs ts rest floor hn hh hts hrest helse
    subst hn
    obtain ⟨e, ts₁, hts₁, hle₁, he⟩ := absorbs_head ih hh hts hrest helse
    have hpos : 0 < hs.length := by
      have := hh.begins
      cases hs with
      | nil => cases this
      | cons => exact Nat.succ_pos _
    obtain ⟨e', ts₂, hts₂, hle₂, he', hstop⟩ :=
      absorbs_tail (fun m hm => ih m (by omega)) hts₁ hrest helse (Chain.operand he : Chain floor _ _ _)
    exact ⟨e', ts₂, hts₂, by omega, he', hstop⟩

/-! ## The flat form of an expression -/

/-- A head with a tail. -/
def Flat (ls : List Lexeme) : Prop :=
  ∃ hs ts, ls = hs ++ ts ∧ Head hs ∧ Tail ts

namespace Flat

variable {ls ts rs as rest : List Lexeme}

theorem of_head (h : Head ls) : Flat ls :=
  ⟨ls, [], (List.append_nil ls).symm, h, .nil⟩

/-- A flat expression may be followed by a tail. -/
theorem append (h : Flat ls) (hts : Tail ts) : Flat (ls ++ ts) := by
  obtain ⟨hs, ts', rfl, hh, hts'⟩ := h
  exact ⟨hs, ts' ++ ts, List.append_assoc .., hh, hts'.append hts⟩

theorem not {s : String} (h : Flat ls) : Flat (⟨.bang, s⟩ :: ls) := by
  obtain ⟨hs, ts, rfl, hh, hts⟩ := h
  exact ⟨⟨.bang, s⟩ :: hs, ts, rfl, .not hh, hts⟩

theorem negate {s : String} (h : Flat ls) : Flat (⟨.minus, s⟩ :: ls) := by
  obtain ⟨hs, ts, rfl, hh, hts⟩ := h
  exact ⟨⟨.minus, s⟩ :: hs, ts, rfl, .negate hh, hts⟩

/-- Two flat expressions with an operator between them are flat: the second one ends up in the tail of the first. -/
theorem binary {k : TokenKind} {s : String} (h : Flat ls) (hk : k ∈ operators) (hr : Flat rs) :
    Flat (ls ++ ⟨k, s⟩ :: rs) := by
  obtain ⟨hs, ts, rfl, hh, hts⟩ := hr
  exact h.append (.operator hk hh hts)

/-- A flat expression that is called is flat. -/
theorem call {s : String} (h : Flat ls) (has : ∀ rest, ∃ args, Reading.Arguments (as ++ rest) args rest) :
    Flat (ls ++ ⟨.lparen, s⟩ :: as) := by
  have htail := Tail.call (s := s) has .nil
  rw [List.append_nil] at htail
  exact h.append htail

/-- A flat expression begins as an expression does. -/
theorem begins (h : Flat ls) : (headKind ls).startsExpression := by
  obtain ⟨hs, ts, rfl, hh, -⟩ := h
  have := hh.begins
  cases hs with
  | nil => cases this
  | cons => exact this

/-- An expression is read up to where it has to end. -/
theorem reads (h : Flat ls) (hrest : (headKind rest).endsExpression) (helse : headKind rest ≠ .elseKeyword) :
    ∃ e, Chain .lowest (ls ++ rest) e rest := by
  obtain ⟨hs, ts, rfl, hh, hts⟩ := h
  obtain ⟨e, ts', hts', -, he, hstop⟩ := absorbs _ .lowest rfl hh hts hrest helse
  rw [hts'.eq_nil hstop, ← List.append_assoc] at he
  exact ⟨e, he⟩

/-- An expression in parentheses or before a comma is read. -/
theorem reads_before {k : TokenKind} (h : Flat ls) (hk : k = .rparen ∨ k = .comma) (s : String) (rest : List Lexeme) :
    ∃ e, Chain .lowest (ls ++ ⟨k, s⟩ :: rest) e (⟨k, s⟩ :: rest) := by
  rcases hk with rfl | rfl
  · exact h.reads TokenKind.endsExpression_rparen nofun
  · exact h.reads TokenKind.endsExpression_comma nofun

/-- An expression that begins as a tail does is one. -/
theorem resumes (h : Flat ls) : Tail ls ∨ (headKind ls).endsExpression := by
  have hbegins := h.begins
  obtain ⟨hs, ts, rfl, hh, hts⟩ := h
  obtain hhs | hhs := hh.resumes
  · exact .inl (hhs.append hts)
  · right
    cases hs with
    | nil => exact absurd hh.begins nofun
    | cons => exact hhs

end Flat

/-! ## Statements that go on -/

/-- The beginning of a statement that ends with an expression: it goes on with any tail, and then it ends. -/
def Open (ls : List Lexeme) : Prop :=
  ∀ ts ls' rest : List Lexeme, Tail ts → Ending ls' rest → headKind ls' ≠ .elseKeyword →
    ∃ s, Reading.Statement (ls ++ (ts ++ ls')) s rest

/-- The lexemes are a statement wherever a token of kind `k` follows. -/
def Closed (k : TokenKind) (ls : List Lexeme) : Prop :=
  ∀ rest : List Lexeme, headKind rest = k → ∃ s, Reading.Statement (ls ++ rest) s rest

/-- What is read in front of an expression begins a statement that goes on with the tail of the expression. -/
theorem open_of_chain (pre : List Lexeme) {ls : List Lexeme} (h : Flat ls)
    (hread : ∀ {ls' rest : List Lexeme} {e : Node}, Chain .lowest ls' e rest → ∀ {rest'}, Ending rest rest' →
      ∃ s, Reading.Statement (pre ++ ls') s rest') : Open (pre ++ ls) := by
  intro ts ls' rest hts hend helse
  obtain ⟨e, he⟩ := (h.append hts).reads hend.stops helse
  obtain ⟨s, hs⟩ := hread he hend
  refine ⟨s, ?_⟩
  simpa only [List.append_assoc] using hs

/-- A `let` goes on with any tail of its value. -/
theorem Open.letStatement {ls : List Lexeme} (s₁ s s₂ : String) (h : Flat ls) :
    Open (⟨.letKeyword, s₁⟩ :: ⟨.ident, s⟩ :: ⟨.assign, s₂⟩ :: ls) :=
  open_of_chain [⟨.letKeyword, s₁⟩, ⟨.ident, s⟩, ⟨.assign, s₂⟩] h fun he _ hend =>
    ⟨.letStatement .blank ⟨.blank, s⟩ _, .letStatement he hend⟩

/-- A `return` goes on with any tail of its value. -/
theorem Open.returnValue {ls : List Lexeme} (s : String) (h : Flat ls) : Open (⟨.returnKeyword, s⟩ :: ls) :=
  open_of_chain [⟨.returnKeyword, s⟩] h fun he _ hend => ⟨.returnStatement .blank _, .returnValue he hend⟩

/-- An expression statement goes on with any tail of the expression. -/
theorem Open.expression {ls : List Lexeme} (h : Flat ls) : Open ls :=
  open_of_chain [] h fun he _ hend => ⟨.expressionStatement .blank _, .expression he hend⟩

/-- A semicolon closes a statement that would go on. -/
theorem Open.semicolon {k : TokenKind} {ls es : List Lexeme} (h : Open ls) (hes : Semicolon es) :
    Open (ls ++ es) ∨ Closed k (ls ++ es) := by
  cases hes with
  | absent =>
    rw [List.append_nil]
    exact .inl h
  | present =>
    refine .inr fun _ _ => ?_
    rw [List.append_assoc]
    exact h [] _ _ .nil .semicolon nofun

/-- The beginning of some lexemes continues an expression before them, and the statements behind it are read. -/
def Resumes (ls rest : List Lexeme) : Prop :=
  ∃ ts ls' rest' ss, ls ++ rest = ts ++ ls' ∧ Tail ts ∧ Ending ls' rest' ∧ headKind ls' ≠ .elseKeyword ∧
    Reading.Statements rest' ss rest

/-- What begins a statement does not continue an expression unless it is a tail. -/
theorem resumes_of_ends {ls rest : List Lexeme} {ss : List Node} (hbegin : (headKind ls).startsStatement)
    (hends : (headKind ls).endsExpression) (h : Reading.Statements (ls ++ rest) ss rest) : Resumes ls rest := by
  have hhead : headKind (ls ++ rest) = headKind ls := by
    cases ls with
    | nil => cases hbegin
    | cons => rfl
  refine ⟨[], ls ++ rest, ls ++ rest, ss, rfl, .nil, .nothing ?_ (hhead ▸ hends), ?_, h⟩
  all_goals
    rw [hhead]
    intro hk
    rw [hk] at hbegin
    cases hbegin

/-- What holds of every statement that is derived before a token of kind `k`. -/
structure Form (k : TokenKind) (ls : List Lexeme) : Prop where
  begins : (headKind ls).startsStatement
  reads : Open ls ∨ Closed k ls
  resumes : (headKind ls).endsExpression ∨ ∃ ts es, ls = ts ++ es ∧ Tail ts ∧ Semicolon es

namespace Form

variable {k : TokenKind} {ls es : List Lexeme}

/-- A `let` has the form of a statement. -/
theorem letStatement (s₁ s s₂ : String) (h : Flat ls) (hes : Semicolon es) :
    Form k (⟨.letKeyword, s₁⟩ :: ⟨.ident, s⟩ :: ⟨.assign, s₂⟩ :: (ls ++ es)) :=
  ⟨rfl, (Open.letStatement s₁ s s₂ h).semicolon hes, .inl (show TokenKind.letKeyword.endsExpression by decide)⟩

/-- A `return` with a value has the form of a statement. -/
theorem returnValue (s : String) (h : Flat ls) (hes : Semicolon es) : Form k (⟨.returnKeyword, s⟩ :: (ls ++ es)) :=
  ⟨rfl, (Open.returnValue s h).semicolon hes, .inl (show TokenKind.returnKeyword.endsExpression by decide)⟩

/-- A `return` that ends with a semicolon at once has the form of a statement. -/
theorem returnNothing (s₁ s₂ : String) : Form k [⟨.returnKeyword, s₁⟩, ⟨.semicolon, s₂⟩] :=
  ⟨rfl, .inr fun _ _ => ⟨.returnStatement .blank .hole, .returnNothing⟩,
    .inl (show TokenKind.returnKeyword.endsExpression by decide)⟩

/-- A bare `return` has the form of a statement before a brace or the end of the text. -/
theorem returnLast (s : String) (hk : k = .rbrace ∨ k = .eof) : Form k [⟨.returnKeyword, s⟩] :=
  ⟨rfl, .inr fun _ hrest => ⟨.returnStatement .blank .hole, .returnLast (hrest ▸ hk)⟩,
    .inl (show TokenKind.returnKeyword.endsExpression by decide)⟩

/-- An expression has the form of a statement. -/
theorem expression (h : Flat ls) (hes : Semicolon es) : Form k (ls ++ es) := by
  have hhead : headKind (ls ++ es) = headKind ls := by
    have := h.begins
    cases ls with
    | nil => cases this
    | cons => rfl
  refine ⟨?_, (Open.expression h).semicolon hes, ?_⟩
  · simp [hhead, TokenKind.startsStatement, h.begins]
  · rcases h.resumes with htail | hends
    · exact .inr ⟨ls, es, rfl, htail, hes⟩
    · exact .inl (hhead ▸ hends)

end Form

/-- Statements in a row are read before every token of kind `k`, by themselves and behind an expression. -/
structure Sequence (k : TokenKind) (ls : List Lexeme) : Prop where
  reads : ∀ {rest : List Lexeme}, headKind rest = k → ∃ ss, Reading.Statements (ls ++ rest) ss rest
  resumes : ∀ {rest : List Lexeme}, headKind rest = k → Resumes ls rest

/-- Nothing is left to read before a brace or the end of the text. -/
theorem Sequence.nil {k : TokenKind} (hk : k = .rbrace ∨ k = .eof) : Sequence k [] where
  reads _ := ⟨[], .nil⟩
  resumes := by
    rintro rest rfl
    refine ⟨[], rest, rest, [], rfl, .nil, .nothing ?_ ?_, ?_, .nil⟩
    all_goals rcases hk with hk | hk <;> rw [hk] <;> decide

/-- A statement before others is read with them, its expression perhaps taking over their beginning. -/
theorem Sequence.cons {k : TokenKind} {ls ss : List Lexeme} (h : Form (firstKind k ss) ls) (hss : Sequence k ss) :
    Sequence k (ls ++ ss) := by
  have hreads {rest : List Lexeme} (hrest : headKind rest = k) :
      ∃ ns, Reading.Statements (ls ++ ss ++ rest) ns rest := by
    rw [List.append_assoc]
    rcases h.reads with hopen | hclosed
    · obtain ⟨ts, ls', rest', ns, heq, hts, hend, helse, hns⟩ := hss.resumes hrest
      obtain ⟨n, hn⟩ := hopen _ _ _ hts hend helse
      rw [heq]
      exact ⟨n :: ns, .cons hn hns⟩
    · obtain ⟨ns, hns⟩ := hss.reads hrest
      obtain ⟨n, hn⟩ := hclosed (ss ++ rest) (by rw [headKind_append, hrest])
      exact ⟨n :: ns, .cons hn hns⟩
  refine ⟨hreads, fun {rest} hrest => ?_⟩
  rcases h.resumes with hends | ⟨ts, es, rfl, hts, hes⟩
  · obtain ⟨ns, hns⟩ := hreads hrest
    have hhead : headKind (ls ++ ss) = headKind ls := by
      have := h.begins
      cases ls with
      | nil => cases this
      | cons => rfl
    exact resumes_of_ends (hhead ▸ h.begins) (hhead ▸ hends) hns
  · cases hes with
    | absent =>
      obtain ⟨ts', ls', rest', ns, heq, hts', hend, helse, hns⟩ := hss.resumes hrest
      exact ⟨ts ++ ts', ls', rest', ns, by simp only [List.append_assoc, List.nil_append, heq], hts.append hts', hend,
        helse, hns⟩
    | present =>
      obtain ⟨ns, hns⟩ := hss.reads hrest
      exact ⟨ts, _, ss ++ rest, ns, by simp only [List.append_assoc]; rfl, hts, .semicolon, nofun, hns⟩

/-! ## Operands with parts -/

/-- A block is read before any lexemes. -/
def ReadsBlock (bs : List Lexeme) : Prop :=
  ∃ s ls, bs = ⟨.lbrace, s⟩ :: ls ∧ ∀ rest, ∃ ss s', Reading.Statements (ls ++ rest) ss (⟨.rbrace, s'⟩ :: rest)

/-- Statements between braces are read as a block. -/
theorem ReadsBlock.of_sequence {ls : List Lexeme} (s s' : String) (h : Sequence .rbrace ls) :
    ReadsBlock (⟨.lbrace, s⟩ :: (ls ++ [⟨.rbrace, s'⟩])) := by
  refine ⟨s, _, rfl, fun rest => ?_⟩
  obtain ⟨ss, hss⟩ := @Sequence.reads _ _ h (⟨.rbrace, s'⟩ :: rest) rfl
  refine ⟨ss, s', ?_⟩
  rw [List.append_assoc]
  exact hss

/-- An `if` without an `else` is a head, as no `else` follows it. -/
theorem Head.ifThen {ls bs : List Lexeme} (s₁ s₂ s₃ : String) (hc : Flat ls) (hb : ReadsBlock bs) :
    Head (⟨.ifKeyword, s₁⟩ :: ⟨.lparen, s₂⟩ :: (ls ++ ⟨.rparen, s₃⟩ :: bs)) := by
  obtain ⟨s₄, bs, rfl, hb⟩ := hb
  refine .operand (fun rest helse => ?_) (show TokenKind.ifKeyword.endsExpression by decide)
  obtain ⟨c, hc⟩ := hc.reads_before (.inl rfl) s₃ (⟨.lbrace, s₄⟩ :: (bs ++ rest))
  obtain ⟨ss, s₅, hss⟩ := hb rest
  refine ⟨.conditional .blank c (.block .blank ss) .hole, ?_⟩
  simp only [List.cons_append, List.append_assoc]
  exact .ifThen hc hss helse

/-- An `if` with an `else` is a head. -/
theorem Head.ifThenElse {ls bs cs : List Lexeme} (s₁ s₂ s₃ s₄ : String) (hc : Flat ls) (hb : ReadsBlock bs)
    (hb' : ReadsBlock cs) :
    Head (⟨.ifKeyword, s₁⟩ :: ⟨.lparen, s₂⟩ :: (ls ++ ⟨.rparen, s₃⟩ :: (bs ++ ⟨.elseKeyword, s₄⟩ :: cs))) := by
  obtain ⟨s₅, bs, rfl, hb⟩ := hb
  obtain ⟨s₆, cs, rfl, hb'⟩ := hb'
  refine .operand (fun rest _ => ?_) (show TokenKind.ifKeyword.endsExpression by decide)
  obtain ⟨ss', s₈, hss'⟩ := hb' rest
  obtain ⟨ss, s₇, hss⟩ := hb (⟨.elseKeyword, s₄⟩ :: ⟨.lbrace, s₆⟩ :: (cs ++ rest))
  obtain ⟨c, hc⟩ := hc.reads_before (.inl rfl) s₃
    (⟨.lbrace, s₅⟩ :: (bs ++ ⟨.elseKeyword, s₄⟩ :: ⟨.lbrace, s₆⟩ :: (cs ++ rest)))
  refine ⟨.conditional .blank c (.block .blank ss) (.block .blank ss'), ?_⟩
  simp only [List.cons_append, List.append_assoc]
  exact .ifThenElse hc hss hss'

/-- More parameters that are derived are read. -/
theorem MoreParameters.reads {ps : List Lexeme} (h : MoreParameters ps) (s : String) (rest : List Lexeme) :
    ∃ ids, Reading.MoreParameters (ps ++ ⟨.rparen, s⟩ :: rest) ids rest := by
  induction h with
  | nil => exact ⟨[], .close⟩
  | @cons s₁ s₂ _ _ ih =>
    obtain ⟨ids, hids⟩ := ih
    exact ⟨⟨.blank, s₂⟩ :: ids, .more hids⟩

/-- Parameters that are derived are read. -/
theorem Parameters.reads {ps : List Lexeme} (h : Parameters ps) (s : String) (rest : List Lexeme) :
    ∃ ids, Reading.Parameters (ps ++ ⟨.rparen, s⟩ :: rest) ids rest := by
  cases h with
  | nil => exact ⟨[], .close⟩
  | @cons s₁ _ h =>
    obtain ⟨ids, hids⟩ := h.reads s rest
    exact ⟨⟨.blank, s₁⟩ :: ids, .some hids⟩

/-- A function is a head. -/
theorem Head.function {ps bs : List Lexeme} (s₁ s₂ s₃ : String) (hps : Parameters ps) (hb : ReadsBlock bs) :
    Head (⟨.fnKeyword, s₁⟩ :: ⟨.lparen, s₂⟩ :: (ps ++ ⟨.rparen, s₃⟩ :: bs)) := by
  obtain ⟨s₄, bs, rfl, hb⟩ := hb
  refine .operand (fun rest _ => ?_) (show TokenKind.fnKeyword.endsExpression by decide)
  obtain ⟨ids, hids⟩ := hps.reads s₃ (⟨.lbrace, s₄⟩ :: (bs ++ rest))
  obtain ⟨ss, s₅, hss⟩ := hb rest
  refine ⟨.function .blank ids (.block .blank ss), ?_⟩
  simp only [List.cons_append, List.append_assoc]
  exact .function hids hss

/-! ## What is derivable is read -/

mutual

/-- An expression that is derived is flat. -/
theorem Expression.flat : ∀ {ls : List Lexeme}, Expression ls → ShortNumerals ls → Flat ls
  | _, @Expression.identifier s, _ =>
    .of_head (.operand (fun _ _ => ⟨.identifier ⟨.blank, s⟩, .identifier⟩)
      (show TokenKind.ident.endsExpression by decide))
  | _, @Expression.integer s hmax, hshort =>
    .of_head (.operand (fun _ _ => ⟨.integer .blank (numeralValue s), .integer (hshort _ List.mem_cons_self rfl) hmax⟩)
      (show TokenKind.int.endsExpression by decide))
  | _, .true, _ =>
    .of_head (.operand (fun _ _ => ⟨.boolean .blank Bool.true, .true⟩)
      (show TokenKind.trueKeyword.endsExpression by decide))
  | _, .false, _ =>
    .of_head (.operand (fun _ _ => ⟨.boolean .blank Bool.false, .false⟩)
      (show TokenKind.falseKeyword.endsExpression by decide))
  | _, .not h, hshort => .not (h.flat (shortNumerals_cons.1 hshort).2)
  | _, .negate h, hshort => .negate (h.flat (shortNumerals_cons.1 hshort).2)
  | _, @Expression.group _ _ s₂ h, hshort => by
    simp only [shortNumerals_cons, shortNumerals_append] at hshort
    exact .of_head (.group fun rest => (h.flat hshort.2.1).reads_before (.inl rfl) s₂ rest)
  | _, .binary h hk h', hshort => by
    simp only [shortNumerals_cons, shortNumerals_append] at hshort
    exact .binary (h.flat hshort.1) hk (h'.flat hshort.2.2)
  | _, @Expression.call _ _ as s₂ h hargs, hshort => by
    simp only [shortNumerals_cons, shortNumerals_append] at hshort
    refine .call (h.flat hshort.1) fun rest => ?_
    rw [List.append_assoc]
    exact hargs.reads hshort.2.2.1 s₂ rest
  | _, .ifThen h hb, hshort => by
    simp only [shortNumerals_cons, shortNumerals_append] at hshort
    exact .of_head (.ifThen _ _ _ (h.flat hshort.2.2.1) (hb.reads hshort.2.2.2.2))
  | _, .ifThenElse h hb hb', hshort => by
    simp only [shortNumerals_cons, shortNumerals_append] at hshort
    exact .of_head (.ifThenElse _ _ _ _ (h.flat hshort.2.2.1) (hb.reads hshort.2.2.2.2.1)
      (hb'.reads hshort.2.2.2.2.2.2))
  | _, .function hps hb, hshort => by
    simp only [shortNumerals_cons, shortNumerals_append] at hshort
    exact .of_head (.function _ _ _ hps (hb.reads hshort.2.2.2.2))

/-- Arguments that are derived are read. -/
theorem Arguments.reads : ∀ {as : List Lexeme}, Arguments as → ShortNumerals as → ∀ s rest,
    ∃ args, Reading.Arguments (as ++ ⟨.rparen, s⟩ :: rest) args rest
  | _, .nil, _, _, _ => ⟨[], .close⟩
  | _, .cons h hmore, hshort, s, rest => by
    rw [shortNumerals_append] at hshort
    rw [List.append_assoc]
    obtain ⟨args, k, t, rest', heq, hk, hargs⟩ := hmore.reads hshort.2 s rest
    rw [heq] at hargs ⊢
    obtain ⟨e, he⟩ := (h.flat hshort.1).reads_before hk t rest'
    exact ⟨e :: args, .some he hargs⟩

/-- More arguments that are derived are read, behind a comma or up to the parenthesis. -/
theorem MoreArguments.reads : ∀ {as : List Lexeme}, MoreArguments as → ShortNumerals as → ∀ s rest,
    ∃ args k t rest', as ++ ⟨.rparen, s⟩ :: rest = ⟨k, t⟩ :: rest' ∧ (k = .rparen ∨ k = .comma) ∧
      Reading.MoreArguments (as ++ ⟨.rparen, s⟩ :: rest) args rest
  | _, .nil, _, s, rest => ⟨[], .rparen, s, rest, rfl, .inl rfl, .close⟩
  | _, @MoreArguments.cons s₁ ls as h hmore, hshort, s, rest => by
    simp only [shortNumerals_cons, shortNumerals_append] at hshort
    obtain ⟨args, k, t, rest', heq, hk, hargs⟩ := hmore.reads hshort.2.2 s rest
    obtain ⟨e, he⟩ := (h.flat hshort.2.1).reads_before hk t rest'
    refine ⟨e :: args, .comma, s₁, ls ++ (as ++ ⟨.rparen, s⟩ :: rest), by simp, .inr rfl, ?_⟩
    rw [List.cons_append, List.append_assoc]
    rw [heq] at hargs ⊢
    exact .more he hargs

/-- A statement that is derived has the form of one. -/
theorem Statement.form : ∀ {k : TokenKind} {ls : List Lexeme}, Statement k ls → ShortNumerals ls → Form k ls
  | _, _, .letStatement h hes, hshort => by
    simp only [shortNumerals_cons, shortNumerals_append] at hshort
    exact .letStatement _ _ _ (h.flat hshort.2.2.2.1) hes
  | _, _, .returnValue h hes, hshort => by
    simp only [shortNumerals_cons, shortNumerals_append] at hshort
    exact .returnValue _ (h.flat hshort.2.1) hes
  | _, _, .returnNothing, _ => .returnNothing _ _
  | _, _, .returnLast hk, _ => .returnLast _ hk
  | _, _, .expression h hes, hshort => .expression (h.flat (shortNumerals_append.1 hshort).1) hes

/-- Statements that are derived are read in a row. -/
theorem Statements.sequence : ∀ {k : TokenKind} {ls : List Lexeme}, Statements k ls → ShortNumerals ls →
    k = .rbrace ∨ k = .eof → Sequence k ls
  | _, _, .nil, _, hk => .nil hk
  | _, _, .cons h hss, hshort, hk =>
    .cons (h.form (shortNumerals_append.1 hshort).1) (hss.sequence (shortNumerals_append.1 hshort).2 hk)

/-- A block that is derived is read before any lexemes. -/
theorem Block.reads : ∀ {bs : List Lexeme}, Block bs → ShortNumerals bs → ReadsBlock bs
  | _, .statements h, hshort => by
    simp only [shortNumerals_cons, shortNumerals_append] at hshort
    exact .of_sequence _ _ (h.sequence hshort.2.1 (.inl rfl))

end

end Grammar

/-! ## A whole text -/

/-- Numerals of a text are short if digits never stand in a row for longer than they are read. -/
theorem shortNumerals_lexemesOf {text : String}
    (h : ∀ ds, ds <:+: text.toList → (∀ c ∈ ds, isDigit c) → ds.length ≤ maxDigits) :
    ShortNumerals (lexemesOf text) := by
  intro l hl hk
  obtain ⟨-, hdigits, hinfix⟩ := digits_of_mem_lexemesOf hl hk
  rw [← String.length_toList]
  exact h _ hinfix hdigits

/-- A text with short numerals is never refused. -/
theorem ShortNumerals.parse_ok {text : String} (h : ShortNumerals (lexemesOf text)) : ∃ p, parse text = .ok p := by
  cases hp : parse text with
  | ok p => exact ⟨p, rfl⟩
  | error why =>
    obtain ⟨t, ht, hk, hlong, -⟩ := parse_refuses hp
    exact absurd (h t.lexeme (List.mem_map_of_mem ht) hk) (Nat.not_le.2 hlong)

/-- **The grammar of the parser**: a text without overlong numerals is parsed, and nothing is reported exactly if its
lexemes are derivable as a program. -/
theorem parse_clean_iff_derivable {text : String}
    (h : ∀ ds, ds <:+: text.toList → (∀ c ∈ ds, isDigit c) → ds.length ≤ maxDigits) :
    ∃ p, parse text = .ok p ∧ (p.diagnostics = [] ↔ Grammar.Program (lexemesOf text)) := by
  have hshort := shortNumerals_lexemesOf h
  obtain ⟨p, hp⟩ := hshort.parse_ok
  refine ⟨p, hp, fun hclean => ?_, fun hprogram => ?_⟩
  · obtain ⟨ss, -, hss⟩ := reads_of_parse hp hclean
    obtain ⟨pre, hpre, hderives⟩ := hss.derives
    rw [hpre, List.append_nil]
    exact hderives
  · have hsequence := Grammar.Statements.sequence hprogram hshort (.inr rfl)
    obtain ⟨ss, hss⟩ := @hsequence.reads [] rfl
    rw [List.append_nil] at hss
    obtain ⟨ss', hparse, -⟩ := parse_of_reads hss
    rw [hp] at hparse
    cases hparse
    rfl

/-- One statement or two: the parser accepts what is derivable either way. -/
theorem parse_clean_iff_derivable_juxtaposed :
    (∀ ds, ds <:+: "a -b (c)".toList → (∀ c ∈ ds, isDigit c) → ds.length ≤ maxDigits) ∧
      ∃ p, parse "a -b (c)" = .ok p ∧ (p.diagnostics = [] ↔ Grammar.Program (lexemesOf "a -b (c)")) := by
  have hshort : ∀ ds, ds <:+: "a -b (c)".toList → (∀ c ∈ ds, isDigit c) → ds.length ≤ maxDigits :=
    fun ds hds _ => Nat.le_trans hds.length_le (by decide)
  exact ⟨hshort, parse_clean_iff_derivable hshort⟩

end Monkey
