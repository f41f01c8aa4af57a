import Monkey.Proofs.Parse.Allowance
import Monkey.Proofs.Parse.Reading

/-!
# Runs without reports are readings

Where a rule builds something and nothing is reported on the way, the lexemes it has moved over are read as what it
has built (`Reads.all`). A rule leaves the window on the last lexeme it has read, so `Parser.rest`, what lies behind the
window, tells how far it got.
-/

namespace Monkey

namespace Parser

variable {p q : Parser}

/-- The lexemes ahead, the current one first. -/
def lexemes (p : Parser) : List Lexeme :=
  p.ahead.map Token.lexeme

/-- The lexemes behind the current one. -/
def rest (p : Parser) : List Lexeme :=
  p.lexemes.tail

@[simp] theorem lexemes_advance (p : Parser) : p.advance.lexemes = p.rest :=
  List.map_tail

/-- The current token is of the kind of the first lexeme ahead, or ends the text if there is none. -/
theorem kind_current (hp : p.final.kind = .eof) : p.current.kind = headKind p.lexemes := by
  rw [current, lexemes]
  cases p.ahead <;> simp [hp, Token.lexeme]

/-- The next token is of the kind of the first lexeme behind the window, or ends the text if there is none. -/
theorem kind_next (hp : p.final.kind = .eof) : p.next.kind = headKind p.rest := by
  rw [← lexemes_advance, ← kind_current (p := p.advance) hp, current_advance]

/-- The current lexeme and those behind it are all that lie ahead. -/
theorem lexemes_eq_cons (hp : p.final.kind = .eof) {k : TokenKind} (h : p.current.kind = k)
    (hk : k ≠ .eof) : p.lexemes = ⟨k, p.current.literal⟩ :: p.rest := by
  subst h
  rw [rest, lexemes, current] at *
  cases ha : p.ahead with
  | nil => simp [ha, hp] at hk
  | cons t ts => simp [Token.lexeme]

/-- The next lexeme and those behind it are all that lie behind the window. -/
theorem rest_eq_cons (hp : p.final.kind = .eof) {k : TokenKind} (h : p.next.kind = k)
    (hk : k ≠ .eof) : p.rest = ⟨k, p.next.literal⟩ :: p.advance.rest := by
  rw [← lexemes_advance]
  exact lexemes_eq_cons (p := p.advance) hp h hk

end Parser

/-- A token that continues an expression and is no operator opens a call. -/
theorem TokenKind.eq_lparen_of_lt_precedence {floor : Precedence} {k : TokenKind} (h : floor < k.precedence)
    (hop : k.binaryOp? = none) : k = .lparen := by
  refine Decidable.byContradiction fun hk => ?_
  rw [TokenKind.precedence, if_neg hk, hop] at h
  cases floor <;> simp [Precedence.lt_iff, Precedence.rank] at h

namespace Rule

open Reading

/-- A run that builds `a` and reports nothing. -/
structure Clean {α : Type} (x : Rule α) (p : Parser) (a : α) (q : Parser) : Prop where
  run : x p = .ok a q
  final : p.final.kind = .eof
  size : q.diagnostics.size = p.diagnostics.size

namespace Clean

variable {α β : Type} {x : Rule α} {p q r : Parser} {a : α} {b : β}

/-- The parts of a run that reports nothing report nothing. -/
theorem of_bind {f : α → Rule β} [hx : Forward x] [hf : ∀ a, Forward (f a)] (h : Clean (x >>= f) p b r) :
    ∃ a q, Clean x p a q ∧ Clean (f a) q b r := by
  obtain ⟨a, q, hpq, hqr⟩ := bind_eq_ok.1 h.run
  have h₁ := (hx.ok hpq).size_diagnostics_le
  have h₂ := ((hf a).ok hqr).size_diagnostics_le
  have h₃ := h.size
  exact ⟨a, q, ⟨hpq, h.final, by omega⟩, ⟨hqr, (hx.ok hpq).final ▸ h.final, by omega⟩⟩

/-- Looking at the current token is no part of what a run reads. -/
theorem of_current {f : Token → Rule β} (h : Clean (current >>= f) p b q) : Clean (f p.current) p b q :=
  ⟨h.run, h.final, h.size⟩

theorem of_nextKind {f : TokenKind → Rule β} (h : Clean (nextKind >>= f) p b q) : Clean (f p.next.kind) p b q :=
  ⟨h.run, h.final, h.size⟩

theorem of_name {f : Identifier → Rule β} (h : Clean (name >>= f) p b q) :
    Clean (f ⟨p.current, p.current.literal⟩) p b q := ⟨h.run, h.final, h.size⟩

theorem of_advance {f : Unit → Rule β} (h : Clean (advance >>= f) p b q) : Clean (f ()) p.advance b q :=
  ⟨h.run, h.final, h.size⟩

theorem of_enter {f : Unit → Rule β} (h : Clean (enter >>= f) p b q) : Clean (f ()) (entering p) b q :=
  ⟨h.run, h.final, h.size⟩

/-- Where nothing is reported, the token that was expected came. -/
theorem of_expect {kind : TokenKind} {f : Unit → Rule β} (h : Clean (expect kind >>= f) p b q) :
    p.next.kind = kind ∧ Clean (f ()) p.advance b q := by
  obtain ⟨_, r, hr, hq⟩ := bind_eq_ok.1 h.run
  obtain ⟨hk, rfl⟩ := expect_eq_ok.1 hr
  exact ⟨hk, hq, h.final, h.size⟩

theorem of_pure {a' : α} (h : Clean (pure a) p a' q) : a = a' ∧ p = q :=
  pure_eq_ok.1 h.run

/-- What may be missing is there if its absence is not reported. -/
theorem of_attempt [hx : Forward x] {a : Option α} (h : Clean (attempt x) p a q) : ∃ b, a = some b ∧ Clean x p b q := by
  cases a with
  | some b => exact ⟨b, rfl, attempt_eq_some.1 h.run, h.final, h.size⟩
  | none => exact absurd h.size (Nat.ne_of_gt (hx.unreadable (attempt_eq_none.1 h.run)))

/-- The end token is the same from the start of a run to its end. -/
theorem final_eof [hx : Forward x] (h : Clean x p a q) : q.final.kind = .eof :=
  (hx.ok h.run).final ▸ h.final

/-- A run that reports nothing leaves the reports as they are. -/
theorem diagnostics [hx : Forward x] (h : Clean x p a q) : q.diagnostics = p.diagnostics := by
  have hkept := (hx.ok h.run).diagnostics
  have hlength : p.diagnostics.toList.length = q.diagnostics.toList.length := by simp [h.size]
  exact (Array.toList_inj.1 (hkept.eq_of_length hlength)).symm

end Clean

/-! ## Parameters -/

/-- What the rule for more parameters moves over is read as the names it gives. -/
theorem moreParameters_reads {n : Nat} {p q : Parser} {ps : List Identifier} (hclose : q.next.kind = .rparen)
    (hc : Clean (moreParameters n) p ps q) : MoreParameters p.rest ps q.advance.rest := by
  induction n generalizing p ps with
  | zero => exact absurd hc.run refuse_ne_ok
  | succ n ih =>
    have hp := hc.final
    rw [moreParameters] at hc
    replace hc := hc.of_nextKind
    split at hc
    · next hcomma =>
      obtain ⟨hident, hc⟩ := hc.of_advance.of_expect
      obtain ⟨rest, r, hrest, hc⟩ := hc.of_name.of_bind
      obtain ⟨rfl, rfl⟩ := hc.of_pure
      rw [Parser.rest_eq_cons hp hcomma (by decide), Parser.rest_eq_cons (p := p.advance) hp hident (by decide)]
      exact .more (ih hrest)
    · obtain ⟨rfl, rfl⟩ := hc.of_pure
      rw [Parser.rest_eq_cons hp hclose (by decide)]
      exact .close

/-- What the rule for parameters moves over, its closing parenthesis included, is read as the names it gives. -/
theorem parameters_reads {n : Nat} {p q : Parser} {ps : List Identifier} (hc : Clean (parameters n) p ps q) :
    Parameters p.rest ps q.rest := by
  have hp := hc.final
  replace hc := hc.of_nextKind
  split at hc
  · next hclose =>
    obtain ⟨rfl, rfl⟩ := hc.of_advance.of_pure
    rw [Parser.rest_eq_cons hp hclose (by decide)]
    exact .close
  · obtain ⟨hident, hc⟩ := hc.of_expect
    obtain ⟨rest, r, hrest, hc⟩ := hc.of_name.of_bind
    obtain ⟨hclose, hc⟩ := hc.of_expect
    obtain ⟨rfl, rfl⟩ := hc.of_pure
    rw [Parser.rest_eq_cons hp hident (by decide)]
    exact .some (moreParameters_reads hclose hrest)

/-- A statement ends with the semicolon that was skipped, or before a token that ends an expression. -/
theorem skipSemicolon_reads {p q : Parser} {u : Unit} (hc : Clean skipSemicolon p u q)
    (hstop : (headKind p.rest).endsExpression) : Ending p.rest q.rest := by
  have hq := skipSemicolon_eq_ok.1 hc.run
  split at hq <;> subst hq
  · next hk =>
    rw [Parser.rest_eq_cons hc.final hk (by decide)]
    exact .semicolon
  · next hk => exact .nothing (Parser.kind_next hc.final ▸ hk) hstop

/-! ## One level of the grammar -/

/-- What the runs of each rule at allowance `n` read. -/
structure Reads (n : Nat) : Prop where
  expression : ∀ {floor p e q}, Clean (expression n floor) p e q →
    Chain floor p.lexemes e q.rest ∧ ¬ floor < (headKind q.rest).precedence
  operand : ∀ {p e q}, Clean (operand n) p e q → Operand p.lexemes e q.rest
  unary : ∀ {op p e q}, Clean (unary n op) p e q → ∃ t right, e = .unary t op right ∧
    Chain .unary p.rest right q.rest ∧ ¬ Precedence.unary < (headKind q.rest).precedence
  group : ∀ {p e q}, p.current.kind = .lparen → Clean (group n) p e q → Operand p.lexemes e q.rest
  conditional : ∀ {p e q}, p.current.kind = .ifKeyword → Clean (conditional n) p e q → Operand p.lexemes e q.rest
  function : ∀ {p e q}, p.current.kind = .fnKeyword → Clean (function n) p e q → Operand p.lexemes e q.rest
  extend : ∀ {floor left p e q}, Clean (extend n floor left) p e q → ¬ floor < (headKind q.rest).precedence ∧
    ∀ {ls}, Chain floor ls left p.rest → Chain floor ls e q.rest
  application : ∀ {floor left p e q ls}, Chain floor ls left p.lexemes → floor < p.current.kind.precedence →
    Clean (application n left) p e q → Chain floor ls e q.rest
  arguments : ∀ {p as q}, Clean (arguments n) p as q → Arguments p.rest as q.rest
  moreArguments : ∀ {p as q}, q.next.kind = .rparen → Clean (moreArguments n) p as q →
    MoreArguments p.rest as q.advance.rest
  statement : ∀ {p s q}, Clean (statement n) p s q → Statement p.lexemes s q.rest
  letStatement : ∀ {p s q}, p.current.kind = .letKeyword → Clean (letStatement n) p s q → Statement p.lexemes s q.rest
  returnStatement : ∀ {p s q}, p.current.kind = .returnKeyword → Clean (returnStatement n) p s q →
    Statement p.lexemes s q.rest
  expressionStatement : ∀ {p s q}, Clean (expressionStatement n) p s q → Statement p.lexemes s q.rest
  block : ∀ {p b q}, Clean (block n) p b q →
    ∃ t ss s, b = .block t ss ∧ Statements p.rest ss (⟨.rbrace, s⟩ :: q.rest)
  blockStatements : ∀ {p ss q}, Clean (blockStatements n) p ss q → ∃ s, Statements p.lexemes ss (⟨.rbrace, s⟩ :: q.rest)

namespace Reads

variable {n : Nat}

/-- At no allowance nothing is read. -/
theorem zero : Reads 0 := by
  constructor <;> intros <;> rename_i h <;> exact nomatch h.run

/-- An expression is an operand with what binds tighter than the floor, and stops before what does not. -/
theorem expression_succ (h : Reads n) {floor : Precedence} {p q : Parser} {e : Node}
    (hc : Clean (Rule.expression (n + 1) floor) p e q) :
    Chain floor p.lexemes e q.rest ∧ ¬ floor < (headKind q.rest).precedence := by
  rw [Rule.expression] at hc
  obtain ⟨left, r, hleft, hext⟩ := hc.of_enter.of_bind
  obtain ⟨hstop, hchain⟩ := h.extend hext
  exact ⟨hchain (.operand (h.operand (p := entering p) hleft)), hstop⟩

/-- A numeral that is not reported is read as the number it stands for. -/
theorem integer_reads {p q : Parser} {e : Node} (hk : p.current.kind = .int) (hc : Clean integer p e q) :
    Operand p.lexemes e q.rest := by
  have hp := hc.final
  replace hc := hc.of_current
  dsimp only at hc
  split at hc
  · exact nomatch hc.run
  · next hdigits =>
    split at hc
    · exact nomatch hc.run
    · next hmax =>
      obtain ⟨rfl, rfl⟩ := hc.of_pure
      rw [List.length_map, String.length_toList] at hdigits
      rw [Parser.lexemes_eq_cons hp hk (by decide)]
      exact .integer (Nat.le_of_not_lt hdigits) (Nat.le_of_not_lt hmax)

/-- An operand is read as its first token demands. -/
theorem operand_succ (h : Reads n) {p q : Parser} {e : Node} (hc : Clean (Rule.operand (n + 1)) p e q) :
    Operand p.lexemes e q.rest := by
  have hp := hc.final
  rw [Rule.operand] at hc
  replace hc := hc.of_enter.of_current
  rw [Parser.current_entering] at hc
  split at hc
  · next hk =>
    obtain ⟨rfl, rfl⟩ := hc.of_name.of_pure
    exact Parser.lexemes_eq_cons hp hk (by decide) ▸ .identifier
  · next hk => exact integer_reads (p := entering p) hk hc
  · next hk =>
    obtain ⟨rfl, rfl⟩ := hc.of_pure
    exact Parser.lexemes_eq_cons hp hk (by decide) ▸ .true
  · next hk =>
    obtain ⟨rfl, rfl⟩ := hc.of_pure
    exact Parser.lexemes_eq_cons hp hk (by decide) ▸ .false
  · next hk =>
    obtain ⟨t, right, rfl, hright, hstop⟩ := h.unary hc
    exact Parser.lexemes_eq_cons hp hk (by decide) ▸ .not hright hstop
  · next hk =>
    obtain ⟨t, right, rfl, hright, hstop⟩ := h.unary hc
    exact Parser.lexemes_eq_cons hp hk (by decide) ▸ .negate hright hstop
  · next hk => exact h.group (p := entering p) hk hc
  · next hk => exact h.conditional (p := entering p) hk hc
  · next hk => exact h.function (p := entering p) hk hc
  · exact absurd hc.run giveUp_ne_ok

/-- A prefix operator is read with what binds as tightly as it does. -/
theorem unary_succ (h : Reads n) {op : UnaryOp} {p q : Parser} {e : Node}
    (hc : Clean (Rule.unary (n + 1) op) p e q) : ∃ t right, e = .unary t op right ∧
      Chain .unary p.rest right q.rest ∧ ¬ Precedence.unary < (headKind q.rest).precedence := by
  rw [Rule.unary] at hc
  obtain ⟨right, r, hright, hc⟩ := hc.of_current.of_advance.of_bind
  obtain ⟨right, rfl, hexp⟩ := hright.of_attempt
  obtain ⟨rfl, rfl⟩ := hc.of_pure
  exact ⟨_, right, rfl, Parser.lexemes_advance p ▸ h.expression hexp⟩

/-- What stands in parentheses is read as an operand. -/
theorem group_succ (h : Reads n) {p q : Parser} {e : Node} (hk : p.current.kind = .lparen)
    (hc : Clean (Rule.group (n + 1)) p e q) : Operand p.lexemes e q.rest := by
  rw [Parser.lexemes_eq_cons hc.final hk (by decide)]
  rw [Rule.group] at hc
  obtain ⟨inner, r, hinner, hc⟩ := hc.of_advance.of_bind
  obtain ⟨hclose, hc⟩ := hc.of_expect
  obtain ⟨rfl, rfl⟩ := hc.of_pure
  obtain ⟨hchain, -⟩ := h.expression hinner
  rw [Parser.lexemes_advance, Parser.rest_eq_cons hinner.final_eof hclose (by decide)] at hchain
  exact .group hchain

set_option synthInstance.maxSize 256 in
/-- An `if` is read as an operand, with or without its `else`. -/
theorem conditional_succ (h : Reads n) {p q : Parser} {e : Node} (hk : p.current.kind = .ifKeyword)
    (hc : Clean (Rule.conditional (n + 1)) p e q) : Operand p.lexemes e q.rest := by
  have hp := hc.final
  rw [Rule.conditional] at hc
  obtain ⟨hopen, hc⟩ := hc.of_current.of_expect
  obtain ⟨c, r, hcond, hc⟩ := hc.of_advance.of_bind
  obtain ⟨hclose, hc⟩ := hc.of_expect
  obtain ⟨hbrace, hc⟩ := hc.of_expect
  obtain ⟨b₁, r₁, hb₁, hc⟩ := hc.of_bind
  obtain ⟨hchain, -⟩ := h.expression hcond
  obtain ⟨t₁, ss₁, s₁, rfl, hss₁⟩ := h.block hb₁
  have hr := hcond.final_eof
  rw [Parser.lexemes_advance, Parser.rest_eq_cons hr hclose (by decide),
    Parser.rest_eq_cons (p := r.advance) hr hbrace (by decide)] at hchain
  rw [Parser.lexemes_eq_cons hp hk (by decide), Parser.rest_eq_cons hp hopen (by decide)]
  have hr₁ := hb₁.final_eof
  replace hc := hc.of_nextKind
  split at hc
  · next helse =>
    obtain ⟨hbrace₂, hc⟩ := hc.of_advance.of_expect
    obtain ⟨b₂, r₂, hb₂, hc⟩ := hc.of_bind
    obtain ⟨rfl, rfl⟩ := hc.of_pure
    obtain ⟨t₂, ss₂, s₂, rfl, hss₂⟩ := h.block hb₂
    rw [Parser.rest_eq_cons hr₁ helse (by decide),
      Parser.rest_eq_cons (p := r₁.advance) hr₁ hbrace₂ (by decide)] at hss₁
    exact .ifThenElse hchain hss₁ hss₂
  · next helse =>
    obtain ⟨rfl, rfl⟩ := hc.of_pure
    exact .ifThen hchain hss₁ (Parser.kind_next hr₁ ▸ helse)

/-- A function is read as an operand. -/
theorem function_succ (h : Reads n) {p q : Parser} {e : Node} (hk : p.current.kind = .fnKeyword)
    (hc : Clean (Rule.function (n + 1)) p e q) : Operand p.lexemes e q.rest := by
  have hp := hc.final
  rw [Rule.function] at hc
  obtain ⟨hopen, hc⟩ := hc.of_current.of_expect
  obtain ⟨ps, r, hps, hc⟩ := hc.of_bind
  obtain ⟨hbrace, hc⟩ := hc.of_expect
  obtain ⟨b, r₁, hb, hc⟩ := hc.of_bind
  obtain ⟨rfl, rfl⟩ := hc.of_pure
  obtain ⟨t, ss, s, rfl, hss⟩ := h.block hb
  have hread := parameters_reads hps
  rw [Parser.rest_eq_cons hps.final_eof hbrace (by decide)] at hread
  rw [Parser.lexemes_eq_cons hp hk (by decide), Parser.rest_eq_cons hp hopen (by decide)]
  exact .function hread hss

/-- An expression that is extended is a longer one, up to where nothing binds tighter than the floor. -/
theorem extend_succ (h : Reads n) {floor : Precedence} {left e : Node} {p q : Parser}
    (hc : Clean (Rule.extend (n + 1) floor left) p e q) : ¬ floor < (headKind q.rest).precedence ∧
      ∀ {ls}, Chain floor ls left p.rest → Chain floor ls e q.rest := by
  have hp := hc.final
  rw [Rule.extend] at hc
  replace hc := hc.of_nextKind
  split at hc
  · next hlt =>
    obtain ⟨longer, r, happ, hext⟩ := hc.of_advance.of_bind
    obtain ⟨hstop, hchain⟩ := h.extend hext
    exact ⟨hstop, fun hls => hchain (h.application (p := p.advance) (Parser.lexemes_advance p ▸ hls) hlt happ)⟩
  · next hlt =>
    obtain ⟨rfl, rfl⟩ := hc.of_pure
    exact ⟨Parser.kind_next hp ▸ hlt, id⟩

/-- An operator or a call that binds tighter than the floor makes a longer expression. -/
theorem application_succ (h : Reads n) {floor : Precedence} {left e : Node} {p q : Parser} {ls : List Lexeme}
    (hls : Chain floor ls left p.lexemes) (hlt : floor < p.current.kind.precedence)
    (hc : Clean (Rule.application (n + 1) left) p e q) : Chain floor ls e q.rest := by
  have hp := hc.final
  rw [Parser.lexemes_eq_cons hp rfl (TokenKind.ne_eof_of_lt_precedence hlt)] at hls
  rw [Rule.application] at hc
  replace hc := hc.of_enter.of_current
  rw [Parser.current_entering] at hc
  cases hop : p.current.kind.binaryOp? with
  | some op =>
    rw [hop] at hc
    obtain ⟨right, r, hright, hc⟩ := hc.of_advance.of_bind
    obtain ⟨rfl, rfl⟩ := hc.of_pure
    obtain ⟨hchain, hstop⟩ := h.expression hright
    exact .binary hls hop hlt (Parser.lexemes_advance p ▸ hchain) hstop
  | none =>
    rw [hop] at hc
    have hk := TokenKind.eq_lparen_of_lt_precedence hlt hop
    obtain ⟨args, r, hargs, hc⟩ := hc.of_bind
    obtain ⟨rfl, rfl⟩ := hc.of_pure
    rw [hk] at hls hlt
    exact .call hls hlt (h.arguments (p := entering p) hargs)

/-- What the rule for arguments moves over is read as the expressions it gives. -/
theorem arguments_succ (h : Reads n) {p q : Parser} {as : List Node} (hc : Clean (Rule.arguments (n + 1)) p as q) :
    Arguments p.rest as q.rest := by
  have hp := hc.final
  rw [Rule.arguments] at hc
  replace hc := hc.of_nextKind
  split at hc
  · next hclose =>
    obtain ⟨rfl, rfl⟩ := hc.of_advance.of_pure
    rw [Parser.rest_eq_cons hp hclose (by decide)]
    exact .close
  · obtain ⟨first, r, hfirst, hc⟩ := hc.of_advance.of_bind
    obtain ⟨rest, r', hrest, hc⟩ := hc.of_bind
    obtain ⟨hclose, hc⟩ := hc.of_expect
    obtain ⟨rfl, rfl⟩ := hc.of_pure
    exact .some (Parser.lexemes_advance p ▸ (h.expression hfirst).1) (h.moreArguments hclose hrest)

/-- What the rule for more arguments moves over is read as the expressions it gives. -/
theorem moreArguments_succ (h : Reads n) {p q : Parser} {as : List Node} (hclose : q.next.kind = .rparen)
    (hc : Clean (Rule.moreArguments (n + 1)) p as q) : MoreArguments p.rest as q.advance.rest := by
  have hp := hc.final
  rw [Rule.moreArguments] at hc
  replace hc := hc.of_nextKind
  split at hc
  · next hcomma =>
    obtain ⟨first, r, hfirst, hc⟩ := hc.of_advance.of_advance.of_bind
    obtain ⟨rest, r', hrest, hc⟩ := hc.of_bind
    obtain ⟨rfl, rfl⟩ := hc.of_pure
    rw [Parser.rest_eq_cons hp hcomma (by decide)]
    exact .more (Parser.lexemes_advance p.advance ▸ (h.expression hfirst).1) (h.moreArguments hclose hrest)
  · obtain ⟨rfl, rfl⟩ := hc.of_pure
    rw [Parser.rest_eq_cons hp hclose (by decide)]
    exact .close

/-- A statement is read as its first token demands. -/
theorem statement_succ (h : Reads n) {p q : Parser} {s : Node} (hc : Clean (Rule.statement (n + 1)) p s q) :
    Statement p.lexemes s q.rest := by
  rw [Rule.statement] at hc
  replace hc := hc.of_enter.of_current
  split at hc
  · next hk => exact h.letStatement (p := entering p) hk hc
  · next hk => exact h.returnStatement (p := entering p) hk hc
  · exact h.expressionStatement (p := entering p) hc

/-- What the rule for `let` moves over is read as its statement. -/
theorem letStatement_succ (h : Reads n) {p q : Parser} {s : Node} (hk : p.current.kind = .letKeyword)
    (hc : Clean (Rule.letStatement (n + 1)) p s q) : Statement p.lexemes s q.rest := by
  have hp := hc.final
  rw [Rule.letStatement] at hc
  obtain ⟨hident, hc⟩ := hc.of_current.of_expect
  obtain ⟨hassign, hc⟩ := hc.of_name.of_expect
  obtain ⟨value, r, hvalue, hc⟩ := hc.of_advance.of_bind
  obtain ⟨_, r', hsemi, hc⟩ := hc.of_bind
  obtain ⟨rfl, rfl⟩ := hc.of_pure
  obtain ⟨value, rfl, hexp⟩ := hvalue.of_attempt
  obtain ⟨hchain, hstop⟩ := h.expression hexp
  rw [Parser.lexemes_eq_cons hp hk (by decide), Parser.rest_eq_cons hp hident (by decide),
    Parser.rest_eq_cons (p := p.advance) hp hassign (by decide)]
  exact .letStatement (Parser.lexemes_advance _ ▸ hchain) (skipSemicolon_reads hsemi hstop)

/-- What the rule for `return` moves over is read as its statement. -/
theorem returnStatement_succ (h : Reads n) {p q : Parser} {s : Node} (hk : p.current.kind = .returnKeyword)
    (hc : Clean (Rule.returnStatement (n + 1)) p s q) : Statement p.lexemes s q.rest := by
  have hp := hc.final
  rw [Parser.lexemes_eq_cons hp hk (by decide)]
  rw [Rule.returnStatement] at hc
  replace hc := hc.of_current.of_nextKind
  split at hc
  · next hsemi =>
    obtain ⟨rfl, rfl⟩ := hc.of_advance.of_pure
    rw [Parser.rest_eq_cons hp hsemi (by decide)]
    exact .returnNothing
  · split at hc
    · next hlast =>
      obtain ⟨rfl, rfl⟩ := hc.of_pure
      exact .returnLast (Parser.kind_next hp ▸ hlast)
    · obtain ⟨value, r, hvalue, hc⟩ := hc.of_advance.of_bind
      obtain ⟨_, r', hsemi, hc⟩ := hc.of_bind
      obtain ⟨rfl, rfl⟩ := hc.of_pure
      obtain ⟨value, rfl, hexp⟩ := hvalue.of_attempt
      obtain ⟨hchain, hstop⟩ := h.expression hexp
      exact .returnValue (Parser.lexemes_advance p ▸ hchain) (skipSemicolon_reads hsemi hstop)

/-- An expression that stands as a statement is read as one. -/
theorem expressionStatement_succ (h : Reads n) {p q : Parser} {s : Node}
    (hc : Clean (Rule.expressionStatement (n + 1)) p s q) : Statement p.lexemes s q.rest := by
  rw [Rule.expressionStatement] at hc
  obtain ⟨e, r, hexp, hc⟩ := hc.of_current.of_bind
  obtain ⟨_, r', hsemi, hc⟩ := hc.of_bind
  obtain ⟨rfl, rfl⟩ := hc.of_pure
  obtain ⟨hchain, hstop⟩ := h.expression hexp
  exact .expression hchain (skipSemicolon_reads hsemi hstop)

/-- The statements of a block are read up to its closing brace. -/
theorem block_succ (h : Reads n) {p q : Parser} {b : Node} (hc : Clean (Rule.block (n + 1)) p b q) :
    ∃ t ss s, b = .block t ss ∧ Statements p.rest ss (⟨.rbrace, s⟩ :: q.rest) := by
  rw [Rule.block] at hc
  obtain ⟨ss, r, hss, hc⟩ := hc.of_enter.of_current.of_advance.of_bind
  obtain ⟨rfl, rfl⟩ := hc.of_pure
  obtain ⟨s, hread⟩ := h.blockStatements hss
  exact ⟨_, ss, s, rfl, Parser.lexemes_advance (entering p) ▸ hread⟩

/-- What stands before the closing brace is read as statements. -/
theorem blockStatements_succ (h : Reads n) {p q : Parser} {ss : List Node}
    (hc : Clean (Rule.blockStatements (n + 1)) p ss q) :
    ∃ s, Statements p.lexemes ss (⟨.rbrace, s⟩ :: q.rest) := by
  have hp := hc.final
  rw [Rule.blockStatements] at hc
  replace hc := hc.of_current
  split at hc
  · next hk =>
    obtain ⟨rfl, rfl⟩ := hc.of_pure
    rw [Parser.lexemes_eq_cons hp hk (by decide)]
    exact ⟨_, .nil⟩
  · split at hc
    · -- the end of the text in a block is reported
      have hq := hc.run
      have := hc.size
      rw [bind_report, pure_eq_ok] at hq
      obtain ⟨rfl, rfl⟩ := hq
      simp [reporting] at this
    · obtain ⟨first, r, hfirst, hc⟩ := hc.of_bind
      obtain ⟨rest, r', hrest, hc⟩ := hc.of_advance.of_bind
      obtain ⟨rfl, rfl⟩ := hc.of_pure
      obtain ⟨first, rfl, hstmt⟩ := hfirst.of_attempt
      obtain ⟨s, hread⟩ := h.blockStatements hrest
      exact ⟨s, .cons (h.statement hstmt) (Parser.lexemes_advance r ▸ hread)⟩

/-- **What a rule builds without a report is what it has read.** -/
theorem all : ∀ n, Reads n
  | 0 => zero
  | n + 1 =>
    have h := all n
    { expression := h.expression_succ
      operand := h.operand_succ
      unary := h.unary_succ
      group := h.group_succ
      conditional := h.conditional_succ
      function := h.function_succ
      extend := h.extend_succ
      application := h.application_succ
      arguments := h.arguments_succ
      moreArguments := h.moreArguments_succ
      statement := h.statement_succ
      letStatement := h.letStatement_succ
      returnStatement := h.returnStatement_succ
      expressionStatement := h.expressionStatement_succ
      block := h.block_succ
      blockStatements := h.blockStatements_succ }

end Reads

/-- What stands before the end of the text is read as statements. -/
theorem programStatements_reads {n : Nat} {p q : Parser} {ss : List Node} (ha : ∀ t ∈ p.ahead, t.kind ≠ .eof)
    (hc : Clean (programStatements n) p ss q) : Statements p.lexemes ss [] := by
  induction n generalizing p ss with
  | zero => exact nomatch hc.run
  | succ n ih =>
    have hp := hc.final
    rw [programStatements] at hc
    replace hc := hc.of_current
    split at hc
    · next hk =>
      obtain ⟨rfl, rfl⟩ := hc.of_pure
      rw [Parser.lexemes, Parser.ahead_eq_nil ha hk]
      exact .nil
    · obtain ⟨first, r, hfirst, hc⟩ := hc.of_bind
      obtain ⟨rest, r', hrest, hc⟩ := hc.of_advance.of_bind
      obtain ⟨rfl, rfl⟩ := hc.of_pure
      obtain ⟨first, rfl, hstmt⟩ := hfirst.of_attempt
      have hsub : r.advance.ahead ⊆ p.ahead :=
        ((List.tail_suffix _).trans (Forward.ok hstmt.run).ahead).subset
      exact .cons ((Reads.all n).statement hstmt) (Parser.lexemes_advance r ▸ ih (fun t ht => ha t (hsub ht)) hrest)

end Rule

/-! ## A whole text -/

/-- What can be said of the outcome of parsing is said of a tree and its diagnostics. -/
theorem exists_of_map_parse {text : String} {α : Type} {f : Parse → α} {a : α}
    (h : (parse text).toOption.map f = some a) : ∃ p, parse text = .ok p ∧ f p = a := by
  cases hp : parse text with
  | ok p =>
    rw [hp] at h
    exact ⟨p, rfl, Option.some.inj h⟩
  | error why =>
    rw [hp] at h
    cases h

/-- Nothing is wrong with a text. -/
def isAccepted (text : String) : Bool :=
  match parse text with
  | .ok p => p.diagnostics.isEmpty
  | .error _ => false

/-- A text that is accepted is parsed without a report. -/
theorem exists_of_isAccepted {text : String} (htext : isAccepted text) :
    ∃ p, parse text = .ok p ∧ p.diagnostics = [] := by
  unfold isAccepted at htext
  split at htext
  · exact ⟨_, ‹_›, List.isEmpty_iff.1 htext⟩
  · cases htext

/-- Where nothing is reported of a text, its statements are built without a report. -/
theorem Rule.clean_of_parse {text : String} {p : Parse} (h : parse text = .ok p) (hd : p.diagnostics = []) :
    ∃ ss q, p.program = .program ss ∧
      Clean (programStatements (Parser.ofText text).allowance) (entering (.ofText text)) ss q := by
  obtain ⟨ss, q, hss, rfl⟩ := programStatements_of_parse h (Nat.le_refl _)
  have hq : q.diagnostics = #[] := Array.toList_eq_nil_iff.1 hd
  refine ⟨ss, q, rfl, hss, Parser.final_ofText text, ?_⟩
  rw [hq]
  rfl

/-- **A text without reports is read as the tree it gives.** -/
theorem reads_of_parse {text : String} {p : Parse} (h : parse text = .ok p) (hd : p.diagnostics = []) :
    ∃ ss, p.program = .program ss ∧ Reading.Statements (lexemesOf text) ss [] := by
  obtain ⟨ss, q, hprogram, hclean⟩ := Rule.clean_of_parse h hd
  exact ⟨ss, hprogram, Rule.programStatements_reads (fun t ht => Cursor.kind_ne_eof_of_mem_toEnd ht) hclean⟩

end Monkey
