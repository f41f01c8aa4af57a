import Monkey.Proofs.Parse.Steps

/-!
# The allowance for nesting is enough

Each rule needs an allowance of at most four for each token ahead and a constant that depends on the rule, since no
more than four rules are entered before the window moves. So a rule that starts with the allowance of its window
never runs out of it: a text is refused for a numeral that is too long, or not at all (`parse_refuses`), and a larger
allowance would change nothing (`Rule.parse_eq`). Programs and blocks are never given up either (`Rule.Persists`): what
cannot be read in them is reported and left out.
-/

namespace Monkey

namespace Parser

variable {p : Parser}

@[simp] theorem length_ahead_advance (p : Parser) : p.advance.ahead.length = p.ahead.length - 1 :=
  List.length_tail

@[simp] theorem ahead_entering (p : Parser) : (Rule.entering p).ahead = p.ahead := rfl

@[simp] theorem current_entering (p : Parser) : (Rule.entering p).current = p.current := rfl

@[simp] theorem next_entering (p : Parser) : (Rule.entering p).next = p.next := rfl

@[simp] theorem current_advance (p : Parser) : p.advance.current = p.next := rfl

/-- A current token that is not the end token is the first one ahead. -/
theorem ahead_eq_cons (hp : p.final.kind = .eof) (h : p.current.kind ≠ .eof) :
    p.ahead = p.current :: p.advance.ahead := by
  rw [current, advance] at *
  cases ha : p.ahead with
  | nil => simp [ha, hp] at h
  | cons t ts => rfl

/-- A current token that is not the end is one of those ahead. -/
theorem current_mem_ahead (hp : p.final.kind = .eof) (h : p.current.kind ≠ .eof) : p.current ∈ p.ahead := by
  rw [ahead_eq_cons hp h]
  exact List.mem_cons_self

theorem one_le_length_ahead (hp : p.final.kind = .eof) (h : p.current.kind ≠ .eof) : 1 ≤ p.ahead.length :=
  List.length_pos_of_mem (current_mem_ahead hp h)

/-- If the next token is not the end, two tokens are ahead. -/
theorem two_le_length_ahead (hp : p.final.kind = .eof) (h : p.next.kind ≠ .eof) : 2 ≤ p.ahead.length := by
  have := one_le_length_ahead (p := p.advance) hp h
  rw [length_ahead_advance] at this
  omega

/-- Only behind all tokens the end token is the current one. -/
theorem ahead_eq_nil (ha : ∀ t ∈ p.ahead, t.kind ≠ .eof) (hk : p.current.kind = .eof) : p.ahead = [] := by
  rw [current] at hk
  cases h : p.ahead with
  | nil => rfl
  | cons t ts => exact absurd (by simpa [h] using hk) (ha t (by simp [h]))

/-- The tokens from the current one on, the end token last. -/
def tokens (p : Parser) : List Token :=
  p.ahead ++ [p.final]

/-- A parser further on has the end of the same tokens left. -/
theorem Reaches.tokens {q : Parser} (h : p.Reaches q) : q.tokens <:+ p.tokens := by
  obtain ⟨before, hbefore⟩ := h.ahead
  exact ⟨before, by rw [Parser.tokens, Parser.tokens, ← hbefore, h.final, List.append_assoc]⟩

/-- The current token is the first of those that are left. -/
theorem exists_tokens_eq (p : Parser) : ∃ rest, p.tokens = p.current :: rest := by
  rw [Parser.tokens, Parser.current]
  cases p.ahead with
  | nil => exact ⟨[], rfl⟩
  | cons t ts => exact ⟨ts ++ [p.final], rfl⟩

/-- Before the end the current token stands in front of the next one. -/
theorem tokens_eq_cons (hp : p.final.kind = .eof) (hk : p.current.kind ≠ .eof) :
    ∃ rest, p.tokens = p.current :: p.next :: rest := by
  obtain ⟨rest, hrest⟩ := p.advance.exists_tokens_eq
  rw [current_advance] at hrest
  refine ⟨rest, ?_⟩
  rw [Parser.tokens, ahead_eq_cons hp hk, ← hrest]
  rfl

end Parser

/-- A token that binds tighter than the lowest level is not the end token. -/
theorem TokenKind.ne_eof_of_lt_precedence {floor : Precedence} {k : TokenKind} (h : floor < k.precedence) :
    k ≠ .eof := by
  rintro rfl
  cases floor <;> simp [TokenKind.precedence, TokenKind.binaryOp?, Precedence.lt_iff, Precedence.rank] at h

namespace Rule

/-- Where `x` refuses the text at `p`, a numeral ahead has too many digits, and it is refused for that. -/
def Answers {α : Type} (x : Rule α) (p : Parser) : Prop :=
  ∀ why q, x p = .error (.refused why) q →
    ∃ t ∈ p.ahead, t.kind = .int ∧ maxDigits < t.literal.length ∧ why = .numeralTooLong t.literal.length

namespace Answers

variable {α β : Type} {x : Rule α} {p q : Parser}

/-- A rule that is refused only where another one is answers as that one does further on. -/
theorem of_ahead_suffix {y : Rule β} (h : Answers y q) (hq : q.ahead <:+ p.ahead)
    (hy : ∀ why r, x p = .error (.refused why) r → y q = .error (.refused why) r) : Answers x p := by
  intro why r hr
  obtain ⟨t, ht, hkind⟩ := h why r (hy why r hr)
  exact ⟨t, hq.subset ht, hkind⟩

theorem pure (a : α) : Answers (pure a) p := nofun

/-- A rule that reports a problem and gives up refuses nothing. -/
theorem fail (problem : Problem) (token : Token) : Answers (report problem token >>= fun _ => (giveUp : Rule α)) p :=
  nofun

/-- A sequence of rules answers if each does where it begins. -/
theorem bind {f : α → Rule β} [hf : Forward x] (hx : Answers x p) (hq : ∀ a q, p.Reaches q → Answers (f a) q) :
    Answers (x >>= f) p := by
  intro why r hr
  obtain h | ⟨a, q, hxq, h⟩ := bind_eq_error.1 hr
  · exact hx why r h
  · obtain ⟨t, ht, hkind⟩ := hq a q (hf.ok hxq) why r h
    exact ⟨t, (hf.ok hxq).ahead.subset ht, hkind⟩

/-- What follows a rule that may give up answers wherever that rule stops. -/
theorem bind_attempt {f : Option α → Rule β} [Forward x] (hx : Answers x p)
    (hq : ∀ a q, p.Reaches q → Answers (f a) q) : Answers (attempt x >>= f) p := by
  refine bind (fun why r hr => ?_) hq
  rw [attempt_run] at hr
  split at hr <;> cases hr
  exact hx why r ‹_›

theorem bind_current {f : Token → Rule β} (h : Answers (f p.current) p) : Answers (current >>= f) p := h

theorem bind_nextKind {f : TokenKind → Rule β} (h : Answers (f p.next.kind) p) : Answers (nextKind >>= f) p := h

theorem bind_advance {f : Unit → Rule β} (h : Answers (f ()) p.advance) : Answers (advance >>= f) p :=
  h.of_ahead_suffix (List.tail_suffix _) fun _ _ => id

theorem bind_enter {f : Unit → Rule β} (h : Answers (f ()) (entering p)) : Answers (enter >>= f) p :=
  h.of_ahead_suffix (List.suffix_refl _) fun _ _ => id

theorem bind_name {f : Identifier → Rule β} (h : Answers (f ⟨p.current, p.current.literal⟩) p) :
    Answers (name >>= f) p :=
  h.of_ahead_suffix (List.suffix_refl _) fun _ _ => id

/-- What follows an expected token answers where that token has come. -/
theorem bind_expect {kind : TokenKind} {f : Unit → Rule β} (h : p.next.kind = kind → Answers (f ()) p.advance) :
    Answers (expect kind >>= f) p := by
  intro why r hr
  obtain hr | ⟨a, q, hq, hr⟩ := bind_eq_error.1 hr
  · rw [expect_run] at hr
    split at hr <;> cases hr
  · obtain ⟨hk, rfl⟩ := expect_eq_ok.1 hq
    exact bind_advance (h hk) why r hr

theorem bind_skipSemicolon {f : Unit → Rule β} (h : ∀ q, p.Reaches q → Answers (f ()) q) :
    Answers (skipSemicolon >>= f) p := by
  have hq : p.Reaches (if p.next.kind = .semicolon then p.advance else p) := by
    split
    · exact .advance p
    · exact .refl p
  exact (h _ hq).of_ahead_suffix hq.ahead fun why r hr => by rwa [bind_of_ok (skipSemicolon_run p)] at hr

end Answers

/-! ## What each rule needs -/

/-- A numeral is refused only for its digits. -/
theorem answers_integer {p : Parser} (hp : p.final.kind = .eof) (hk : p.current.kind = .int) : Answers integer p := by
  change Answers (if maxDigits < _ then _ else _) p
  intro why q hq
  split at hq
  · next h =>
    rw [List.length_map, String.length_toList] at h hq
    cases hq
    exact ⟨p.current, Parser.current_mem_ahead hp (by simp [hk]), hk, h, rfl⟩
  · split at hq <;> cases hq

/-- With more allowance than tokens ahead, more parameters are not refused for their depth. -/
theorem answers_moreParameters {n : Nat} {p : Parser} (hp : p.final.kind = .eof) (hn : p.ahead.length < n) :
    Answers (moreParameters n) p := by
  induction n generalizing p with
  | zero => omega
  | succ n ih =>
    rw [moreParameters]
    refine .bind_nextKind ?_
    split
    · next h =>
      have := Parser.two_le_length_ahead hp (by simp [h])
      refine .bind_advance (.bind_expect fun _ => .bind_name ?_)
      refine .bind (ih hp ?_) fun _ _ _ => .pure _
      simp only [Parser.length_ahead_advance]
      omega
    · exact .pure _

/-- With more allowance than tokens ahead, parameters are not refused for their depth. -/
theorem answers_parameters {n : Nat} {p : Parser} (hp : p.final.kind = .eof) (hn : p.ahead.length < n) :
    Answers (parameters n) p := by
  refine .bind_nextKind ?_
  split
  · exact .bind_advance (.pure _)
  · refine .bind_expect fun _ => .bind_name ?_
    refine .bind (answers_moreParameters hp ?_) fun _ _ _ =>
      .bind_expect fun _ => .pure _
    simp only [Parser.length_ahead_advance]
    omega

/-- The allowance `n` is enough for every rule, from windows with few enough tokens ahead. The rules that another one
enters for the sake of the current token have that token ahead. -/
structure Enough (n : Nat) : Prop where
  expression : ∀ floor p, p.final.kind = .eof → 4 * p.ahead.length + 2 ≤ n → Answers (expression n floor) p
  operand : ∀ p, p.final.kind = .eof → 4 * p.ahead.length + 1 ≤ n → Answers (operand n) p
  unary : ∀ op p, p.final.kind = .eof → 1 ≤ p.ahead.length → 4 * p.ahead.length ≤ n → Answers (unary n op) p
  group : ∀ p, p.final.kind = .eof → 1 ≤ p.ahead.length → 4 * p.ahead.length ≤ n → Answers (group n) p
  conditional : ∀ p, p.final.kind = .eof → 1 ≤ p.ahead.length → 4 * p.ahead.length ≤ n → Answers (conditional n) p
  function : ∀ p, p.final.kind = .eof → 1 ≤ p.ahead.length → 4 * p.ahead.length ≤ n → Answers (function n) p
  extend : ∀ floor left p, p.final.kind = .eof → 4 * p.ahead.length + 1 ≤ n → Answers (extend n floor left) p
  application : ∀ left p, p.final.kind = .eof → 1 ≤ p.ahead.length → 4 * p.ahead.length + 2 ≤ n →
    Answers (application n left) p
  arguments : ∀ p, p.final.kind = .eof → 1 ≤ p.ahead.length → 4 * p.ahead.length + 1 ≤ n → Answers (arguments n) p
  moreArguments : ∀ p, p.final.kind = .eof → 4 * p.ahead.length + 1 ≤ n → Answers (moreArguments n) p
  statement : ∀ p, p.final.kind = .eof → 4 * p.ahead.length + 4 ≤ n → Answers (statement n) p
  letStatement : ∀ p, p.final.kind = .eof → 4 * p.ahead.length + 3 ≤ n → Answers (letStatement n) p
  returnStatement : ∀ p, p.final.kind = .eof → 4 * p.ahead.length + 3 ≤ n → Answers (returnStatement n) p
  expressionStatement : ∀ p, p.final.kind = .eof → 4 * p.ahead.length + 3 ≤ n → Answers (expressionStatement n) p
  block : ∀ p, p.final.kind = .eof → 4 * p.ahead.length + 6 ≤ n → Answers (block n) p
  blockStatements : ∀ p, p.final.kind = .eof → 4 * p.ahead.length + 5 ≤ n → Answers (blockStatements n) p

namespace Enough

variable {n : Nat}

/-- An allowance of nothing is never enough, and no window is that small. -/
theorem zero : Enough 0 := by
  constructor <;> intros <;> omega

/-- The rule for the operand takes one of the allowance, and the operand moves on before it is extended. -/
theorem expression_succ (h : Enough n) (floor : Precedence) (p : Parser) (hp : p.final.kind = .eof)
    (hn : 4 * p.ahead.length + 2 ≤ n + 1) : Answers (Rule.expression (n + 1) floor) p := by
  rw [Rule.expression]
  refine .bind_enter (.bind (h.operand _ hp (by simpa using hn)) fun left q hq => ?_)
  have := hq.length_ahead_le
  rw [Parser.ahead_entering] at this
  exact h.extend floor left q (hq.final ▸ hp) (by omega)

/-- The rule that the operand calls has the token ahead that it is called for. -/
theorem operand_succ (h : Enough n) (p : Parser) (hp : p.final.kind = .eof)
    (hn : 4 * p.ahead.length + 1 ≤ n + 1) : Answers (Rule.operand (n + 1)) p := by
  rw [Rule.operand]
  refine .bind_enter (.bind_current ?_)
  rw [Parser.current_entering]
  have hone : p.current.kind ≠ .eof → 1 ≤ (entering p).ahead.length := Parser.one_le_length_ahead hp
  have hlen : 4 * (entering p).ahead.length ≤ n := by simpa using hn
  split
  · exact .bind_name (.pure _)
  · next hk => exact answers_integer hp hk
  · exact .pure _
  · exact .pure _
  · next hk => exact h.unary _ _ hp (hone (by simp [hk])) hlen
  · next hk => exact h.unary _ _ hp (hone (by simp [hk])) hlen
  · next hk => exact h.group _ hp (hone (by simp [hk])) hlen
  · next hk => exact h.conditional _ hp (hone (by simp [hk])) hlen
  · next hk => exact h.function _ hp (hone (by simp [hk])) hlen
  · exact .fail _ _

theorem unary_succ (h : Enough n) (op : UnaryOp) (p : Parser) (hp : p.final.kind = .eof) (hone : 1 ≤ p.ahead.length)
    (hn : 4 * p.ahead.length ≤ n + 1) : Answers (Rule.unary (n + 1) op) p := by
  rw [Rule.unary]
  refine .bind_current (.bind_advance ?_)
  refine .bind_attempt (h.expression _ _ hp ?_) fun _ _ _ => .pure _
  rw [Parser.length_ahead_advance]
  omega

theorem group_succ (h : Enough n) (p : Parser) (hp : p.final.kind = .eof) (hone : 1 ≤ p.ahead.length)
    (hn : 4 * p.ahead.length ≤ n + 1) : Answers (Rule.group (n + 1)) p := by
  rw [Rule.group]
  refine .bind_advance (.bind (h.expression _ _ hp ?_) fun _ _ _ =>
    .bind_expect fun _ => .pure _)
  rw [Parser.length_ahead_advance]
  omega

/-- A block behind a token that was expected: two tokens further there is room for all its levels. -/
theorem block_of_expect (h : Enough n) {p q : Parser} (hp : p.final.kind = .eof) (hone : 1 ≤ p.ahead.length)
    (hn : 4 * p.ahead.length ≤ n + 1) (hq : p.advance.Reaches q) (hk : q.next.kind = .lbrace) :
    Answers (Rule.block n) q.advance := by
  have hf : q.final.kind = .eof := hq.final ▸ hp
  have := hq.length_ahead_le
  have := Parser.two_le_length_ahead hf (by simp [hk])
  rw [Parser.length_ahead_advance] at *
  refine h.block _ hf ?_
  rw [Parser.length_ahead_advance]
  omega

theorem conditional_succ (h : Enough n) (p : Parser) (hp : p.final.kind = .eof) (hone : 1 ≤ p.ahead.length)
    (hn : 4 * p.ahead.length ≤ n + 1) : Answers (Rule.conditional (n + 1)) p := by
  rw [Rule.conditional]
  refine .bind_current (.bind_expect fun _ => .bind_advance ?_)
  refine .bind (h.expression _ _ hp ?_) fun c q₁ hq₁ => ?_
  · simp only [Parser.length_ahead_advance]
    omega
  have hr₁ : p.advance.Reaches q₁ := .trans (.advance _) hq₁
  refine .bind_expect fun _ => .bind_expect fun hk => ?_
  refine .bind (h.block_of_expect hp hone hn (hr₁.trans (.advance _)) hk) fun t q₂ hq₂ => ?_
  have hr₂ : p.advance.Reaches q₂ := ((hr₁.trans (.advance _)).trans (.advance _)).trans hq₂
  refine .bind_nextKind ?_
  split
  · refine .bind_advance (.bind_expect fun hk => ?_)
    exact .bind (h.block_of_expect hp hone hn (hr₂.trans (.advance _)) hk) fun _ _ _ => .pure _
  · exact .pure _

theorem function_succ (h : Enough n) (p : Parser) (hp : p.final.kind = .eof) (hone : 1 ≤ p.ahead.length)
    (hn : 4 * p.ahead.length ≤ n + 1) : Answers (Rule.function (n + 1)) p := by
  rw [Rule.function]
  refine .bind_current (.bind_expect fun _ => ?_)
  refine .bind (answers_parameters hp ?_) fun ps q hq => ?_
  · rw [Parser.length_ahead_advance]
    omega
  · refine .bind_expect fun hk => ?_
    exact .bind (h.block_of_expect hp hone hn hq hk) fun _ _ _ => .pure _

/-- What extends an expression begins further on. -/
theorem extend_succ (h : Enough n) (floor : Precedence) (left : Node) (p : Parser) (hp : p.final.kind = .eof)
    (hn : 4 * p.ahead.length + 1 ≤ n + 1) : Answers (Rule.extend (n + 1) floor left) p := by
  rw [Rule.extend]
  refine .bind_nextKind ?_
  split
  · next hlt =>
    have := Parser.two_le_length_ahead hp (TokenKind.ne_eof_of_lt_precedence hlt)
    refine .bind_advance ?_
    refine .bind (h.application left _ hp ?_ ?_) fun longer q hq => ?_
    · rw [Parser.length_ahead_advance]
      omega
    · rw [Parser.length_ahead_advance]
      omega
    · have := hq.length_ahead_le
      rw [Parser.length_ahead_advance] at this
      exact h.extend floor longer q (hq.final ▸ hp) (by omega)
  · exact .pure _

/-- Behind the operator there is a token less. -/
theorem application_succ (h : Enough n) (left : Node) (p : Parser) (hp : p.final.kind = .eof)
    (hone : 1 ≤ p.ahead.length) (hn : 4 * p.ahead.length + 2 ≤ n + 1) :
    Answers (Rule.application (n + 1) left) p := by
  rw [Rule.application]
  refine .bind_enter (.bind_current ?_)
  rw [Parser.current_entering]
  cases p.current.kind.binaryOp? with
  | some op =>
    refine .bind_advance ?_
    refine .bind (h.expression _ _ hp ?_) fun _ _ _ => .pure _
    rw [Parser.length_ahead_advance, Parser.ahead_entering]
    omega
  | none =>
    refine .bind (h.arguments _ hp hone ?_) fun _ _ _ => .pure _
    rw [Parser.ahead_entering]
    omega

/-- Each argument begins further on. -/
theorem arguments_succ (h : Enough n) (p : Parser) (hp : p.final.kind = .eof) (hone : 1 ≤ p.ahead.length)
    (hn : 4 * p.ahead.length + 1 ≤ n + 1) : Answers (Rule.arguments (n + 1)) p := by
  rw [Rule.arguments]
  refine .bind_nextKind ?_
  split
  · exact .bind_advance (.pure _)
  · refine .bind_advance ?_
    refine .bind (h.expression _ _ hp ?_) fun _ q hq => ?_
    · rw [Parser.length_ahead_advance]
      omega
    · have := hq.length_ahead_le
      rw [Parser.length_ahead_advance] at this
      exact .bind (h.moreArguments q (hq.final ▸ hp) (by omega)) fun _ _ _ =>
        .bind_expect fun _ => .pure _

/-- Behind a comma there is a token less. -/
theorem moreArguments_succ (h : Enough n) (p : Parser) (hp : p.final.kind = .eof)
    (hn : 4 * p.ahead.length + 1 ≤ n + 1) : Answers (Rule.moreArguments (n + 1)) p := by
  rw [Rule.moreArguments]
  refine .bind_nextKind ?_
  split
  · next hk =>
    have := Parser.two_le_length_ahead hp (by simp [hk])
    refine .bind_advance (.bind_advance ?_)
    refine .bind (h.expression _ _ hp ?_) fun _ q hq => ?_
    · simp only [Parser.length_ahead_advance]
      omega
    · have := hq.length_ahead_le
      simp only [Parser.length_ahead_advance] at this
      exact .bind (h.moreArguments q (hq.final ▸ hp) (by omega)) fun _ _ _ => .pure _
  · exact .pure _

/-- The rule that the statement calls begins at the same token. -/
theorem statement_succ (h : Enough n) (p : Parser) (hp : p.final.kind = .eof)
    (hn : 4 * p.ahead.length + 4 ≤ n + 1) : Answers (Rule.statement (n + 1)) p := by
  rw [Rule.statement]
  refine .bind_enter (.bind_current ?_)
  have hlen : 4 * (entering p).ahead.length + 3 ≤ n := by simpa using hn
  split
  · exact h.letStatement _ hp hlen
  · exact h.returnStatement _ hp hlen
  · exact h.expressionStatement _ hp hlen

theorem letStatement_succ (h : Enough n) (p : Parser) (hp : p.final.kind = .eof)
    (hn : 4 * p.ahead.length + 3 ≤ n + 1) : Answers (Rule.letStatement (n + 1)) p := by
  rw [Rule.letStatement]
  refine .bind_current (.bind_expect fun _ => .bind_name (.bind_expect fun _ => .bind_advance ?_))
  refine .bind_attempt (h.expression _ _ hp ?_) fun _ _ _ =>
    .bind_skipSemicolon fun _ _ => .pure _
  simp only [Parser.length_ahead_advance]
  omega

theorem returnStatement_succ (h : Enough n) (p : Parser) (hp : p.final.kind = .eof)
    (hn : 4 * p.ahead.length + 3 ≤ n + 1) : Answers (Rule.returnStatement (n + 1)) p := by
  rw [Rule.returnStatement]
  refine .bind_current (.bind_nextKind ?_)
  split
  · exact .bind_advance (.pure _)
  · split
    · exact .pure _
    · refine .bind_advance ?_
      refine .bind_attempt (h.expression _ _ hp ?_) fun _ _ _ =>
        .bind_skipSemicolon fun _ _ => .pure _
      rw [Parser.length_ahead_advance]
      omega

theorem expressionStatement_succ (h : Enough n) (p : Parser) (hp : p.final.kind = .eof)
    (hn : 4 * p.ahead.length + 3 ≤ n + 1) : Answers (Rule.expressionStatement (n + 1)) p := by
  rw [Rule.expressionStatement]
  refine .bind_current ?_
  exact .bind (h.expression _ _ hp (by omega)) fun _ _ _ =>
    .bind_skipSemicolon fun _ _ => .pure _

theorem block_succ (h : Enough n) (p : Parser) (hp : p.final.kind = .eof)
    (hn : 4 * p.ahead.length + 6 ≤ n + 1) : Answers (Rule.block (n + 1)) p := by
  rw [Rule.block]
  refine .bind_enter (.bind_current (.bind_advance ?_))
  refine .bind (h.blockStatements _ hp ?_) fun _ _ _ => .pure _
  rw [Parser.length_ahead_advance, Parser.ahead_entering]
  omega

/-- Each statement of a block begins further on. -/
theorem blockStatements_succ (h : Enough n) (p : Parser) (hp : p.final.kind = .eof)
    (hn : 4 * p.ahead.length + 5 ≤ n + 1) : Answers (Rule.blockStatements (n + 1)) p := by
  rw [Rule.blockStatements]
  refine .bind_current ?_
  split
  · exact .pure _
  · split
    · exact .pure []
    · next hk =>
      have := Parser.one_le_length_ahead hp hk
      refine .bind_attempt (h.statement p hp (by omega)) fun _ q hq => .bind_advance ?_
      have := hq.length_ahead_le
      refine .bind (h.blockStatements _ (hq.final ▸ hp) ?_) fun _ _ _ => .pure _
      rw [Parser.length_ahead_advance]
      omega

/-- **Every allowance is enough for windows with few enough tokens ahead.** -/
theorem all : ∀ n, Enough n
  | 0 => zero
  | n + 1 =>
    have h := all n
    { expression := h.expression_succ
      operand := h.operand_succ
      unary := h.unary_succ
      group := h.group_succ
      conditional := h.conditional_succ
      function := h.function_succ
      extend := h.extend_succ
      application := h.application_succ
      arguments := h.arguments_succ
      moreArguments := h.moreArguments_succ
      statement := h.statement_succ
      letStatement := h.letStatement_succ
      returnStatement := h.returnStatement_succ
      expressionStatement := h.expressionStatement_succ
      block := h.block_succ
      blockStatements := h.blockStatements_succ }

end Enough

/-- With allowance for each token ahead, statements are refused only for the digits of a numeral. -/
theorem answers_programStatements {n : Nat} {p : Parser} (hp : p.final.kind = .eof)
    (hn : 4 * p.ahead.length + 5 ≤ n) : Answers (programStatements n) p := by
  induction n generalizing p with
  | zero => omega
  | succ n ih =>
    rw [programStatements]
    refine .bind_current ?_
    split
    · exact .pure _
    · next hk =>
      have := Parser.one_le_length_ahead hp hk
      refine .bind_attempt ((Enough.all n).statement p hp (by omega)) fun _ q hq =>
        .bind_advance ?_
      have := hq.length_ahead_le
      refine .bind (ih (hq.final ▸ hp) ?_) fun _ _ _ => .pure _
      rw [Parser.length_ahead_advance]
      omega

end Rule

/-! ## A whole text -/

theorem Parser.final_ofText (text : String) : (Parser.ofText text).final.kind = .eof :=
  Cursor.kind_read_toEnd _

/-- To parse a program is to enter the rule and to read statements to the end. -/
theorem Parser.program_run (p : Parser) :
    Parser.program p = (Rule.programStatements p.allowance >>= fun ss => (pure (.program ss) : Rule Node))
      (Rule.entering p) := rfl

namespace Rule

/-- A rule that is only attempted does not give up. -/
theorem attempt_ne_unreadable {α : Type} {x : Rule α} {p q : Parser} : attempt x p ≠ .error .unreadable q := by
  rw [attempt_run]
  rcases x p with ⟨a, q⟩ | ⟨_ | why, q⟩ <;> simp only [ne_eq, reduceCtorEq, not_false_eq_true,
    EStateM.Result.error.injEq, false_and]

/-- The rule never gives up. -/
def Persists {α : Type} (x : Rule α) : Prop :=
  ∀ p q, x p ≠ .error .unreadable q

namespace Persists

variable {α β : Type} {x y : Rule α}

theorem pure (a : α) : Persists (pure a) := fun _ _ h => by cases h

theorem refuse (why : Refusal) : Persists (refuse why : Rule α) := fun _ _ h => by cases h

theorem current : Persists current := fun _ _ h => by cases h

theorem advance : Persists advance := fun _ _ h => by cases h

theorem enter : Persists enter := fun _ _ h => by cases h

theorem report (problem : Problem) (token : Token) : Persists (report problem token) := fun _ _ h => by cases h

theorem attempt (x : Rule α) : Persists (attempt x) := fun _ _ => attempt_ne_unreadable

/-- Rules that never give up make a sequence that does not. -/
theorem bind {f : α → Rule β} (hx : Persists x) (hf : ∀ a, Persists (f a)) : Persists (x >>= f) := by
  intro p q h
  obtain h | ⟨a, r, -, h⟩ := bind_eq_error.1 h
  · exact hx p q h
  · exact hf a r q h

theorem ite {c : Prop} [Decidable c] (hx : Persists x) (hy : Persists y) : Persists (if c then x else y) := by
  split
  · exact hx
  · exact hy

end Persists

/-- A statement is attempted, and the rest is read behind it. -/
theorem attempt_rest_eq_ok {n : Nat} {x : Rule (List Node)} {p q : Parser} {ss : List Node} :
    (attempt (statement n) >>= fun first => advance >>= fun _ => x >>= fun rest =>
      (pure (first.toList ++ rest) : Rule (List Node))) p = .ok ss q ↔
      ∃ first r rest, attempt (statement n) p = .ok first r ∧ x r.advance = .ok rest q ∧ ss = first.toList ++ rest := by
  simp only [bind_eq_ok, pure_eq_ok]
  constructor
  · rintro ⟨first, r, hfirst, _, r', hr', rest, _, hrest, rfl, rfl⟩
    cases hr'
    exact ⟨first, r, rest, hfirst, hrest, rfl⟩
  · rintro ⟨first, r, rest, hfirst, hrest, rfl⟩
    exact ⟨first, r, hfirst, (), r.advance, rfl, rest, q, hrest, rfl, rfl⟩

/-- A program begins with a statement, or ends. -/
theorem programStatements_eq_ok {n : Nat} {p q : Parser} {ss : List Node} :
    programStatements (n + 1) p = .ok ss q ↔ (p.current.kind = .eof ∧ ss = [] ∧ p = q) ∨
      p.current.kind ≠ .eof ∧ ∃ first r rest, attempt (statement n) p = .ok first r ∧
        programStatements n r.advance = .ok rest q ∧ ss = first.toList ++ rest := by
  rw [programStatements, bind_current]
  split
  next hk => simp [hk, eq_comm]
  next hk =>
    rw [attempt_rest_eq_ok]
    simp only [hk, false_and, false_or, not_false_eq_true, ne_eq, true_and]

/-- The statements of a block begin with one of them, or the block ends. -/
theorem blockStatements_eq_ok {n : Nat} {p q : Parser} {ss : List Node} :
    blockStatements (n + 1) p = .ok ss q ↔ (p.current.kind = .rbrace ∧ ss = [] ∧ p = q) ∨
      (p.current.kind = .eof ∧ ss = [] ∧ reporting p (.unexpected .rbrace .eof) p.current = q) ∨
      p.current.kind ≠ .rbrace ∧ p.current.kind ≠ .eof ∧ ∃ first r rest, attempt (statement n) p = .ok first r ∧
        blockStatements n r.advance = .ok rest q ∧ ss = first.toList ++ rest := by
  rw [blockStatements, bind_current]
  split
  next hk => simp [hk, eq_comm]
  next hbrace =>
    split
    next hk =>
      rw [bind_report, pure_eq_ok, @eq_comm _ [] ss]
      simp [hk]
    next hk =>
      rw [attempt_rest_eq_ok]
      simp only [hk, hbrace, false_and, false_or, not_false_eq_true, ne_eq, true_and]

/-- A program is always read, with a report where it cannot be. -/
theorem persists_programStatements (n : Nat) : Persists (programStatements n) := by
  induction n with
  | zero => exact .refuse _
  | succ n ih =>
    rw [programStatements]
    exact .bind .current fun _ => .ite (.pure _) (.bind (.attempt _) fun _ => .bind .advance fun _ =>
      .bind ih fun _ => .pure _)

theorem persists_blockStatements (n : Nat) : Persists (blockStatements n) := by
  induction n with
  | zero => exact .refuse _
  | succ n ih =>
    rw [blockStatements]
    exact .bind .current fun _ => .ite (.pure _) (.ite (.bind (.report _ _) fun _ => .pure _)
      (.bind (.attempt _) fun _ => .bind .advance fun _ => .bind ih fun _ => .pure _))

/-- So is a block. -/
theorem persists_block (n : Nat) : Persists (block n) := by
  cases n with
  | zero => exact .refuse _
  | succ n =>
    rw [block]
    exact .bind .enter fun _ => .bind .current fun _ => .bind .advance fun _ =>
      .bind (persists_blockStatements n) fun _ => .pure _

/-- The parser's own allowance is enough. -/
theorem answers_ofText (text : String) :
    Answers (programStatements (Parser.ofText text).allowance) (entering (.ofText text)) :=
  answers_programStatements (Parser.final_ofText text) (Nat.add_le_add_left (by decide) _)

/-- What a text is parsed as, from a run over its statements. -/
def parseOf : EStateM.Result Stop Parser (List Node) → Except Refusal Parse
  | .ok ss q => .ok ⟨.program ss, q.diagnostics.toList⟩
  | .error (.refused why) _ => .error why
  | .error .unreadable q => .ok ⟨.program [], q.diagnostics.toList⟩

/-- A text is parsed as its statements are read, by every allowance that is enough. -/
theorem parse_eq (text : String) {n : Nat} (hn : (Parser.ofText text).allowance ≤ n) :
    parse text = parseOf (programStatements n (entering (.ofText text))) := by
  obtain hext | ⟨r, hr⟩ := congruence_extends.programStatements hn (entering (.ofText text))
  · rw [hext, parse, Parser.program_run, bind_run]
    rcases programStatements _ _ with ⟨ss, q⟩ | ⟨_ | why, q⟩ <;> rfl
  · obtain ⟨_, _, _, _, hwhy⟩ := answers_ofText text _ _ hr
    cases hwhy

/-- More allowance than a text needs gives the same tree and the same diagnostics. -/
theorem programStatements_of_parse {text : String} {t : Parse} (h : parse text = .ok t) {n : Nat}
    (hn : (Parser.ofText text).allowance ≤ n) :
    ∃ ss q, programStatements n (entering (.ofText text)) = .ok ss q ∧ t = ⟨.program ss, q.diagnostics.toList⟩ := by
  rw [parse_eq text hn] at h
  cases hrun : programStatements n (entering (.ofText text)) with
  | ok ss q =>
    rw [hrun] at h
    cases h
    exact ⟨ss, q, rfl, rfl⟩
  | error why q =>
    cases why with
    | unreadable => exact absurd hrun (persists_programStatements _ _ _)
    | refused why =>
      rw [hrun] at h
      cases h

end Rule

/-- **A text is refused for a numeral that is too long, or not at all.** -/
theorem parse_refuses {text : String} {why : Refusal} (h : parse text = .error why) :
    ∃ t ∈ (Parser.ofText text).ahead, t.kind = .int ∧ maxDigits < t.literal.length ∧
      why = .numeralTooLong t.literal.length := by
  rw [Rule.parse_eq text (Nat.le_refl _)] at h
  cases hrun : Rule.programStatements (Parser.ofText text).allowance (Rule.entering (.ofText text)) with
  | ok ss q =>
    rw [hrun] at h
    cases h
  | error why' q =>
    rw [hrun] at h
    cases why' with
    | unreadable => cases h
    | refused why' =>
      cases h
      exact Rule.answers_ofText text _ _ hrun

end Monkey
