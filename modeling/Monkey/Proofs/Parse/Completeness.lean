import Monkey.Proofs.Parse.Soundness
import Monkey.Proofs.Tree.Bare

/-!
# Readings are run

What can be read is read by the rules: given enough allowance, from a window on lexemes that are read as a tree, the
rule builds that tree up to tokens, leaves what the reading leaves and reports nothing
(`Reading.Statements.runsThrough`). For a whole text its own allowance is enough (`parse_of_reads`).
-/

namespace Monkey

namespace Parser

variable {p q r : Parser}

/-- The first lexeme that is left is that of the token in the window. -/
theorem current_of_lexemes {k : TokenKind} {s : String} {ls : List Lexeme} (h : p.lexemes = ⟨k, s⟩ :: ls) :
    p.current.kind = k ∧ p.current.literal = s ∧ p.rest = ls := by
  rw [rest, h, current]
  rw [lexemes] at h
  cases ha : p.ahead with
  | nil => simp [ha] at h
  | cons t ts =>
    simp only [ha, List.map_cons, List.cons.injEq, Token.lexeme, Lexeme.mk.injEq] at h
    obtain ⟨⟨rfl, rfl⟩, -⟩ := h
    exact ⟨rfl, rfl, rfl⟩

/-- The first lexeme behind the window is that of the next token. -/
theorem next_of_rest {k : TokenKind} {s : String} {ls : List Lexeme} (h : p.rest = ⟨k, s⟩ :: ls) :
    p.next.kind = k ∧ p.next.literal = s ∧ p.advance.rest = ls :=
  current_of_lexemes (p := p.advance) (p.lexemes_advance.trans h)

/-- From `p` a rule has got to `q` without a report, and `rest` is left. -/
structure Passes (p q : Parser) (rest : List Lexeme) : Prop where
  rest : q.rest = rest
  final : q.final = p.final
  diagnostics : q.diagnostics = p.diagnostics

namespace Passes

variable {x : Lexeme} {rest rest' : List Lexeme}

/-- Passing on from the next token is passing on. -/
theorem of_advance (h : p.advance.Passes q rest) : p.Passes q rest :=
  ⟨h.rest, h.final, h.diagnostics⟩

theorem of_entering (h : (Rule.entering p).Passes q rest) : p.Passes q rest :=
  ⟨h.rest, h.final, h.diagnostics⟩

/-- What is passed first and what is passed then are passed together. -/
theorem trans (h : p.Passes q rest) (h' : q.Passes r rest') : p.Passes r rest' :=
  ⟨h'.rest, h'.final.trans h.final, h'.diagnostics.trans h.diagnostics⟩

/-- A parser that has one lexeme left before it passes that one by moving on. -/
theorem advance (h : p.Passes q (x :: rest)) : p.Passes q.advance rest :=
  ⟨(next_of_rest h.rest).2.2, h.final, h.diagnostics⟩

/-- The end token stays the same on the way. -/
theorem final_eof (h : p.Passes q rest) (hp : p.final.kind = .eof) : q.final.kind = .eof :=
  h.final ▸ hp

/-- The next kind is that of the lexemes that are left to be read. -/
theorem kind_next (h : p.Passes q rest) (hp : p.final.kind = .eof) : q.next.kind = headKind rest := by
  rw [Parser.kind_next (h.final_eof hp), h.rest]

end Passes

end Parser

namespace Rule

/-- Given enough allowance, the rule builds `a` from `p` and leaves `q`. -/
def Gives {α : Type} (x : Nat → Rule α) (p : Parser) (a : α) (q : Parser) : Prop :=
  ∃ n, ∀ m, n ≤ m → x m p = .ok a q

namespace Gives

variable {α β : Type} {x : Nat → Rule α} {p q r : Parser} {a : α} {b : β}

/-- The first level of a rule does not count. -/
theorem of_succ {y : Nat → Rule α} (hy : ∀ n, x (n + 1) = y n) (h : Gives y p a q) : Gives x p a q := by
  obtain ⟨n, hn⟩ := h
  refine ⟨n + 1, fun m hm => ?_⟩
  obtain ⟨m, rfl⟩ := Nat.exists_eq_add_of_lt hm
  rw [hy]
  exact hn _ (Nat.le_add_right n m)

/-- A rule without an allowance gives what it gives with every one. -/
theorem const {y : Rule α} (h : y p = .ok a q) : Gives (fun _ => y) p a q :=
  ⟨0, fun _ _ => h⟩

/-- Two rules in a row give what they give one by one, with an allowance that is enough for both. -/
theorem bind {f : Nat → α → Rule β} (hx : Gives x p a q) (hf : Gives (fun n => f n a) q b r) :
    Gives (fun n => x n >>= f n) p b r := by
  obtain ⟨n₁, h₁⟩ := hx
  obtain ⟨n₂, h₂⟩ := hf
  refine ⟨max n₁ n₂, fun m hm => ?_⟩
  exact (bind_of_ok (h₁ m (by omega))).trans (h₂ m (by omega))

theorem enter {f : Nat → Unit → Rule β} (h : Gives (fun n => f n ()) (entering p) b q) :
    Gives (fun n => Rule.enter >>= f n) p b q := h

theorem current {f : Nat → Token → Rule β} (h : Gives (fun n => f n p.current) p b q) :
    Gives (fun n => Rule.current >>= f n) p b q := h

theorem nextKind {f : Nat → TokenKind → Rule β} (h : Gives (fun n => f n p.next.kind) p b q) :
    Gives (fun n => Rule.nextKind >>= f n) p b q := h

theorem name {f : Nat → Identifier → Rule β} (h : Gives (fun n => f n ⟨p.current, p.current.literal⟩) p b q) :
    Gives (fun n => Rule.name >>= f n) p b q := h

theorem advance {f : Nat → Unit → Rule β} (h : Gives (fun n => f n ()) p.advance b q) :
    Gives (fun n => Rule.advance >>= f n) p b q := h

theorem expect {kind : TokenKind} {f : Nat → Unit → Rule β} (hk : p.next.kind = kind)
    (h : Gives (fun n => f n ()) p.advance b q) : Gives (fun n => Rule.expect kind >>= f n) p b q :=
  bind (.const (expect_eq_ok.2 ⟨hk, rfl⟩)) h

theorem pure (a : α) (p : Parser) : Gives (fun _ => (pure a : Rule α)) p a p :=
  .const rfl

/-- What is given is not taken as missing. -/
theorem attempt (h : Gives x p a q) : Gives (fun n => attempt (x n)) p (some a) q := by
  obtain ⟨n, hn⟩ := h
  exact ⟨n, fun m hm => attempt_eq_some.2 (hn m hm)⟩

end Gives

open Reading

/-! ## Parameters and endings -/

/-- **Parameters of the grammar are read** up to the closing parenthesis behind them. -/
theorem gives_moreParameters {ls rest : List Lexeme} {ps : List Identifier} (h : MoreParameters ls ps rest) :
    ∀ {p : Parser}, p.rest = ls → ∃ ps' q, ps'.map Identifier.bare = ps.map Identifier.bare ∧
      q.next.kind = .rparen ∧ p.Passes q.advance rest ∧ Gives moreParameters p ps' q := by
  induction h with
  | close =>
    intro p hp
    obtain ⟨hk, -, hrest⟩ := Parser.next_of_rest hp
    refine ⟨[], p, rfl, hk, ⟨hrest, rfl, rfl⟩, .of_succ (fun _ => by rw [moreParameters]) (.nextKind ?_)⟩
    simp only [hk, reduceCtorEq, ↓reduceIte]
    exact .pure [] p
  | more _ ih =>
    intro p hp
    obtain ⟨hcomma, -, hrest₁⟩ := Parser.next_of_rest hp
    obtain ⟨hident, hlit, hrest₂⟩ := Parser.next_of_rest hrest₁
    obtain ⟨ps', q, hps, hk, hpq, hgives⟩ := ih (p := p.advance.advance) hrest₂
    refine ⟨⟨p.advance.next, p.advance.next.literal⟩ :: ps', q, ?_, hk, hpq.of_advance.of_advance,
      .of_succ (fun _ => by rw [moreParameters]) (.nextKind ?_)⟩
    · rw [List.map_cons, List.map_cons, hps]
      exact congrArg (· :: _) (congrArg (Identifier.mk .blank) hlit)
    · simp only [hcomma, ↓reduceIte]
      exact .advance (.expect hident (.name (.bind hgives (.pure _ q))))

/-- The parameters of a function are read, with the parentheses around them. -/
theorem gives_parameters {ls rest : List Lexeme} {ps : List Identifier} (h : Parameters ls ps rest) {p : Parser}
    (hp : p.rest = ls) : ∃ ps' q, ps'.map Identifier.bare = ps.map Identifier.bare ∧ p.Passes q rest ∧
      Gives parameters p ps' q := by
  cases h with
  | close =>
    obtain ⟨hk, -, hrest⟩ := Parser.next_of_rest hp
    refine ⟨[], p.advance, rfl, ⟨hrest, rfl, rfl⟩, .nextKind ?_⟩
    simp only [hk, ↓reduceIte]
    exact .advance (.pure [] p.advance)
  | some hmore =>
    obtain ⟨hident, hlit, hrest⟩ := Parser.next_of_rest hp
    obtain ⟨ps', q, hps, hk, hpq, hgives⟩ := gives_moreParameters hmore (p := p.advance) hrest
    refine ⟨⟨p.next, p.next.literal⟩ :: ps', q.advance, ?_, hpq.of_advance, .nextKind ?_⟩
    · rw [List.map_cons, List.map_cons, hps]
      exact congrArg (· :: _) (congrArg (Identifier.mk .blank) hlit)
    · simp only [hident, reduceCtorEq, ↓reduceIte]
      exact .expect hident (.name (.bind hgives (.expect hk (.pure _ q.advance))))

/-- What ends a statement is passed over, be it a semicolon or nothing. -/
theorem gives_skipSemicolon {ls rest : List Lexeme} (h : Ending ls rest) {p : Parser} (hp : p.final.kind = .eof)
    (hls : p.rest = ls) : ∃ q, p.Passes q rest ∧ Gives (fun _ => skipSemicolon) p () q := by
  cases h with
  | semicolon =>
    obtain ⟨hk, -, hrest⟩ := Parser.next_of_rest hls
    exact ⟨p.advance, ⟨hrest, rfl, rfl⟩, .const (by rw [skipSemicolon_run, if_pos hk])⟩
  | nothing hk _ =>
    have hne : p.next.kind ≠ .semicolon := by rwa [Parser.kind_next hp, hls]
    exact ⟨p, ⟨hls, rfl, rfl⟩, .const (by rw [skipSemicolon_run, if_neg hne])⟩

/-! ## What each rule builds -/

/-- From every window on `ls` the rule builds `e` up to tokens and leaves `rest`. -/
def Builds (x : Nat → Rule Node) (ls : List Lexeme) (e : Node) (rest : List Lexeme) : Prop :=
  ∀ p : Parser, p.final.kind = .eof → p.lexemes = ls →
    ∃ e' q, e'.bare = e.bare ∧ p.Passes q rest ∧ Gives x p e' q

/-- From every window on `ls` an expression at `floor` comes to stand for `e` up to tokens where `rest` is left: it is
what can be made of `e` there. -/
def Continues (floor : Precedence) (ls : List Lexeme) (e : Node) (rest : List Lexeme) : Prop :=
  ∀ p : Parser, p.final.kind = .eof → p.lexemes = ls → ∃ e' q, e'.bare = e.bare ∧ p.Passes q rest ∧
    ∀ {a r}, Gives (fun n => extend n floor e') q a r → Gives (fun n => expression n floor) p a r

/-- Behind every opening parenthesis the rule builds the arguments in `ls` up to tokens and leaves `rest`. -/
def BuildsArguments (ls : List Lexeme) (as : List Node) (rest : List Lexeme) : Prop :=
  ∀ p : Parser, p.final.kind = .eof → p.rest = ls →
    ∃ as' q, Node.bareAll as' = Node.bareAll as ∧ p.Passes q rest ∧ Gives arguments p as' q

/-- Behind every argument the rule builds the further ones in `ls` up to tokens; the closing parenthesis follows. -/
def BuildsMoreArguments (ls : List Lexeme) (as : List Node) (rest : List Lexeme) : Prop :=
  ∀ p : Parser, p.final.kind = .eof → p.rest = ls → ∃ as' q, Node.bareAll as' = Node.bareAll as ∧
    q.next.kind = .rparen ∧ p.Passes q.advance rest ∧ Gives moreArguments p as' q

/-- Behind every opening brace the rule builds the block in `ls` up to tokens and leaves `rest`. -/
def BuildsBlock (ls : List Lexeme) (b : Node) (rest : List Lexeme) : Prop :=
  ∀ p : Parser, p.final.kind = .eof → p.rest = ls →
    ∃ b' q, b'.bare = b.bare ∧ p.Passes q rest ∧ Gives block p b' q

/-- A rule for statements in a row: where a statement begins, it builds that one and goes on behind it. -/
def Repeats (x : Nat → Rule (List Node)) : Prop :=
  ∀ {p q r : Parser} {s : Node} {ss : List Node}, p.current.kind.startsStatement → Gives statement p s q →
    Gives x q.advance ss r → Gives x p (s :: ss) r

/-- From every window on `ls` a rule for statements in a row gets over `ss` up to tokens to where `rest` is left. -/
def RunsThrough (ls : List Lexeme) (ss : List Node) (rest : List Lexeme) : Prop :=
  ∀ p : Parser, p.final.kind = .eof → p.lexemes = ls → ∃ ss' q, Node.bareAll ss' = Node.bareAll ss ∧
    q.lexemes = rest ∧ q.final = p.final ∧ q.diagnostics = p.diagnostics ∧
    ∀ {x : Nat → Rule (List Node)} {tail r}, Repeats x → Gives x q tail r → Gives x p (ss' ++ tail) r

/-- In a block one statement is read after another until the closing brace is there. -/
theorem repeats_blockStatements : Repeats blockStatements := by
  intro p q r s ss hk hs hss
  refine .of_succ (fun _ => by rw [blockStatements]) (.current ?_)
  have hbrace : p.current.kind ≠ .rbrace := by
    intro h
    rw [h] at hk
    exact absurd hk (by decide)
  have heof : p.current.kind ≠ .eof := by
    intro h
    rw [h] at hk
    exact absurd hk (by decide)
  simp only [hbrace, heof, ↓reduceIte]
  exact .bind hs.attempt (.advance (.bind hss (.pure _ r)))

/-- In a program one statement is read after another until the text ends. -/
theorem repeats_programStatements : Repeats programStatements := by
  intro p q r s ss hk hs hss
  refine .of_succ (fun _ => by rw [programStatements]) (.current ?_)
  have heof : p.current.kind ≠ .eof := by
    intro h
    rw [h] at hk
    exact absurd hk (by decide)
  simp only [heof, ↓reduceIte]
  exact .bind hs.attempt (.advance (.bind hss (.pure _ r)))

/-! ### Expressions -/

/-- Where nothing follows that binds tighter, the expression that has been read so far is complete. -/
theorem Continues.builds {floor : Precedence} {ls rest : List Lexeme} {e : Node} (h : Continues floor ls e rest)
    (hstop : ¬ floor < (headKind rest).precedence) : Builds (fun n => expression n floor) ls e rest := by
  intro p hp hls
  obtain ⟨e', q, he, hq, hgives⟩ := h p hp hls
  refine ⟨e', q, he, hq, hgives (.of_succ (fun _ => by rw [extend]) (.nextKind ?_))⟩
  simp only [hq.kind_next hp, hstop, ↓reduceIte]
  exact .pure e' q

/-- An operand alone is an expression that can be continued. -/
theorem Builds.continues {floor : Precedence} {ls rest : List Lexeme} {e : Node} (h : Builds operand ls e rest) :
    Continues floor ls e rest := by
  intro p hp hls
  obtain ⟨e', q, he, hq, hgives⟩ := h (entering p) hp hls
  exact ⟨e', q, he, hq.of_entering, fun hext => .of_succ (fun _ => by rw [expression]) (.enter (.bind hgives hext))⟩

/-- Behind an operator that binds tighter than the level, its right operand is read on the level of the operator. -/
theorem Continues.binary {floor : Precedence} {ls rs rest : List Lexeme} {l r : Node} {x : Lexeme} {op : BinaryOp}
    (t : Token) (hl : Continues floor ls l (x :: rs)) (hop : x.kind.binaryOp? = some op)
    (hlt : floor < x.kind.precedence) (hr : Builds (fun n => expression n x.kind.precedence) rs r rest) :
    Continues floor ls (.binary t l op r) rest := by
  intro p hp hls
  obtain ⟨l', q, hl', hq, hgives⟩ := hl p hp hls
  obtain ⟨hk, -, hrest⟩ := Parser.next_of_rest hq.rest
  obtain ⟨r', q', hr', hq', hright⟩ := hr (entering q.advance).advance (hq.final_eof hp)
    ((Parser.lexemes_advance _).trans hrest)
  refine ⟨.binary q.next l' op r', q', by simp only [Node.bare, hl', hr'],
    hq.trans hq'.of_advance.of_entering.of_advance, fun hext => hgives (.of_succ (fun _ => by rw [extend]) (.nextKind ?_))⟩
  simp only [hk, hlt, ↓reduceIte]
  refine .advance (.bind (.of_succ (fun _ => by rw [application]) (.enter (.current ?_))) hext)
  simp only [Parser.current_entering, Parser.current_advance, hk, hop]
  exact .advance (.bind hright (.pure _ q'))

/-- Behind an opening parenthesis the arguments of a call are read, if calls bind tighter than the level. -/
theorem Continues.call {floor : Precedence} {ls as rest : List Lexeme} {f : Node} {args : List Node} {s : String}
    (t : Token) (hf : Continues floor ls f (⟨.lparen, s⟩ :: as)) (hlt : floor < .call)
    (hargs : BuildsArguments as args rest) : Continues floor ls (.call t f args) rest := by
  intro p hp hls
  obtain ⟨f', q, hf', hq, hgives⟩ := hf p hp hls
  obtain ⟨hk, -, hrest⟩ := Parser.next_of_rest hq.rest
  obtain ⟨args', q', hargs', hq', hgives'⟩ := hargs (entering q.advance) (hq.final_eof hp) hrest
  refine ⟨.call q.next f' args', q', by simp only [Node.bare, hf', hargs'], hq.trans hq'.of_entering.of_advance,
    fun hext => hgives (.of_succ (fun _ => by rw [extend]) (.nextKind ?_))⟩
  have hlt : floor < q.next.kind.precedence := by rwa [hk]
  simp only [hlt, ↓reduceIte]
  refine .advance (.bind (.of_succ (fun _ => by rw [application]) (.enter (.current ?_))) hext)
  simp only [Parser.current_entering, Parser.current_advance, hk, TokenKind.binaryOp?]
  exact .bind hgives' (.pure _ q')

/-! ### Operands -/

/-- An operand that is one token. -/
theorem builds_of_token {k : TokenKind} {s : String} {e : Node} (rest : List Lexeme) (f : Token → Node)
    (hbare : ∀ t, t.literal = s → (f t).bare = e.bare)
    (hrun : ∀ n p, p.current.kind = k → p.current.literal = s → operand (n + 1) p = .ok (f p.current) (entering p)) :
    Builds operand (⟨k, s⟩ :: rest) e rest := by
  intro p _ hls
  obtain ⟨hk, hlit, hrest⟩ := Parser.current_of_lexemes hls
  refine ⟨f p.current, entering p, hbare _ hlit, ⟨hrest, rfl, rfl⟩, 1, fun m hm => ?_⟩
  obtain ⟨m, rfl⟩ := Nat.exists_eq_add_of_lt hm
  exact hrun _ p hk hlit

/-- A name is an operand. -/
theorem builds_identifier (s : String) (t : Token) (rest : List Lexeme) :
    Builds operand (⟨.ident, s⟩ :: rest) (.identifier ⟨t, s⟩) rest := by
  refine builds_of_token rest (fun t => .identifier ⟨t, t.literal⟩) (fun t ht => ?_) fun n p hk _ => ?_
  · exact congrArg (fun s => Node.identifier ⟨.blank, s⟩) ht
  · rw [operand, bind_enter, bind_current]
    simp only [Parser.current_entering, hk]
    rfl

/-- A numeral is an operand if it is short enough to be read and its value is in range. -/
theorem builds_integer {s : String} (t : Token) (rest : List Lexeme) (hlen : s.length ≤ maxDigits)
    (hmax : numeralValue s ≤ maxInteger) : Builds operand (⟨.int, s⟩ :: rest) (.integer t (numeralValue s)) rest := by
  refine builds_of_token rest (fun t => .integer t (numeralValue s)) (fun t _ => rfl) fun n p hk hlit => ?_
  rw [operand, bind_enter, bind_current]
  simp only [Parser.current_entering, hk]
  rw [numeralValue] at hmax ⊢
  rw [integer, bind_current]
  simp only [Parser.current_entering, hlit, List.length_map, String.length_toList, Nat.not_lt.2 hlen,
    Nat.not_lt.2 hmax, ↓reduceIte]
  rfl

/-- `true` and `false` are operands. -/
theorem builds_boolean {k : TokenKind} (b : Bool) (s : String) (t : Token) (rest : List Lexeme)
    (hk : k = if b then .trueKeyword else .falseKeyword) : Builds operand (⟨k, s⟩ :: rest) (.boolean t b) rest := by
  refine builds_of_token rest (fun t => .boolean t b) (fun t _ => rfl) fun n p hk' _ => ?_
  rw [operand, bind_enter, bind_current]
  cases b <;> simp only [Parser.current_entering, hk', hk] <;> rfl

/-- Behind an operator of one operand, this operand is read on the level of such operators. -/
theorem builds_unary {k : TokenKind} {op : UnaryOp} {ls rest : List Lexeme} {e : Node} (s : String) (t : Token)
    (hrun : ∀ n p, p.current.kind = k → operand (n + 1) p = unary n op (entering p))
    (h : Builds (fun n => expression n .unary) ls e rest) : Builds operand (⟨k, s⟩ :: ls) (.unary t op e) rest := by
  intro p hp hls
  obtain ⟨hk, -, hrest⟩ := Parser.current_of_lexemes hls
  obtain ⟨e', q, he, hq, hgives⟩ := h (entering p).advance hp ((Parser.lexemes_advance _).trans hrest)
  have hunary : Gives (fun n => unary n op) (entering p) (.unary p.current op e') q :=
    .of_succ (fun _ => by rw [unary]) (.current (.advance (.bind hgives.attempt
      (.pure (Node.unary p.current op e') q))))
  obtain ⟨n, hn⟩ := hunary
  refine ⟨.unary p.current op e', q, by simp only [Node.bare, he], hq.of_advance.of_entering, n + 1, fun m hm => ?_⟩
  obtain ⟨m, rfl⟩ := Nat.exists_eq_add_of_lt hm
  exact (hrun _ p hk).trans (hn _ (Nat.le_add_right n m))

/-- Parentheses around an expression leave nothing in the tree. -/
theorem builds_group {ls rest : List Lexeme} {e : Node} (s₁ : String) {s₂ : String}
    (h : Builds (fun n => expression n .lowest) ls e (⟨.rparen, s₂⟩ :: rest)) :
    Builds operand (⟨.lparen, s₁⟩ :: ls) e rest := by
  intro p hp hls
  obtain ⟨hk, -, hrest⟩ := Parser.current_of_lexemes hls
  obtain ⟨e', q, he, hq, hgives⟩ := h (entering p).advance hp ((Parser.lexemes_advance _).trans hrest)
  refine ⟨e', q.advance, he, hq.of_advance.of_entering.advance,
    .of_succ (fun _ => by rw [operand]) (.enter (.current ?_))⟩
  simp only [Parser.current_entering, hk]
  exact .of_succ (fun _ => by rw [group]) (.advance (.bind hgives (.expect (hq.kind_next hp) (.pure e' q.advance))))

/-! ### Blocks -/

/-- Statements up to a closing brace make a block. -/
theorem RunsThrough.buildsBlock {ls rest : List Lexeme} {ss : List Node} {s : String} (t : Token)
    (h : RunsThrough ls ss (⟨.rbrace, s⟩ :: rest)) : BuildsBlock ls (.block t ss) rest := by
  intro p hp hls
  obtain ⟨ss', q, hss, hq, hfinal, hd, hgives⟩ :=
    h (entering p).advance hp ((Parser.lexemes_advance _).trans hls)
  obtain ⟨hk, -, hrest⟩ := Parser.current_of_lexemes hq
  have hend : Gives blockStatements q [] q := by
    refine .of_succ (fun _ => by rw [blockStatements]) (.current ?_)
    simp only [hk, ↓reduceIte]
    exact .pure [] q
  have hss' := hgives repeats_blockStatements hend
  rw [List.append_nil] at hss'
  refine ⟨.block p.current ss', q, by simp only [Node.bare, hss], ⟨hrest, hfinal, hd⟩, ?_⟩
  exact .of_succ (fun _ => by rw [block])
    (.enter (.current (.advance (.bind hss' (.pure (Node.block p.current ss') q)))))

/-- An `if` without an `else` ends with its block. -/
theorem builds_conditional {ls ls₁ rest : List Lexeme} {c b : Node} {s₃ s₄ : String} (s₁ s₂ : String) (t : Token)
    (hc : Builds (fun n => expression n .lowest) ls c (⟨.rparen, s₃⟩ :: ⟨.lbrace, s₄⟩ :: ls₁))
    (hb : BuildsBlock ls₁ b rest)
    (helse : headKind rest ≠ .elseKeyword) :
    Builds operand (⟨.ifKeyword, s₁⟩ :: ⟨.lparen, s₂⟩ :: ls) (.conditional t c b .hole) rest := by
  intro p hp hls
  obtain ⟨hk, -, hrest⟩ := Parser.current_of_lexemes hls
  obtain ⟨hopen, -, hrest⟩ := Parser.next_of_rest (p := entering p) hrest
  obtain ⟨c', q, hc', hq, hcond⟩ := hc (entering p).advance.advance hp ((Parser.lexemes_advance _).trans hrest)
  obtain ⟨b', r, hb', hr, hblock⟩ := hb q.advance.advance (hq.final_eof hp) hq.advance.advance.rest
  refine ⟨.conditional p.current c' b' .hole, r, by simp only [Node.bare, hc', hb'],
    hq.of_advance.of_advance.of_entering.trans hr.of_advance.of_advance,
    .of_succ (fun _ => by rw [operand]) (.enter (.current ?_))⟩
  simp only [Parser.current_entering, hk]
  refine .of_succ (fun _ => by rw [conditional]) (.current (.expect hopen (.advance (.bind hcond
    (.expect (hq.kind_next hp) (.expect (hq.advance.kind_next hp) (.bind hblock (.nextKind ?_))))))))
  have hr : r.next.kind ≠ .elseKeyword := by rwa [hr.kind_next (hq.final_eof hp)]
  simp only [hr, ↓reduceIte]
  exact .pure _ r

/-- An `else` behind the block of an `if` is read with a block of its own. -/
theorem builds_conditional_else {ls ls₁ ls₂ rest : List Lexeme} {c b₁ b₂ : Node} {s₃ s₄ s₆ s₇ : String}
    (s₁ s₂ : String) (t : Token)
    (hc : Builds (fun n => expression n .lowest) ls c (⟨.rparen, s₃⟩ :: ⟨.lbrace, s₄⟩ :: ls₁))
    (hb₁ : BuildsBlock ls₁ b₁ (⟨.elseKeyword, s₆⟩ :: ⟨.lbrace, s₇⟩ :: ls₂)) (hb₂ : BuildsBlock ls₂ b₂ rest) :
    Builds operand (⟨.ifKeyword, s₁⟩ :: ⟨.lparen, s₂⟩ :: ls) (.conditional t c b₁ b₂) rest := by
  intro p hp hls
  obtain ⟨hk, -, hrest⟩ := Parser.current_of_lexemes hls
  obtain ⟨hopen, -, hrest⟩ := Parser.next_of_rest (p := entering p) hrest
  obtain ⟨c', q, hc', hq, hcond⟩ := hc (entering p).advance.advance hp ((Parser.lexemes_advance _).trans hrest)
  have hqf := hq.final_eof hp
  obtain ⟨b₁', r, hb₁', hr, hblock₁⟩ := hb₁ q.advance.advance hqf hq.advance.advance.rest
  have hrf := hr.final_eof hqf
  obtain ⟨b₂', r', hb₂', hr', hblock₂⟩ := hb₂ r.advance.advance hrf hr.advance.advance.rest
  refine ⟨.conditional p.current c' b₁' b₂', r', by simp only [Node.bare, hc', hb₁', hb₂'],
    hq.of_advance.of_advance.of_entering.trans (hr.of_advance.of_advance.trans hr'.of_advance.of_advance),
    .of_succ (fun _ => by rw [operand]) (.enter (.current ?_))⟩
  simp only [Parser.current_entering, hk]
  refine .of_succ (fun _ => by rw [conditional]) (.current (.expect hopen (.advance (.bind hcond
    (.expect (hq.kind_next hp) (.expect (hq.advance.kind_next hp) (.bind hblock₁ (.nextKind ?_))))))))
  simp only [hr.kind_next hqf, headKind_cons, ↓reduceIte]
  exact .advance (.expect (hr.advance.kind_next hqf) (.bind hblock₂ (.pure _ r')))

/-- A function is its parameters and its block. -/
theorem builds_function {ls ls₁ rest : List Lexeme} {ps : List Identifier} {b : Node} {s₃ : String} (s₁ s₂ : String)
    (t : Token) (hps : Parameters ls ps (⟨.lbrace, s₃⟩ :: ls₁))
    (hb : BuildsBlock ls₁ b rest) :
    Builds operand (⟨.fnKeyword, s₁⟩ :: ⟨.lparen, s₂⟩ :: ls) (.function t ps b) rest := by
  intro p hp hls
  obtain ⟨hk, -, hrest⟩ := Parser.current_of_lexemes hls
  obtain ⟨hopen, -, hrest⟩ := Parser.next_of_rest (p := entering p) hrest
  obtain ⟨ps', q, hps', hq, hparams⟩ := gives_parameters hps (p := (entering p).advance) hrest
  obtain ⟨b', r, hb', hr, hblock⟩ := hb q.advance (hq.final_eof hp) hq.advance.rest
  refine ⟨.function p.current ps' b', r, by simp only [Node.bare, hps', hb'],
    hq.of_advance.of_entering.trans hr.of_advance, .of_succ (fun _ => by rw [operand]) (.enter (.current ?_))⟩
  simp only [Parser.current_entering, hk]
  exact .of_succ (fun _ => by rw [function]) (.current (.expect hopen (.bind hparams (.expect (hq.kind_next hp)
    (.bind hblock (.pure (Node.function p.current ps' b') r))))))

/-! ### Arguments -/

/-- A call may have no arguments. -/
theorem buildsArguments_close (s : String) (rest : List Lexeme) : BuildsArguments (⟨.rparen, s⟩ :: rest) [] rest := by
  intro p _ hls
  obtain ⟨hk, -, hrest⟩ := Parser.next_of_rest hls
  refine ⟨[], p.advance, rfl, ⟨hrest, rfl, rfl⟩, .of_succ (fun _ => by rw [arguments]) (.nextKind ?_)⟩
  simp only [hk, ↓reduceIte]
  exact .advance (.pure [] p.advance)

/-- A call has a first argument where an expression begins, and those that follow it. -/
theorem buildsArguments_some {ls as rest : List Lexeme} {a : Node} {args : List Node}
    (hbegin : (headKind ls).startsExpression) (ha : Builds (fun n => expression n .lowest) ls a as)
    (has : BuildsMoreArguments as args rest) : BuildsArguments ls (a :: args) rest := by
  intro p hp hls
  obtain ⟨a', q, ha', hq, hfirst⟩ := ha p.advance hp ((Parser.lexemes_advance p).trans hls)
  obtain ⟨args', r, hargs', hk, hr, hmore⟩ := has q (hq.final_eof hp) hq.rest
  refine ⟨a' :: args', r.advance, by simp only [Node.bareAll, ha', hargs'], hq.of_advance.trans hr,
    .of_succ (fun _ => by rw [arguments]) (.nextKind ?_)⟩
  have hopen : p.next.kind ≠ .rparen := by
    intro h
    rw [Parser.kind_next hp, hls] at h
    rw [h] at hbegin
    exact absurd hbegin (by decide)
  simp only [hopen, ↓reduceIte]
  exact .advance (.bind hfirst (.bind hmore (.expect hk (.pure (a' :: args') r.advance))))

/-- Behind an argument the closing parenthesis ends the call. -/
theorem buildsMoreArguments_close (s : String) (rest : List Lexeme) :
    BuildsMoreArguments (⟨.rparen, s⟩ :: rest) [] rest := by
  intro p _ hls
  obtain ⟨hk, -, hrest⟩ := Parser.next_of_rest hls
  refine ⟨[], p, rfl, hk, ⟨hrest, rfl, rfl⟩, .of_succ (fun _ => by rw [moreArguments]) (.nextKind ?_)⟩
  simp only [hk, reduceCtorEq, ↓reduceIte]
  exact .pure [] p

/-- Behind an argument a comma asks for one more. -/
theorem buildsMoreArguments_more {ls as rest : List Lexeme} {a : Node} {args : List Node} (s : String)
    (ha : Builds (fun n => expression n .lowest) ls a as) (has : BuildsMoreArguments as args rest) :
    BuildsMoreArguments (⟨.comma, s⟩ :: ls) (a :: args) rest := by
  intro p hp hls
  obtain ⟨hcomma, -, hrest⟩ := Parser.next_of_rest hls
  obtain ⟨a', q, ha', hq, hfirst⟩ := ha p.advance.advance hp ((Parser.lexemes_advance _).trans hrest)
  obtain ⟨args', r, hargs', hk, hr, hmore⟩ := has q (hq.final_eof hp) hq.rest
  refine ⟨a' :: args', r, by simp only [Node.bareAll, ha', hargs'], hk, hq.of_advance.of_advance.trans hr,
    .of_succ (fun _ => by rw [moreArguments]) (.nextKind ?_)⟩
  simp only [hcomma, ↓reduceIte]
  exact .advance (.advance (.bind hfirst (.bind hmore (.pure (a' :: args') r))))

/-! ### Statements -/

/-- A `let` is read with its name, its value and what ends it. -/
theorem builds_let {ls ls' rest : List Lexeme} {e : Node} (s₁ s s₂ : String) (t t₁ : Token)
    (he : Builds (fun n => expression n .lowest) ls e ls') (hend : Ending ls' rest) :
    Builds statement (⟨.letKeyword, s₁⟩ :: ⟨.ident, s⟩ :: ⟨.assign, s₂⟩ :: ls) (.letStatement t ⟨t₁, s⟩ e) rest := by
  intro p hp hls
  obtain ⟨hk, -, hrest⟩ := Parser.current_of_lexemes hls
  obtain ⟨hident, hlit, hrest⟩ := Parser.next_of_rest (p := entering p) hrest
  obtain ⟨hassign, -, hrest⟩ := Parser.next_of_rest hrest
  obtain ⟨e', q, he', hq, hvalue⟩ :=
    he (entering p).advance.advance.advance hp ((Parser.lexemes_advance _).trans hrest)
  obtain ⟨r, hr, hskip⟩ := gives_skipSemicolon hend (hq.final_eof hp) hq.rest
  refine ⟨.letStatement p.current ⟨p.next, p.next.literal⟩ e', r, ?_,
    hq.of_advance.of_advance.of_advance.of_entering.trans hr,
    .of_succ (fun _ => by rw [statement]) (.enter (.current ?_))⟩
  · have hlit : p.next.literal = s := hlit
    simp only [Node.bare, Identifier.bare, he', hlit]
  · simp only [Parser.current_entering, hk]
    exact .of_succ (fun _ => by rw [letStatement]) (.current (.expect hident (.name (.expect hassign (.advance
      (.bind hvalue.attempt (.bind hskip (.pure (Node.letStatement p.current ⟨p.next, p.next.literal⟩ e') r))))))))

/-- A `return` before a semicolon has no value, and the semicolon belongs to it. -/
theorem builds_return_nothing {s₁ s₂ : String} (t : Token) (rest : List Lexeme) :
    Builds statement (⟨.returnKeyword, s₁⟩ :: ⟨.semicolon, s₂⟩ :: rest) (.returnStatement t .hole) rest := by
  intro p _ hls
  obtain ⟨hk, -, hrest⟩ := Parser.current_of_lexemes hls
  obtain ⟨hsemi, -, hrest⟩ := Parser.next_of_rest (p := entering p) hrest
  refine ⟨.returnStatement p.current .hole, (entering p).advance, rfl, ⟨hrest, rfl, rfl⟩,
    .of_succ (fun _ => by rw [statement]) (.enter (.current ?_))⟩
  simp only [Parser.current_entering, hk]
  refine .of_succ (fun _ => by rw [returnStatement]) (.current (.nextKind ?_))
  simp only [hsemi, ↓reduceIte]
  exact .advance (.pure (Node.returnStatement p.current .hole) (entering p).advance)

/-- A `return` before a closing brace or the end of the text has no value. -/
theorem builds_return_last {s : String} (t : Token) {rest : List Lexeme}
    (hlast : headKind rest = .rbrace ∨ headKind rest = .eof) :
    Builds statement (⟨.returnKeyword, s⟩ :: rest) (.returnStatement t .hole) rest := by
  intro p hp hls
  obtain ⟨hk, -, hrest⟩ := Parser.current_of_lexemes hls
  refine ⟨.returnStatement p.current .hole, entering p, rfl, ⟨hrest, rfl, rfl⟩,
    .of_succ (fun _ => by rw [statement]) (.enter (.current ?_))⟩
  simp only [Parser.current_entering, hk]
  refine .of_succ (fun _ => by rw [returnStatement]) (.current (.nextKind ?_))
  rw [← hrest, ← Parser.kind_next hp] at hlast
  have hsemi : p.next.kind ≠ .semicolon := by
    intro h
    rw [h] at hlast
    exact absurd hlast (by decide)
  simp only [Parser.next_entering, hsemi, hlast, ↓reduceIte]
  exact .pure (Node.returnStatement p.current .hole) (entering p)

/-- A `return` before an expression has its value. -/
theorem builds_return_value {ls ls' rest : List Lexeme} {e : Node} (s : String) (t : Token)
    (hbegin : (headKind ls).startsExpression) (he : Builds (fun n => expression n .lowest) ls e ls')
    (hend : Ending ls' rest) : Builds statement (⟨.returnKeyword, s⟩ :: ls) (.returnStatement t e) rest := by
  intro p hp hls
  obtain ⟨hk, -, hrest⟩ := Parser.current_of_lexemes hls
  obtain ⟨e', q, he', hq, hvalue⟩ := he (entering p).advance hp ((Parser.lexemes_advance _).trans hrest)
  obtain ⟨r, hr, hskip⟩ := gives_skipSemicolon hend (hq.final_eof hp) hq.rest
  refine ⟨.returnStatement p.current e', r, by simp only [Node.bare, he'], hq.of_advance.of_entering.trans hr,
    .of_succ (fun _ => by rw [statement]) (.enter (.current ?_))⟩
  simp only [Parser.current_entering, hk]
  refine .of_succ (fun _ => by rw [returnStatement]) (.current (.nextKind ?_))
  have hne {k : TokenKind} (hk : k.startsExpression = false) : p.next.kind ≠ k := by
    intro h
    rw [← h, Parser.kind_next hp, hrest, hbegin] at hk
    exact absurd hk (by decide)
  simp only [Parser.next_entering, hne (k := .semicolon) rfl, hne (k := .rbrace) rfl, hne (k := .eof) rfl, or_self,
    ↓reduceIte]
  exact .advance (.bind hvalue.attempt (.bind hskip (.pure (Node.returnStatement p.current e') r)))

/-- An expression where a statement begins is a statement. -/
theorem builds_expressionStatement {ls ls' rest : List Lexeme} {e : Node} (t : Token)
    (hbegin : (headKind ls).startsExpression) (he : Builds (fun n => expression n .lowest) ls e ls')
    (hend : Ending ls' rest) : Builds statement ls (.expressionStatement t e) rest := by
  intro p hp hls
  obtain ⟨e', q, he', hq, hvalue⟩ := he (entering p) hp hls
  obtain ⟨r, hr, hskip⟩ := gives_skipSemicolon hend (hq.final_eof hp) hq.rest
  refine ⟨.expressionStatement p.current e', r, by simp only [Node.bare, he'], hq.of_entering.trans hr, ?_⟩
  have hexp : Gives expressionStatement (entering p) (.expressionStatement p.current e') r :=
    .of_succ (fun _ => by rw [expressionStatement]) (.current (.bind hvalue (.bind hskip
      (.pure (Node.expressionStatement p.current e') r))))
  rw [← hls, ← Parser.kind_current hp] at hbegin
  refine .of_succ (fun _ => by rw [statement]) (.enter (.current ?_))
  rw [Parser.current_entering]
  cases hk : p.current.kind <;> first | exact hexp | exact absurd (hk ▸ hbegin) (by decide)

theorem RunsThrough.nil (rest : List Lexeme) : RunsThrough rest [] rest := by
  intro p _ hls
  exact ⟨[], p, rfl, hls, rfl, rfl, fun _ h => h⟩

/-- A statement and those behind it are read in a row. -/
theorem RunsThrough.cons {ls ls' rest : List Lexeme} {s : Node} {ss : List Node}
    (hbegin : (headKind ls).startsStatement) (hs : Builds statement ls s ls') (hss : RunsThrough ls' ss rest) :
    RunsThrough ls (s :: ss) rest := by
  intro p hp hls
  obtain ⟨s', q, hs', hq, hfirst⟩ := hs p hp hls
  obtain ⟨ss', r, hss', hr, hfinal, hd, hgives⟩ :=
    hss q.advance (hq.final_eof hp) ((Parser.lexemes_advance q).trans hq.rest)
  refine ⟨s' :: ss', r, by simp only [Node.bareAll, hs', hss'], hr, hfinal.trans hq.final, hd.trans hq.diagnostics,
    fun hx htail => hx ?_ hfirst (hgives hx htail)⟩
  rwa [Parser.kind_current hp, hls]

end Rule

/-! ## What is read is built -/

namespace Reading

open Rule

mutual

/-- **Every operand of the grammar is read as such.** The six facts go by one recursion over readings. -/
theorem Operand.builds : ∀ {ls rest : List Lexeme} {e : Node}, Operand ls e rest → Builds operand ls e rest
  | _, rest, _, .identifier (s := s) (t := t) => builds_identifier s t rest
  | _, rest, _, .integer (t := t) hlen hmax => builds_integer t rest hlen hmax
  | _, rest, _, .true (s := s) (t := t) => builds_boolean Bool.true s t rest rfl
  | _, rest, _, .false (s := s) (t := t) => builds_boolean Bool.false s t rest rfl
  | _, _, _, .not (s := s) (t := t) h hstop =>
    builds_unary s t (fun n p hk => by rw [operand, bind_enter, bind_current, Parser.current_entering, hk])
      (h.continues.builds hstop)
  | _, _, _, .negate (s := s) (t := t) h hstop =>
    builds_unary s t (fun n p hk => by rw [operand, bind_enter, bind_current, Parser.current_entering, hk])
      (h.continues.builds hstop)
  | _, _, _, .group h => builds_group _ (h.continues.builds TokenKind.endsExpression_rparen)
  | _, _, _, .ifThen hc h₁ helse =>
    builds_conditional _ _ _ (hc.continues.builds TokenKind.endsExpression_rparen) (h₁.runsThrough.buildsBlock _) helse
  | _, _, _, .ifThenElse hc h₁ h₂ =>
    builds_conditional_else _ _ _ (hc.continues.builds TokenKind.endsExpression_rparen) (h₁.runsThrough.buildsBlock _)
      (h₂.runsThrough.buildsBlock _)
  | _, _, _, .function hps h => builds_function _ _ _ hps (h.runsThrough.buildsBlock _)

/-- A chain of operators and calls is read step by step, as long as its level allows. -/
theorem Chain.continues : ∀ {floor : Precedence} {ls rest : List Lexeme} {e : Node}, Chain floor ls e rest →
    Continues floor ls e rest
  | _, _, _, _, .operand h => h.builds.continues
  | _, _, _, _, .binary hl hop hlt hr hstop => hl.continues.binary _ hop hlt (hr.continues.builds hstop)
  | _, _, _, _, .call hf hlt hargs => hf.continues.call _ hlt hargs.builds

theorem Arguments.builds : ∀ {ls rest : List Lexeme} {as : List Node}, Arguments ls as rest →
    BuildsArguments ls as rest
  | _, _, _, .close => buildsArguments_close _ _
  | _, _, _, .some h hmore => buildsArguments_some h.begins (h.continues.builds hmore.stops) hmore.builds

theorem MoreArguments.builds : ∀ {ls rest : List Lexeme} {as : List Node}, MoreArguments ls as rest →
    BuildsMoreArguments ls as rest
  | _, _, _, .close => buildsMoreArguments_close _ _
  | _, _, _, .more h hmore => buildsMoreArguments_more _ (h.continues.builds hmore.stops) hmore.builds

/-- Every statement of the grammar is read as such. -/
theorem Statement.builds : ∀ {ls rest : List Lexeme} {s : Node}, Statement ls s rest → Builds statement ls s rest
  | _, _, _, .letStatement h hend => builds_let _ _ _ _ _ (h.continues.builds hend.stops) hend
  | _, rest, _, .returnNothing => builds_return_nothing _ rest
  | _, _, _, .returnLast hlast => builds_return_last _ hlast
  | _, _, _, .returnValue h hend => builds_return_value _ _ h.begins (h.continues.builds hend.stops) hend
  | _, _, _, .expression h hend => builds_expressionStatement _ h.begins (h.continues.builds hend.stops) hend

/-- Statements in a row are read in a row. -/
theorem Statements.runsThrough : ∀ {ls rest : List Lexeme} {ss : List Node}, Statements ls ss rest →
    RunsThrough ls ss rest
  | _, _, _, .nil => .nil _
  | _, _, _, .cons h hss => .cons h.begins h.builds hss.runsThrough

end

end Reading

/-! ## A whole text -/

/-- What the loop over a whole text builds with enough allowance it builds with the allowance of its window. -/
theorem Rule.Gives.programStatements_allowance {p q : Parser} {ss : List Node} (hp : p.final.kind = .eof)
    (h : Gives programStatements p ss q) : programStatements p.allowance p = .ok ss q := by
  obtain ⟨n, hn⟩ := h
  have hmax := hn (max p.allowance n) (Nat.le_max_right ..)
  obtain hsame | ⟨r, hr⟩ := congruence_extends.programStatements (Nat.le_max_left p.allowance n) p
  · rw [← hsame, hmax]
  · -- a refusal for depth would be one for a numeral
    obtain ⟨t, -, -, -, hwhy⟩ := answers_programStatements hp (Nat.add_le_add_left (by omega) _) _ _ hr
    exact nomatch hwhy

/-- **A text that is read as statements is parsed as these, without reports.** -/
theorem parse_of_reads {text : String} {ss : List Node} (h : Reading.Statements (lexemesOf text) ss []) :
    ∃ ss', parse text = .ok ⟨.program ss', []⟩ ∧ Node.bareAll ss' = Node.bareAll ss := by
  have hp := Parser.final_ofText text
  obtain ⟨ss', q, hss, hq, hfinal, hd, hgives⟩ := h.runsThrough (Rule.entering (.ofText text)) hp rfl
  have hk : q.current.kind = .eof := by rw [Parser.kind_current (hfinal ▸ hp), hq, headKind_nil]
  have hend : Rule.Gives Rule.programStatements q [] q := by
    refine .of_succ (fun _ => by rw [Rule.programStatements]) (.current ?_)
    simp only [hk, ↓reduceIte]
    exact .pure [] q
  have hrun := Rule.Gives.programStatements_allowance (p := Rule.entering (.ofText text)) hp
    (hgives Rule.repeats_programStatements hend)
  rw [List.append_nil] at hrun
  refine ⟨ss', ?_, hss⟩
  have hprogram : Parser.program (.ofText text) = .ok (.program ss') q :=
    (Parser.program_run _).trans (Rule.bind_of_ok hrun)
  have hd : q.diagnostics = #[] := hd
  simp only [parse, hprogram, hd]

end Monkey
