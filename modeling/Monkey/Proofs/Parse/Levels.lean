import Monkey.Proofs.Parse.Allowance

/-!
# Levels of nesting

A rule begins where the current token is still to be looked at, or where another rule has looked at it and handed it
over; it ends where the current token is done with. `Rule.Levels` says what holds of a parser at each such stage on each
level of nesting, with a condition for each step from one to the next: an opening brace leads one level further in, and
where the block ends, its closing brace or the end of the text leads out again. If the conditions are met, every rule of
the grammar leads from the stage at which it begins to the one at which it ends, on the same level, whatever it finds and
whether it builds something or gives up (`Rule.Levels.all`). So whatever is to be shown of all rules at once takes no more
than the conditions.
-/

namespace Monkey

/-! ## Kinds of tokens -/

namespace TokenKind

/-- The kinds of which a token may be wrong by itself. -/
def isDoubtful (k : TokenKind) : Bool :=
  k = .int || k = .illegal

/-- The kinds of tokens that are never wrong by themselves and that stand in the text. -/
def isSound (k : TokenKind) : Bool :=
  !k.isDoubtful && k ≠ .eof

/-- The sound kinds of tokens that neither open nor close a block. -/
def isPlain (k : TokenKind) : Bool :=
  k.isSound && k ≠ .lbrace && k ≠ .rbrace

variable {k : TokenKind}

theorem isDoubtful_of_isSound (h : k.isSound) : k.isDoubtful = false := by
  cases k <;> first | rfl | cases h

theorem ne_eof_of_isSound (h : k.isSound) : k ≠ .eof := by
  rintro rfl
  cases h

/-- A kind is plain if it is sound and no brace. -/
theorem isPlain_iff : k.isPlain ↔ k.isSound ∧ k ≠ .lbrace ∧ k ≠ .rbrace := by
  simp [isPlain, and_assoc]

theorem isSound_of_isPlain (h : k.isPlain) : k.isSound :=
  (isPlain_iff.1 h).1

/-- A token that continues an expression is a plain one. -/
theorem isPlain_of_lt_precedence {floor : Precedence} (h : floor < k.precedence) : k.isPlain := by
  cases k <;> first | rfl | (cases floor <;> exact absurd h (by decide))

end TokenKind

namespace Rule

/-- However `x` ends at `p`, unless the text is refused, `Q` holds of the parser that is left. -/
structure Leads {α : Type} (Q : Parser → Prop) (x : Rule α) (p : Parser) : Prop where
  ok : ∀ {a q}, x p = .ok a q → Q q
  unreadable : ∀ {q}, x p = .error .unreadable q → Q q

namespace Leads

variable {α β : Type} {Q : Parser → Prop} {x y : Rule α} {p : Parser}

theorem pure (h : Q p) (a : α) : Leads Q (pure a) p where
  ok hq := by
    obtain ⟨-, rfl⟩ := pure_eq_ok.1 hq
    exact h
  unreadable := nofun

theorem refuse (why : Refusal) : Leads Q (refuse why : Rule α) p :=
  ⟨nofun, nofun⟩

/-- A rule that reports a problem and gives up leads to where the report leaves the parser. -/
theorem fail {problem : Problem} {token : Token} (h : Q (reporting p problem token)) :
    Leads Q (report problem token >>= fun _ => (giveUp : Rule α)) p where
  ok := nofun
  unreadable hq := by
    cases hq
    exact h

/-- One rule after another leads to where the second one ends, if it begins where the first one ends. -/
theorem bind {f : α → Rule β} (hx : Leads Q x p) (hf : ∀ a q, Q q → Leads Q (f a) q) : Leads Q (x >>= f) p where
  ok hr := by
    obtain ⟨a, q, hq, hr⟩ := bind_eq_ok.1 hr
    exact (hf a q (hx.ok hq)).ok hr
  unreadable hr := by
    obtain hr | ⟨a, q, hq, hr⟩ := bind_eq_error.1 hr
    · exact hx.unreadable hr
    · exact (hf a q (hx.ok hq)).unreadable hr

/-- A rule that may give up leads to the same place either way. -/
theorem attempt (hx : Leads Q x p) : Leads Q (attempt x) p where
  ok {o q} hq := by
    cases o with
    | some a => exact hx.ok (attempt_eq_some.1 hq)
    | none => exact hx.unreadable (attempt_eq_none.1 hq)
  unreadable hq := absurd hq attempt_ne_unreadable

/-- What an attempted rule leads to need not be what the whole leads to. -/
theorem bind_attempt {R : Parser → Prop} {f : Option α → Rule β} (hx : Leads R x p)
    (hf : ∀ o q, R q → Leads Q (f o) q) : Leads Q (Rule.attempt x >>= f) p where
  ok hr := by
    obtain ⟨o, q, hq, hr⟩ := bind_eq_ok.1 hr
    exact (hf o q (hx.attempt.ok hq)).ok hr
  unreadable hr := by
    obtain hr | ⟨o, q, hq, hr⟩ := bind_eq_error.1 hr
    · exact absurd hr attempt_ne_unreadable
    · exact (hf o q (hx.attempt.ok hq)).unreadable hr

/-- A rule with two branches leads to where both of them do. -/
theorem ite {c : Prop} [Decidable c] (hx : c → Leads Q x p) (hy : ¬c → Leads Q y p) :
    Leads Q (if c then x else y) p := by
  split
  · exact hx ‹_›
  · exact hy ‹_›

theorem bind_current {f : Token → Rule β} (h : Leads Q (f p.current) p) : Leads Q (current >>= f) p :=
  ⟨h.ok, h.unreadable⟩

theorem bind_nextKind {f : TokenKind → Rule β} (h : Leads Q (f p.next.kind) p) : Leads Q (nextKind >>= f) p :=
  ⟨h.ok, h.unreadable⟩

theorem bind_name {f : Identifier → Rule β} (h : Leads Q (f ⟨p.current, p.current.literal⟩) p) :
    Leads Q (name >>= f) p :=
  ⟨h.ok, h.unreadable⟩

theorem bind_enter {f : Unit → Rule β} (h : Leads Q (f ()) (entering p)) : Leads Q (enter >>= f) p :=
  ⟨h.ok, h.unreadable⟩

theorem bind_report {f : Unit → Rule β} {problem : Problem} {token : Token}
    (h : Leads Q (f ()) (reporting p problem token)) : Leads Q (report problem token >>= f) p :=
  ⟨h.ok, h.unreadable⟩

theorem bind_advance {f : Unit → Rule β} (h : Leads Q (f ()) p.advance) : Leads Q (advance >>= f) p :=
  ⟨h.ok, h.unreadable⟩

end Leads

/-- What holds of a parser at each stage on each level, with a condition for each step. -/
structure Levels (ι : Type) where
  /-- The level of the statements of a block. -/
  inner : ι → ι
  /-- Before a statement or the end of a list of statements. -/
  between : ι → Parser → Prop
  /-- The current token is still to be looked at, by a rule that is entered for it; there may be `k` of them. -/
  pending : ι → Nat → Parser → Prop
  /-- The current token has been looked at, and it is a plain one; `k` rules may still be entered for it. -/
  held : ι → Nat → Parser → Prop
  /-- The current token is done with. -/
  done : ι → Parser → Prop
  -- Lists of statements.
  begins {i p} : between i p → p.current.kind ≠ .eof → pending i 3 p
  ended {i p} : between i p → p.current.kind = .eof → done i p
  resumed {i p} : done i p → between i p.advance
  -- Blocks.
  opens {i p} : done i p → p.next.kind = .lbrace → between (inner i) (entering p.advance).advance
  closes {i p} : between (inner i) p → p.current.kind = .rbrace → done i p
  unclosed {i p} : between (inner i) p → p.current.kind = .eof →
    done i (reporting p (.unexpected .rbrace .eof) p.current)
  -- A token that is looked at.
  enters {i k p} : pending i (k + 1) p → pending i k (entering p)
  looked {i k p} : pending i k p → p.current.kind.isPlain → held i 0 p
  numeral {i p} : pending i 0 p → p.current.kind = .int → Leads (done i) integer p
  noExpression {i p} : pending i 0 p → p.current.kind ≠ .int →
    done i (reporting p (.noExpression p.current.kind) p.current)
  -- A token that has been looked at.
  takes {i k p} : held i (k + 1) p → held i k (entering p)
  releases {i k p} : held i k p → done i p
  goesOn {i k p} : held i k p → pending i 2 p.advance
  -- The token behind one that is done with.
  moves {i p} : done i p → p.next.kind.isPlain → held i 1 p.advance
  unexpected {i p} (kind : TokenKind) : done i p → done i (reporting p (.unexpected kind p.next.kind) p.next)

namespace Levels

variable {ι : Type} (S : Levels ι)

section Steps

variable {S} {β : Type} {i : ι} {p : Parser} {n : Nat} {f : Unit → Rule β} {kind : TokenKind}

/-- A token that does not come is reported; the rule goes on only behind one that does. -/
theorem bind_expect_of (h : S.done i p) (hf : p.next.kind = kind → Leads (S.done i) (f ()) p.advance) :
    Leads (S.done i) (expect kind >>= f) p where
  ok hr := by
    obtain ⟨_, q, hq, hr⟩ := bind_eq_ok.1 hr
    obtain ⟨hnext, rfl⟩ := expect_eq_ok.1 hq
    exact (hf hnext).ok hr
  unreadable hr := by
    obtain hr | ⟨_, q, hq, hr⟩ := bind_eq_error.1 hr
    · rw [expect_run] at hr
      split at hr <;> cases hr
      exact S.unexpected kind h
    · obtain ⟨hnext, rfl⟩ := expect_eq_ok.1 hq
      exact (hf hnext).unreadable hr

/-- Behind a plain token that was expected, the rule goes on with a token that has been looked at. -/
theorem bind_expect (h : S.done i p) (hk : kind.isPlain)
    (hf : S.held i 1 p.advance → Leads (S.done i) (f ()) p.advance) : Leads (S.done i) (expect kind >>= f) p :=
  bind_expect_of h fun hnext => hf (S.moves h (hnext ▸ hk))

/-- Behind an opening brace the rule goes on with the statements of a block. -/
theorem bind_expect_lbrace (h : S.done i p)
    (hf : S.between (S.inner i) (entering p.advance).advance → Leads (S.done i) (f ()) p.advance) :
    Leads (S.done i) (expect .lbrace >>= f) p :=
  bind_expect_of h fun hnext => hf (S.opens h hnext)

/-- An optional semicolon leaves the current token done with. -/
theorem leads_skipSemicolon (h : S.done i p) : Leads (S.done i) skipSemicolon p where
  ok hq := by
    have hq := skipSemicolon_eq_ok.1 hq
    split at hq <;> cases hq
    · next hk => exact S.releases (S.moves h (by rw [hk]; rfl))
    · exact h
  unreadable hq := by
    rw [skipSemicolon_run] at hq
    cases hq

/-- The rest of a list of parameters leaves the current token done with. -/
theorem leads_moreParameters (h : S.done i p) : Leads (S.done i) (moreParameters n) p := by
  induction n generalizing p with
  | zero => exact .refuse .tooDeep
  | succ n ih =>
    rw [moreParameters]
    refine .bind_nextKind (.ite (fun hk => .bind_advance ?_) fun _ => .pure h _)
    have hcomma := S.releases (S.moves h (by rw [hk]; rfl))
    exact bind_expect hcomma rfl fun hname => .bind_name (.bind (ih (S.releases hname)) fun _ q hq => .pure hq _)

/-- A list of parameters leaves the current token done with. -/
theorem leads_parameters (h : S.done i p) : Leads (S.done i) (parameters n) p := by
  refine .bind_nextKind (.ite (fun hk => .bind_advance ?_) fun _ => ?_)
  · exact .pure (S.releases (S.moves h (by rw [hk]; rfl))) _
  · exact bind_expect h rfl fun hname => .bind_name (.bind (leads_moreParameters (S.releases hname)) fun _ q hq =>
      bind_expect hq rfl fun hparen => .pure (S.releases hparen) _)

end Steps

/-- Each rule at allowance `n` leads from the stage at which it begins to the one at which it ends, on any level. -/
structure Led (n : Nat) : Prop where
  expression : ∀ {i} floor {p}, S.pending i 2 p → Leads (S.done i) (expression n floor) p
  operand : ∀ {i p}, S.pending i 1 p → Leads (S.done i) (operand n) p
  unary : ∀ {i} op {p}, S.held i 0 p → Leads (S.done i) (unary n op) p
  group : ∀ {i p}, S.held i 0 p → Leads (S.done i) (group n) p
  conditional : ∀ {i p}, S.held i 0 p → Leads (S.done i) (conditional n) p
  function : ∀ {i p}, S.held i 0 p → Leads (S.done i) (function n) p
  extend : ∀ {i} floor left {p}, S.done i p → Leads (S.done i) (extend n floor left) p
  application : ∀ {i} left {p}, S.held i 1 p → Leads (S.done i) (application n left) p
  arguments : ∀ {i p}, S.held i 0 p → Leads (S.done i) (arguments n) p
  moreArguments : ∀ {i p}, S.done i p → Leads (S.done i) (moreArguments n) p
  statement : ∀ {i p}, S.pending i 3 p → Leads (S.done i) (statement n) p
  letStatement : ∀ {i p}, S.held i 0 p → Leads (S.done i) (letStatement n) p
  returnStatement : ∀ {i p}, S.held i 0 p → Leads (S.done i) (returnStatement n) p
  expressionStatement : ∀ {i p}, S.pending i 2 p → Leads (S.done i) (expressionStatement n) p
  block : ∀ {i p}, S.between (S.inner i) (entering p).advance → Leads (S.done i) (block n) p
  blockStatements : ∀ {i p}, S.between (S.inner i) p → Leads (S.done i) (blockStatements n) p

namespace Led

variable {S} {i : ι} {n : Nat} {p : Parser}

/-- At no allowance no rule leads anywhere. -/
theorem zero : S.Led 0 := by
  constructor <;> intros <;> exact .refuse .tooDeep

/-- An operand is a numeral, a plain token that some rule takes up, or reported as no expression. -/
theorem operand_succ (h : S.Led n) (hp : S.pending i 1 p) : Leads (S.done i) (Rule.operand (n + 1)) p := by
  rw [Rule.operand]
  replace hp := S.enters hp
  refine .bind_enter (.bind_current ?_)
  have hheld {k : TokenKind} (hk : (entering p).current.kind = k) (hplain : k.isPlain) : S.held i 0 (entering p) :=
    S.looked hp (hk ▸ hplain)
  split
  next hk => exact .bind_name (.pure (S.releases (hheld hk rfl)) _)
  next hk => exact S.numeral hp hk
  next hk => exact .pure (S.releases (hheld hk rfl)) _
  next hk => exact .pure (S.releases (hheld hk rfl)) _
  next hk => exact h.unary .not (hheld hk rfl)
  next hk => exact h.unary .negate (hheld hk rfl)
  next hk => exact h.group (hheld hk rfl)
  next hk => exact h.conditional (hheld hk rfl)
  next hk => exact h.function (hheld hk rfl)
  next hint _ _ _ _ _ _ _ => exact .fail (S.noExpression hp hint)

/-- An `if` passes two parentheses, and each of its blocks is left on the level on which it was entered. -/
theorem conditional_succ (h : S.Led n) (hp : S.held i 0 p) :
    Leads (S.done i) (Rule.conditional (n + 1)) p := by
  rw [Rule.conditional]
  refine .bind_current (bind_expect (S.releases hp) rfl fun hparen => .bind_advance ?_)
  refine .bind (h.expression _ (S.goesOn hparen)) fun c q hq => bind_expect hq rfl fun hparen => ?_
  refine bind_expect_lbrace (S.releases hparen) fun hinner => .bind (h.block hinner) fun b q hq => ?_
  refine .bind_nextKind (.ite (fun hk => .bind_advance ?_) fun _ => .pure hq _)
  have helse := S.releases (S.moves hq (by rw [hk]; rfl))
  exact bind_expect_lbrace helse fun hinner => .bind (h.block hinner) fun _ q hq => .pure hq _

/-- A `let` passes the name and the equals sign before its value. -/
theorem letStatement_succ (h : S.Led n) (hp : S.held i 0 p) :
    Leads (S.done i) (Rule.letStatement (n + 1)) p := by
  rw [Rule.letStatement]
  refine .bind_current (bind_expect (S.releases hp) rfl fun hname => .bind_name ?_)
  refine bind_expect (S.releases hname) rfl fun hassign => .bind_advance ?_
  exact .bind (.attempt (h.expression _ (S.goesOn hassign))) fun _ q hq =>
    .bind (leads_skipSemicolon hq) fun _ q hq => .pure hq _

/-- A `return` either ends at once or goes on with its value. -/
theorem returnStatement_succ (h : S.Led n) (hp : S.held i 0 p) :
    Leads (S.done i) (Rule.returnStatement (n + 1)) p := by
  rw [Rule.returnStatement]
  refine .bind_current (.bind_nextKind (.ite (fun hk => .bind_advance ?_) fun _ => ?_))
  · exact .pure (S.releases (S.moves (S.releases hp) (by rw [hk]; rfl))) _
  · refine .ite (fun _ => .pure (S.releases hp) _) fun _ => .bind_advance ?_
    exact .bind (.attempt (h.expression _ (S.goesOn hp))) fun _ q hq =>
      .bind (leads_skipSemicolon hq) fun _ q hq => .pure hq _

/-- Arguments end at once or with a closing parenthesis. -/
theorem arguments_succ (h : S.Led n) (hp : S.held i 0 p) : Leads (S.done i) (Rule.arguments (n + 1)) p := by
  rw [Rule.arguments]
  refine .bind_nextKind (.ite (fun hk => .bind_advance ?_) fun _ => .bind_advance ?_)
  · exact .pure (S.releases (S.moves (S.releases hp) (by rw [hk]; rfl))) _
  · exact .bind (h.expression _ (S.goesOn hp)) fun _ q hq => .bind (h.moreArguments hq) fun _ q hq =>
      bind_expect hq rfl fun hparen => .pure (S.releases hparen) _

/-- The statements of a block are read one level further in, and its end leads out again. -/
theorem blockStatements_succ (h : S.Led n) (hp : S.between (S.inner i) p) :
    Leads (S.done i) (Rule.blockStatements (n + 1)) p := by
  rw [Rule.blockStatements]
  refine .bind_current (.ite (fun hk => .pure (S.closes hp hk) _) fun _ => .ite (fun hk => ?_) fun hk => ?_)
  · exact .bind_report (.pure (S.unclosed hp hk) _)
  · exact .bind_attempt (h.statement (S.begins hp hk)) fun _ q hq => .bind_advance
      (.bind (h.blockStatements (S.resumed hq)) fun _ q hq => .pure hq _)

/-- Each rule leads on if the rules it calls do. -/
theorem succ (h : S.Led n) : S.Led (n + 1) where
  expression {i} floor {p} hp := by
    rw [Rule.expression]
    exact .bind_enter (.bind (h.operand (S.enters hp)) fun left q hq => h.extend floor left hq)
  operand := h.operand_succ
  unary {i} op {p} hp := by
    rw [Rule.unary]
    exact .bind_current (.bind_advance (.bind (.attempt (h.expression _ (S.goesOn hp))) fun _ q hq => .pure hq _))
  group {i p} hp := by
    rw [Rule.group]
    exact .bind_advance (.bind (h.expression _ (S.goesOn hp)) fun _ q hq =>
      bind_expect hq rfl fun hparen => .pure (S.releases hparen) _)
  conditional := h.conditional_succ
  function {i p} hp := by
    rw [Rule.function]
    refine .bind_current (bind_expect (S.releases hp) rfl fun hparen => ?_)
    exact .bind (leads_parameters (S.releases hparen)) fun _ q hq => bind_expect_lbrace hq fun hinner =>
      .bind (h.block hinner) fun _ q hq => .pure hq _
  extend {i} floor left {p} hp := by
    rw [Rule.extend]
    refine .bind_nextKind (.ite (fun hlt => .bind_advance ?_) fun _ => .pure hp _)
    have hoperator := S.moves hp (TokenKind.isPlain_of_lt_precedence hlt)
    exact .bind (h.application left hoperator) fun longer q hq => h.extend floor longer hq
  application {i} left {p} hp := by
    rw [Rule.application]
    refine .bind_enter (.bind_current ?_)
    cases (entering p).current.kind.binaryOp? with
    | some op => exact .bind_advance (.bind (h.expression _ (S.goesOn (S.takes hp))) fun _ q hq => .pure hq _)
    | none => exact .bind (h.arguments (S.takes hp)) fun _ q hq => .pure hq _
  arguments := h.arguments_succ
  moreArguments {i p} hp := by
    rw [Rule.moreArguments]
    refine .bind_nextKind (.ite (fun hk => .bind_advance (.bind_advance ?_)) fun _ => .pure hp _)
    have hcomma := S.moves hp (by rw [hk]; rfl)
    exact .bind (h.expression _ (S.goesOn hcomma)) fun _ q hq => .bind (h.moreArguments hq) fun _ q hq =>
      .pure hq _
  statement {i p} hp := by
    rw [Rule.statement]
    replace hp := S.enters hp
    refine .bind_enter (.bind_current ?_)
    split
    next hk => exact h.letStatement (S.looked hp (by rw [hk]; rfl))
    next hk => exact h.returnStatement (S.looked hp (by rw [hk]; rfl))
    next => exact h.expressionStatement hp
  letStatement := h.letStatement_succ
  returnStatement := h.returnStatement_succ
  expressionStatement {i p} hp := by
    rw [Rule.expressionStatement]
    exact .bind_current (.bind (h.expression _ hp) fun _ q hq => .bind (leads_skipSemicolon hq) fun _ q hq =>
      .pure hq _)
  block {i p} hp := by
    rw [Rule.block]
    exact .bind_enter (.bind_current (.bind_advance (.bind (h.blockStatements hp) fun _ q hq => .pure hq _)))
  blockStatements := h.blockStatements_succ

end Led

/-- **Every rule leads from the stage at which it begins to the one at which it ends**, on the same level. -/
theorem all : ∀ n, S.Led n
  | 0 => Led.zero
  | n + 1 => (all n).succ

/-- A program is read to the end of its text. -/
theorem programStatements {i : ι} {n : Nat} {p q : Parser} {ss : List Node} (hp : S.between i p)
    (h : programStatements n p = .ok ss q) : S.done i q ∧ q.current.kind = .eof := by
  induction n generalizing p ss with
  | zero => cases h
  | succ n ih =>
    obtain ⟨hk, -, rfl⟩ | ⟨hk, first, r, rest, hfirst, hrest, -⟩ := programStatements_eq_ok.1 h
    · exact ⟨S.ended hp hk, hk⟩
    · have hr : S.done i r := (Leads.attempt ((S.all n).statement (S.begins hp hk))).ok hfirst
      exact ih (S.resumed hr) hrest

/-- The statements of a block are read up to a closing brace, or to the end of the text, where that is reported. -/
theorem blockStatements {i : ι} {n : Nat} {p q : Parser} {ss : List Node} (hp : S.between i p)
    (h : blockStatements n p = .ok ss q) : ∃ r, S.between i r ∧ (r.current.kind = .rbrace ∧ r = q ∨
      r.current.kind = .eof ∧ reporting r (.unexpected .rbrace .eof) r.current = q) := by
  induction n generalizing p ss with
  | zero => cases h
  | succ n ih =>
    obtain ⟨hk, -, hq⟩ | ⟨hk, -, hq⟩ | ⟨-, hk, first, r, rest, hfirst, hrest, -⟩ := blockStatements_eq_ok.1 h
    · exact ⟨p, hp, .inl ⟨hk, hq⟩⟩
    · exact ⟨p, hp, .inr ⟨hk, hq⟩⟩
    · have hr : S.done i r := (Leads.attempt ((S.all n).statement (S.begins hp hk))).ok hfirst
      exact ih (S.resumed hr) hrest

end Levels

end Rule

end Monkey
