import Monkey.Parse.Rules

/-!
# Runs of rules

How a rule runs, and what all rules of the grammar have in common.

* `Rule.Congruence.rules`: a relation that sequencing keeps relates every rule at one allowance to the same rule at a
  larger one.
* `Rule.Forward`: a rule moves the window forward only, keeps what was reported and gives up only after a report
  (`forward_rules`).
* `Rule.Extends`: a larger allowance keeps every answer but a refusal for depth (`extends_rules`).
-/

namespace Monkey

namespace Rule

/-! ## Running a sequence -/

section Runs

variable {α β : Type} {p q : Parser}

/-- A rule that is followed by another hands on what it has built, and the parser it has got to. -/
theorem bind_run (x : Rule α) (f : α → Rule β) (p : Parser) :
    (x >>= f) p = match x p with
      | .ok a q => f a q
      | .error why q => .error why q := by
  change EStateM.bind x f p = _
  unfold EStateM.bind
  cases x p <;> rfl

/-- Behind a rule that has built something the next one goes on. -/
theorem bind_of_ok {x : Rule α} {f : α → Rule β} {a : α} (h : x p = .ok a q) : (x >>= f) p = f a q := by
  rw [bind_run, h]

/-- A rule that stops, stops all that follows it. -/
theorem bind_of_error {x : Rule α} {f : α → Rule β} {why : Stop} (h : x p = .error why q) :
    (x >>= f) p = .error why q := by
  rw [bind_run, h]

/-- Two rules in a row build something if both do. -/
@[simp] theorem bind_eq_ok {x : Rule α} {f : α → Rule β} {b : β} {r : Parser} :
    (x >>= f) p = .ok b r ↔ ∃ a q, x p = .ok a q ∧ f a q = .ok b r := by
  rw [bind_run]
  cases x p <;> simp [and_assoc]

/-- Two rules in a row stop at the first of them, or at the second behind the first. -/
theorem bind_eq_error {x : Rule α} {f : α → Rule β} {why : Stop} {r : Parser} :
    (x >>= f) p = .error why r ↔ x p = .error why r ∨ ∃ a q, x p = .ok a q ∧ f a q = .error why r := by
  rw [bind_run]
  cases x p <;> simp [and_assoc]

theorem pure_run (a : α) (p : Parser) : (pure a : Rule α) p = .ok a p := rfl

@[simp] theorem pure_eq_ok {a b : α} : (pure a : Rule α) p = .ok b q ↔ a = b ∧ p = q := by
  simp [pure_run]

@[simp] theorem giveUp_ne_ok {a : α} : (giveUp : Rule α) p ≠ .ok a q := nofun

@[simp] theorem refuse_ne_ok {why : Refusal} {a : α} : (refuse why : Rule α) p ≠ .ok a q := nofun

@[simp] theorem bind_current (f : Token → Rule β) : (current >>= f) p = f p.current p := rfl

/-- The parser that has entered one rule more. -/
def entering (p : Parser) : Parser :=
  { p with entered := p.entered + 1 }

/-- The parser that has reported a problem at a token. -/
def reporting (p : Parser) (problem : Problem) (token : Token) : Parser :=
  { p with diagnostics := p.diagnostics.push ⟨problem, token.position⟩ }

@[simp] theorem bind_enter (f : Unit → Rule β) : (enter >>= f) p = f () (entering p) := rfl

@[simp] theorem bind_report (problem : Problem) (token : Token) (f : Unit → Rule β) :
    (report problem token >>= f) p = f () (reporting p problem token) := rfl

/-- An expected kind is moved to; any other is reported and given up. -/
theorem expect_run (kind : TokenKind) (p : Parser) :
    expect kind p = if p.next.kind = kind then .ok () p.advance
      else .error .unreadable (reporting p (.unexpected kind p.next.kind) p.next) := by
  change (if p.next.kind = kind then advance else _ : Rule Unit) p = _
  split <;> rfl

@[simp] theorem expect_eq_ok {kind : TokenKind} {u : Unit} :
    expect kind p = .ok u q ↔ p.next.kind = kind ∧ p.advance = q := by
  rw [expect_run]
  split <;> simp [*]

/-- A semicolon is passed over, and nothing else. -/
theorem skipSemicolon_run (p : Parser) :
    skipSemicolon p = .ok () (if p.next.kind = .semicolon then p.advance else p) := by
  change (if p.next.kind = .semicolon then advance else pure () : Rule Unit) p = _
  split <;> rfl

@[simp] theorem skipSemicolon_eq_ok {u : Unit} :
    skipSemicolon p = .ok u q ↔ (if p.next.kind = .semicolon then p.advance else p) = q := by
  simp [skipSemicolon_run]

/-- What is given up is taken as missing, while a refusal stays one. -/
theorem attempt_run (x : Rule α) (p : Parser) :
    attempt x p = match x p with
      | .ok a q => .ok (some a) q
      | .error .unreadable q => .ok none q
      | .error (.refused why) q => .error (.refused why) q := by
  unfold attempt
  rcases x p with ⟨a, q⟩ | ⟨_ | why, q⟩ <;> rfl

@[simp] theorem attempt_eq_some {x : Rule α} {a : α} : attempt x p = .ok (some a) q ↔ x p = .ok a q := by
  rw [attempt_run]
  rcases x p with ⟨b, r⟩ | ⟨_ | why, r⟩ <;> simp

@[simp] theorem attempt_eq_none {x : Rule α} : attempt x p = .ok none q ↔ x p = .error .unreadable q := by
  rw [attempt_run]
  rcases x p with ⟨b, r⟩ | ⟨_ | why, r⟩ <;> simp

end Runs

/-! ## What sequencing keeps -/

/-- A relation between rules that sequencing keeps, and that holds between each elementary step and itself. Nothing is
asked of the right side where the left one is out of its allowance. -/
structure Congruence (R : {α : Type} → Rule α → Rule α → Prop) : Prop where
  exhausted : ∀ {α : Type} (x : Rule α), R (refuse .tooDeep) x
  pure : ∀ {α : Type} (a : α), R (pure a) (pure a)
  bind : ∀ {α β : Type} {x y : Rule α} {f g : α → Rule β}, R x y → (∀ a, R (f a) (g a)) → R (x >>= f) (y >>= g)
  attempt : ∀ {α : Type} {x y : Rule α}, R x y → R (attempt x) (attempt y)
  current : R current current
  nextKind : R nextKind nextKind
  advance : R advance advance
  enter : R enter enter
  expect : ∀ kind, R (expect kind) (expect kind)
  integer : R integer integer
  report : ∀ problem token, R (report problem token) (report problem token)
  fail : ∀ {α : Type} (problem : Problem) (token : Token),
    R (Rule.report problem token >>= fun _ => (giveUp : Rule α)) (Rule.report problem token >>= fun _ => giveUp)

/-- `R` relates every rule of the grammar at allowance `n` to the same rule at allowance `m`. -/
structure Related (R : {α : Type} → Rule α → Rule α → Prop) (n m : Nat) : Prop where
  expression : ∀ floor, R (expression n floor) (expression m floor)
  operand : R (operand n) (operand m)
  unary : ∀ op, R (unary n op) (unary m op)
  group : R (group n) (group m)
  conditional : R (conditional n) (conditional m)
  function : R (function n) (function m)
  extend : ∀ floor left, R (extend n floor left) (extend m floor left)
  application : ∀ left, R (application n left) (application m left)
  arguments : R (arguments n) (arguments m)
  moreArguments : R (moreArguments n) (moreArguments m)
  statement : R (statement n) (statement m)
  letStatement : R (letStatement n) (letStatement m)
  returnStatement : R (returnStatement n) (returnStatement m)
  expressionStatement : R (expressionStatement n) (expressionStatement m)
  block : R (block n) (block m)
  blockStatements : R (blockStatements n) (blockStatements m)

namespace Congruence

variable {R : {α : Type} → Rule α → Rule α → Prop} {n m : Nat}

/-- Reading a name only looks at the token in the window. -/
theorem name (hR : Congruence R) : R name name :=
  hR.bind hR.current fun _ => hR.pure _

theorem skipSemicolon (hR : Congruence R) : R skipSemicolon skipSemicolon := by
  refine hR.bind hR.nextKind fun kind => ?_
  split
  · exact hR.advance
  · exact hR.pure _

/-- The parameters behind the first one, by induction on the allowance. -/
theorem moreParameters (hR : Congruence R) (hnm : n ≤ m) : R (moreParameters n) (moreParameters m) := by
  induction n generalizing m with
  | zero => exact hR.exhausted _
  | succ n ih =>
    obtain ⟨m, rfl⟩ := Nat.exists_eq_add_of_lt hnm
    rw [Rule.moreParameters, Rule.moreParameters]
    refine hR.bind hR.nextKind fun kind => ?_
    split
    · exact hR.bind hR.advance fun _ => hR.bind (hR.expect _) fun _ => hR.bind hR.name fun _ =>
        hR.bind (ih (by omega)) fun _ => hR.pure _
    · exact hR.pure _

/-- The parameters of a function need no more than the allowance for those behind the first. -/
theorem parameters (hR : Congruence R) (hnm : n ≤ m) : R (parameters n) (parameters m) := by
  refine hR.bind hR.nextKind fun kind => ?_
  split
  · exact hR.bind hR.advance fun _ => hR.pure _
  · exact hR.bind (hR.expect _) fun _ => hR.bind hR.name fun _ => hR.bind (hR.moreParameters hnm) fun _ =>
      hR.bind (hR.expect _) fun _ => hR.pure _

/-- An expression is its first operand, extended as far as its level goes. -/
theorem expression_succ (hR : Congruence R) (ih : Related R n m) (floor : Precedence) :
    R (Rule.expression (n + 1) floor) (Rule.expression (m + 1) floor) := by
  rw [Rule.expression, Rule.expression]
  exact hR.bind hR.enter fun _ => hR.bind ih.operand fun left => ih.extend floor left

/-- Each kind of token is handed to the rule for it, or is reported as one that begins no expression. -/
theorem operand_succ (hR : Congruence R) (ih : Related R n m) : R (Rule.operand (n + 1)) (Rule.operand (m + 1)) := by
  rw [Rule.operand, Rule.operand]
  refine hR.bind hR.enter fun _ => hR.bind hR.current fun token => ?_
  split
  · exact hR.bind hR.name fun _ => hR.pure _
  · exact hR.integer
  · exact hR.pure _
  · exact hR.pure _
  · exact ih.unary .not
  · exact ih.unary .negate
  · exact ih.group
  · exact ih.conditional
  · exact ih.function
  · exact hR.fail _ _

theorem unary_succ (hR : Congruence R) (ih : Related R n m) (op : UnaryOp) :
    R (Rule.unary (n + 1) op) (Rule.unary (m + 1) op) := by
  rw [Rule.unary, Rule.unary]
  exact hR.bind hR.current fun _ => hR.bind hR.advance fun _ => hR.bind (hR.attempt (ih.expression _)) fun _ =>
    hR.pure _

theorem group_succ (hR : Congruence R) (ih : Related R n m) : R (Rule.group (n + 1)) (Rule.group (m + 1)) := by
  rw [Rule.group, Rule.group]
  exact hR.bind hR.advance fun _ => hR.bind (ih.expression _) fun _ => hR.bind (hR.expect _) fun _ => hR.pure _

theorem conditional_succ (hR : Congruence R) (ih : Related R n m) :
    R (Rule.conditional (n + 1)) (Rule.conditional (m + 1)) := by
  rw [Rule.conditional, Rule.conditional]
  refine hR.bind hR.current fun _ => hR.bind (hR.expect _) fun _ => hR.bind hR.advance fun _ =>
    hR.bind (ih.expression _) fun _ => hR.bind (hR.expect _) fun _ => hR.bind (hR.expect _) fun _ =>
    hR.bind ih.block fun _ => hR.bind hR.nextKind fun kind => ?_
  split
  · exact hR.bind hR.advance fun _ => hR.bind (hR.expect _) fun _ => hR.bind ih.block fun _ => hR.pure _
  · exact hR.pure _

/-- The parameters of a function are read with the allowance itself, so it has to grow with the other one. -/
theorem function_succ (hR : Congruence R) (hnm : n ≤ m) (ih : Related R n m) :
    R (Rule.function (n + 1)) (Rule.function (m + 1)) := by
  rw [Rule.function, Rule.function]
  exact hR.bind hR.current fun _ => hR.bind (hR.expect _) fun _ => hR.bind (hR.parameters hnm) fun _ =>
    hR.bind (hR.expect _) fun _ => hR.bind ih.block fun _ => hR.pure _

/-- An operand is extended once more while the next token binds tighter. -/
theorem extend_succ (hR : Congruence R) (ih : Related R n m) (floor : Precedence) (left : Node) :
    R (Rule.extend (n + 1) floor left) (Rule.extend (m + 1) floor left) := by
  rw [Rule.extend, Rule.extend]
  refine hR.bind hR.nextKind fun kind => ?_
  split
  · exact hR.bind hR.advance fun _ => hR.bind (ih.application left) fun longer => ih.extend floor longer
  · exact hR.pure _

theorem application_succ (hR : Congruence R) (ih : Related R n m) (left : Node) :
    R (Rule.application (n + 1) left) (Rule.application (m + 1) left) := by
  rw [Rule.application, Rule.application]
  refine hR.bind hR.enter fun _ => hR.bind hR.current fun token => ?_
  cases token.kind.binaryOp? with
  | some op => exact hR.bind hR.advance fun _ => hR.bind (ih.expression _) fun _ => hR.pure _
  | none => exact hR.bind ih.arguments fun _ => hR.pure _

theorem arguments_succ (hR : Congruence R) (ih : Related R n m) :
    R (Rule.arguments (n + 1)) (Rule.arguments (m + 1)) := by
  rw [Rule.arguments, Rule.arguments]
  refine hR.bind hR.nextKind fun kind => ?_
  split
  · exact hR.bind hR.advance fun _ => hR.pure _
  · exact hR.bind hR.advance fun _ => hR.bind (ih.expression _) fun _ => hR.bind ih.moreArguments fun _ =>
      hR.bind (hR.expect _) fun _ => hR.pure _

theorem moreArguments_succ (hR : Congruence R) (ih : Related R n m) :
    R (Rule.moreArguments (n + 1)) (Rule.moreArguments (m + 1)) := by
  rw [Rule.moreArguments, Rule.moreArguments]
  refine hR.bind hR.nextKind fun kind => ?_
  split
  · exact hR.bind hR.advance fun _ => hR.bind hR.advance fun _ => hR.bind (ih.expression _) fun _ =>
      hR.bind ih.moreArguments fun _ => hR.pure _
  · exact hR.pure _

theorem statement_succ (hR : Congruence R) (ih : Related R n m) :
    R (Rule.statement (n + 1)) (Rule.statement (m + 1)) := by
  rw [Rule.statement, Rule.statement]
  refine hR.bind hR.enter fun _ => hR.bind hR.current fun token => ?_
  split
  · exact ih.letStatement
  · exact ih.returnStatement
  · exact ih.expressionStatement

theorem letStatement_succ (hR : Congruence R) (ih : Related R n m) :
    R (Rule.letStatement (n + 1)) (Rule.letStatement (m + 1)) := by
  rw [Rule.letStatement, Rule.letStatement]
  exact hR.bind hR.current fun _ => hR.bind (hR.expect _) fun _ => hR.bind hR.name fun _ =>
    hR.bind (hR.expect _) fun _ => hR.bind hR.advance fun _ => hR.bind (hR.attempt (ih.expression _)) fun _ =>
    hR.bind hR.skipSemicolon fun _ => hR.pure _

theorem returnStatement_succ (hR : Congruence R) (ih : Related R n m) :
    R (Rule.returnStatement (n + 1)) (Rule.returnStatement (m + 1)) := by
  rw [Rule.returnStatement, Rule.returnStatement]
  refine hR.bind hR.current fun _ => hR.bind hR.nextKind fun kind => ?_
  split
  · exact hR.bind hR.advance fun _ => hR.pure _
  · split
    · exact hR.pure _
    · exact hR.bind hR.advance fun _ => hR.bind (hR.attempt (ih.expression _)) fun _ =>
        hR.bind hR.skipSemicolon fun _ => hR.pure _

theorem expressionStatement_succ (hR : Congruence R) (ih : Related R n m) :
    R (Rule.expressionStatement (n + 1)) (Rule.expressionStatement (m + 1)) := by
  rw [Rule.expressionStatement, Rule.expressionStatement]
  exact hR.bind hR.current fun _ => hR.bind (ih.expression _) fun _ => hR.bind hR.skipSemicolon fun _ => hR.pure _

theorem block_succ (hR : Congruence R) (ih : Related R n m) : R (Rule.block (n + 1)) (Rule.block (m + 1)) := by
  rw [Rule.block, Rule.block]
  exact hR.bind hR.enter fun _ => hR.bind hR.current fun _ => hR.bind hR.advance fun _ =>
    hR.bind ih.blockStatements fun _ => hR.pure _

/-- The statements of a block end at its brace or, with a report, at the end of the text. -/
theorem blockStatements_succ (hR : Congruence R) (ih : Related R n m) :
    R (Rule.blockStatements (n + 1)) (Rule.blockStatements (m + 1)) := by
  rw [Rule.blockStatements, Rule.blockStatements]
  refine hR.bind hR.current fun token => ?_
  split
  · exact hR.pure _
  · split
    · exact hR.bind (hR.report _ _) fun _ => hR.pure _
    · exact hR.bind (hR.attempt ih.statement) fun _ => hR.bind hR.advance fun _ =>
        hR.bind ih.blockStatements fun _ => hR.pure _

/-- One level of the grammar keeps what holds one level below. -/
theorem succ (hR : Congruence R) (hnm : n ≤ m) (ih : Related R n m) : Related R (n + 1) (m + 1) where
  expression := hR.expression_succ ih
  operand := hR.operand_succ ih
  unary := hR.unary_succ ih
  group := hR.group_succ ih
  conditional := hR.conditional_succ ih
  function := hR.function_succ hnm ih
  extend := hR.extend_succ ih
  application := hR.application_succ ih
  arguments := hR.arguments_succ ih
  moreArguments := hR.moreArguments_succ ih
  statement := hR.statement_succ ih
  letStatement := hR.letStatement_succ ih
  returnStatement := hR.returnStatement_succ ih
  expressionStatement := hR.expressionStatement_succ ih
  block := hR.block_succ ih
  blockStatements := hR.blockStatements_succ ih

/-- **What sequencing keeps relates every rule at one allowance to the same rule at a larger one.** -/
theorem rules (hR : Congruence R) (hnm : n ≤ m) : Related R n m := by
  induction n generalizing m with
  | zero =>
    constructor <;> intros <;> exact hR.exhausted _
  | succ n ih =>
    obtain ⟨m, rfl⟩ := Nat.exists_eq_add_of_lt hnm
    exact hR.succ (Nat.le_add_right n m) (ih (Nat.le_add_right n m))

/-- The statements of a whole text, by induction on the allowance. -/
theorem programStatements (hR : Congruence R) (hnm : n ≤ m) : R (programStatements n) (programStatements m) := by
  induction n generalizing m with
  | zero => exact hR.exhausted _
  | succ n ih =>
    obtain ⟨m, rfl⟩ := Nat.exists_eq_add_of_lt hnm
    rw [Rule.programStatements, Rule.programStatements]
    refine hR.bind hR.current fun token => ?_
    split
    · exact hR.pure _
    · exact hR.bind (hR.attempt (hR.rules (Nat.le_add_right n m)).statement) fun _ => hR.bind hR.advance fun _ =>
        hR.bind (ih (Nat.le_add_right n m)) fun _ => hR.pure _

end Congruence

end Rule

/-! ## Rules move forward -/

/-- Where a parser can get to: its window has only moved forward, and reports have only been added. -/
structure Parser.Reaches (p q : Parser) : Prop where
  ahead : q.ahead <:+ p.ahead
  final : q.final = p.final
  diagnostics : p.diagnostics.toList <+: q.diagnostics.toList

namespace Parser.Reaches

variable {p q r : Parser}

theorem refl (p : Parser) : p.Reaches p := ⟨List.suffix_refl _, rfl, List.prefix_refl _⟩

/-- What is reached from a parser that is reached, is reached. -/
theorem trans (h : p.Reaches q) (h' : q.Reaches r) : p.Reaches r :=
  ⟨h'.ahead.trans h.ahead, h'.final.trans h.final, h.diagnostics.trans h'.diagnostics⟩

theorem advance (p : Parser) : p.Reaches p.advance := ⟨List.tail_suffix _, rfl, List.prefix_refl _⟩

theorem entering (p : Parser) : p.Reaches (Rule.entering p) := ⟨List.suffix_refl _, rfl, List.prefix_refl _⟩

theorem reporting (p : Parser) (problem : Problem) (token : Token) : p.Reaches (Rule.reporting p problem token) :=
  ⟨List.suffix_refl _, rfl, by simp [Rule.reporting]⟩

/-- No token comes back into the window. -/
theorem length_ahead_le (h : p.Reaches q) : q.ahead.length ≤ p.ahead.length :=
  h.ahead.length_le

/-- No report is taken back. -/
theorem size_diagnostics_le (h : p.Reaches q) : p.diagnostics.size ≤ q.diagnostics.size := by
  simpa using h.diagnostics.length_le

end Parser.Reaches

namespace Rule

/-- A rule that moves the window forward only and keeps what was reported; where it gives up, it has reported why. -/
class Forward {α : Type} (x : Rule α) : Prop where
  ok : ∀ {p q : Parser} {a : α}, x p = .ok a q → p.Reaches q
  error : ∀ {p q : Parser} {why : Stop}, x p = .error why q → p.Reaches q
  unreadable : ∀ {p q : Parser}, x p = .error .unreadable q → p.diagnostics.size < q.diagnostics.size

/-- A rule that always builds something goes forward if it does where it gets to. -/
theorem Forward.of_ok {α : Type} {x : Rule α} (h : ∀ p, ∃ a q, x p = .ok a q ∧ p.Reaches q) : Forward x where
  ok {p q a} hx := by
    obtain ⟨b, r, hr, hpr⟩ := h p
    cases hx.symm.trans hr
    exact hpr
  error {p q why} hx := by
    obtain ⟨b, r, hr, -⟩ := h p
    cases hx.symm.trans hr
  unreadable {p q} hx := by
    obtain ⟨b, r, hr, -⟩ := h p
    cases hx.symm.trans hr

instance Forward.bind {α β : Type} {x : Rule α} {f : α → Rule β} [hx : Forward x] [hf : ∀ a, Forward (f a)] :
    Forward (x >>= f) where
  ok h := by
    obtain ⟨a, r, hr, h⟩ := bind_eq_ok.1 h
    exact (hx.ok hr).trans ((hf a).ok h)
  error h := by
    obtain h | ⟨a, r, hr, h⟩ := bind_eq_error.1 h
    · exact hx.error h
    · exact (hx.ok hr).trans ((hf a).error h)
  unreadable h := by
    obtain h | ⟨a, r, hr, h⟩ := bind_eq_error.1 h
    · exact hx.unreadable h
    · exact Nat.lt_of_le_of_lt (hx.ok hr).size_diagnostics_le ((hf a).unreadable h)

instance Forward.attempt {α : Type} {x : Rule α} [hx : Forward x] : Forward (attempt x) where
  ok {p q a} h := by
    cases a with
    | some a => exact hx.ok (attempt_eq_some.1 h)
    | none => exact hx.error (attempt_eq_none.1 h)
  error {p q why} h := by
    rw [attempt_run] at h
    split at h <;> cases h
    exact hx.error ‹_›
  unreadable {p q} h := by
    rw [attempt_run] at h
    split at h <;> cases h

instance Forward.refuse {α : Type} (why : Refusal) : Forward (refuse why : Rule α) where
  ok h := nomatch h
  error h := by
    cases h
    exact .refl _
  unreadable h := nomatch h

/-- Giving up is a step forward if the report comes first. -/
instance Forward.fail {α : Type} (problem : Problem) (token : Token) :
    Forward (report problem token >>= fun _ => (giveUp : Rule α)) where
  ok h := nomatch h
  error h := by
    cases h
    exact .reporting _ problem token
  unreadable h := by
    cases h
    exact Nat.lt_of_lt_of_eq (Nat.lt_succ_self _) (Array.size_push ..).symm

instance Forward.expect (kind : TokenKind) : Forward (expect kind) where
  ok h := by
    obtain ⟨-, rfl⟩ := expect_eq_ok.1 h
    exact .advance _
  error h := by
    rw [expect_run] at h
    split at h <;> cases h
    exact .reporting ..
  unreadable h := by
    rw [expect_run] at h
    split at h <;> cases h
    exact Nat.lt_of_lt_of_eq (Nat.lt_succ_self _) (Array.size_push ..).symm

instance Forward.pure {α : Type} (a : α) : Forward (pure a : Rule α) :=
  .of_ok fun p => ⟨_, _, rfl, .refl p⟩

instance Forward.current : Forward current :=
  .of_ok fun p => ⟨_, _, rfl, .refl p⟩

instance Forward.nextKind : Forward nextKind :=
  .of_ok fun p => ⟨_, _, rfl, .refl p⟩

instance Forward.advance : Forward advance :=
  .of_ok fun p => ⟨_, _, rfl, .advance p⟩

instance Forward.enter : Forward enter :=
  .of_ok fun p => ⟨_, _, rfl, .entering p⟩

instance Forward.report (problem : Problem) (token : Token) : Forward (report problem token) :=
  .of_ok fun p => ⟨_, _, rfl, .reporting p problem token⟩

instance Forward.ite {α : Type} {c : Prop} [Decidable c] {x y : Rule α} [hx : Forward x] [hy : Forward y] :
    Forward (if c then x else y) := by
  split
  · exact hx
  · exact hy

instance Forward.integer : Forward integer :=
  inferInstanceAs (Forward (Rule.current >>= _))

/-- Going forward is kept by sequencing. -/
theorem congruence_forward : Congruence fun x _ => Forward x where
  exhausted _ := inferInstance
  pure _ := inferInstance
  bind hx hf := @Forward.bind _ _ _ _ hx hf
  attempt hx := @Forward.attempt _ _ hx
  current := inferInstance
  nextKind := inferInstance
  advance := inferInstance
  enter := inferInstance
  expect _ := inferInstance
  integer := inferInstance
  report _ _ := inferInstance
  fail _ _ := inferInstance

section

variable (n : Nat)

/-- **Every rule of the grammar moves forward.** -/
theorem forward_rules : Related (fun x _ => Forward x) n n :=
  congruence_forward.rules (Nat.le_refl n)

instance (floor : Precedence) : Forward (expression n floor) := (forward_rules n).expression floor

instance : Forward (operand n) := (forward_rules n).operand

instance (op : UnaryOp) : Forward (unary n op) := (forward_rules n).unary op

instance : Forward (group n) := (forward_rules n).group

instance : Forward (conditional n) := (forward_rules n).conditional

instance : Forward (function n) := (forward_rules n).function

instance (floor : Precedence) (left : Node) : Forward (extend n floor left) := (forward_rules n).extend floor left

instance (left : Node) : Forward (application n left) := (forward_rules n).application left

instance : Forward (arguments n) := (forward_rules n).arguments

instance : Forward (moreArguments n) := (forward_rules n).moreArguments

instance : Forward (statement n) := (forward_rules n).statement

instance : Forward (letStatement n) := (forward_rules n).letStatement

instance : Forward (returnStatement n) := (forward_rules n).returnStatement

instance : Forward (expressionStatement n) := (forward_rules n).expressionStatement

instance : Forward (block n) := (forward_rules n).block

instance : Forward (blockStatements n) := (forward_rules n).blockStatements

instance : Forward name := congruence_forward.name

instance : Forward skipSemicolon := congruence_forward.skipSemicolon

instance : Forward (moreParameters n) := congruence_forward.moreParameters (Nat.le_refl n)

instance : Forward (parameters n) := congruence_forward.parameters (Nat.le_refl n)

instance : Forward (programStatements n) := congruence_forward.programStatements (Nat.le_refl n)

end

/-! ## A larger allowance -/

/-- `y` answers as `x` does wherever `x` has been allowed enough. -/
def Extends {α : Type} (x y : Rule α) : Prop :=
  ∀ p, y p = x p ∨ ∃ q, x p = .error (.refused .tooDeep) q

theorem Extends.refl {α : Type} (x : Rule α) : Extends x x := fun _ => .inl rfl

/-- What is built with an allowance is built with a larger one too. -/
theorem Extends.ok {α : Type} {x y : Rule α} (hxy : Extends x y) {p q : Parser} {a : α} (h : x p = .ok a q) :
    y p = .ok a q := by
  obtain heq | ⟨r, hr⟩ := hxy p
  · exact heq.trans h
  · rw [h] at hr
    cases hr

/-- In a row, the first rule either is cut off, and all with it, or it hands on the same on both sides. -/
theorem Extends.bind {α β : Type} {x y : Rule α} {f g : α → Rule β} (hxy : Extends x y)
    (hfg : ∀ a, Extends (f a) (g a)) : Extends (x >>= f) (y >>= g) := by
  intro p
  obtain h | ⟨q, h⟩ := hxy p
  · cases hx : x p with
    | ok a q =>
      rw [bind_of_ok hx, bind_of_ok (h.trans hx)]
      exact hfg a q
    | error why q => exact .inl (by rw [bind_of_error hx, bind_of_error (h.trans hx)])
  · exact .inr ⟨q, bind_of_error h⟩

/-- Being cut off is a refusal, so it is not taken as missing. -/
theorem Extends.attempt {α : Type} {x y : Rule α} (hxy : Extends x y) : Extends (attempt x) (attempt y) := by
  intro p
  obtain h | ⟨q, h⟩ := hxy p
  · exact .inl (by rw [attempt_run, attempt_run, h])
  · exact .inr ⟨q, by rw [attempt_run, h]⟩

/-- Doing the same unless cut off is kept by sequencing. -/
theorem congruence_extends : Congruence Extends where
  exhausted _ p := .inr ⟨p, rfl⟩
  pure _ := .refl _
  bind := .bind
  attempt := .attempt
  current := .refl _
  nextKind := .refl _
  advance := .refl _
  enter := .refl _
  expect _ := .refl _
  integer := .refl _
  report _ _ := .refl _
  fail _ _ := .refl _

/-- **A larger allowance keeps every answer but a refusal for depth.** -/
theorem extends_rules {n m : Nat} (hnm : n ≤ m) : Related Extends n m :=
  congruence_extends.rules hnm

end Rule

end Monkey
