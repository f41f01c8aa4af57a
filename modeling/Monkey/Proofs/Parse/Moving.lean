import Monkey.Proofs.Parse.Steps
import Monkey.Proofs.Tree.Bare

/-!
# Rules on tokens at other places

Rules look at the kinds and literals of tokens only. Their places go into the tree and into what is reported, and
nowhere else. So on the same tokens at other places each rule does what it does on the tokens, and the tree and the
reports are at the other places (`Rule.Moving.all`, `Rule.moves_programStatements`). Any map `π` of places will do.
-/

namespace Monkey

/-! ## Trees at other places -/

/-- The token at another place. -/
def Token.move (π : Position → Position) (t : Token) : Token :=
  { t with position := π t.position }

/-- The name at another place. -/
def Identifier.move (π : Position → Position) (id : Identifier) : Identifier :=
  ⟨id.token.move π, id.name⟩

namespace Node

mutual

/-- The tree with its tokens at other places. -/
def move (π : Position → Position) : Node → Node
  | .hole => .hole
  | .unknown cls => .unknown cls
  | .program ss => .program (moveAll π ss)
  | .letStatement t target value => .letStatement (t.move π) (target.move π) (value.move π)
  | .returnStatement t value => .returnStatement (t.move π) (value.move π)
  | .expressionStatement t e => .expressionStatement (t.move π) (e.move π)
  | .block t ss => .block (t.move π) (moveAll π ss)
  | .identifier id => .identifier (id.move π)
  | .integer t n => .integer (t.move π) n
  | .boolean t b => .boolean (t.move π) b
  | .unary t op operand => .unary (t.move π) op (operand.move π)
  | .binary t left op right => .binary (t.move π) (left.move π) op (right.move π)
  | .conditional t c b e => .conditional (t.move π) (c.move π) (b.move π) (e.move π)
  | .function t ps body => .function (t.move π) (ps.map (Identifier.move π)) (body.move π)
  | .call t callee args => .call (t.move π) (callee.move π) (moveAll π args)

/-- The trees with their tokens at other places. -/
def moveAll (π : Position → Position) : List Node → List Node
  | [] => []
  | s :: ss => s.move π :: moveAll π ss

end

theorem moveAll_eq (π : Position → Position) : ∀ ss : List Node, moveAll π ss = ss.map (move π)
  | [] => rfl
  | s :: ss => congrArg (s.move π :: ·) (moveAll_eq π ss)

mutual

/-- Wherever its tokens are, a tree is the same up to tokens. -/
theorem bare_move (π : Position → Position) : ∀ n : Node, (n.move π).bare = n.bare
  | .hole | .unknown _ | .identifier _ | .integer _ _ | .boolean _ _ => rfl
  | .program ss | .block _ ss => by rw [move, bare, bare, bareAll_moveAll π ss]
  | .letStatement _ target value => by rw [move, bare, bare, bare_move π value]; rfl
  | .returnStatement _ value => by rw [move, bare, bare, bare_move π value]
  | .expressionStatement _ e => by rw [move, bare, bare, bare_move π e]
  | .unary _ op operand => by rw [move, bare, bare, bare_move π operand]
  | .binary _ left op right => by rw [move, bare, bare, bare_move π left, bare_move π right]
  | .conditional _ c b e => by rw [move, bare, bare, bare_move π c, bare_move π b, bare_move π e]
  | .function _ ps body => by
    rw [move, bare, bare, bare_move π body, List.map_map]
    rfl
  | .call _ callee args => by rw [move, bare, bare, bare_move π callee, bareAll_moveAll π args]

theorem bareAll_moveAll (π : Position → Position) : ∀ ss : List Node, bareAll (moveAll π ss) = bareAll ss
  | [] => rfl
  | s :: ss => by rw [moveAll, bareAll, bareAll, bare_move π s, bareAll_moveAll π ss]

end

end Node

/-- The diagnostic at another place. -/
def Diagnostic.move (π : Position → Position) (d : Diagnostic) : Diagnostic :=
  ⟨d.problem, π d.position⟩

/-! ## Parsers on tokens at other places -/

/-- The same parser on the same tokens at other places. -/
structure Parser.Moved (π : Position → Position) (p p' : Parser) : Prop where
  ahead : p'.ahead = p.ahead.map (Token.move π)
  final : p'.final = p.final.move π
  diagnostics : p'.diagnostics = p.diagnostics.map (Diagnostic.move π)

namespace Parser.Moved

variable {π : Position → Position} {p p' : Parser}

/-- The token in the window is the same one at its other place. -/
theorem current (h : p.Moved π p') : p'.current = p.current.move π := by
  rw [Parser.current, Parser.current, h.ahead, h.final]
  cases p.ahead <;> rfl

/-- Both parsers move on to the same next token. -/
theorem advance (h : p.Moved π p') : p.advance.Moved π p'.advance where
  ahead := (congrArg List.tail h.ahead).trans List.map_tail.symm
  final := h.final
  diagnostics := h.diagnostics

theorem next (h : p.Moved π p') : p'.next = p.next.move π :=
  h.advance.current

theorem entering (h : p.Moved π p') : (Rule.entering p).Moved π (Rule.entering p') :=
  ⟨h.ahead, h.final, h.diagnostics⟩

/-- A mistake is reported of the same token, so at its other place. -/
theorem reporting (h : p.Moved π p') (problem : Problem) (token : Token) :
    (Rule.reporting p problem token).Moved π (Rule.reporting p' problem (token.move π)) where
  ahead := h.ahead
  final := h.final
  diagnostics := by
    rw [Rule.reporting, Rule.reporting, h.diagnostics, Array.map_push]
    rfl

end Parser.Moved

namespace Rule

/-! ## Sequences -/

/-- Runs that end in the same way, one of them on tokens at other places; `f` moves what they build. -/
inductive EndsMoved (π : Position → Position) {α : Type} (f : α → α) :
    EStateM.Result Stop Parser α → EStateM.Result Stop Parser α → Prop
  | ok {a q q'} : q.Moved π q' → EndsMoved π f (.ok a q) (.ok (f a) q')
  | error {why q q'} : q.Moved π q' → EndsMoved π f (.error why q) (.error why q')

/-- `y` does on tokens at other places what `x` does on the tokens; `f` moves what they build. -/
def Moves (π : Position → Position) {α : Type} (f : α → α) (x y : Rule α) : Prop :=
  ∀ ⦃p p' : Parser⦄, p.Moved π p' → EndsMoved π f (x p) (y p')

namespace Moves

variable {π : Position → Position} {α β : Type} {f : α → α} {g : β → β} {x y x' y' : Rule α}

/-- What is built without looking at a place only has to be moved. -/
theorem pure {a b : α} (h : f a = b) : Moves π f (pure a) (pure b) := by
  subst h
  exact fun _ _ hp => .ok hp

/-- Rules in a row do the same on tokens at other places if each of them does, on what the one before has built. -/
theorem bind {u v : α → Rule β} (hxy : Moves π f x y) (huv : ∀ a, Moves π g (u a) (v (f a))) :
    Moves π g (x >>= u) (y >>= v) := by
  intro p p' hp
  rw [bind_run, bind_run]
  have hends := hxy hp
  generalize x p = r at hends
  generalize y p' = r' at hends
  cases hends with
  | ok hq => exact huv _ hq
  | error hq => exact .error hq

/-- A rule that is given up on the tokens is given up on the tokens at other places. -/
theorem attempt (hxy : Moves π f x y) : Moves π (Option.map f) (attempt x) (attempt y) := by
  intro p p' hp
  rw [attempt_run, attempt_run]
  have hends := hxy hp
  generalize x p = r at hends
  generalize y p' = r' at hends
  cases hends with
  | ok hq => exact .ok hq
  | @error why q q' hq =>
    cases why with
    | unreadable => exact .ok hq
    | refused why => exact .error hq

/-- What is decided by kinds alone is decided alike. -/
theorem ite {c : Prop} [Decidable c] (hx : Moves π f x y) (hx' : Moves π f x' y') :
    Moves π f (if c then x else x') (if c then y else y') := by
  split
  · exact hx
  · exact hx'

theorem giveUp : Moves π f giveUp giveUp :=
  fun _ _ hp => .error hp

theorem refuse (why : Refusal) : Moves π f (refuse why) (refuse why) :=
  fun _ _ hp => .error hp

theorem current : Moves π (Token.move π) current current := by
  intro p p' hp
  show EndsMoved π _ (.ok p.current p) (.ok p'.current p')
  rw [hp.current]
  exact .ok hp

/-- The kind of the next token does not depend on its place. -/
theorem nextKind : Moves π id nextKind nextKind := by
  intro p p' hp
  show EndsMoved π _ (.ok p.next.kind p) (.ok p'.next.kind p')
  rw [hp.next]
  exact .ok hp

theorem advance : Moves π id advance advance :=
  fun _ _ hp => .ok hp.advance

theorem enter : Moves π id enter enter :=
  fun _ _ hp => .ok hp.entering

theorem report (problem : Problem) (token : Token) :
    Moves π id (report problem token) (report problem (token.move π)) :=
  fun _ _ hp => .ok (hp.reporting problem token)

/-- An expected token is there or missing on both sides, and is reported at its place. -/
theorem expect (kind : TokenKind) : Moves π id (expect kind) (expect kind) := by
  intro p p' hp
  have hkind : p'.next.kind = p.next.kind := by rw [hp.next, Token.move]
  rw [expect_run, expect_run, hkind, hp.next]
  by_cases hk : p.next.kind = kind
  · rw [if_pos hk, if_pos hk]
    exact .ok hp.advance
  · rw [if_neg hk, if_neg hk]
    exact .error (hp.reporting _ p.next)

theorem name : Moves π (Identifier.move π) name name :=
  current.bind fun _ => .pure rfl

theorem skipSemicolon : Moves π id skipSemicolon skipSemicolon :=
  nextKind.bind fun _ => .ite advance (.pure rfl)

end Moves

/-! ## The rules of the grammar -/

variable {π : Position → Position} {n : Nat}

/-- The value of a numeral depends on its literal only; one that is out of range is reported at its place. -/
theorem moves_integer : Moves π (Node.move π) integer integer := by
  refine .bind .current fun token => .ite (.refuse _) (.ite ?_ (.pure rfl))
  exact .bind (.report _ token) fun _ => .giveUp

/-- Parameters that follow a comma are read alike, each at its other place. -/
theorem moves_moreParameters : Moves π (List.map (Identifier.move π)) (moreParameters n) (moreParameters n) := by
  induction n with
  | zero => exact .refuse .tooDeep
  | succ n ih =>
    rw [moreParameters]
    exact .bind .nextKind fun _ => .ite (.bind .advance fun _ => .bind (.expect _) fun _ => .bind .name fun _ =>
      .bind ih fun _ => .pure rfl) (.pure rfl)

/-- The parameters of a function are read alike. -/
theorem moves_parameters : Moves π (List.map (Identifier.move π)) (parameters n) (parameters n) := by
  refine .bind .nextKind fun _ => .ite (.bind .advance fun _ => .pure rfl) ?_
  exact .bind (.expect _) fun _ => .bind .name fun _ => .bind moves_moreParameters fun _ => .bind (.expect _) fun _ =>
    .pure rfl

/-- Each rule at allowance `n` on tokens at other places. -/
structure Moving (π : Position → Position) (n : Nat) : Prop where
  expression : ∀ floor, Moves π (Node.move π) (expression n floor) (expression n floor)
  operand : Moves π (Node.move π) (operand n) (operand n)
  unary : ∀ op, Moves π (Node.move π) (unary n op) (unary n op)
  group : Moves π (Node.move π) (group n) (group n)
  conditional : Moves π (Node.move π) (conditional n) (conditional n)
  function : Moves π (Node.move π) (function n) (function n)
  extend : ∀ floor left, Moves π (Node.move π) (extend n floor left) (extend n floor (left.move π))
  application : ∀ left, Moves π (Node.move π) (application n left) (application n (left.move π))
  arguments : Moves π (List.map (Node.move π)) (arguments n) (arguments n)
  moreArguments : Moves π (List.map (Node.move π)) (moreArguments n) (moreArguments n)
  statement : Moves π (Node.move π) (statement n) (statement n)
  letStatement : Moves π (Node.move π) (letStatement n) (letStatement n)
  returnStatement : Moves π (Node.move π) (returnStatement n) (returnStatement n)
  expressionStatement : Moves π (Node.move π) (expressionStatement n) (expressionStatement n)
  block : Moves π (Node.move π) (block n) (block n)
  blockStatements : Moves π (List.map (Node.move π)) (blockStatements n) (blockStatements n)

namespace Moving

theorem zero : Moving π 0 := by
  constructor <;> intros <;> exact .refuse .tooDeep

/-- A value that is missing stays missing at other places. -/
theorem getD_move (value : Option Node) : (value.map (Node.move π)).getD .hole = (value.getD .hole).move π := by
  cases value <;> rfl

theorem expression_succ (h : Moving π n) (floor : Precedence) :
    Moves π (Node.move π) (Rule.expression (n + 1) floor) (Rule.expression (n + 1) floor) := by
  rw [Rule.expression]
  exact .bind .enter fun _ => .bind h.operand fun left => h.extend floor left

/-- Which rule reads an operand is told by the kind of its token. -/
theorem operand_succ (h : Moving π n) : Moves π (Node.move π) (Rule.operand (n + 1)) (Rule.operand (n + 1)) := by
  rw [Rule.operand]
  refine .bind .enter fun _ => .bind .current fun token => ?_
  dsimp only [Token.move]
  split
  · exact .bind .name fun _ => .pure rfl
  · exact moves_integer
  · exact .pure rfl
  · exact .pure rfl
  · exact h.unary .not
  · exact h.unary .negate
  · exact h.group
  · exact h.conditional
  · exact h.function
  · exact .bind (.report _ token) fun _ => .giveUp

theorem unary_succ (h : Moving π n) (op : UnaryOp) :
    Moves π (Node.move π) (Rule.unary (n + 1) op) (Rule.unary (n + 1) op) := by
  rw [Rule.unary]
  refine .bind .current fun _ => .bind .advance fun _ => .bind (.attempt (h.expression _)) fun right => .pure ?_
  rw [getD_move]
  rfl

theorem group_succ (h : Moving π n) : Moves π (Node.move π) (Rule.group (n + 1)) (Rule.group (n + 1)) := by
  rw [Rule.group]
  exact .bind .advance fun _ => .bind (h.expression _) fun _ => .bind (.expect _) fun _ => .pure rfl

theorem conditional_succ (h : Moving π n) :
    Moves π (Node.move π) (Rule.conditional (n + 1)) (Rule.conditional (n + 1)) := by
  rw [Rule.conditional]
  refine .bind .current fun _ => .bind (.expect _) fun _ => .bind .advance fun _ => .bind (h.expression _) fun _ =>
    .bind (.expect _) fun _ => .bind (.expect _) fun _ => .bind h.block fun _ => .bind .nextKind fun _ => ?_
  exact .ite (.bind .advance fun _ => .bind (.expect _) fun _ => .bind h.block fun _ => .pure rfl) (.pure rfl)

theorem function_succ (h : Moving π n) : Moves π (Node.move π) (Rule.function (n + 1)) (Rule.function (n + 1)) := by
  rw [Rule.function]
  exact .bind .current fun _ => .bind (.expect _) fun _ => .bind moves_parameters fun _ => .bind (.expect _) fun _ =>
    .bind h.block fun _ => .pure rfl

theorem extend_succ (h : Moving π n) (floor : Precedence) (left : Node) :
    Moves π (Node.move π) (Rule.extend (n + 1) floor left) (Rule.extend (n + 1) floor (left.move π)) := by
  rw [Rule.extend, Rule.extend]
  exact .bind .nextKind fun _ => .ite (.bind .advance fun _ => .bind (h.application left) fun longer =>
    h.extend floor longer) (.pure rfl)

/-- Whether an operand is followed by an operator or by arguments is told by the kind of a token. -/
theorem application_succ (h : Moving π n) (left : Node) :
    Moves π (Node.move π) (Rule.application (n + 1) left) (Rule.application (n + 1) (left.move π)) := by
  rw [Rule.application, Rule.application]
  refine .bind .enter fun _ => .bind .current fun token => ?_
  dsimp only [Token.move]
  cases token.kind.binaryOp? with
  | some op => exact .bind .advance fun _ => .bind (h.expression _) fun _ => .pure rfl
  | none => exact .bind h.arguments fun args => .pure (by rw [Node.move, Node.moveAll_eq]; rfl)

theorem arguments_succ (h : Moving π n) :
    Moves π (List.map (Node.move π)) (Rule.arguments (n + 1)) (Rule.arguments (n + 1)) := by
  rw [Rule.arguments]
  refine .bind .nextKind fun _ => .ite (.bind .advance fun _ => .pure rfl) ?_
  exact .bind .advance fun _ => .bind (h.expression _) fun _ => .bind h.moreArguments fun _ =>
    .bind (.expect _) fun _ => .pure rfl

theorem moreArguments_succ (h : Moving π n) :
    Moves π (List.map (Node.move π)) (Rule.moreArguments (n + 1)) (Rule.moreArguments (n + 1)) := by
  rw [Rule.moreArguments]
  exact .bind .nextKind fun _ => .ite (.bind .advance fun _ => .bind .advance fun _ => .bind (h.expression _) fun _ =>
    .bind h.moreArguments fun _ => .pure rfl) (.pure rfl)

/-- Which rule reads a statement is told by the kind of its first token. -/
theorem statement_succ (h : Moving π n) : Moves π (Node.move π) (Rule.statement (n + 1)) (Rule.statement (n + 1)) := by
  rw [Rule.statement]
  refine .bind .enter fun _ => .bind .current fun token => ?_
  dsimp only [Token.move]
  split
  · exact h.letStatement
  · exact h.returnStatement
  · exact h.expressionStatement

theorem letStatement_succ (h : Moving π n) :
    Moves π (Node.move π) (Rule.letStatement (n + 1)) (Rule.letStatement (n + 1)) := by
  rw [Rule.letStatement]
  refine .bind .current fun _ => .bind (.expect _) fun _ => .bind .name fun _ => .bind (.expect _) fun _ =>
    .bind .advance fun _ => .bind (.attempt (h.expression _)) fun _ => .bind .skipSemicolon fun _ => .pure ?_
  rw [getD_move]
  rfl

/-- Whether a `return` has a value is told by the kind of the token behind it. -/
theorem returnStatement_succ (h : Moving π n) :
    Moves π (Node.move π) (Rule.returnStatement (n + 1)) (Rule.returnStatement (n + 1)) := by
  rw [Rule.returnStatement]
  refine .bind .current fun _ => .bind .nextKind fun _ => .ite (.bind .advance fun _ => .pure rfl) ?_
  refine .ite (.pure rfl) (.bind .advance fun _ => .bind (.attempt (h.expression _)) fun _ =>
    .bind .skipSemicolon fun _ => .pure ?_)
  rw [getD_move]
  rfl

theorem expressionStatement_succ (h : Moving π n) :
    Moves π (Node.move π) (Rule.expressionStatement (n + 1)) (Rule.expressionStatement (n + 1)) := by
  rw [Rule.expressionStatement]
  exact .bind .current fun _ => .bind (h.expression _) fun _ => .bind .skipSemicolon fun _ => .pure rfl

theorem block_succ (h : Moving π n) : Moves π (Node.move π) (Rule.block (n + 1)) (Rule.block (n + 1)) := by
  rw [Rule.block]
  exact .bind .enter fun _ => .bind .current fun _ => .bind .advance fun _ => .bind h.blockStatements fun ss =>
    .pure (by rw [Node.move, Node.moveAll_eq])

/-- A block goes on or ends by the kind of the token, and reports a missing brace at its place. -/
theorem blockStatements_succ (h : Moving π n) :
    Moves π (List.map (Node.move π)) (Rule.blockStatements (n + 1)) (Rule.blockStatements (n + 1)) := by
  rw [Rule.blockStatements]
  refine .bind .current fun token => .ite (.pure rfl) (.ite (.bind (.report _ token) fun _ => .pure rfl) ?_)
  exact .bind (.attempt h.statement) fun first => .bind .advance fun _ => .bind h.blockStatements fun rest =>
    .pure (by cases first <;> rfl)

/-- One level of the grammar keeps what holds one level below. -/
theorem succ (h : Moving π n) : Moving π (n + 1) where
  expression := h.expression_succ
  operand := h.operand_succ
  unary := h.unary_succ
  group := h.group_succ
  conditional := h.conditional_succ
  function := h.function_succ
  extend := h.extend_succ
  application := h.application_succ
  arguments := h.arguments_succ
  moreArguments := h.moreArguments_succ
  statement := h.statement_succ
  letStatement := h.letStatement_succ
  returnStatement := h.returnStatement_succ
  expressionStatement := h.expressionStatement_succ
  block := h.block_succ
  blockStatements := h.blockStatements_succ

/-- **Every rule does the same wherever the tokens are.** -/
theorem all : ∀ n, Moving π n
  | 0 => zero
  | n + 1 => (all n).succ

end Moving

/-- **The statements of a whole text** are read alike wherever its tokens are. -/
theorem moves_programStatements : Moves π (List.map (Node.move π)) (programStatements n) (programStatements n) := by
  induction n with
  | zero => exact .refuse .tooDeep
  | succ n ih =>
    rw [programStatements]
    exact .bind .current fun _ => .ite (.pure rfl) (.bind (.attempt (Moving.all n).statement) fun first =>
      .bind .advance fun _ => .bind ih fun _ => .pure (by cases first <;> rfl))

end Rule

end Monkey
