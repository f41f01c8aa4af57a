import Monkey.Proofs.Parse.Steps
import Monkey.Proofs.Tree.Gapped

/-!
# What is read from any text

A rule that cannot read what it needs gives up, and whoever called it goes on without, or gives up as well. So whatever
the tokens are, what a rule builds is a tree with gaps only where a rule goes on without a child
(`Rule.Yielding.all`). That holds of the tree of any text that is read at all (`gapped_of_parse`), and nothing is
asked of its diagnostics.
-/

namespace Monkey

open Node (Gapped.IsExpression Gapped.IsStatement Gapped.IsBlock Gapped.IsProgram)

namespace Rule

/-! ## Sequences -/

/-- Whatever the rule builds satisfies `P`. -/
def Yields {α : Type} (P : α → Prop) (x : Rule α) : Prop :=
  ∀ ⦃p : Parser⦄ ⦃a : α⦄ ⦃q : Parser⦄, x p = .ok a q → P a

namespace Yields

variable {α β : Type} {P : α → Prop} {Q : β → Prop} {x y : Rule α} {f : α → Rule β}

theorem pure {a : α} (ha : P a) : Yields P (pure a) := by
  intro p b q hb
  obtain ⟨rfl, -⟩ := pure_eq_ok.1 hb
  exact ha

/-- What the first rule builds may be used for what the second one builds. -/
theorem bind (hx : Yields P x) (hf : ∀ a, P a → Yields Q (f a)) : Yields Q (x >>= f) := by
  intro p b r hb
  obtain ⟨a, q, ha, hb⟩ := bind_eq_ok.1 hb
  exact hf a (hx ha) hb

/-- A step before does not matter where nothing is asked of what it builds. -/
theorem step (hf : ∀ a, Yields Q (f a)) : Yields Q (x >>= f) :=
  bind (P := fun _ => True) (fun _ _ _ _ => trivial) fun a _ => hf a

/-- What may be missing has the property if it is there. -/
theorem attempt (hx : Yields P x) : Yields (fun o => ∀ a ∈ o, P a) (attempt x) := by
  rintro p o q ho a rfl
  exact hx (attempt_eq_some.1 ho)

theorem ite {c : Prop} [Decidable c] (hx : Yields P x) (hy : Yields P y) : Yields P (if c then x else y) := by
  split
  · exact hx
  · exact hy

theorem giveUp : Yields P giveUp :=
  fun _ _ _ h => absurd h giveUp_ne_ok

theorem refuse (why : Refusal) : Yields P (refuse why) :=
  fun _ _ _ h => absurd h refuse_ne_ok

end Yields

/-! ## The rules of the grammar -/

variable {n : Nat}

/-- A numeral that is read has a value in range. -/
theorem yields_integer : Yields Gapped.IsExpression integer := by
  refine .step fun token => .ite (.refuse _) ?_
  split
  · exact .step fun _ => .giveUp
  · next hle => exact .pure (.integer (Int.natCast_nonneg _) (Int.ofNat_le.2 (Nat.le_of_not_lt hle)))

/-- Each rule at allowance `n` builds a tree with gaps. -/
structure Yielding (n : Nat) : Prop where
  expression : ∀ floor, Yields Gapped.IsExpression (expression n floor)
  operand : Yields Gapped.IsExpression (operand n)
  unary : ∀ op, Yields Gapped.IsExpression (unary n op)
  group : Yields Gapped.IsExpression (group n)
  conditional : Yields Gapped.IsExpression (conditional n)
  function : Yields Gapped.IsExpression (function n)
  extend : ∀ floor left, Gapped.IsExpression left → Yields Gapped.IsExpression (extend n floor left)
  application : ∀ left, Gapped.IsExpression left → Yields Gapped.IsExpression (application n left)
  arguments : Yields (fun as => ∀ a ∈ as, Gapped.IsExpression a) (arguments n)
  moreArguments : Yields (fun as => ∀ a ∈ as, Gapped.IsExpression a) (moreArguments n)
  statement : Yields Gapped.IsStatement (statement n)
  letStatement : Yields Gapped.IsStatement (letStatement n)
  returnStatement : Yields Gapped.IsStatement (returnStatement n)
  expressionStatement : Yields Gapped.IsStatement (expressionStatement n)
  block : Yields Gapped.IsBlock (block n)
  blockStatements : Yields (fun ss => ∀ s ∈ ss, Gapped.IsStatement s) (blockStatements n)

namespace Yielding

theorem zero : Yielding 0 := by
  constructor <;> intros <;> exact .refuse .tooDeep

theorem expression_succ (h : Yielding n) (floor : Precedence) :
    Yields Gapped.IsExpression (Rule.expression (n + 1) floor) := by
  rw [Rule.expression]
  exact .step fun _ => .bind h.operand fun left hleft => h.extend floor left hleft

/-- Whatever token an operand begins with, the rule for it builds an expression or gives up. -/
theorem operand_succ (h : Yielding n) : Yields Gapped.IsExpression (Rule.operand (n + 1)) := by
  rw [Rule.operand]
  refine .step fun _ => .step fun token => ?_
  split
  · exact .step fun _ => .pure .identifier
  · exact yields_integer
  · exact .pure .boolean
  · exact .pure .boolean
  · exact h.unary .not
  · exact h.unary .negate
  · exact h.group
  · exact h.conditional
  · exact h.function
  · exact .step fun _ => .giveUp

/-- An operator of one operand may miss its operand. -/
theorem unary_succ (h : Yielding n) (op : UnaryOp) : Yields Gapped.IsExpression (Rule.unary (n + 1) op) := by
  rw [Rule.unary]
  refine .step fun _ => .step fun _ => .bind (.attempt (h.expression _)) fun right hright => .pure ?_
  cases right with
  | none => exact .unaryGap
  | some e => exact .unary (hright e rfl)

theorem group_succ (h : Yielding n) : Yields Gapped.IsExpression (Rule.group (n + 1)) := by
  rw [Rule.group]
  exact .step fun _ => .bind (h.expression _) fun _ hinner => .step fun _ => .pure hinner

/-- The condition and the blocks of an `if` are there, or it is given up. -/
theorem conditional_succ (h : Yielding n) : Yields Gapped.IsExpression (Rule.conditional (n + 1)) := by
  rw [Rule.conditional]
  refine .step fun _ => .step fun _ => .step fun _ => .bind (h.expression _) fun _ hc => .step fun _ => .step fun _ =>
    .bind h.block fun _ hb => .step fun _ => .ite ?_ (.pure (.ifThen hc hb))
  exact .step fun _ => .step fun _ => .bind h.block fun _ ha => .pure (.ifThenElse hc hb ha)

theorem function_succ (h : Yielding n) : Yields Gapped.IsExpression (Rule.function (n + 1)) := by
  rw [Rule.function]
  exact .step fun _ => .step fun _ => .step fun _ => .step fun _ => .bind h.block fun _ hb => .pure (.function hb)

theorem extend_succ (h : Yielding n) (floor : Precedence) (left : Node) (hleft : Gapped.IsExpression left) :
    Yields Gapped.IsExpression (Rule.extend (n + 1) floor left) := by
  rw [Rule.extend]
  exact .step fun _ => .ite (.step fun _ => .bind (h.application left hleft) fun longer hlonger =>
    h.extend floor longer hlonger) (.pure hleft)

/-- An operator of two operands has both, or it is given up. -/
theorem application_succ (h : Yielding n) (left : Node) (hleft : Gapped.IsExpression left) :
    Yields Gapped.IsExpression (Rule.application (n + 1) left) := by
  rw [Rule.application]
  refine .step fun _ => .step fun token => ?_
  cases token.kind.binaryOp? with
  | some op => exact .step fun _ => .bind (h.expression _) fun _ hright => .pure (.binary hleft hright)
  | none => exact .bind h.arguments fun _ has => .pure (.call hleft has)

theorem arguments_succ (h : Yielding n) :
    Yields (fun as => ∀ a ∈ as, Gapped.IsExpression a) (Rule.arguments (n + 1)) := by
  rw [Rule.arguments]
  refine .step fun _ => .ite (.step fun _ => .pure (List.forall_mem_nil _)) ?_
  exact .step fun _ => .bind (h.expression _) fun _ hfirst => .bind h.moreArguments fun _ hrest => .step fun _ =>
    .pure (List.forall_mem_cons.2 ⟨hfirst, hrest⟩)

theorem moreArguments_succ (h : Yielding n) :
    Yields (fun as => ∀ a ∈ as, Gapped.IsExpression a) (Rule.moreArguments (n + 1)) := by
  rw [Rule.moreArguments]
  refine .step fun _ => .ite ?_ (.pure (List.forall_mem_nil _))
  exact .step fun _ => .step fun _ => .bind (h.expression _) fun _ hfirst => .bind h.moreArguments fun _ hrest =>
    .pure (List.forall_mem_cons.2 ⟨hfirst, hrest⟩)

theorem statement_succ (h : Yielding n) : Yields Gapped.IsStatement (Rule.statement (n + 1)) := by
  rw [Rule.statement]
  refine .step fun _ => .step fun token => ?_
  split
  · exact h.letStatement
  · exact h.returnStatement
  · exact h.expressionStatement

/-- A `let` may miss its value. -/
theorem letStatement_succ (h : Yielding n) : Yields Gapped.IsStatement (Rule.letStatement (n + 1)) := by
  rw [Rule.letStatement]
  refine .step fun _ => .step fun _ => .step fun _ => .step fun _ => .step fun _ =>
    .bind (.attempt (h.expression _)) fun value hvalue => .step fun _ => .pure ?_
  cases value with
  | none => exact .letGap
  | some e => exact .letStatement (hvalue e rfl)

/-- A `return` may miss its value. -/
theorem returnStatement_succ (h : Yielding n) : Yields Gapped.IsStatement (Rule.returnStatement (n + 1)) := by
  rw [Rule.returnStatement]
  refine .step fun _ => .step fun _ => .ite (.step fun _ => .pure .returnGap) (.ite (.pure .returnGap) ?_)
  refine .step fun _ => .bind (.attempt (h.expression _)) fun value hvalue => .step fun _ => .pure ?_
  cases value with
  | none => exact .returnGap
  | some e => exact .returnStatement (hvalue e rfl)

/-- A statement of one expression is given up with it. -/
theorem expressionStatement_succ (h : Yielding n) : Yields Gapped.IsStatement (Rule.expressionStatement (n + 1)) := by
  rw [Rule.expressionStatement]
  exact .step fun _ => .bind (h.expression _) fun _ he => .step fun _ => .pure (.expression he)

theorem block_succ (h : Yielding n) : Yields Gapped.IsBlock (Rule.block (n + 1)) := by
  rw [Rule.block]
  exact .step fun _ => .step fun _ => .step fun _ => .bind h.blockStatements fun _ hss => .pure (.block hss)

/-- A statement that is given up leaves nothing in its block. -/
theorem blockStatements_succ (h : Yielding n) :
    Yields (fun ss => ∀ s ∈ ss, Gapped.IsStatement s) (Rule.blockStatements (n + 1)) := by
  rw [Rule.blockStatements]
  refine .step fun _ => .ite (.pure (List.forall_mem_nil _)) (.ite (.step fun _ => .pure (List.forall_mem_nil _)) ?_)
  refine .bind (.attempt h.statement) fun first hfirst => .step fun _ => .bind h.blockStatements fun rest hrest =>
    .pure (List.forall_mem_append.2 ⟨?_, hrest⟩)
  exact fun s hs => hfirst s (Option.mem_toList.1 hs)

/-- One level of the grammar keeps what holds one level below. -/
theorem succ (h : Yielding n) : Yielding (n + 1) where
  expression := h.expression_succ
  operand := h.operand_succ
  unary := h.unary_succ
  group := h.group_succ
  conditional := h.conditional_succ
  function := h.function_succ
  extend := h.extend_succ
  application := h.application_succ
  arguments := h.arguments_succ
  moreArguments := h.moreArguments_succ
  statement := h.statement_succ
  letStatement := h.letStatement_succ
  returnStatement := h.returnStatement_succ
  expressionStatement := h.expressionStatement_succ
  block := h.block_succ
  blockStatements := h.blockStatements_succ

/-- **Whatever a rule builds has gaps only where they may be.** -/
theorem all : ∀ n, Yielding n
  | 0 => zero
  | n + 1 => (all n).succ

end Yielding

/-- A statement that is given up leaves nothing in the program. -/
theorem yields_programStatements : Yields (fun ss => ∀ s ∈ ss, Gapped.IsStatement s) (programStatements n) := by
  induction n with
  | zero => exact .refuse .tooDeep
  | succ n ih =>
    rw [programStatements]
    refine .step fun _ => .ite (.pure (List.forall_mem_nil _)) ?_
    refine .bind (.attempt (Yielding.all n).statement) fun first hfirst => .step fun _ => .bind ih fun rest hrest =>
      .pure (List.forall_mem_append.2 ⟨?_, hrest⟩)
    exact fun s hs => hfirst s (Option.mem_toList.1 hs)

end Rule

/-- **The tree of any text that is read has gaps only where they may be**, whatever is wrong with the text. -/
theorem gapped_of_parse {text : String} {p : Parse} (hp : parse text = .ok p) : Gapped.IsProgram p.program := by
  have hprogram : Rule.Yields Gapped.IsProgram Parser.program :=
    .step fun _ => .step fun _ => .bind Rule.yields_programStatements fun ss hss => .pure ⟨ss, rfl, hss⟩
  unfold parse at hp
  split at hp
  · next tree q heq =>
    cases hp
    exact hprogram heq
  · cases hp
  · cases hp
    exact ⟨[], rfl, List.forall_mem_nil _⟩

end Monkey
