import Monkey.Proofs.Parse.Reading

/-!
# The grammar

The lexemes of expressions, statements and blocks, as a grammar derives them. The grammar says nothing about binding
strength, and it is ambiguous: semicolons are optional, so `a -b` is one statement or two. Only a `return` without
value and semicolon looks at what follows it, so a statement is derived before a kind of token.

* `Reading.Statements.derives`: what is read is derivable.
-/

namespace Monkey

namespace Grammar

/-- The kinds of the operators of two operands. -/
def operators : List TokenKind :=
  [.plus, .minus, .asterisk, .slash, .lt, .gt, .eq, .notEq]

/-- The kind of token at which lexemes begin that stand before a token of kind `k`. -/
def firstKind (k : TokenKind) : List Lexeme → TokenKind
  | [] => k
  | l :: _ => l.kind

/-- A semicolon that may be left out. -/
inductive Semicolon : List Lexeme → Prop
  | absent : Semicolon []
  | present {s} : Semicolon [⟨.semicolon, s⟩]

/-- Further parameters, each after a comma. -/
inductive MoreParameters : List Lexeme → Prop
  | nil : MoreParameters []
  | cons {s₁ s ls} : MoreParameters ls → MoreParameters (⟨.comma, s₁⟩ :: ⟨.ident, s⟩ :: ls)

/-- The parameters between the parentheses of a function. -/
inductive Parameters : List Lexeme → Prop
  | nil : Parameters []
  | cons {s ls} : MoreParameters ls → Parameters (⟨.ident, s⟩ :: ls)

mutual

/-- An expression; a numeral in it is at most `2 ^ 63 - 1`. -/
inductive Expression : List Lexeme → Prop
  | identifier {s} : Expression [⟨.ident, s⟩]
  | integer {s} : numeralValue s ≤ 0x7FFFFFFFFFFFFFFF → Expression [⟨.int, s⟩]
  | true {s} : Expression [⟨.trueKeyword, s⟩]
  | false {s} : Expression [⟨.falseKeyword, s⟩]
  | not {s ls} : Expression ls → Expression (⟨.bang, s⟩ :: ls)
  | negate {s ls} : Expression ls → Expression (⟨.minus, s⟩ :: ls)
  | group {s₁ ls s₂} : Expression ls → Expression (⟨.lparen, s₁⟩ :: (ls ++ [⟨.rparen, s₂⟩]))
  | binary {ls k s rs} : Expression ls → k ∈ operators → Expression rs → Expression (ls ++ ⟨k, s⟩ :: rs)
  | call {ls s₁ as s₂} : Expression ls → Arguments as → Expression (ls ++ ⟨.lparen, s₁⟩ :: (as ++ [⟨.rparen, s₂⟩]))
  | ifThen {s₁ s₂ ls s₃ bs} : Expression ls → Block bs →
      Expression (⟨.ifKeyword, s₁⟩ :: ⟨.lparen, s₂⟩ :: (ls ++ ⟨.rparen, s₃⟩ :: bs))
  | ifThenElse {s₁ s₂ ls s₃ bs s₄ cs} : Expression ls → Block bs → Block cs →
      Expression (⟨.ifKeyword, s₁⟩ :: ⟨.lparen, s₂⟩ :: (ls ++ ⟨.rparen, s₃⟩ :: (bs ++ ⟨.elseKeyword, s₄⟩ :: cs)))
  | function {s₁ s₂ ps s₃ bs} : Parameters ps → Block bs →
      Expression (⟨.fnKeyword, s₁⟩ :: ⟨.lparen, s₂⟩ :: (ps ++ ⟨.rparen, s₃⟩ :: bs))

/-- The arguments between the parentheses of a call. -/
inductive Arguments : List Lexeme → Prop
  | nil : Arguments []
  | cons {ls as} : Expression ls → MoreArguments as → Arguments (ls ++ as)

/-- Further arguments, each after a comma. -/
inductive MoreArguments : List Lexeme → Prop
  | nil : MoreArguments []
  | cons {s ls as} : Expression ls → MoreArguments as → MoreArguments (⟨.comma, s⟩ :: (ls ++ as))

/-- A statement that stands before a token of some kind. -/
inductive Statement : TokenKind → List Lexeme → Prop
  | letStatement {k s₁ s s₂ ls es} : Expression ls → Semicolon es →
      Statement k (⟨.letKeyword, s₁⟩ :: ⟨.ident, s⟩ :: ⟨.assign, s₂⟩ :: (ls ++ es))
  | returnValue {k s ls es} : Expression ls → Semicolon es → Statement k (⟨.returnKeyword, s⟩ :: (ls ++ es))
  | returnNothing {k s₁ s₂} : Statement k [⟨.returnKeyword, s₁⟩, ⟨.semicolon, s₂⟩]
  | returnLast {k s} : k = .rbrace ∨ k = .eof → Statement k [⟨.returnKeyword, s⟩]
  | expression {k ls es} : Expression ls → Semicolon es → Statement k (ls ++ es)

/-- Statements in a row before a token of some kind. -/
inductive Statements : TokenKind → List Lexeme → Prop
  | nil {k} : Statements k []
  | cons {k ls ss} : Statement (firstKind k ss) ls → Statements k ss → Statements k (ls ++ ss)

/-- A block. -/
inductive Block : List Lexeme → Prop
  | statements {s₁ ls s₂} : Statements .rbrace ls → Block (⟨.lbrace, s₁⟩ :: (ls ++ [⟨.rbrace, s₂⟩]))

end

/-- A program: statements up to the end. -/
def Program (ls : List Lexeme) : Prop :=
  Statements .eof ls

end Grammar

/-- In front of other lexemes the first kind is that of the own lexemes, if there are any. -/
theorem headKind_append (ls rest : List Lexeme) : headKind (ls ++ rest) = Grammar.firstKind (headKind rest) ls := by
  cases ls <;> rfl

/-- The operators of the grammar are the kinds that the parser reads as operators of two operands. -/
theorem TokenKind.mem_operators_iff {k : TokenKind} : k ∈ Grammar.operators ↔ ∃ op, k.binaryOp? = some op := by
  cases k <;> simp [Grammar.operators, binaryOp?]

/-! ## What is read is derivable -/

namespace Reading

/-- What ends a statement is a semicolon or nothing. -/
theorem Ending.derives {ls rest : List Lexeme} (h : Ending ls rest) : ∃ es, ls = es ++ rest ∧ Grammar.Semicolon es := by
  cases h with
  | semicolon => exact ⟨_, rfl, .present⟩
  | nothing => exact ⟨[], rfl, .absent⟩

/-- Parameters that are read up to a closing parenthesis are parameters of the grammar. -/
theorem MoreParameters.derives {ls rest : List Lexeme} {ps : List Identifier} (h : MoreParameters ls ps rest) :
    ∃ pre s, ls = pre ++ ⟨.rparen, s⟩ :: rest ∧ Grammar.MoreParameters pre := by
  induction h with
  | close => exact ⟨[], _, rfl, .nil⟩
  | more _ ih =>
    obtain ⟨pre, s, rfl, hpre⟩ := ih
    exact ⟨_, s, rfl, .cons hpre⟩

theorem Parameters.derives {ls rest : List Lexeme} {ps : List Identifier} (h : Parameters ls ps rest) :
    ∃ pre s, ls = pre ++ ⟨.rparen, s⟩ :: rest ∧ Grammar.Parameters pre := by
  cases h with
  | close => exact ⟨[], _, rfl, .nil⟩
  | some h =>
    obtain ⟨pre, s, rfl, hpre⟩ := h.derives
    exact ⟨_, s, rfl, .cons hpre⟩

mutual

/-- **An operand that is read is an expression of the grammar**; which operand of which operator it is does not matter
there. -/
theorem Operand.derives : ∀ {ls rest : List Lexeme} {e : Node}, Operand ls e rest →
    ∃ pre, ls = pre ++ rest ∧ Grammar.Expression pre
  | _, _, _, .identifier => ⟨_, rfl, .identifier⟩
  | _, _, _, .integer _ hmax => ⟨_, rfl, .integer hmax⟩
  | _, _, _, .true => ⟨_, rfl, .true⟩
  | _, _, _, .false => ⟨_, rfl, .false⟩
  | _, _, _, .not h _ => by
    obtain ⟨pre, rfl, hpre⟩ := h.derives
    exact ⟨_, rfl, .not hpre⟩
  | _, _, _, .negate h _ => by
    obtain ⟨pre, rfl, hpre⟩ := h.derives
    exact ⟨_, rfl, .negate hpre⟩
  | _, _, _, .group h => by
    obtain ⟨pre, rfl, hpre⟩ := h.derives
    exact ⟨_, by simp only [List.append_assoc, List.cons_append]; rfl, .group hpre⟩
  | _, _, _, .ifThen hc h _ => by
    obtain ⟨pre, rfl, hpre⟩ := hc.derives
    obtain ⟨bs, rfl, hb⟩ := h.derives
    exact ⟨_, by simp only [List.append_assoc, List.cons_append]; rfl, .ifThen hpre (.statements hb)⟩
  | _, _, _, .ifThenElse hc h₁ h₂ => by
    obtain ⟨pre, rfl, hpre⟩ := hc.derives
    obtain ⟨bs, rfl, hb⟩ := h₁.derives
    obtain ⟨cs, rfl, hcs⟩ := h₂.derives
    exact ⟨_, by simp only [List.append_assoc, List.cons_append]; rfl,
      .ifThenElse hpre (.statements hb) (.statements hcs)⟩
  | _, _, _, .function hps h => by
    obtain ⟨pre, s, rfl, hpre⟩ := hps.derives
    obtain ⟨bs, rfl, hb⟩ := h.derives
    exact ⟨_, by simp only [List.append_assoc, List.cons_append]; rfl, .function hpre (.statements hb)⟩

/-- A chain of operators and calls is an expression of the grammar, whatever its levels are. -/
theorem Chain.derives : ∀ {floor : Precedence} {ls rest : List Lexeme} {e : Node}, Chain floor ls e rest →
    ∃ pre, ls = pre ++ rest ∧ Grammar.Expression pre
  | _, _, _, _, .operand h => h.derives
  | _, _, _, _, .binary hl hop _ hr _ => by
    obtain ⟨pre, rfl, hpre⟩ := hl.derives
    obtain ⟨pre', rfl, hpre'⟩ := hr.derives
    exact ⟨_, by simp only [List.append_assoc, List.cons_append]; rfl,
      .binary hpre (TokenKind.mem_operators_iff.2 ⟨_, hop⟩) hpre'⟩
  | _, _, _, _, .call hf _ hargs => by
    obtain ⟨pre, rfl, hpre⟩ := hf.derives
    obtain ⟨as, s, rfl, has⟩ := hargs.derives
    exact ⟨_, by simp only [List.append_assoc, List.cons_append]; rfl, .call hpre has⟩

/-- Arguments that are read up to a closing parenthesis are arguments of the grammar. -/
theorem Arguments.derives : ∀ {ls rest : List Lexeme} {as : List Node}, Arguments ls as rest →
    ∃ pre s, ls = pre ++ ⟨.rparen, s⟩ :: rest ∧ Grammar.Arguments pre
  | _, _, _, .close => ⟨[], _, rfl, .nil⟩
  | _, _, _, .some h hmore => by
    obtain ⟨pre, rfl, hpre⟩ := h.derives
    obtain ⟨as, s, rfl, has⟩ := hmore.derives
    exact ⟨_, s, (List.append_assoc ..).symm, .cons hpre has⟩

theorem MoreArguments.derives : ∀ {ls rest : List Lexeme} {as : List Node}, MoreArguments ls as rest →
    ∃ pre s, ls = pre ++ ⟨.rparen, s⟩ :: rest ∧ Grammar.MoreArguments pre
  | _, _, _, .close => ⟨[], _, rfl, .nil⟩
  | _, _, _, .more h hmore => by
    obtain ⟨pre, rfl, hpre⟩ := h.derives
    obtain ⟨as, s, rfl, has⟩ := hmore.derives
    exact ⟨_, s, by simp only [List.append_assoc, List.cons_append]; rfl, .cons hpre has⟩

/-- **A statement that is read is a statement of the grammar** in front of what follows it. -/
theorem Statement.derives : ∀ {ls rest : List Lexeme} {s : Node}, Statement ls s rest →
    ∃ pre, ls = pre ++ rest ∧ Grammar.Statement (headKind rest) pre
  | _, _, _, .letStatement h hend => by
    obtain ⟨pre, rfl, hpre⟩ := h.derives
    obtain ⟨es, rfl, hes⟩ := hend.derives
    exact ⟨_, by simp only [List.append_assoc, List.cons_append]; rfl, .letStatement hpre hes⟩
  | _, _, _, .returnNothing => ⟨_, rfl, .returnNothing⟩
  | _, _, _, .returnLast hlast => ⟨_, rfl, .returnLast hlast⟩
  | _, _, _, .returnValue h hend => by
    obtain ⟨pre, rfl, hpre⟩ := h.derives
    obtain ⟨es, rfl, hes⟩ := hend.derives
    exact ⟨_, by simp only [List.append_assoc, List.cons_append]; rfl, .returnValue hpre hes⟩
  | _, _, _, .expression h hend => by
    obtain ⟨pre, rfl, hpre⟩ := h.derives
    obtain ⟨es, rfl, hes⟩ := hend.derives
    exact ⟨_, (List.append_assoc ..).symm, .expression hpre hes⟩

/-- Statements that are read in a row are so in the grammar, each in front of the next one. -/
theorem Statements.derives : ∀ {ls rest : List Lexeme} {ss : List Node}, Statements ls ss rest →
    ∃ pre, ls = pre ++ rest ∧ Grammar.Statements (headKind rest) pre
  | _, _, _, .nil => ⟨[], rfl, .nil⟩
  | _, _, _, .cons h hss => by
    obtain ⟨pre, rfl, hpre⟩ := h.derives
    obtain ⟨pre', rfl, hpre'⟩ := hss.derives
    rw [headKind_append] at hpre
    exact ⟨_, (List.append_assoc ..).symm, .cons hpre hpre'⟩

end

end Reading

end Monkey
