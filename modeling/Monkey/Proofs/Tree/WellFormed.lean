import Monkey.Proofs.Token.Lexemes
import Monkey.Tree

/-!
# Well-formed trees

The trees that texts are read as: every child is there but the value of a bare `return` and an absent `else`, every
node stands where its kind may stand, names can be told from keywords, and integers and operators are those of the
language. The tokens in the nodes do not matter.
-/

namespace Monkey

/-- The runs of letters that are no names. -/
def keywords : List String :=
  ["fn", "let", "true", "false", "if", "else", "return"]

/-- A run of letters that is not a keyword. -/
structure IsName (s : String) : Prop where
  ne_empty : s ≠ ""
  letters : ∀ c ∈ s.toList, isLetter c
  not_keyword : s ∉ keywords

/-- A word is an identifier unless it is a keyword. -/
theorem TokenKind.word_eq_ident_iff {s : String} : word s = .ident ↔ s ∉ keywords := by
  unfold word
  repeat' split
  all_goals simp_all [keywords]

/-- A name is a word. -/
theorem IsName.isWord {s : String} (h : IsName s) : IsWord s :=
  (isWord_of_letters h.ne_empty h.letters).1

/-- A name is read as an identifier. -/
theorem IsName.ofWord {s : String} (h : IsName s) : Lexeme.ofWord s = ⟨.ident, s⟩ := by
  rw [(isWord_of_letters h.ne_empty h.letters).2, TokenKind.word_eq_ident_iff.2 h.not_keyword]

/-- The operators of one operand that mean something. -/
def UnaryOp.known : List UnaryOp :=
  [.not, .negate]

/-- The operators of two operands that mean something. -/
def BinaryOp.known : List BinaryOp :=
  [.add, .sub, .mul, .div, .lt, .gt, .eq, .ne]

namespace Node

mutual

/-- An expression with all its parts; an integer in it is from `0` to `2 ^ 63 - 1`. -/
inductive IsExpression : Node → Prop
  | identifier {id} : IsName id.name → IsExpression (.identifier id)
  | integer {t n} : 0 ≤ n → n ≤ 0x7FFFFFFFFFFFFFFF → IsExpression (.integer t n)
  | boolean {t b} : IsExpression (.boolean t b)
  | unary {t op e} : op ∈ UnaryOp.known → IsExpression e → IsExpression (.unary t op e)
  | binary {t l op r} : IsExpression l → op ∈ BinaryOp.known → IsExpression r → IsExpression (.binary t l op r)
  | ifThen {t c b} : IsExpression c → IsBlock b → IsExpression (.conditional t c b .hole)
  | ifThenElse {t c b a} : IsExpression c → IsBlock b → IsBlock a → IsExpression (.conditional t c b a)
  | function {t ps b} : (∀ p ∈ ps, IsName p.name) → IsBlock b → IsExpression (.function t ps b)
  | call {t f as} : IsExpression f → AreExpressions as → IsExpression (.call t f as)

/-- Expressions in a row. -/
inductive AreExpressions : List Node → Prop
  | nil : AreExpressions []
  | cons {e es} : IsExpression e → AreExpressions es → AreExpressions (e :: es)

/-- A statement with all its parts. -/
inductive IsStatement : Node → Prop
  | letStatement {t target e} : IsName target.name → IsExpression e → IsStatement (.letStatement t target e)
  | returnNothing {t} : IsStatement (.returnStatement t .hole)
  | returnValue {t e} : IsExpression e → IsStatement (.returnStatement t e)
  | expression {t e} : IsExpression e → IsStatement (.expressionStatement t e)

/-- Statements in a row. -/
inductive AreStatements : List Node → Prop
  | nil : AreStatements []
  | cons {s ss} : IsStatement s → AreStatements ss → AreStatements (s :: ss)

/-- A block of statements. -/
inductive IsBlock : Node → Prop
  | block {t ss} : AreStatements ss → IsBlock (.block t ss)

end

/-- A well-formed program tree. -/
def IsProgram (p : Node) : Prop :=
  ∃ ss, p = .program ss ∧ AreStatements ss

end Node

end Monkey
