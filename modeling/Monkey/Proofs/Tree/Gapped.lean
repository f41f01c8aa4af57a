import Monkey.Proofs.Tree.Everywhere
import Monkey.Word

/-!
# Trees with gaps

The trees that are read from texts in which something may be wrong. A child may be missing in three places only: the
operand of an operator of one operand, the value of a `let` and that of a `return`. All else is there, and an integer is
from `0` to `maxWord`.
-/

namespace Monkey.Node.Gapped

mutual

/-- An expression that is there, perhaps with gaps below it. -/
inductive IsExpression : Node → Prop
  | identifier {id} : IsExpression (.identifier id)
  | integer {t n} : 0 ≤ n → n ≤ maxWord → IsExpression (.integer t n)
  | boolean {t b} : IsExpression (.boolean t b)
  | unary {t op e} : IsExpression e → IsExpression (.unary t op e)
  | unaryGap {t op} : IsExpression (.unary t op .hole)
  | binary {t l op r} : IsExpression l → IsExpression r → IsExpression (.binary t l op r)
  | ifThen {t c b} : IsExpression c → IsBlock b → IsExpression (.conditional t c b .hole)
  | ifThenElse {t c b a} : IsExpression c → IsBlock b → IsBlock a → IsExpression (.conditional t c b a)
  | function {t ps b} : IsBlock b → IsExpression (.function t ps b)
  | call {t f as} : IsExpression f → (∀ a ∈ as, IsExpression a) → IsExpression (.call t f as)

/-- A statement that is there, perhaps with gaps below it. -/
inductive IsStatement : Node → Prop
  | letStatement {t target e} : IsExpression e → IsStatement (.letStatement t target e)
  | letGap {t target} : IsStatement (.letStatement t target .hole)
  | returnStatement {t e} : IsExpression e → IsStatement (.returnStatement t e)
  | returnGap {t} : IsStatement (.returnStatement t .hole)
  | expression {t e} : IsExpression e → IsStatement (.expressionStatement t e)

/-- A block that is there, perhaps with gaps below it. -/
inductive IsBlock : Node → Prop
  | block {t ss} : (∀ s ∈ ss, IsStatement s) → IsBlock (.block t ss)

end

/-- A program tree, perhaps with gaps. -/
def IsProgram (p : Node) : Prop :=
  ∃ ss, p = .program ss ∧ ∀ s ∈ ss, IsStatement s

end Monkey.Node.Gapped
