import Monkey.Token

/-!
# Diagnostics

What can be wrong with a text, where, and how that is said. `Problem.atEnd` holds of the two problems that more text
could mend: something was expected where the text ends.
-/

namespace Monkey

/-- What is wrong at a place. -/
inductive Problem where
  /-- One kind of token was expected and another came. -/
  | unexpected (expected got : TokenKind)
  /-- No expression begins with a token of this kind. -/
  | noExpression (kind : TokenKind)
  /-- A numeral is beyond the largest integer. -/
  | outOfRange (numeral : String)
deriving DecidableEq

namespace Problem

/-- The words for a problem. -/
def message : Problem → String
  | .unexpected expected got =>
    "expected next token to be " ++ expected.display ++ ", got " ++ got.display ++ " instead"
  | .noExpression kind => "no prefix parse function for " ++ kind.display ++ " found"
  | .outOfRange numeral => "could not parse " ++ numeral ++ " as integer"

/-- The text ended where something was expected. -/
def atEnd : Problem → Bool
  | .unexpected _ got => got = .eof
  | .noExpression kind => kind = .eof
  | .outOfRange _ => false

end Problem

/-- A problem and the place of the token that shows it. -/
structure Diagnostic where
  problem : Problem
  position : Position
deriving DecidableEq

/-- The words for a diagnostic. -/
def Diagnostic.message (d : Diagnostic) : String :=
  d.problem.message

end Monkey
