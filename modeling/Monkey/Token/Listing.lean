import Monkey.Token
import Monkey.Text.Quoted

/-!
# Listings of tokens

How a token is shown to someone who inspects a token stream: kind, quoted literal and line.
-/

namespace Monkey

/-- A token in a listing. -/
def Token.listing (t : Token) : String :=
  "Token(" ++ t.kind.name ++ ", " ++ quoted t.literal ++ ", line=" ++ toString t.position.line ++ ")"

/-- A list of tokens. -/
def listTokens (ts : List Token) : String :=
  "[" ++ ", ".intercalate (ts.map Token.listing) ++ "]"

end Monkey
