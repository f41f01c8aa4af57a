import Monkey.Parse.Diagnostic
import Monkey.Parse.Precedence
import Monkey.Text.Numeral
import Monkey.Token.Scan

/-!
# The parser's window

A parser looks at two tokens, the current one and the next, and moves over the tokens of a text from left to right.
At the end both are the end token, and moving changes nothing. A `Rule` reads part of a text: it builds something, or
it gives up after a diagnostic has been recorded, or the text is refused as a whole.
-/

namespace Monkey

/-- Why a text is refused as a whole. -/
inductive Refusal where
  /-- A numeral has more digits than are ever read. -/
  | numeralTooLong (digits : Nat)
  /-- Rules are nested deeper than was allowed for. -/
  | tooDeep
deriving DecidableEq

/-- The words for a refusal. -/
def Refusal.message : Refusal → String
  | .numeralTooLong digits =>
    "Exceeds the limit (" ++ toString maxDigits ++ " digits) for integer string conversion: value has " ++
      toString digits ++ " digits; use sys.set_int_max_str_digits() to increase the limit"
  | .tooDeep => "rules are nested too deep"

/-- A parser on its way through a text. -/
structure Parser where
  /-- The tokens from the current one on, without the end token. -/
  ahead : List Token
  /-- The end token. -/
  final : Token
  /-- What has been reported, in order. -/
  diagnostics : Array Diagnostic
  /-- How many rules have been entered. -/
  entered : Nat

namespace Parser

/-- The parser before the first token of a text. -/
def ofText (text : String) : Parser :=
  let (ahead, last) := (Cursor.ofText text).toEnd
  ⟨ahead, last.read.1, #[], 0⟩

/-- The current token. -/
def current (p : Parser) : Token :=
  p.ahead.headD p.final

/-- The token after the current one. -/
def next (p : Parser) : Token :=
  p.ahead.tail.headD p.final

/-- The parser one token further. -/
def advance (p : Parser) : Parser :=
  { p with ahead := p.ahead.tail }

end Parser

/-- Why a rule builds nothing. -/
inductive Stop where
  /-- What is there cannot be read; a diagnostic says so. -/
  | unreadable
  /-- The text is refused. -/
  | refused (why : Refusal)

/-- A rule reads part of a text. However it ends, it leaves the parser where it got to. -/
abbrev Rule := EStateM Stop Parser

namespace Rule

/-- The current token. -/
def current : Rule Token := do
  return (← get).current

/-- The kind of the token after the current one. -/
def nextKind : Rule TokenKind := do
  return (← get).next.kind

/-- Move one token on. -/
def advance : Rule Unit :=
  modify Parser.advance

/-- Record a problem at a token. -/
def report (problem : Problem) (token : Token) : Rule Unit :=
  modify fun p => { p with diagnostics := p.diagnostics.push ⟨problem, token.position⟩ }

/-- Count the entry into a rule. -/
def enter : Rule Unit :=
  modify fun p => { p with entered := p.entered + 1 }

/-- Build nothing: what is there cannot be read. -/
def giveUp {α : Type} : Rule α :=
  throw .unreadable

/-- Refuse the text. -/
def refuse {α : Type} (why : Refusal) : Rule α :=
  throw (.refused why)

/-- Move on if the next token is of the kind that has to follow, else report it and stay. -/
def expect (kind : TokenKind) : Rule Unit := do
  let token := (← get).next
  if token.kind = kind then advance
  else
    report (.unexpected kind token.kind) token
    giveUp

/-- Move on if the next token is a semicolon. -/
def skipSemicolon : Rule Unit := do
  if (← nextKind) = .semicolon then advance

/-- What a rule builds, or nothing where it gives up. -/
def attempt {α : Type} (x : Rule α) : Rule (Option α) := fun p =>
  match x p with
  | .ok a q => .ok (some a) q
  | .error .unreadable q => .ok none q
  | .error stop q => .error stop q

end Rule

end Monkey
