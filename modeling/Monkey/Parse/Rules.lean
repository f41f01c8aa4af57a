import Monkey.Parse.Window

/-!
# The rules of the grammar

Each rule begins with the window on the first token of what it reads and ends with it on the last one. Expressions are
read by binding strength: `expression floor` reads an operand and goes on while the next token binds tighter than
`floor`, so operators of one strength group to the left.

A rule takes an allowance for nesting, which only bounds the recursion: `Parser.allowance` is enough from any window.
-/

namespace Monkey

namespace Rule

/-- The largest integer. -/
def maxInteger : Nat := 0x7FFFFFFFFFFFFFFF

/-- An integer, from the numeral in the window. -/
def integer : Rule Node := do
  let token ← current
  let digits := token.literal.toList.map fun c => c.toNat - '0'.toNat
  if maxDigits < digits.length then refuse (.numeralTooLong digits.length)
  else if maxInteger < ofDigits digits then
    report (.outOfRange token.literal) token
    giveUp
  else return .integer token (ofDigits digits)

/-- The name in the window. -/
def name : Rule Identifier := do
  let token ← current
  return ⟨token, token.literal⟩

/-- Further parameters, each after a comma. -/
def moreParameters : Nat → Rule (List Identifier)
  | 0 => refuse .tooDeep
  | n + 1 => do
    if (← nextKind) = .comma then
      advance
      expect .ident
      let first ← name
      let rest ← moreParameters n
      return first :: rest
    else return []

/-- The parameters of a function, from its opening parenthesis to the closing one. -/
def parameters (n : Nat) : Rule (List Identifier) := do
  if (← nextKind) = .rparen then
    advance
    return []
  else
    expect .ident
    let first ← name
    let rest ← moreParameters n
    expect .rparen
    return first :: rest

mutual

/-- An expression whose operators bind tighter than `floor`. -/
def expression : Nat → Precedence → Rule Node
  | 0, _ => refuse .tooDeep
  | n + 1, floor => do
    enter
    let left ← operand n
    extend n floor left

/-- What stands before the first operator of an expression. -/
def operand : Nat → Rule Node
  | 0 => refuse .tooDeep
  | n + 1 => do
    enter
    let token ← current
    match token.kind with
    | .ident => return .identifier (← name)
    | .int => integer
    | .trueKeyword => return .boolean token true
    | .falseKeyword => return .boolean token false
    | .bang => unary n .not
    | .minus => unary n .negate
    | .lparen => group n
    | .ifKeyword => conditional n
    | .fnKeyword => function n
    | kind =>
      report (.noExpression kind) token
      giveUp

/-- An operator of one operand, which binds tighter than any of two; the operand may be missing. -/
def unary : Nat → UnaryOp → Rule Node
  | 0, _ => refuse .tooDeep
  | n + 1, op => do
    let token ← current
    advance
    let right ← attempt (expression n .unary)
    return .unary token op (right.getD .hole)

/-- An expression in parentheses. -/
def group : Nat → Rule Node
  | 0 => refuse .tooDeep
  | n + 1 => do
    advance
    let inner ← expression n .lowest
    expect .rparen
    return inner

/-- A conditional. -/
def conditional : Nat → Rule Node
  | 0 => refuse .tooDeep
  | n + 1 => do
    let token ← current
    expect .lparen
    advance
    let condition ← expression n .lowest
    expect .rparen
    expect .lbrace
    let consequence ← block n
    if (← nextKind) = .elseKeyword then
      advance
      expect .lbrace
      let alternative ← block n
      return .conditional token condition consequence alternative
    else return .conditional token condition consequence .hole

/-- A function literal. -/
def function : Nat → Rule Node
  | 0 => refuse .tooDeep
  | n + 1 => do
    let token ← current
    expect .lparen
    let ps ← parameters n
    expect .lbrace
    let body ← block n
    return .function token ps body

/-- An expression that begins with `left`, as far as its operators bind tighter than `floor`. -/
def extend : Nat → Precedence → Node → Rule Node
  | 0, _, _ => refuse .tooDeep
  | n + 1, floor, left => do
    if floor < (← nextKind).precedence then
      advance
      let longer ← application n left
      extend n floor longer
    else return left

/-- What the operator in the window makes of the operand on its left: an operation or a call. -/
def application : Nat → Node → Rule Node
  | 0, _ => refuse .tooDeep
  | n + 1, left => do
    enter
    let token ← current
    match token.kind.binaryOp? with
    | some op =>
      advance
      let right ← expression n token.kind.precedence
      return .binary token left op right
    | none =>
      let args ← arguments n
      return .call token left args

/-- The arguments of a call, from its opening parenthesis to the closing one. -/
def arguments : Nat → Rule (List Node)
  | 0 => refuse .tooDeep
  | n + 1 => do
    if (← nextKind) = .rparen then
      advance
      return []
    else
      advance
      let first ← expression n .lowest
      let rest ← moreArguments n
      expect .rparen
      return first :: rest

/-- Further arguments, each after a comma. -/
def moreArguments : Nat → Rule (List Node)
  | 0 => refuse .tooDeep
  | n + 1 => do
    if (← nextKind) = .comma then
      advance
      advance
      let first ← expression n .lowest
      let rest ← moreArguments n
      return first :: rest
    else return []

/-- A statement, with its semicolon if it has one. -/
def statement : Nat → Rule Node
  | 0 => refuse .tooDeep
  | n + 1 => do
    enter
    match (← current).kind with
    | .letKeyword => letStatement n
    | .returnKeyword => returnStatement n
    | _ => expressionStatement n

/-- A `let` statement; its value may be missing. -/
def letStatement : Nat → Rule Node
  | 0 => refuse .tooDeep
  | n + 1 => do
    let token ← current
    expect .ident
    let target ← name
    expect .assign
    advance
    let value ← attempt (expression n .lowest)
    skipSemicolon
    return .letStatement token target (value.getD .hole)

/-- A `return` statement; it has no value before a semicolon, a closing brace or the end of the text. -/
def returnStatement : Nat → Rule Node
  | 0 => refuse .tooDeep
  | n + 1 => do
    let token ← current
    let next ← nextKind
    if next = .semicolon then
      advance
      return .returnStatement token .hole
    else if next = .rbrace ∨ next = .eof then return .returnStatement token .hole
    else
      advance
      let value ← attempt (expression n .lowest)
      skipSemicolon
      return .returnStatement token (value.getD .hole)

/-- An expression as a statement. -/
def expressionStatement : Nat → Rule Node
  | 0 => refuse .tooDeep
  | n + 1 => do
    let token ← current
    let e ← expression n .lowest
    skipSemicolon
    return .expressionStatement token e

/-- A block, from its opening brace to the closing one. -/
def block : Nat → Rule Node
  | 0 => refuse .tooDeep
  | n + 1 => do
    enter
    let token ← current
    advance
    let ss ← blockStatements n
    return .block token ss

/-- The statements up to a closing brace; one that cannot be read is left out. -/
def blockStatements : Nat → Rule (List Node)
  | 0 => refuse .tooDeep
  | n + 1 => do
    let token ← current
    if token.kind = .rbrace then return []
    else if token.kind = .eof then
      report (.unexpected .rbrace .eof) token
      return []
    else
      let first ← attempt (statement n)
      advance
      let rest ← blockStatements n
      return first.toList ++ rest

end

/-- The statements up to the end of the text; one that cannot be read is left out. -/
def programStatements : Nat → Rule (List Node)
  | 0 => refuse .tooDeep
  | n + 1 => do
    if (← current).kind = .eof then return []
    else
      let first ← attempt (statement n)
      advance
      let rest ← programStatements n
      return first.toList ++ rest

end Rule

namespace Parser

/-- An allowance for nesting that no rule exhausts from this window. -/
def allowance (p : Parser) : Nat :=
  4 * p.ahead.length + 8

/-- Read an expression whose operators bind tighter than `floor`. -/
def expression (floor : Precedence) : Rule Node := do
  Rule.expression (← get).allowance floor

/-- Read a statement. -/
def statement : Rule Node := do
  Rule.statement (← get).allowance

/-- Read a block. -/
def block : Rule Node := do
  Rule.block (← get).allowance

/-- Read all that is left as a program. -/
def program : Rule Node := do
  Rule.enter
  return .program (← Rule.programStatements (← get).allowance)

end Parser

/-- What is read from a text: a tree, perhaps with holes, and what was wrong with the text. -/
structure Parse where
  program : Node
  diagnostics : List Diagnostic

namespace Parse

/-- The words for what was wrong. -/
def messages (p : Parse) : List String :=
  p.diagnostics.map Diagnostic.message

end Parse

/-- Read a text as a program. -/
def parse (text : String) : Except Refusal Parse :=
  match Parser.program (.ofText text) with
  | .ok tree p => .ok ⟨tree, p.diagnostics.toList⟩
  | .error (.refused why) _ => .error why
  | .error .unreadable p => .ok ⟨.program [], p.diagnostics.toList⟩

end Monkey
