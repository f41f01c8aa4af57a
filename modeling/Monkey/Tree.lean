import Monkey.Token

/-!
# Program trees

Programs, statements and expressions are nodes of one type, since a tree that is built by hand may put any node at any
place. A child that could not be read is a `hole`; the value of a bare `return` and an absent `else` are holes too.
Every node read from a text keeps the token it begins with.
-/

namespace Monkey

/-- The operators of one operand; `other` holds a symbol that means nothing. -/
inductive UnaryOp where
  | not
  | negate
  | other (symbol : String)
deriving DecidableEq

namespace UnaryOp

/-- The operator as it is written. -/
def symbol : UnaryOp → String
  | .not => "!"
  | .negate => "-"
  | .other s => s

/-- The operator that is written so. -/
def ofSymbol (s : String) : UnaryOp :=
  if s = "!" then .not else if s = "-" then .negate else .other s

end UnaryOp

/-- The operators of two operands; `other` holds a symbol that means nothing. -/
inductive BinaryOp where
  | add
  | sub
  | mul
  | div
  | lt
  | gt
  | eq
  | ne
  | other (symbol : String)
deriving DecidableEq

namespace BinaryOp

/-- The operator as it is written. -/
def symbol : BinaryOp → String
  | .add => "+"
  | .sub => "-"
  | .mul => "*"
  | .div => "/"
  | .lt => "<"
  | .gt => ">"
  | .eq => "=="
  | .ne => "!="
  | .other s => s

/-- The operator that is written so. -/
def ofSymbol (s : String) : BinaryOp :=
  if s = "+" then .add
  else if s = "-" then .sub
  else if s = "*" then .mul
  else if s = "/" then .div
  else if s = "<" then .lt
  else if s = ">" then .gt
  else if s = "==" then .eq
  else if s = "!=" then .ne
  else .other s

end BinaryOp

/-- A name where it stands: as an expression, a parameter, or the target of a `let`. -/
structure Identifier where
  token : Token
  name : String
deriving DecidableEq

/-- The three classes of nodes that say nothing about what they hold. -/
inductive NodeClass where
  | node
  | statement
  | expression
deriving DecidableEq

/-- The name of a class of nodes. -/
def NodeClass.name : NodeClass → String
  | .node => "Node"
  | .statement => "Statement"
  | .expression => "Expression"

/-- A node of a program tree. -/
inductive Node where
  /-- A child that is not there. -/
  | hole
  /-- A node of which only the class is known. -/
  | unknown (cls : NodeClass)
  | program (statements : List Node)
  | letStatement (token : Token) (target : Identifier) (value : Node)
  | returnStatement (token : Token) (value : Node)
  | expressionStatement (token : Token) (expression : Node)
  | block (token : Token) (statements : List Node)
  | identifier (id : Identifier)
  | integer (token : Token) (value : Int)
  | boolean (token : Token) (value : Bool)
  | unary (token : Token) (op : UnaryOp) (operand : Node)
  | binary (token : Token) (left : Node) (op : BinaryOp) (right : Node)
  | conditional (token : Token) (condition consequence alternative : Node)
  | function (token : Token) (parameters : List Identifier) (body : Node)
  | call (token : Token) (callee : Node) (arguments : List Node)

namespace Node

/-- The statements of a program or block. -/
def statements : Node → List Node
  | .program ss => ss
  | .block _ ss => ss
  | _ => []

/-- A child that is not there. -/
def isHole : Node → Bool
  | .hole => true
  | _ => false

/-- A `let` statement. -/
def isLet : Node → Bool
  | .letStatement .. => true
  | _ => false

/-- The literal of the token a node begins with. A program begins as its first statement does. -/
def tokenLiteral? : Node → Option String
  | .hole => none
  | .unknown _ => none
  | .program [] => some ""
  | .program (s :: _) => s.tokenLiteral?
  | .letStatement t .. => some t.literal
  | .returnStatement t .. => some t.literal
  | .expressionStatement t .. => some t.literal
  | .block t .. => some t.literal
  | .identifier id => some id.token.literal
  | .integer t .. => some t.literal
  | .boolean t .. => some t.literal
  | .unary t .. => some t.literal
  | .binary t .. => some t.literal
  | .conditional t .. => some t.literal
  | .function t .. => some t.literal
  | .call t .. => some t.literal

end Node

end Monkey
