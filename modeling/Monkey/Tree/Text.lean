import Monkey.Tree

/-!
# The text of a tree

`Node.text` writes a tree as source text with every operator in parentheses, so the text shows how the operands are
grouped. An expression statement that another statement follows gets a semicolon, without which the two could be read
as one. A hole leaves nothing.

Not every tree has a text (`Node.hasText`): a node of which only the class is known has none, and neither has a row of
statements one of which is missing.
-/

namespace Monkey

mutual

/-- The source text of a node. -/
def Node.text : Node → String
  | .hole => ""
  | .unknown _ => ""
  | .program ss => Node.sequenceText ss
  | .letStatement _ target value => "let " ++ target.name ++ " = " ++ value.text ++ ";"
  | .returnStatement _ .hole => "return;"
  | .returnStatement _ value => "return " ++ value.text ++ ";"
  | .expressionStatement _ e => e.text
  | .block _ [] => "\x7b \x7d"
  | .block _ ss => "\x7b " ++ Node.sequenceText ss ++ " \x7d"
  | .identifier id => id.name
  | .integer _ n => toString n
  | .boolean _ b => if b then "true" else "false"
  | .unary _ op operand => "(" ++ op.symbol ++ operand.text ++ ")"
  | .binary _ left op right => "(" ++ left.text ++ " " ++ op.symbol ++ " " ++ right.text ++ ")"
  | .conditional _ c t .hole => "if (" ++ c.text ++ ") " ++ t.text
  | .conditional _ c t e => "if (" ++ c.text ++ ") " ++ t.text ++ " else " ++ e.text
  | .function _ ps body => "fn(" ++ ", ".intercalate (ps.map Identifier.name) ++ ") " ++ body.text
  | .call _ callee args => callee.text ++ "(" ++ Node.argumentsText args ++ ")"

/-- The text of statements in a row. -/
def Node.sequenceText : List Node → String
  | [] => ""
  | [s] => s.text
  | .expressionStatement _ e :: rest => e.text ++ "; " ++ Node.sequenceText rest
  | s :: rest => s.text ++ " " ++ Node.sequenceText rest

/-- The text of the arguments of a call. -/
def Node.argumentsText : List Node → String
  | [] => ""
  | [a] => a.text
  | a :: rest => a.text ++ ", " ++ Node.argumentsText rest

end

mutual

/-- The tree has a text. A child that is missing is passed over, unless it is one of the statements in a row. -/
def Node.hasText : Node → Bool
  | .hole => false
  | .unknown _ => false
  | .program ss => Node.allHaveText ss
  | .letStatement _ _ value => value.isHole || value.hasText
  | .returnStatement _ value => value.isHole || value.hasText
  | .expressionStatement _ e => e.isHole || e.hasText
  | .block _ ss => Node.allHaveText ss
  | .identifier _ => true
  | .integer _ _ => true
  | .boolean _ _ => true
  | .unary _ _ operand => operand.isHole || operand.hasText
  | .binary _ left _ right => (left.isHole || left.hasText) && (right.isHole || right.hasText)
  | .conditional _ c t e => (c.isHole || c.hasText) && (t.isHole || t.hasText) && (e.isHole || e.hasText)
  | .function _ _ body => body.isHole || body.hasText
  | .call _ callee args => (callee.isHole || callee.hasText) && Node.argumentsHaveText args

/-- All statements in a row have a text. -/
def Node.allHaveText : List Node → Bool
  | [] => true
  | s :: rest => s.hasText && Node.allHaveText rest

/-- All arguments of a call have a text or are missing. -/
def Node.argumentsHaveText : List Node → Bool
  | [] => true
  | a :: rest => (a.isHole || a.hasText) && Node.argumentsHaveText rest

end

/-- The text of a tree that has one. -/
def Node.text? (n : Node) : Option String :=
  if n.hasText then some n.text else none

end Monkey
