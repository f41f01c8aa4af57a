import Monkey.Tree

/-!
# Binding strength

How tightly a token binds the operand on its left, weakest first: equality, ordering, sums, products, operators of one
operand, calls. All else binds at the lowest level, which ends an expression.
-/

namespace Monkey

/-- The levels of binding strength. -/
inductive Precedence where
  | lowest
  | equals
  | lessGreater
  | sum
  | product
  | unary
  | call
deriving DecidableEq

namespace Precedence

/-- The rank of a level: a stronger one has a higher rank. -/
def rank : Precedence → Nat
  | .lowest => 1
  | .equals => 2
  | .lessGreater => 3
  | .sum => 4
  | .product => 5
  | .unary => 6
  | .call => 7

instance : LT Precedence where
  lt p q := p.rank < q.rank

instance : DecidableLT Precedence :=
  fun p q => inferInstanceAs (Decidable (p.rank < q.rank))

theorem lt_iff {p q : Precedence} : p < q ↔ p.rank < q.rank := Iff.rfl

/-- Every level, weakest first. -/
def all : List Precedence :=
  [.lowest, .equals, .lessGreater, .sum, .product, .unary, .call]

/-- The name of a level. -/
def name : Precedence → String
  | .lowest => "LOWEST"
  | .equals => "EQUALS"
  | .lessGreater => "LESSGREATER"
  | .sum => "SUM"
  | .product => "PRODUCT"
  | .unary => "PREFIX"
  | .call => "CALL"

/-- The level with a given name. -/
def ofName? (s : String) : Option Precedence :=
  all.find? (·.name = s)

end Precedence

/-- How tightly an operator binds its operands. -/
def BinaryOp.precedence : BinaryOp → Precedence
  | .eq => .equals
  | .ne => .equals
  | .lt => .lessGreater
  | .gt => .lessGreater
  | .add => .sum
  | .sub => .sum
  | .mul => .product
  | .div => .product
  | .other _ => .lowest

namespace TokenKind

/-- The operator of two operands that a token stands for. -/
def binaryOp? : TokenKind → Option BinaryOp
  | .plus => some .add
  | .minus => some .sub
  | .asterisk => some .mul
  | .slash => some .div
  | .lt => some .lt
  | .gt => some .gt
  | .eq => some .eq
  | .notEq => some .ne
  | _ => none

/-- How tightly a token binds the operand on its left; an opening parenthesis there begins a call. -/
def precedence (k : TokenKind) : Precedence :=
  if k = .lparen then .call
  else
    match k.binaryOp? with
    | some op => op.precedence
    | none => .lowest

end TokenKind

end Monkey
