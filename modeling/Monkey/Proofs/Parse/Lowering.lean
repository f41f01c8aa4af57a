import Monkey.Proofs.Parse.Moving
import Monkey.Proofs.Token.Placement

/-!
# Trees and reports further down

The tree of a text that stands some lines further down has its tokens so many lines further down, and nothing else in it
is different (`Node.bare_lower`).
-/

namespace Monkey

/-- The name so many lines further down. -/
def Identifier.lower (k : Nat) (id : Identifier) : Identifier :=
  ⟨id.token.lower k, id.name⟩

namespace Node

mutual

/-- The tree so many lines further down. -/
def lower (k : Nat) : Node → Node
  | .hole => .hole
  | .unknown cls => .unknown cls
  | .program ss => .program (lowerAll k ss)
  | .letStatement t target value => .letStatement (t.lower k) (target.lower k) (value.lower k)
  | .returnStatement t value => .returnStatement (t.lower k) (value.lower k)
  | .expressionStatement t e => .expressionStatement (t.lower k) (e.lower k)
  | .block t ss => .block (t.lower k) (lowerAll k ss)
  | .identifier id => .identifier (id.lower k)
  | .integer t n => .integer (t.lower k) n
  | .boolean t b => .boolean (t.lower k) b
  | .unary t op operand => .unary (t.lower k) op (operand.lower k)
  | .binary t left op right => .binary (t.lower k) (left.lower k) op (right.lower k)
  | .conditional t c b e => .conditional (t.lower k) (c.lower k) (b.lower k) (e.lower k)
  | .function t ps body => .function (t.lower k) (ps.map (Identifier.lower k)) (body.lower k)
  | .call t callee args => .call (t.lower k) (callee.lower k) (lowerAll k args)

/-- The trees so many lines further down. -/
def lowerAll (k : Nat) : List Node → List Node
  | [] => []
  | s :: ss => s.lower k :: lowerAll k ss

end

mutual

theorem move_lower (k : Nat) : ∀ n : Node, n.move (Position.lower k) = n.lower k
  | .hole | .unknown _ | .identifier _ | .integer _ _ | .boolean _ _ => rfl
  | .program ss => by rw [move, lower, moveAll_lower k ss]
  | .block _ ss => by rw [move, lower, moveAll_lower k ss]; rfl
  | .letStatement _ target value => by rw [move, lower, move_lower k value]; rfl
  | .returnStatement _ value => by rw [move, lower, move_lower k value]; rfl
  | .expressionStatement _ e => by rw [move, lower, move_lower k e]; rfl
  | .unary _ op operand => by rw [move, lower, move_lower k operand]; rfl
  | .binary _ left op right => by rw [move, lower, move_lower k left, move_lower k right]; rfl
  | .conditional _ c b e => by rw [move, lower, move_lower k c, move_lower k b, move_lower k e]; rfl
  | .function _ ps body => by rw [move, lower, move_lower k body]; rfl
  | .call _ callee args => by rw [move, lower, move_lower k callee, moveAll_lower k args]; rfl

theorem moveAll_lower (k : Nat) : ∀ ss : List Node, moveAll (Position.lower k) ss = lowerAll k ss
  | [] => rfl
  | s :: ss => by rw [moveAll, lowerAll, move_lower k s, moveAll_lower k ss]

end

/-- Further down a tree is the same up to tokens. -/
theorem bare_lower (k : Nat) (n : Node) : (n.lower k).bare = n.bare := by
  rw [← move_lower, bare_move]

end Node

/-- The diagnostic so many lines further down. -/
def Diagnostic.lower (k : Nat) (d : Diagnostic) : Diagnostic :=
  ⟨d.problem, d.position.lower k⟩

end Monkey
