import Monkey.Tree

/-!
# What holds throughout a tree

`Node.all p` says that every node of a tree satisfies `p`, the bodies of functions included. Then the children satisfy
it throughout as well (`Node.all_of_mem_children`), so it holds of whatever part of the tree evaluation gets to.
-/

namespace Monkey.Node

/-- The nodes right below a node. -/
def children : Node → List Node
  | .hole | .unknown _ | .identifier _ | .integer _ _ | .boolean _ _ => []
  | .program ss | .block _ ss => ss
  | .letStatement _ _ n | .returnStatement _ n | .expressionStatement _ n | .unary _ _ n | .function _ _ n => [n]
  | .binary _ left _ right => [left, right]
  | .conditional _ c t e => [c, t, e]
  | .call _ callee args => callee :: args

mutual

/-- All nodes of a tree satisfy `p`. -/
def all (p : Node → Bool) : Node → Bool
  | .hole => p .hole
  | .unknown cls => p (.unknown cls)
  | .identifier id => p (.identifier id)
  | .integer t n => p (.integer t n)
  | .boolean t b => p (.boolean t b)
  | .program ss => p (.program ss) && allIn p ss
  | .block t ss => p (.block t ss) && allIn p ss
  | .letStatement t target value => p (.letStatement t target value) && value.all p
  | .returnStatement t value => p (.returnStatement t value) && value.all p
  | .expressionStatement t e => p (.expressionStatement t e) && e.all p
  | .unary t op operand => p (.unary t op operand) && operand.all p
  | .function t ps body => p (.function t ps body) && body.all p
  | .binary t left op right => p (.binary t left op right) && (left.all p && right.all p)
  | .conditional t c b e => p (.conditional t c b e) && (c.all p && (b.all p && e.all p))
  | .call t callee args => p (.call t callee args) && (callee.all p && allIn p args)

/-- All nodes of some trees satisfy `p`. -/
def allIn (p : Node → Bool) : List Node → Bool
  | [] => true
  | n :: ns => n.all p && allIn p ns

end

variable {p : Node → Bool} {n c : Node}

theorem allIn_eq (p : Node → Bool) (ns : List Node) : allIn p ns = ns.all (all p) := by
  induction ns with
  | nil => rfl
  | cons n ns ih => rw [allIn, List.all_cons, ih]

/-- A node, and then what is below it. -/
theorem all_eq (p : Node → Bool) (n : Node) : n.all p = (p n && n.children.all (all p)) := by
  cases n <;> simp [all, children, allIn_eq]

/-- A property holds everywhere in a tree if it holds of the root and everywhere below. -/
theorem all_of_children (hn : p n) (hc : ∀ c ∈ n.children, c.all p) : n.all p := by
  rw [all_eq, Bool.and_eq_true]
  exact ⟨hn, List.all_eq_true.2 hc⟩

theorem of_all (hn : n.all p) : p n := by
  rw [all_eq, Bool.and_eq_true] at hn
  exact hn.1

theorem all_of_mem_children (hn : n.all p) (hc : c ∈ n.children) : c.all p := by
  rw [all_eq, Bool.and_eq_true] at hn
  exact List.all_eq_true.1 hn.2 c hc

end Monkey.Node
