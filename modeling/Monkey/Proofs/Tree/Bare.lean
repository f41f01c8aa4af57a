import Monkey.Tree.Text

/-!
# Trees up to tokens

`Node.bare` forgets the tokens of a tree: two trees are the same up to tokens if they are the same when bare. The text
of a tree does not depend on its tokens (`Node.text_eq_of_bare_eq`).
-/

namespace Monkey

/-- The token of a node of which the token does not matter. -/
def Token.blank : Token :=
  ⟨.illegal, "", .start⟩

/-- A name without its token. -/
def Identifier.bare (id : Identifier) : Identifier :=
  ⟨.blank, id.name⟩

namespace Node

mutual

/-- A tree without its tokens. -/
def bare : Node → Node
  | .hole => .hole
  | .unknown cls => .unknown cls
  | .program ss => .program (bareAll ss)
  | .letStatement _ target value => .letStatement .blank target.bare value.bare
  | .returnStatement _ value => .returnStatement .blank value.bare
  | .expressionStatement _ e => .expressionStatement .blank e.bare
  | .block _ ss => .block .blank (bareAll ss)
  | .identifier id => .identifier id.bare
  | .integer _ n => .integer .blank n
  | .boolean _ b => .boolean .blank b
  | .unary _ op operand => .unary .blank op operand.bare
  | .binary _ left op right => .binary .blank left.bare op right.bare
  | .conditional _ c t e => .conditional .blank c.bare t.bare e.bare
  | .function _ ps body => .function .blank (ps.map Identifier.bare) body.bare
  | .call _ callee args => .call .blank callee.bare (bareAll args)

/-- Trees without their tokens. -/
def bareAll : List Node → List Node
  | [] => []
  | s :: ss => s.bare :: bareAll ss

end

theorem bareAll_eq : ∀ ss : List Node, bareAll ss = ss.map bare
  | [] => rfl
  | s :: ss => congrArg (s.bare :: ·) (bareAll_eq ss)

/-! ## Texts of nodes whose shape depends on a child -/

/-- A `return` with a value writes the value. -/
theorem text_return {t : Token} {value : Node} (h : value ≠ .hole) :
    (Node.returnStatement t value).text = "return " ++ value.text ++ ";" := by
  cases value <;> first | exact absurd rfl h | simp only [text]

/-- An `if` with an `else` writes both blocks. -/
theorem text_conditional {t : Token} {c b a : Node} (h : a ≠ .hole) :
    (Node.conditional t c b a).text = "if (" ++ c.text ++ ") " ++ b.text ++ " else " ++ a.text := by
  cases a <;> first | exact absurd rfl h | simp only [text]

/-- What stands between a statement and the next one. -/
def separator : Node → String
  | .expressionStatement .. => "; "
  | _ => " "

/-- Statements in a row are written with what parts the first one from the rest. -/
theorem sequenceText_cons (s s' : Node) (ss : List Node) :
    sequenceText (s :: s' :: ss) = s.text ++ s.separator ++ sequenceText (s' :: ss) := by
  cases s <;> simp only [sequenceText, text, separator]

/-! ## Texts of bare trees -/

theorem bare_ne_hole {n : Node} (h : n ≠ .hole) : n.bare ≠ .hole := by
  cases n <;> first | exact absurd rfl h | nofun

/-- What parts a statement from the next one does not depend on its tokens. -/
theorem separator_bare (n : Node) : n.bare.separator = n.separator := by
  cases n <;> rfl

/-- Parameters have the same names without their tokens. -/
theorem names_bare (ps : List Identifier) : (ps.map Identifier.bare).map Identifier.name = ps.map Identifier.name := by
  rw [List.map_map]
  rfl

mutual

/-- **The text of a tree does not depend on its tokens.** The three facts go by one recursion over trees. -/
theorem text_bare : ∀ n : Node, n.bare.text = n.text
  | .hole | .unknown _ | .identifier _ | .integer _ _ | .boolean _ _ => by simp only [bare, text, Identifier.bare]
  | .program ss => by simp only [bare, text, sequenceText_bareAll ss]
  | .letStatement _ target value => by simp only [bare, text, text_bare value, Identifier.bare]
  | .returnStatement _ value => by
    by_cases h : value = .hole
    · subst h
      simp only [bare, text]
    · rw [bare, text_return (bare_ne_hole h), text_return h, text_bare value]
  | .expressionStatement _ e => by simp only [bare, text, text_bare e]
  | .block _ [] => by simp only [bare, bareAll, text]
  | .block _ (s :: ss) => by
    have hss := sequenceText_bareAll (s :: ss)
    simp only [bareAll] at hss
    simp only [bare, bareAll, text, hss]
  | .unary _ op operand => by simp only [bare, text, text_bare operand]
  | .binary _ left op right => by simp only [bare, text, text_bare left, text_bare right]
  | .conditional _ c b a => by
    by_cases h : a = .hole
    · subst h
      simp only [bare, text, text_bare c, text_bare b]
    · rw [bare, text_conditional (bare_ne_hole h), text_conditional h, text_bare c, text_bare b, text_bare a]
  | .function _ ps body => by simp only [bare, text, names_bare, text_bare body]
  | .call _ callee args => by simp only [bare, text, text_bare callee, argumentsText_bareAll args]

theorem sequenceText_bareAll : ∀ ss : List Node, sequenceText (bareAll ss) = sequenceText ss
  | [] => by simp only [bareAll]
  | [s] => by simp only [bareAll, sequenceText, text_bare s]
  | s :: s' :: ss => by
    have hss := sequenceText_bareAll (s' :: ss)
    rw [bareAll, bareAll] at *
    rw [sequenceText_cons, sequenceText_cons, text_bare s, separator_bare, hss]

theorem argumentsText_bareAll : ∀ as : List Node, argumentsText (bareAll as) = argumentsText as
  | [] => by simp only [bareAll]
  | [a] => by simp only [bareAll, argumentsText, text_bare a]
  | a :: a' :: as => by
    have has := argumentsText_bareAll (a' :: as)
    simp only [bareAll] at has
    simp only [bareAll, argumentsText, text_bare a, has]

end

/-- Trees that are the same up to tokens have the same text. -/
theorem text_eq_of_bare_eq {m n : Node} (h : m.bare = n.bare) : m.text = n.text := by
  rw [← text_bare m, h, text_bare]

end Node

end Monkey
