import Monkey.Proofs.Eval.Bare
import Monkey.Proofs.Parse.Layout

/-!
# Layout does not matter

Blanks between the lexemes of a text tell where a lexeme ends, and nothing more. With other blanks in their place, or
with blanks where there were none, the text has the same lexemes, it is parsed as the same but for the places of tokens,
and nothing that is shown of a program depends on these: neither its text nor what is reported, nor the value that it
has, nor what it binds (`relaid_same`).
-/

namespace Monkey

/-- Two evaluations end in the same way and show the same: what they give and what they leave differs at most in the
tokens that are kept in functions. -/
inductive Eval.ShowsSame : EStateM.Result Halt Heap Value → EStateM.Result Halt Heap Value → Prop
  | ok {v v' h h'} : v.tag = v'.tag → v.inspect = v'.inspect → v.bare = v'.bare → h.bare = h'.bare →
    (∀ i, (h.bindingsOf i).map (Prod.map id Value.inspect) = (h'.bindingsOf i).map (Prod.map id Value.inspect)) →
    ShowsSame (.ok v h) (.ok v' h')
  | error {why h h'} : h.bare = h'.bare →
    (∀ i, (h.bindingsOf i).map (Prod.map id Value.inspect) = (h'.bindingsOf i).map (Prod.map id Value.inspect)) →
    ShowsSame (.error why h) (.error why h')

/-- Trees that are the same up to tokens show the same wherever they are evaluated. -/
theorem Eval.showsSame_of_bare_eq {n n' : Node} (hn : n.bare = n'.bare) (depth : Nat) (scope : ScopeId) (h : Heap) :
    ShowsSame (eval depth n scope h) (eval depth n' scope h) := by
  obtain ⟨v, v', h₁, h₁', hr, hr', hv, hh⟩ | ⟨why, h₁, h₁', hr, hr', hh⟩ :=
    withoutTokens_eq_cases (withoutTokens_eval_eq hn depth scope h)
  · rw [hr, hr']
    refine .ok ?_ ?_ hv hh (Heap.bindingsOf_of_bare_eq hh)
    · rw [← v.tag_bare, hv, v'.tag_bare]
    · rw [← v.inspect_bare, hv, v'.inspect_bare]
  · rw [hr, hr']
    exact .error hh (Heap.bindingsOf_of_bare_eq hh)

/-- **Layout does not matter.** A text in which digits never stand in a row for longer than they are read, and the same
words with other blanks: the kinds and literals of the tokens are the same, both texts are parsed, the programs have the
same text, the same is reported in the same words, and in whatever scope of whatever heap the programs are evaluated,
and to whatever depth, they give the same and bind the same. -/
theorem relaid_same {text text' : String} (h : Relaid text text')
    (hdigits : ∀ ds, ds <:+: text.toList → (∀ c ∈ ds, isDigit c) → ds.length ≤ maxDigits) :
    (Cursor.ofText text').tokens.map Token.lexeme = (Cursor.ofText text).tokens.map Token.lexeme ∧
      ∃ p p', parse text = .ok p ∧ parse text' = .ok p' ∧ p'.program.text = p.program.text ∧
        p'.messages = p.messages ∧
        ∀ depth scope h, Eval.ShowsSame (eval depth p'.program scope h) (eval depth p.program scope h) := by
  have hlexemes := lexemesOf_eq_of_relaid h
  obtain ⟨p, hp⟩ := (shortNumerals_lexemesOf hdigits).parse_ok
  obtain ⟨p', hp', hbare, hmessages⟩ := parse_of_lexemesOf_eq hlexemes hp
  refine ⟨?_, p, p', hp, hp', Node.text_eq_of_bare_eq hbare, hmessages, Eval.showsSame_of_bare_eq hbare⟩
  rw [lexemes_tokens, lexemes_tokens, hlexemes]

/-- Other blanks where there have been some, and blanks where there have been none, also at both ends of the text. -/
theorem relaid_same_spaced :
    Relaid "let x=1; x==1" "\tlet  x = 1 ;\r\nx == 1 " ∧
      (∀ ds, ds <:+: "let x=1; x==1".toList → (∀ c ∈ ds, isDigit c) → ds.length ≤ maxDigits) ∧
      (Cursor.ofText "\tlet  x = 1 ;\r\nx == 1 ").tokens.map Token.lexeme =
        (Cursor.ofText "let x=1; x==1").tokens.map Token.lexeme ∧
      ∃ p p', parse "let x=1; x==1" = .ok p ∧ parse "\tlet  x = 1 ;\r\nx == 1 " = .ok p' ∧
        p'.program.text = p.program.text ∧ p'.messages = p.messages ∧
        ∀ depth scope h, Eval.ShowsSame (eval depth p'.program scope h) (eval depth p.program scope h) := by
  have hwords : (lexemesOf "let x=1; x==1").map Lexeme.literal = ["let", "x", "=", "1", ";", "x", "==", "1"] := by
    decide +kernel
  have htext : "let x=1; x==1".toList = [] ++ "let".toList ++ ([' '] ++ "x".toList ++ ([] ++ "=".toList ++
      ([] ++ "1".toList ++ ([] ++ ";".toList ++ ([' '] ++ "x".toList ++ ([] ++ "==".toList ++
      ([] ++ "1".toList ++ []))))))) := by
    decide +kernel
  have htext' : "\tlet  x = 1 ;\r\nx == 1 ".toList = ['\t'] ++ "let".toList ++ ([' ', ' '] ++ "x".toList ++
      ([' '] ++ "=".toList ++ ([' '] ++ "1".toList ++ ([' '] ++ ";".toList ++ (['\r', '\n'] ++ "x".toList ++
      ([' '] ++ "==".toList ++ ([' '] ++ "1".toList ++ [' ']))))))) := by
    decide +kernel
  have h : Relaid "let x=1; x==1" "\tlet  x = 1 ;\r\nx == 1 " := by
    rw [Relaid, hwords, htext, htext']
    have hone : Gap [] [' '] := by simp [Gap, isBlank]
    have hmore : Gap [' '] [' ', ' '] ∧ Gap [' '] ['\r', '\n'] ∧ Gap [] ['\t'] := by simp [Gap, isBlank]
    exact .word hmore.2.2 (.word hmore.1 (.word hone (.word hone (.word hone
      (.word hmore.2.1 (.word hone (.word hone (.blanks hone))))))))
  have hdigits : ∀ ds, ds <:+: "let x=1; x==1".toList → (∀ c ∈ ds, isDigit c) → ds.length ≤ maxDigits :=
    fun ds hds _ => Nat.le_trans hds.length_le (by decide)
  exact ⟨h, hdigits, relaid_same h hdigits⟩

end Monkey
