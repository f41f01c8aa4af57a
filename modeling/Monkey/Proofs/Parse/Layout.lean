import Monkey.Proofs.Parse.Greedy
import Monkey.Proofs.Parse.Moving
import Monkey.Proofs.Token.Layout

/-!
# Parsing looks at lexemes only

Texts with the same lexemes differ in the places of their tokens. Once all tokens stand at one place, the parsers of the
two texts are the same (`Parser.ofText_placeless_eq`), so the texts are parsed as the same but for places
(`parse_placeless_eq`): both are refused for the same reason, or they have trees that are the same up to tokens and the
same is reported in the same words (`parse_of_lexemesOf_eq`).
-/

namespace Monkey

/-- All places are the same. -/
def Position.forget : Position → Position :=
  fun _ => .start

/-- A parser on tokens that all stand at one place. -/
def Parser.placeless (p : Parser) : Parser :=
  { p with
    ahead := p.ahead.map (Token.move .forget)
    final := p.final.move .forget
    diagnostics := p.diagnostics.map (Diagnostic.move .forget) }

/-- What is read from a text, as if all tokens stood at one place. -/
def Parse.placeless (p : Parse) : Parse :=
  ⟨p.program.move .forget, p.diagnostics.map (Diagnostic.move .forget)⟩

theorem Parse.messages_placeless (p : Parse) : p.placeless.messages = p.messages :=
  List.map_map

theorem Parser.moved_placeless (p : Parser) : p.Moved .forget p.placeless :=
  ⟨rfl, rfl, rfl⟩

section

variable {text text' : String}

/-- The parsers of texts with the same lexemes are the same but for places. -/
theorem Parser.ofText_placeless_eq (h : lexemesOf text = lexemesOf text') :
    (Parser.ofText text).placeless = (Parser.ofText text').placeless := by
  have hahead (text : String) : (Parser.ofText text).ahead.map (Token.move .forget) =
      (lexemesOf text).map fun l => ⟨l.kind, l.literal, .start⟩ := by
    rw [lexemesOf, List.map_map]
    rfl
  have hfinal (text : String) : (Parser.ofText text).final.move .forget = ⟨.eof, "", .start⟩ := by
    have heof := (Cursor.read_of_eof (Cursor.kind_read_toEnd (Cursor.ofText text))).1
    exact congrArg (fun r => Token.move .forget r.1) heof
  rw [placeless, placeless, hahead, hahead, hfinal, hfinal, h]
  rfl

theorem Rule.parseOf_placeless {r r' : EStateM.Result Stop Parser (List Node)}
    (h : EndsMoved .forget (List.map (Node.move .forget)) r r') :
    parseOf r' = (parseOf r).map Parse.placeless := by
  cases h with
  | @ok ss q q' hq =>
    rw [parseOf, parseOf, hq.diagnostics, Array.toList_map, ← Node.moveAll_eq]
    rfl
  | @error why q q' hq =>
    cases why with
    | unreadable =>
      rw [parseOf, parseOf, hq.diagnostics, Array.toList_map]
      rfl
    | refused why => rfl

/-- **Texts with the same lexemes are parsed as the same** but for places. -/
theorem parse_placeless_eq (h : lexemesOf text = lexemesOf text') :
    (parse text).map Parse.placeless = (parse text').map Parse.placeless := by
  let n := (Parser.ofText text).allowance + (Parser.ofText text').allowance
  have hparse (text : String) (hn : (Parser.ofText text).allowance ≤ n) : (parse text).map Parse.placeless =
      Rule.parseOf (Rule.programStatements n (Rule.entering (Parser.ofText text).placeless)) := by
    have hmoved := (Parser.moved_placeless (.ofText text)).entering
    rw [Rule.parse_eq text hn, ← Rule.parseOf_placeless (Rule.moves_programStatements hmoved)]
  rw [hparse text (Nat.le_add_right _ _), hparse text' (Nat.le_add_left _ _), Parser.ofText_placeless_eq h]

/-- A text that has the lexemes of one that is parsed is parsed too, into a tree that is the same up to tokens, and the
same is reported. -/
theorem parse_of_lexemesOf_eq {p : Parse} (h : lexemesOf text' = lexemesOf text) (hp : parse text = .ok p) :
    ∃ p', parse text' = .ok p' ∧ p'.program.bare = p.program.bare ∧ p'.messages = p.messages := by
  have hplaceless := parse_placeless_eq h
  rw [hp] at hplaceless
  cases hp' : parse text' with
  | error why =>
    rw [hp'] at hplaceless
    cases hplaceless
  | ok p' =>
    rw [hp'] at hplaceless
    have heq : p'.placeless = p.placeless := Except.ok.inj hplaceless
    refine ⟨p', rfl, ?_, ?_⟩
    · rw [← Node.bare_move .forget, ← Node.bare_move .forget p.program]
      exact congrArg (fun q => q.program.bare) heq
    · rw [← p'.messages_placeless, heq, p.messages_placeless]

end

end Monkey
