import Monkey.Proofs.Parse.Printing
import Monkey.Tree.Text

/-!
# Texts of trees are read back

The text of a well-formed tree is one of its printings, with single spaces where the tree's text has them, so it is
parsed as the tree. Conversely every text that is parsed without reports gives a well-formed tree, whose own text is a
normal form of it.

* `Node.IsExpression.rendering`: the text of an expression is cut into the words of a printing.
* `Reading.Statements.areStatements`: what is read is well-formed.
* `parse_text_of_isProgram`: parsing the text of a well-formed tree gives the tree.
-/

namespace Monkey

/-! ## Words in a text -/

/-- No word goes on where `cs` follows, and no operator of two characters arises. -/
def Delimited (cs : List Char) : Prop :=
  ∀ d ∈ cs.head?, d ≠ '=' ∧ isLetter d = false ∧ isDigit d = false

/-- Before a delimiter any word ends. -/
theorem Delimited.parts {cs : List Char} (h : Delimited cs) (c : Char) : Parts c cs := by
  intro d hd
  obtain ⟨hne, hletter, hdigit⟩ := h d hd
  exact ⟨by simp [TokenKind.pair?, hne], by simp [hletter], by simp [hdigit]⟩

/-- A symbol that is never part of another lexeme. -/
def IsSymbol (c : Char) : Prop :=
  c ≠ '=' ∧ c ≠ '!' ∧ isLetter c = false ∧ isDigit c = false

instance (c : Char) : Decidable (IsSymbol c) :=
  inferInstanceAs (Decidable (_ ∧ _))

/-- A symbol ends whatever follows it. -/
theorem IsSymbol.parts {c : Char} (h : IsSymbol c) (cs : List Char) : Parts c cs := by
  intro d _
  obtain ⟨h₁, h₂, hletter, hdigit⟩ := h
  exact ⟨by simp [TokenKind.pair?, h₁, h₂], by simp [hletter], by simp [hdigit]⟩

/-- A character that goes on no word is a delimiter. -/
theorem delimited_cons {c : Char} (h : c ≠ '=' ∧ isLetter c = false ∧ isDigit c = false) (cs : List Char) :
    Delimited (c :: cs) := by
  rintro d ⟨⟩
  exact h

namespace Scans

variable {w : String} {cs : List Char} {ls : List Lexeme}

/-- A word before a delimiter is the first lexeme. -/
theorem delimited (hw : IsWord w) (hcs : Delimited cs) (h : Scans cs ls) :
    Scans (w.toList ++ cs) (.ofWord w :: ls) := by
  obtain ⟨c, ds, hc, -⟩ := id hw
  exact .word hw hc (hcs.parts c) h

/-- A word before a space is the first lexeme. -/
theorem spaced (hw : IsWord w) (h : Scans cs ls) : Scans (w.toList ++ ' ' :: cs) (.ofWord w :: ls) :=
  .delimited hw (delimited_cons (by decide) cs) (.blank rfl h)

/-- A symbol is the first lexeme, whatever follows it. -/
theorem symbol {c : Char} (hw : IsWord w) (hc : w.toList = [c]) (hsymbol : IsSymbol c) (h : Scans cs ls) :
    Scans (w.toList ++ cs) (.ofWord w :: ls) :=
  .word hw hc (hsymbol.parts cs) h

end Scans

/-! ## Numerals -/

/-- The value of a numeral is that of its decimal digits. -/
theorem numeralValue_eq (s : String) : numeralValue s = Nat.ofDigitChars 10 s.toList 0 := by
  rw [numeralValue, ofDigits, List.foldl_map, Nat.ofDigitChars_eq_foldl]

/-- A number in range is written as a numeral that can be read. -/
theorem isNumeral_repr {n : Nat} (h : n ≤ 0x7FFFFFFFFFFFFFFF) : IsNumeral n.repr n where
  ne_empty := Nat.repr_ne_empty
  digits := by
    intro c hc
    rw [Nat.toList_repr] at hc
    exact Nat.isDigit_of_mem_toDigits (by decide) (by decide) hc
  length_le := by
    have hlen : (Nat.toDigits 10 n).length ≤ 19 := (Nat.length_toDigits_le_iff (by decide) (by decide)).2 (by omega)
    rw [← String.length_toList, Nat.toList_repr]
    exact Nat.le_trans hlen (by decide)
  value := by rw [numeralValue_eq, Nat.toList_repr, Nat.ofDigitChars_toDigits (by decide) (by decide)]

theorem toString_natCast (n : Nat) : toString (n : Int) = n.repr := rfl

/-! ## Texts of expressions are printings -/

/-- The characters do not begin with an equality sign, which would join an operator before it. -/
def Unjoined (cs : List Char) : Prop :=
  ∀ d ∈ cs.head?, d ≠ '='

/-- A text that begins with no equality sign is joined to no operator before it. -/
theorem unjoined_append {w : String} {c : Char} {ds : List Char} (hw : w.toList = c :: ds) (hc : c ≠ '=')
    (cs : List Char) : Unjoined (w.toList ++ cs) := by
  rw [hw]
  rintro d ⟨⟩
  exact hc

namespace Node

theorem IsBlock.ne_hole {b : Node} (h : b.IsBlock) : b ≠ .hole := by
  cases h
  nofun

theorem IsExpression.ne_hole {e : Node} (h : e.IsExpression) : e ≠ .hole := by
  cases h <;> nofun

/-- **The text of an expression begins with no equality sign**, so an operator before it stays one of one character. -/
theorem IsExpression.unjoined : ∀ {e : Node}, e.IsExpression → ∀ cs, Unjoined (e.text.toList ++ cs)
  | _, @IsExpression.identifier id hname, cs => by
    obtain ⟨c, ds, hc, -⟩ := hname.isWord
    have hletter := hname.letters c (by rw [hc]; exact List.mem_cons_self)
    rw [text]
    exact unjoined_append hc (by rintro rfl; exact absurd hletter (by decide)) cs
  | _, .integer h₀ h₁, cs => by
    obtain ⟨n, rfl⟩ := Int.eq_ofNat_of_zero_le h₀
    have hnum := isNumeral_repr (n := n) (by omega)
    obtain ⟨c, ds, hc, -⟩ := (isWord_of_digits hnum.ne_empty hnum.digits).1
    have hdigit := hnum.digits c (by rw [hc]; exact List.mem_cons_self)
    rw [text, toString_natCast]
    exact unjoined_append hc (by rintro rfl; exact absurd hdigit (by decide)) cs
  | _, @IsExpression.boolean _ b, cs => by
    rw [text]
    cases b
    · exact unjoined_append (w := "false") rfl (by decide) cs
    · exact unjoined_append (w := "true") rfl (by decide) cs
  | _, .unary _ _, cs => by
    simp only [text, String.toList_append, List.append_assoc]
    exact unjoined_append (w := "(") rfl (by decide) _
  | _, .binary _ _ _, cs => by
    simp only [text, String.toList_append, List.append_assoc]
    exact unjoined_append (w := "(") rfl (by decide) _
  | _, .ifThen _ _, cs => by
    simp only [text, String.toList_append, List.append_assoc]
    exact unjoined_append (w := "if (") rfl (by decide) _
  | _, .ifThenElse _ _ ha, cs => by
    simp only [text_conditional ha.ne_hole, String.toList_append, List.append_assoc]
    exact unjoined_append (w := "if (") rfl (by decide) _
  | _, .function _ _, cs => by
    simp only [text, String.toList_append, List.append_assoc]
    exact unjoined_append (w := "fn(") rfl (by decide) _
  | _, .call h _, cs => by
    simp only [text, String.toList_append, List.append_assoc]
    exact h.unjoined _

end Node

/-! ## Texts and their words -/

/-- The text is cut into the words before characters of which `P` holds. -/
def Spells (P : List Char → Prop) (text : String) (ws : List String) : Prop :=
  ∀ cs ls, P cs → Scans cs ls → Scans (text.toList ++ cs) (ws.map .ofWord ++ ls)

/-- Any characters may follow. -/
def Anything : List Char → Prop :=
  fun _ => True

/-- A delimiter comes first in the text. -/
def Delimits (text : String) : Prop :=
  ∀ cs, Delimited (text.toList ++ cs)

theorem Delimits.of_head {text : String} {c : Char} {cs : List Char} (h : text.toList = c :: cs)
    (hc : c ≠ '=' ∧ isLetter c = false ∧ isDigit c = false) : Delimits text := by
  intro ds
  rw [h]
  exact delimited_cons hc _

/-- A text begins with a delimiter if its first part does. -/
theorem Delimits.append {text : String} {c : Char} {cs : List Char} (h : text.toList = c :: cs)
    (hc : c ≠ '=' ∧ isLetter c = false ∧ isDigit c = false) (text' : String) : Delimits (text ++ text') := by
  intro ds
  rw [String.toList_append, h]
  exact delimited_cons hc _

section Spelling

variable {P Q : List Char → Prop} {w text text' : String} {ws ws' : List String}

/-- What is spelt before anything is spelt before a delimiter. -/
theorem Spells.delimited (h : Spells Anything text ws) : Spells Delimited text ws :=
  fun cs ls _ => h cs ls trivial

/-- Texts are joined as their words are, if the first one ends by itself. -/
theorem Spells.then (h : Spells Anything text ws) (h' : Spells P text' ws') : Spells P (text ++ text') (ws ++ ws') := by
  intro cs ls hcs hls
  rw [String.toList_append, List.map_append, List.append_assoc, List.append_assoc]
  exact h _ _ trivial (h' cs ls hcs hls)

/-- Texts are joined as their words are, if the second one begins with a delimiter. -/
theorem Spells.before (h : Spells Delimited text ws) (hdelimits : Delimits text') (h' : Spells P text' ws') :
    Spells P (text ++ text') (ws ++ ws') := by
  intro cs ls hcs hls
  rw [String.toList_append, List.map_append, List.append_assoc, List.append_assoc]
  exact h _ _ (hdelimits cs) (h' cs ls hcs hls)

theorem spells_nil : Spells P "" [] :=
  fun _ _ _ hls => hls

theorem IsWord.spells (h : IsWord w) : Spells Delimited w [w] :=
  fun _ _ hcs hls => .delimited h hcs hls

theorem IsWord.spells_symbol {c : Char} (h : IsWord w) (hc : w.toList = [c]) (hsymbol : IsSymbol c) :
    Spells Anything w [w] :=
  fun _ _ _ hls => .symbol h hc hsymbol hls

end Spelling

section Literals

theorem spells_lparen : Spells Anything "(" ["("] :=
  IsWord.spells_symbol ⟨_, _, rfl, rfl, rfl⟩ rfl (by decide)

theorem spells_rparen : Spells Anything ")" [")"] :=
  IsWord.spells_symbol ⟨_, _, rfl, rfl, rfl⟩ rfl (by decide)

theorem spells_semicolon : Spells Anything ";" [";"] :=
  IsWord.spells_symbol ⟨_, _, rfl, rfl, rfl⟩ rfl (by decide)

theorem spells_space : Spells Anything " " [] :=
  fun _ _ _ hls => .blank rfl hls

theorem spells_rparen_space : Spells Anything ") " [")"] :=
  fun _ _ _ hls => .spaced (w := ")") ⟨_, _, rfl, rfl, rfl⟩ hls

theorem spells_semicolon_space : Spells Anything "; " [";"] :=
  fun _ _ _ hls => .spaced (w := ";") ⟨_, _, rfl, rfl, rfl⟩ hls

theorem spells_comma_space : Spells Anything ", " [","] :=
  fun _ _ _ hls => .spaced (w := ",") ⟨_, _, rfl, rfl, rfl⟩ hls

theorem spells_assign : Spells Anything " = " ["="] :=
  fun _ _ _ hls => .blank rfl (.spaced (w := "=") ⟨_, _, rfl, rfl, rfl⟩ hls)

theorem spells_let : Spells Anything "let " ["let"] :=
  fun _ _ _ hls => .spaced (w := "let") ⟨_, _, rfl, rfl, rfl⟩ hls

theorem spells_return : Spells Anything "return " ["return"] :=
  fun _ _ _ hls => .spaced (w := "return") ⟨_, _, rfl, rfl, rfl⟩ hls

theorem spells_return_nothing : Spells Anything "return;" ["return", ";"] :=
  fun cs ls _ hls => @Scans.delimited "return" (';' :: cs) _ ⟨_, _, rfl, rfl, rfl⟩ (delimited_cons (by decide) cs)
    (spells_semicolon cs ls trivial hls)

theorem spells_if : Spells Anything "if (" ["if", "("] :=
  fun cs ls _ hls => .spaced (w := "if") ⟨_, _, rfl, rfl, rfl⟩ (spells_lparen cs ls trivial hls)

theorem spells_else : Spells Anything " else " ["else"] :=
  fun _ _ _ hls => .blank rfl (.spaced (w := "else") ⟨_, _, rfl, rfl, rfl⟩ hls)

theorem spells_fn : Spells Anything "fn(" ["fn", "("] :=
  fun cs ls _ hls => @Scans.delimited "fn" ('(' :: cs) _ ⟨_, _, rfl, rfl, rfl⟩ (delimited_cons (by decide) cs)
    (spells_lparen cs ls trivial hls)

theorem spells_lbrace : Spells Anything "\x7b " ["\x7b"] :=
  fun _ _ _ hls => .spaced (w := "\x7b") ⟨_, _, rfl, rfl, rfl⟩ hls

theorem spells_rbrace : Spells Anything " \x7d" ["\x7d"] :=
  fun _ _ _ hls => .blank rfl (.symbol (w := "\x7d") ⟨_, _, rfl, rfl, rfl⟩ rfl (by decide) hls)

theorem spells_braces : Spells Anything "\x7b \x7d" ["\x7b", "\x7d"] :=
  fun cs ls _ hls => .spaced (w := "\x7b") ⟨_, _, rfl, rfl, rfl⟩
    (.symbol (w := "\x7d") ⟨_, _, rfl, rfl, rfl⟩ rfl (by decide) hls)

end Literals

/-! ## The text of a tree is a printing -/

/-- A prefix operator is a word of its own, since no expression begins with an equality sign. -/
theorem spells_unary {P : List Char → Prop} {op : UnaryOp} {text : String} {ws : List String} (hop : op ∈ UnaryOp.known)
    (hun : ∀ cs, Unjoined (text.toList ++ cs)) (h : Spells P text ws) :
    Spells P (op.symbol ++ text) (op.symbol :: ws) := by
  simp only [UnaryOp.known, List.mem_cons, List.not_mem_nil, or_false] at hop
  intro cs ls hcs hls
  rw [String.toList_append, List.append_assoc]
  rcases hop with rfl | rfl
  · refine .word (w := "!") ⟨_, _, rfl, rfl, rfl⟩ rfl (fun d hd => ?_) (h cs ls hcs hls)
    exact ⟨by simp [TokenKind.pair?, hun cs d hd], fun h => absurd h.1 (by decide), fun h => absurd h.1 (by decide)⟩
  · exact .symbol (w := "-") ⟨_, _, rfl, rfl, rfl⟩ rfl (by decide) (h cs ls hcs hls)

/-- Names with commas between them are spelt as the words of parameters. -/
theorem spells_parameters {ps : List Identifier} (h : ∀ p ∈ ps, IsName p.name) :
    Spells Delimited (", ".intercalate (ps.map Identifier.name)) (Printing.parameters ps) := by
  induction ps with
  | nil => exact spells_nil
  | cons p ps ih =>
    obtain ⟨hp, hps⟩ := List.forall_mem_cons.1 h
    cases ps with
    | nil =>
      rw [List.map_cons, List.map_nil, String.intercalate_singleton]
      exact hp.isWord.spells
    | cons q ps =>
      rw [List.map_cons, List.map_cons, String.intercalate_cons_cons, String.append_assoc]
      exact hp.isWord.spells.before (.append rfl (by decide) _) (spells_comma_space.then (ih hps))

/-- Behind a comma the arguments of a call are those that follow another one. -/
theorem Printing.Arguments.more {a : Node} {as : List Node} {ws : List String} (h : Arguments (a :: as) ws) :
    MoreArguments (a :: as) ("," :: ws) := by
  cases h with
  | cons h hmore => exact .cons h hmore

namespace Node

/-- A statement that brings its own semicolon, by itself and before another one. -/
theorem rendering_of_terminated {s : Node} {ws : List String} (hsep : s.separator = " ") (h : Printing.Statement s ws)
    (hs : Spells Anything s.text ws) :
    (∃ ws, Printing.Statement s ws ∧ Spells Anything (s.text ++ s.separator) ws) ∧
      ∃ ws, Printing.Statements [s] ws ∧ Spells Delimited s.text ws := by
  have hspace := hs.then spells_space
  rw [List.append_nil, ← hsep] at hspace
  have hlast := Printing.Statements.cons h .nil
  rw [List.append_nil] at hlast
  exact ⟨⟨ws, h, hspace⟩, ws, hlast, hs.delimited⟩

mutual

/-- The text of an expression is cut into the words of a printing, and operations are enclosed by it. -/
theorem IsExpression.rendering : ∀ {e : Node}, e.IsExpression → ∃ b ws, Printing.Expression b e ws ∧
    (e.operator? ≠ none ∨ e.isPrefix → b = true) ∧ Spells Delimited e.text ws
  | _, .identifier hname => ⟨false, _, .identifier hname, nofun, hname.isWord.spells⟩
  | _, .integer h₀ h₁ => by
    obtain ⟨n, rfl⟩ := Int.eq_ofNat_of_zero_le h₀
    have hnum := isNumeral_repr (n := n) (by omega)
    exact ⟨false, _, .integer hnum (by omega), nofun, (isWord_of_digits hnum.ne_empty hnum.digits).1.spells⟩
  | _, @IsExpression.boolean _ b => by
    cases b
    · exact ⟨false, _, .false, nofun, IsWord.spells (w := "false") ⟨_, _, rfl, rfl, rfl⟩⟩
    · exact ⟨false, _, .true, nofun, IsWord.spells (w := "true") ⟨_, _, rfl, rfl, rfl⟩⟩
  | _, @IsExpression.unary t op e hop h => by
    obtain ⟨b, ws, hp, hb, hs⟩ := h.rendering
    refine ⟨true, _, .enclosed (.unary hop hp fun h => hb (.inl h)), fun _ => rfl, Spells.delimited ?_⟩
    have hun cs : Unjoined ((e.text ++ ")").toList ++ cs) := by
      rw [String.toList_append, List.append_assoc]
      exact h.unjoined _
    rw [text, String.append_assoc, String.append_assoc]
    exact spells_lparen.then (spells_unary hop hun (hs.before (.of_head rfl (by decide)) spells_rparen))
  | _, @IsExpression.binary t l op r h hop h' => by
    obtain ⟨b, ws, hp, hb, hs⟩ := h.rendering
    obtain ⟨b', ws', hp', hb', hs'⟩ := h'.rendering
    have hright : Spells Anything (" " ++ (op.symbol ++ (" " ++ (r.text ++ ")")))) (op.symbol :: (ws' ++ [")"])) :=
      spells_space.then ((Printing.isWord_symbol_binary hop).spells.before (.append rfl (by decide) _)
        (spells_space.then (hs'.before (.of_head rfl (by decide)) spells_rparen)))
    have hwhole := spells_lparen.then (hs.before (.append rfl (by decide) _) hright)
    refine ⟨true, _, .enclosed (.binary hop hp (fun op' hop' _ => hb (.inl (by simp [hop']))) hp' fun op' hop' _ =>
      hb' (.inl (by simp [hop']))), fun _ => rfl, Spells.delimited ?_⟩
    simpa only [text, String.append_assoc, List.append_assoc, List.cons_append, List.nil_append] using hwhole
  | _, .ifThen h hb => by
    obtain ⟨b, ws, hp, -, hs⟩ := h.rendering
    obtain ⟨ws', hp', hs'⟩ := hb.rendering
    refine ⟨false, _, .ifThen hp hp', nofun, Spells.delimited ?_⟩
    rw [text, String.append_assoc, String.append_assoc]
    exact spells_if.then (hs.before (.append rfl (by decide) _) (spells_rparen_space.then hs'))
  | _, .ifThenElse h hb ha => by
    obtain ⟨b, ws, hp, -, hs⟩ := h.rendering
    obtain ⟨ws₁, hp₁, hs₁⟩ := hb.rendering
    obtain ⟨ws₂, hp₂, hs₂⟩ := ha.rendering
    refine ⟨false, _, .ifThenElse hp hp₁ hp₂, nofun, Spells.delimited ?_⟩
    rw [text_conditional ha.ne_hole, String.append_assoc, String.append_assoc, String.append_assoc, String.append_assoc]
    exact spells_if.then (hs.before (.append rfl (by decide) _)
      (spells_rparen_space.then (hs₁.then (spells_else.then hs₂))))
  | _, .function hps hb => by
    obtain ⟨ws, hp, hs⟩ := hb.rendering
    refine ⟨false, _, .function hps hp, nofun, Spells.delimited ?_⟩
    rw [text, String.append_assoc, String.append_assoc]
    exact spells_fn.then ((spells_parameters hps).before (.append rfl (by decide) _) (spells_rparen_space.then hs))
  | _, .call h hargs => by
    obtain ⟨b, ws, hp, hb, hs⟩ := h.rendering
    obtain ⟨ws', hp', hs'⟩ := hargs.rendering
    refine ⟨false, _, .call hp hb hp', nofun, Spells.delimited ?_⟩
    rw [text, String.append_assoc, String.append_assoc]
    exact hs.before (.append rfl (by decide) _)
      (spells_lparen.then (hs'.before (.of_head rfl (by decide)) spells_rparen))

/-- The text of arguments is one of their printings. -/
theorem AreExpressions.rendering : ∀ {as : List Node}, AreExpressions as → ∃ ws, Printing.Arguments as ws ∧
    Spells Delimited (argumentsText as) ws
  | _, .nil => ⟨[], .nil, spells_nil⟩
  | _, @AreExpressions.cons a as h hmore => by
    obtain ⟨b, ws, hp, -, hs⟩ := h.rendering
    obtain ⟨ws', hp', hs'⟩ := hmore.rendering
    cases as with
    | nil =>
      refine ⟨ws ++ [], .cons hp .nil, ?_⟩
      rw [argumentsText, List.append_nil]
      exact hs
    | cons a' as =>
      refine ⟨ws ++ "," :: ws', .cons hp hp'.more, ?_⟩
      rw [argumentsText, String.append_assoc]
      · exact hs.before (.append rfl (by decide) _) (spells_comma_space.then hs')
      · nofun

/-- The text of a statement is one of its printings, with what parts it from the next one and without. -/
theorem IsStatement.rendering : ∀ {s : Node}, s.IsStatement →
    (∃ ws, Printing.Statement s ws ∧ Spells Anything (s.text ++ s.separator) ws) ∧
      ∃ ws, Printing.Statements [s] ws ∧ Spells Delimited s.text ws
  | _, .letStatement hname h => by
    obtain ⟨b, ws, hp, -, hs⟩ := h.rendering
    refine rendering_of_terminated rfl (.letStatement hname hp) ?_
    rw [text, String.append_assoc, String.append_assoc, String.append_assoc]
    exact spells_let.then (hname.isWord.spells.before (.append rfl (by decide) _)
      (spells_assign.then (hs.before (.of_head rfl (by decide)) spells_semicolon)))
  | _, .returnNothing => rendering_of_terminated rfl .returnNothing spells_return_nothing
  | _, .returnValue h => by
    obtain ⟨b, ws, hp, -, hs⟩ := h.rendering
    refine rendering_of_terminated rfl (.returnValue hp) ?_
    rw [text_return h.ne_hole, String.append_assoc]
    exact spells_return.then (hs.before (.of_head rfl (by decide)) spells_semicolon)
  | _, .expression h => by
    obtain ⟨b, ws, hp, -, hs⟩ := h.rendering
    refine ⟨⟨ws ++ [";"], .expression hp, ?_⟩, ws, .last hp, ?_⟩
    · rw [text, separator]
      exact hs.before (.of_head rfl (by decide)) spells_semicolon_space
    · rw [text]
      exact hs

/-- The text of statements in a row is one of their printings. -/
theorem AreStatements.rendering : ∀ {ss : List Node}, AreStatements ss → ∃ ws, Printing.Statements ss ws ∧
    Spells Delimited (sequenceText ss) ws
  | _, .nil => ⟨[], .nil, spells_nil⟩
  | _, @AreStatements.cons s ss h hss => by
    obtain ⟨⟨ws, hp, hs⟩, hlast⟩ := h.rendering
    obtain ⟨ws', hp', hs'⟩ := hss.rendering
    cases ss with
    | nil =>
      rw [sequenceText]
      exact hlast
    | cons s' ss =>
      refine ⟨ws ++ ws', .cons hp hp', ?_⟩
      rw [sequenceText_cons]
      exact hs.then hs'

/-- The text of a block is one of its printings, and its brace ends it. -/
theorem IsBlock.rendering : ∀ {b : Node}, b.IsBlock → ∃ ws, Printing.Block b ws ∧ Spells Anything b.text ws
  | _, @IsBlock.block t ss h => by
    obtain ⟨ws, hp, hs⟩ := h.rendering
    cases ss with
    | nil => exact ⟨_, .block .nil, spells_braces⟩
    | cons s ss =>
      refine ⟨_, .block hp, ?_⟩
      rw [text, String.append_assoc]
      · exact spells_lbrace.then (hs.before (.of_head rfl (by decide)) spells_rbrace)
      · nofun

end

end Node

/-! ## What is read is well-formed -/

/-- Every name among the lexemes is spelled as one. -/
def ValidNames (ls : List Lexeme) : Prop :=
  ∀ l ∈ ls, l.kind = .ident → IsName l.literal

theorem validNames_cons {l : Lexeme} {ls : List Lexeme} :
    ValidNames (l :: ls) ↔ (l.kind = .ident → IsName l.literal) ∧ ValidNames ls :=
  List.forall_mem_cons

theorem ValidNames.tail {l : Lexeme} {ls : List Lexeme} (h : ValidNames (l :: ls)) : ValidNames ls :=
  (validNames_cons.1 h).2

theorem ValidNames.head {s : String} {ls : List Lexeme} (h : ValidNames (⟨.ident, s⟩ :: ls)) : IsName s :=
  (validNames_cons.1 h).1 rfl

/-- What the text calls an identifier is a name. -/
theorem validNames_lexemesOf (text : String) : ValidNames (lexemesOf text) := by
  intro l hl hk
  obtain ⟨hne, hletters, hword⟩ := letters_of_mem_lexemesOf hl hk
  exact ⟨hne, hletters, TokenKind.word_eq_ident_iff.1 hword⟩

namespace Reading

/-- What is left behind the end of a statement holds names only, as before. -/
theorem Ending.validNames {ls rest : List Lexeme} (h : Ending ls rest) (hls : ValidNames ls) : ValidNames rest := by
  cases h with
  | semicolon => exact hls.tail
  | nothing => exact hls

/-- Parameters behind the first one are names. -/
theorem MoreParameters.areNames {ls rest : List Lexeme} {ps : List Identifier} (h : MoreParameters ls ps rest)
    (hls : ValidNames ls) : (∀ p ∈ ps, IsName p.name) ∧ ValidNames rest := by
  induction h with
  | close => exact ⟨nofun, hls.tail⟩
  | more _ ih =>
    obtain ⟨hps, hrest⟩ := ih hls.tail.tail
    exact ⟨List.forall_mem_cons.2 ⟨hls.tail.head, hps⟩, hrest⟩

/-- The parameters of a function are names. -/
theorem Parameters.areNames {ls rest : List Lexeme} {ps : List Identifier} (h : Parameters ls ps rest)
    (hls : ValidNames ls) : (∀ p ∈ ps, IsName p.name) ∧ ValidNames rest := by
  cases h with
  | close => exact ⟨nofun, hls.tail⟩
  | some h =>
    obtain ⟨hps, hrest⟩ := h.areNames hls.tail
    exact ⟨List.forall_mem_cons.2 ⟨hls.head, hps⟩, hrest⟩

/-- An operator that is read is one of the known ones. -/
theorem mem_known_of_binaryOp? {k : TokenKind} {op : BinaryOp} (h : k.binaryOp? = some op) : op ∈ BinaryOp.known := by
  cases k <;> cases h <;> decide

mutual

/-- **An operand that is read is an expression whose text can be read again.** The six facts go by one recursion over
readings. -/
theorem Operand.isExpression : ∀ {ls rest : List Lexeme} {e : Node}, Operand ls e rest → ValidNames ls →
    e.IsExpression ∧ ValidNames rest
  | _, _, _, .identifier, hls => ⟨.identifier hls.head, hls.tail⟩
  | _, _, _, .integer _ hmax, hls => ⟨.integer (by omega) (by rw [Rule.maxInteger] at hmax; omega), hls.tail⟩
  | _, _, _, .true, hls => ⟨.boolean, hls.tail⟩
  | _, _, _, .false, hls => ⟨.boolean, hls.tail⟩
  | _, _, _, .not h _, hls => by
    obtain ⟨he, hrest⟩ := h.isExpression hls.tail
    exact ⟨.unary (by decide) he, hrest⟩
  | _, _, _, .negate h _, hls => by
    obtain ⟨he, hrest⟩ := h.isExpression hls.tail
    exact ⟨.unary (by decide) he, hrest⟩
  | _, _, _, .group h, hls => by
    obtain ⟨he, hrest⟩ := h.isExpression hls.tail
    exact ⟨he, hrest.tail⟩
  | _, _, _, .ifThen hc h _, hls => by
    obtain ⟨hc, hls₁⟩ := hc.isExpression hls.tail.tail
    obtain ⟨hss, hrest⟩ := h.areStatements hls₁.tail.tail
    exact ⟨.ifThen hc (.block hss), hrest.tail⟩
  | _, _, _, .ifThenElse hc h h', hls => by
    obtain ⟨hc, hls₁⟩ := hc.isExpression hls.tail.tail
    obtain ⟨hss, hls₂⟩ := h.areStatements hls₁.tail.tail
    obtain ⟨hss', hrest⟩ := h'.areStatements hls₂.tail.tail.tail
    exact ⟨.ifThenElse hc (.block hss) (.block hss'), hrest.tail⟩
  | _, _, _, .function hps h, hls => by
    obtain ⟨hps, hls₁⟩ := hps.areNames hls.tail.tail
    obtain ⟨hss, hrest⟩ := h.areStatements hls₁.tail
    exact ⟨.function hps (.block hss), hrest.tail⟩

/-- A chain of operators and calls is an expression whose text can be read again. -/
theorem Chain.isExpression : ∀ {floor : Precedence} {ls rest : List Lexeme} {e : Node}, Chain floor ls e rest →
    ValidNames ls → e.IsExpression ∧ ValidNames rest
  | _, _, _, _, .operand h, hls => h.isExpression hls
  | _, _, _, _, .binary hl hop _ hr _, hls => by
    obtain ⟨hl, hls₁⟩ := hl.isExpression hls
    obtain ⟨hr, hrest⟩ := hr.isExpression hls₁.tail
    exact ⟨.binary hl (mem_known_of_binaryOp? hop) hr, hrest⟩
  | _, _, _, _, .call hf _ hargs, hls => by
    obtain ⟨hf, hls₁⟩ := hf.isExpression hls
    obtain ⟨hargs, hrest⟩ := hargs.areExpressions hls₁.tail
    exact ⟨.call hf hargs, hrest⟩

/-- Arguments that are read are expressions whose text can be read again. -/
theorem Arguments.areExpressions : ∀ {ls rest : List Lexeme} {as : List Node}, Arguments ls as rest → ValidNames ls →
    Node.AreExpressions as ∧ ValidNames rest
  | _, _, _, .close, hls => ⟨.nil, hls.tail⟩
  | _, _, _, .some h hmore, hls => by
    obtain ⟨ha, hls₁⟩ := h.isExpression hls
    obtain ⟨has, hrest⟩ := hmore.areExpressions hls₁
    exact ⟨.cons ha has, hrest⟩

theorem MoreArguments.areExpressions : ∀ {ls rest : List Lexeme} {as : List Node}, MoreArguments ls as rest →
    ValidNames ls → Node.AreExpressions as ∧ ValidNames rest
  | _, _, _, .close, hls => ⟨.nil, hls.tail⟩
  | _, _, _, .more h hmore, hls => by
    obtain ⟨ha, hls₁⟩ := h.isExpression hls.tail
    obtain ⟨has, hrest⟩ := hmore.areExpressions hls₁
    exact ⟨.cons ha has, hrest⟩

/-- A statement that is read is one whose text can be read again. -/
theorem Statement.isStatement : ∀ {ls rest : List Lexeme} {s : Node}, Statement ls s rest → ValidNames ls →
    s.IsStatement ∧ ValidNames rest
  | _, _, _, .letStatement h hend, hls => by
    obtain ⟨he, hls₁⟩ := h.isExpression hls.tail.tail.tail
    exact ⟨.letStatement hls.tail.head he, hend.validNames hls₁⟩
  | _, _, _, .returnNothing, hls => ⟨.returnNothing, hls.tail.tail⟩
  | _, _, _, .returnLast _, hls => ⟨.returnNothing, hls.tail⟩
  | _, _, _, .returnValue h hend, hls => by
    obtain ⟨he, hls₁⟩ := h.isExpression hls.tail
    exact ⟨.returnValue he, hend.validNames hls₁⟩
  | _, _, _, .expression h hend, hls => by
    obtain ⟨he, hls₁⟩ := h.isExpression hls
    exact ⟨.expression he, hend.validNames hls₁⟩

/-- Statements that are read are such whose text can be read again. -/
theorem Statements.areStatements : ∀ {ls rest : List Lexeme} {ss : List Node}, Statements ls ss rest →
    ValidNames ls → Node.AreStatements ss ∧ ValidNames rest
  | _, _, _, .nil, hls => ⟨.nil, hls⟩
  | _, _, _, .cons h hss, hls => by
    obtain ⟨hs, hls₁⟩ := h.isStatement hls
    obtain ⟨hss, hrest⟩ := hss.areStatements hls₁
    exact ⟨.cons hs hss, hrest⟩

end

end Reading

/-- **Only well-formed trees are read**: a text without reports gives a well-formed tree. -/
theorem isProgram_of_parse {text : String} {p : Parse} (h : parse text = .ok p) (hd : p.diagnostics = []) :
    p.program.IsProgram := by
  obtain ⟨ss, hp, hss⟩ := reads_of_parse h hd
  exact ⟨ss, hp, (hss.areStatements (validNames_lexemesOf text)).1⟩

/-- **The text of a well-formed tree is parsed as the tree**, without reports. -/
theorem parse_text_of_isProgram {p : Node} (h : p.IsProgram) :
    ∃ q, parse p.text = .ok ⟨q, []⟩ ∧ q.bare = p.bare := by
  obtain ⟨ss, rfl, hss⟩ := h
  obtain ⟨ws, hprint, hspell⟩ := hss.rendering
  have hscan : Scans (Node.program ss).text.toList (ws.map .ofWord) := by
    have := hspell [] [] nofun .nil
    rwa [List.append_nil, List.append_nil] at this
  have hread := @Printing.Statements.reading _ _ hprint [] (.inr rfl)
  rw [List.append_nil, ← hscan.lexemesOf_eq] at hread
  obtain ⟨ss', hparse, hbare⟩ := parse_of_reads hread
  exact ⟨.program ss', hparse, congrArg Node.program hbare⟩

/-- **The round trip**: the text of every well-formed tree is parsed without reports as that tree up to tokens; and
every text that is parsed without reports gives such a tree, whose text is parsed as the same tree and has the same
text again. -/
theorem text_roundtrip :
    (∀ p : Node, p.IsProgram → ∃ q, parse p.text = .ok ⟨q, []⟩ ∧ q.bare = p.bare) ∧
      ∀ text p, parse text = .ok p → p.diagnostics = [] → p.program.IsProgram ∧
        ∃ q, parse p.program.text = .ok ⟨q, []⟩ ∧ q.bare = p.program.bare ∧ q.text = p.program.text := by
  refine ⟨fun p => parse_text_of_isProgram, fun text p hparse hd => ?_⟩
  have hp := isProgram_of_parse hparse hd
  obtain ⟨q, hq, hbare⟩ := parse_text_of_isProgram hp
  exact ⟨hp, q, hq, hbare, Node.text_eq_of_bare_eq hbare⟩

/-- A binding and an expression after it, there and back again. -/
theorem text_roundtrip_let :
    ∃ p : Node, p = .program [.letStatement .blank ⟨.blank, "x"⟩ (.integer .blank 1),
        .expressionStatement .blank (.identifier ⟨.blank, "x"⟩)] ∧ p.IsProgram ∧
      ∃ q, parse p.text = .ok ⟨q, []⟩ ∧ q.bare = p.bare ∧ q.IsProgram ∧
        ∃ r, parse q.text = .ok ⟨r, []⟩ ∧ r.bare = q.bare ∧ r.text = q.text := by
  have hx : IsName "x" := ⟨by decide, by simp [isLetter], by decide⟩
  have hp : (Node.program [.letStatement .blank ⟨.blank, "x"⟩ (.integer .blank 1),
      .expressionStatement .blank (.identifier ⟨.blank, "x"⟩)]).IsProgram :=
    ⟨_, rfl, .cons (.letStatement hx (.integer (by decide) (by decide))) (.cons (.expression (.identifier hx)) .nil)⟩
  obtain ⟨q, hq, hbare⟩ := text_roundtrip.1 _ hp
  obtain ⟨hwf, r, hr, hbare', htext⟩ := text_roundtrip.2 _ _ hq rfl
  exact ⟨_, rfl, hp, q, hq, hbare, hwf, r, hr, hbare', htext⟩

end Monkey
