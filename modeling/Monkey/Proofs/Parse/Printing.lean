import Monkey.Proofs.Parse.Completeness
import Monkey.Proofs.Tree.WellFormed

/-!
# Printings

The ways a tree may be written as a row of words. An expression may stand in any number of parentheses, and it has to
stand in some where its operator would else take part of what surrounds it: `Printing.Expression enclosed e ws` keeps
whether the outermost words of `ws` are parentheses around `e`. Statements end with a semicolon, which the last one may
leave out if it is an expression. The words of an expression are read as that expression (`Printing.Expression.chain`).
-/

namespace Monkey

/-- The level of an operator, weakest first: equality, ordering, sums, products. -/
def BinaryOp.level : BinaryOp → Nat
  | .eq => 1
  | .ne => 1
  | .lt => 2
  | .gt => 2
  | .add => 3
  | .sub => 3
  | .mul => 4
  | .div => 4
  | .other _ => 0

namespace Node

/-- The operator of an operation on two operands. -/
def operator? : Node → Option BinaryOp
  | .binary _ _ op _ => some op
  | _ => none

/-- An operation on one operand. -/
def isPrefix : Node → Bool
  | .unary .. => true
  | _ => false

end Node

/-- A word of digits that stands for `n`. -/
structure IsNumeral (w : String) (n : Nat) : Prop where
  ne_empty : w ≠ ""
  digits : ∀ c ∈ w.toList, isDigit c
  length_le : w.length ≤ maxDigits
  value : numeralValue w = n

namespace Printing

open Reading (Chain)

/-- The words for parameters. -/
def parameters : List Identifier → List String
  | [] => []
  | p :: ps => p.name :: ps.flatMap fun q => [",", q.name]

mutual

/-- The words for an expression, and whether the expression is enclosed in parentheses by them. -/
inductive Expression : Bool → Node → List String → Prop
  | enclosed {b e ws} : Expression b e ws → Expression Bool.true e ("(" :: (ws ++ [")"]))
  | identifier {id} : IsName id.name → Expression Bool.false (.identifier id) [id.name]
  | integer {t n w} : IsNumeral w n → n ≤ 0x7FFFFFFFFFFFFFFF → Expression Bool.false (.integer t n) [w]
  | true {t} : Expression Bool.false (.boolean t Bool.true) ["true"]
  | false {t} : Expression Bool.false (.boolean t Bool.false) ["false"]
  | unary {t op b e ws} : op ∈ UnaryOp.known → Expression b e ws → (e.operator? ≠ none → b = Bool.true) →
      Expression Bool.false (.unary t op e) (op.symbol :: ws)
  | binary {t op b l ws b' r ws'} : op ∈ BinaryOp.known →
      Expression b l ws → (∀ op', l.operator? = some op' → op'.level < op.level → b = Bool.true) →
      Expression b' r ws' → (∀ op', r.operator? = some op' → op'.level ≤ op.level → b' = Bool.true) →
      Expression Bool.false (.binary t l op r) (ws ++ op.symbol :: ws')
  | ifThen {t b c ws bl ws'} : Expression b c ws → Block bl ws' →
      Expression Bool.false (.conditional t c bl .hole) ("if" :: "(" :: (ws ++ ")" :: ws'))
  | ifThenElse {t b c ws bl ws₁ bl' ws₂} : Expression b c ws → Block bl ws₁ → Block bl' ws₂ →
      Expression Bool.false (.conditional t c bl bl') ("if" :: "(" :: (ws ++ ")" :: (ws₁ ++ "else" :: ws₂)))
  | function {t ps bl ws} : (∀ p ∈ ps, IsName p.name) → Block bl ws →
      Expression Bool.false (.function t ps bl) ("fn" :: "(" :: (parameters ps ++ ")" :: ws))
  | call {t b f ws as ws'} : Expression b f ws → (f.operator? ≠ none ∨ f.isPrefix → b = Bool.true) →
      Arguments as ws' → Expression Bool.false (.call t f as) (ws ++ "(" :: (ws' ++ [")"]))

/-- The words for arguments. -/
inductive Arguments : List Node → List String → Prop
  | nil : Arguments [] []
  | cons {b a ws as ws'} : Expression b a ws → MoreArguments as ws' → Arguments (a :: as) (ws ++ ws')

/-- The words for further arguments, each after a comma. -/
inductive MoreArguments : List Node → List String → Prop
  | nil : MoreArguments [] []
  | cons {b a ws as ws'} : Expression b a ws → MoreArguments as ws' →
      MoreArguments (a :: as) ("," :: (ws ++ ws'))

/-- The words for a statement, with its semicolon. -/
inductive Statement : Node → List String → Prop
  | letStatement {t target b e ws} : IsName target.name → Expression b e ws →
      Statement (.letStatement t target e) ("let" :: target.name :: "=" :: (ws ++ [";"]))
  | returnNothing {t} : Statement (.returnStatement t .hole) ["return", ";"]
  | returnValue {t b e ws} : Expression b e ws → Statement (.returnStatement t e) ("return" :: (ws ++ [";"]))
  | expression {t b e ws} : Expression b e ws → Statement (.expressionStatement t e) (ws ++ [";"])

/-- The words for statements in a row; an expression at the end may go without semicolon. -/
inductive Statements : List Node → List String → Prop
  | nil : Statements [] []
  | last {t b e ws} : Expression b e ws → Statements [.expressionStatement t e] ws
  | cons {s ws ss ws'} : Statement s ws → Statements ss ws' → Statements (s :: ss) (ws ++ ws')

/-- The words for a block. -/
inductive Block : Node → List String → Prop
  | block {t ss ws} : Statements ss ws → Block (.block t ss) ("\x7b" :: (ws ++ ["\x7d"]))

end

/-! ## What is printed is well-formed -/

mutual

/-- What is printed is an expression. The six facts go by one recursion over printings. -/
theorem Expression.isExpression : ∀ {b : Bool} {e : Node} {ws : List String}, Expression b e ws → e.IsExpression
  | _, _, _, .enclosed h => h.isExpression
  | _, _, _, .identifier hname => .identifier hname
  | _, _, _, .integer _ hle => .integer (by omega) (by omega)
  | _, _, _, .true => .boolean
  | _, _, _, .false => .boolean
  | _, _, _, .unary hop h _ => .unary hop h.isExpression
  | _, _, _, .binary hop h _ h' _ => .binary h.isExpression hop h'.isExpression
  | _, _, _, .ifThen h hb => .ifThen h.isExpression hb.isBlock
  | _, _, _, .ifThenElse h hb hb' => .ifThenElse h.isExpression hb.isBlock hb'.isBlock
  | _, _, _, .function hps hb => .function hps hb.isBlock
  | _, _, _, .call h _ hargs => .call h.isExpression hargs.areExpressions

theorem Arguments.areExpressions : ∀ {as : List Node} {ws : List String}, Arguments as ws → Node.AreExpressions as
  | _, _, .nil => .nil
  | _, _, .cons h hmore => .cons h.isExpression hmore.areExpressions

theorem MoreArguments.areExpressions : ∀ {as : List Node} {ws : List String}, MoreArguments as ws →
    Node.AreExpressions as
  | _, _, .nil => .nil
  | _, _, .cons h hmore => .cons h.isExpression hmore.areExpressions

/-- What is printed as a statement is one. -/
theorem Statement.isStatement : ∀ {s : Node} {ws : List String}, Statement s ws → s.IsStatement
  | _, _, .letStatement hname h => .letStatement hname h.isExpression
  | _, _, .returnNothing => .returnNothing
  | _, _, .returnValue h => .returnValue h.isExpression
  | _, _, .expression h => .expression h.isExpression

theorem Statements.areStatements : ∀ {ss : List Node} {ws : List String}, Statements ss ws → Node.AreStatements ss
  | _, _, .nil => .nil
  | _, _, .last h => .cons (.expression h.isExpression) .nil
  | _, _, .cons h hss => .cons h.isStatement hss.areStatements

/-- What is printed as a block is one. -/
theorem Block.isBlock : ∀ {b : Node} {ws : List String}, Block b ws → b.IsBlock
  | _, _, .block h => .block h.areStatements

end

/-! ## Every word is a lexeme -/

/-- The words that every program is made of are words. -/
theorem isWord_fixed : IsWord "(" ∧ IsWord ")" ∧ IsWord "\x7b" ∧ IsWord "\x7d" ∧ IsWord "," ∧ IsWord ";" ∧ IsWord "=" ∧
    IsWord "let" ∧ IsWord "return" ∧ IsWord "if" ∧ IsWord "else" ∧ IsWord "fn" ∧ IsWord "true" ∧ IsWord "false" := by
  refine ⟨?_, ?_, ?_, ?_, ?_, ?_, ?_, ?_, ?_, ?_, ?_, ?_, ?_, ?_⟩
  all_goals exact ⟨_, _, rfl, rfl, rfl⟩

/-- The words that every program is made of are read as their own kinds. -/
theorem ofWord_fixed : Lexeme.ofWord "(" = ⟨.lparen, "("⟩ ∧ Lexeme.ofWord ")" = ⟨.rparen, ")"⟩ ∧
    Lexeme.ofWord "\x7b" = ⟨.lbrace, "\x7b"⟩ ∧ Lexeme.ofWord "\x7d" = ⟨.rbrace, "\x7d"⟩ ∧
    Lexeme.ofWord "," = ⟨.comma, ","⟩ ∧ Lexeme.ofWord ";" = ⟨.semicolon, ";"⟩ ∧
    Lexeme.ofWord "=" = ⟨.assign, "="⟩ ∧ Lexeme.ofWord "let" = ⟨.letKeyword, "let"⟩ ∧
    Lexeme.ofWord "return" = ⟨.returnKeyword, "return"⟩ ∧ Lexeme.ofWord "if" = ⟨.ifKeyword, "if"⟩ ∧
    Lexeme.ofWord "else" = ⟨.elseKeyword, "else"⟩ ∧ Lexeme.ofWord "fn" = ⟨.fnKeyword, "fn"⟩ ∧
    Lexeme.ofWord "true" = ⟨.trueKeyword, "true"⟩ ∧ Lexeme.ofWord "false" = ⟨.falseKeyword, "false"⟩ := by
  decide

/-- Operators of one operand are words. -/
theorem isWord_symbol_unary {op : UnaryOp} (h : op ∈ UnaryOp.known) : IsWord op.symbol := by
  simp only [UnaryOp.known, List.mem_cons, List.not_mem_nil, or_false] at h
  rcases h with rfl | rfl <;> exact ⟨_, _, rfl, rfl, rfl⟩

/-- Operators of two operands are words. -/
theorem isWord_symbol_binary {op : BinaryOp} (h : op ∈ BinaryOp.known) : IsWord op.symbol := by
  simp only [BinaryOp.known, List.mem_cons, List.not_mem_nil, or_false] at h
  rcases h with rfl | rfl | rfl | rfl | rfl | rfl | rfl | rfl <;> exact ⟨_, _, rfl, rfl, rfl⟩

/-- The operator that a word for it is read as. -/
theorem ofWord_symbol {op : BinaryOp} (h : op ∈ BinaryOp.known) :
    ∃ k, Lexeme.ofWord op.symbol = ⟨k, op.symbol⟩ ∧ k.binaryOp? = some op := by
  simp only [BinaryOp.known, List.mem_cons, List.not_mem_nil, or_false] at h
  rcases h with rfl | rfl | rfl | rfl | rfl | rfl | rfl | rfl <;> exact ⟨_, rfl, rfl⟩

/-- Parameters are printed in words. -/
theorem isWord_parameters {ps : List Identifier} (h : ∀ p ∈ ps, IsName p.name) : ∀ w ∈ parameters ps, IsWord w := by
  cases ps with
  | nil => nofun
  | cons p ps =>
    intro w hw
    simp only [parameters, List.mem_cons, List.mem_flatMap, List.not_mem_nil, or_false] at hw
    rcases hw with rfl | ⟨q, hq, rfl | rfl⟩
    · exact (h p List.mem_cons_self).isWord
    · exact ⟨_, _, rfl, rfl, rfl⟩
    · exact (h q (List.mem_cons_of_mem _ hq)).isWord

mutual

/-- **Expressions are printed in words**, so the lexemes of a printing are those words. -/
theorem Expression.isWord : ∀ {b : Bool} {e : Node} {ws : List String}, Expression b e ws → ∀ w ∈ ws, IsWord w
  | _, _, _, .enclosed h => by simpa [isWord_fixed, or_imp, forall_and] using h.isWord
  | _, _, _, .identifier hname => by simpa using hname.isWord
  | _, _, _, .integer hnum _ => by simpa using (isWord_of_digits hnum.ne_empty hnum.digits).1
  | _, _, _, .true => by simp [isWord_fixed]
  | _, _, _, .false => by simp [isWord_fixed]
  | _, _, _, .unary hop h _ => by simpa [isWord_symbol_unary hop] using h.isWord
  | _, _, _, .binary hop h _ h' _ => by
    have hl := h.isWord
    have hr := h'.isWord
    simp only [List.mem_append, List.mem_cons]
    rintro w (hw | rfl | hw)
    · exact hl w hw
    · exact isWord_symbol_binary hop
    · exact hr w hw
  | _, _, _, .ifThen h hb => by
    simpa [isWord_fixed, or_imp, forall_and] using ⟨h.isWord, hb.isWord⟩
  | _, _, _, .ifThenElse h hb hb' => by
    simpa [isWord_fixed, or_imp, forall_and] using ⟨h.isWord, hb.isWord, hb'.isWord⟩
  | _, _, _, .function hps hb => by
    simpa [isWord_fixed, or_imp, forall_and] using ⟨isWord_parameters hps, hb.isWord⟩
  | _, _, _, .call h _ hargs => by
    simpa [isWord_fixed, or_imp, forall_and] using ⟨h.isWord, hargs.isWord⟩

theorem Arguments.isWord : ∀ {as : List Node} {ws : List String}, Arguments as ws → ∀ w ∈ ws, IsWord w
  | _, _, .nil => nofun
  | _, _, .cons h hmore => by simpa [or_imp, forall_and] using ⟨h.isWord, hmore.isWord⟩

theorem MoreArguments.isWord : ∀ {as : List Node} {ws : List String}, MoreArguments as ws → ∀ w ∈ ws, IsWord w
  | _, _, .nil => nofun
  | _, _, .cons h hmore => by simpa [isWord_fixed, or_imp, forall_and] using ⟨h.isWord, hmore.isWord⟩

/-- Statements are printed in words. -/
theorem Statement.isWord : ∀ {s : Node} {ws : List String}, Statement s ws → ∀ w ∈ ws, IsWord w
  | _, _, .letStatement hname h => by
    simpa [isWord_fixed, or_imp, forall_and] using ⟨hname.isWord, h.isWord⟩
  | _, _, .returnNothing => by simp [isWord_fixed]
  | _, _, .returnValue h => by simpa [isWord_fixed, or_imp, forall_and] using h.isWord
  | _, _, .expression h => by simpa [isWord_fixed, or_imp, forall_and] using h.isWord

theorem Statements.isWord : ∀ {ss : List Node} {ws : List String}, Statements ss ws → ∀ w ∈ ws, IsWord w
  | _, _, .nil => nofun
  | _, _, .last h => h.isWord
  | _, _, .cons h hss => by simpa [or_imp, forall_and] using ⟨h.isWord, hss.isWord⟩

theorem Block.isWord : ∀ {b : Node} {ws : List String}, Block b ws → ∀ w ∈ ws, IsWord w
  | _, _, .block h => by simpa [isWord_fixed, or_imp, forall_and] using h.isWord

end

/-! ## What parentheses are for -/

/-- An operator is on the rank behind the level that it is printed on. -/
theorem rank_precedence (op : BinaryOp) : op.precedence.rank = op.level + 1 := by
  cases op <;> rfl

/-- A token binds as tight as the operator that it is. -/
theorem precedence_of_binaryOp? {k : TokenKind} {op : BinaryOp} (h : k.binaryOp? = some op) :
    k.precedence = op.precedence := by
  have hne : k ≠ .lparen := by
    rintro rfl
    cases h
  rw [TokenKind.precedence, if_neg hne, h]

/-- Operators of one operand bind tighter than those of two. -/
theorem precedence_lt_unary (op : BinaryOp) : op.precedence < .unary := by
  cases op <;> simp [Precedence.lt_iff, BinaryOp.precedence, Precedence.rank]

/-- Every known operator binds tighter than nothing. -/
theorem lowest_lt_precedence {op : BinaryOp} (h : op ∈ BinaryOp.known) : Precedence.lowest < op.precedence := by
  revert h
  cases op <;> simp [BinaryOp.known, Precedence.lt_iff, BinaryOp.precedence, Precedence.rank]

/-- An expression at `floor` may begin with the words: they are enclosed, or an operator of theirs binds tighter. -/
def Fits (b : Bool) (e : Node) (floor : Precedence) : Prop :=
  b = true ∨ ∀ op, e.operator? = some op → floor < op.precedence

/-- The words end where a token of kind `k` follows: they are enclosed, or it binds no tighter than an operator of
theirs. -/
def Ends (b : Bool) (e : Node) (k : TokenKind) : Prop :=
  b = true ∨ (∀ op, e.operator? = some op → ¬ op.precedence < k.precedence) ∧
    (e.isPrefix → ¬ Precedence.unary < k.precedence)

/-- Before a token that ends expressions any words end. -/
theorem Ends.of_endsExpression {k : TokenKind} (h : k.endsExpression) (b : Bool) (e : Node) : Ends b e k :=
  .inr ⟨fun _ _ => TokenKind.not_lt_of_endsExpression h _, fun _ => TokenKind.not_lt_of_endsExpression h _⟩

/-- Any expression may begin at the lowest level. -/
theorem Expression.fits_lowest {b : Bool} {e : Node} {ws : List String} (h : Expression b e ws) : Fits b e .lowest := by
  cases h with
  | enclosed => exact .inl rfl
  | binary hop =>
    right
    rintro op ⟨⟩
    exact lowest_lt_precedence hop
  | _ => exact .inr nofun

/-- Where every operator is enclosed, nothing is left open. -/
theorem fits_of_enclosed {b : Bool} {e : Node} (h : e.operator? ≠ none → b = true) (floor : Precedence) :
    Fits b e floor := by
  by_cases hb : b = true
  · exact .inl hb
  · exact .inr fun op hop => absurd (h (by simp [hop])) hb

/-- Where every operator is enclosed, any words end, unless a prefix goes on. -/
theorem ends_of_enclosed {b : Bool} {e : Node} {k : TokenKind} (h : e.operator? ≠ none → b = true)
    (hunary : e.isPrefix → b = true ∨ ¬ Precedence.unary < k.precedence) : Ends b e k := by
  by_cases hb : b = true
  · exact .inl hb
  · exact .inr ⟨fun op hop => absurd (h (by simp [hop])) hb, fun he => (hunary he).resolve_left hb⟩

section Binary

variable {b : Bool} {e : Node} {op : BinaryOp}

/-- A left operand of the same level or a tighter one begins where its operator may stand. -/
theorem fits_left {floor : Precedence} (h : ∀ op', e.operator? = some op' → op'.level < op.level → b = true)
    (hlt : floor < op.precedence) : Fits b e floor := by
  by_cases hb : b = true
  · exact .inl hb
  · refine .inr fun op' hop' => ?_
    have hlevel := mt (h op' hop') hb
    rw [Precedence.lt_iff, rank_precedence] at *
    omega

/-- A left operand of the same level or a tighter one ends before its operator, so operators associate to the left. -/
theorem ends_left {k : TokenKind} (h : ∀ op', e.operator? = some op' → op'.level < op.level → b = true)
    (hk : k.binaryOp? = some op) : Ends b e k := by
  by_cases hb : b = true
  · exact .inl hb
  · have hprec := precedence_of_binaryOp? hk
    refine .inr ⟨fun op' hop' => ?_, fun _ => ?_⟩
    · have hlevel := mt (h op' hop') hb
      rw [hprec, Precedence.lt_iff, rank_precedence, rank_precedence]
      omega
    · rw [hprec]
      exact Nat.lt_asymm (precedence_lt_unary op)

/-- A right operand of a tighter level begins behind its operator. -/
theorem fits_right (h : ∀ op', e.operator? = some op' → op'.level ≤ op.level → b = true) : Fits b e op.precedence := by
  by_cases hb : b = true
  · exact .inl hb
  · refine .inr fun op' hop' => ?_
    have hlevel := mt (h op' hop') hb
    rw [Precedence.lt_iff, rank_precedence, rank_precedence]
    omega

/-- A right operand of a tighter level ends where its operator does. -/
theorem ends_right {k : TokenKind} (h : ∀ op', e.operator? = some op' → op'.level ≤ op.level → b = true)
    (hk : ¬ op.precedence < k.precedence) : Ends b e k := by
  by_cases hb : b = true
  · exact .inl hb
  · refine .inr ⟨fun op' hop' => ?_, fun _ => ?_⟩
    · have hlevel := mt (h op' hop') hb
      rw [Precedence.lt_iff, rank_precedence] at *
      omega
    · have hunary := precedence_lt_unary op
      rw [Precedence.lt_iff] at *
      omega

end Binary

/-! ## Printings are read -/

/-- Parameters that are printed are read back. -/
theorem reading_parameters {ps : List Identifier} (h : ∀ p ∈ ps, IsName p.name) (s : String) (rest : List Lexeme) :
    Reading.Parameters ((parameters ps).map .ofWord ++ ⟨.rparen, s⟩ :: rest) ps rest := by
  have hmore {qs : List Identifier} (hqs : ∀ q ∈ qs, IsName q.name) : Reading.MoreParameters
      ((qs.flatMap fun q => [",", q.name]).map Lexeme.ofWord ++ ⟨.rparen, s⟩ :: rest) qs rest := by
    induction qs with
    | nil => exact .close
    | cons q qs ih =>
      obtain ⟨hq, hqs⟩ := List.forall_mem_cons.1 hqs
      simp only [List.flatMap_cons, List.map_cons, List.cons_append, List.nil_append, ofWord_fixed, hq.ofWord]
      exact .more (ih hqs)
  cases ps with
  | nil => exact .close
  | cons p ps =>
    obtain ⟨hp, hps⟩ := List.forall_mem_cons.1 h
    rw [parameters, List.map_cons, hp.ofWord]
    exact .some (hmore hps)

/-- A prefix and the operand behind it are read on any level. -/
theorem chain_unary {op : UnaryOp} {floor : Precedence} {ls rest : List Lexeme} {e : Node} (t : Token)
    (hop : op ∈ UnaryOp.known) (h : Chain .unary ls e rest) (hstop : ¬ Precedence.unary < (headKind rest).precedence) :
    Chain floor (.ofWord op.symbol :: ls) (.unary t op e) rest := by
  simp only [UnaryOp.known, List.mem_cons, List.not_mem_nil, or_false] at hop
  rcases hop with rfl | rfl
  · exact .operand (.not (s := "!") h hstop)
  · exact .operand (.negate (s := "-") h hstop)

/-- The words of an expression are read as it, from every floor at which it fits to every place where it ends. -/
def Chains (b : Bool) (e : Node) (ws : List String) : Prop :=
  ∀ (floor : Precedence) (rest : List Lexeme), floor < .call → Fits b e floor → Ends b e (headKind rest) →
    headKind rest ≠ .elseKeyword → Chain floor (ws.map .ofWord ++ rest) e rest

/-- Where an expression has to end, the words of one are read as it. -/
theorem Chains.before {b : Bool} {e : Node} {ws : List String} (hc : Chains b e ws) (h : Expression b e ws)
    (rest : List Lexeme) (hrest : (headKind rest).endsExpression) (helse : headKind rest ≠ .elseKeyword) :
    Chain .lowest (ws.map .ofWord ++ rest) e rest :=
  hc .lowest rest (by decide) h.fits_lowest (.of_endsExpression hrest b e) helse

/-- The words of two operands with the words of an operator between them. -/
theorem Chains.binary {b b' : Bool} {t : Token} {l r : Node} {op : BinaryOp} {ws ws' : List String}
    (hop : op ∈ BinaryOp.known) (hl : Chains b l ws)
    (hleft : ∀ op', l.operator? = some op' → op'.level < op.level → b = true) (hr : Chains b' r ws')
    (hright : ∀ op', r.operator? = some op' → op'.level ≤ op.level → b' = true) :
    Chains false (.binary t l op r) (ws ++ op.symbol :: ws') := by
  intro floor rest hcall hfits hends helse
  obtain ⟨k, hword, hk⟩ := ofWord_symbol hop
  have hprec := precedence_of_binaryOp? hk
  have hlt : floor < op.precedence := hfits.resolve_left nofun op rfl
  have hstop := (hends.resolve_left nofun).1 op rfl
  have hl := hl floor (⟨k, op.symbol⟩ :: (ws'.map .ofWord ++ rest)) hcall (fits_left hleft hlt) (ends_left hleft hk)
    (by rintro rfl; cases hk)
  have hr := hr op.precedence rest (Nat.lt_trans (precedence_lt_unary op) (by decide)) (fits_right hright)
    (ends_right hright hstop) helse
  rw [← hprec] at hlt hstop hr
  rw [List.map_append, List.map_cons, hword, List.append_assoc]
  exact .binary hl hk hlt hr hstop

/-- The words of a callee with the words of arguments in parentheses behind them. -/
theorem Chains.call {b : Bool} {t : Token} {f : Node} {as : List Node} {ws ws' : List String} (hf : Chains b f ws)
    (henclosed : f.operator? ≠ none ∨ f.isPrefix → b = true)
    (hargs : ∀ s rest, Reading.Arguments (ws'.map .ofWord ++ ⟨.rparen, s⟩ :: rest) as rest) :
    Chains false (.call t f as) (ws ++ "(" :: (ws' ++ [")"])) := by
  intro floor rest hcall _ _ _
  have hop : f.operator? ≠ none → b = true := fun h => henclosed (.inl h)
  have hunary : f.isPrefix → b = true := fun h => henclosed (.inr h)
  have hf := hf floor (⟨.lparen, "("⟩ :: (ws'.map .ofWord ++ ⟨.rparen, ")"⟩ :: rest)) hcall (fits_of_enclosed hop _)
    (ends_of_enclosed hop fun h => .inl (hunary h)) nofun
  simp only [List.map_cons, List.map_append, List.map_nil, List.cons_append, List.append_assoc, List.nil_append,
    ofWord_fixed]
  exact .call hf hcall (hargs ")" rest)

mutual

/-- **An expression that is printed is read back.** The six facts go by one recursion over printings. -/
theorem Expression.chain : ∀ {b : Bool} {e : Node} {ws : List String}, Expression b e ws → Chains b e ws
  | _, _, _, .enclosed h => by
    intro _ rest _ _ _ _
    have hinner := h.chain.before h (⟨.rparen, ")"⟩ :: rest) TokenKind.endsExpression_rparen nofun
    simp only [List.map_cons, List.map_append, List.map_nil, List.cons_append, List.append_assoc, List.nil_append,
      ofWord_fixed]
    exact .operand (.group hinner)
  | _, _, _, .identifier hname => by
    intro _ _ _ _ _ _
    rw [List.map_cons, hname.ofWord]
    exact .operand .identifier
  | _, _, _, .integer hnum hle => by
    intro _ _ _ _ _ _
    rw [List.map_cons, (isWord_of_digits hnum.ne_empty hnum.digits).2, ← hnum.value]
    exact .operand (.integer hnum.length_le (hnum.value ▸ hle))
  | _, _, _, .true => by
    intro _ _ _ _ _ _
    simp only [List.map_cons, ofWord_fixed]
    exact .operand .true
  | _, _, _, .false => by
    intro _ _ _ _ _ _
    simp only [List.map_cons, ofWord_fixed]
    exact .operand .false
  | _, _, _, .unary hop h henclosed => by
    intro _ _ _ _ hends helse
    have hstop := (hends.resolve_left nofun).2 rfl
    exact chain_unary _ hop (h.chain .unary _ (by decide) (fits_of_enclosed henclosed _)
      (ends_of_enclosed henclosed fun _ => .inr hstop) helse) hstop
  | _, _, _, .binary hop h hleft h' hright => h.chain.binary hop hleft h'.chain hright
  | _, _, _, .ifThen h hb => by
    intro _ rest _ _ _ helse
    obtain ⟨t, ss, ws, rfl, rfl, hss⟩ := hb.reading
    have hc := h.chain.before h (⟨.rparen, ")"⟩ :: ⟨.lbrace, "\x7b"⟩ :: (ws.map .ofWord ++ rest))
      TokenKind.endsExpression_rparen nofun
    simp only [List.map_cons, List.map_append, List.cons_append, List.append_assoc, ofWord_fixed]
    exact .operand (.ifThen hc (hss rest) helse)
  | _, _, _, .ifThenElse h hb hb' => by
    intro _ rest _ _ _ _
    obtain ⟨t, ss, ws, rfl, rfl, hss⟩ := hb.reading
    obtain ⟨t', ss', ws', rfl, rfl, hss'⟩ := hb'.reading
    have hc := h.chain.before h (⟨.rparen, ")"⟩ :: ⟨.lbrace, "\x7b"⟩ :: (ws.map .ofWord ++
      ⟨.elseKeyword, "else"⟩ :: ⟨.lbrace, "\x7b"⟩ :: (ws'.map .ofWord ++ rest))) TokenKind.endsExpression_rparen nofun
    simp only [List.map_cons, List.map_append, List.cons_append, List.append_assoc, ofWord_fixed]
    exact .operand (.ifThenElse hc (hss _) (hss' rest))
  | _, _, _, .function hps hb => by
    intro _ rest _ _ _ _
    obtain ⟨t, ss, ws, rfl, rfl, hss⟩ := hb.reading
    simp only [List.map_cons, List.map_append, List.cons_append, List.append_assoc, ofWord_fixed]
    exact .operand (.function (reading_parameters hps ")" _) (hss rest))
  | _, _, _, .call h henclosed hargs => h.chain.call henclosed hargs.reading

/-- Arguments that are printed are read back. -/
theorem Arguments.reading : ∀ {as : List Node} {ws : List String}, Arguments as ws → ∀ s rest,
    Reading.Arguments (ws.map .ofWord ++ ⟨.rparen, s⟩ :: rest) as rest
  | _, _, .nil, _, _ => .close
  | _, _, .cons h hmore, s, rest => by
    have hread := hmore.reading s rest
    rw [List.map_append, List.append_assoc]
    exact .some (h.chain.before h _ hread.stops hread.ne_else) hread

theorem MoreArguments.reading : ∀ {as : List Node} {ws : List String}, MoreArguments as ws → ∀ s rest,
    Reading.MoreArguments (ws.map .ofWord ++ ⟨.rparen, s⟩ :: rest) as rest
  | _, _, .nil, _, _ => .close
  | _, _, .cons h hmore, s, rest => by
    have hread := hmore.reading s rest
    simp only [List.map_cons, List.map_append, List.cons_append, List.append_assoc, ofWord_fixed]
    exact .more (h.chain.before h _ hread.stops hread.ne_else) hread

/-- A statement that is printed is read back. -/
theorem Statement.reading : ∀ {s : Node} {ws : List String}, Statement s ws → ∀ rest,
    Reading.Statement (ws.map .ofWord ++ rest) s rest
  | _, _, .letStatement hname h, rest => by
    simp only [List.map_cons, List.map_append, List.map_nil, List.cons_append, List.append_assoc, List.nil_append,
      ofWord_fixed, hname.ofWord]
    exact .letStatement (h.chain.before h _ TokenKind.endsExpression_semicolon nofun) .semicolon
  | _, _, .returnNothing, rest => by
    simp only [List.map_cons, List.map_nil, List.cons_append, List.nil_append, ofWord_fixed]
    exact .returnNothing
  | _, _, .returnValue h, rest => by
    simp only [List.map_cons, List.map_append, List.map_nil, List.cons_append, List.append_assoc, List.nil_append,
      ofWord_fixed]
    exact .returnValue (h.chain.before h _ TokenKind.endsExpression_semicolon nofun) .semicolon
  | _, _, .expression h, rest => by
    simp only [List.map_cons, List.map_append, List.map_nil, List.cons_append, List.append_assoc, List.nil_append,
      ofWord_fixed]
    exact .expression (h.chain.before h _ TokenKind.endsExpression_semicolon nofun) .semicolon

/-- Statements that are printed are read back, up to what ends them. -/
theorem Statements.reading : ∀ {ss : List Node} {ws : List String}, Statements ss ws → ∀ {rest : List Lexeme},
    headKind rest = .rbrace ∨ headKind rest = .eof → Reading.Statements (ws.map .ofWord ++ rest) ss rest
  | _, _, .nil, _, _ => .nil
  | _, _, .last h, rest, hrest => by
    have hends : (headKind rest).endsExpression := by rcases hrest with h | h <;> rw [h] <;> decide
    have hsemicolon : headKind rest ≠ .semicolon := by rcases hrest with h | h <;> rw [h] <;> decide
    have helse : headKind rest ≠ .elseKeyword := by rcases hrest with h | h <;> rw [h] <;> decide
    exact .cons (.expression (h.chain.before h rest hends helse) (.nothing hsemicolon hends)) .nil
  | _, _, .cons h hss, rest, hrest => by
    rw [List.map_append, List.append_assoc]
    exact .cons (h.reading _) (hss.reading hrest)

/-- A block that is printed is read back, up to its brace. -/
theorem Block.reading : ∀ {b : Node} {ws : List String}, Block b ws → ∃ t ss ws', b = .block t ss ∧
    ws = "\x7b" :: ws' ∧ ∀ rest, Reading.Statements (ws'.map .ofWord ++ rest) ss (⟨.rbrace, "\x7d"⟩ :: rest)
  | _, _, @Block.block t ss ws h => by
    refine ⟨t, ss, _, rfl, rfl, fun rest => ?_⟩
    simp only [List.map_cons, List.map_append, List.map_nil, List.cons_append, List.append_assoc, List.nil_append,
      ofWord_fixed]
    exact h.reading (.inl rfl)

end

end Printing

/-! ## A whole text -/

/-- A list that is a single statement but for tokens is one. -/
theorem Node.bareAll_singleton {ss : List Node} {s : Node} (h : Node.bareAll ss = Node.bareAll [s]) :
    ∃ s', ss = [s'] ∧ s'.bare = s.bare := by
  match ss with
  | [] => cases h
  | [s'] => exact ⟨s', rfl, (List.cons.inj h).1⟩
  | _ :: _ :: _ => cases (List.cons.inj h).2

/-- What is a statement of one expression but for tokens is one. -/
theorem Node.bare_eq_expressionStatement {s : Node} {t : Token} {e : Node}
    (h : s.bare = (Node.expressionStatement t e).bare) :
    ∃ t' e', s = .expressionStatement t' e' ∧ e'.bare = e.bare := by
  cases s with
  | expressionStatement t' e' => exact ⟨t', e', rfl, (Node.expressionStatement.inj h).2⟩
  | _ => exact nomatch h

/-- **Binding strength and grouping are exact**: however an expression is printed, with parentheses at least where it
needs them, the printing is parsed as that expression up to tokens and nothing else. -/
theorem parse_of_printing {b : Bool} {e : Node} {ws : List String} (h : Printing.Expression b e ws) :
    ∃ t e', parse (" ".intercalate ws) = .ok ⟨.program [.expressionStatement t e'], []⟩ ∧ e'.bare = e.bare := by
  have hread : Reading.Statements (ws.map .ofWord) [.expressionStatement .blank e] [] := by
    have := @Printing.Statements.reading _ _ (.last (t := .blank) h) [] (.inr rfl)
    rwa [List.append_nil] at this
  rw [← lexemesOf_intercalate h.isWord] at hread
  obtain ⟨ss, hparse, hss⟩ := parse_of_reads hread
  obtain ⟨s, rfl, hs⟩ := Node.bareAll_singleton hss
  obtain ⟨t, e', rfl, he⟩ := Node.bare_eq_expressionStatement hs
  exact ⟨t, e', hparse, he⟩

/-- The parentheses around a sum that is multiplied are needed, and those around a name are redundant. -/
theorem parse_of_printing_product :
    Printing.Expression false
      (.binary .blank (.binary .blank (.identifier ⟨.blank, "a"⟩) .add (.identifier ⟨.blank, "b"⟩)) .mul
        (.unary .blank .negate (.identifier ⟨.blank, "c"⟩)))
      ["(", "a", "+", "b", ")", "*", "-", "(", "c", ")"] ∧
    ∃ t e', parse (" ".intercalate ["(", "a", "+", "b", ")", "*", "-", "(", "c", ")"]) =
        .ok ⟨.program [.expressionStatement t e'], []⟩ ∧
      e'.bare = (Node.binary .blank (.binary .blank (.identifier ⟨.blank, "a"⟩) .add (.identifier ⟨.blank, "b"⟩)) .mul
        (.unary .blank .negate (.identifier ⟨.blank, "c"⟩))).bare := by
  have ha : IsName "a" := ⟨by decide, by simp [isLetter], by decide⟩
  have hb : IsName "b" := ⟨by decide, by simp [isLetter], by decide⟩
  have hc : IsName "c" := ⟨by decide, by simp [isLetter], by decide⟩
  have hsum : Printing.Expression false
      (.binary .blank (.identifier ⟨.blank, "a"⟩) .add (.identifier ⟨.blank, "b"⟩)) (["a"] ++ "+" :: ["b"]) :=
    .binary (by decide) (.identifier ha) (by simp [Node.operator?]) (.identifier hb) (by simp [Node.operator?])
  have hneg : Printing.Expression false (.unary .blank .negate (.identifier ⟨.blank, "c"⟩))
      ("-" :: "(" :: (["c"] ++ [")"])) :=
    .unary (by decide) (.enclosed (.identifier hc)) fun _ => rfl
  have hprod : Printing.Expression false
      (.binary .blank (.binary .blank (.identifier ⟨.blank, "a"⟩) .add (.identifier ⟨.blank, "b"⟩)) .mul
        (.unary .blank .negate (.identifier ⟨.blank, "c"⟩)))
      (("(" :: ((["a"] ++ "+" :: ["b"]) ++ [")"])) ++ "*" :: ("-" :: "(" :: (["c"] ++ [")"]))) :=
    .binary (by decide) (.enclosed hsum) (fun _ _ _ => rfl) hneg (by simp [Node.operator?])
  exact ⟨hprod, parse_of_printing hprod⟩

end Monkey
