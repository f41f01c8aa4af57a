import Monkey.Parse.Rules
import Monkey.Proofs.Token.Lexemes

/-!
# Readings

What it means that a run of lexemes is read as a tree, rule by rule and without any allowance, diagnostic or window.
Every relation here takes the lexemes at hand, what is read from them, and the lexemes that are left.

* `Reading.Chain floor ls e rest`: an expression at `floor` has come to stand for `e` where `rest` is left. It may go
  on.
* `Reading.Statements ls ss rest`: up to `rest` there are statements in a row.

What is left matters, since an expression goes on as long as it can, a `return` without a value needs a closing brace
or the end behind it, and an `else` belongs to the `if` before it. The tokens in the nodes are left open: a reading
says what is read up to tokens.
-/

namespace Monkey

/-- The kind of the first of some lexemes; the end is what comes where there is none. -/
def headKind : List Lexeme → TokenKind
  | [] => .eof
  | l :: _ => l.kind

@[simp] theorem headKind_nil : headKind [] = .eof := rfl

@[simp] theorem headKind_cons (l : Lexeme) (ls : List Lexeme) : headKind (l :: ls) = l.kind := rfl

/-- The number a numeral of ASCII digits stands for. -/
def numeralValue (s : String) : Nat :=
  ofDigits (s.toList.map fun c => c.toNat - '0'.toNat)

namespace TokenKind

/-- An expression may begin with a token of this kind. -/
def startsExpression : TokenKind → Bool
  | .ident | .int | .trueKeyword | .falseKeyword | .bang | .minus | .lparen | .ifKeyword | .fnKeyword => true
  | _ => false

/-- A statement may begin with a token of this kind. -/
def startsStatement (k : TokenKind) : Bool :=
  k = .letKeyword || k = .returnKeyword || k.startsExpression

/-- No expression goes on with a token of this kind. -/
def endsExpression (k : TokenKind) : Prop :=
  ¬ Precedence.lowest < k.precedence

instance (k : TokenKind) : Decidable k.endsExpression :=
  inferInstanceAs (Decidable (¬ _))

/-- What ends an expression ends it at every floor. -/
theorem not_lt_of_endsExpression {k : TokenKind} (h : k.endsExpression) (floor : Precedence) :
    ¬ floor < k.precedence := by
  intro hlt
  have hfloor : Precedence.lowest.rank ≤ floor.rank := by cases floor <;> decide
  exact h (Nat.lt_of_le_of_lt hfloor hlt)

theorem endsExpression_rparen : rparen.endsExpression := by decide

theorem endsExpression_comma : comma.endsExpression := by decide

theorem endsExpression_semicolon : semicolon.endsExpression := by decide

end TokenKind

namespace Reading

/-- Further parameters, each after a comma, and the closing parenthesis. -/
inductive MoreParameters : List Lexeme → List Identifier → List Lexeme → Prop
  | close {s rest} : MoreParameters (⟨.rparen, s⟩ :: rest) [] rest
  | more {s₁ s t ls ps rest} : MoreParameters ls ps rest →
      MoreParameters (⟨.comma, s₁⟩ :: ⟨.ident, s⟩ :: ls) (⟨t, s⟩ :: ps) rest

/-- The parameters of a function behind the opening parenthesis, and the closing one. -/
inductive Parameters : List Lexeme → List Identifier → List Lexeme → Prop
  | close {s rest} : Parameters (⟨.rparen, s⟩ :: rest) [] rest
  | some {s t ls ps rest} : MoreParameters ls ps rest → Parameters (⟨.ident, s⟩ :: ls) (⟨t, s⟩ :: ps) rest

/-- A semicolon that is there, or one that is left out where the expression before it has to end all the same. -/
inductive Ending : List Lexeme → List Lexeme → Prop
  | semicolon {s rest} : Ending (⟨.semicolon, s⟩ :: rest) rest
  | nothing {rest} : headKind rest ≠ .semicolon → (headKind rest).endsExpression → Ending rest rest

mutual

/-- What stands before the first operator of an expression. -/
inductive Operand : List Lexeme → Node → List Lexeme → Prop
  | identifier {s t rest} : Operand (⟨.ident, s⟩ :: rest) (.identifier ⟨t, s⟩) rest
  | integer {s t rest} : s.length ≤ maxDigits → numeralValue s ≤ Rule.maxInteger →
      Operand (⟨.int, s⟩ :: rest) (.integer t (numeralValue s)) rest
  | true {s t rest} : Operand (⟨.trueKeyword, s⟩ :: rest) (.boolean t Bool.true) rest
  | false {s t rest} : Operand (⟨.falseKeyword, s⟩ :: rest) (.boolean t Bool.false) rest
  | not {s t ls e rest} : Chain .unary ls e rest → ¬ Precedence.unary < (headKind rest).precedence →
      Operand (⟨.bang, s⟩ :: ls) (.unary t .not e) rest
  | negate {s t ls e rest} : Chain .unary ls e rest → ¬ Precedence.unary < (headKind rest).precedence →
      Operand (⟨.minus, s⟩ :: ls) (.unary t .negate e) rest
  | group {s₁ s₂ ls e rest} : Chain .lowest ls e (⟨.rparen, s₂⟩ :: rest) → Operand (⟨.lparen, s₁⟩ :: ls) e rest
  | ifThen {s₁ s₂ s₃ s₄ s₅ t t₁ ls c ls₁ ss₁ rest} : Chain .lowest ls c (⟨.rparen, s₃⟩ :: ⟨.lbrace, s₄⟩ :: ls₁) →
      Statements ls₁ ss₁ (⟨.rbrace, s₅⟩ :: rest) → headKind rest ≠ .elseKeyword →
      Operand (⟨.ifKeyword, s₁⟩ :: ⟨.lparen, s₂⟩ :: ls) (.conditional t c (.block t₁ ss₁) .hole) rest
  | ifThenElse {s₁ s₂ s₃ s₄ s₅ s₆ s₇ s₈ t t₁ t₂ ls c ls₁ ss₁ ls₂ ss₂ rest} :
      Chain .lowest ls c (⟨.rparen, s₃⟩ :: ⟨.lbrace, s₄⟩ :: ls₁) →
      Statements ls₁ ss₁ (⟨.rbrace, s₅⟩ :: ⟨.elseKeyword, s₆⟩ :: ⟨.lbrace, s₇⟩ :: ls₂) →
      Statements ls₂ ss₂ (⟨.rbrace, s₈⟩ :: rest) →
      Operand (⟨.ifKeyword, s₁⟩ :: ⟨.lparen, s₂⟩ :: ls) (.conditional t c (.block t₁ ss₁) (.block t₂ ss₂)) rest
  | function {s₁ s₂ s₃ s₄ t t₁ ls ps ls₁ ss₁ rest} : Parameters ls ps (⟨.lbrace, s₃⟩ :: ls₁) →
      Statements ls₁ ss₁ (⟨.rbrace, s₄⟩ :: rest) →
      Operand (⟨.fnKeyword, s₁⟩ :: ⟨.lparen, s₂⟩ :: ls) (.function t ps (.block t₁ ss₁)) rest

/-- An operand with some of the operators that follow it and bind tighter than `floor`. -/
inductive Chain : Precedence → List Lexeme → Node → List Lexeme → Prop
  | operand {floor ls e rest} : Operand ls e rest → Chain floor ls e rest
  | binary {floor ls l x op rs r t rest} : Chain floor ls l (x :: rs) → x.kind.binaryOp? = some op →
      floor < x.kind.precedence → Chain x.kind.precedence rs r rest →
      ¬ x.kind.precedence < (headKind rest).precedence → Chain floor ls (.binary t l op r) rest
  | call {floor ls f s as args t rest} : Chain floor ls f (⟨.lparen, s⟩ :: as) → floor < .call →
      Arguments as args rest → Chain floor ls (.call t f args) rest

/-- The arguments of a call behind the opening parenthesis, and the closing one. -/
inductive Arguments : List Lexeme → List Node → List Lexeme → Prop
  | close {s rest} : Arguments (⟨.rparen, s⟩ :: rest) [] rest
  | some {ls a as args rest} : Chain .lowest ls a as → MoreArguments as args rest → Arguments ls (a :: args) rest

/-- Further arguments, each after a comma, and the closing parenthesis. -/
inductive MoreArguments : List Lexeme → List Node → List Lexeme → Prop
  | close {s rest} : MoreArguments (⟨.rparen, s⟩ :: rest) [] rest
  | more {s ls a as args rest} : Chain .lowest ls a as → MoreArguments as args rest →
      MoreArguments (⟨.comma, s⟩ :: ls) (a :: args) rest

/-- A statement, with its semicolon if it has one. -/
inductive Statement : List Lexeme → Node → List Lexeme → Prop
  | letStatement {s₁ s s₂ t t₁ ls e ls' rest} : Chain .lowest ls e ls' → Ending ls' rest →
      Statement (⟨.letKeyword, s₁⟩ :: ⟨.ident, s⟩ :: ⟨.assign, s₂⟩ :: ls) (.letStatement t ⟨t₁, s⟩ e) rest
  | returnNothing {s₁ s₂ t rest} :
      Statement (⟨.returnKeyword, s₁⟩ :: ⟨.semicolon, s₂⟩ :: rest) (.returnStatement t .hole) rest
  | returnLast {s t rest} : headKind rest = .rbrace ∨ headKind rest = .eof →
      Statement (⟨.returnKeyword, s⟩ :: rest) (.returnStatement t .hole) rest
  | returnValue {s t ls e ls' rest} : Chain .lowest ls e ls' → Ending ls' rest →
      Statement (⟨.returnKeyword, s⟩ :: ls) (.returnStatement t e) rest
  | expression {t ls e ls' rest} : Chain .lowest ls e ls' → Ending ls' rest →
      Statement ls (.expressionStatement t e) rest

/-- Statements in a row. -/
inductive Statements : List Lexeme → List Node → List Lexeme → Prop
  | nil {rest} : Statements rest [] rest
  | cons {ls s ls' ss rest} : Statement ls s ls' → Statements ls' ss rest → Statements ls (s :: ss) rest

end

/-! ## How readings begin -/

/-- An operand begins with a token that begins expressions. -/
theorem Operand.begins {ls rest : List Lexeme} {e : Node} (h : Operand ls e rest) :
    (headKind ls).startsExpression = Bool.true := by
  cases h <;> rfl

theorem Chain.begins : ∀ {floor : Precedence} {ls rest : List Lexeme} {e : Node}, Chain floor ls e rest →
    (headKind ls).startsExpression = Bool.true
  | _, _, _, _, .operand h => h.begins
  | _, _, _, _, .binary h _ _ _ _ => h.begins
  | _, _, _, _, .call h _ _ => h.begins

/-- A statement begins with a token that begins statements. -/
theorem Statement.begins {ls rest : List Lexeme} {s : Node} (h : Statement ls s rest) :
    (headKind ls).startsStatement = Bool.true := by
  cases h with
  | letStatement | returnNothing | returnLast | returnValue => rfl
  | expression h _ => simp [TokenKind.startsStatement, h.begins]

/-! ## How readings end -/

/-- Where a statement ends, its expression cannot be continued. -/
theorem Ending.stops {ls rest : List Lexeme} (h : Ending ls rest) : (headKind ls).endsExpression := by
  cases h with
  | semicolon => exact TokenKind.endsExpression_semicolon
  | nothing _ h => exact h

/-- Where an argument ends, its expression cannot be continued. -/
theorem MoreArguments.stops {ls rest : List Lexeme} {as : List Node} (h : MoreArguments ls as rest) :
    (headKind ls).endsExpression := by
  cases h with
  | close => exact TokenKind.endsExpression_rparen
  | more => exact TokenKind.endsExpression_comma

/-- No `else` follows an argument. -/
theorem MoreArguments.ne_else {ls rest : List Lexeme} {as : List Node} (h : MoreArguments ls as rest) :
    headKind ls ≠ .elseKeyword := by
  cases h <;> nofun

end Reading

end Monkey
