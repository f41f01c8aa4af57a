/-!
# Tokens

A token is a kind, the text it was read from (its literal) and the place where that text begins.

* `TokenKind.word` is the kind of a run of letters: a keyword exactly when the whole run is spelled as one.
* `TokenKind.name` and `TokenKind.display` are the two ways a kind is written: by name in listings of tokens, by
  display in diagnostics.
-/

namespace Monkey

/-- A place in a text: line and column, both counted from one, in characters. -/
structure Position where
  line : Nat
  column : Nat
deriving DecidableEq

namespace Position

/-- The place of the first character of a text. -/
def start : Position := ⟨1, 1⟩

/-- The place that follows a character: only a newline ends a line. -/
def next (p : Position) (c : Char) : Position :=
  if c = '\n' then ⟨p.line + 1, 1⟩ else ⟨p.line, p.column + 1⟩

/-- The place that follows a run of characters. -/
def after (p : Position) (cs : List Char) : Position :=
  cs.foldl next p

@[simp] theorem after_nil (p : Position) : p.after [] = p := rfl

@[simp] theorem after_cons (p : Position) (c : Char) (cs : List Char) : p.after (c :: cs) = (p.next c).after cs := rfl

theorem after_append (p : Position) (cs ds : List Char) : p.after (cs ++ ds) = (p.after cs).after ds := by
  simp [after]

end Position

/-- The lexical categories. -/
inductive TokenKind where
  | illegal
  | eof
  | ident
  | int
  | assign
  | plus
  | minus
  | bang
  | asterisk
  | slash
  | lt
  | gt
  | eq
  | notEq
  | comma
  | semicolon
  | lparen
  | rparen
  | lbrace
  | rbrace
  | fnKeyword
  | letKeyword
  | trueKeyword
  | falseKeyword
  | ifKeyword
  | elseKeyword
  | returnKeyword
deriving DecidableEq

namespace TokenKind

/-- Every kind, once. -/
def all : List TokenKind :=
  [.illegal, .eof, .ident, .int, .assign, .plus, .minus, .bang, .asterisk, .slash, .lt, .gt, .eq, .notEq, .comma,
    .semicolon, .lparen, .rparen, .lbrace, .rbrace, .fnKeyword, .letKeyword, .trueKeyword, .falseKeyword, .ifKeyword,
    .elseKeyword, .returnKeyword]

/-- The name of a kind in a listing of tokens. -/
def name : TokenKind → String
  | .illegal => "ILLEGAL"
  | .eof => "EOF"
  | .ident => "IDENT"
  | .int => "INT"
  | .assign => "ASSIGN"
  | .plus => "PLUS"
  | .minus => "MINUS"
  | .bang => "BANG"
  | .asterisk => "ASTERISK"
  | .slash => "SLASH"
  | .lt => "LT"
  | .gt => "GT"
  | .eq => "EQ"
  | .notEq => "NOT_EQ"
  | .comma => "COMMA"
  | .semicolon => "SEMICOLON"
  | .lparen => "LPAREN"
  | .rparen => "RPAREN"
  | .lbrace => "LBRACE"
  | .rbrace => "RBRACE"
  | .fnKeyword => "FUNCTION"
  | .letKeyword => "LET"
  | .trueKeyword => "TRUE"
  | .falseKeyword => "FALSE"
  | .ifKeyword => "IF"
  | .elseKeyword => "ELSE"
  | .returnKeyword => "RETURN"

/-- How a diagnostic speaks of a kind: operators and delimiters by their symbol, all else by name. -/
def display : TokenKind → String
  | .assign => "="
  | .plus => "+"
  | .minus => "-"
  | .bang => "!"
  | .asterisk => "*"
  | .slash => "/"
  | .lt => "<"
  | .gt => ">"
  | .eq => "=="
  | .notEq => "!="
  | .comma => ","
  | .semicolon => ";"
  | .lparen => "("
  | .rparen => ")"
  | .lbrace => "\x7b"
  | .rbrace => "\x7d"
  | k => k.name

/-- The kind with a given name. -/
def ofName? (s : String) : Option TokenKind :=
  all.find? (·.name = s)

/-- The kind of a run of letters: a keyword if it is spelled as one, else an identifier. -/
def word (s : String) : TokenKind :=
  if s = "fn" then .fnKeyword
  else if s = "let" then .letKeyword
  else if s = "true" then .trueKeyword
  else if s = "false" then .falseKeyword
  else if s = "if" then .ifKeyword
  else if s = "else" then .elseKeyword
  else if s = "return" then .returnKeyword
  else .ident

/-- The kind of an operator or delimiter of one character. -/
def symbol? (c : Char) : Option TokenKind :=
  match c with
  | '=' => some .assign
  | '+' => some .plus
  | '-' => some .minus
  | '!' => some .bang
  | '*' => some .asterisk
  | '/' => some .slash
  | '<' => some .lt
  | '>' => some .gt
  | ',' => some .comma
  | ';' => some .semicolon
  | '(' => some .lparen
  | ')' => some .rparen
  | '\x7b' => some .lbrace
  | '\x7d' => some .rbrace
  | _ => none

/-- The kind of an operator of two characters. -/
def pair? (c d : Char) : Option TokenKind :=
  if d = '=' then
    if c = '=' then some .eq else if c = '!' then some .notEq else none
  else none

end TokenKind

/-- A token: its kind, its literal and the place where the literal begins. -/
structure Token where
  kind : TokenKind
  literal : String
  position : Position
deriving DecidableEq

end Monkey
