import Monkey.Parse.Rules
import Monkey.Tree.Text

/-!
# Symbols

What an editor knows of a document: the names that its top level binds, and what is wrong with it. Positions in an
editor are counted from zero, unlike those of tokens.
-/

namespace Monkey.Editor

/-- A position in a document: line and character, both counted from zero. -/
structure Place where
  line : Nat
  character : Nat
deriving DecidableEq

/-- The place of a position that is counted from one. -/
def Place.ofPosition (p : Position) : Place :=
  ⟨p.line - 1, p.column - 1⟩

/-- A stretch of a document, from its first place to the one behind its last. -/
structure Range where
  start : Place
  stop : Place
deriving DecidableEq

/-- The stretch of a line from a place on. -/
def Range.onLine (start : Place) (length : Nat) : Range :=
  ⟨start, ⟨start.line, start.character + length⟩⟩

/-- What a name is bound to, as far as the text tells. -/
inductive SymbolKind where
  | function
  | variable
deriving DecidableEq

/-- The name of a kind. -/
def SymbolKind.name : SymbolKind → String
  | .function => "Function"
  | .variable => "Variable"

/-- A name that the top level of a document binds; `detail` is the text of its binding. -/
structure Symbol where
  name : String
  kind : SymbolKind
  document : String
  place : Place
  detail : String
deriving DecidableEq

namespace Symbol

/-- Where the name of a symbol stands. -/
def range (s : Symbol) : Range :=
  .onLine s.place s.name.length

/-- The symbol of a statement, if it binds a name. -/
def ofStatement? (document : String) : Node → Option Symbol
  | .letStatement t target value =>
    let kind :=
      match value with
      | .function .. => .function
      | _ => .variable
    some ⟨target.name, kind, document, .ofPosition target.token.position, (Node.letStatement t target value).text⟩
  | _ => none

/-- The symbols of a program, in the order of their statements. -/
def ofProgram (document : String) (program : Node) : List Symbol :=
  program.statements.filterMap (ofStatement? document)

/-- The symbols of a document, and what is wrong with it. -/
def collect (document text : String) : Except Refusal (List Symbol × List Diagnostic) := do
  let p ← parse text
  return (ofProgram document p.program, p.diagnostics)

end Symbol

/-- What is wrong with a document, as it is shown in an editor. -/
structure Notice where
  message : String
  range : Range

/-- A diagnostic marks the first character of its token. -/
def Notice.ofDiagnostic (d : Diagnostic) : Notice :=
  ⟨d.message, .onLine (.ofPosition d.position) 1⟩

end Monkey.Editor
