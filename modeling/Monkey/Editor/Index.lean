import Monkey.Editor.Symbol

/-!
# The symbol index

Two tables are kept: the symbols of each document, as of its latest text, and the symbols with each name. Both are in
the order in which their keys were first met. Where a document is indexed, its symbols take the place of those it had
and the table of names is made anew. A name is looked up in a given document first.
-/

namespace Monkey.Editor

/-- Lists of symbols under keys, in the order in which the keys were first met. -/
abbrev Table :=
  List (String × List Symbol)

namespace Table

/-- What stands under a key. -/
def find? (table : Table) (key : String) : Option (List Symbol) :=
  List.lookup key table

/-- Change what stands under a key; a new key comes behind all others. -/
def alter (key : String) (f : List Symbol → List Symbol) : Table → Table
  | [] => [(key, f [])]
  | (k, ss) :: rest => if k = key then (k, f ss) :: rest else (k, ss) :: alter key f rest

/-- All symbols, key after key. -/
def symbols (table : Table) : List Symbol :=
  table.flatMap Prod.snd

/-- Put a symbol behind those with the same name. -/
def add (table : Table) (s : Symbol) : Table :=
  table.alter s.name (· ++ [s])

/-- Some symbols under their names. -/
def byName (ss : List Symbol) : Table :=
  ss.foldl add []

end Table

/-- The symbols of each document, and the symbols with each name. -/
structure Index where
  documents : Table
  bindings : Table

namespace Index

/-- The index of no document. -/
def empty : Index :=
  ⟨[], []⟩

/-- Index a document as of a text, and tell what is wrong with it. Where this fails, the changes made before stay. -/
def record (document text : String) : EStateM Refusal Index (List Notice) := do
  let (symbols, diagnostics) ← MonadExcept.ofExcept (Symbol.collect document text)
  modify fun ix => { ix with documents := ix.documents.alter document fun _ => symbols }
  modify fun ix => { ix with bindings := .byName ix.documents.symbols }
  return diagnostics.map Notice.ofDiagnostic

/-- What is wrong with a document as of a text, and the index with it. -/
def update (ix : Index) (document text : String) : Except Refusal (List Notice × Index) :=
  match record document text ix with
  | .ok notices ix => .ok (notices, ix)
  | .error why _ => .error why

/-- The symbols of a document. -/
def symbolsOf (ix : Index) (document : String) : List Symbol :=
  (ix.documents.find? document).getD []

/-- The symbols with a name. -/
def named (ix : Index) (name : String) : List Symbol :=
  (ix.bindings.find? name).getD []

/-- All names that are bound. -/
def names (ix : Index) : List String :=
  ix.bindings.map Prod.fst

/-- The symbol with a name: the first one in the given document, else the first one of all. -/
def lookup (ix : Index) (name : String) (document : Option String) : Option Symbol :=
  ((ix.named name).find? fun s => some s.document = document).or (ix.named name).head?

end Index

end Monkey.Editor
