import Monkey.Editor.Index

/-!
# Serving an editor

The documents that are open in an editor, and the index of them. A document is indexed when it is opened and when its
text changes; a name can then be looked up at a place in it. The word that stands at a place is found by the editor's
own means, so the search for it is a parameter `wordAt`.
-/

namespace Monkey.Editor

/-- The open documents with their texts, and the index. -/
structure Server where
  texts : List (String × String)
  index : Index

namespace Server

/-- A server before any document is opened. -/
def empty : Server :=
  ⟨[], .empty⟩

/-- Take the text of a document, newly opened or changed, and tell what is wrong with it. The text is kept even if it
cannot be indexed. -/
def receive (document text : String) : EStateM Refusal Server (List Notice) := fun s =>
  match Index.record document text s.index with
  | .ok notices index => .ok notices ⟨(document, text) :: s.texts, index⟩
  | .error why index => .error why ⟨(document, text) :: s.texts, index⟩

/-- What is wrong with the text of a document, and the server that knows it. -/
def take (s : Server) (document text : String) : Except Refusal (List Notice × Server) :=
  match receive document text s with
  | .ok notices s => .ok (notices, s)
  | .error why _ => .error why

/-- The text of a document. -/
def text? (s : Server) (document : String) : Option String :=
  s.texts.lookup document

/-- The symbol whose name stands at a place of an open document. -/
def symbolAt (s : Server) (wordAt : String → Place → String) (document : String) (place : Place) : Option Symbol :=
  match s.text? document with
  | none => none
  | some text =>
    let word := wordAt text place
    if word.isEmpty then none else s.index.lookup word (some document)

/-- What is shown for the name at a place: the text of its binding. -/
def hover (s : Server) (wordAt : String → Place → String) (document : String) (place : Place) : Option String :=
  (s.symbolAt wordAt document place).map Symbol.detail

/-- Where the name at a place is bound: the document and the stretch of it. -/
def definition (s : Server) (wordAt : String → Place → String) (document : String) (place : Place) :
    Option (String × Range) :=
  (s.symbolAt wordAt document place).map fun symbol => (symbol.document, symbol.range)

end Server

end Monkey.Editor
