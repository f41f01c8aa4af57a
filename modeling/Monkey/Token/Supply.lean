import Monkey.Token.Scan

/-!
# Handing out tokens

A `Supply` hands out the tokens of one text to several takers: `next` gives a token to whoever asks and never ends,
`item?` is one step of a walk over the tokens and `walk` a walk to its end. A walk ends with the end token, and once a
walk has ended no walk gives anything more; end tokens handed out by `next` do not count for that.
-/

namespace Monkey

/-- The tokens of a text, some of them already handed out. -/
structure Supply where
  cursor : Cursor
  walked : Bool

namespace Supply

/-- The supply that has handed out nothing. -/
def ofText (text : String) : Supply :=
  ⟨.ofText text, false⟩

/-- The next token; past the last one, the end token. -/
def next (s : Supply) : Token × Supply :=
  (s.cursor.read.1, { s with cursor := s.cursor.read.2 })

/-- One step of a walk. -/
def item? (s : Supply) : Option Token × Supply :=
  if s.walked then (none, s)
  else (some s.cursor.read.1, ⟨s.cursor.read.2, s.cursor.read.1.kind = .eof⟩)

/-- A walk to its end: all that is left, the end token last. -/
def walk (s : Supply) : List Token × Supply :=
  if s.walked then ([], s)
  else (s.cursor.tokens, ⟨s.cursor.toEnd.2, true⟩)

end Supply

end Monkey
