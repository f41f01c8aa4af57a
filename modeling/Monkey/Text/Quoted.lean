import Monkey.Text.Printable

/-!
# Quoted text

Text in a listing stands between single quotes, or between double quotes if it holds a single quote and no double
one. A backslash and the quote in use are escaped, as are characters that have no printed form.
-/

namespace Monkey

namespace Quoted

/-- The last `width` digits of a number in base sixteen, in lower case. -/
def hex : Nat → Nat → List Char
  | 0, _ => []
  | width + 1, n => hex width (n / 16) ++ [Nat.digitChar (n % 16)]

/-- The numbered escape of a character: the shortest of the widths two, four and eight that holds it. -/
def codeEscape (c : Char) : List Char :=
  if c.toNat < 0x100 then '\\' :: 'x' :: hex 2 c.toNat
  else if c.toNat < 0x10000 then '\\' :: 'u' :: hex 4 c.toNat
  else '\\' :: 'U' :: hex 8 c.toNat

/-- How a character is written between two quotes `q`. -/
def escape (q c : Char) : List Char :=
  if c = q || c = '\\' then ['\\', c]
  else if c = '\n' then ['\\', 'n']
  else if c = '\r' then ['\\', 'r']
  else if c = '\t' then ['\\', 't']
  else if isPrintable c then [c]
  else codeEscape c

/-- The quote that a text stands between. -/
def quoteFor (cs : List Char) : Char :=
  if cs.contains '\x27' && !cs.contains '\x22' then '\x22' else '\x27'

/-- The quoted form of a list of characters. -/
def encode (cs : List Char) : List Char :=
  let q := quoteFor cs
  q :: cs.flatMap (escape q) ++ [q]

end Quoted

/-- The quoted form of a text. -/
def quoted (s : String) : String :=
  .ofList (Quoted.encode s.toList)

end Monkey
