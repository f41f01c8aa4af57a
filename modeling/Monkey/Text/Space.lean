/-!
# White space

The characters that count as white space when a line of input or a setting is trimmed. The set is wider than the
language's own blanks: it holds every Unicode space and the four information separators.
-/

namespace Monkey

/-- The white-space characters, as intervals of code points. -/
def spaceIntervals : List (Nat × Nat) :=
  [(0x09, 0x0D), (0x1C, 0x20), (0x85, 0x85), (0xA0, 0xA0), (0x1680, 0x1680), (0x2000, 0x200A), (0x2028, 0x2029),
    (0x202F, 0x202F), (0x205F, 0x205F), (0x3000, 0x3000)]

/-- A white-space character. -/
def isSpace (c : Char) : Bool :=
  spaceIntervals.any fun (lo, hi) => lo ≤ c.toNat && c.toNat ≤ hi

/-- A text without the white space at its two ends. -/
def trim (s : String) : String :=
  .ofList ((s.toList.dropWhile isSpace).reverse.dropWhile isSpace).reverse

end Monkey
