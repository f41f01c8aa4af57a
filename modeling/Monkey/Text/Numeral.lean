/-!
# Numerals

Whole numbers as they are written: a numeral of more than `maxDigits` digits is never read. A setting may be written
with the decimal digits of any script, a sign, and single underscores between digits.
-/

namespace Monkey

/-- The most digits that a numeral may have. -/
def maxDigits : Nat := 4300

/-- The number with the given decimal digits, the first one the most significant. -/
def ofDigits (digits : List Nat) : Nat :=
  digits.foldl (fun n d => 10 * n + d) 0

/-- The zeros of all scripts with decimal digits; the other nine follow each. -/
def zeros : List Nat :=
  [0x30, 0x660, 0x6F0, 0x7C0, 0x966, 0x9E6, 0xA66, 0xAE6, 0xB66, 0xBE6, 0xC66, 0xCE6, 0xD66, 0xDE6, 0xE50, 0xED0, 0xF20,
    0x1040, 0x1090, 0x17E0, 0x1810, 0x1946, 0x19D0, 0x1A80, 0x1A90, 0x1B50, 0x1BB0, 0x1C40, 0x1C50, 0xA620, 0xA8D0,
    0xA900, 0xA9D0, 0xA9F0, 0xAA50, 0xABF0, 0xFF10, 0x104A0, 0x10D30, 0x11066, 0x110F0, 0x11136, 0x111D0, 0x112F0,
    0x11450, 0x114D0, 0x11650, 0x116C0, 0x11730, 0x118E0, 0x11950, 0x11C50, 0x11D50, 0x11DA0, 0x16A60, 0x16AC0, 0x16B50,
    0x1D7CE, 0x1D7D8, 0x1D7E2, 0x1D7EC, 0x1D7F6, 0x1E140, 0x1E2F0, 0x1E950, 0x1FBF0]

/-- The value of a decimal digit. -/
def digit? (c : Char) : Option Nat :=
  (zeros.find? fun z => z ≤ c.toNat && c.toNat < z + 10).map (c.toNat - ·)

/-- The digits of an unsigned numeral, which may have single underscores between them. -/
def digits? : List Char → Option (List Nat)
  | [] => none
  | c :: cs =>
    match digit? c, cs with
    | none, _ => none
    | some d, [] => some [d]
    | some d, '_' :: rest => (digits? rest).map (d :: ·)
    | some d, rest => (digits? rest).map (d :: ·)

/-- The number an unsigned numeral stands for. -/
def readNat? (cs : List Char) : Option Nat :=
  match digits? cs with
  | none => none
  | some ds => if ds.length ≤ maxDigits then some (ofDigits ds) else none

/-- The number a numeral stands for, which may begin with a sign. -/
def readInt? : List Char → Option Int
  | '+' :: cs => (readNat? cs).map Int.ofNat
  | '-' :: cs => (readNat? cs).map fun n => -Int.ofNat n
  | cs => (readNat? cs).map Int.ofNat

end Monkey
