/-!
# Signed words of 64 bits

Integers of the language are whole numbers between `minWord` and `maxWord`; `wrap` takes any whole number to the one
in that range that differs from it by a multiple of `2 ^ 64`.
-/

namespace Monkey

/-- The least word. -/
def minWord : Int := -0x8000000000000000

/-- The greatest word. -/
def maxWord : Int := 0x7FFFFFFFFFFFFFFF

/-- The word that differs from a number by a multiple of `2 ^ 64`. -/
def wrap (n : Int) : Int :=
  n.bmod 0x10000000000000000

theorem minWord_le_wrap (n : Int) : minWord ≤ wrap n :=
  Int.le_bmod (by decide)

theorem wrap_le_maxWord (n : Int) : wrap n ≤ maxWord :=
  Int.le_sub_one_of_lt (Int.bmod_lt (by decide))

/-- A word is left as it is. -/
theorem wrap_eq_self {n : Int} (hmin : minWord ≤ n) (hmax : n ≤ maxWord) : wrap n = n :=
  Int.bmod_eq_of_le hmin (Int.lt_add_one_of_le hmax)

/-- The quotient of two words, cut off toward zero; only the least word divided by minus one wraps. -/
def quotient (a b : Int) : Int :=
  wrap (a.tdiv b)

end Monkey
