import Mathlib.Data.Int.ModEq
import Monkey.Word

/-!
# Words and machine words

A word is the signed value of a machine word of 64 bits (`toInt_ofInt`), so what wraps are the operations of a machine:
sum, difference, product and negation (`wrap_add` and the rest) and the quotient (`quotient_eq_sdiv`), which is the one
of the absolute values with the sign put back (`quotient_eq_abs`). Of all quotients of words a single one is no word
(`quotient_eq_tdiv_iff`).

`wrap` is determined by what it leaves unchanged, the number up to multiples of `2 ^ 64` (`eq_wrap_iff`). So it does not
matter whether the operands of a sum or product have been wrapped before (`wrap_congr`).
-/

namespace Monkey

variable {a b m n : Int}

/-! ## The word of a number -/

/-- Wrapping a number changes it by a multiple of the word size. -/
theorem wrap_modEq (n : Int) : wrap n ≡ n [ZMOD 2 ^ 64] :=
  Int.bmod_emod

/-- **The word of a number** is the only one that differs from it by a multiple of `2 ^ 64`. -/
theorem eq_wrap_iff : m = wrap n ↔ minWord ≤ m ∧ m ≤ maxWord ∧ m ≡ n [ZMOD 2 ^ 64] := by
  constructor
  · rintro rfl
    exact ⟨minWord_le_wrap n, wrap_le_maxWord n, wrap_modEq n⟩
  · rintro ⟨hmin, hmax, hmod⟩
    have hwrap := hmod.trans (wrap_modEq n).symm
    have hmin' := minWord_le_wrap n
    have hmax' := wrap_le_maxWord n
    unfold Int.ModEq at hwrap
    unfold minWord maxWord at *
    omega

/-- Numbers that differ by a multiple of the word size wrap to the same word. -/
theorem wrap_congr (h : m ≡ n [ZMOD 2 ^ 64]) : wrap m = wrap n :=
  eq_wrap_iff.2 ⟨minWord_le_wrap m, wrap_le_maxWord m, (wrap_modEq m).trans h⟩

/-! ## Machine words -/

/-- Wrapping a number is taking its last bits as a signed word. -/
theorem toInt_ofInt (n : Int) : (BitVec.ofInt 64 n).toInt = wrap n :=
  BitVec.toInt_ofInt n

/-- A word is the value of its machine word. -/
theorem toInt_ofInt_of_word (hmin : minWord ≤ n) (hmax : n ≤ maxWord) : (BitVec.ofInt 64 n).toInt = n := by
  rw [toInt_ofInt, wrap_eq_self hmin hmax]

theorem wrap_add (a b : Int) : wrap (a + b) = (BitVec.ofInt 64 a + BitVec.ofInt 64 b).toInt := by
  rw [← BitVec.ofInt_add, toInt_ofInt]

theorem wrap_neg (a : Int) : wrap (-a) = (-BitVec.ofInt 64 a).toInt := by
  rw [← BitVec.ofInt_neg, toInt_ofInt]

theorem wrap_sub (a b : Int) : wrap (a - b) = (BitVec.ofInt 64 a - BitVec.ofInt 64 b).toInt := by
  rw [BitVec.sub_eq_add_neg, ← BitVec.ofInt_neg, ← wrap_add, Int.sub_eq_add_neg]

theorem wrap_mul (a b : Int) : wrap (a * b) = (BitVec.ofInt 64 a * BitVec.ofInt 64 b).toInt := by
  rw [← BitVec.ofInt_mul, toInt_ofInt]

/-! ## Quotients -/

/-- A quotient is cut off toward zero: it is that of the absolute values, with the sign put back. -/
theorem quotient_eq_abs (a b : Int) : quotient a b = wrap (if a < 0 ↔ b < 0 then |a| / |b| else -(|a| / |b|)) := by
  have htdiv : a.tdiv b = if a < 0 ↔ b < 0 then |a| / |b| else -(|a| / |b|) := by
    rcases lt_or_ge a 0 with ha | ha <;> rcases lt_or_ge b 0 with hb | hb
    · rw [if_pos (iff_of_true ha hb), abs_of_neg ha, abs_of_neg hb, ← Int.tdiv_eq_ediv_of_nonneg (by omega),
        Int.neg_tdiv_neg]
    · rw [if_neg (by omega), abs_of_neg ha, abs_of_nonneg hb, ← Int.tdiv_eq_ediv_of_nonneg (by omega), Int.neg_tdiv,
        Int.neg_neg]
    · rw [if_neg (by omega), abs_of_nonneg ha, abs_of_neg hb, ← Int.tdiv_eq_ediv_of_nonneg ha, Int.tdiv_neg,
        Int.neg_neg]
    · rw [if_pos (by omega), abs_of_nonneg ha, abs_of_nonneg hb, ← Int.tdiv_eq_ediv_of_nonneg ha]
  rw [quotient, htdiv]

section Words

variable (hamin : minWord ≤ a) (hamax : a ≤ maxWord) (hbmin : minWord ≤ b) (hbmax : b ≤ maxWord)

include hamin hamax hbmin hbmax

/-- The quotient of two words is that of signed machine words. -/
theorem quotient_eq_sdiv : quotient a b = ((BitVec.ofInt 64 a).sdiv (BitVec.ofInt 64 b)).toInt := by
  rw [BitVec.toInt_sdiv, toInt_ofInt_of_word hamin hamax, toInt_ofInt_of_word hbmin hbmax]
  rfl

/-- Words are the same if their machine words are. -/
theorem ofInt_inj_of_word : BitVec.ofInt 64 a = BitVec.ofInt 64 b ↔ a = b := by
  rw [← BitVec.toInt_inj, toInt_ofInt_of_word hamin hamax, toInt_ofInt_of_word hbmin hbmax]

theorem slt_ofInt_of_word : (BitVec.ofInt 64 a).slt (BitVec.ofInt 64 b) = decide (a < b) := by
  rw [BitVec.slt, toInt_ofInt_of_word hamin hamax, toInt_ofInt_of_word hbmin hbmax]

/-- **Only the least word divided by minus one wraps.** -/
theorem quotient_eq_tdiv_iff : quotient a b = a.tdiv b ↔ ¬(a = minWord ∧ b = -1) := by
  constructor
  · rintro h ⟨rfl, rfl⟩
    exact absurd h (by decide)
  · intro h
    have hne : BitVec.ofInt 64 a ≠ BitVec.intMin 64 ∨ BitVec.ofInt 64 b ≠ -1#64 := by
      have hleast := ofInt_inj_of_word (b := minWord) hamin hamax (by decide) (by decide)
      have hminus := ofInt_inj_of_word (a := b) (b := -1) hbmin hbmax (by decide) (by decide)
      rw [show BitVec.intMin 64 = BitVec.ofInt 64 minWord by decide, show -1#64 = BitVec.ofInt 64 (-1) by decide]
      rwa [Ne, Ne, hleast, hminus, ← not_and_or]
    rw [quotient_eq_sdiv hamin hamax hbmin hbmax, BitVec.toInt_sdiv_of_ne_or_ne _ _ hne,
      toInt_ofInt_of_word hamin hamax, toInt_ofInt_of_word hbmin hbmax]

end Words

end Monkey
