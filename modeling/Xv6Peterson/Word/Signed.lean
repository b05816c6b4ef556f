import Mathlib

namespace Xv6Peterson
namespace Word

/-!
# Signed 32-bit words that hold small nonnegative values

A C `int` is a two's complement word of 32 bits, `Int32` here.  Code that
only shifts, masks, adds and subtracts small nonnegative values computes
with it as with integers: a right shift by `b` divides by `2 ^ b`, `1 << b`
is `2 ^ b`, a mask is the bitwise and of the natural numbers, and a sum or a
difference that stays in range does not wrap.  The lemmas below say so, each
under the side conditions that keep the word operation away from its
overflow and its reduction of the shift amount modulo the width.

Everything is stated through `Int32.toInt`, which determines a word
(`Int32.toInt_inj`), so that `omega` can finish the arithmetic.
-/

/-- A nonnegative word is the word of its value. -/
theorem eq_ofNat_toNat {b : Int32} (nonneg : 0 ≤ b.toInt) : b = Int32.ofNat b.toInt.toNat := by
  apply Int32.toInt_inj.mp
  rw [Int32.toInt_ofNat', Int.toNat_of_nonneg nonneg]
  have below := Int32.toInt_lt b
  exact (Int.bmod_eq_of_le (by simp [Int32.size]; omega) (by simp [Int32.size]; omega)).symm

/-- A nonnegative word is the word of a natural number. -/
theorem exists_eq_ofNat {b : Int32} (nonneg : 0 ≤ b.toInt) :
    exists n : Nat, b = Int32.ofNat n ∧ b.toInt = n :=
  ⟨b.toInt.toNat, eq_ofNat_toNat nonneg, (Int.toNat_of_nonneg nonneg).symm⟩

/-- A natural number below `2 ^ 31` is the value of its word. -/
theorem toInt_ofNat_of_lt {n : Nat} (small : n < 2 ^ 31) : (Int32.ofNat n).toInt = n := by
  rw [Int32.toInt_ofNat']
  exact Int.bmod_eq_of_le (by simp only [Int32.size]; omega) (by simp only [Int32.size]; omega)

/-- A shift reads its amount modulo the width, through `smod`; an amount
below the width is read as it is.  There are only 32 such amounts. -/
theorem shiftAmount_toNat {b : Int32} (nonneg : 0 ≤ b.toInt) (small : b.toInt < 32) :
    (b.toBitVec.smod 32).toNat = b.toInt.toNat := by
  have table : forall k, k < 32 -> ((Int32.ofNat k).toBitVec.smod 32).toNat = k := by decide
  calc (b.toBitVec.smod 32).toNat
      = ((Int32.ofNat b.toInt.toNat).toBitVec.smod 32).toNat := by rw [← eq_ofNat_toNat nonneg]
    _ = b.toInt.toNat := table _ (by omega)

/-- The arithmetic right shift divides by a power of two, rounding down. -/
theorem toInt_shiftRight (a : Int32) {b : Int32} (nonneg : 0 ≤ b.toInt) (small : b.toInt < 32) :
    (a >>> b).toInt = a.toInt / 2 ^ b.toInt.toNat := by
  rw [← Int32.toInt_toBitVec, Int32.toBitVec_shiftRight, BitVec.sshiftRight_eq',
    BitVec.toInt_sshiftRight, shiftAmount_toNat nonneg small, Int.shiftRight_eq_div_pow,
    Int32.toInt_toBitVec]
  norm_cast

/-- The bits of a nonnegative word, read as a natural number, are its value. -/
theorem toNat_toBitVec {a : Int32} (nonneg : 0 ≤ a.toInt) : (a.toBitVec.toNat : Int) = a.toInt := by
  rw [← Int32.toInt_toBitVec] at nonneg ⊢
  rw [BitVec.toInt_eq_msb_cond] at nonneg ⊢
  cases sign : a.toBitVec.msb
  · rfl
  · -- the sign bit would make the value negative
    have large := BitVec.msb_eq_true_iff_two_mul_ge.mp sign
    simp [sign] at nonneg
    omega

/-- `1 << b` is `2 ^ b` while the bit stays below the sign bit. -/
theorem toInt_one_shiftLeft {b : Int32} (nonneg : 0 ≤ b.toInt) (small : b.toInt < 31) :
    (1 <<< b).toInt = 2 ^ b.toInt.toNat := by
  rw [← Int32.toInt_toBitVec, Int32.toBitVec_shiftLeft, BitVec.shiftLeft_eq',
    BitVec.toInt_shiftLeft, shiftAmount_toNat nonneg (by omega)]
  have power : 2 ^ b.toInt.toNat < 2 ^ 31 := Nat.pow_lt_pow_right (by decide) (by omega)
  rw [Int32.toBitVec_one, BitVec.toNat_one (by decide), Nat.one_shiftLeft]
  push_cast
  have positive : (0 : Int) < 2 ^ b.toInt.toNat := Int.pow_pos (by decide)
  have bounded : (2 : Int) ^ b.toInt.toNat < 2 ^ 31 := by exact_mod_cast power
  exact Int.bmod_eq_of_le (by omega) (by omega)

/-- The mask of two nonnegative words is the bitwise and of their values. -/
theorem toInt_and {a b : Int32} (aNonneg : 0 ≤ a.toInt) (bNonneg : 0 ≤ b.toInt) :
    (a &&& b).toInt = ((a.toInt.toNat &&& b.toInt.toNat : Nat) : Int) := by
  have aNat := toNat_toBitVec aNonneg
  have bNat := toNat_toBitVec bNonneg
  have aBelow := Int32.toInt_lt a
  have masked : a.toBitVec.toNat &&& b.toBitVec.toNat ≤ a.toBitVec.toNat := Nat.and_le_left
  rw [← Int32.toInt_toBitVec, Int32.toBitVec_and, BitVec.toInt_and,
    Int.bmod_eq_of_le (by omega) (by omega)]
  congr 2 <;> omega

theorem toInt_add_of_range {a b : Int32} (low : -2 ^ 31 ≤ a.toInt + b.toInt)
    (high : a.toInt + b.toInt < 2 ^ 31) : (a + b).toInt = a.toInt + b.toInt := by
  rw [Int32.toInt_add]
  exact Int.bmod_eq_of_le (by omega) (by omega)

theorem toInt_sub_of_range {a b : Int32} (low : -2 ^ 31 ≤ a.toInt - b.toInt)
    (high : a.toInt - b.toInt < 2 ^ 31) : (a - b).toInt = a.toInt - b.toInt := by
  rw [Int32.toInt_sub]
  exact Int.bmod_eq_of_le (by omega) (by omega)

/-- The test `(n & (n - 1)) == 0` on a positive word: it clears the lowest set
bit, which leaves nothing exactly for powers of two. -/
theorem and_sub_one_eq_zero_iff {n : Int32} (positive : 0 < n.toInt) :
    n &&& (n - 1) = 0 ↔ exists k : Nat, n.toInt = 2 ^ k := by
  have below := Int32.toInt_lt n
  have decremented : (n - 1).toInt = n.toInt - 1 := by
    rw [toInt_sub_of_range] <;> simp <;> omega
  have masked := toInt_and (Int.le_of_lt positive) (show 0 ≤ (n - 1).toInt by omega)
  have sameNat : (n - 1).toInt.toNat = n.toInt.toNat - 1 := by omega
  rw [sameNat] at masked
  rw [← Int32.toInt_inj, masked, Int32.toInt_zero, Int.natCast_eq_zero,
    Nat.and_sub_one_eq_zero_iff_isPowerOfTwo (by omega)]
  constructor
  · rintro ⟨k, power⟩
    exact ⟨k, by rw [← Int.toNat_of_nonneg (Int.le_of_lt positive), power]; norm_cast⟩
  · rintro ⟨k, power⟩
    exact ⟨k, by rw [power]; norm_cast⟩

end Word
end Xv6Peterson
