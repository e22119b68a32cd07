import Mathlib

/-!
# Signed arithmetic through magnitudes, and masks over two's complement

Arbitrary-precision integer libraries divide signed numbers the way a processor's words are
specified only through their magnitudes: the quotient of the absolute values, then the sign
put back. This file says what that computes, and what the bitwise mask operations of such a
library (`lor`, `land`, `lnot` on two's-complement integers) give on a non-negative number.

* `tdiv_eq_abs_div`, `tmod_eq_abs_mod`: the magnitude formulas are truncating division and its
  remainder, `Int.tdiv` and `Int.tmod`, for every divisor (zero included).
* `lor_lnot_two_pow_sub_one`, `land_two_pow_sub_one`: setting every bit from `k` up, or clearing
  them, leaves `m % 2^k - 2^k` or `m % 2^k`.
* `testBit_two_pow_sub_two_pow_add`: the bits of `2^n - 2^k + r` for `r < 2^k`.
-/

namespace EpvChain.Lib

/-! ### Truncating division from magnitudes -/

/-- The quotient of the magnitudes, negated when exactly one operand is negative. -/
theorem tdiv_eq_abs_div (a b : Int) :
    a.tdiv b = |a| / |b| * (if a * b < 0 then -1 else 1) := by
  -- `tdiv` is odd in each argument; on magnitudes it is `ediv`
  rcases lt_or_ge a 0 with ha | ha <;> rcases lt_or_ge b 0 with hb | hb
  · rw [abs_of_neg ha, abs_of_neg hb, if_neg (not_lt.mpr (mul_pos_of_neg_of_neg ha hb).le),
      mul_one, ← Int.tdiv_eq_ediv_of_nonneg (neg_nonneg.mpr ha.le), Int.neg_tdiv, Int.tdiv_neg,
      neg_neg]
  · rcases hb.eq_or_lt with rfl | hb
    · simp
    · rw [abs_of_neg ha, abs_of_pos hb, if_pos (mul_neg_of_neg_of_pos ha hb), mul_neg_one,
        ← Int.tdiv_eq_ediv_of_nonneg (neg_nonneg.mpr ha.le), Int.neg_tdiv, neg_neg]
  · rcases ha.eq_or_lt with rfl | ha
    · simp
    · rw [abs_of_pos ha, abs_of_neg hb, if_pos (mul_neg_of_pos_of_neg ha hb), mul_neg_one,
        ← Int.tdiv_eq_ediv_of_nonneg ha.le, Int.tdiv_neg, neg_neg]
  · rw [abs_of_nonneg ha, abs_of_nonneg hb, if_neg (not_lt.mpr (mul_nonneg ha hb)), mul_one,
      Int.tdiv_eq_ediv_of_nonneg ha]

/-- The remainder of the magnitudes, with the dividend's sign. -/
theorem tmod_eq_abs_mod (a b : Int) :
    a.tmod b = |a| % |b| * (if a < 0 then -1 else 1) := by
  -- `tmod` ignores the divisor's sign and is odd in the dividend
  have hdivisor : a.tmod |b| = a.tmod b := by
    rcases abs_choice b with h | h <;> rw [h]
    exact Int.tmod_neg a b
  rw [← hdivisor]
  rcases lt_or_ge a 0 with ha | ha
  · rw [abs_of_neg ha, if_pos ha, mul_neg_one, ← Int.tmod_eq_emod_of_nonneg (neg_nonneg.mpr ha.le),
      Int.neg_tmod, neg_neg]
  · rw [abs_of_nonneg ha, if_neg (not_lt.mpr ha), mul_one, Int.tmod_eq_emod_of_nonneg ha]

/-! ### Masks -/

/-- The low-bit mask `2^k - 1` is the same number as an `Int` and as a `Nat`. -/
theorem two_pow_sub_one_cast (k : Nat) : ((2 : Int) ^ k - 1) = ((2 ^ k - 1 : Nat) : Int) := by
  have : 1 ≤ 2 ^ k := Nat.one_le_two_pow
  push_cast [this]
  rfl

/-- Clearing the bits below `k` of the mask's complement, in the unsigned picture. -/
theorem ldiff_two_pow_sub_one (k m : Nat) : Nat.ldiff (2 ^ k - 1) m = 2 ^ k - (m % 2 ^ k + 1) := by
  apply Nat.eq_of_testBit_eq
  intro i
  rw [Nat.testBit_ldiff, Nat.testBit_two_pow_sub_one, Nat.testBit_two_pow_sub_succ
    (Nat.mod_lt _ (Nat.two_pow_pos k)), Nat.testBit_mod_two_pow]
  by_cases hi : i < k <;> simp [hi]

/-- Setting every bit of a non-negative `m` from `k` up gives the negative number whose low `k`
bits are `m`'s. -/
theorem lor_lnot_two_pow_sub_one (m k : Nat) :
    Int.lor m (Int.lnot ((2 : Int) ^ k - 1)) = (m % 2 ^ k : Nat) - 2 ^ k := by
  rw [two_pow_sub_one_cast]
  -- `lnot` of a natural `n` is `-[n+1]`, and `lor` with it is `-[ldiff n m + 1]`
  show Int.negSucc (Nat.ldiff (2 ^ k - 1) m) = _
  have hlt : m % 2 ^ k < 2 ^ k := Nat.mod_lt _ (Nat.two_pow_pos k)
  rw [ldiff_two_pow_sub_one, Int.negSucc_eq]
  push_cast [Nat.succ_le_of_lt hlt]
  ring

/-- Clearing every bit of a non-negative `m` from `k` up leaves `m % 2^k`. -/
theorem land_two_pow_sub_one (m k : Nat) :
    Int.land m ((2 : Int) ^ k - 1) = (m % 2 ^ k : Nat) := by
  rw [two_pow_sub_one_cast]
  show (((m &&& (2 ^ k - 1)) : Nat) : Int) = _
  rw [Nat.and_two_pow_sub_one_eq_mod]

/-- The bits of `2^n - 2^k + r`: those of `r` below `k`, and ones up to `n`. -/
theorem testBit_two_pow_sub_two_pow_add {n k r : Nat} (hk : k ≤ n) (hr : r < 2 ^ k) (j : Nat) :
    (2 ^ n - 2 ^ k + r).testBit j = if j < k then r.testBit j else decide (j < n) := by
  have hsplit : 2 ^ n - 2 ^ k + r = 2 ^ k * (2 ^ (n - k) - 1) + r := by
    rw [Nat.mul_sub, mul_one, ← pow_add, Nat.add_sub_cancel' hk]
  rw [hsplit, Nat.testBit_two_pow_mul_add _ hr, Nat.testBit_two_pow_sub_one]
  split_ifs with hj
  · rfl
  · simp only [decide_eq_decide]
    omega

end EpvChain.Lib
