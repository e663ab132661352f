/-
# Masks of an alignment

The negation of a power of two, in a machine word, is the mask that takes a number down to a
multiple. A number other than 0 that its own mask leaves alone is a power of two.
-/

import Mathlib.Data.Nat.Bitwise
import Mathlib.Tactic.Ring

namespace Alignment

variable {width k x n : ℕ}

/-- The mask clears the bits below the power. -/
theorem and_neg_two_pow (inside : x < 2 ^ width) (small : k ≤ width) :
    x &&& (2 ^ width - 2 ^ k) = x / 2 ^ k * 2 ^ k := by
  have positive : 0 < 2 ^ k := Nat.two_pow_pos k
  have order : 2 ^ k ≤ 2 ^ width := Nat.pow_le_pow_right Nat.two_pos small
  apply Nat.eq_of_testBit_eq
  intro i
  have mask :
      (2 ^ width - (2 ^ k - 1 + 1)).testBit i = (decide (i < width) && !decide (i < k)) := by
    rw [Nat.testBit_two_pow_sub_succ (by omega), Nat.testBit_two_pow_sub_one]
  rw [Nat.sub_add_cancel positive] at mask
  rw [Nat.testBit_and, mask, Nat.testBit_mul_two_pow, Nat.testBit_div_two_pow]
  by_cases low : i < k
  · simp [low]
  · have at_ : i - k + k = i := by omega
    rw [at_]
    by_cases high : i < width
    · simp [low, high, Nat.le_of_not_lt low]
    · have clear : x.testBit i = false :=
        Nat.testBit_lt_two_pow (inside.trans_le (Nat.pow_le_pow_right Nat.two_pos (by omega)))
      simp [clear]

/-- A number and one less than a power take the mask up to a multiple. -/
theorem le_and_neg_two_pow (small : k ≤ width) (inside : x + 2 ^ k - 1 < 2 ^ width) :
    x ≤ (x + 2 ^ k - 1) &&& (2 ^ width - 2 ^ k) ∧
      (x + 2 ^ k - 1) &&& (2 ^ width - 2 ^ k) < x + 2 ^ k ∧
      2 ^ k ∣ (x + 2 ^ k - 1) &&& (2 ^ width - 2 ^ k) := by
  have positive : 0 < 2 ^ k := Nat.two_pow_pos k
  rw [and_neg_two_pow inside small]
  have split := Nat.div_add_mod' (x + 2 ^ k - 1) (2 ^ k)
  have rest := Nat.mod_lt (x + 2 ^ k - 1) positive
  exact ⟨by omega, by omega, Nat.dvd_mul_left _ _⟩

/-- A power of two is left alone by its own mask. -/
theorem two_pow_and_neg (small : k < width) : 2 ^ k &&& (2 ^ width - 2 ^ k) = 2 ^ k := by
  rw [and_neg_two_pow (Nat.pow_lt_pow_right Nat.one_lt_two small) small.le,
    Nat.div_self (Nat.two_pow_pos k), Nat.one_mul]

/-- What its own mask leaves alone has one bit. -/
theorem exists_eq_two_pow (positive : 0 < n) (fits : n ≤ 2 ^ width)
    (kept : n &&& (2 ^ width - n) = n) : ∃ k, n = 2 ^ k := by
  have cleared : n &&& (n - 1) = 0 := by
    apply Nat.eq_of_testBit_eq
    intro i
    rw [Nat.zero_testBit, Nat.testBit_and, Bool.and_eq_false_iff]
    by_cases bit : n.testBit i = true
    · right
      have masked : (2 ^ width - (n - 1 + 1)).testBit i = true := by
        rw [Nat.sub_add_cancel positive]
        rw [← kept, Nat.testBit_and, Bool.and_eq_true] at bit
        exact bit.2
      rw [Nat.testBit_two_pow_sub_succ (by omega)] at masked
      simpa using (Bool.and_eq_true_iff.1 masked).2
    · left
      simpa using bit
  exact (Nat.and_sub_one_eq_zero_iff_isPowerOfTwo positive.ne').1 cleared

end Alignment
