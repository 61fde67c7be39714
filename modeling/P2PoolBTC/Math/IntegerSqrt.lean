import Mathlib

/-! # Integer square roots

The mean of an estimate and its cofactor is never below the root, and an estimate that the mean does not
undercut is not above it. So an iteration that starts above the root and replaces the estimate by the mean
while that is smaller ends at the root.
-/

namespace P2PoolBTC.Math

variable {estimate : ℕ}

theorem sqrt_le_mean (value : ℕ) (positive : 0 < estimate) : Nat.sqrt value ≤ (estimate + value / estimate) / 2 := by
  rw [Nat.le_div_iff_mul_le two_pos]
  rcases le_total (Nat.sqrt value * 2) estimate with large | small
  · exact large.trans (Nat.le_add_right ..)
  · have cofactor : Nat.sqrt value * 2 - estimate ≤ value / estimate := by
      rw [Nat.le_div_iff_mul_le positive]
      have below : Nat.sqrt value * Nat.sqrt value ≤ value := Nat.sqrt_le value
      zify [small] at below ⊢
      nlinarith [sq_nonneg ((Nat.sqrt value : ℤ) - estimate)]
    omega

theorem le_sqrt_of_le_mean {value : ℕ} (positive : 0 < estimate)
    (least : estimate ≤ (estimate + value / estimate) / 2) : estimate ≤ Nat.sqrt value := by
  rw [Nat.le_sqrt, ← Nat.le_div_iff_mul_le positive]
  omega

/-- The cofactor of an estimate that is not below the root. -/
theorem cofactor_le {value : ℕ} (nonzero : 0 < value) (above : Nat.sqrt value ≤ estimate) :
    value / estimate ≤ Nat.sqrt value + 2 := by
  have root : 0 < Nat.sqrt value := Nat.sqrt_pos.mpr nonzero
  calc value / estimate ≤ value / Nat.sqrt value := Nat.div_le_div_left above root
    _ ≤ Nat.sqrt value + 2 := by
      rw [Nat.div_le_iff_le_mul_add_pred root]
      have upper := Nat.sqrt_le_add value
      have product : Nat.sqrt value * (Nat.sqrt value + 2) =
        Nat.sqrt value * Nat.sqrt value + (Nat.sqrt value + Nat.sqrt value) := by ring
      omega

theorem sqrt_le_half_succ (value : ℕ) : Nat.sqrt value ≤ value / 2 + 1 := by
  rw [← Nat.lt_succ_iff, Nat.sqrt_lt]
  have half : value < 2 * (value / 2 + 1) := by omega
  nlinarith

end P2PoolBTC.Math
