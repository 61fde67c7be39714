import Mathlib

/-! # A floating format with whole bytes

A number is kept by its leading bytes and its length in bytes, as in scientific notation to the base 256.
The leading bytes must stay below half of their range, since their first bit stands for a sign; a number
that begins with a larger byte is kept with one byte less and a length of one more. Encoding rounds down,
and rounding a second time changes nothing.
-/

namespace P2PoolBTC.Math.CompactFormat

theorem two_pow_mul (bytes : ℕ) : 2 ^ (8 * bytes) = 256 ^ bytes := by
  rw [pow_mul]
  norm_num

/-- The length of a number in bytes. -/
def byteSize (value : ℕ) : ℕ := (Nat.size value + 7) / 8

theorem lt_pow_byteSize (value : ℕ) : value < 256 ^ byteSize value := by
  have bits : value < 2 ^ Nat.size value := Nat.lt_size_self value
  have wider : (2 : ℕ) ^ Nat.size value ≤ 2 ^ (8 * byteSize value) := by
    apply Nat.pow_le_pow_right (by decide)
    unfold byteSize
    omega
  rw [← two_pow_mul]
  omega

/-- A number is at least a power of 256 exactly when it is longer than that. -/
theorem lt_byteSize_iff {length value : ℕ} : length < byteSize value ↔ 256 ^ length ≤ value := by
  rw [← two_pow_mul, ← Nat.lt_size]
  unfold byteSize
  omega

private theorem byteSize_mono {small large : ℕ} (le : small ≤ large) : byteSize small ≤ byteSize large := by
  have sizes := Nat.size_le_size le
  unfold byteSize
  omega

section Format

variable (precision : ℕ)

/-- The leading bytes of a number at an exponent. -/
def leading (value exponent : ℕ) : ℕ := value * 256 ^ precision / 256 ^ exponent

/-- The value of leading bytes at an exponent. -/
def expand (mantissa exponent : ℕ) : ℕ := mantissa * 256 ^ exponent / 256 ^ precision

/-- The length of a number, or one more when its leading bytes would reach the sign. -/
def exponentOf (value : ℕ) : ℕ :=
  if 256 ^ precision ≤ 2 * leading precision value (byteSize value) then byteSize value + 1 else byteSize value

def mantissaOf (value : ℕ) : ℕ := leading precision value (exponentOf precision value)

/-- The number that the encoding of a number stands for. -/
def rounded (value : ℕ) : ℕ := expand precision (mantissaOf precision value) (exponentOf precision value)

variable {precision}

private theorem mul_pow_sub_div (value high low : ℕ) :
    value * 256 ^ (high - low) / 256 ^ (low - high) = value * 256 ^ high / 256 ^ low := by
  rcases Nat.le_total low high with short | long
  · obtain ⟨more, rfl⟩ := Nat.exists_eq_add_of_le short
    rw [Nat.sub_eq_zero_of_le (Nat.le_add_right low more), Nat.add_sub_cancel_left, pow_zero, Nat.div_one, pow_add,
      mul_comm (256 ^ low), ← mul_assoc, Nat.mul_div_cancel _ (by positivity)]
  · obtain ⟨more, rfl⟩ := Nat.exists_eq_add_of_le long
    rw [Nat.sub_eq_zero_of_le (Nat.le_add_right high more), Nat.add_sub_cancel_left, pow_zero, mul_one, pow_add,
      mul_comm (256 ^ high), Nat.mul_div_mul_right _ _ (by positivity)]

theorem shift_eq_leading (value exponent : ℕ) :
    (value <<< (8 * (precision - exponent))) >>> (8 * (exponent - precision)) = leading precision value exponent := by
  rw [Nat.shiftLeft_eq, Nat.shiftRight_eq_div_pow, two_pow_mul, two_pow_mul, mul_pow_sub_div, leading]

theorem shift_eq_expand (mantissa exponent : ℕ) :
    (mantissa >>> (8 * (precision - exponent))) <<< (8 * (exponent - precision)) =
      expand precision mantissa exponent := by
  rw [Nat.shiftLeft_eq, Nat.shiftRight_eq_div_pow, two_pow_mul, two_pow_mul, expand, ← mul_pow_sub_div]
  -- One of the two differences is zero, so the order of the operations does not matter.
  rcases Nat.le_total exponent precision with short | long
  · rw [Nat.sub_eq_zero_of_le short, pow_zero, mul_one, mul_one]
  · rw [Nat.sub_eq_zero_of_le long, pow_zero, Nat.div_one, Nat.div_one]

theorem leading_succ (value exponent : ℕ) :
    leading precision value (exponent + 1) = leading precision value exponent / 256 := by
  rw [leading, leading, Nat.div_div_eq_div_mul, pow_succ]

theorem leading_lt {value exponent : ℕ} (fits : value < 256 ^ exponent) :
    leading precision value exponent < 256 ^ precision := by
  rw [leading, Nat.div_lt_iff_lt_mul (by positivity), mul_comm]
  exact Nat.mul_lt_mul_of_pos_left fits (by positivity)

theorem exponentOf_le (value : ℕ) : exponentOf precision value ≤ byteSize value + 1 := by
  unfold exponentOf
  split_ifs <;> omega

/-- The leading bytes stay below the sign. -/
theorem mantissaOf_lt (positive : 0 < precision) (value : ℕ) : 2 * mantissaOf precision value < 256 ^ precision := by
  have whole : leading precision value (byteSize value) < 256 ^ precision := leading_lt (lt_pow_byteSize value)
  have room : 2 ≤ 256 ^ precision := Nat.le_self_pow positive.ne' 256 |>.trans' (by decide)
  unfold mantissaOf exponentOf
  split_ifs with high
  · rw [leading_succ]
    omega
  · omega

theorem rounded_le (value : ℕ) : rounded precision value ≤ value := by
  unfold rounded mantissaOf expand leading
  apply Nat.div_le_of_le_mul
  rw [mul_comm (256 ^ precision)]
  exact Nat.div_mul_le_self _ _

/-- The leading bytes of a number are those of what they stand for. -/
theorem leading_expand (value exponent : ℕ) :
    leading precision (expand precision (leading precision value exponent) exponent) exponent =
      leading precision value exponent := by
  unfold expand
  rcases Nat.le_total precision exponent with long | short
  · obtain ⟨more, rfl⟩ := Nat.exists_eq_add_of_le long
    rw [pow_add, mul_comm (256 ^ precision), ← mul_assoc, Nat.mul_div_cancel _ (by positivity)]
    unfold leading
    rw [pow_add, mul_comm (256 ^ precision) (256 ^ more), mul_assoc, Nat.mul_div_cancel _ (by positivity)]
  · obtain ⟨more, rfl⟩ := Nat.exists_eq_add_of_le short
    have exact_ : leading (exponent + more) value exponent = value * 256 ^ more := by
      rw [leading, pow_add, mul_comm (256 ^ exponent), ← mul_assoc, Nat.mul_div_cancel _ (by positivity)]
    rw [exact_, mul_assoc, ← pow_add, add_comm more, Nat.mul_div_cancel _ (by positivity), exact_]

private theorem byteSize_rounded (bytes : 2 ≤ precision) (value : ℕ) :
    byteSize (rounded precision value) = byteSize value := by
  apply le_antisymm (byteSize_mono (rounded_le value))
  rcases Nat.eq_zero_or_pos (byteSize value) with none | some
  · omega
  · obtain ⟨shorter, length⟩ : ∃ shorter, byteSize value = shorter + 1 := ⟨byteSize value - 1, by omega⟩
    have least : 256 ^ shorter ≤ value := lt_byteSize_iff.mp (by omega)
    rw [length]
    apply lt_byteSize_iff.mpr
    have exponent : exponentOf precision value ≤ byteSize value + 1 := exponentOf_le value
    obtain ⟨rest, sum⟩ : ∃ rest, shorter + precision = rest + exponentOf precision value :=
      ⟨shorter + precision - exponentOf precision value, by omega⟩
    have power : (256 : ℕ) ^ rest ≤ mantissaOf precision value := by
      unfold mantissaOf leading
      rw [Nat.le_div_iff_mul_le (by positivity), ← pow_add, ← sum, pow_add]
      exact Nat.mul_le_mul_right _ least
    unfold rounded expand
    rw [Nat.le_div_iff_mul_le (by positivity), ← pow_add, sum, pow_add]
    exact Nat.mul_le_mul_right _ power

theorem exponentOf_rounded (bytes : 2 ≤ precision) (value : ℕ) :
    exponentOf precision (rounded precision value) = exponentOf precision value := by
  have same : leading precision (rounded precision value) (exponentOf precision value) =
      leading precision value (exponentOf precision value) := leading_expand value _
  by_cases high : 256 ^ precision ≤ 2 * leading precision value (byteSize value)
  · have exponent : exponentOf precision value = byteSize value + 1 := if_pos high
    rw [exponent, leading_succ, leading_succ] at same
    -- The range is a multiple of 512, so half of it is a whole number of the last byte.
    obtain ⟨quarter, power⟩ : ∃ quarter, 256 ^ precision = 512 * quarter := by
      refine ⟨128 * 256 ^ (precision - 2), ?_⟩
      rw [← mul_assoc, show 512 * 128 = 256 ^ 2 by norm_num, ← pow_add, Nat.add_sub_cancel' bytes]
    rw [exponent, exponentOf, byteSize_rounded bytes, if_pos (by omega)]
  · have exponent : exponentOf precision value = byteSize value := if_neg high
    rw [exponent] at same
    rw [exponent, exponentOf, byteSize_rounded bytes, same, if_neg high]

/-- Encoding what an encoding stands for gives it back. -/
theorem mantissaOf_rounded (bytes : 2 ≤ precision) (value : ℕ) :
    mantissaOf precision (rounded precision value) = mantissaOf precision value := by
  rw [mantissaOf, exponentOf_rounded bytes]
  exact leading_expand value _

end Format

end P2PoolBTC.Math.CompactFormat
