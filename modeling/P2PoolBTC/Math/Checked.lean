import Mathlib

/-! # Checked fixed-width arithmetic

Unsigned machine words are bit vectors. The checked operations return nothing exactly when the
exact natural-number result does not fit, so a successful one can be read as an equation
between natural numbers and every sum or product below is reasoned about in `ℕ`.
-/

namespace P2PoolBTC.Math

/-- Sixteen-bit machine words. -/
abbrev U16 := BitVec 16

/-- Thirty-two-bit machine words. -/
abbrev U32 := BitVec 32

/-- Sixty-four-bit machine words. -/
abbrev U64 := BitVec 64

/-- One-hundred-twenty-eight-bit machine words. -/
abbrev U128 := BitVec 128

/-! The lawful orders and comparisons of words that maps and lists ask for, each under one name. -/

instance : Std.TransOrd U32 := inferInstance

instance : Std.LawfulEqOrd U32 := inferInstance

instance : Std.TransOrd U64 := inferInstance

instance : LawfulBEq U128 := inferInstance

/-- Clamp to the range of a signed sixty-four-bit word. -/
def saturateI64 (value : ℤ) : ℤ := max (-(2 ^ 63)) (min (2 ^ 63 - 1) value)

section Operations

variable {w : ℕ} {left right : BitVec w} {words : List (BitVec w)}

/-- Addition that refuses to wrap. -/
def checkedAdd (left right : BitVec w) : Option (BitVec w) :=
  if left.toNat + right.toNat < 2 ^ w then some (left + right) else none

/-- Subtraction that refuses to wrap. -/
def checkedSub (left right : BitVec w) : Option (BitVec w) :=
  if right.toNat ≤ left.toNat then some (left - right) else none

/-- Multiplication that refuses to wrap. -/
def checkedMul (left right : BitVec w) : Option (BitVec w) :=
  if left.toNat * right.toNat < 2 ^ w then some (left * right) else none

/-- Addition that stops at the largest word. -/
def saturatingAdd (left right : BitVec w) : BitVec w := (checkedAdd left right).getD (BitVec.allOnes w)

/-- Subtraction that stops at zero. -/
def saturatingSub (left right : BitVec w) : BitVec w := (checkedSub left right).getD 0

/-- Left-to-right checked summation. -/
def checkedSum (words : List (BitVec w)) : Option (BitVec w) :=
  words.foldlM checkedAdd 0

theorem checkedAdd_eq_some {total : BitVec w} :
    checkedAdd left right = some total ↔ total.toNat = left.toNat + right.toNat := by
  unfold checkedAdd
  split_ifs with fits
  · rw [Option.some.injEq]
    constructor
    · rintro rfl
      rw [BitVec.toNat_add, Nat.mod_eq_of_lt fits]
    · intro equal
      apply BitVec.eq_of_toNat_eq
      rw [BitVec.toNat_add, Nat.mod_eq_of_lt fits, equal]
  · have bound := total.isLt
    simp only [false_iff]
    omega

theorem checkedAdd_eq_none : checkedAdd left right = none ↔ 2 ^ w ≤ left.toNat + right.toNat := by
  unfold checkedAdd
  split_ifs with fits <;> simp <;> omega

theorem exists_checkedAdd (left right : BitVec w) (fits : left.toNat + right.toNat < 2 ^ w) :
    ∃ total, checkedAdd left right = some total ∧ total.toNat = left.toNat + right.toNat := by
  cases sum : checkedAdd left right with
  | none =>
    have overflow := checkedAdd_eq_none.mp sum
    omega
  | some total => exact ⟨total, rfl, checkedAdd_eq_some.mp sum⟩

/-- Adding one either moves to the next value or stays at the largest. -/
theorem toNat_saturatingAdd_one {value : BitVec w} (moves : saturatingAdd value 1 ≠ value) (wide : 0 < w) :
    (saturatingAdd value 1).toNat = value.toNat + 1 := by
  have one : (1 : BitVec w).toNat = 1 := by
    simp [BitVec.toNat_one wide]
  by_cases fits : value.toNat + 1 < 2 ^ w
  · obtain ⟨total, sum, total_eq⟩ := exists_checkedAdd value 1 (by omega)
    rw [saturatingAdd, sum, Option.getD_some, total_eq, one]
  · exfalso
    apply moves
    rw [saturatingAdd, checkedAdd_eq_none.mpr (by omega), Option.getD_none]
    apply BitVec.eq_of_toNat_eq
    rw [BitVec.toNat_allOnes]
    omega

theorem checkedSub_eq_some {rest : BitVec w} :
    checkedSub left right = some rest ↔ left.toNat = rest.toNat + right.toNat := by
  unfold checkedSub
  split_ifs with fits
  · have difference : (left - right).toNat = left.toNat - right.toNat :=
      BitVec.toNat_sub_of_le (BitVec.le_def.mpr fits)
    rw [Option.some.injEq]
    constructor
    · rintro rfl
      omega
    · intro equal
      apply BitVec.eq_of_toNat_eq
      omega
  · simp only [false_iff]
    omega

theorem checkedSub_eq_none : checkedSub left right = none ↔ left.toNat < right.toNat := by
  unfold checkedSub
  split_ifs with fits <;> simp <;> omega

theorem exists_checkedSub (left right : BitVec w) (fits : right.toNat ≤ left.toNat) :
    ∃ rest, checkedSub left right = some rest ∧ left.toNat = rest.toNat + right.toNat := by
  cases difference : checkedSub left right with
  | none =>
    have negative := checkedSub_eq_none.mp difference
    omega
  | some rest => exact ⟨rest, rfl, checkedSub_eq_some.mp difference⟩

@[simp] theorem toNat_saturatingSub (left right : BitVec w) :
    (saturatingSub left right).toNat = left.toNat - right.toNat := by
  unfold saturatingSub
  cases difference : checkedSub left right with
  | none =>
    have less := checkedSub_eq_none.mp difference
    rw [Option.getD_none, show (0 : BitVec w).toNat = 0 from by simp]
    omega
  | some rest =>
    have sum := checkedSub_eq_some.mp difference
    rw [Option.getD_some]
    omega

theorem checkedMul_eq_some {product : BitVec w} :
    checkedMul left right = some product ↔ product.toNat = left.toNat * right.toNat := by
  unfold checkedMul
  split_ifs with fits
  · rw [Option.some.injEq]
    constructor
    · rintro rfl
      rw [BitVec.toNat_mul, Nat.mod_eq_of_lt fits]
    · intro equal
      apply BitVec.eq_of_toNat_eq
      rw [BitVec.toNat_mul, Nat.mod_eq_of_lt fits, equal]
  · have bound := product.isLt
    simp only [false_iff]
    omega

theorem checkedMul_eq_none : checkedMul left right = none ↔ 2 ^ w ≤ left.toNat * right.toNat := by
  unfold checkedMul
  split_ifs with fits <;> simp <;> omega

private theorem foldlM_checkedAdd_eq_some (words : List (BitVec w)) (start total : BitVec w) :
    words.foldlM checkedAdd start = some total ↔
      total.toNat = start.toNat + (words.map BitVec.toNat).sum := by
  induction words generalizing start with
  | nil =>
    simp only [List.foldlM_nil, Option.pure_def, Option.some.injEq, List.map_nil, List.sum_nil,
      Nat.add_zero, ← BitVec.toNat_inj]
    exact eq_comm
  | cons word rest ih =>
    simp only [List.foldlM_cons, List.map_cons, List.sum_cons]
    cases step : checkedAdd start word with
    | none =>
      have overflow := checkedAdd_eq_none.mp step
      have bound := total.isLt
      simp only [Option.bind_eq_bind, Option.bind_none, reduceCtorEq, false_iff]
      omega
    | some next =>
      have exact := checkedAdd_eq_some.mp step
      simp only [Option.bind_eq_bind, Option.bind_some]
      rw [ih next, exact, Nat.add_assoc]

theorem checkedSum_eq_some {total : BitVec w} :
    checkedSum words = some total ↔ total.toNat = (words.map BitVec.toNat).sum := by
  rw [checkedSum, foldlM_checkedAdd_eq_some]
  simp

theorem checkedSum_eq_none : checkedSum words = none ↔ 2 ^ w ≤ (words.map BitVec.toNat).sum := by
  cases sum : checkedSum words with
  | none =>
    simp only [true_iff]
    by_contra fits
    have success : checkedSum words = some (BitVec.ofNat w (words.map BitVec.toNat).sum) := by
      rw [checkedSum_eq_some, BitVec.toNat_ofNat, Nat.mod_eq_of_lt (by omega)]
    rw [sum] at success
    contradiction
  | some total =>
    have exact := checkedSum_eq_some.mp sum
    have bound := total.isLt
    simp only [reduceCtorEq, false_iff]
    omega

theorem checkedSum_of_perm {others : List (BitVec w)} (permuted : words.Perm others) :
    checkedSum others = checkedSum words := by
  have sums := (permuted.map BitVec.toNat).sum_eq
  ext total
  rw [checkedSum_eq_some, checkedSum_eq_some, sums]

theorem exists_checkedSum (words : List (BitVec w)) (fits : (words.map BitVec.toNat).sum < 2 ^ w) :
    ∃ total, checkedSum words = some total ∧ total.toNat = (words.map BitVec.toNat).sum := by
  cases sum : checkedSum words with
  | none =>
    have overflow := checkedSum_eq_none.mp sum
    omega
  | some total => exact ⟨total, rfl, checkedSum_eq_some.mp sum⟩

end Operations

/-- The amounts of the entries of one owner, added up. -/
def sumFor {α κ : Type} [DecidableEq κ] (ownerOf : α → κ) (amount : α → ℕ) (owner : κ) (entries : List α) : ℕ :=
  ((entries.filter fun entry => ownerOf entry = owner).map amount).sum

theorem sumFor_cons {α κ : Type} [DecidableEq κ] (ownerOf : α → κ) (amount : α → ℕ) (owner : κ) (entry : α)
    (rest : List α) : sumFor ownerOf amount owner (entry :: rest) =
      (if ownerOf entry = owner then amount entry else 0) + sumFor ownerOf amount owner rest := by
  by_cases own : ownerOf entry = owner <;> simp [sumFor, own]

theorem compare_eq_lt {left right : BitVec w} : compare left right = .lt ↔ left.toNat < right.toNat := by
  change compareOfLessAndEq left right = .lt ↔ _
  unfold compareOfLessAndEq
  rw [← BitVec.lt_def]
  split_ifs with less equal <;> simp [less]

theorem compare_isLE {left right : BitVec w} : (compare left right).isLE = true ↔ left ≤ right := by
  change (compareOfLessAndEq left right).isLE = true ↔ _
  unfold compareOfLessAndEq
  split_ifs with less equal
  · simp [BitVec.le_of_lt less]
  · simp [equal]
  · simp only [Ordering.isLE_gt, Bool.false_eq_true, false_iff]
    intro atMost
    rw [BitVec.lt_def] at less
    rw [BitVec.le_def] at atMost
    exact equal (BitVec.eq_of_toNat_eq (by omega))

end P2PoolBTC.Math
