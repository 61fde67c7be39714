import P2PoolBTC.Model.Governance.VoteMath

/-! # Ratio gates in the contract and in the engine

The engine adds the numerator ten thousand times modulo the denominator and counts how often the sum passes
it. What was added stays the count of the denominator and the remainder, so the count is the ratio in basis
points, rounded down. It reaches a gate exactly when the contract's products compare.
-/

namespace P2PoolBTC.Soundness

open Math Model.Governance

/-- The remainder and the count after some additions. -/
structure Carried (denominator addend : U128) (count : ℕ) (state : U128 × U16) : Prop where
  total : state.2.toNat * denominator.toNat + state.1.toNat = count * addend.toNat
  less : state.1.toNat < denominator.toNat

namespace Carried

variable {denominator addend : U128} {count : ℕ} {state : U128 × U16} (proper : addend.toNat < denominator.toNat)

include proper in
private theorem fractional_le (carried : Carried denominator addend count state) : state.2.toNat ≤ count := by
  have total := carried.total
  by_contra more
  have product : (count + 1) * denominator.toNat ≤ state.2.toNat * denominator.toNat :=
    Nat.mul_le_mul_right _ (by omega)
  have addends : count * addend.toNat ≤ count * denominator.toNat := Nat.mul_le_mul_left _ proper.le
  rw [Nat.succ_mul] at product
  omega

include proper in
private theorem step (carried : Carried denominator addend count state) (small : count < 10000) :
    ∃ next, Engine.ratioStep denominator addend state = some next ∧ Carried denominator addend (count + 1) next := by
  have total := carried.total
  have less := carried.less
  have counted := carried.fractional_le proper
  obtain ⟨complement, subtracted, difference⟩ := exists_checkedSub denominator addend proper.le
  have range := denominator.isLt
  simp only [Engine.ratioStep, subtracted, Option.bind_eq_bind, Option.bind_some]
  split_ifs with passes
  · have reached := BitVec.le_def.mp passes.2
    obtain ⟨remainder, lowered, rest⟩ := exists_checkedSub state.1 complement reached
    obtain ⟨fractional, raised, digits⟩ :=
      exists_checkedAdd state.2 1 (by rw [show (1 : U16).toNat = 1 from rfl]; omega)
    rw [show (1 : U16).toNat = 1 from rfl] at digits
    simp only [lowered, raised, Option.bind_some]
    refine ⟨_, rfl, ?_, ?_⟩
    · simp only [digits, Nat.succ_mul]
      omega
    · simp only
      omega
  · have short : state.1.toNat + addend.toNat < denominator.toNat := by
      rw [not_and_or, not_not, BitVec.not_le, BitVec.lt_def] at passes
      rcases passes with none | below
      · rw [none]
        exact less
      · omega
    obtain ⟨remainder, raised, sum⟩ := exists_checkedAdd state.1 addend (by omega)
    simp only [raised, Option.bind_some]
    refine ⟨_, rfl, ?_, ?_⟩
    · simp only [Nat.succ_mul]
      omega
    · simp only
      omega

include proper in
private theorem run (carried : Carried denominator addend count state) {steps : ℕ} (small : count + steps ≤ 10000) :
    ∃ final, Engine.ratioSteps denominator addend steps state = some final ∧
      Carried denominator addend (count + steps) final := by
  induction steps generalizing count state with
  | zero => exact ⟨state, rfl, carried⟩
  | succ steps ih =>
    obtain ⟨next, stepped, kept⟩ := carried.step proper (by omega)
    obtain ⟨final, rest, whole⟩ := ih kept (by omega)
    refine ⟨final, ?_, ?_⟩
    · rw [Engine.ratioSteps, stepped]
      exact rest
    · rwa [Nat.add_assoc, Nat.add_comm 1] at whole

end Carried

/-- The digits are the ratio in basis points, rounded down and at most the whole. -/
theorem ratioDigits_eq (numerator : U128) {denominator : U128} (positive : denominator ≠ 0) :
    ∃ bps, Engine.ratioDigits numerator denominator = some bps ∧
      bps.toNat = 10000 * min numerator.toNat denominator.toNat / denominator.toNat := by
  have nonzero : 0 < denominator.toNat := Nat.pos_of_ne_zero fun none => positive (BitVec.eq_of_toNat_eq none)
  have limit : (10000 : U16).toNat = 10000 := rfl
  rw [Engine.ratioDigits, if_neg positive]
  let part := if numerator ≤ denominator then numerator else denominator
  have least : part.toNat = min numerator.toNat denominator.toNat := by
    simp only [part, BitVec.le_def]
    split_ifs with le
    · exact (Nat.min_eq_left le).symm
    · exact (Nat.min_eq_right (by omega)).symm
  have proper : (part % denominator).toNat < denominator.toNat := by
    rw [BitVec.toNat_umod]
    exact Nat.mod_lt _ nonzero
  have start : Carried denominator (part % denominator) 0 (0, 0) := ⟨by simp, nonzero⟩
  obtain ⟨⟨remainder, fractional⟩, ran, carried⟩ := start.run proper (Nat.le_refl (0 + 10000))
  have sum := carried.total
  have less := carried.less
  have euclid := Nat.div_add_mod part.toNat denominator.toNat
  simp only [Nat.zero_add, BitVec.toNat_umod] at sum less
  -- The whole part and the counted one make up the quotient of the scaled part.
  have quotient : 10000 * part.toNat / denominator.toNat =
      part.toNat / denominator.toNat * 10000 + fractional.toNat := by
    apply Nat.div_eq_of_lt_le
    · nlinarith
    · nlinarith
  have bounded : 10000 * part.toNat / denominator.toNat ≤ 10000 := by
    rw [Nat.div_le_iff_le_mul_add_pred nonzero]
    have part_le : part.toNat ≤ denominator.toNat := least.trans_le (Nat.min_le_right ..)
    nlinarith
  have narrow : ((part / denominator).setWidth 16).toNat = part.toNat / denominator.toNat := by
    rw [BitVec.toNat_setWidth, BitVec.toNat_udiv]
    exact Nat.mod_eq_of_lt (by omega)
  have product : checkedMul ((part / denominator).setWidth 16) (10000 : U16) =
      some (BitVec.ofNat 16 (part.toNat / denominator.toNat * 10000)) := by
    rw [checkedMul_eq_some, narrow, limit, BitVec.toNat_ofNat]
    exact Nat.mod_eq_of_lt (by omega)
  have added : checkedAdd (BitVec.ofNat 16 (part.toNat / denominator.toNat * 10000)) fractional =
      some (BitVec.ofNat 16 (10000 * part.toNat / denominator.toNat)) := by
    rw [checkedAdd_eq_some, BitVec.toNat_ofNat, BitVec.toNat_ofNat, Nat.mod_eq_of_lt (by omega),
      Nat.mod_eq_of_lt (by omega), quotient]
  have exact : (BitVec.ofNat 16 (10000 * part.toNat / denominator.toNat)).toNat =
      10000 * part.toNat / denominator.toNat := by
    rw [BitVec.toNat_ofNat]
    exact Nat.mod_eq_of_lt (by omega)
  refine ⟨BitVec.ofNat 16 (10000 * part.toNat / denominator.toNat), ?_, by rw [exact, least]⟩
  change (Engine.ratioSteps denominator (part % denominator) 10000 (0, 0)).bind _ = _
  rw [ran, Option.bind_some]
  change (checkedMul ((part / denominator).setWidth 16) (10000 : U16)).bind _ = _
  rw [product, Option.bind_some]
  change (checkedAdd _ fractional).bind _ = _
  rw [added, Option.bind_some, if_pos (by rw [BitVec.le_def, exact]; exact bounded)]
  rfl

/-- Products of a word and a small factor fit the contract's wide words. -/
theorem wideMul_eq (word : U128) (factor : BitVec 256) (small : factor.toNat < 2 ^ 16) :
    ∃ product, checkedMul (word.setWidth 256 : BitVec 256) factor = some product ∧
      product.toNat = word.toNat * factor.toNat := by
  have range := word.isLt
  have wide : (word.setWidth 256 : BitVec 256).toNat = word.toNat := by
    rw [BitVec.toNat_setWidth]
    exact Nat.mod_eq_of_lt (by omega)
  have bound : word.toNat * factor.toNat < 2 ^ 128 * 2 ^ 16 := Nat.mul_lt_mul'' range small
  refine ⟨BitVec.ofNat 256 (word.toNat * factor.toNat), ?_, ?_⟩
  · rw [checkedMul_eq_some, wide, BitVec.toNat_ofNat]
    exact Nat.mod_eq_of_lt (by omega)
  · rw [BitVec.toNat_ofNat]
    exact Nat.mod_eq_of_lt (by omega)

/-- Both ratios of the engine are the exact basis points, and every gate decides as the contract does. -/
theorem ratio_gates_exact (numerator denominator : U128) (positive : denominator ≠ 0) :
    ∃ bps, Gates.ratioBps numerator denominator = some bps ∧ EpochGovernance.ratioBps numerator denominator = some bps ∧
      bps.toNat = 10000 * min numerator.toNat denominator.toNat / denominator.toNat ∧
      ∀ required : U16, 1 ≤ required → required ≤ 10000 →
        Contract.ratioAtLeast numerator denominator required = some (decide (required ≤ bps)) := by
  have nonzero : 0 < denominator.toNat := Nat.pos_of_ne_zero fun none => positive (BitVec.eq_of_toNat_eq none)
  obtain ⟨bps, computed, value⟩ := ratioDigits_eq numerator positive
  refine ⟨bps, computed, computed, value, fun required _ most => ?_⟩
  have wide : (required.setWidth 256 : BitVec 256).toNat = required.toNat := by
    have small := required.isLt
    rw [BitVec.toNat_setWidth]
    exact Nat.mod_eq_of_lt (by omega)
  obtain ⟨left, multiplied, leftValue⟩ := wideMul_eq numerator 10000 (by decide)
  obtain ⟨right, scaled, rightValue⟩ := wideMul_eq denominator (required.setWidth 256)
    (by rw [wide]; exact required.isLt)
  rw [show (10000 : BitVec 256).toNat = 10000 from rfl] at leftValue
  rw [wide] at rightValue
  simp only [Contract.ratioAtLeast, if_neg positive, multiplied, scaled, Option.bind_eq_bind, Option.bind_some]
  rw [Option.pure_def, Option.some.injEq, decide_eq_decide, BitVec.le_def, BitVec.le_def, leftValue, rightValue, value,
    Nat.le_div_iff_mul_le nonzero]
  rw [BitVec.le_def, show (10000 : U16).toNat = 10000 from rfl] at most
  rcases Nat.le_total numerator.toNat denominator.toNat with part | whole
  · rw [Nat.min_eq_left part, Nat.mul_comm denominator.toNat, Nat.mul_comm numerator.toNat]
  · rw [Nat.min_eq_right whole]
    have enough : required.toNat * denominator.toNat ≤ 10000 * denominator.toNat := Nat.mul_le_mul_right _ most
    have more : 10000 * denominator.toNat ≤ numerator.toNat * 10000 := by omega
    exact iff_of_true (by rw [Nat.mul_comm]; omega) enough

theorem ratio_gates_exact_two_thirds : ∃ bps, Gates.ratioBps 2 3 = some bps ∧ bps.toNat = 10000 * 2 / 3 ∧
    Contract.ratioAtLeast 2 3 6667 = some (decide ((6667 : U16) ≤ bps)) := by
  obtain ⟨bps, computed, -, value, gates⟩ := ratio_gates_exact 2 3 (by decide)
  exact ⟨bps, computed, value, gates 6667 (by decide) (by decide)⟩

end P2PoolBTC.Soundness
