import P2PoolBTC.Math.IntegerSqrt
import P2PoolBTC.Model.Governance.VoteMath

/-! # Vote weights in the contract and in the engine

The engine takes square roots by bisection and the contract by Newton's iteration. Both return the root
rounded down, except that the iteration does not start for the value two: its second estimate is two as
well. So the weights differ for a stake of two quanta, and there only.
-/

namespace P2PoolBTC.Soundness

open Math Model.Governance

/-- A word is the square root of another one, rounded down. -/
def IsRoot (value root : U128) : Prop :=
  root.toNat * root.toNat ≤ value.toNat ∧ value.toNat < (root.toNat + 1) * (root.toNat + 1)

theorem sqrt_toNat_lt (value : U128) : Nat.sqrt value.toNat < 2 ^ 64 := by
  have range := value.isLt
  rw [Nat.sqrt_lt]
  omega

variable {value : U128}

private theorem isRoot_iff {root : U128} : IsRoot value root ↔ root.toNat = Nat.sqrt value.toNat :=
  Nat.eq_sqrt.symm

/-! ## Newton's iteration -/

theorem safeDiv_of_pos {left right : U128} (positive : 0 < right.toNat) :
    Contract.safeDiv left right = some (left / right) := by
  have nonzero : right ≠ 0 := by
    rintro rfl
    exact Nat.lt_irrefl 0 positive
  rw [Contract.safeDiv, if_neg nonzero]

theorem toNat_halved (word : U128) : (word >>> 1).toNat = word.toNat / 2 := by
  rw [BitVec.toNat_ushiftRight, Nat.shiftRight_eq_div_pow, pow_one]

/-- From estimates that are not below the root, the iteration ends at the root. -/
theorem newtonLoop_eq (nonzero : 0 < value.toNat) {fuel : ℕ} {x y : U128} (fueled : x.toNat < fuel)
    (above : Nat.sqrt value.toNat ≤ x.toNat) (lower : Nat.sqrt value.toNat ≤ y.toNat)
    (small : y < x → y.toNat ≤ 2 ^ 127) (stop : ¬ y < x → x.toNat ≤ Nat.sqrt value.toNat) :
    ∃ root, Contract.newtonLoop value fuel x y = some root ∧ root.toNat = Nat.sqrt value.toNat := by
  have root : 0 < Nat.sqrt value.toNat := Nat.sqrt_pos.mpr nonzero
  have width := sqrt_toNat_lt value
  induction fuel generalizing x y with
  | zero => omega
  | succ fuel ih =>
    rw [Contract.newtonLoop]
    split_ifs with smaller
    · have less := BitVec.lt_def.mp smaller
      have bound := small smaller
      have cofactor := cofactor_le nonzero lower
      have positive : 0 < y.toNat := by omega
      obtain ⟨sum, added, total⟩ := exists_checkedAdd y (value / y) (by rw [BitVec.toNat_udiv]; omega)
      have mean : (sum >>> 1).toNat = (y.toNat + value.toNat / y.toNat) / 2 := by
        rw [toNat_halved, total, BitVec.toNat_udiv]
      simp only [safeDiv_of_pos positive, added, Option.bind_eq_bind, Option.bind_some]
      apply ih (by omega) lower
      · rw [mean]
        exact sqrt_le_mean value.toNat positive
      · intro falls
        have falling := BitVec.lt_def.mp falls
        omega
      · intro least
        rw [BitVec.lt_def, mean] at least
        exact le_sqrt_of_le_mean positive (by omega)
    · exact ⟨x, rfl, Nat.le_antisymm (stop smaller) above⟩

theorem contract_integerSqrt_eq (other : value ≠ 2) :
    ∃ root, Contract.integerSqrt value = some root ∧ root.toNat = Nat.sqrt value.toNat := by
  rw [Contract.integerSqrt]
  split_ifs with zero
  · exact ⟨0, rfl, by rw [zero]; rfl⟩
  have nonzero : 0 < value.toNat := Nat.pos_of_ne_zero fun none => zero (BitVec.eq_of_toNat_eq none)
  have two : value.toNat ≠ 2 := fun same => other (BitVec.eq_of_toNat_eq same)
  have one : (1 : U128).toNat = 1 := rfl
  have range := value.isLt
  obtain ⟨y, added, half⟩ := exists_checkedAdd (value >>> 1) 1 (by rw [toNat_halved]; omega)
  rw [toNat_halved, one] at half
  simp only [added, Option.bind_eq_bind, Option.bind_some]
  apply newtonLoop_eq nonzero (Nat.lt_succ_self _) (Nat.sqrt_le_self _)
  · rw [half]
    exact sqrt_le_half_succ value.toNat
  · omega
  · intro least
    rw [BitVec.lt_def] at least
    have single : value.toNat = 1 := by omega
    rw [single, Nat.sqrt_one]

/-! ## Bisection -/

private theorem bisect_eq {fuel : ℕ} {low high : U128} (positive : 0 < low.toNat)
    (below : low.toNat ≤ Nat.sqrt value.toNat)
    (above : Nat.sqrt value.toNat ≤ high.toNat) (fueled : high.toNat - low.toNat < 2 ^ fuel) :
    ∃ root, Engine.bisect value (fuel + 1) low high = some root ∧ root.toNat = Nat.sqrt value.toNat := by
  induction fuel generalizing low high with
  | zero =>
    rw [Engine.bisect, if_neg (by rw [BitVec.lt_def]; omega)]
    exact ⟨low, rfl, by omega⟩
  | succ fuel ih =>
    rw [Engine.bisect]
    split_ifs with narrower
    · have less := BitVec.lt_def.mp narrower
      have range := high.isLt
      obtain ⟨gap, subtracted, width⟩ := exists_checkedSub high low (by omega)
      have half : (gap / 2 + gap % 2).toNat = (gap.toNat + 1) / 2 := by
        have two : (2 : U128).toNat = 2 := rfl
        rw [BitVec.toNat_add, BitVec.toNat_udiv, BitVec.toNat_umod, two, Nat.mod_eq_of_lt (by omega)]
        omega
      obtain ⟨middle, added, center⟩ := exists_checkedAdd low (gap / 2 + gap % 2) (by rw [half]; omega)
      rw [half] at center
      simp only [subtracted, added, Option.bind_eq_bind, Option.bind_some]
      rw [pow_succ] at fueled
      split_ifs with covered
      · rw [BitVec.le_def, BitVec.toNat_udiv, Nat.le_div_iff_mul_le (by omega), ← Nat.le_sqrt] at covered
        exact ih (by omega) covered above (by omega)
      · rw [BitVec.le_def, BitVec.toNat_udiv, Nat.le_div_iff_mul_le (by omega), ← Nat.le_sqrt] at covered
        have one : (1 : U128).toNat = 1 := rfl
        obtain ⟨lower, shrunk, rest⟩ := exists_checkedSub middle 1 (by omega)
        simp only [shrunk, Option.bind_some]
        exact ih positive below (by omega) (by omega)
    · rw [BitVec.lt_def] at narrower
      exact ⟨low, rfl, by omega⟩

theorem engine_integerSqrt_eq (value : U128) :
    ∃ root, Engine.integerSqrt value = some root ∧ root.toNat = Nat.sqrt value.toNat := by
  rw [Engine.integerSqrt]
  split_ifs with small
  · refine ⟨value, rfl, ?_⟩
    rw [BitVec.lt_def] at small
    have cases : value.toNat = 0 ∨ value.toNat = 1 := by
      have two : (2 : U128).toNat = 2 := rfl
      omega
    rcases cases with none | single
    · rw [none, Nat.sqrt_zero]
    · rw [single, Nat.sqrt_one]
  · rw [BitVec.lt_def] at small
    have two : (2 : U128).toNat = 2 := rfl
    have one : (1 : U128).toNat = 1 := rfl
    have size : Nat.size value.toNat ≤ 128 := Nat.size_le.mpr value.isLt
    have high : ((1 : U128) <<< ((Nat.size value.toNat + 1) / 2)).toNat = 2 ^ ((Nat.size value.toNat + 1) / 2) := by
      rw [BitVec.toNat_shiftLeft, one, Nat.one_shiftLeft]
      exact Nat.mod_eq_of_lt (Nat.pow_lt_pow_right (by norm_num) (by omega))
    apply bisect_eq
    · rw [one]
      exact Nat.one_pos
    · rw [one, Nat.le_sqrt]
      omega
    · rw [high, ← Nat.lt_succ_iff, Nat.sqrt_lt]
      calc value.toNat < 2 ^ Nat.size value.toNat := Nat.lt_size_self _
        _ ≤ 2 ^ ((Nat.size value.toNat + 1) / 2) * 2 ^ ((Nat.size value.toNat + 1) / 2) := by
          rw [← pow_add]
          exact Nat.pow_le_pow_right (by norm_num) (by omega)
        _ ≤ _ := Nat.mul_le_mul (Nat.le_succ _) (Nat.le_succ _)
    · rw [high]
      exact (Nat.sub_le _ _).trans_lt (Nat.pow_lt_pow_right (by norm_num) (by omega))

/-! ## Weights -/

/-- The root that the contract computes. -/
def contractRoot (value : ℕ) : ℕ := if value = 2 then 2 else Nat.sqrt value

private theorem sqrt_le_contractRoot (value : ℕ) : Nat.sqrt value ≤ contractRoot value := by
  rw [contractRoot]
  split_ifs with two
  · subst two
    exact Nat.sqrt_le_self 2
  · exact Nat.le_refl _

private theorem contractRoot_mono {less more : ℕ} (le : less ≤ more) (apart : less = 2 → more ≠ 3) :
    contractRoot less ≤ contractRoot more := by
  by_cases two : less = 2
  · subst two
    rcases Nat.lt_or_ge more 4 with few | many
    · have same : more = 2 := by
        have other := apart rfl
        omega
      rw [same]
    · refine Nat.le_trans ?_ (sqrt_le_contractRoot more)
      rw [contractRoot, if_pos rfl, Nat.le_sqrt]
      exact many
  · rw [contractRoot, if_neg two]
    exact (Nat.sqrt_le_sqrt le).trans (sqrt_le_contractRoot more)

private theorem contract_integerSqrt_root (value : U128) :
    ∃ root, Contract.integerSqrt value = some root ∧ root.toNat = contractRoot value.toNat := by
  by_cases two : value = 2
  · subst two
    exact ⟨2, by decide, rfl⟩
  · have different : value.toNat ≠ 2 := fun same => two (BitVec.eq_of_toNat_eq same)
    rw [contractRoot, if_neg different]
    exact contract_integerSqrt_eq two

/-- A score is weighted without overflow. -/
theorem weighted_eq {score : U128} {status trust : U16} (bound : score.toNat ≤ 2 ^ 64) (first : status ≤ 10000)
    (second : trust ≤ 10000) : ∃ scaled weighted, checkedMul score (status.setWidth 128) = some scaled ∧
      checkedMul scaled (trust.setWidth 128) = some weighted ∧
      (weighted / 100000000).toNat = score.toNat * status.toNat * trust.toNat / 100000000 := by
  have limit : (10000 : U16).toNat = 10000 := rfl
  rw [BitVec.le_def, limit] at first second
  have wide (word : U16) : (word.setWidth 128).toNat = word.toNat := by
    have small := word.isLt
    rw [BitVec.toNat_setWidth]
    exact Nat.mod_eq_of_lt (by omega)
  have scaledBound : score.toNat * status.toNat ≤ 2 ^ 64 * 10000 := Nat.mul_le_mul bound first
  have weightedBound : score.toNat * status.toNat * trust.toNat ≤ 2 ^ 64 * 10000 * 10000 :=
    Nat.mul_le_mul scaledBound second
  obtain ⟨scaled, once, product⟩ : ∃ scaled, checkedMul score (status.setWidth 128) = some scaled ∧
      scaled.toNat = score.toNat * status.toNat := by
    refine ⟨BitVec.ofNat 128 (score.toNat * status.toNat), ?_, BitVec.toNat_ofNat .. ▸ Nat.mod_eq_of_lt (by omega)⟩
    rw [checkedMul_eq_some, wide, BitVec.toNat_ofNat, Nat.mod_eq_of_lt (by omega)]
  refine ⟨scaled, BitVec.ofNat 128 (scaled.toNat * trust.toNat), once, ?_, ?_⟩
  · rw [checkedMul_eq_some, wide, BitVec.toNat_ofNat, product, Nat.mod_eq_of_lt (by omega)]
  · rw [BitVec.toNat_udiv, BitVec.toNat_ofNat, product, Nat.mod_eq_of_lt (by omega)]
    rfl

theorem quanta_toNat (stake : U128) : (stake / stakeQuantumAtoms).toNat = stake.toNat / 1000000000000 :=
  BitVec.toNat_udiv

section Accepted

variable (stake : U128) {status trust : U16} (known : status ≤ 10000) (ceiling : trust ≤ Contract.flipTrustCeilingBps)
include known ceiling

private theorem contract_weight (floor : Contract.flipTrustFloorBps ≤ trust) :
    ∃ weight, Contract.effectiveVoteWeight stake status trust = some weight ∧
      weight.toNat = contractRoot (stake.toNat / 1000000000000) * status.toNat * trust.toNat / 100000000 := by
  rw [Contract.effectiveVoteWeight]
  split_ifs with refused
  · rcases refused with none | low | high
    · exact ⟨0, rfl, by simp [none]⟩
    · exact absurd floor (BitVec.not_le.mpr low)
    · exact absurd ceiling (BitVec.not_le.mpr high)
  · obtain ⟨root, taken, value⟩ := contract_integerSqrt_root (stake / stakeQuantumAtoms)
    have bound : root.toNat ≤ 2 ^ 64 := by
      rw [value, contractRoot]
      split_ifs
      · norm_num
      · exact (sqrt_toNat_lt _).le
    obtain ⟨scaled, weighted, once, twice, product⟩ := weighted_eq bound known ceiling
    rw [quanta_toNat] at value
    have quantum : 0 < stakeQuantumAtoms.toNat := by decide
    have squared : 0 < (100000000 : U128).toNat := by decide
    simp only [safeDiv_of_pos quantum, taken, once, twice, safeDiv_of_pos squared, Option.bind_eq_bind,
      Option.bind_some]
    exact ⟨_, rfl, by rw [product, value]⟩

private theorem engine_weight : ∃ weight, Engine.effectiveVoteWeight stake status trust = some (.ok weight) ∧
    weight.toNat = Nat.sqrt (stake.toNat / 1000000000000) * status.toNat * trust.toNat / 100000000 := by
  obtain ⟨root, taken, value⟩ := engine_integerSqrt_eq (stake / stakeQuantumAtoms)
  have bound : root.toNat ≤ 2 ^ 64 := value.trans_le (sqrt_toNat_lt _).le
  obtain ⟨scaled, weighted, once, twice, product⟩ := weighted_eq bound known ceiling
  rw [quanta_toNat] at value
  rw [Engine.effectiveVoteWeight, if_neg (by rw [not_or, BitVec.not_lt, BitVec.not_lt]; exact ⟨known, ceiling⟩)]
  simp only [Engine.stakeScore, taken, once, twice, Option.bind_eq_bind, Option.bind_some, Option.map_some, okOr_some]
  exact ⟨_, rfl, by rw [product, value]⟩

end Accepted

/-- One quantum and two weigh the same after rounding. -/
private theorem rounds_alike_iff {status trust : U16} (known : status ≤ 10000) (ceiling : trust ≤ 10000) :
    2 * status.toNat * trust.toNat / 100000000 = status.toNat * trust.toNat / 100000000 ↔
      status.toNat * trust.toNat < 50000000 := by
  have bound : status.toNat * trust.toNat ≤ 10000 * 10000 := Nat.mul_le_mul known ceiling
  rw [Nat.mul_assoc]
  omega

/-- The engine's root is exact, the contract's root is exact for every value but two. The weights agree unless the
stake is two quanta and rounding does not hide it, and a larger stake weighs no less unless it is three quanta then. -/
theorem vote_weights_agree_iff (value : U128) :
    (∃ root, Engine.integerSqrt value = some root ∧ IsRoot value root) ∧
    ((∃ root, Contract.integerSqrt value = some root ∧ IsRoot value root) ↔ value ≠ 2) ∧
    ∀ (stake more : U128) (status trust : U16), stake ≤ more → status ≤ 10000 →
      Contract.flipTrustFloorBps ≤ trust → trust ≤ Contract.flipTrustCeilingBps →
      ∃ weight larger engine, Contract.effectiveVoteWeight stake status trust = some weight ∧
        Contract.effectiveVoteWeight more status trust = some larger ∧
        Engine.effectiveVoteWeight stake status trust = some (.ok engine) ∧
        (weight = engine ↔ (stake / stakeQuantumAtoms = 2 → status.toNat * trust.toNat < 50000000)) ∧
        (weight ≤ larger ↔ (stake / stakeQuantumAtoms = 2 → more / stakeQuantumAtoms = 3 →
          status.toNat * trust.toNat < 50000000)) := by
  refine ⟨?_, ?_, ?_⟩
  · obtain ⟨root, taken, exact⟩ := engine_integerSqrt_eq value
    exact ⟨root, taken, isRoot_iff.mpr exact⟩
  · constructor
    · rintro ⟨root, taken, exact⟩ rfl
      have computed : Contract.integerSqrt 2 = some 2 := by decide
      obtain rfl := Option.some.inj (computed.symm.trans taken)
      exact absurd exact.1 (by decide)
    · intro other
      obtain ⟨root, taken, exact⟩ := contract_integerSqrt_eq other
      exact ⟨root, taken, isRoot_iff.mpr exact⟩
  · intro stake more status trust le known floor ceiling
    obtain ⟨weight, computed, value⟩ := contract_weight stake known ceiling floor
    obtain ⟨larger, computedMore, valueMore⟩ := contract_weight more known ceiling floor
    obtain ⟨engine, engineComputed, engineValue⟩ := engine_weight stake known ceiling
    have quanta (word : U128) (count : U128) : word / stakeQuantumAtoms = count ↔
        word.toNat / 1000000000000 = count.toNat := by
      rw [← BitVec.toNat_inj, quanta_toNat]
    rw [← rounds_alike_iff known ceiling]
    refine ⟨weight, larger, engine, computed, computedMore, engineComputed, ?_, ?_⟩
    · rw [← BitVec.toNat_inj, value, engineValue, quanta, contractRoot]
      split_ifs with two
      · have root : 1 = Nat.sqrt 2 := Nat.eq_sqrt.mpr ⟨by norm_num, by norm_num⟩
        rw [two, ← root, Nat.one_mul]
        exact ⟨fun same _ => same, fun alike => alike rfl⟩
      · exact ⟨fun _ same => absurd same two, fun _ => rfl⟩
    · rw [BitVec.le_def, value, valueMore, quanta, quanta]
      by_cases gap : stake.toNat / 1000000000000 = 2 ∧ more.toNat / 1000000000000 = 3
      · have root : 1 = Nat.sqrt 3 := Nat.eq_sqrt.mpr ⟨by norm_num, by norm_num⟩
        rw [gap.1, gap.2, contractRoot, contractRoot, if_pos rfl, if_neg (by decide), ← root, Nat.one_mul]
        have half : status.toNat * trust.toNat / 100000000 ≤ 2 * status.toNat * trust.toNat / 100000000 :=
          Nat.div_le_div_right (Nat.mul_le_mul_right _ (Nat.le_mul_of_pos_left _ two_pos))
        exact ⟨fun below _ _ => Nat.le_antisymm below half, fun alike => (alike rfl rfl).le⟩
      · refine iff_of_true ?_ fun two three => absurd ⟨two, three⟩ gap
        refine Nat.div_le_div_right (Nat.mul_le_mul_right _ (Nat.mul_le_mul_right _ (contractRoot_mono ?_ ?_)))
        · exact Nat.div_le_div_right (BitVec.le_def.mp le)
        · exact fun two three => gap ⟨two, three⟩

theorem vote_weights_agree_iff_quanta :
    (∃ root, Contract.integerSqrt 99 = some root ∧ IsRoot 99 root) ∧
      ∃ weight larger engine, Contract.effectiveVoteWeight 5000000000000 8500 9250 = some weight ∧
        Contract.effectiveVoteWeight 7000000000000 8500 9250 = some larger ∧
        Engine.effectiveVoteWeight 5000000000000 8500 9250 = some (.ok engine) ∧ weight = engine ∧ weight ≤ larger := by
  obtain ⟨-, exact, weights⟩ := vote_weights_agree_iff 99
  refine ⟨exact.mpr (by decide), ?_⟩
  obtain ⟨weight, larger, engine, first, second, third, agree, rises⟩ :=
    weights 5000000000000 7000000000000 8500 9250 (by decide) (by decide) (by decide) (by decide)
  exact ⟨weight, larger, engine, first, second, third, agree.mpr fun two => absurd two (by decide),
    rises.mpr fun two => absurd two (by decide)⟩

/-- The contract's root of two is two, so two quanta weigh twice as much as in the engine, and more than three. -/
theorem contract_root_of_two :
    Contract.integerSqrt 2 = some 2 ∧ Engine.integerSqrt 2 = some 1 ∧
      Contract.effectiveVoteWeight 2000000000000 10000 10000 = some 2 ∧
      Engine.effectiveVoteWeight 2000000000000 10000 10000 = some (.ok 1) ∧
      Contract.effectiveVoteWeight 3000000000000 10000 10000 = some 1 := by
  decide

end P2PoolBTC.Soundness
