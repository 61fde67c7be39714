import P2PoolBTC.Math.CompactFormat
import P2PoolBTC.Soundness.MedianTime

/-! # Difficulty along a branch

A first fork block must meet the limit target. Until the handoff every block rescales the target of its
parent by the time since it, and from the handoff on the target stays for 2016 blocks and is then rescaled
by the time the epoch took. What a block hands to its children is its phase and the target its bits expand
to, so one step lemma says how both change from a block to its child.
-/

namespace P2PoolBTC.Soundness

open Math Std Model.Core Model.Node ForkChainStore

/-- The library's compact targets: encoding rounds down, and encoding the result again gives the same bits. -/
structure TargetRounding (crypto : ForkCrypto) : Prop where
  rounds_down : ∀ target, crypto.targetFromCompact (crypto.targetToCompactLossy target) ≤ target
  canonical : ∀ target, crypto.targetToCompactLossy (crypto.targetFromCompact (crypto.targetToCompactLossy target)) =
    crypto.targetToCompactLossy target

/-! ## The schedule of a validated manifest -/

/-- What validation says about the numbers of the schedule. -/
structure ValidSchedule (crypto : ForkCrypto) (config : ForkConfig) : Prop where
  spacing : 4 ≤ config.targetSpacingSeconds.toNat
  timespan : 4 * (2016 * config.targetSpacingSeconds.toNat) < 2 ^ 64
  canonical : crypto.targetToCompactLossy (crypto.targetFromCompact config.postForkPowLimitBits) =
    config.postForkPowLimitBits

theorem validSchedule_of_validate {crypto : ForkCrypto} {manifest : ForkActivationManifest}
    (validated : manifest.validate crypto = .ok ()) : ValidSchedule crypto manifest.config := by
  simp only [ForkActivationManifest.validate, ForkActivationManifest.new, except_bind_eq_ok, require_eq_ok,
    okOr_eq_ok, exists_const] at validated
  obtain ⟨-, ⟨-, -, -, -, -, -, -, -, spacing, product, -, -, -, canonical, -⟩, -⟩ := validated
  refine ⟨BitVec.le_def.mp spacing, ?_, canonical⟩
  obtain ⟨whole, bound⟩ := Option.isSome_iff_exists.mp product
  obtain ⟨timespan, epoch, fourfold⟩ := Option.bind_eq_some_iff.mp bound
  have first := checkedMul_eq_some.mp epoch
  have second := checkedMul_eq_some.mp fourfold
  have fits := whole.isLt
  rw [second, first, show (4 : U64).toNat = 4 from rfl,
    show bitcoinDifficultyAdjustmentInterval.toNat = 2016 from rfl] at fits
  omega

/-! ## One adjustment -/

/-- A measured time within a quarter and four times the intended one. -/
def clamped (timespan measured : ℕ) : ℕ := max (timespan / 4) (min measured (4 * timespan))

theorem clamped_bounds (timespan measured : ℕ) :
    timespan / 4 ≤ clamped timespan measured ∧ clamped timespan measured ≤ 4 * timespan := by
  unfold clamped
  omega

/-- The product of a target and a clamped time fits the wide intermediate. -/
theorem product_lt {timespan : ℕ} (fits : 4 * timespan < 2 ^ 64) (measured : ℕ) (target : U256) :
    target.toNat * clamped timespan measured < 2 ^ 512 := by
  have above := (clamped_bounds timespan measured).2
  calc target.toNat * clamped timespan measured
      < 2 ^ 256 * 2 ^ 256 := Nat.mul_lt_mul_of_lt_of_le target.isLt (by omega) (by decide)
    _ = 2 ^ 512 := by rw [← pow_add]

/-- One adjustment of a target: the measured time, kept between a quarter and four times the intended one, over the
intended time, cut at the limit and rounded to compact bits. The product fits 512 bits and the result 256. -/
def Adjusts (crypto : ForkCrypto) (limit : U256) (timespan measured : ℕ) (before after : U256) : Prop :=
  ∃ actual, actual = clamped timespan measured ∧ timespan / 4 ≤ actual ∧ actual ≤ 4 * timespan ∧
    before.toNat * actual < 2 ^ 512 ∧
    ∃ exact : U256, exact.toNat = min (before.toNat * actual / timespan) limit.toNat ∧
      after = crypto.targetFromCompact (crypto.targetToCompactLossy exact)

theorem nextWorkRequired_adjusts (crypto : ForkCrypto) (config : ForkConfig) (bits : U32) (measured timespan : U64)
    (fits : 4 * timespan.toNat < 2 ^ 64) : ∃ exact : U256,
      nextWorkRequired crypto bits measured timespan config = .ok (crypto.targetToCompactLossy exact) ∧
        Adjusts crypto (crypto.targetFromCompact config.postForkPowLimitBits) timespan.toNat measured.toNat
          (crypto.targetFromCompact bits) (crypto.targetFromCompact (crypto.targetToCompactLossy exact)) := by
  obtain ⟨longest, product⟩ : ∃ longest, checkedMul timespan 4 = some longest := by
    rw [checkedMul, if_pos (by simpa [mul_comm] using fits)]
    exact ⟨_, rfl⟩
  have most : longest.toNat = 4 * timespan.toNat := by
    rw [checkedMul_eq_some.mp product, mul_comm]
    rfl
  have least : (timespan >>> 2).toNat = timespan.toNat / 4 := by
    rw [BitVec.toNat_ushiftRight, Nat.shiftRight_eq_div_pow]
  have kept : (if measured < timespan >>> 2 then timespan >>> 2
      else if longest < measured then longest else measured).toNat = clamped timespan.toNat measured.toNat := by
    unfold clamped
    split_ifs with below above
    · rw [BitVec.lt_def] at below
      omega
    · rw [BitVec.lt_def] at below above
      omega
    · rw [BitVec.lt_def] at below above
      omega
  obtain ⟨lower, upper⟩ := clamped_bounds timespan.toNat measured.toNat
  refine ⟨BitVec.ofNat 256 (min ((crypto.targetFromCompact bits).toNat * clamped timespan.toNat measured.toNat /
    timespan.toNat) (crypto.targetFromCompact config.postForkPowLimitBits).toNat), ?_, _, rfl, lower, upper,
    product_lt fits _ _, _, ?_, rfl⟩
  · cases config.difficultyAlgorithm
    simp only [nextWorkRequired, nextWorkRequiredV1, product, okOr_some, except_ok_bind, kept]
    rw [Nat.mod_eq_of_lt (product_lt fits _ _)]
    rfl
  · rw [BitVec.toNat_ofNat, Nat.mod_eq_of_lt]
    exact (min_le_right _ _).trans_lt (BitVec.isLt _)

theorem nextWorkRequired_ok {crypto : ForkCrypto} {config : ForkConfig} {bits next : U32} {measured timespan : U64}
    (fits : 4 * timespan.toNat < 2 ^ 64) (computed : nextWorkRequired crypto bits measured timespan config = .ok next) :
    ∃ exact, crypto.targetToCompactLossy exact = next ∧
      Adjusts crypto (crypto.targetFromCompact config.postForkPowLimitBits)
      timespan.toNat measured.toNat (crypto.targetFromCompact bits) (crypto.targetFromCompact next) := by
  obtain ⟨exact_, required, adjusts⟩ := nextWorkRequired_adjusts crypto config bits measured timespan fits
  obtain rfl := Except.ok.inj (required.symm.trans computed)
  exact ⟨exact_, rfl, adjusts⟩

/-! ## Steps of the phase -/

variable {parent : BlockNode} {epochStartHeight : U64} {epochStartTime : U32}

section Steps

variable (lib : ForkPrimitives) (config : ForkChainConfig)

/-- The target that the bits of a block expand to. -/
def headerTarget (node : BlockNode) : U256 :=
  lib.targetFromCompact node.block.header.bits

/-- The limit that no target exceeds. -/
def limitTarget : U256 :=
  lib.targetFromCompact config.manifest.config.postForkPowLimitBits

/-- The work of a target reaches the handoff. -/
def ReachesHandoff (target : U256) : Prop :=
  bootstrapHandoffWork config.manifest.config ≤ lib.targetToWork target

instance (target : U256) : Decidable (ReachesHandoff lib config target) := inferInstanceAs (Decidable (_ ≤ _))

/-- The phase of a block that does not follow a block in the Bitcoin phase. -/
def handoffPhase (node : BlockNode) : DifficultyPhase :=
  if ReachesHandoff lib config (headerTarget lib node) then .bitcoin node.height node.block.header.time
  else .bootstrap

/-- How target and phase change from a block to its child. -/
inductive PhaseStep (parent child : BlockNode) : Prop
  | bootstrap (before : parent.difficultyPhase = .bootstrap)
      (target : Adjusts lib.toForkCrypto (limitTarget lib config)
        config.manifest.config.targetSpacingSeconds.toNat
        (child.block.header.time.toNat - parent.block.header.time.toNat)
        (headerTarget lib parent) (headerTarget lib child))
      (phase : child.difficultyPhase = handoffPhase lib config child)
  | within {epochStartHeight : U64} {epochStartTime : U32}
      (before : parent.difficultyPhase = .bitcoin epochStartHeight epochStartTime)
      (target : headerTarget lib child = headerTarget lib parent)
      (phase : child.difficultyPhase = .bitcoin epochStartHeight epochStartTime)
      (inside : epochStartHeight.toNat ≤ child.height.toNat ∧ child.height.toNat < epochStartHeight.toNat + 2016)
  | boundary {epochStartHeight : U64} {epochStartTime : U32}
      (before : parent.difficultyPhase = .bitcoin epochStartHeight epochStartTime)
      (target : Adjusts lib.toForkCrypto (limitTarget lib config)
        (2016 * config.manifest.config.targetSpacingSeconds.toNat)
        (parent.block.header.time.toNat - epochStartTime.toNat)
        (headerTarget lib parent) (headerTarget lib child))
      (phase : child.difficultyPhase = .bitcoin child.height child.block.header.time)
      (next : child.height.toNat = epochStartHeight.toNat + 2016)

variable {lib config}

theorem phaseAfterBootstrapBlock_eq {node : BlockNode} {bits : U32}
    (target : headerTarget lib node = lib.targetFromCompact bits) :
    config.phaseAfterBootstrapBlock lib.toForkCrypto bits node.height node.block.header.time =
      handoffPhase lib config node := by
  rw [ForkChainConfig.phaseAfterBootstrapBlock, handoffPhase, target]
  rfl

variable (schedule : ValidSchedule lib.toForkCrypto config.manifest.config)

section After

include schedule

/-- A child of a block is admitted only with the phase and target of a step. -/
theorem phaseStep_of_difficultyAfter {child : BlockNode} {bits : U32}
    (difficulty : config.difficultyAfter lib.toForkCrypto parent child.height child.block.header.time =
      .ok { bits, phase := child.difficultyPhase })
    (target : headerTarget lib child = lib.targetFromCompact bits) :
    PhaseStep lib config parent child := by
  have spacing := schedule.timespan
  unfold ForkChainConfig.difficultyAfter at difficulty
  cases before : parent.difficultyPhase with
  | bootstrap =>
    simp only [before, except_bind_eq_ok, pure, Except.pure, Except.ok.injEq, NextDifficulty.mk.injEq] at difficulty
    obtain ⟨_, computed, rfl, phase⟩ := difficulty
    obtain ⟨-, -, adjusts⟩ := nextWorkRequired_ok (by omega) computed
    rw [phaseAfterBootstrapBlock_eq target] at phase
    rw [← target, BitVec.toNat_setWidth_of_le (by decide), toNat_saturatingSub] at adjusts
    exact .bootstrap before adjusts phase.symm
  | bitcoin epochStartHeight epochStartTime =>
    rw [before] at difficulty
    simp only [except_bind_eq_ok, okOr_eq_ok] at difficulty
    obtain ⟨offset, difference, difficulty⟩ := difficulty
    have gap := checkedSub_eq_some.mp difference
    split_ifs at difficulty with inside
    · simp only [pure, Except.pure, Except.ok.injEq, NextDifficulty.mk.injEq] at difficulty
      obtain ⟨rfl, phase⟩ := difficulty
      have early := BitVec.lt_def.mp inside
      rw [show bitcoinDifficultyAdjustmentInterval.toNat = 2016 from rfl] at early
      exact .within before target phase.symm ⟨by omega, by omega⟩
    · simp only [except_bind_eq_ok, require_eq_ok, okOr_eq_ok, exists_const] at difficulty
      obtain ⟨rfl, timespan, epoch, _, computed, made⟩ := difficulty
      have length := checkedMul_eq_some.mp epoch
      rw [show bitcoinDifficultyAdjustmentInterval.toNat = 2016 from rfl] at length gap
      simp only [pure, Except.pure, Except.ok.injEq, NextDifficulty.mk.injEq] at made
      obtain ⟨rfl, phase⟩ := made
      obtain ⟨-, -, adjusts⟩ := nextWorkRequired_ok (by omega) computed
      rw [← target, BitVec.toNat_setWidth_of_le (by decide), toNat_saturatingSub, length, mul_comm] at adjusts
      exact .boundary before adjusts phase.symm (by omega)

/-- A block within its epoch prescribes a difficulty to its child at every time. -/
theorem exists_difficultyAfter {height : U64} (next : height.toNat = parent.height.toNat + 1)
    (held : ∀ epochStartHeight epochStartTime, parent.difficultyPhase = .bitcoin epochStartHeight epochStartTime →
      epochStartHeight.toNat ≤ parent.height.toNat ∧ parent.height.toNat < epochStartHeight.toNat + 2016) (time : U32) :
    ∃ difficulty, config.difficultyAfter lib.toForkCrypto parent height time = .ok difficulty := by
  have spacing := schedule.timespan
  unfold ForkChainConfig.difficultyAfter
  cases before : parent.difficultyPhase with
  | bootstrap =>
    obtain ⟨exact_, required, -⟩ := nextWorkRequired_adjusts lib.toForkCrypto config.manifest.config
      parent.block.header.bits ((saturatingSub time parent.block.header.time).setWidth 64)
      config.manifest.config.targetSpacingSeconds (by omega)
    simp only [required, except_ok_bind]
    exact ⟨_, rfl⟩
  | bitcoin epochStartHeight epochStartTime =>
    obtain ⟨least, most⟩ := held epochStartHeight epochStartTime before
    obtain ⟨offset, difference, gap⟩ := exists_checkedSub height epochStartHeight (by omega)
    simp only [difference, okOr_some, except_ok_bind]
    split_ifs with inside
    · exact ⟨_, rfl⟩
    · have late : ¬ offset.toNat < 2016 := fun early => inside (BitVec.lt_def.mpr early)
      have boundary : offset = bitcoinDifficultyAdjustmentInterval :=
        BitVec.eq_of_toNat_eq (show offset.toNat = 2016 by omega)
      obtain ⟨timespan, epoch, length⟩ : ∃ timespan,
          config.manifest.config.bitcoinRetargetTimespanSeconds = some timespan ∧
          timespan.toNat = config.manifest.config.targetSpacingSeconds.toNat * 2016 := by
        rw [ForkConfig.bitcoinRetargetTimespanSeconds, checkedMul,
          if_pos (by rw [show bitcoinDifficultyAdjustmentInterval.toNat = 2016 from rfl]; omega)]
        refine ⟨_, rfl, ?_⟩
        rw [BitVec.toNat_mul, show bitcoinDifficultyAdjustmentInterval.toNat = 2016 from rfl,
          Nat.mod_eq_of_lt (by omega)]
      obtain ⟨exact_, required, -⟩ := nextWorkRequired_adjusts lib.toForkCrypto config.manifest.config
        parent.block.header.bits ((saturatingSub parent.block.header.time epochStartTime).setWidth 64)
          timespan (by omega)
      simp only [require_of_true boundary, epoch, okOr_some, except_ok_bind, required]
      exact ⟨_, rfl⟩

end After

/-! ## Branches -/

namespace ValidBranch

variable {hash : Digest} {node : BlockNode} {rest branch : Branch}

/-- The bits of a block expand to the target that its branch prescribes. -/
theorem difficulty_eq (valid : ValidBranch lib config ((hash, node) :: rest)) : ∃ bits,
    difficultyOn lib config rest node.height node.block.header.time = .ok { bits, phase := node.difficultyPhase } ∧
      headerTarget lib node = lib.targetFromCompact bits := by
  cases valid with
  | cons hashed linked admitted below =>
    obtain ⟨bits, difficulty, pow, -⟩ := admitted.difficulty
    exact ⟨bits, difficulty, pow.1⟩

theorem first_target (valid : ValidBranch lib config [(hash, node)]) :
    headerTarget lib node = limitTarget lib config ∧
      node.difficultyPhase = handoffPhase lib config node := by
  obtain ⟨bits, difficulty, target⟩ := valid.difficulty_eq
  simp only [difficultyOn, ForkChainConfig.launchDifficulty, Except.ok.injEq, NextDifficulty.mk.injEq] at difficulty
  obtain ⟨rfl, phase⟩ := difficulty
  rw [phaseAfterBootstrapBlock_eq target] at phase
  exact ⟨target, phase.symm⟩

include schedule

theorem phaseStep {parentHash : Digest}
    (valid : ValidBranch lib config ((hash, node) :: (parentHash, parent) :: rest)) :
    PhaseStep lib config parent node := by
  obtain ⟨bits, difficulty, target⟩ := valid.difficulty_eq
  exact phaseStep_of_difficultyAfter schedule difficulty target

/-- A block in the Bitcoin phase lies within its epoch. -/
theorem epoch_held (valid : ValidBranch lib config ((hash, node) :: rest))
    (phase : node.difficultyPhase = .bitcoin epochStartHeight epochStartTime) :
    epochStartHeight.toNat ≤ node.height.toNat ∧ node.height.toNat < epochStartHeight.toNat + 2016 := by
  have own (started : node.difficultyPhase = handoffPhase lib config node) : epochStartHeight = node.height := by
    rw [phase, handoffPhase] at started
    split_ifs at started
    exact (DifficultyPhase.bitcoin.inj started).1
  cases rest with
  | nil =>
    obtain rfl := own valid.first_target.2
    omega
  | cons parent older =>
    cases valid.phaseStep schedule with
    | bootstrap before target started =>
      obtain rfl := own started
      omega
    | within before target kept inside =>
      obtain ⟨rfl, -⟩ := DifficultyPhase.bitcoin.inj (phase.symm.trans kept)
      exact inside
    | boundary before target renewed next =>
      obtain ⟨rfl, -⟩ := DifficultyPhase.bitcoin.inj (phase.symm.trans renewed)
      omega

private theorem target_le (rounding : TargetRounding lib.toForkCrypto) (valid : ValidBranch lib config branch) :
    ∀ entry ∈ branch, headerTarget lib entry.2 ≤ limitTarget lib config := by
  have bounded {timespan measured : ℕ} {before after : U256}
      (adjusts : Adjusts lib.toForkCrypto (limitTarget lib config) timespan measured before after) :
      after ≤ limitTarget lib config := by
    obtain ⟨actual, -, -, -, -, exact_, capped, rfl⟩ := adjusts
    have down := BitVec.le_def.mp (rounding.rounds_down exact_)
    rw [BitVec.le_def]
    omega
  induction branch with
  | nil => exact fun entry member => absurd member List.not_mem_nil
  | cons top older ih =>
    have below := ih (valid.of_suffix (List.suffix_cons top older))
    intro entry member
    rcases List.mem_cons.mp member with rfl | deeper
    · cases older with
      | nil => rw [valid.first_target.1]; exact BitVec.le_refl _
      | cons parent oldest =>
        cases valid.phaseStep schedule with
        | bootstrap before target started => exact bounded target
        | within before target kept inside =>
          rw [target]
          exact below parent List.mem_cons_self
        | boundary before target renewed next => exact bounded target
    · exact below entry deeper

/-- Above a block in the Bitcoin phase all blocks are in it, epochs start 2016 blocks apart, and the target changes only
with the epoch. -/
theorem epochs (valid : ValidBranch lib config ((hash, node) :: rest)) {ancestor : Digest × BlockNode}
    (member : ancestor ∈ (hash, node) :: rest)
    (phase : ancestor.2.difficultyPhase = .bitcoin epochStartHeight epochStartTime) : ∃ start time count,
      node.difficultyPhase = .bitcoin start time ∧ start.toNat = epochStartHeight.toNat + 2016 * count ∧
        (count = 0 → headerTarget lib node = headerTarget lib ancestor.2) := by
  induction rest generalizing hash node with
  | nil =>
    obtain rfl := List.mem_singleton.mp member
    exact ⟨_, _, 0, phase, rfl, fun _ => rfl⟩
  | cons parent older ih =>
    obtain ⟨parentHash, parent⟩ := parent
    rcases List.mem_cons.mp member with rfl | deeper
    · exact ⟨_, _, 0, phase, rfl, fun _ => rfl⟩
    · obtain ⟨start, time, count, parentPhase, sum, same⟩ := ih (valid.of_suffix (List.suffix_cons _ _)) deeper
      cases valid.phaseStep schedule with
      | bootstrap before target started =>
        rw [before] at parentPhase
        cases parentPhase
      | within before target kept inside =>
        obtain ⟨rfl, -⟩ := DifficultyPhase.bitcoin.inj (parentPhase.symm.trans before)
        exact ⟨_, _, count, kept, sum, fun first => target.trans (same first)⟩
      | boundary before target renewed next =>
        obtain ⟨rfl, -⟩ := DifficultyPhase.bitcoin.inj (parentPhase.symm.trans before)
        have following : node.height.toNat = epochStartHeight.toNat + 2016 * (count + 1) := by
          rw [next, sum, mul_add, mul_one, add_assoc]
        exact ⟨node.height, node.block.header.time, count + 1, renewed, following,
          fun none => absurd none (Nat.succ_ne_zero count)⟩

/-- A block on a branch in the bootstrap phase decides its phase by its own target. -/
theorem phase_above_bootstrap (valid : ValidBranch lib config ((hash, node) :: rest))
    (bootstrap : ∀ entry ∈ rest, entry.2.difficultyPhase = .bootstrap) :
    node.difficultyPhase = handoffPhase lib config node := by
  cases rest with
  | nil => exact valid.first_target.2
  | cons parent older =>
    have first := bootstrap parent List.mem_cons_self
    cases valid.phaseStep schedule with
    | bootstrap before target started => exact started
    | within before target kept inside => rw [first] at before; cases before
    | boundary before target renewed next => rw [first] at before; cases before

/-- A branch is in the bootstrap phase as long as no target has reached the handoff. -/
theorem bootstrap_iff (valid : ValidBranch lib config branch) :
    (∀ entry ∈ branch, entry.2.difficultyPhase = .bootstrap) ↔
      ∀ entry ∈ branch, ¬ ReachesHandoff lib config (headerTarget lib entry.2) := by
  induction branch with
  | nil => simp
  | cons top older ih =>
    have below := ih (valid.of_suffix (List.suffix_cons top older))
    simp only [List.forall_mem_cons, ← below]
    constructor
    · rintro ⟨phase, bootstrap⟩
      refine ⟨fun reached => ?_, bootstrap⟩
      rw [valid.phase_above_bootstrap schedule bootstrap, handoffPhase, if_pos reached] at phase
      cases phase
    · rintro ⟨unreached, bootstrap⟩
      refine ⟨?_, bootstrap⟩
      rw [valid.phase_above_bootstrap schedule bootstrap, handoffPhase, if_neg unreached]

/-- The first block in the Bitcoin phase is the first one whose target reaches the handoff. -/
theorem first_bitcoin_iff (valid : ValidBranch lib config ((hash, node) :: rest)) :
    (node.difficultyPhase ≠ .bootstrap ∧ ∀ entry ∈ rest, entry.2.difficultyPhase = .bootstrap) ↔
      ReachesHandoff lib config (headerTarget lib node) ∧
        ∀ entry ∈ rest, ¬ ReachesHandoff lib config (headerTarget lib entry.2) := by
  rw [← (valid.of_suffix (List.suffix_cons _ rest)).bootstrap_iff schedule]
  refine and_congr_left fun bootstrap => ?_
  rw [valid.phase_above_bootstrap schedule bootstrap, handoffPhase]
  split_ifs with reached <;> simp [reached]

end ValidBranch

end Steps

/-! ## The encoding of the library -/

section Encoding

open CompactFormat

theorem compactOfTarget_eq (target : U256) :
    compactOfTarget target = BitVec.ofNat 32 (mantissaOf 3 target.toNat + exponentOf 3 target.toNat * 2 ^ 24) := by
  have packed (mantissa exponent : ℕ) (fits : mantissa < 2 ^ 24) :
      mantissa ||| exponent <<< 24 = mantissa + exponent * 2 ^ 24 := by
    rw [Nat.lor_comm, ← Nat.shiftLeft_add_eq_or_of_lt fits, Nat.shiftLeft_eq, add_comm]
  have whole : leading 3 target.toNat (byteSize target.toNat) < 2 ^ 24 := leading_lt (lt_pow_byteSize target.toNat)
  have high : (leading 3 target.toNat (byteSize target.toNat)).testBit 23 = true ↔
      256 ^ 3 ≤ 2 * leading 3 target.toNat (byteSize target.toNat) := by
    rw [Nat.testBit_eq_decide_div_mod_eq, decide_eq_true_iff]
    omega
  have opened : compactOfTarget target = if (leading 3 target.toNat (byteSize target.toNat)).testBit 23
      then BitVec.ofNat 32 (leading 3 target.toNat (byteSize target.toNat) >>> 8 ||| (byteSize target.toNat + 1) <<< 24)
      else BitVec.ofNat 32 (leading 3 target.toNat (byteSize target.toNat) ||| byteSize target.toNat <<< 24) := by
    rw [← shift_eq_leading]
    rfl
  rw [opened]
  unfold mantissaOf exponentOf
  split_ifs with one two two
  · rw [leading_succ, Nat.shiftRight_eq_div_pow, packed _ _ (by omega)]
  · exact absurd (high.mp one) two
  · exact absurd (high.mpr two) one
  · rw [packed _ _ whole]

private theorem toNat_targetOfCompact {mantissa exponent : ℕ} (small : 2 * mantissa < 256 ^ 3) (short : exponent ≤ 33)
    (fits : expand 3 mantissa exponent < 2 ^ 256) :
    (targetOfCompact (BitVec.ofNat 32 (mantissa + exponent * 2 ^ 24))).toNat = expand 3 mantissa exponent := by
  have word : (BitVec.ofNat 32 (mantissa + exponent * 2 ^ 24)).toNat = mantissa + exponent * 2 ^ 24 := by
    rw [BitVec.toNat_ofNat, Nat.mod_eq_of_lt (by omega)]
  have high : ((BitVec.ofNat 32 (mantissa + exponent * 2 ^ 24)) >>> 24).toNat = exponent := by
    rw [BitVec.toNat_ushiftRight, word, Nat.shiftRight_eq_div_pow]
    omega
  have low : ((BitVec.ofNat 32 (mantissa + exponent * 2 ^ 24)) &&& 0xffffff).toNat = mantissa := by
    rw [BitVec.toNat_and, word, show (0xffffff : BitVec 32).toNat = 2 ^ 24 - 1 by decide,
      Nat.and_two_pow_sub_one_eq_mod]
    omega
  have smaller : mantissa >>> (8 * (3 - exponent)) ≤ mantissa := Nat.shiftRight_le _ _
  unfold targetOfCompact
  simp only [high, low]
  rw [if_neg (by omega), BitVec.toNat_shiftLeft, BitVec.toNat_ofNat,
    Nat.mod_eq_of_lt (by omega : 8 * (exponent - 3) < 256),
    Nat.mod_eq_of_lt (by omega : mantissa >>> (8 * (3 - exponent)) < 2 ^ 256), shift_eq_expand, Nat.mod_eq_of_lt fits]

private theorem toNat_targetOfCompact_compactOfTarget (target : U256) :
    (targetOfCompact (compactOfTarget target)).toNat = rounded 3 target.toNat := by
  have least : rounded 3 target.toNat ≤ target.toNat := rounded_le _
  have exponent : exponentOf 3 target.toNat ≤ byteSize target.toNat + 1 := exponentOf_le _
  have length : byteSize target.toNat ≤ 32 := by
    by_contra longer
    have large := lt_byteSize_iff.mp (Nat.not_le.mp longer)
    have bound := target.isLt
    rw [← two_pow_mul] at large
    omega
  rw [compactOfTarget_eq, toNat_targetOfCompact (mantissaOf_lt (by decide) _) (by omega)]
  · rfl
  · exact least.trans_lt target.isLt

/-- The recorded library functions round targets as the library says. -/
theorem targetRounding_ofTables (tables : ForkTables) :
    TargetRounding (ForkPrimitives.ofTables tables).toForkCrypto where
  rounds_down target := by
    change targetOfCompact (compactOfTarget target) ≤ target
    rw [BitVec.le_def, toNat_targetOfCompact_compactOfTarget]
    exact rounded_le _
  canonical target := by
    change compactOfTarget (targetOfCompact (compactOfTarget target)) = compactOfTarget target
    rw [compactOfTarget_eq (targetOfCompact _), toNat_targetOfCompact_compactOfTarget, mantissaOf_rounded (by decide),
      exponentOf_rounded (by decide), ← compactOfTarget_eq]

end Encoding

/-! ## The theorem -/

/-- The target that a stored block was required to meet. -/
def requiredTarget (lib : ForkPrimitives) (store : ForkChainStore) (node : BlockNode) : U256 :=
  match store.nextDifficulty lib.toForkCrypto (store.parentOf node) node.height node.block.header.time with
  | .ok difficulty => lib.targetFromCompact difficulty.bits
  | .error _ => 0

private theorem requiredTarget_eq {lib : ForkPrimitives} {store : ForkChainStore} {tip : Option Digest}
    {branch : Branch}
    (found : BranchOf store tip branch) (valid : ValidBranch lib store.toForkChainConfig branch) :
    ∀ entry ∈ branch, requiredTarget lib store entry.2 = headerTarget lib entry.2 := by
  induction found with
  | stop => exact fun entry member => absurd member List.not_mem_nil
  | @entry hash node rest stored above ih =>
    intro entry member
    rcases List.mem_cons.mp member with rfl | deeper
    · obtain ⟨bits, difficulty, target⟩ := valid.difficulty_eq
      rw [requiredTarget, BranchOf.nextDifficulty_eq above, difficulty, target]
    · exact ih (valid.of_suffix (List.suffix_cons _ _)) entry deeper

/-- On every stored branch of a store with a validated manifest: the bits of a block expand to the target it was
required to meet, which never exceeds the limit; target and phase change from a block to its child by one of three
steps; blocks above a block in the Bitcoin phase are in it, in epochs that start 2016 blocks apart and keep their
target; the first block in the Bitcoin phase is the first whose target work reaches the handoff; and every stored block
prescribes a difficulty to its children. -/
theorem difficulty_phases (lib : ForkPrimitives) (config : ForkChainConfig)
    (rounding : TargetRounding lib.toForkCrypto)
    (validated : config.manifest.validate lib.toForkCrypto = .ok ()) (ops : List ForkOp) (tip : Digest)
    (branch : Branch) (found : BranchOf (afterCalls lib config ops) (some tip) branch) :
    (∀ entry ∈ branch,
      requiredTarget lib (afterCalls lib config ops) entry.2 = headerTarget lib entry.2 ∧
        headerTarget lib entry.2 ≤ limitTarget lib config) ∧
    (∀ newer child parent older, branch = newer ++ child :: parent :: older →
      PhaseStep lib config parent.2 child.2) ∧
    (∀ newer block older, branch = newer ++ block :: older → ∀ ancestor ∈ older, ∀ epochStartHeight epochStartTime,
      ancestor.2.difficultyPhase = .bitcoin epochStartHeight epochStartTime → ∃ start time count,
        block.2.difficultyPhase = .bitcoin start time ∧ start.toNat = epochStartHeight.toNat + 2016 * count ∧
          (count = 0 → headerTarget lib block.2 = headerTarget lib ancestor.2)) ∧
    (∀ newer block older, branch = newer ++ block :: older →
      ((block.2.difficultyPhase ≠ .bootstrap ∧ ∀ entry ∈ older, entry.2.difficultyPhase = .bootstrap) ↔
        ReachesHandoff lib config (headerTarget lib block.2) ∧
          ∀ entry ∈ older, ¬ ReachesHandoff lib config (headerTarget lib entry.2))) ∧
    ∀ entry ∈ branch, ∀ height time, checkedAdd entry.2.height 1 = some height → ∃ difficulty,
      (afterCalls lib config ops).nextDifficulty lib.toForkCrypto (some entry.1) height time =
        .ok difficulty := by
  have configured : (afterCalls lib config ops).toForkChainConfig = config := afterCalls_config config ops
  have schedule := validSchedule_of_validate validated
  have valid : ValidBranch lib config branch := by
    cases found with
    | entry stored above =>
      obtain ⟨rest, found', valid⟩ := Rooted.afterCalls config ops _ _ stored
      rwa [Trail.unique found' (.entry stored above), configured] at valid
  refine ⟨?_, ?_, ?_, ?_, ?_⟩
  · intro entry member
    exact ⟨requiredTarget_eq found (by rwa [configured]) entry member, valid.target_le schedule rounding entry member⟩
  · rintro newer child parent older rfl
    exact (valid.of_suffix (List.suffix_append newer _)).phaseStep schedule
  · rintro newer block older rfl ancestor member epochStartHeight epochStartTime phase
    exact (valid.of_suffix (List.suffix_append newer _)).epochs schedule (List.mem_cons_of_mem _ member) phase
  · rintro newer block older rfl
    exact (valid.of_suffix (List.suffix_append newer _)).first_bitcoin_iff schedule
  · intro entry member height time next
    have stored := Trail.stored_of_mem found member
    obtain ⟨newer, older, rfl⟩ := List.append_of_mem member
    have sum := checkedAdd_eq_some.mp next
    rw [nextDifficulty, stored, okOr_some, except_ok_bind, configured]
    exact exists_difficultyAfter schedule sum
      (fun _ _ phase => (valid.of_suffix (List.suffix_append newer _)).epoch_held schedule phase) time

open CoinbaseChain in
theorem difficulty_phases_sample :
    BranchOf CoinbaseChain.store (some (hashAt 11)) (branchAt 11) ∧
    (∀ entry ∈ branchAt 11,
      requiredTarget (CoinbaseChain.library outlier) CoinbaseChain.store entry.2 =
          headerTarget (CoinbaseChain.library outlier) entry.2 ∧
        headerTarget (CoinbaseChain.library outlier) entry.2 ≤
          limitTarget (CoinbaseChain.library outlier) CoinbaseChain.config) ∧
    ∀ entry ∈ branchAt 11, ∀ height time, checkedAdd entry.2.height 1 = some height → ∃ difficulty,
      CoinbaseChain.store.nextDifficulty (CoinbaseChain.library outlier).toForkCrypto (some entry.1) height
        time = .ok difficulty := by
  obtain ⟨-, stored, -⟩ := store_computed
  have found := branchOf_branchAt stored
  obtain ⟨targets, -, -, -, next⟩ := difficulty_phases (CoinbaseChain.library outlier) CoinbaseChain.config
    (targetRounding_ofTables _) (by decide +kernel) _ _ _ found
  exact ⟨found, targets, next⟩

end P2PoolBTC.Soundness
