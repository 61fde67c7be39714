import P2PoolBTC.Model.Node.ConfirmedPayouts
import P2PoolBTC.Soundness.CheckpointRaces
import P2PoolBTC.Soundness.PayoutFairness
import P2PoolBTC.Soundness.Registrations

/-! # Rewards of an identity with several miners

The identity half of a reward is split by scores, and every miner has the full score of the address it is registered
with. An address that registers more miners therefore takes a larger part of the pool, unless it has no score or
nobody else has one.
-/

namespace P2PoolBTC.Soundness

open Math Model.Core Model.Node Std SharechainReplayState

variable {crypto : Crypto} {state : SharechainReplayState} {address : Text}

/-- What the identity half of a reward adds to the accounts: the difference that the second component makes. -/
def idenaShares (accounts : List ParticipantAccount) (rewardSats : Sats) : Except PayoutError (List ℕ) := do
  let hashPool := rewardSats / 2
  let idenaPool := rewardSats - hashPool
  let earned ← addComponent accounts (List.replicate accounts.length 0) hashPool "hashrate"
    ParticipantAccount.hashrateScore
  let paid ← addComponent accounts earned idenaPool "idena" ParticipantAccount.idenaScore
  return List.zipWith (fun after before : Sats => after.toNat - before.toNat) paid earned

/-- Whether a miner is registered with an address. -/
def ownedBy (state : SharechainReplayState) (address minerId : Text) : Bool :=
  state.registrations[minerId]?.any fun registration => registration.idenaAddress = address

/-- What the identity pool of a schedule pays to the miners of an address. -/
def idenaTotal (state : SharechainReplayState) (address : Text) (accounts : List ParticipantAccount)
    (rewardSats : Sats) :
    Except PayoutError ℕ := do
  let shares ← idenaShares (canonicalAccounts accounts) rewardSats
  return partShare (ownedBy state address)
    (poolClaims (canonicalAccounts accounts) ParticipantAccount.idenaScore) shares

/-- Registrations of new miners of one address, each of which is applied. -/
inductive Joined (crypto : Crypto) (address : Text) :
    SharechainReplayState → List MinerRegistration → SharechainReplayState → Prop
  | done (state : SharechainReplayState) : Joined crypto address state [] state
  | join {state middle after : SharechainReplayState} {registration : MinerRegistration} {rest : List MinerRegistration}
      (fresh : state.registrations[registration.stored.minerId]? = none)
      (owned : registration.stored.idenaAddress = address)
      (applied : applyMessage crypto (.minerRegistration registration) state = .ok .applied middle)
      (others : Joined crypto address middle rest after) : Joined crypto address state (registration :: rest) after

/-- The score of an address in a snapshot. -/
def snapshotScore (snapshot : Snapshot) (address : Text) : ℕ :=
  match scoresByIdenaAddress snapshot.leaves with
  | .ok scores => (scores.getD address 0).toNat
  | .error _ => 0

/-- The miners of an address. -/
def minersOf (state : SharechainReplayState) (address : Text) : ℕ :=
  state.registrations.values.countP fun registration => registration.idenaAddress = address

/-- The scores of all other miners. -/
def rivalScore (state : SharechainReplayState) (snapshot : Snapshot) (address : Text) : ℕ :=
  ((state.registrations.values.filter fun registration => registration.idenaAddress ≠ address).map
    fun registration => snapshotScore snapshot registration.idenaAddress).sum

section Shares

/-- The identity shares split their half of the reward fairly. -/
theorem idenaShares_fair {accounts : List ParticipantAccount} {rewardSats : Sats} {deltas : List Sats}
    (returned : rewardDeltas accounts rewardSats = .ok deltas) :
    ∃ shares, idenaShares accounts rewardSats = .ok shares ∧ FairSplit MinerAtMost
      (rewardSats.toNat - rewardSats.toNat / 2) (poolClaims accounts ParticipantAccount.idenaScore) shares := by
  obtain ⟨earned, idena, first, second, sums, hashrateFair, idenaFair⟩ := rewardDeltas_components returned
  have lengths : idena.length = earned.length := by
    rw [idenaFair.aligned, ← List.length_map BitVec.toNat, hashrateFair.aligned]
    simp only [poolClaims, List.length_map]
  have difference : List.zipWith (fun after before : Sats => after.toNat - before.toNat) deltas earned = idena := by
    have unfolded : List.zipWith (fun after before : Sats => after.toNat - before.toNat) deltas earned =
        List.zipWith (· - ·) (deltas.map BitVec.toNat) (earned.map BitVec.toNat) := by rw [List.zipWith_map]
    rw [unfolded, sums]
    apply List.ext_getElem <;> simp [lengths]
  refine ⟨idena, ?_, idenaFair⟩
  simp only [idenaShares, first, second, except_ok_bind, difference]
  rfl

end Shares

section Claims

variable {snapshot : Snapshot} {accounts : List ParticipantAccount}

/-- What a registration puts forward for the identity pool. -/
def standing (snapshot : Snapshot) (registration : MinerRegistration) : Text × ℕ :=
  (registration.minerId, snapshotScore snapshot registration.idenaAddress)

/-- Registrations are found under their miners, in lower case. -/
theorem Enrolled.found (enrolled : Enrolled crypto state) {registration : MinerRegistration}
    (listed : registration ∈ state.registrations.values) :
    state.registrations[registration.minerId]? = some registration ∧
      toAsciiLowercase registration.minerId = registration.minerId ∧
      toAsciiLowercase registration.idenaAddress = registration.idenaAddress := by
  obtain ⟨key, stored⟩ := mem_values.mp listed
  obtain ⟨raw, -, rfl, rfl⟩ := enrolled.verified key registration stored
  exact ⟨stored, by simp [MinerRegistration.stored, MinerRegistration.normalized],
    by simp [MinerRegistration.stored, MinerRegistration.normalized]⟩

/-- An account with the score of the address that its miner is registered with. -/
def withScore (state : SharechainReplayState) (scores : ExtTreeMap Text Score) (account : ParticipantAccount) :
    ParticipantAccount :=
  { account with
    idenaScore := scores.getD (toAsciiLowercase ((state.registrations[account.minerId]?.map
      MinerRegistration.idenaAddress).getD [])) 0 }

private theorem applySnapshotScoresToAccounts_eq_ok {given : List ParticipantAccount}
    (scored : applySnapshotScoresToAccounts crypto state given snapshot = .ok accounts) :
    ∃ scores, scoresByIdenaAddress snapshot.leaves = .ok scores ∧ accounts = given.map (withScore state scores) := by
  simp only [applySnapshotScoresToAccounts, except_bind_eq_ok] at scored
  obtain ⟨_, -, scores, known, mapped⟩ := scored
  refine ⟨scores, known, eq_map_of_mapM_eq_ok ?_ mapped⟩
  intro account value returned
  obtain ⟨registration, found, returned⟩ := except_bind_eq_ok.mp returned
  rw [okOr_eq_ok] at found
  simp only [withScore, found, Option.map_some, Option.getD_some]
  split_ifs at returned
  · obtain ⟨_, -, ended⟩ := except_bind_eq_ok.mp returned
    cases ended
    rfl
  · cases returned
    rfl

/-- Scored accounts put forward what their registrations do. -/
theorem Enrolled.claims_perm (enrolled : Enrolled crypto state)
    (scored : applySnapshotScoresToAccounts crypto state state.participantAccounts snapshot = .ok accounts) :
    (poolClaims (canonicalAccounts accounts) ParticipantAccount.idenaScore).Perm
      (state.registrations.values.map (standing snapshot)) := by
  obtain ⟨scores, known, rfl⟩ := applySnapshotScoresToAccounts_eq_ok scored
  have claims : poolClaims ((state.participantAccounts.map (withScore state scores)).map ParticipantAccount.normalized)
      ParticipantAccount.idenaScore = state.registrations.values.map (standing snapshot) := by
    rw [poolClaims, participantAccounts, List.map_map, List.map_map, List.map_map]
    apply List.map_congr_left
    intro registration listed
    obtain ⟨found, lowerId, lowerAddress⟩ := enrolled.found listed
    simp only [Function.comp_apply, withScore, ParticipantAccount.normalized, lowerId, found, Option.map_some,
      Option.getD_some, lowerAddress, standing, snapshotScore, known]
  rw [← claims]
  exact (canonicalAccounts_perm _).map _

theorem Enrolled.ownedBy_iff (enrolled : Enrolled crypto state) {registration : MinerRegistration}
    (listed : registration ∈ state.registrations.values) (address : Text) :
    ownedBy state address registration.minerId = decide (registration.idenaAddress = address) := by
  rw [ownedBy, (enrolled.found listed).1, Option.any_some]

section Terms

variable (enrolled : Enrolled crypto state)
  (scored : applySnapshotScoresToAccounts crypto state state.participantAccounts snapshot = .ok accounts)
include enrolled scored

private theorem countP_owned :
    ((poolClaims (canonicalAccounts accounts) ParticipantAccount.idenaScore).countP fun claim =>
      ownedBy state address claim.1) = minersOf state address := by
  rw [(enrolled.claims_perm scored).countP_eq, List.countP_map, minersOf]
  apply List.countP_congr
  intro registration listed
  rw [Function.comp_apply, standing, enrolled.ownedBy_iff listed]

theorem partWeight_owned :
    partWeight (ownedBy state address) (poolClaims (canonicalAccounts accounts) ParticipantAccount.idenaScore) =
      minersOf state address * snapshotScore snapshot address := by
  rw [partWeight, (((enrolled.claims_perm scored).filter _).map Prod.snd).sum_eq, List.filter_map, List.map_map,
    minersOf, List.countP_eq_length_filter]
  have filters : (state.registrations.values.filter
      ((fun claim : Text × ℕ => ownedBy state address claim.1) ∘ standing snapshot)) =
        state.registrations.values.filter fun registration => registration.idenaAddress = address := by
    apply List.filter_congr
    intro registration listed
    rw [Function.comp_apply, standing, enrolled.ownedBy_iff listed]
  have scores : ∀ registration ∈ state.registrations.values.filter fun registration =>
      registration.idenaAddress = address,
      (Prod.snd ∘ standing snapshot) registration = snapshotScore snapshot address := by
    intro registration member
    rw [Function.comp_apply, standing, of_decide_eq_true (List.mem_filter.mp member).2]
  rw [filters, List.map_congr_left scores, List.map_const', List.sum_replicate, smul_eq_mul]

theorem partWeight_rivals :
    partWeight (fun minerId => !ownedBy state address minerId)
      (poolClaims (canonicalAccounts accounts) ParticipantAccount.idenaScore) = rivalScore state snapshot address := by
  rw [partWeight, (((enrolled.claims_perm scored).filter _).map Prod.snd).sum_eq, List.filter_map,
    List.map_map, rivalScore]
  have filters : (state.registrations.values.filter
      ((fun claim : Text × ℕ => !ownedBy state address claim.1) ∘ standing snapshot)) =
        state.registrations.values.filter fun registration => registration.idenaAddress ≠ address := by
    apply List.filter_congr
    intro registration listed
    rw [Function.comp_apply, standing, enrolled.ownedBy_iff listed, decide_not]
  rw [filters]
  rfl

private theorem total_claims (address : Text) :
    ((poolClaims (canonicalAccounts accounts) ParticipantAccount.idenaScore).map Prod.snd).sum =
    minersOf state address * snapshotScore snapshot address + rivalScore state snapshot address := by
  rw [← partWeight_add_partWeight_not (ownedBy state address), partWeight_owned enrolled scored,
    partWeight_rivals enrolled scored]

end Terms

private theorem idenaTotal_eq_ok (state : SharechainReplayState) (address : Text) {rewardSats minDirectPayout : Sats}
    {directLimit : U64} {schedule : PayoutSchedule}
    (built : buildPayoutSchedule crypto accounts rewardSats directLimit minDirectPayout = .ok schedule) :
    ∃ shares, idenaTotal state address accounts rewardSats = .ok (partShare (ownedBy state address)
        (poolClaims (canonicalAccounts accounts) ParticipantAccount.idenaScore) shares) ∧
      FairSplit MinerAtMost (rewardSats.toNat - rewardSats.toNat / 2)
        (poolClaims (canonicalAccounts accounts) ParticipantAccount.idenaScore) shares := by
  simp only [buildPayoutSchedule, except_bind_eq_ok] at built
  obtain ⟨deltas, rewards, -⟩ := built
  obtain ⟨shares, returned, fair⟩ := idenaShares_fair rewards
  refine ⟨shares, ?_, fair⟩
  rw [idenaTotal, returned]
  rfl

end Claims

section Joining

variable {after : SharechainReplayState} {newcomers : List MinerRegistration}

/-- New miners of an address are counted for it, and change nothing for the others. -/
theorem Joined.effect (joined : Joined crypto address state newcomers after) (enrolled : Enrolled crypto state) :
    Enrolled crypto after ∧ minersOf after address = minersOf state address + newcomers.length ∧
      ∀ snapshot, rivalScore after snapshot address = rivalScore state snapshot address := by
  induction joined with
  | done state => exact ⟨enrolled, rfl, fun _ => rfl⟩
  | @join state middle after registration rest fresh owned applied others ih =>
    have taken : (ReplayOp.applyMessage (.minerRegistration registration)).step? crypto state = some middle :=
      stateAfter?_eq_some.mpr ⟨_, applied⟩
    obtain ⟨kept, miners, rivals⟩ := ih (enrolled.step taken).1
    have values : middle.registrations.values.Perm (registration.stored :: state.registrations.values) := by
      rw [applyMessage_registration_new fresh applied]
      exact values_insert_perm _ fresh
    refine ⟨kept, ?_, fun snapshot => ?_⟩
    · rw [miners, minersOf, minersOf, values.countP_eq, List.countP_cons, owned, List.length_cons]
      simp only [decide_true, if_true]
      omega
    · rw [rivals, rivalScore, rivalScore, ((values.filter _).map _).sum_eq, List.filter_cons, owned]
      simp

end Joining

/-- When new miners join an address, its miners together gain what the added weight is worth, up to one satoshi for
each of them in either schedule. They gain nothing exactly when there is no pool, no score of theirs, no score of
others, or no new miner. -/
theorem identity_rewards_gain (crypto : Crypto) (ops : List ReplayOp) (state after : SharechainReplayState)
    (address : Text) (newcomers : List MinerRegistration) (snapshot : Snapshot)
    (accounts joinedAccounts : List ParticipantAccount) (rewardSats minDirectPayout : Sats) (directLimit : U64)
    (schedule joinedSchedule : PayoutSchedule) (reached : run? (ReplayOp.step? crypto) {} ops = some state)
    (joined : Joined crypto address state newcomers after)
    (scored : applySnapshotScoresToAccounts crypto state state.participantAccounts snapshot = .ok accounts)
    (joinedScored : applySnapshotScoresToAccounts crypto after after.participantAccounts snapshot = .ok joinedAccounts)
    (built : buildPayoutSchedule crypto accounts rewardSats directLimit minDirectPayout = .ok schedule)
    (joinedBuilt : buildPayoutSchedule crypto joinedAccounts rewardSats directLimit minDirectPayout =
      .ok joinedSchedule) :
    let pool := rewardSats.toNat - rewardSats.toNat / 2
    let score := snapshotScore snapshot address
    let rivals := rivalScore state snapshot address
    let weight := minersOf state address * score + rivals
    let joinedWeight := (minersOf state address + newcomers.length) * score + rivals
    ∃ total joinedTotal, idenaTotal state address accounts rewardSats = .ok total ∧
      idenaTotal after address joinedAccounts rewardSats = .ok joinedTotal ∧
      (pool = 0 ∨ score = 0 ∨ rivals = 0 ∨ newcomers = [] → joinedTotal = total) ∧
      weight * joinedWeight * joinedTotal ≤ weight * joinedWeight * total + pool * score * rivals * newcomers.length +
        (2 * minersOf state address + newcomers.length) * (weight * joinedWeight) ∧
      weight * joinedWeight * total + pool * score * rivals * newcomers.length ≤ weight * joinedWeight * joinedTotal +
        (2 * minersOf state address + newcomers.length) * (weight * joinedWeight) := by
  intro pool score rivals weight joinedWeight
  have enrolled := ((Enrolled.initial crypto).run reached).1
  obtain ⟨joinedEnrolled, miners, others⟩ := joined.effect enrolled
  obtain ⟨shares, returned, fair⟩ := idenaTotal_eq_ok state address built
  obtain ⟨joinedShares, joinedReturned, joinedFair⟩ := idenaTotal_eq_ok after address joinedBuilt
  have total := fair.partShare_add_partShare_not (ownedBy state address)
  have joinedTotal := joinedFair.partShare_add_partShare_not (ownedBy after address)
  refine ⟨_, _, returned, joinedReturned, ?_, ?_⟩
  · rintro (empty | noScore | alone | nobody)
    · omega
    · rw [fair.partShare_eq_zero, joinedFair.partShare_eq_zero]
      · rw [partWeight_owned joinedEnrolled joinedScored]
        exact mul_eq_zero_of_right _ noScore
      · rw [partWeight_owned enrolled scored]
        exact mul_eq_zero_of_right _ noScore
    · rw [fair.partShare_eq_pool, joinedFair.partShare_eq_pool]
      · rw [partWeight_rivals joinedEnrolled joinedScored, others]
        exact alone
      · rw [partWeight_rivals enrolled scored]
        exact alone
    · subst nobody
      cases joined
      cases scored.symm.trans joinedScored
      exact Except.ok.inj (joinedReturned.symm.trans returned)
  · by_cases empty : pool = 0
    · have nothing : partShare (ownedBy state address)
          (poolClaims (canonicalAccounts accounts) ParticipantAccount.idenaScore) shares = 0 := by omega
      have joinedNothing : partShare (ownedBy after address)
          (poolClaims (canonicalAccounts joinedAccounts) ParticipantAccount.idenaScore) joinedShares = 0 := by omega
      rw [nothing, joinedNothing, empty]
      simp
    · have weighed := total_claims enrolled scored address
      have joinedWeighed := total_claims joinedEnrolled joinedScored address
      rw [miners, others] at joinedWeighed
      have forward := fair.partShare_gain (ownedBy state address) (ownedBy after address) joinedFair
        (Nat.pos_of_ne_zero fun none => empty (joinedFair.pool_eq_zero none))
      have backward := joinedFair.partShare_gain (ownedBy after address) (ownedBy state address) fair
        (Nat.pos_of_ne_zero fun none => empty (fair.pool_eq_zero none))
      rw [weighed, joinedWeighed, partWeight_owned enrolled scored, partWeight_owned joinedEnrolled joinedScored,
        miners, countP_owned enrolled scored, countP_owned joinedEnrolled joinedScored, miners] at forward backward
      dsimp only [weight, joinedWeight, pool, score, rivals]
      constructor
      · linarith only [backward]
      · linarith only [forward]

namespace Sample

/-! A third miner, registered with the address of the first one. -/

def twinMiningKey : Text := hexText 64 0xd793631af7aa0e709439dd47fc001acd0b0727670b6670ea528ac83cb0127f4a

def twinOwnerKey : Text := hexText 64 0x57eb3638f51f4dc5c8d5a7324b47df99e816cfcc5b5eb1245bc8c98029f9e674

def twinRegistryAnchor : MinerRegistryAnchorV1 := registeredAt 3 160 1700000060
  (hexText 64 0x5dcc417b89b50dbb575d08e2710536514c0bf78ea79fb82c7cda95d4d96a7b26)

def twinRegistration : MinerRegistration :=
  registrationOf "carol" idenaAddress 0x00148888888888888888888888888888888888888888
    twinOwnerKey twinMiningKey twinRegistryAnchor
    (hexText 64 0x31e8a06a0f272c04199e5e822b0d13c80b816e0438d1f10ca8984179a135e5b8 ++
      hexText 64 0x1f7f74d4a4a9637d041a9a81851ff0260d14c8acbfccb8ae70e8e92816e6ac96 ++ hexText 2 0x01)
    (hexText 64 0x52db4640a432c11ef7c4b8b977709c86cc291cc024a5c8a5fc342dbada221fa0 ++
      hexText 64 0x095385a767a269766f1abe660b9f27fe70192d5d2acd046f66c06bbffd606814)

def leafOf (address : Text) : SnapshotLeaf :=
  { idenaAddress := address
    status := .human
    pubkey := []
    validationRewardScore := 100
    proposerRewardScore := 0
    committeeRewardScore := 0
    ignoredInvitationScore := 0
    identityRoot := hexEncode (List.replicate 32 0x55)
    formulaVersion := 2 }

/-- Both identities have the same score. -/
def evenSnapshot : Snapshot :=
  { snapshotDay := "2024-01-01".toList
    idenaHeight := 1000
    idenaBlockHash := '0' :: 'x' :: hexEncode (List.replicate 32 0x66)
    identityRoot := hexEncode (List.replicate 32 0x55)
    scoreRoot := hexText 64 0xcbcbc20810210377e1082b1afc3f3d5430b113376ca4ee2b24e74d15fb6ca861
    formulaVersion := 2
    leaves := [leafOf lateIdenaAddress, leafOf idenaAddress] }

def allocations (alice bob : Sats) : List VaultAllocation :=
  [{ minerId := "bob".toList, claimOwnerId := lateOwnerKey, amountSats := bob },
    { minerId := "alice".toList, claimOwnerId := ownerKey, amountSats := alice }]

def twinAllocations : List VaultAllocation :=
  [{ minerId := "bob".toList, claimOwnerId := lateOwnerKey, amountSats := 167 },
    { minerId := "carol".toList, claimOwnerId := twinOwnerKey, amountSats := 166 },
    { minerId := "alice".toList, claimOwnerId := ownerKey, amountSats := 667 }]

def leafHash : Text := hexText 64 0xee257f41a88361a83f1ef4f912051768a9a63ad5a5be149b279a15518b55cf19

def lateLeafHash : Text := hexText 64 0x701b5ba558e96d4462a7e04a07ac0d531193ad4b0de356ba4a8c93b0012a1f79

def twinTables : CryptoTables :=
  withRegistration twinRegistration
    0x315fa0cc878d17cf54cbd4aa0e51a69eb262addc16474dfac8fb4668dfd896d3
    0x92c29b6741baa8a43a76ffa655f3a88fdba952e7f3f19b5909529d2277a3e678
    0x614df34eafc6636dee5f46dc80a998c770dcd150ff81bc5eba1891f591ab7da8
    0x3567ffc403b752486139845016732c618729b3c7981d7af6c5b57d675c1ba223 1 identityKey 0x0ac0cd74a44c6bb4ff0a671e
    { lateTables with
      sha256Tagged := [
        (.merkleSnapshotLeaf (leafOf lateIdenaAddress), lateLeafHash),
        (.merkleSnapshotLeaf (leafOf idenaAddress), leafHash),
        (.merkleNode (.ofHex lateLeafHash) (.ofHex leafHash), evenSnapshot.scoreRoot),
        (.merklePayoutLeaf { directOutputs := [], vaultAllocations := allocations 750 250, vaultOutputSats := 1000 },
          hexText 64 0x6966753a709afc0d5e352898253920d37306606487ee1bc02485da15c9340ae0),
        (.merklePayoutLeaf { directOutputs := [], vaultAllocations := twinAllocations, vaultOutputSats := 1000 },
          hexText 64 0x4258cd074dc414b739af90e0b01f9d57bcb8e785fd4340879391c0170e4b5b33)] ++ lateTables.sha256Tagged }

def twinCrypto : Crypto := .ofTables twinTables

/-- Two miners of two identities, one of them with shares. -/
def pairOps : List ReplayOp :=
  [.acceptBitcoinWorkTemplate template, .applyMessage (.minerRegistration registration),
    .applyMessage (.bitcoinWorkTemplate template), .applyMessage (.share rootShare),
    .applyMessage (.minerRegistration lateRegistration)]

/-- A payout of a thousand satoshis to the accounts of a state. -/
structure Paid (state : SharechainReplayState) (total : ℕ) : Prop where
  settled : ∃ accounts schedule,
    applySnapshotScoresToAccounts twinCrypto state state.participantAccounts evenSnapshot = .ok accounts ∧
    buildPayoutSchedule twinCrypto accounts 1000 directPayoutLimit minDirectPayoutSats = .ok schedule ∧
    idenaTotal state idenaAddress accounts 1000 = .ok total

/-- The same payout, computed. -/
def pays (state : SharechainReplayState) (total : ℕ) : Bool :=
  (applySnapshotScoresToAccounts twinCrypto state state.participantAccounts evenSnapshot).toOption.any fun accounts =>
    (buildPayoutSchedule twinCrypto accounts 1000 directPayoutLimit minDirectPayoutSats).toOption.isSome &&
      (idenaTotal state idenaAddress accounts 1000).toOption == some total

private theorem paid_of_pays {total : ℕ} (computed : pays state total = true) : Paid state total := by
  obtain ⟨accounts, scored, rest⟩ := (Option.any_eq_true _ _).mp computed
  rw [Bool.and_eq_true, beq_iff_eq] at rest
  obtain ⟨schedule, built⟩ := Option.isSome_iff_exists.mp rest.1
  exact ⟨accounts, schedule, toOption_eq_some.mp scored, toOption_eq_some.mp built, toOption_eq_some.mp rest.2⟩

theorem twins_computed : (run? (ReplayOp.step? twinCrypto) {} pairOps).any (fun state =>
    state.registrations[twinRegistration.stored.minerId]?.isNone && minersOf state idenaAddress == 1 &&
      rivalScore state evenSnapshot idenaAddress == 100 && pays state 250 &&
      (match applyMessage twinCrypto (.minerRegistration twinRegistration) state with
        | .ok .applied after => pays after 333
        | _ => false)) = true := by decide +kernel

/-- The states before and after the third registration. -/
structure Twins (state after : SharechainReplayState) : Prop where
  reached : run? (ReplayOp.step? twinCrypto) {} pairOps = some state
  joined : Joined twinCrypto idenaAddress state [twinRegistration] after
  miners : minersOf state idenaAddress = 1
  rivals : rivalScore state evenSnapshot idenaAddress = 100
  before : Paid state 250
  later : Paid after 333

theorem exists_twins : ∃ state after, Twins state after := by
  obtain ⟨state, reached, facts⟩ := (Option.any_eq_true _ _).mp twins_computed
  simp only [Bool.and_eq_true, Option.isNone_iff_eq_none, beq_iff_eq] at facts
  obtain ⟨⟨⟨⟨fresh, miners⟩, rivals⟩, before⟩, later⟩ := facts
  split at later
  · rename_i after applied
    exact ⟨state, after, reached, .join fresh (by decide) applied (.done _), miners, rivals, paid_of_pays before,
      paid_of_pays later⟩
  · cases later

end Sample

open Sample in
theorem identity_rewards_gain_twins :
    ∃ state after total joinedTotal, Joined twinCrypto idenaAddress state [twinRegistration] after ∧
      Paid state total ∧ Paid after joinedTotal ∧
      200 * 300 * total + 500 * 100 * 100 ≤ 200 * 300 * joinedTotal + 3 * (200 * 300) := by
  obtain ⟨state, after, twins⟩ := exists_twins
  obtain ⟨accounts, schedule, scored, built, paid⟩ := twins.before.settled
  obtain ⟨joinedAccounts, joinedSchedule, joinedScored, joinedBuilt, joinedPaid⟩ := twins.later.settled
  obtain ⟨total, joinedTotal, returned, joinedReturned, -, -, gain⟩ :=
    identity_rewards_gain twinCrypto pairOps state after idenaAddress [twinRegistration] evenSnapshot accounts
      joinedAccounts 1000 minDirectPayoutSats directPayoutLimit schedule joinedSchedule twins.reached twins.joined
      scored joinedScored built joinedBuilt
  cases paid.symm.trans returned
  cases joinedPaid.symm.trans joinedReturned
  have score : snapshotScore evenSnapshot idenaAddress = 100 := by decide
  rw [twins.miners, twins.rivals, score] at gain
  exact ⟨state, after, 250, 333, twins.joined, twins.before, twins.later, gain⟩

open Sample in
/-- With a second miner, an identity takes two thirds of the pool that it shared evenly before. -/
theorem second_miner_pays_off :
    ∃ state after total joinedTotal, run? (ReplayOp.step? twinCrypto) {} pairOps = some state ∧
      Joined twinCrypto idenaAddress state [twinRegistration] after ∧ Paid state total ∧ Paid after joinedTotal ∧
      total + minersOf after idenaAddress < joinedTotal := by
  obtain ⟨state, after, twins⟩ := exists_twins
  refine ⟨state, after, 250, 333, twins.reached, twins.joined, twins.before, twins.later, ?_⟩
  obtain ⟨-, miners, -⟩ := twins.joined.effect ((Enrolled.initial twinCrypto).run twins.reached).1
  rw [miners, twins.miners]
  decide

end P2PoolBTC.Soundness
