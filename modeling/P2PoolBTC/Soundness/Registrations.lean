import P2PoolBTC.Soundness.ReplayRuns
import P2PoolBTC.Soundness.TreeFrames

/-! # Registrations over whole runs

A stored registration is the stored form of a message with both signatures. It is replaced only by an
upgrade, which keeps the miner's keys and moves its registry anchor forward within one contract and
experiment. Valid anchors are in lower case, so comparing them without case compares them exactly.
-/

namespace P2PoolBTC.Soundness

open Math Model.Core Std SharechainReplayState

variable {registration : MinerRegistration}

/-- What a later registration keeps of an earlier one of the same miner. -/
structure RegistrationKept (earlier later : MinerRegistration) : Prop where
  idenaAddress : later.idenaAddress = earlier.idenaAddress
  btcPayoutScriptHex : later.btcPayoutScriptHex = earlier.btcPayoutScriptHex
  claimOwnerPubkeyHex : later.claimOwnerPubkeyHex = earlier.claimOwnerPubkeyHex
  miningPubkeyHex : later.miningPubkeyHex = earlier.miningPubkeyHex
  anchored : ∀ anchor, earlier.registryAnchor = some anchor → ∃ next, later.registryAnchor = some next ∧
    next.contractAddress = anchor.contractAddress ∧ next.experimentId = anchor.experimentId ∧
    anchor.registrationSequence ≤ next.registrationSequence

namespace RegistrationKept

theorem refl (registration : MinerRegistration) : RegistrationKept registration registration :=
  ⟨rfl, rfl, rfl, rfl, fun anchor present => ⟨anchor, present, rfl, rfl, BitVec.le_refl _⟩⟩

private theorem trans {first second third : MinerRegistration} (early : RegistrationKept first second)
    (late : RegistrationKept second third) : RegistrationKept first third := by
  refine ⟨late.idenaAddress.trans early.idenaAddress, late.btcPayoutScriptHex.trans early.btcPayoutScriptHex,
    late.claimOwnerPubkeyHex.trans early.claimOwnerPubkeyHex, late.miningPubkeyHex.trans early.miningPubkeyHex, ?_⟩
  intro anchor present
  obtain ⟨middle, middlePresent, contract, experiment, sequence⟩ := early.anchored anchor present
  obtain ⟨last, lastPresent, lastContract, lastExperiment, lastSequence⟩ := late.anchored middle middlePresent
  exact ⟨last, lastPresent, lastContract.trans contract, lastExperiment.trans experiment,
    BitVec.le_trans sequence lastSequence⟩

end RegistrationKept

section Stored

variable {crypto : Crypto} {raw candidate existing : MinerRegistration}

/-- An upgrade between stored registrations keeps what a miner is paid by. -/
theorem RegistrationKept.of_upgrade (first : RegistrationVerified crypto existing)
    (second : RegistrationVerified crypto candidate)
    (upgrade : isValidRegistryRegistrationUpgrade existing.stored candidate.stored = true) :
    RegistrationKept existing.stored candidate.stored := by
  unfold isValidRegistryRegistrationUpgrade at upgrade
  split_ifs at upgrade with same
  obtain ⟨_, _, address, script, owner, key⟩ := same
  simp only [MinerRegistration.stored, MinerRegistration.normalized, EqIgnoreAsciiCase,
    toAsciiLowercase_idem] at address script owner key
  refine ⟨address.symm, script.symm, owner.symm, key.symm, fun anchor present => ?_⟩
  have lower := first.anchor_normalized present
  cases next : candidate.registryAnchor with
  | none => simp [MinerRegistration.stored, next] at upgrade
  | some later =>
    have nextLower := second.anchor_normalized next
    change existing.registryAnchor = some anchor at present
    simp only [MinerRegistration.stored, next, present] at upgrade
    obtain ⟨contract, experiment, sequence⟩ := of_decide_eq_true upgrade
    have contracts : anchor.normalized.contractAddress = later.normalized.contractAddress := contract.symm
    have experiments : anchor.normalized.experimentId = later.normalized.experimentId := experiment.symm
    rw [lower, nextLower] at contracts experiments
    exact ⟨later, next, contracts.symm, experiments.symm, BitVec.le_of_lt sequence⟩

end Stored

/-! ## Books of registrations -/

/-- Every registration is stored under its miner and came as a verified message, and every stored share is of a
registered miner. -/
structure Enrolled (crypto : Crypto) (state : SharechainReplayState) : Prop where
  verified : ∀ (minerId : Text) (registration : MinerRegistration), state.registrations[minerId]? = some registration →
    ∃ raw, RegistrationVerified crypto raw ∧ registration = raw.stored ∧ minerId = raw.stored.minerId
  mined : ∀ (hash : Text) (entry : Share × Text), skeleton state.shares hash = some entry →
    toAsciiLowercase entry.1.minerId ∈ state.registrations

/-- Later books have every earlier registration, or an upgrade of it, and every earlier share. -/
structure BooksExtend (before after : SharechainReplayState) : Prop where
  registrations : ∀ (minerId : Text) (registration : MinerRegistration),
    before.registrations[minerId]? = some registration →
      ∃ next, after.registrations[minerId]? = some next ∧ RegistrationKept registration next
  shares : ∀ (hash : Text) (entry : Share × Text), skeleton before.shares hash = some entry →
    skeleton after.shares hash = some entry

namespace BooksExtend

theorem refl (state : SharechainReplayState) : BooksExtend state state :=
  ⟨fun _ registration stored => ⟨registration, stored, .refl _⟩, fun _ _ stored => stored⟩

theorem trans {first second third : SharechainReplayState} (early : BooksExtend first second)
    (late : BooksExtend second third) : BooksExtend first third := by
  refine ⟨fun minerId registration stored => ?_, fun hash entry stored =>
    late.shares hash entry (early.shares hash entry stored)⟩
  obtain ⟨middle, middleStored, kept⟩ := early.registrations minerId registration stored
  obtain ⟨last, lastStored, keptLater⟩ := late.registrations minerId middle middleStored
  exact ⟨last, lastStored, kept.trans keptLater⟩

private theorem mem {before after : SharechainReplayState} (extension : BooksExtend before after) {minerId : Text}
    (registered : minerId ∈ before.registrations) : minerId ∈ after.registrations := by
  rw [ExtTreeMap.mem_iff_isSome_getElem?, Option.isSome_iff_exists] at registered ⊢
  obtain ⟨registration, stored⟩ := registered
  obtain ⟨next, nextStored, -⟩ := extension.registrations minerId registration stored
  exact ⟨next, nextStored⟩

end BooksExtend

section Steps

variable {crypto : Crypto} {state after : SharechainReplayState} {message : SharechainMessage}

theorem Enrolled.initial (crypto : Crypto) : Enrolled crypto {} := by
  constructor
  · intro minerId registration stored
    simp at stored
  · intro hash entry stored
    simp [skeleton] at stored

/-- A message that changes neither registrations nor stored shares. -/
theorem Enrolled.of_same (enrolled : Enrolled crypto state) (registrations : after.registrations = state.registrations)
    (shares : skeleton after.shares = skeleton state.shares) : Enrolled crypto after ∧ BooksExtend state after := by
  refine ⟨⟨?_, ?_⟩, ?_, ?_⟩
  · rw [registrations]
    exact enrolled.verified
  · rw [registrations, shares]
    exact enrolled.mined
  · rw [registrations]
    exact (BooksExtend.refl state).registrations
  · rw [shares]
    exact fun _ _ stored => stored

/-- Storing a verified registration that upgrades the one it replaces. -/
theorem Enrolled.registered (enrolled : Enrolled crypto state) (verified : RegistrationVerified crypto registration)
    (upgrade : ∀ existing, state.registrations[registration.stored.minerId]? = some existing →
      isValidRegistryRegistrationUpgrade existing registration.stored = true) :
    Enrolled crypto { state with
      registrations := state.registrations.insert registration.stored.minerId registration.stored } ∧
    BooksExtend state { state with
      registrations := state.registrations.insert registration.stored.minerId registration.stored } := by
  have extension : BooksExtend state { state with
      registrations := state.registrations.insert registration.stored.minerId registration.stored } := by
    refine ⟨fun minerId earlier stored => ?_, fun _ _ stored => stored⟩
    dsimp only
    rw [getElem?_insert_eq]
    split_ifs with same
    · subst same
      obtain ⟨raw, rawVerified, rfl, -⟩ := enrolled.verified _ _ stored
      exact ⟨_, rfl, .of_upgrade rawVerified verified (upgrade _ stored)⟩
    · exact ⟨earlier, stored, .refl _⟩
  refine ⟨⟨fun minerId stored present => ?_, fun hash entry stored => ?_⟩, extension⟩
  · dsimp only at present
    rw [getElem?_insert_eq] at present
    split_ifs at present with same
    · cases present
      exact ⟨registration, verified, rfl, same.symm⟩
    · exact enrolled.verified minerId stored present
  · exact extension.mem (enrolled.mined hash entry stored)

/-- Adding a share of a registered miner. -/
theorem Enrolled.shared {mined : Share} {tree : ShareTree} (enrolled : Enrolled crypto state)
    (valid : state.validateShare crypto mined = .ok ()) (added : ShareAdded crypto mined state.toShareTree tree) :
    Enrolled crypto { state with toShareTree := tree } ∧ BooksExtend state { state with toShareTree := tree } := by
  rcases added.records with same | ⟨fresh, records⟩
  · exact enrolled.of_same rfl same
  · simp only [validateShare, registrationOf, except_bind_eq_ok, okOr_eq_ok] at valid
    obtain ⟨registration, registered, -⟩ := valid
    refine ⟨⟨enrolled.verified, fun hash entry stored => ?_⟩, (BooksExtend.refl state).registrations,
      fun hash entry stored => ?_⟩
    · dsimp only at stored ⊢
      rw [records] at stored
      split_ifs at stored with same
      · cases stored
        rw [ExtTreeMap.mem_iff_isSome_getElem?]
        simp [Share.normalized, registered]
      · exact enrolled.mined hash entry stored
    · dsimp only
      rw [records, if_neg, stored]
      intro same
      rw [← same, skeleton, fresh] at stored
      cases stored

private theorem Handled.enrolled (handled : Handled crypto state message after) (enrolled : Enrolled crypto state) :
    Enrolled crypto after ∧ BooksExtend state after := by
  cases handled with
  | registered verified upgrade => exact enrolled.registered verified upgrade
  | @shared mined tree valid applied => exact enrolled.shared valid ((applyShare_adds crypto mined _).of_ok applied)
  | @checkpointed checkpoint tree _ rebuilt =>
    exact enrolled.of_same rfl (TreeKept.of_branch ((rebuildActiveBranch_branch _ _).of_ok rebuilt)).records
  | _ => exact enrolled.of_same rfl rfl

theorem Enrolled.step {op : ReplayOp} (enrolled : Enrolled crypto state) (step : op.step? crypto state = some after) :
    Enrolled crypto after ∧ BooksExtend state after := by
  cases ReplayOp.stepped step with
  | ignored _ same =>
    subst same
    exact ⟨enrolled, .refl _⟩
  | accepted prefixes ledger _ effect =>
    subst effect
    exact enrolled.of_same rfl rfl
  | @message message middle _ handled marks =>
    subst marks
    obtain ⟨kept, extension⟩ := handled.enrolled enrolled
    obtain ⟨keptMarked, further⟩ : Enrolled crypto (marked crypto message middle) ∧
        BooksExtend middle (marked crypto message middle) := kept.of_same rfl rfl
    exact ⟨keptMarked, extension.trans further⟩

theorem Enrolled.run {ops : List ReplayOp} (enrolled : Enrolled crypto state)
    (reached : run? (ReplayOp.step? crypto) state ops = some after) :
    Enrolled crypto after ∧ BooksExtend state after := by
  constructor
  · exact run?_invariant _ reached enrolled fun _ _ _ _ held taken => (held.step taken).1
  · exact run?_relates (Enrolled crypto) BooksExtend reached enrolled .refl (fun _ _ _ => .trans)
      fun _ _ _ _ held taken => held.step taken

/-- The account of a registered miner pays by its registration. -/
theorem Enrolled.account (enrolled : Enrolled crypto state) {minerId : Text}
    (registered : state.registrations[minerId]? = some registration) {account : ParticipantAccount}
    (listed : account ∈ state.participantAccounts) (same : account.minerId = minerId) :
    account.btcPayoutScriptHex = registration.btcPayoutScriptHex ∧
      account.claimOwnerId = registration.claimOwnerPubkeyHex := by
  obtain ⟨other, present, rfl⟩ := List.mem_map.mp listed
  obtain ⟨key, stored⟩ := mem_values.mp present
  obtain ⟨raw, -, rfl, rfl⟩ := enrolled.verified key other stored
  have lower : toAsciiLowercase raw.stored.minerId = raw.stored.minerId := by
    simp [MinerRegistration.stored, MinerRegistration.normalized]
  dsimp only at same
  rw [lower] at same
  rw [same, registered] at stored
  cases stored
  simp [MinerRegistration.stored, MinerRegistration.normalized]

end Steps

/-- Along every run of the replay a registered miner keeps its address, payout script, claim owner and mining key;
its registry anchor is never dropped, stays with its contract and experiment and moves forward only. The miner of
every stored share is registered, and whatever follows pays that miner by the same script and owner. -/
theorem registrations_stable (crypto : Crypto) (early late : List ReplayOp) (earlier later : SharechainReplayState)
    (reached : run? (ReplayOp.step? crypto) {} early = some earlier)
    (continued : run? (ReplayOp.step? crypto) earlier late = some later) :
    (∀ (minerId : Text) (registration : MinerRegistration),
      earlier.registrations[toAsciiLowercase minerId]? = some registration →
        ∃ next, later.registrations[toAsciiLowercase minerId]? = some next ∧ RegistrationKept registration next) ∧
    (∀ (hash : Text) (node : ShareNode), earlier.shares[hash]? = some node →
      ∃ registration, earlier.registrations[toAsciiLowercase node.share.minerId]? = some registration ∧
        (∃ stored, later.shares[hash]? = some stored ∧ stored.share = node.share) ∧
        ∀ account ∈ later.participantAccounts, account.minerId = toAsciiLowercase node.share.minerId →
          account.btcPayoutScriptHex = registration.btcPayoutScriptHex ∧
            account.claimOwnerId = registration.claimOwnerPubkeyHex) := by
  obtain ⟨enrolled, -⟩ := (Enrolled.initial crypto).run reached
  obtain ⟨enrolledLater, extension⟩ := enrolled.run continued
  refine ⟨fun minerId registration stored => extension.registrations _ _ stored, fun hash node stored => ?_⟩
  have record : skeleton earlier.shares hash = some (node.share, node.parentShareHash) := by simp [skeleton, stored]
  have registered := enrolled.mined hash _ record
  rw [ExtTreeMap.mem_iff_isSome_getElem?, Option.isSome_iff_exists] at registered
  obtain ⟨registration, registered⟩ := registered
  obtain ⟨next, registeredLater, kept⟩ := extension.registrations _ _ registered
  refine ⟨registration, registered, ?_, fun account listed same => ?_⟩
  · have recordLater := extension.shares hash _ record
    obtain ⟨last, lastStored, same⟩ := Option.map_eq_some_iff.mp recordLater
    exact ⟨last, lastStored, congrArg Prod.fst same⟩
  · rw [← kept.btcPayoutScriptHex, ← kept.claimOwnerPubkeyHex]
    exact enrolledLater.account registeredLater listed same

theorem registrations_stable_sample : ∃ earlier later registration next,
    run? (ReplayOp.step? Sample.crypto) {} (Sample.ops.take 2) = some earlier ∧
    run? (ReplayOp.step? Sample.crypto) earlier (Sample.ops.drop 2) = some later ∧
    earlier.registrations["alice".toList]? = some registration ∧
    later.registrations["alice".toList]? = some next ∧ RegistrationKept registration next := by
  obtain ⟨state, run⟩ := Option.isSome_iff_exists.mp Sample.reached
  obtain ⟨earlier, early, late⟩ := run?_append_eq_some.mp
    (show run? _ {} (Sample.ops.take 2 ++ Sample.ops.drop 2) = some state from run)
  have enrolled : ((run? (ReplayOp.step? Sample.crypto) {} (Sample.ops.take 2)).bind fun state =>
      state.registrations["alice".toList]?).isSome = true := by decide +kernel
  rw [early, Option.bind_some, Option.isSome_iff_exists] at enrolled
  obtain ⟨registration, registered⟩ := enrolled
  obtain ⟨next, registeredLater, kept⟩ := (registrations_stable Sample.crypto (Sample.ops.take 2) (Sample.ops.drop 2)
    earlier state early late).1 "alice".toList registration registered
  exact ⟨earlier, state, registration, next, early, late, registered, registeredLater, kept⟩

end P2PoolBTC.Soundness
