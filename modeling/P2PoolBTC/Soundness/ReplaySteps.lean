import P2PoolBTC.Math.Run
import P2PoolBTC.Model.Core.ReplayQueries
import P2PoolBTC.Soundness.ShareTree

/-! # What one message does

Every accepted message has exactly one of the effects listed here, under the guards its handler
checks. Invariants over whole replays are proved by cases on this relation.
-/

namespace P2PoolBTC.Soundness

open Math Model.Core Std SharechainReplayState

variable {checkpoint : SharechainCheckpointAnchorV1} {message : SharechainMessage} {batch : WithdrawalBatch}

/-- The two signatures of a registration. -/
structure RegistrationVerified (crypto : Crypto) (registration : MinerRegistration) : Prop where
  mining : registration.verifyMiningSignature crypto = .ok ()
  ownership : registration.verifyIdenaOwnershipSignature crypto = .ok ()

/-- The anchor of a verified registration is in lower case. -/
theorem RegistrationVerified.anchor_normalized {crypto : Crypto} {raw : MinerRegistration}
    {anchor : MinerRegistryAnchorV1} (verified : RegistrationVerified crypto raw)
    (present : raw.registryAnchor = some anchor) : anchor.normalized = anchor := by
  have mining := verified.mining
  simp only [MinerRegistration.verifyMiningSignature, except_bind_eq_ok] at mining
  obtain ⟨_, _, _, _, _, valid, _⟩ := mining
  unfold MinerRegistration.validateRegistryAnchor at valid
  split_ifs at valid
  · rw [require_eq_ok, present] at valid
    cases valid
  · simp only [present, okOr_some, except_ok_bind, except_bind_eq_ok, mapError_eq_ok] at valid
    obtain ⟨_, valid, _⟩ := valid
    exact MinerRegistryAnchorV1.normalized_of_validate valid

/-- What a checkpoint must pass to be stored. -/
structure CheckpointAccepted (crypto : Crypto) (state : SharechainReplayState)
    (checkpoint : SharechainCheckpointAnchorV1) : Prop where
  valid : checkpoint.validate = .ok ()
  fresh : state.sharechainCheckpoints[checkpoint.round]? = none
  succession : state.validateCheckpointSuccession checkpoint = .ok ()
  registrations : state.validateCheckpointRegistrations crypto checkpoint = .ok ()
  tip : state.validateCheckpointTip checkpoint = .ok ()
  descends : state.requireCheckpointDescends checkpoint state = .ok () state

/-- The key a vote is stored under. -/
def voteKey (vote : SnapshotVote) : SnapshotVoteKey :=
  { snapshotDay := vote.snapshotDay
    idenaHeight := vote.idenaHeight
    scoreRoot := toAsciiLowercase vote.scoreRoot }

/-- The effect of one accepted message, before it is marked as applied. -/
inductive Handled (crypto : Crypto) (state : SharechainReplayState) :
    SharechainMessage → SharechainReplayState → Prop where
  | registrationKept {registration : MinerRegistration}
      (verified : RegistrationVerified crypto registration)
      (stored : state.registrations[registration.stored.minerId]? = some registration.stored) :
      Handled crypto state (.minerRegistration registration) state
  | registered {registration : MinerRegistration} (verified : RegistrationVerified crypto registration)
      (upgrade : ∀ existing, state.registrations[registration.stored.minerId]? = some existing →
        isValidRegistryRegistrationUpgrade existing registration.stored = true) :
      Handled crypto state (.minerRegistration registration) { state with
        registrations := state.registrations.insert registration.stored.minerId registration.stored }
  | templated {template : BitcoinWorkTemplate}
      (valid : state.validateBitcoinWorkTemplate crypto template = .ok ())
      (same : ∀ existing, state.bitcoinWorkTemplates[toAsciiLowercase template.templateHash]? = some existing →
        existing = template.normalized) :
      Handled crypto state (.bitcoinWorkTemplate template) { state with
        bitcoinWorkTemplates :=
          state.bitcoinWorkTemplates.insert (toAsciiLowercase template.templateHash) template.normalized }
  | shared {mined : Share} {tree : ShareTree} (valid : state.validateShare crypto mined = .ok ())
      (applied : ShareTree.applyShare crypto mined state.toShareTree = .ok () tree) :
      Handled crypto state (.share mined) { state with toShareTree := tree }
  | checkpointKept {checkpoint : SharechainCheckpointAnchorV1}
      (stored : state.sharechainCheckpoints[checkpoint.normalized.round]? = some checkpoint.normalized) :
      Handled crypto state (.sharechainCheckpoint checkpoint) state
  | checkpointed {checkpoint : SharechainCheckpointAnchorV1} {tree : ShareTree}
      (accepted : CheckpointAccepted crypto state checkpoint.normalized)
      (rebuilt : ShareTree.rebuildActiveBranch checkpoint.normalized.shareTipHash
        { state.toShareTree with
          sharechainCheckpoints :=
            state.sharechainCheckpoints.insert checkpoint.normalized.round checkpoint.normalized } =
        .ok () tree) :
      Handled crypto state (.sharechainCheckpoint checkpoint) { state with toShareTree := tree }
  | voted {vote : SnapshotVote} {registration : MinerRegistration}
      (registered : state.registrations[toAsciiLowercase vote.voterMinerId]? = some registration)
      (verified : vote.verifyMiningSignature crypto registration.miningPubkeyHex = .ok ()) :
      Handled crypto state (.snapshotVote vote) { state with
        snapshotVotes := state.snapshotVotes.insert (voteKey vote)
          ((state.snapshotVotes[voteKey vote]?.getD ∅).insert (toAsciiLowercase vote.voterMinerId)) }
  | proposalKept {schedule : PayoutSchedule}
      (valid : state.validatePayoutScheduleBindings crypto schedule = .ok ())
      (stored : state.proposedPayoutSchedules[toAsciiLowercase schedule.payoutRoot]? = some schedule) :
      Handled crypto state (.payoutSchedule schedule) state
  | proposed {schedule : PayoutSchedule}
      (valid : state.validatePayoutScheduleBindings crypto schedule = .ok ())
      (fresh : state.proposedPayoutSchedules[toAsciiLowercase schedule.payoutRoot]? = none) :
      Handled crypto state (.payoutSchedule schedule) { state with
        proposedPayoutSchedules :=
          state.proposedPayoutSchedules.insert (toAsciiLowercase schedule.payoutRoot) schedule }
  | requestKept {request : WithdrawalRequest}
      (stored : state.withdrawalRequests[request.normalized.requestId]? = some request.normalized) :
      Handled crypto state (.withdrawalRequest request) state
  | requested {request : WithdrawalRequest} (valid : request.validate crypto 0 = .ok ())
      (covered : request.normalized.amountSats ≤
        state.claimLedger.balance request.normalized.claimOwnerId)
      (fresh : state.withdrawalRequests[request.normalized.requestId]? = none) :
      Handled crypto state (.withdrawalRequest request) { state with
        withdrawalRequests := state.withdrawalRequests.insert request.normalized.requestId request.normalized }
  | batchKept {batch : WithdrawalBatch}
      (stored : state.withdrawalBatches[batch.normalized.batchHash crypto]? = some batch.normalized) :
      Handled crypto state (.withdrawalBatch batch) state
  | batched {batch : WithdrawalBatch} {ledger : ClaimLedger}
      (fresh : state.withdrawalBatches[batch.normalized.batchHash crypto]? = none)
      (expected : state.expectedWithdrawalBatch crypto batch.normalized 0 = .ok batch.normalized)
      (reserved : state.reserveOutputs crypto 0 batch.normalized.outputs state.claimLedger = .ok () ledger) :
      Handled crypto state (.withdrawalBatch batch) { state with
        claimLedger := ledger
        withdrawalBatches :=
          state.withdrawalBatches.insert (batch.normalized.batchHash crypto) batch.normalized }
  | committed {commitment : PohwCommitment} (valid : commitment.validateFields = .ok ()) :
      Handled crypto state (.pohwCommitment commitment) state

section Inversion

variable {crypto : Crypto} {state after : SharechainReplayState} {done : Unit}

theorem onTree_eq_ok {routine : Routine ShareTree SharechainReplayError Unit} :
    onTree routine state = .ok done after ↔
      ∃ tree, routine state.toShareTree = .ok done tree ∧ { state with toShareTree := tree } = after :=
  Routine.focus_eq_ok

private theorem applyRegistration_ok {registration : MinerRegistration}
    (returned : applyRegistration crypto registration state = .ok done after) :
    Handled crypto state (.minerRegistration registration) after := by
  simp only [applyRegistration, Routine.bind_eq_ok, Routine.attempt_eq_ok, mapError_eq_ok, Routine.get_bind] at returned
  obtain ⟨_, _, ⟨mining, rfl⟩, _, _, ⟨ownership, rfl⟩, returned⟩ := returned
  split_ifs at returned with stored
  · cases returned
    exact .registrationKept ⟨mining, ownership⟩ stored
  · obtain ⟨_, _, accepted, returned⟩ := Routine.bind_eq_ok.mp returned
    obtain ⟨upgrade, rfl⟩ := Routine.attempt_eq_ok.mp accepted
    cases returned
    refine .registered ⟨mining, ownership⟩ fun existing present => ?_
    rw [require_eq_ok, present] at upgrade
    simpa using upgrade

private theorem applyBitcoinWorkTemplate_ok {template : BitcoinWorkTemplate}
    (returned : applyBitcoinWorkTemplate crypto template state = .ok done after) :
    Handled crypto state (.bitcoinWorkTemplate template) after := by
  simp only [applyBitcoinWorkTemplate, Routine.get_bind, Routine.bind_eq_ok, Routine.attempt_eq_ok,
    Routine.set_bind, require_eq_ok] at returned
  obtain ⟨_, _, ⟨valid, rfl⟩, same, rfl⟩ := returned
  refine .templated valid fun existing present => ?_
  rw [present] at same
  simpa using same

theorem requireCheckpointDescends_state (returned : state.requireCheckpointDescends checkpoint state = .ok done after) :
    state = after := by
  unfold requireCheckpointDescends at returned
  cases latest : state.latestCheckpoint? with
  | none =>
    rw [latest] at returned
    cases returned
    rfl
  | some prior =>
    rw [latest] at returned
    cases descends : state.shareDescendsFrom checkpoint.shareTipHash prior.2.shareTipHash with
    | none =>
      simp only [descends] at returned
      cases returned
    | some answer =>
      simp only [descends, Routine.attempt_eq_ok] at returned
      exact returned.2

private theorem applySharechainCheckpoint_ok
    (returned : applySharechainCheckpoint crypto checkpoint state = .ok done after) :
    Handled crypto state (.sharechainCheckpoint checkpoint) after := by
  simp only [applySharechainCheckpoint, Routine.bind_eq_ok, Routine.attempt_eq_ok, mapError_eq_ok,
    Routine.get_bind] at returned
  obtain ⟨_, _, ⟨valid, rfl⟩, returned⟩ := returned
  cases stored : state.sharechainCheckpoints[checkpoint.normalized.round]? with
  | some existing =>
    simp only [stored, Routine.attempt_eq_ok, require_eq_ok] at returned
    obtain ⟨rfl, rfl⟩ := returned
    exact .checkpointKept stored
  | none =>
    simp only [stored, Routine.bind_eq_ok, Routine.attempt_eq_ok, Routine.set_bind, onTree_eq_ok] at returned
    obtain ⟨_, _, ⟨succession, rfl⟩, _, _, ⟨registrations, rfl⟩, _, _, ⟨tip, rfl⟩, _, middle, descends,
      tree, rebuilt, rfl⟩ := returned
    obtain rfl := requireCheckpointDescends_state descends
    exact .checkpointed ⟨valid, stored, succession, registrations, tip, descends⟩ rebuilt

private theorem applySnapshotVote_ok {vote : SnapshotVote}
    (returned : applySnapshotVote crypto vote state = .ok done after) :
    Handled crypto state (.snapshotVote vote) after := by
  simp only [applySnapshotVote, registrationOf, Routine.get_bind, Routine.bind_eq_ok, Routine.attempt_eq_ok,
    mapError_eq_ok, okOr_eq_ok] at returned
  obtain ⟨registration, _, ⟨registered, rfl⟩, _, _, ⟨verified, rfl⟩, returned⟩ := returned
  cases returned
  exact .voted registered verified

private theorem applyPayoutScheduleProposal_ok {schedule : PayoutSchedule}
    (returned : applyPayoutScheduleProposal crypto schedule state = .ok done after) :
    Handled crypto state (.payoutSchedule schedule) after := by
  simp only [applyPayoutScheduleProposal, Routine.get_bind, Routine.bind_eq_ok, Routine.attempt_eq_ok] at returned
  obtain ⟨_, _, ⟨valid, rfl⟩, returned⟩ := returned
  cases stored : state.proposedPayoutSchedules[toAsciiLowercase schedule.payoutRoot]? with
  | some existing =>
    simp only [stored, Routine.attempt_eq_ok, require_eq_ok] at returned
    obtain ⟨rfl, rfl⟩ := returned
    exact .proposalKept valid stored
  | none =>
    simp only [stored] at returned
    cases returned
    exact .proposed valid stored

private theorem applyWithdrawalRequest_ok {request : WithdrawalRequest}
    (returned : applyWithdrawalRequest crypto request state = .ok done after) :
    Handled crypto state (.withdrawalRequest request) after := by
  simp only [applyWithdrawalRequest, Routine.get_bind, Routine.bind_eq_ok, Routine.attempt_eq_ok,
    mapError_eq_ok, require_eq_ok] at returned
  obtain ⟨_, _, ⟨valid, rfl⟩, _, _, ⟨covered, rfl⟩, returned⟩ := returned
  cases stored : state.withdrawalRequests[request.normalized.requestId]? with
  | some existing =>
    simp only [stored, Routine.attempt_eq_ok, require_eq_ok] at returned
    obtain ⟨rfl, rfl⟩ := returned
    exact .requestKept stored
  | none =>
    simp only [stored] at returned
    cases returned
    exact .requested valid covered stored

private theorem expectedWithdrawalBatch_eq {expected : WithdrawalBatch} {currentHeight : U64}
    (returned : state.expectedWithdrawalBatch crypto batch currentHeight = .ok expected) :
    expected = batch.normalized := by
  simp only [expectedWithdrawalBatch, except_bind_eq_ok, require_eq_ok] at returned
  obtain ⟨_, _, _, _, _, same, returned⟩ := returned
  cases returned
  exact same

private theorem applyWithdrawalBatch_ok (returned : applyWithdrawalBatch crypto batch state = .ok done after) :
    Handled crypto state (.withdrawalBatch batch) after := by
  simp only [applyWithdrawalBatch, Routine.get_bind] at returned
  cases stored : state.withdrawalBatches[batch.normalized.batchHash crypto]? with
  | some existing =>
    simp only [stored, Routine.attempt_eq_ok, require_eq_ok] at returned
    obtain ⟨rfl, rfl⟩ := returned
    exact .batchKept stored
  | none =>
    simp only [stored, claimLedgerAfterWithdrawalBatch, Routine.bind_eq_ok, Routine.attempt_eq_ok,
      Routine.onCopy_eq_ok] at returned
    obtain ⟨ledger, _, ⟨expected, _, ⟨computed, rfl⟩, ⟨_, reserved⟩, rfl⟩, returned⟩ := returned
    cases returned
    obtain rfl := expectedWithdrawalBatch_eq computed
    rw [WithdrawalBatch.normalized_idem] at computed reserved
    exact .batched stored computed reserved

/-- A message that is handled has one of the listed effects. -/
theorem handleMessage_ok (returned : handleMessage crypto message state = .ok done after) :
    Handled crypto state message after := by
  cases message with
  | minerRegistration registration => exact applyRegistration_ok returned
  | bitcoinWorkTemplate template => exact applyBitcoinWorkTemplate_ok returned
  | share mined =>
    simp only [handleMessage, Routine.get_bind, Routine.bind_eq_ok, Routine.attempt_eq_ok, onTree_eq_ok] at returned
    obtain ⟨_, _, ⟨valid, rfl⟩, tree, applied, rfl⟩ := returned
    exact .shared valid applied
  | sharechainCheckpoint checkpoint => exact applySharechainCheckpoint_ok returned
  | snapshotVote vote => exact applySnapshotVote_ok returned
  | payoutSchedule schedule => exact applyPayoutScheduleProposal_ok returned
  | withdrawalRequest request => exact applyWithdrawalRequest_ok returned
  | withdrawalBatch batch => exact applyWithdrawalBatch_ok returned
  | pohwCommitment commitment =>
    simp only [handleMessage, Routine.attempt_eq_ok, mapError_eq_ok] at returned
    obtain ⟨valid, rfl⟩ := returned
    exact .committed valid

/-- The state with a message marked as applied. -/
def marked (crypto : Crypto) (message : SharechainMessage) (state : SharechainReplayState) :
    SharechainReplayState :=
  { state with
    appliedMessageHashes := state.appliedMessageHashes.insert (message.messageHash crypto)
    lastMessageHash := some (message.messageHash crypto) }

/-- A message that returns was applied before and changes nothing, or is handled and marked. -/
theorem applyMessage_ok {outcome : ApplyOutcome} (returned : applyMessage crypto message state = .ok outcome after) :
    (message.messageHash crypto ∈ state.appliedMessageHashes ∧ outcome = .duplicateIgnored ∧ after = state) ∨
    (message.messageHash crypto ∉ state.appliedMessageHashes ∧ outcome = .applied ∧
      ∃ middle, Handled crypto state message middle ∧ after = marked crypto message middle) := by
  simp only [applyMessage, Routine.get_bind] at returned
  split_ifs at returned with known
  · cases returned
    exact .inl ⟨known, rfl, rfl⟩
  · obtain ⟨done, middle, handled, returned⟩ := Routine.bind_eq_ok.mp returned
    cases returned
    exact .inr ⟨known, rfl, middle, handleMessage_ok handled, rfl⟩

end Inversion

end P2PoolBTC.Soundness
