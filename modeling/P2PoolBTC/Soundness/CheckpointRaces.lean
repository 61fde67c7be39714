import P2PoolBTC.Soundness.ReplayRuns
import P2PoolBTC.Soundness.TreeFrames

/-! # Registrations that race with a checkpoint

A checkpoint is stored only in a state whose registered miners are exactly the ones it lists. A miner
who registers between the finalization of a checkpoint and its arrival therefore keeps the checkpoint
out. Only a checkpoint that is already stored survives the race.
-/

namespace P2PoolBTC.Soundness

open Math Model.Core Std SharechainReplayState

variable {crypto : Crypto} {state after : SharechainReplayState}

/-! ## Stored checkpoints were applied -/

/-- Every stored checkpoint is marked as applied. -/
def CheckpointsMarked (crypto : Crypto) (state : SharechainReplayState) : Prop :=
  ∀ (round : U32) (checkpoint : SharechainCheckpointAnchorV1),
    state.sharechainCheckpoints[round]? = some checkpoint →
      (SharechainMessage.sharechainCheckpoint checkpoint).messageHash crypto ∈ state.appliedMessageHashes

section Marks

variable {message : SharechainMessage}

/-- A handled message leaves the checkpoints and marks alone, or stores itself. -/
theorem Handled.checkpoints (handled : Handled crypto state message after) :
    after.appliedMessageHashes = state.appliedMessageHashes ∧
      (after.sharechainCheckpoints = state.sharechainCheckpoints ∨
        ∃ checkpoint, message = .sharechainCheckpoint checkpoint ∧ after.sharechainCheckpoints =
          state.sharechainCheckpoints.insert checkpoint.normalized.round checkpoint.normalized) := by
  cases handled with
  | @shared share tree _ applied => exact ⟨rfl, .inl ((applyShare_adds crypto share _).of_ok applied).checkpoints⟩
  | @checkpointed checkpoint tree _ rebuilt =>
    exact ⟨rfl, .inr ⟨checkpoint, rfl,
      (TreeKept.of_branch ((rebuildActiveBranch_branch _ _).of_ok rebuilt)).checkpoints⟩⟩
  | _ => exact ⟨rfl, .inl rfl⟩

private theorem CheckpointsMarked.step {op : ReplayOp} (sound : CheckpointsMarked crypto state)
    (step : op.step? crypto state = some after) : CheckpointsMarked crypto after := by
  cases ReplayOp.stepped step with
  | ignored _ same => exact same ▸ sound
  | accepted prefixes ledger other effect => exact effect ▸ sound
  | @message message middle fresh handled marks =>
    subst marks
    obtain ⟨applied, kept | ⟨checkpoint, rfl, inserted⟩⟩ := handled.checkpoints
    · intro round stored present
      refine ExtTreeSet.mem_insert.mpr (.inr ?_)
      rw [applied]
      exact sound round stored (by rw [← kept]; exact present)
    · intro round stored present
      change middle.sharechainCheckpoints[round]? = some stored at present
      rw [inserted, getElem?_insert_eq] at present
      refine ExtTreeSet.mem_insert.mpr ?_
      split_ifs at present with same
      · -- The checkpoint itself: its hash is taken of its normal form.
        obtain rfl := Option.some.inj present
        left
        rw [← messageHash_normalized crypto (.sharechainCheckpoint checkpoint)]
        exact ReflCmp.compare_self
      · right
        rw [applied]
        exact sound round stored present

private theorem checkpointsMarked_of_run {ops : List ReplayOp}
    (reached : run? (ReplayOp.step? crypto) {} ops = some state) :
    CheckpointsMarked crypto state := by
  refine run?_invariant _ reached ?_ fun before op after _ held taken => held.step taken
  intro round checkpoint present
  simp at present

end Marks

/-! ## The race -/

section Race

variable {registration : MinerRegistration} {checkpoint : SharechainCheckpointAnchorV1}

/-- A new miner is not among the miners a checkpoint lists, so the lists no longer agree. -/
theorem CheckpointAccepted.not_accepted_later (accepted : CheckpointAccepted crypto state checkpoint)
    (unregistered : state.registrations[registration.stored.minerId]? = none)
    (registered : after.registrations =
      state.registrations.insert registration.stored.minerId registration.stored) :
    ¬ CheckpointAccepted crypto after checkpoint := by
  intro later
  have before : state.registrations.keys = checkpoint.registeredMiners :=
    require_eq_ok.mp (except_bind_eq_ok.mp accepted.registrations).choose_spec.1
  have listed : after.registrations.keys = checkpoint.registeredMiners :=
    require_eq_ok.mp (except_bind_eq_ok.mp later.registrations).choose_spec.1
  have new : registration.stored.minerId ∈ after.registrations.keys := by
    rw [registered]
    exact ExtTreeMap.mem_keys.mpr ExtTreeMap.mem_insert_self
  rw [listed, ← before, ExtTreeMap.mem_keys, ExtTreeMap.mem_iff_isSome_getElem?, unregistered] at new
  cases new

/-- An accepted message of a new miner adds the registration and nothing else. -/
theorem applyMessage_registration_new (unregistered : state.registrations[registration.stored.minerId]? = none)
    (applied : applyMessage crypto (.minerRegistration registration) state = .ok .applied after) :
    after = marked crypto (.minerRegistration registration) { state with
      registrations := state.registrations.insert registration.stored.minerId registration.stored } := by
  rcases applyMessage_ok applied with ⟨-, outcome, -⟩ | ⟨-, -, middle, handled, rfl⟩
  · cases outcome
  · cases handled with
    | registrationKept _ stored =>
      rw [unregistered] at stored
      cases stored
    | registered => rfl

/-- A checkpoint of a round that is already stored only has to be the stored one. -/
theorem applySharechainCheckpoint_of_stored {existing : SharechainCheckpointAnchorV1} {done : Unit}
    (stored : state.sharechainCheckpoints[checkpoint.normalized.round]? = some existing) :
    applySharechainCheckpoint crypto checkpoint state = .ok done after ↔
      checkpoint.normalized.validate = .ok () ∧ existing = checkpoint.normalized ∧ after = state := by
  simp only [applySharechainCheckpoint, Routine.attempt_bind_eq_ok, Routine.get_bind, stored,
    Routine.attempt_eq_ok, require_eq_ok, mapError_eq_ok]
  constructor
  · rintro ⟨_, valid, same, rfl⟩
    exact ⟨valid, same, rfl⟩
  · rintro ⟨valid, same, rfl⟩
    exact ⟨(), valid, same, rfl⟩

/-- A message that is new is handled and then marked. -/
theorem applyMessage_of_fresh {message : SharechainMessage}
    (fresh : message.messageHash crypto ∉ state.appliedMessageHashes) :
    applyMessage crypto message state = .ok .applied after ↔
      ∃ middle, handleMessage crypto message state = .ok () middle ∧ after = marked crypto message middle := by
  simp only [applyMessage, Routine.get_bind, if_neg fresh]
  rw [Routine.bind_eq_ok]
  constructor
  · rintro ⟨_, middle, handled, returned⟩
    cases returned
    exact ⟨middle, handled, rfl⟩
  · rintro ⟨middle, handled, rfl⟩
    exact ⟨(), middle, handled, rfl⟩

/-- A stored checkpoint is accepted again and stays. -/
theorem applyMessage_checkpoint_of_stored (valid : checkpoint.normalized.validate = .ok ())
    (stored : state.sharechainCheckpoints[checkpoint.normalized.round]? = some checkpoint.normalized) :
    ∃ outcome last, applyMessage crypto (.sharechainCheckpoint checkpoint) state = .ok outcome last ∧
      last.sharechainCheckpoints = state.sharechainCheckpoints := by
  by_cases known : (SharechainMessage.sharechainCheckpoint checkpoint).messageHash crypto ∈ state.appliedMessageHashes
  · refine ⟨.duplicateIgnored, state, ?_, rfl⟩
    simp only [applyMessage, Routine.get_bind, if_pos known, Routine.pure_apply]
  · have kept : applySharechainCheckpoint crypto checkpoint state = .ok () state :=
      (applySharechainCheckpoint_of_stored stored).mpr ⟨valid, rfl, rfl⟩
    exact ⟨.applied, _, (applyMessage_of_fresh known).mpr ⟨state, kept, rfl⟩, rfl⟩

end Race

namespace Sample

/-! A second miner, who registers while the checkpoint of the sample chain is on its way. -/

def lateMiningKey : Text :=
  hexText 64 0x552c630b64b54bf50210c9e253d38bd4949c72e22873500f6285c2bede312a84

def lateOwnerKey : Text :=
  hexText 64 0x2f1b310f4c065331bc0d79ba4661bb9822d67d7c4a1b0a1892e1fd0cd23aa68d

def lateIdenaAddress : Text :=
  '0' :: 'x' :: hexText 40 0x19e7e376e7c213b7e7e7e46cc70a5dd086daff2a

def lateRegistryAnchor : MinerRegistryAnchorV1 := registeredAt 2 150 1700000050
  (hexText 64 0x762ed722458c1d118fa82480a4d8fbb33c851e4c4063863441b1890ac4944d61)

def lateRegistration : MinerRegistration :=
  registrationOf "bob" lateIdenaAddress 0x00147777777777777777777777777777777777777777
    lateOwnerKey lateMiningKey lateRegistryAnchor
    (hexText 64 0x9d10ccf483a22c97a82b52d78a25b39fbad3ddf9db34386d7ebbe6bb2d503d89 ++
      hexText 64 0x3ea63d04767e5b8bfa23bac49565e7deaeead50ac93d2e2a9c27bca8f9a94e62 ++ hexText 2 0x00)
    (hexText 64 0x5473b8c04069aee620e28c5446cf25bd8e9ef901aed519b99811ef7118f38bd8 ++
      hexText 64 0xa75bd639c5b0c57b185e229cfc2887d2a7ba1e01af697baca118f0af3641a482)

/-- The values of the primitives on the second registration too. -/
def lateTables : CryptoTables :=
  withRegistration lateRegistration
    0x52f8f0df3d4909402ead720031c33f959b3ecad5f71386944383381baa36b0a7
    0xa3409e38211605b01a4e01d7420b4654eb24cf0a74c2524836f5ff6f0d32f2ec
    0xcf094eeb4e80c23bd3c33716821c4500356f65655974d21522c8a2161cd880dc
    0x773a413200ab6bf0af970cf4a5ee1050a3d5f7afa150197e8596b519f6f939fc 0
    (hexText 64 0x4f355bdcb7cc0af728ef3cceb9615d90684bb5b2ca5f859ab0f0b704075871aa ++
      hexText 64 0x385b6b1b8ead809ca67454d9683fcf2ba03456d6fe2c4abe2b07f0fbdbb2f1c1) 0x969b0a11b8a56bacf1ac18f2 tables

def lateCrypto : Crypto := .ofTables lateTables

/-- The new state when a message is applied. -/
def applied? (message : SharechainMessage) (state : SharechainReplayState) : Option SharechainReplayState :=
  match applyMessage lateCrypto message state with
  | .ok .applied after => some after
  | _ => none

theorem applied?_eq_some {message : SharechainMessage} :
    applied? message state = some after ↔ applyMessage lateCrypto message state = .ok .applied after := by
  unfold applied?
  rcases applyMessage lateCrypto message state with ⟨⟨⟩ | ⟨⟩, _⟩ | _ <;> simp

/-- The sample chain accepts either message, and refuses the checkpoint after the registration. -/
theorem race_computed : (run? (ReplayOp.step? lateCrypto) {} (ops.take 5)).any (fun state =>
    state.registrations[lateRegistration.stored.minerId]?.isNone &&
    (applied? (.sharechainCheckpoint checkpoint) state).isSome &&
    (applied? (.minerRegistration lateRegistration) state).any fun registeredState =>
      match applyMessage lateCrypto (.sharechainCheckpoint checkpoint) registeredState with
      | .error (.error .checkpointRegistrationSetMismatch) _ => true
      | _ => false) = true := by decide +kernel

end Sample

/-- Whether a checkpoint survives the registration of a new miner: when the miner registers first, the
checkpoint is accepted and stored with its tip exactly if a checkpoint of its round was stored before.
In a state reached by calls that return no such checkpoint is stored, since a checkpoint is marked as
applied when it is stored. -/
theorem checkpoint_survives_registration_iff (crypto : Crypto)
    (state registeredState checkpointedState : SharechainReplayState)
    (registration : MinerRegistration) (checkpoint : SharechainCheckpointAnchorV1)
    (unregistered : state.registrations[registration.stored.minerId]? = none)
    (registers : applyMessage crypto (.minerRegistration registration) state = .ok .applied registeredState)
    (finalizes : applyMessage crypto (.sharechainCheckpoint checkpoint) state = .ok .applied checkpointedState) :
    ((∃ outcome last stored,
        applyMessage crypto (.sharechainCheckpoint checkpoint) registeredState = .ok outcome last ∧
        last.sharechainCheckpoints[checkpoint.normalized.round]? = some stored ∧
        stored.shareTipHash = checkpoint.normalized.shareTipHash) ↔
      (state.sharechainCheckpoints[checkpoint.normalized.round]?).isSome) ∧
    ∀ ops, run? (ReplayOp.step? crypto) {} ops = some state →
      state.sharechainCheckpoints[checkpoint.normalized.round]? = none := by
  obtain rfl := applyMessage_registration_new unregistered registers
  obtain ⟨fresh, middle, handled, -⟩ : (SharechainMessage.sharechainCheckpoint checkpoint).messageHash crypto ∉
      state.appliedMessageHashes ∧ ∃ middle, handleMessage crypto (.sharechainCheckpoint checkpoint) state =
        .ok () middle ∧ checkpointedState = marked crypto (.sharechainCheckpoint checkpoint) middle := by
    rcases applyMessage_ok finalizes with ⟨-, outcome, -⟩ | ⟨fresh, -, -⟩
    · cases outcome
    · exact ⟨fresh, (applyMessage_of_fresh fresh).mp finalizes⟩
  have effect : Handled crypto state (.sharechainCheckpoint checkpoint) middle := handleMessage_ok handled
  refine ⟨⟨?_, ?_⟩, ?_⟩
  · rintro ⟨outcome, last, stored, returned, present, -⟩
    by_contra absent
    have none : state.sharechainCheckpoints[checkpoint.normalized.round]? = none := by simpa using absent
    cases effect with
    | checkpointKept kept => cases none.symm.trans kept
    | checkpointed accepted _ =>
      rcases applyMessage_ok returned with ⟨-, -, rfl⟩ | ⟨-, -, later, again, rfl⟩
      · -- The two messages share their hash, and the checkpoint is ignored.
        cases none.symm.trans present
      · cases again with
        | checkpointKept kept => cases none.symm.trans kept
        | checkpointed acceptedLater _ =>
          exact accepted.not_accepted_later unregistered rfl acceptedLater
  · intro before
    obtain ⟨existing, stored⟩ := Option.isSome_iff_exists.mp before
    obtain ⟨valid, rfl, -⟩ := (applySharechainCheckpoint_of_stored stored).mp handled
    obtain ⟨outcome, last, returned, same⟩ := applyMessage_checkpoint_of_stored valid
      (show (marked crypto (.minerRegistration registration) { state with
        registrations := state.registrations.insert registration.stored.minerId
          registration.stored }).sharechainCheckpoints[checkpoint.normalized.round]? = _ from stored)
    exact ⟨outcome, last, checkpoint.normalized, returned, by rw [same]; exact stored, rfl⟩
  · intro ops reached
    cases present : state.sharechainCheckpoints[checkpoint.normalized.round]? with
    | none => rfl
    | some existing =>
      obtain ⟨-, rfl, -⟩ := (applySharechainCheckpoint_of_stored present).mp handled
      have marks := checkpointsMarked_of_run reached _ _ present
      rw [← messageHash_normalized crypto (.sharechainCheckpoint checkpoint)] at fresh
      exact absurd marks fresh

open Sample in
/-- The checkpoint of the sample chain would be stored, and is refused once a second miner registered. -/
theorem checkpoint_refused_after_registration : ∃ state registeredState checkpointedState failed,
    run? (ReplayOp.step? lateCrypto) {} (Sample.ops.take 5) = some state ∧
    state.registrations[lateRegistration.stored.minerId]? = none ∧
    applyMessage lateCrypto (.minerRegistration lateRegistration) state = .ok .applied registeredState ∧
    applyMessage lateCrypto (.sharechainCheckpoint checkpoint) state = .ok .applied checkpointedState ∧
    applyMessage lateCrypto (.sharechainCheckpoint checkpoint) registeredState =
      .error (.error .checkpointRegistrationSetMismatch) failed := by
  obtain ⟨state, run, facts⟩ := (Option.any_eq_true _ _).mp race_computed
  simp only [Bool.and_eq_true, Option.isNone_iff_eq_none] at facts
  obtain ⟨⟨unregistered, finalizes⟩, registers⟩ := facts
  obtain ⟨checkpointedState, finalized⟩ := Option.isSome_iff_exists.mp finalizes
  obtain ⟨registeredState, registered, refused⟩ := (Option.any_eq_true _ _).mp registers
  rw [applied?_eq_some] at finalized registered
  refine ⟨state, registeredState, checkpointedState, ?_⟩
  split at refused
  · exact ⟨_, run, unregistered, registered, finalized, by assumption⟩
  · cases refused

open Sample in
/-- The theorem applies to the sample chain, and there the checkpoint does not survive. -/
theorem checkpoint_survives_registration_iff_sample : ∃ state registeredState checkpointedState,
    run? (ReplayOp.step? lateCrypto) {} (Sample.ops.take 5) = some state ∧
    applyMessage lateCrypto (.minerRegistration lateRegistration) state = .ok .applied registeredState ∧
    applyMessage lateCrypto (.sharechainCheckpoint checkpoint) state = .ok .applied checkpointedState ∧
    ¬ ∃ outcome last stored,
      applyMessage lateCrypto (.sharechainCheckpoint checkpoint) registeredState = .ok outcome last ∧
      last.sharechainCheckpoints[checkpoint.normalized.round]? = some stored ∧
      stored.shareTipHash = checkpoint.normalized.shareTipHash := by
  obtain ⟨state, run, facts⟩ := (Option.any_eq_true _ _).mp race_computed
  simp only [Bool.and_eq_true, Option.isNone_iff_eq_none] at facts
  obtain ⟨⟨unregistered, finalizes⟩, registers⟩ := facts
  obtain ⟨checkpointedState, finalized⟩ := Option.isSome_iff_exists.mp finalizes
  obtain ⟨registeredState, registered, -⟩ := (Option.any_eq_true _ _).mp registers
  rw [applied?_eq_some] at finalized registered
  have survives := checkpoint_survives_registration_iff lateCrypto state registeredState checkpointedState
    lateRegistration checkpoint unregistered registered finalized
  refine ⟨state, registeredState, checkpointedState, run, registered, finalized, ?_⟩
  rw [survives.1, survives.2 _ run]
  exact Bool.false_ne_true

end P2PoolBTC.Soundness
