import P2PoolBTC.Soundness.ReplayRuns

/-! # When a refused message leaves the state alone

Most handlers check everything before they write. Two do not: a template is stored before it is
compared with the one it replaces, and a share is stored before the scores of the branches through
it are added up. A message that fails at one of these two places leaves its writes behind.
-/

namespace P2PoolBTC.Soundness

open Math Model.Core Std SharechainReplayState

variable {crypto : Crypto} {mined : Set Share} {state : SharechainReplayState} {template : BitcoinWorkTemplate}

/-- The messages that fail after they have written. -/
def FailsLate (crypto : Crypto) (state : SharechainReplayState) : SharechainMessage → Prop
  | .bitcoinWorkTemplate template =>
    state.validateBitcoinWorkTemplate crypto template = .ok () ∧
      ∃ existing, state.bitcoinWorkTemplates[toAsciiLowercase template.templateHash]? = some existing ∧
        existing ≠ template.normalized
  | .share mined =>
    state.validateShare crypto mined = .ok () ∧ Admits crypto state.toShareTree mined ∧
      OverflowsWith crypto state.toShareTree mined
  | _ => False

section Handlers

private theorem applyRegistration_failsClean (registration : MinerRegistration) :
    Routine.FailsClean (applyRegistration crypto registration) state := by
  refine .attempt_bind fun _ _ => .attempt_bind fun _ _ => .get_bind ?_
  dsimp only
  split_ifs
  · exact .of_ok rfl
  · exact .attempt_bind fun _ _ => .of_ok rfl

private theorem applySnapshotVote_failsClean (vote : SnapshotVote) :
    Routine.FailsClean (applySnapshotVote crypto vote) state :=
  .get_bind (.attempt_bind fun _ _ => .attempt_bind fun _ _ => .of_ok rfl)

private theorem applyPayoutScheduleProposal_failsClean (schedule : PayoutSchedule) :
    Routine.FailsClean (applyPayoutScheduleProposal crypto schedule) state := by
  refine .get_bind (.attempt_bind fun _ _ => ?_)
  dsimp only
  cases state.proposedPayoutSchedules[toAsciiLowercase schedule.payoutRoot]? with
  | some existing => exact .attempt _
  | none => exact .of_ok rfl

private theorem applyWithdrawalRequest_failsClean (request : WithdrawalRequest) :
    Routine.FailsClean (applyWithdrawalRequest crypto request) state := by
  refine .attempt_bind fun _ _ => .get_bind (.attempt_bind fun _ _ => ?_)
  cases state.withdrawalRequests[request.normalized.requestId]? with
  | some existing => exact .attempt _
  | none => exact .of_ok rfl

/-- A batch is reserved on a copy of the ledger, which is stored once every output passed. -/
theorem applyWithdrawalBatch_failsClean (batch : WithdrawalBatch) :
    Routine.FailsClean (applyWithdrawalBatch crypto batch) state := by
  refine .get_bind ?_
  cases state.withdrawalBatches[batch.normalized.batchHash crypto]? with
  | some existing => exact .attempt _
  | none =>
    intro fault after failed
    rcases Routine.bind_eq_error.mp failed with early | ⟨ledger, middle, _, late⟩
    · rcases Routine.bind_eq_error.mp early with refused | ⟨expected, middle, passed, copied⟩
      · exact Routine.FailsClean.attempt _ fault after refused
      · obtain ⟨-, rfl⟩ := Routine.attempt_eq_ok.mp passed
        exact (Routine.onCopy_eq_error.mp copied).2.symm
    · cases late

private theorem requireCheckpointDescends_failsClean (checkpoint : SharechainCheckpointAnchorV1) :
    Routine.FailsClean (state.requireCheckpointDescends checkpoint) state := by
  unfold requireCheckpointDescends
  cases state.latestCheckpoint? with
  | none => exact .of_ok rfl
  | some latest =>
    cases descends : state.shareDescendsFrom checkpoint.shareTipHash latest.2.shareTipHash with
    | none =>
      simp only [descends]
      exact .outOfFuel
    | some answer =>
      simp only [descends]
      exact .attempt _

/-- Once a checkpoint passed its checks its tip is resolved, so its branch can be rebuilt. -/
theorem applySharechainCheckpoint_failsClean (sound : SoundState crypto mined state)
    (checkpoint : SharechainCheckpointAnchorV1) :
    Routine.FailsClean (applySharechainCheckpoint crypto checkpoint) state := by
  refine .attempt_bind fun _ valid => .get_bind ?_
  cases fresh : state.sharechainCheckpoints[checkpoint.normalized.round]? with
  | some existing => exact .attempt _
  | none =>
    refine .attempt_bind fun _ succession => .attempt_bind fun _ registrations => .attempt_bind fun _ tip => ?_
    intro fault after failed
    rcases Routine.bind_eq_error.mp failed with early | ⟨_, middle, descends, late⟩
    · exact requireCheckpointDescends_failsClean _ fault after early
    · obtain rfl := requireCheckpointDescends_state descends
      have accepted : CheckpointAccepted crypto state checkpoint.normalized :=
        ⟨mapError_eq_ok.mp valid, fresh, succession, registrations, tip, descends⟩
      obtain ⟨tree, rebuilt, -⟩ := accepted.rebuilds sound.tree
      rw [Routine.set_bind] at late
      obtain ⟨inner, broken, failedInner, -, -⟩ := Routine.focus_eq_error.mp late
      rw [show ShareTree.rebuildActiveBranch checkpoint.normalized.shareTipHash _ = _ from rebuilt] at failedInner
      cases failedInner

private theorem applyBitcoinWorkTemplate_failsClean (early : ¬ FailsLate crypto state (.bitcoinWorkTemplate template)) :
    Routine.FailsClean (applyBitcoinWorkTemplate crypto template) state := by
  refine .get_bind (.attempt_bind fun _ valid => ?_)
  intro fault after failed
  rw [Routine.set_bind] at failed
  obtain ⟨_, refused, -, -⟩ := Routine.attempt_eq_error.mp failed
  exfalso
  apply early
  refine ⟨valid, ?_⟩
  cases stored : state.bitcoinWorkTemplates[toAsciiLowercase template.templateHash]? with
  | none =>
    rw [stored, require_of_true (by rfl)] at refused
    cases refused
  | some existing =>
    refine ⟨existing, rfl, fun same => ?_⟩
    rw [stored, require_of_true (by simp [same])] at refused
    cases refused

/-- A conflicting template is refused, and has replaced the stored one. -/
theorem applyBitcoinWorkTemplate_failsLate (late : FailsLate crypto state (.bitcoinWorkTemplate template)) :
    ∃ reason after, applyBitcoinWorkTemplate crypto template state = .error (.error reason) after ∧
      after ≠ state := by
  obtain ⟨valid, existing, stored, different⟩ := late
  refine ⟨.conflictingBitcoinWorkTemplate (toAsciiLowercase template.templateHash), { state with
    bitcoinWorkTemplates := state.bitcoinWorkTemplates.insert (toAsciiLowercase template.templateHash)
      template.normalized }, ?_, ?_⟩
  · simp only [applyBitcoinWorkTemplate, Routine.get_bind, valid, Routine.attempt_ok, Routine.pure_bind_apply,
      Routine.set_bind, stored]
    rw [require_of_false (by simpa using different), Routine.attempt_error, Routine.fail_apply]
  · intro same
    have kept : state.bitcoinWorkTemplates.insert (toAsciiLowercase template.templateHash) template.normalized =
        state.bitcoinWorkTemplates := congrArg SharechainReplayState.bitcoinWorkTemplates same
    rw [← kept, ExtTreeMap.getElem?_insert_self] at stored
    exact different (Option.some.inj stored).symm

section Shares

variable {share : Share} (sound : SoundState crypto mined state) (acyclic : AcyclicShares crypto mined)
  (member : share ∈ mined)

include sound acyclic member

private theorem applyShare_failsClean (early : ¬ FailsLate crypto state (.share share)) :
    Routine.FailsClean (handleMessage crypto (.share share)) state := by
  refine .get_bind (.attempt_bind fun _ valid => ?_)
  intro fault after failed
  obtain ⟨inner, tree, broken, -, rfl⟩ := Routine.focus_eq_error.mp failed
  by_cases admits : Admits crypto state.toShareTree share
  · rcases applyShare_spec sound.tree member admits acyclic with
      ⟨later, returned, -⟩ | ⟨_, _, -, -, overflows⟩
    · rw [returned] at broken
      cases broken
    · exact absurd ⟨valid, admits, overflows⟩ early
  · rcases applyShare_of_not_admits admits with ⟨returned, -⟩ | ⟨reason, refused⟩
    · rw [returned] at broken
      cases broken
    · rw [refused] at broken
      cases broken
      rfl

/-- A share whose branch overflows is refused, and has been stored. -/
theorem applyShare_failsLate (late : FailsLate crypto state (.share share)) :
    ∃ reason after, handleMessage crypto (.share share) state = .error (.error reason) after ∧ after ≠ state := by
  obtain ⟨valid, admits, overflows⟩ := late
  rcases applyShare_spec sound.tree member admits acyclic with
    ⟨_, _, _, _, fits⟩ | ⟨candidate, tree, failed, changed, -⟩
  · exact absurd overflows fits
  · refine ⟨.shareBranchScoreOverflow candidate, { state with toShareTree := tree }, ?_, ?_⟩
    · simp only [handleMessage, Routine.get_bind, valid, Routine.attempt_ok, Routine.pure_bind_apply]
      exact Routine.focus_eq_error.mpr ⟨_, tree, failed, rfl, rfl⟩
    · intro same
      have kept : tree = state.toShareTree := congrArg SharechainReplayState.toShareTree same
      have present := congrFun changed (share.shareHash crypto)
      rw [kept, skeleton, admits.fresh, skeleton, getElem?_admitted, if_pos rfl] at present
      cases present

end Shares

end Handlers

section Messages

variable {message : SharechainMessage} (sound : SoundState crypto mined state) (acyclic : AcyclicShares crypto mined)
  (member : ∀ share, message = .share share → share ∈ mined)

include sound acyclic member

private theorem handleMessage_failsClean (early : ¬ FailsLate crypto state message) :
    Routine.FailsClean (handleMessage crypto message) state := by
  cases message with
  | minerRegistration registration => exact applyRegistration_failsClean registration
  | bitcoinWorkTemplate template => exact applyBitcoinWorkTemplate_failsClean early
  | share share => exact applyShare_failsClean sound acyclic (member share rfl) early
  | sharechainCheckpoint checkpoint => exact applySharechainCheckpoint_failsClean sound checkpoint
  | snapshotVote vote => exact applySnapshotVote_failsClean vote
  | payoutSchedule schedule => exact applyPayoutScheduleProposal_failsClean schedule
  | withdrawalRequest request => exact applyWithdrawalRequest_failsClean request
  | withdrawalBatch batch => exact applyWithdrawalBatch_failsClean batch
  | pohwCommitment commitment => exact .attempt _

private theorem handleMessage_failsLate (late : FailsLate crypto state message) :
    ∃ reason after, handleMessage crypto message state = .error (.error reason) after ∧ after ≠ state := by
  cases message with
  | bitcoinWorkTemplate template => exact applyBitcoinWorkTemplate_failsLate late
  | share share => exact applyShare_failsLate sound acyclic (member share rfl) late
  | _ => exact late.elim

end Messages

/-- In every reachable state, a message whose refusal leaves the state as it was is exactly one that
was applied before or does not fail late: it is no template that conflicts with the stored one and no
share with an overflowing branch. -/
theorem refused_message_keeps_state_iff (crypto : Crypto) (ops : List ReplayOp) (state : SharechainReplayState)
    (message : SharechainMessage) (acyclic : AcyclicShares crypto (sharesOf (ops ++ [.applyMessage message])))
    (reached : run? (ReplayOp.step? crypto) {} ops = some state) :
    (∀ reason after, applyMessage crypto message state = .error (.error reason) after → after = state) ↔
      (message.messageHash crypto ∈ state.appliedMessageHashes ∨ ¬ FailsLate crypto state message) := by
  obtain ⟨sound, -⟩ := (SoundState.initial crypto _).run acyclic
    (fun share => List.mem_append_left [ReplayOp.applyMessage message]) reached
  have member : ∀ share, message = .share share → share ∈ sharesOf (ops ++ [.applyMessage message]) := by
    rintro share rfl
    exact List.mem_append_right ops (List.mem_singleton_self _)
  by_cases known : message.messageHash crypto ∈ state.appliedMessageHashes
  · have ignored : applyMessage crypto message state = .ok .duplicateIgnored state := by
      simp only [applyMessage, Routine.get_bind, known, if_true]
      rfl
    exact iff_of_true (fun reason after failed => by rw [ignored] at failed; cases failed) (.inl known)
  · have fresh : ∀ reason after, applyMessage crypto message state = .error (.error reason) after ↔
        handleMessage crypto message state = .error (.error reason) after := by
      intro reason after
      simp only [applyMessage, Routine.get_bind, known, if_false]
      rw [Routine.bind_eq_error]
      refine ⟨?_, .inl⟩
      rintro (failed | ⟨_, _, _, failed⟩)
      · exact failed
      · cases failed
    simp only [fresh, known, false_or]
    constructor
    · intro atomic late
      obtain ⟨reason, after, failed, changed⟩ := handleMessage_failsLate sound acyclic member late
      exact changed (atomic reason after failed)
    · intro early reason after failed
      exact handleMessage_failsClean sound acyclic member early _ after failed

theorem refused_message_keeps_state_iff_sample : ∃ state,
    run? (ReplayOp.step? Sample.crypto) {} Sample.ops = some state ∧
    ((∀ reason after, applyMessage Sample.crypto (.bitcoinWorkTemplate Sample.laterTemplate) state =
        .error (.error reason) after → after = state) ↔
      ((SharechainMessage.bitcoinWorkTemplate Sample.laterTemplate).messageHash Sample.crypto ∈
          state.appliedMessageHashes ∨
        ¬ FailsLate Sample.crypto state (.bitcoinWorkTemplate Sample.laterTemplate))) := by
  obtain ⟨state, run⟩ := Option.isSome_iff_exists.mp Sample.reached
  refine ⟨state, run, refused_message_keeps_state_iff Sample.crypto Sample.ops state _ ?_ run⟩
  apply Sample.acyclic.mono
  intro share mined
  simpa [sharesOf] using mined

/-- The later of two templates with one header is refused in the state that stored the earlier one,
and has replaced it. -/
theorem conflicting_template_replaces_stored : ∃ state reason after,
    run? (ReplayOp.step? Sample.crypto) {} (Sample.ops.take 3) = some state ∧
    applyMessage Sample.crypto (.bitcoinWorkTemplate Sample.laterTemplate) state = .error (.error reason) after ∧
    state.bitcoinWorkTemplates[Sample.template.templateHash]? = some Sample.template ∧
    after.bitcoinWorkTemplates[Sample.template.templateHash]? = some Sample.laterTemplate := by
  have computed : (run? (ReplayOp.step? Sample.crypto) {} (Sample.ops.take 3)).any (fun state =>
      match applyMessage Sample.crypto (.bitcoinWorkTemplate Sample.laterTemplate) state with
      | .error (.error _) after =>
        decide (state.bitcoinWorkTemplates[Sample.template.templateHash]? = some Sample.template ∧
          after.bitcoinWorkTemplates[Sample.template.templateHash]? = some Sample.laterTemplate)
      | .error (.panicked _) _ | .error .diverged _ | .ok _ _ => false) = true := by decide +kernel
  obtain ⟨state, run, refused⟩ := (Option.any_eq_true _ _).mp computed
  cases applied : applyMessage Sample.crypto (.bitcoinWorkTemplate Sample.laterTemplate) state with
  | ok outcome after => simp [applied] at refused
  | error fault after =>
    rw [applied] at refused
    cases fault with
    | error reason =>
      obtain ⟨before, replaced⟩ := of_decide_eq_true refused
      exact ⟨state, reason, after, run, applied, before, replaced⟩
    | _ => simp at refused

end P2PoolBTC.Soundness
