import P2PoolBTC.Soundness.BatchBuilding
import P2PoolBTC.Soundness.LedgerConservation
import P2PoolBTC.Soundness.ReplayRuns
import P2PoolBTC.Soundness.ReservationOrder

/-! # Reserving withdrawal batches

A batch is accepted when every request it pays can be reserved, in the order of the request identifiers. Once
accepted it stays reserved: stored requests never change, and a pending withdrawal keeps every other batch
from paying the same request.
-/

namespace P2PoolBTC.Soundness

open Math Model.Core Std SharechainReplayState

variable {state after : SharechainReplayState} {currentHeight : U64} {op : ReplayOp}
  {requests : List WithdrawalRequest} {output : WithdrawalOutput}

section Calls

variable {crypto : Crypto}

/-! ## What a call does to withdrawals -/

/-- The effects of a call on the stored requests, the accepted batches and the pending withdrawals. -/
inductive WithdrawalStep (crypto : Crypto) (state after : SharechainReplayState) (op : ReplayOp) : Prop
  | kept (requests : after.withdrawalRequests = state.withdrawalRequests)
      (batches : after.withdrawalBatches = state.withdrawalBatches)
      (pending : (∀ ledger, op ≠ .replaceClaimLedger ledger) →
        after.claimLedger.pendingWithdrawals = state.claimLedger.pendingWithdrawals)
  | requested (request : WithdrawalRequest)
      (fresh : state.withdrawalRequests[request.normalized.requestId]? = none)
      (requests : after.withdrawalRequests =
        state.withdrawalRequests.insert request.normalized.requestId request.normalized)
      (batches : after.withdrawalBatches = state.withdrawalBatches) (ledger : after.claimLedger = state.claimLedger)
  | batched (batch : WithdrawalBatch) (ledger : ClaimLedger)
      (fresh : state.withdrawalBatches[batch.normalized.batchHash crypto]? = none)
      (expected : state.expectedWithdrawalBatch crypto batch.normalized 0 = .ok batch.normalized)
      (reserved : state.reserveOutputs crypto 0 batch.normalized.outputs state.claimLedger = .ok () ledger)
      (requests : after.withdrawalRequests = state.withdrawalRequests)
      (batches : after.withdrawalBatches =
        state.withdrawalBatches.insert (batch.normalized.batchHash crypto) batch.normalized)
      (claims : after.claimLedger = ledger)

private theorem Handled.withdrawalStep {message : SharechainMessage} {middle : SharechainReplayState}
    (handled : Handled crypto state message middle) :
    WithdrawalStep crypto state (marked crypto message middle) op := by
  cases handled with
  | requested _ _ fresh => exact .requested _ fresh rfl rfl rfl
  | batched fresh expected reserved => exact .batched _ _ fresh expected reserved rfl rfl rfl
  | _ => exact .kept rfl rfl fun _ => rfl

theorem ReplayOp.withdrawalStep (step : op.step? crypto state = some after) : WithdrawalStep crypto state after op := by
  cases op with
  | applyMessage message =>
    cases ReplayOp.stepped step with
    | message _ handled marks => exact marks ▸ handled.withdrawalStep
    | ignored _ same => exact same ▸ .kept rfl rfl fun _ => rfl
    | accepted _ _ other => exact absurd rfl (other message)
  | applyConfirmedPayoutSchedule schedule accounts rewardSats directLimit minDirectPayoutSats =>
    obtain ⟨done, returned⟩ := stateAfter?_eq_some.mp step
    simp only [SharechainReplayState.applyConfirmedPayoutSchedule, Routine.get_bind, Routine.bind_eq_ok,
      Routine.attempt_eq_ok] at returned
    obtain ⟨_, _, ⟨-, rfl⟩, returned⟩ := returned
    obtain ⟨ledger, credited, rfl⟩ := Routine.focus_eq_ok.mp returned
    exact .kept rfl rfl fun _ => (totalBalances_credits credited).2.1
  | replaceClaimLedger claimLedger =>
    obtain rfl := Option.some.inj step
    exact .kept rfl rfl fun other => absurd rfl (other claimLedger)
  | acceptBitcoinWorkTemplatePrefix headerPrefixHex =>
    obtain ⟨hash, returned⟩ := stateAfter?_eq_some.mp step
    obtain ⟨prefixes, rfl⟩ := acceptPrefix_ok returned
    exact .kept rfl rfl fun _ => rfl
  | acceptBitcoinWorkTemplate template =>
    obtain ⟨hash, returned⟩ := stateAfter?_eq_some.mp step
    obtain ⟨prefixes, rfl⟩ := acceptPrefix_ok returned
    exact .kept rfl rfl fun _ => rfl

/-- Requests and batches are stored in normal form under their own keys. -/
structure Filed (crypto : Crypto) (state : SharechainReplayState) : Prop where
  requests : ∀ (requestId : Text) (entry : WithdrawalRequest), state.withdrawalRequests[requestId]? = some entry →
    entry.requestId = requestId ∧ entry.normalized = entry
  batches : ∀ (batchHash : Text) (entry : WithdrawalBatch), state.withdrawalBatches[batchHash]? = some entry →
    entry.batchHash crypto = batchHash ∧ entry.normalized = entry

theorem Filed.initial (crypto : Crypto) : Filed crypto {} := by
  constructor
  · intro requestId entry stored
    cases stored
  · intro batchHash entry stored
    cases stored

theorem Filed.step (filed : Filed crypto state) (step : op.step? crypto state = some after) : Filed crypto after := by
  cases ReplayOp.withdrawalStep step with
  | kept requests batches _ => exact ⟨requests ▸ filed.requests, batches ▸ filed.batches⟩
  | requested request fresh requests batches ledger =>
    refine ⟨?_, batches ▸ filed.batches⟩
    intro requestId entry stored
    rw [requests, getElem?_insert_eq] at stored
    split_ifs at stored with same
    · obtain rfl := Option.some.inj stored
      exact ⟨same, request.normalized_idem⟩
    · exact filed.requests requestId entry stored
  | batched batch ledger fresh expected reserved requests batches claims =>
    refine ⟨requests ▸ filed.requests, ?_⟩
    intro batchHash entry stored
    rw [batches, getElem?_insert_eq] at stored
    split_ifs at stored with same
    · obtain rfl := Option.some.inj stored
      exact ⟨same, batch.normalized_idem⟩
    · exact filed.batches batchHash entry stored

theorem Filed.run {ops : List ReplayOp} (filed : Filed crypto state)
    (run : run? (ReplayOp.step? crypto) state ops = some after) : Filed crypto after :=
  run?_invariant (Filed crypto) run filed fun _ _ _ _ held step => held.step step

/-! ## Affordable requests -/

/-- The ledger can reserve the requests one after the other. -/
structure Affordable (ledger : ClaimLedger) (requests : List WithdrawalRequest) : Prop where
  distinct : (requests.map WithdrawalRequest.requestId).Nodup
  fresh : ∀ request ∈ requests, ledger.pendingWithdrawals[request.requestId]? = none
  funded : ∀ owner, requestedBy owner requests ≤ (ledger.balances.getD owner 0).toNat
  later : ∀ request ∈ requests, ∀ last, ledger.lastWithdrawalNonceByOwner[ownerOf request]? = some last →
    last.toNat < request.nonce.toNat
  increasing : requests.Pairwise fun early late => ownerOf early = ownerOf late → early.nonce.toNat < late.nonce.toNat

section Affordable

variable {ledger : ClaimLedger} {request : WithdrawalRequest} {rest : List WithdrawalRequest} {feeSats : Sats}

/-- The first of the requests passes the checks of a reservation. -/
theorem Affordable.validateReservation_eq (affordable : Affordable ledger (request :: rest))
    (valid : request.validate crypto currentHeight = .ok ()) (chargeable : Chargeable crypto request feeSats) :
    ledger.validateReservation crypto request feeSats currentHeight = .ok () := by
  have funded : request.amountSats ≤ ledger.balances.getD (ownerOf request) 0 := by
    have total := affordable.funded (ownerOf request)
    rw [requestedBy, sumFor_cons, if_pos rfl] at total
    exact BitVec.le_def.mpr (by omega)
  have fresh : request.requestId ∉ ledger.pendingWithdrawals := by
    rw [ExtTreeMap.mem_iff_isSome_getElem?, affordable.fresh request List.mem_cons_self]
    exact Bool.false_ne_true
  have nonces : (ledger.lastWithdrawalNonceByOwner[ownerOf request]?.all (· < request.nonce)) = true := by
    rw [Option.all_eq_true]
    intro last recorded
    exact decide_eq_true (BitVec.lt_def.mpr (affordable.later request List.mem_cons_self last recorded))
  simp only [ClaimLedger.validateReservation, except_bind_eq_ok, require_eq_ok, mapError_eq_ok, ClaimLedger.balance,
    toAsciiLowercase_idem]
  exact ⟨(), valid, (), funded, (), fresh, (), chargeable.less, (), chargeable.payable, nonces⟩

/-- What is left of the requests stays affordable. -/
theorem Affordable.reserved (affordable : Affordable ledger (request :: rest)) :
    Affordable (ledger.reserved request feeSats) rest := by
  obtain ⟨apart, distinct⟩ := List.nodup_cons.mp affordable.distinct
  obtain ⟨above, increasing⟩ := List.pairwise_cons.mp affordable.increasing
  refine ⟨distinct, ?_, ?_, ?_, increasing⟩
  · intro other member
    have different : request.requestId ≠ other.requestId := fun same => apart (same ▸ List.mem_map_of_mem member)
    simp only [ClaimLedger.reserved, getElem?_insert_eq, if_neg different]
    exact affordable.fresh other (List.mem_cons_of_mem _ member)
  · intro owner
    have total := affordable.funded owner
    have own := affordable.funded (ownerOf request)
    unfold requestedBy at total own ⊢
    rw [sumFor_cons] at total own
    rw [if_pos rfl] at own
    simp only [ClaimLedger.reserved, ExtTreeMap.getD_eq_getD_getElem?, getElem?_insert_eq] at total own ⊢
    by_cases same : ownerOf request = owner
    · have key : toAsciiLowercase request.claimOwnerId = owner := same
      rw [if_pos same] at total
      rw [if_pos key, Option.getD_some, key, BitVec.toNat_sub_of_le (BitVec.le_def.mpr (by omega))]
      omega
    · have key : toAsciiLowercase request.claimOwnerId ≠ owner := same
      rw [if_neg same] at total
      rw [if_neg key]
      omega
  · intro other member last recorded
    simp only [ClaimLedger.reserved, getElem?_insert_eq] at recorded
    split_ifs at recorded with same
    · obtain rfl := Option.some.inj recorded
      exact above other member same
    · exact affordable.later other (List.mem_cons_of_mem _ member) last recorded

/-- The outputs of affordable requests are reserved one after the other. -/
theorem Affordable.reserveOutputs_eq {fees : List Sats} (affordable : Affordable ledger requests)
    (charged : List.Forall₂ (Chargeable crypto) requests fees)
    (valid : ∀ request ∈ requests, request.validate crypto currentHeight = .ok ())
    (stored : ∀ request ∈ requests, state.withdrawalRequests[request.requestId]? = some request) :
    ∃ final, state.reserveOutputs crypto currentHeight (List.zipWith chargedOutput requests fees) ledger =
      .ok () final := by
  induction charged generalizing ledger with
  | nil => exact ⟨ledger, rfl⟩
  | @cons request fee rest others chargeable _ ih =>
    have found : state.requestOf (chargedOutput request fee) = .ok request := by
      rw [SharechainReplayState.requestOf, chargedOutput, stored request List.mem_cons_self, okOr_some]
    have reserves : ClaimLedger.reserveWithdrawal crypto request fee currentHeight ledger =
        .ok (ClaimLedger.pendingOf request fee) (ledger.reserved request fee) :=
      ClaimLedger.reserveWithdrawal_ok.mpr
        ⟨affordable.validateReservation_eq (valid request List.mem_cons_self) chargeable, rfl, rfl⟩
    obtain ⟨final, onward⟩ := ih affordable.reserved (fun other member => valid other (List.mem_cons_of_mem _ member))
      fun other member => stored other (List.mem_cons_of_mem _ member)
    refine ⟨final, ?_⟩
    simp only [List.zipWith_cons_cons, SharechainReplayState.reserveOutputs, Routine.bind_eq_ok, Routine.attempt_eq_ok,
      Routine.focus_eq_ok]
    refine ⟨request, ledger, ⟨found, rfl⟩, (), ledger, ⟨require_of_true ⟨rfl, rfl, rfl⟩ _, rfl⟩, _, _,
      ⟨_, reserves, rfl⟩, (), _, ⟨require_of_true ⟨rfl, rfl, rfl, rfl⟩ _, rfl⟩, onward⟩

end Affordable

/-- Stored requests are their own normal forms. -/
theorem Filed.canonicalRequests_perm (filed : Filed crypto state)
    (stored : ∀ request ∈ requests, state.withdrawalRequests[request.requestId]? = some request) :
    (canonicalRequests requests).Perm requests := by
  have same : requests.map WithdrawalRequest.normalized = requests := by
    conv_rhs => rw [← List.map_id requests]
    apply List.map_congr_left
    intro request member
    exact (filed.requests _ request (stored request member)).2
  exact (Soundness.canonicalRequests_perm requests).trans (.of_eq same)

private theorem Affordable.of_perm {ledger : ClaimLedger} {ordered : List WithdrawalRequest}
    (permuted : ordered.Perm requests)
    (ascending : Ascending ordered) (fresh : ∀ request ∈ requests, ledger.pendingWithdrawals[request.requestId]? = none)
    (funded : ∀ owner, requestedBy owner requests ≤ (ledger.balances.getD owner 0).toNat)
    (later : ∀ request ∈ requests, ∀ last, ledger.lastWithdrawalNonceByOwner[ownerOf request]? = some last →
      last.toNat < request.nonce.toNat)
    (increasing : ∀ early ∈ requests, ∀ late ∈ requests, ownerOf early = ownerOf late →
      compare early.requestId late.requestId = .lt → early.nonce.toNat < late.nonce.toNat) :
    Affordable ledger ordered where
  distinct := ascending.nodup
  fresh request member := fresh request (permuted.mem_iff.mp member)
  funded owner := by
    have same : requestedBy owner ordered = requestedBy owner requests := ((permuted.filter _).map _).sum_eq
    exact same ▸ funded owner
  later request member := later request (permuted.mem_iff.mp member)
  increasing := ascending.imp_of_mem fun {early late} first second less own =>
    increasing early (permuted.mem_iff.mp first) late (permuted.mem_iff.mp second) own less

/-- The hash preimages of the accepted batches and of one more. -/
def batchPreimages (state : SharechainReplayState) (batch : WithdrawalBatch) : Set HashPreimage :=
  { preimage | preimage = .withdrawalBatch batch.normalized ∨ ∃ (batchHash : Text) (entry : WithdrawalBatch),
      state.withdrawalBatches[batchHash]? = some entry ∧ preimage = .withdrawalBatch entry.normalized }

/-- A batch that is expected and whose outputs can be reserved is handled. -/
theorem applyWithdrawalBatch_returns {batch : WithdrawalBatch} (filed : Filed crypto state)
    (normal : batch.normalized = batch) (collisionFree : CollisionFree crypto (batchPreimages state batch))
    (expected : state.expectedWithdrawalBatch crypto batch 0 = .ok batch)
    (reserved : ∃ ledger, state.reserveOutputs crypto 0 batch.outputs state.claimLedger = .ok () ledger) :
    ∃ after, applyWithdrawalBatch crypto batch state = .ok () after := by
  simp only [applyWithdrawalBatch, Routine.get_bind, normal]
  cases stored : state.withdrawalBatches[batch.batchHash crypto]? with
  | some existing =>
    obtain ⟨key, fixed⟩ := filed.batches _ existing stored
    have preimages := collisionFree.eq_of_taggedHashHex (.inr ⟨_, existing, stored, rfl⟩) (.inl rfl) key
    have same : existing = batch := by
      have bodies := HashPreimage.withdrawalBatch.inj preimages
      rwa [fixed, normal] at bodies
    exact ⟨state, Routine.attempt_eq_ok.mpr ⟨require_of_true same _, rfl⟩⟩
  | none =>
    obtain ⟨ledger, returned⟩ := reserved
    refine ⟨_, Routine.bind_eq_ok.mpr ⟨ledger, state, ?_, rfl⟩⟩
    simp only [claimLedgerAfterWithdrawalBatch, Routine.bind_eq_ok, Routine.attempt_eq_ok, Routine.onCopy_eq_ok]
    exact ⟨batch, state, ⟨expected, rfl⟩, ⟨(), returned⟩, rfl⟩

end Calls

/-- A batch built from affordable stored requests is applied, when in the order of the request identifiers the nonces of
every owner increase. A message that was applied before is ignored. -/
theorem affordable_batch_applied (crypto : Crypto) (ops : List ReplayOp) (state : SharechainReplayState)
    (reached : run? (ReplayOp.step? crypto) {} ops = some state) (requests : List WithdrawalRequest)
    (stored : ∀ request ∈ requests, state.withdrawalRequests[request.requestId]? = some request)
    (unreserved : ∀ request ∈ requests, state.claimLedger.pendingWithdrawals[request.requestId]? = none)
    (later : ∀ request ∈ requests, ∀ last,
      state.claimLedger.lastWithdrawalNonceByOwner[ownerOf request]? = some last → last.toNat < request.nonce.toNat)
    (increasing : ∀ early ∈ requests, ∀ late ∈ requests, ownerOf early = ownerOf late →
      compare early.requestId late.requestId = .lt → early.nonce.toNat < late.nonce.toNat)
    (funded : ∀ owner, requestedBy owner requests ≤ (state.claimLedger.balances.getD owner 0).toNat)
    (inputs feeRateSatVb : U64) (batch : WithdrawalBatch)
    (built : buildWithdrawalBatch crypto requests inputs feeRateSatVb 0 = .ok batch)
    (collisionFree : CollisionFree crypto (batchPreimages state batch)) :
    ∃ after, applyMessage crypto (.withdrawalBatch batch) state =
      .ok (if (SharechainMessage.withdrawalBatch batch).messageHash crypto ∈ state.appliedMessageHashes then
        .duplicateIgnored else .applied) after := by
  have filed : Filed crypto state := (Filed.initial crypto).run reached
  have terms := buildWithdrawalBatch_eq_ok.mp built
  have permuted := filed.canonicalRequests_perm stored
  have known : ∀ request ∈ canonicalRequests requests, state.withdrawalRequests[request.requestId]? = some request :=
    fun request member => stored request (permuted.mem_iff.mp member)
  have affordable := Affordable.of_perm permuted terms.ascending unreserved funded later increasing
  have expected : state.expectedWithdrawalBatch crypto batch 0 = .ok batch :=
    terms.expectedWithdrawalBatch_eq (fun _ => normalized_of_mem_canonicalRequests) fun request member =>
      ⟨request, known request member, normalized_of_mem_canonicalRequests member⟩
  have reserved := affordable.reserveOutputs_eq terms.charged
    (fun request member => (terms.valid request member).1) known
  rw [← terms.outputs] at reserved
  obtain ⟨handled, returned⟩ := applyWithdrawalBatch_returns filed
    (terms.normalized_eq fun _ => normalized_of_mem_canonicalRequests) collisionFree expected reserved
  simp only [applyMessage, Routine.get_bind]
  split_ifs with known
  · exact ⟨state, rfl⟩
  · exact ⟨_, Routine.bind_eq_ok.mpr ⟨(), handled, returned, rfl⟩⟩

namespace BatchSample

/-- A funded owner whose two requests are stored. -/
def ops : List ReplayOp :=
  [.replaceClaimLedger { balances := ExtTreeMap.empty.insert ownerKey 60000 },
    .applyMessage (.withdrawalRequest firstRequest),
    .applyMessage (.withdrawalRequest secondRequest)]

/-- A request is stored and was not reserved before. -/
def Open (state : SharechainReplayState) (request : WithdrawalRequest) (last : Option U64) : Prop :=
  state.withdrawalRequests[request.requestId]? = some request ∧
    state.claimLedger.pendingWithdrawals[request.requestId]? = none ∧
    state.claimLedger.lastWithdrawalNonceByOwner[ownerOf request]? = last

instance (state : SharechainReplayState) (request : WithdrawalRequest) (last : Option U64) :
    Decidable (Open state request last) := inferInstanceAs (Decidable (_ ∧ _ ∧ _))

private theorem reached : ∃ state, run? (ReplayOp.step? crypto) {} ops = some state ∧ Open state firstRequest none ∧
    Open state secondRequest none ∧ state.claimLedger.balances.getD ownerKey 0 = 60000 ∧
    (stateAfter? (applyMessage crypto (.withdrawalBatch batch)) state).isNone = true := by
  have facts : ((run? (ReplayOp.step? crypto) {} ops).any fun state => Open state firstRequest none ∧
      Open state secondRequest none ∧ state.claimLedger.balances.getD ownerKey 0 = 60000 ∧
      (stateAfter? (applyMessage crypto (.withdrawalBatch batch)) state).isNone = true) = true := by decide +kernel
  obtain ⟨state, run, holds⟩ := (Option.any_eq_true _ _).mp facts
  exact ⟨state, run, of_decide_eq_true holds⟩

/-- The requests that arrive after the first one was paid. -/
def requestsAfter : List ReplayOp :=
  [.applyMessage (.withdrawalRequest thirdRequest), .applyMessage (.withdrawalRequest fourthRequest)]

/-- After the first request was paid, the other two are stored and funded and their batch is new. -/
def Waiting (state : SharechainReplayState) : Prop :=
  Open state thirdRequest (some 2) ∧ Open state fourthRequest (some 2) ∧
    state.claimLedger.balances.getD ownerKey 0 = 40000 ∧ state.withdrawalBatches.values = [singleBatch] ∧
    (SharechainMessage.withdrawalBatch pairBatch).messageHash crypto ∉ state.appliedMessageHashes

instance (state : SharechainReplayState) : Decidable (Waiting state) :=
  inferInstanceAs (Decidable (_ ∧ _ ∧ _ ∧ _ ∧ _))

/-- The batch of the first request is accepted, the other two requests arrive, and their batch is accepted too. -/
private theorem continued : ∃ before accepted state later,
    run? (ReplayOp.step? crypto) {} (ops.take 2) = some before ∧ before.withdrawalBatches.isEmpty = true ∧
    applyMessage crypto (.withdrawalBatch singleBatch) before = .ok .applied accepted ∧
    run? (ReplayOp.step? crypto) accepted requestsAfter = some state ∧ Waiting state ∧
    ReplayOp.step? crypto state (.applyMessage (.withdrawalBatch pairBatch)) = some later ∧
    later.withdrawalBatches[pairBatch.batchHash crypto]? = some pairBatch ∧
    later.withdrawalRequests[firstRequest.requestId]? = some firstRequest := by
  have facts : ((run? (ReplayOp.step? crypto) {} (ops.take 2)).any fun before => before.withdrawalBatches.isEmpty &&
      decide ((SharechainMessage.withdrawalBatch singleBatch).messageHash crypto ∉ before.appliedMessageHashes) &&
      (stateAfter? (applyMessage crypto (.withdrawalBatch singleBatch)) before).any fun accepted =>
        (run? (ReplayOp.step? crypto) accepted requestsAfter).any fun state => Waiting state ∧
          (ReplayOp.step? crypto state (.applyMessage (.withdrawalBatch pairBatch))).any (fun later =>
            later.withdrawalBatches[pairBatch.batchHash crypto]? = some pairBatch ∧
            later.withdrawalRequests[firstRequest.requestId]? = some firstRequest) = true) = true := by
    decide +kernel
  obtain ⟨before, run, holds⟩ := (Option.any_eq_true _ _).mp facts
  simp only [Bool.and_eq_true, decide_eq_true_eq, Option.any_eq_true] at holds
  obtain ⟨⟨noBatches, unknown⟩, accepted, returns, state, onward, waiting, later, paid⟩ := holds
  obtain ⟨outcome, returned⟩ := stateAfter?_eq_some.mp returns
  obtain ⟨known, -⟩ | ⟨-, rfl, -⟩ := applyMessage_ok returned
  · exact absurd known unknown
  · exact ⟨before, accepted, state, later, run, noBatches, returned, onward, waiting, paid⟩

private theorem requestedBy_le {funds : Sats} (owners : ∀ request ∈ requests, ownerOf request = ownerKey)
    (balance : state.claimLedger.balances.getD ownerKey 0 = funds)
    (total : (requests.map fun request => request.amountSats.toNat).sum ≤ funds.toNat) (owner : Text) :
    requestedBy owner requests ≤ (state.claimLedger.balances.getD owner 0).toNat := by
  by_cases own : ownerKey = owner
  · subst own
    rw [balance, requestedBy, sumFor,
      List.filter_eq_self.mpr fun request member => decide_eq_true (owners request member)]
    exact total
  · rw [requestedBy, sumFor, List.filter_eq_nil_iff.mpr]
    · exact Nat.zero_le _
    · intro request member
      rw [owners request member]
      exact fun same => own (of_decide_eq_true same)

private theorem pairBatch_built : buildWithdrawalBatch crypto [thirdRequest, fourthRequest] 1 5 0 = .ok pairBatch := by
  decide +kernel

/-- The only other batch has another hash. -/
private theorem collisionFree (only : state.withdrawalBatches.values = [singleBatch]) :
    CollisionFree crypto (batchPreimages state pairBatch) := by
  have two : ∀ preimage ∈ batchPreimages state pairBatch,
      preimage ∈ [HashPreimage.withdrawalBatch pairBatch.normalized, .withdrawalBatch singleBatch.normalized] := by
    rintro preimage (rfl | ⟨batchHash, entry, present, rfl⟩)
    · exact List.mem_cons_self
    · have listed : entry ∈ state.withdrawalBatches.values := mem_values.mpr ⟨batchHash, present⟩
      rw [only, List.mem_singleton] at listed
      rw [listed]
      exact List.mem_cons_of_mem _ List.mem_cons_self
  have apart : ∀ left ∈ [HashPreimage.withdrawalBatch pairBatch.normalized, .withdrawalBatch singleBatch.normalized],
      ∀ right ∈ [HashPreimage.withdrawalBatch pairBatch.normalized, .withdrawalBatch singleBatch.normalized],
      crypto.sha256Tagged left = crypto.sha256Tagged right → left = right := by decide +kernel
  exact fun left leftMember right rightMember => apart left (two left leftMember) right (two right rightMember)

end BatchSample

open BatchSample in
theorem affordable_batch_applied_pairBatch : ∃ before accepted state,
    applyMessage BatchSample.crypto (.withdrawalBatch singleBatch) before = .ok .applied accepted ∧
    run? (ReplayOp.step? BatchSample.crypto) accepted requestsAfter = some state ∧
    ∃ after, applyMessage BatchSample.crypto (.withdrawalBatch pairBatch) state = .ok .applied after := by
  obtain ⟨before, accepted, state, _, run, -, returned, onward, waiting, -⟩ := continued
  obtain ⟨third, fourth, balance, only, fresh⟩ := waiting
  have call : ReplayOp.step? BatchSample.crypto before (.applyMessage (.withdrawalBatch singleBatch)) =
      some accepted := stateAfter?_eq_some.mpr ⟨_, returned⟩
  have reached := run?_append_eq_some.mpr ⟨before, run, run?_cons_eq_some.mpr ⟨accepted, call, onward⟩⟩
  have both {condition : WithdrawalRequest → Prop} (one : condition thirdRequest) (other : condition fourthRequest) :
      ∀ request ∈ [thirdRequest, fourthRequest], condition request :=
    List.forall_mem_cons.mpr ⟨one, List.forall_mem_singleton.mpr other⟩
  have applied := affordable_batch_applied BatchSample.crypto _ state reached
    [thirdRequest, fourthRequest] (both third.1 fourth.1) (both third.2.1 fourth.2.1)
    (both (fun last recorded => Option.some.inj (third.2.2.symm.trans recorded) ▸ by decide)
      (fun last recorded => Option.some.inj (fourth.2.2.symm.trans recorded) ▸ by decide))
    (by decide) (requestedBy_le (by decide) balance (by decide)) 1 5 pairBatch
    pairBatch_built (collisionFree only)
  rw [if_neg fresh] at applied
  exact ⟨before, accepted, state, returned, onward, applied⟩

open BatchSample in
/-- Two affordable requests whose identifiers and nonces are in opposite order are refused. -/
theorem opposite_order_refused : ∃ state, run? (ReplayOp.step? BatchSample.crypto) {} BatchSample.ops = some state ∧
    (∀ request ∈ [firstRequest, secondRequest],
      state.withdrawalRequests[request.requestId]? = some request ∧
        state.claimLedger.pendingWithdrawals[request.requestId]? = none ∧
        state.claimLedger.lastWithdrawalNonceByOwner[ownerOf request]? = none) ∧
    firstRequest.nonce ≠ secondRequest.nonce ∧
    (∀ owner, requestedBy owner [firstRequest, secondRequest] ≤
      (state.claimLedger.balances.getD owner 0).toNat) ∧
    buildWithdrawalBatch BatchSample.crypto [firstRequest, secondRequest] 1 5 0 = .ok BatchSample.batch ∧
    ∀ after, applyMessage BatchSample.crypto (.withdrawalBatch BatchSample.batch) state ≠ .ok .applied after := by
  obtain ⟨state, run, first, second, balance, refused⟩ := reached
  refine ⟨state, run, ?_, by decide, requestedBy_le (by decide) balance (by decide), by decide +kernel, ?_⟩
  · intro request member
    rcases List.mem_pair.mp member with rfl | rfl
    · exact first
    · exact second
  · intro after applied
    rw [stateAfter?, applied] at refused
    cases refused

/-! ## Reservations stay -/

section Stable

variable {crypto : Crypto} {batch : WithdrawalBatch}

/-- The batch that replay expects is built from stored requests. -/
theorem Filed.exists_terms {expected : WithdrawalBatch} (filed : Filed crypto state)
    (computed : state.expectedWithdrawalBatch crypto batch currentHeight = .ok expected) :
    ∃ requests, BatchTerms crypto requests expected.inputs expected.feeRateSatVb currentHeight expected ∧
      ∀ request ∈ requests, state.withdrawalRequests[request.requestId]? = some request := by
  simp only [expectedWithdrawalBatch, except_bind_eq_ok, mapError_eq_ok, require_eq_ok] at computed
  obtain ⟨requests, looked, built, terms, _, same, ended⟩ := computed
  cases ended
  have stored : ∀ request ∈ requests, state.withdrawalRequests[request.requestId]? = some request := by
    intro request member
    obtain ⟨output, -, found⟩ := forall₂_mem_right (except_mapM_eq_ok_iff.mp looked) member
    rw [SharechainReplayState.requestOf, okOr_eq_ok] at found
    rwa [(filed.requests _ request found).1]
  rw [← same] at terms
  refine ⟨canonicalRequests requests, buildWithdrawalBatch_eq_ok.mp terms, fun request member => ?_⟩
  exact stored request ((filed.canonicalRequests_perm stored).mem_iff.mp member)

/-- A batch pays stored requests, all of them pending as it says. -/
structure BatchReserved (crypto : Crypto) (state : SharechainReplayState) (batch : WithdrawalBatch) : Prop where
  terms : ∃ requests, BatchTerms crypto requests batch.inputs batch.feeRateSatVb 0 batch ∧
    ∀ request ∈ requests, state.withdrawalRequests[request.requestId]? = some request
  pending : ∀ output ∈ batch.outputs, ∀ request, state.withdrawalRequests[output.requestId]? = some request →
    state.claimLedger.pendingWithdrawals[output.requestId]? = some (ClaimLedger.pendingOf request output.feeSats)

/-- Every output pays a stored request. -/
theorem BatchReserved.exists_request (reserved : BatchReserved crypto state batch) (member : output ∈ batch.outputs) :
    ∃ request fee, output = chargedOutput request fee ∧
      state.withdrawalRequests[output.requestId]? = some request ∧ request.validate crypto 0 = .ok () := by
  obtain ⟨requests, terms, stored⟩ := reserved.terms
  obtain ⟨request, listed, fee, -, -, rfl⟩ := terms.exists_charged member
  exact ⟨request, fee, rfl, stored request listed, (terms.valid request listed).1⟩

/-- Storing more requests and reserving more of them keeps a batch reserved. -/
theorem BatchReserved.extend (reserved : BatchReserved crypto state batch)
    (requests : Retains state.withdrawalRequests after.withdrawalRequests)
    (pending : Retains state.claimLedger.pendingWithdrawals after.claimLedger.pendingWithdrawals) :
    BatchReserved crypto after batch := by
  refine ⟨?_, ?_⟩
  · obtain ⟨ordered, terms, stored⟩ := reserved.terms
    exact ⟨ordered, terms, fun request member => requests _ _ (stored request member)⟩
  · intro output member request found
    obtain ⟨earlier, fee, -, stored, -⟩ := reserved.exists_request member
    obtain rfl : request = earlier := Option.some.inj (found.symm.trans (requests _ _ stored))
    exact pending _ _ (reserved.pending output member request stored)

/-- Every accepted batch is reserved, and no two of them pay one request. -/
structure ReservationsHeld (crypto : Crypto) (state : SharechainReplayState) : Prop where
  filed : Filed crypto state
  reserved : ∀ (batchHash : Text) (entry : WithdrawalBatch), state.withdrawalBatches[batchHash]? = some entry →
    BatchReserved crypto state entry
  exclusive : ∀ (firstHash secondHash : Text) (first second : WithdrawalBatch),
    state.withdrawalBatches[firstHash]? = some first → state.withdrawalBatches[secondHash]? = some second →
    ∀ output ∈ first.outputs, ∀ other ∈ second.outputs, output.requestId = other.requestId → first = second

/-- The batch of an accepted message is reserved, its requests were not pending, and what was pending stays so. -/
theorem Filed.batchReserved {ledger : ClaimLedger} (filed : Filed crypto state)
    (expected : state.expectedWithdrawalBatch crypto batch 0 = .ok batch)
    (returned : state.reserveOutputs crypto 0 batch.outputs state.claimLedger = .ok () ledger)
    (requests : after.withdrawalRequests = state.withdrawalRequests) (claims : after.claimLedger = ledger) :
    BatchReserved crypto after batch ∧
      (∀ output ∈ batch.outputs, state.claimLedger.pendingWithdrawals[output.requestId]? = none) ∧
      Retains state.claimLedger.pendingWithdrawals after.claimLedger.pendingWithdrawals := by
  obtain ⟨all, known⟩ := reserveOutputs_ok returned
  have listed : ∀ output ∈ batch.outputs, ∀ request, state.withdrawalRequests[output.requestId]? = some request →
      ((request, output.feeSats) : Reservation) ∈ reservationsOf state.withdrawalRequests batch.outputs := by
    intro output member request stored
    rw [reservationsOf, List.mem_filterMap]
    exact ⟨output, member, by rw [stored, Option.map_some]⟩
  refine ⟨⟨?_, ?_⟩, ?_, ?_⟩
  · rw [requests]
    exact filed.exists_terms expected
  · intro output member request stored
    rw [requests] at stored
    rw [claims, all.pending]
    exact .inr ⟨_, listed output member request stored, (filed.requests _ request stored).1, rfl⟩
  · intro output member
    obtain ⟨request, stored⟩ := known output member
    have absent := all.fresh (listed output member request stored)
    rwa [(filed.requests _ request stored).1] at absent
  · intro requestId entry present
    rw [claims, all.pending]
    exact .inl present

/-- Stored requests and accepted batches stay. -/
theorem WithdrawalStep.grows (step : WithdrawalStep crypto state after op) :
    Retains state.withdrawalRequests after.withdrawalRequests ∧
      Retains state.withdrawalBatches after.withdrawalBatches := by
  cases step with
  | kept requests batches _ =>
    rw [requests, batches]
    exact ⟨.refl _, .refl _⟩
  | requested request fresh requests batches _ =>
    rw [requests, batches]
    exact ⟨retains_insert fresh, .refl _⟩
  | batched batch ledger fresh _ _ requests batches _ =>
    rw [requests, batches]
    exact ⟨.refl _, retains_insert fresh⟩

/-- One call keeps the reservations, unless it replaces the ledger. -/
theorem ReservationsHeld.step (held : ReservationsHeld crypto state) (step : op.step? crypto state = some after)
    (keeps : ∀ ledger, op ≠ .replaceClaimLedger ledger) : ReservationsHeld crypto after := by
  have effect := ReplayOp.withdrawalStep step
  have grown := effect.grows.1
  refine ⟨held.filed.step step, ?_, ?_⟩
  · intro batchHash entry stored
    cases effect with
    | kept _ batches pending =>
      refine (held.reserved batchHash entry (batches ▸ stored)).extend grown ?_
      rw [pending keeps]
      exact .refl _
    | requested _ _ _ batches ledger =>
      refine (held.reserved batchHash entry (batches ▸ stored)).extend grown ?_
      rw [ledger]
      exact .refl _
    | batched batch ledger _ expected returned requests batches claims =>
      obtain ⟨reserved, -, keptPending⟩ := held.filed.batchReserved expected returned requests claims
      rw [batches, getElem?_insert_eq] at stored
      split_ifs at stored
      · exact Option.some.inj stored ▸ reserved
      · exact (held.reserved batchHash entry stored).extend grown keptPending
  · cases effect with
    | kept _ batches _ => exact batches ▸ held.exclusive
    | requested _ _ _ batches _ => exact batches ▸ held.exclusive
    | batched batch ledger _ expected returned requests batches claims =>
      obtain ⟨-, unreserved, -⟩ := held.filed.batchReserved expected returned requests claims
      -- an accepted batch has its requests pending, so the new one cannot share any
      have apart : ∀ (batchHash : Text) (entry : WithdrawalBatch), state.withdrawalBatches[batchHash]? = some entry →
          ∀ output ∈ entry.outputs, ∀ other ∈ batch.normalized.outputs, output.requestId ≠ other.requestId := by
        intro batchHash entry stored output member other otherMember same
        have reserved := held.reserved batchHash entry stored
        obtain ⟨request, _, -, found, -⟩ := reserved.exists_request member
        have present := reserved.pending output member request found
        rw [same, unreserved other otherMember] at present
        cases present
      intro firstHash secondHash first second firstStored secondStored output member other otherMember same
      rw [batches, getElem?_insert_eq] at firstStored secondStored
      split_ifs at firstStored secondStored
      · exact (Option.some.inj firstStored).symm.trans (Option.some.inj secondStored)
      · obtain rfl := Option.some.inj firstStored
        exact absurd same.symm (apart secondHash second secondStored other otherMember output member)
      · obtain rfl := Option.some.inj secondStored
        exact absurd same (apart firstHash first firstStored output member other otherMember)
      · exact held.exclusive _ _ first second firstStored secondStored output member other otherMember same

private theorem ReservationsHeld.run {ops : List ReplayOp} (held : ReservationsHeld crypto state)
    (keeps : ∀ op ∈ ops, ∀ ledger, op ≠ .replaceClaimLedger ledger)
    (run : run? (ReplayOp.step? crypto) state ops = some after) : ReservationsHeld crypto after :=
  run?_invariant (ReservationsHeld crypto) run held fun _ op _ member held step => held.step step (keeps op member)

private theorem stored_of_run {ops : List ReplayOp} (run : run? (ReplayOp.step? crypto) state ops = some after) :
    Retains state.withdrawalRequests after.withdrawalRequests ∧
      Retains state.withdrawalBatches after.withdrawalBatches := by
  constructor
  · intro requestId request stored
    exact run?_invariant (fun later => later.withdrawalRequests[requestId]? = some request) run stored
      fun _ _ _ _ present step => (ReplayOp.withdrawalStep step).grows.1 _ _ present
  · intro batchHash entry stored
    exact run?_invariant (fun later => later.withdrawalBatches[batchHash]? = some entry) run stored
      fun _ _ _ _ present step => (ReplayOp.withdrawalStep step).grows.2 _ _ present

/-- A request that is valid at the start is valid until it expires. -/
theorem validate_of_unexpired {request : WithdrawalRequest} (valid : request.validate crypto 0 = .ok ())
    (unexpired : currentHeight ≤ request.expiryHeight) : request.validate crypto currentHeight = .ok () := by
  simp only [WithdrawalRequest.validate, WithdrawalRequest.validateNormalized, except_bind_eq_ok,
    require_eq_ok] at valid ⊢
  obtain ⟨_, identifier, _, -, rest⟩ := valid
  exact ⟨(), identifier, (), unexpired, rest⟩

/-- A reserved batch passes the check of its reservation until one of its requests expires. -/
theorem BatchReserved.isReserved (reserved : BatchReserved crypto state batch) (filed : Filed crypto state)
    (accepted : state.withdrawalBatches[batch.batchHash crypto]? = some batch)
    (unexpired : ∀ output ∈ batch.outputs, ∀ request, state.withdrawalRequests[output.requestId]? = some request →
      currentHeight ≤ request.expiryHeight) : state.withdrawalBatchIsReserved crypto batch currentHeight = .ok () := by
  obtain ⟨requests, terms, stored⟩ := reserved.terms
  have normal : ∀ request ∈ requests, request.normalized = request :=
    fun request member => (filed.requests _ request (stored request member)).2
  have valid : ∀ request ∈ requests, request.validate crypto currentHeight = .ok () := by
    intro request member
    have ids := terms.map_outputs WithdrawalOutput.requestId WithdrawalRequest.requestId fun _ _ => rfl
    have paid : request.requestId ∈ batch.outputs.map WithdrawalOutput.requestId := ids ▸ List.mem_map_of_mem member
    obtain ⟨output, listed, same⟩ := List.mem_map.mp paid
    exact validate_of_unexpired (terms.valid request member).1
      (unexpired output listed request (same ▸ stored request member))
  have now : BatchTerms crypto requests batch.inputs batch.feeRateSatVb currentHeight batch :=
    { terms with valid := fun request member => ⟨valid request member, (terms.valid request member).2⟩ }
  have expected : state.expectedWithdrawalBatch crypto batch currentHeight = .ok batch :=
    now.expectedWithdrawalBatch_eq normal fun request member => ⟨request, stored request member, normal request member⟩
  have outputs : batch.outputs.forM (state.outputIsReserved crypto currentHeight) = .ok () := by
    rw [forM_eq_ok]
    intro output member
    obtain ⟨request, fee, rfl, found, start⟩ := reserved.exists_request member
    have lower : request.claimOwnerId = toAsciiLowercase request.claimOwnerId :=
      (congrArg WithdrawalRequest.claimOwnerId (filed.requests _ request found).2).symm
    simp only [outputIsReserved, SharechainReplayState.requestOf, requireOutputMatchesRequest, except_bind_eq_ok,
      okOr_eq_ok, require_eq_ok, mapError_eq_ok]
    exact ⟨request, found, (), ⟨rfl, rfl, rfl⟩, (), validate_of_unexpired start (unexpired _ member request found), _,
      reserved.pending _ member request found, rfl, lower.symm, rfl, rfl, rfl⟩
  simp only [withdrawalBatchIsReserved, except_bind_eq_ok, okOr_eq_ok, require_eq_ok]
  exact ⟨batch, expected, batch, accepted, (), rfl, outputs⟩

private theorem withdrawalBatchIsReserved_normalized (state : SharechainReplayState) (batch : WithdrawalBatch)
    (currentHeight : U64) : state.withdrawalBatchIsReserved crypto batch.normalized currentHeight =
      state.withdrawalBatchIsReserved crypto batch currentHeight := by
  simp only [withdrawalBatchIsReserved, expectedWithdrawalBatch, WithdrawalBatch.normalized_idem]

/-- A batch message that is applied has its batch among the accepted ones. -/
theorem accepted_of_applied (applied : applyMessage crypto (.withdrawalBatch batch) state = .ok .applied after) :
    after.withdrawalBatches[batch.normalized.batchHash crypto]? = some batch.normalized := by
  rcases applyMessage_ok applied with ⟨-, other, -⟩ | ⟨-, -, middle, handled, rfl⟩
  · cases other
  · cases handled with
    | batchKept stored => exact stored
    | batched => exact ExtTreeMap.getElem?_insert_self

private theorem mem_normalized_outputs (member : output ∈ batch.outputs) :
    output.normalized ∈ batch.normalized.outputs := (mem_sortBy _).mpr (List.mem_map_of_mem member)

end Stable

/-- From a state without accepted batches on, and as long as the ledger is not replaced, an accepted batch stays
reserved until one of its requests expires, its requests stay as they are, and no two accepted batches pay one
request. -/
theorem reservations_stable (crypto : Crypto) (setup early late : List ReplayOp)
    (start before accepted later : SharechainReplayState) (batch : WithdrawalBatch)
    (begun : run? (ReplayOp.step? crypto) {} setup = some start)
    (empty : ∀ batchHash : Text, start.withdrawalBatches[batchHash]? = none)
    (keeps : ∀ op ∈ early ++ late, ∀ ledger, op ≠ .replaceClaimLedger ledger)
    (first : run? (ReplayOp.step? crypto) start early = some before)
    (applied : applyMessage crypto (.withdrawalBatch batch) before = .ok .applied accepted)
    (second : run? (ReplayOp.step? crypto) accepted late = some later) :
    (∀ currentHeight, (∀ output ∈ batch.outputs, ∀ request,
        later.withdrawalRequests[output.requestId]? = some request → currentHeight ≤ request.expiryHeight) →
      later.withdrawalBatchIsReserved crypto batch currentHeight = .ok ()) ∧
    (∀ output ∈ batch.outputs, ∃ request, accepted.withdrawalRequests[output.requestId]? = some request ∧
      later.withdrawalRequests[output.requestId]? = some request) ∧
    ∀ (firstHash secondHash : Text) (left right : WithdrawalBatch), later.withdrawalBatches[firstHash]? = some left →
      later.withdrawalBatches[secondHash]? = some right → ∀ output ∈ left.outputs, ∀ other ∈ right.outputs,
        output.requestId = other.requestId → left = right := by
  have initially : ReservationsHeld crypto start :=
    { filed := (Filed.initial crypto).run begun
      reserved := fun batchHash entry stored => by rw [empty batchHash] at stored; cases stored
      exclusive := fun batchHash _ entry _ stored => by rw [empty batchHash] at stored; cases stored }
  have heldBefore := initially.run (fun op member => keeps op (List.mem_append_left _ member)) first
  have call : ReplayOp.step? crypto before (.applyMessage (.withdrawalBatch batch)) = some accepted :=
    stateAfter?_eq_some.mpr ⟨_, applied⟩
  have heldAccepted := heldBefore.step call (by simp)
  have heldLater := heldAccepted.run (fun op member => keeps op (List.mem_append_right _ member)) second
  have present := accepted_of_applied applied
  have remains := (stored_of_run second).2 _ _ present
  refine ⟨?_, ?_, heldLater.exclusive⟩
  · intro currentHeight unexpired
    rw [← withdrawalBatchIsReserved_normalized]
    refine (heldLater.reserved _ _ remains).isReserved heldLater.filed remains ?_
    intro output member request stored
    obtain ⟨raw, listed, rfl⟩ := List.mem_map.mp ((mem_sortBy _).mp member)
    exact unexpired raw listed request stored
  · intro output member
    obtain ⟨request, _, -, stored, -⟩ :=
      (heldAccepted.reserved _ _ present).exists_request (mem_normalized_outputs member)
    exact ⟨request, stored, (stored_of_run second).1 _ _ stored⟩

open BatchSample in
theorem reservations_stable_two_batches : ∃ before accepted later,
    applyMessage BatchSample.crypto (.withdrawalBatch singleBatch) before = .ok .applied accepted ∧
    run? (ReplayOp.step? BatchSample.crypto) accepted
      (requestsAfter ++ [.applyMessage (.withdrawalBatch pairBatch)]) = some later ∧
    later.withdrawalBatches[pairBatch.batchHash BatchSample.crypto]? = some pairBatch ∧
    later.withdrawalBatchIsReserved BatchSample.crypto singleBatch 1000 = .ok () := by
  obtain ⟨before, accepted, state, later, run, noBatches, returned, onward, -, step, paid, stored⟩ := continued
  have second : run? (ReplayOp.step? BatchSample.crypto) accepted (requestsAfter ++
      [.applyMessage (.withdrawalBatch pairBatch)]) = some later :=
    run?_append_eq_some.mpr ⟨state, onward, run?_cons_eq_some.mpr ⟨later, step, rfl⟩⟩
  have stable := reservations_stable BatchSample.crypto (BatchSample.ops.take 2) [] _ before before accepted later
    singleBatch run (fun batchHash => by rw [ExtTreeMap.isEmpty_iff.mp noBatches]; rfl)
    (by simp [requestsAfter]) rfl returned second
  have unexpired : ∀ output ∈ singleBatch.outputs, ∀ request,
      later.withdrawalRequests[output.requestId]? = some request → 1000 ≤ request.expiryHeight := by
    intro output member request found
    obtain rfl := List.mem_singleton.mp member
    obtain rfl : request = firstRequest := Option.some.inj (found.symm.trans stored)
    decide
  exact ⟨before, accepted, later, returned, second, paid, stable.1 1000 unexpired⟩

end P2PoolBTC.Soundness
