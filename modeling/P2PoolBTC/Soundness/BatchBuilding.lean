import P2PoolBTC.Model.Core.ReplayState
import P2PoolBTC.Model.Core.Vault

/-! # Withdrawal batches

A batch is a function of its requests in normal form and in the order of their identifiers: one output for
each, with the fee split as evenly as integers allow. Replay and the vault recompute parts of it, and agree.
-/

namespace P2PoolBTC.Soundness

open Math Model.Core Std

/-! ## Splitting the fee -/

/-- The fees of so many requests; the first ones pay one satoshi more. -/
def splitFees (baseFee : Sats) : Sats → ℕ → List Sats
  | _, 0 => []
  | remainder, count + 1 =>
    (if remainder = 0 then baseFee else baseFee + 1) ::
      splitFees baseFee (if remainder = 0 then 0 else remainder - 1) count

variable {requests : List WithdrawalRequest} {inputs feeRateSatVb currentHeight : U64} {count : ℕ}
  {state : SharechainReplayState} {request : WithdrawalRequest} {plan : VaultSpendPlan}

section SplitFees

variable {baseFee remainder : Sats}

@[simp] theorem length_splitFees (baseFee remainder : Sats) (count : ℕ) :
    (splitFees baseFee remainder count).length = count := by
  induction count generalizing remainder with
  | zero => rfl
  | succ count ih => rw [splitFees, List.length_cons, ih]

private theorem mem_splitFees {fee : Sats} (member : fee ∈ splitFees baseFee remainder count) :
    fee = baseFee ∨ remainder ≠ 0 ∧ fee = baseFee + 1 := by
  induction count generalizing remainder with
  | zero => nomatch member
  | succ count ih =>
    rw [splitFees, List.mem_cons] at member
    by_cases none : remainder = 0
    · subst none
      simp only [if_true] at member
      rcases member with rfl | later
      · exact .inl rfl
      · rcases ih later with same | ⟨nonzero, -⟩
        · exact .inl same
        · exact absurd rfl nonzero
    · simp only [if_neg none] at member
      rcases member with rfl | later
      · exact .inr ⟨none, rfl⟩
      · rcases ih later with same | ⟨-, more⟩
        · exact .inl same
        · exact .inr ⟨none, more⟩

private theorem toNat_succ (room : baseFee.toNat + 1 < 2 ^ 64) : (baseFee + 1).toNat = baseFee.toNat + 1 := by
  rw [BitVec.toNat_add]
  exact Nat.mod_eq_of_lt room

private theorem sum_splitFees (room : remainder ≠ 0 → baseFee.toNat + 1 < 2 ^ 64) (count : ℕ) :
    ((splitFees baseFee remainder count).map BitVec.toNat).sum = count * baseFee.toNat + min remainder.toNat count := by
  induction count generalizing remainder with
  | zero => simp [splitFees]
  | succ count ih =>
    rw [splitFees, List.map_cons, List.sum_cons]
    by_cases none : remainder = 0
    · subst none
      rw [if_pos rfl, if_pos rfl, ih (fun nonzero => absurd rfl nonzero)]
      simp only [BitVec.ofNat_eq_ofNat, BitVec.toNat_ofNat, Nat.zero_mod, Nat.zero_min, Nat.add_zero]
      ring
    · have positive : 1 ≤ remainder.toNat := by
        rw [Nat.one_le_iff_ne_zero]
        exact fun zero => none (BitVec.eq_of_toNat_eq zero)
      have less : (remainder - 1).toNat = remainder.toNat - 1 := BitVec.toNat_sub_of_le (BitVec.le_def.mpr positive)
      rw [if_neg none, if_neg none, ih (fun _ => room none), toNat_succ (room none), less]
      have capped : min remainder.toNat (count + 1) = min (remainder.toNat - 1) count + 1 := by omega
      rw [capped]
      ring

private theorem toNat_ofNat_count (fits : count < 2 ^ 64) : (BitVec.ofNat 64 count).toNat = count := by
  rw [BitVec.toNat_ofNat, Nat.mod_eq_of_lt fits]

/-- A quotient with a remainder can be raised by one. -/
theorem splitFees_room (total : Sats) (positive : 0 < count) (fits : count < 2 ^ 64)
    (nonzero : total % BitVec.ofNat 64 count ≠ 0) : (total / BitVec.ofNat 64 count).toNat + 1 < 2 ^ 64 := by
  have one : 1 ≤ total.toNat % count := by
    rw [Nat.one_le_iff_ne_zero]
    intro zero
    apply nonzero
    apply BitVec.eq_of_toNat_eq
    rw [BitVec.toNat_umod, toNat_ofNat_count fits, zero]
    rfl
  have small := Nat.mod_lt total.toNat positive
  have bounded := total.isLt
  have parts := Nat.div_add_mod total.toNat count
  have twice : 2 * (total.toNat / count) ≤ count * (total.toNat / count) := Nat.mul_le_mul_right _ (by omega)
  rw [BitVec.toNat_udiv, toNat_ofNat_count fits]
  omega

/-- Dividing a fee over a count gives parts that add up to it. -/
theorem sum_splitFees_div (total : Sats) (positive : 0 < count) (fits : count < 2 ^ 64) :
    ((splitFees (total / BitVec.ofNat 64 count) (total % BitVec.ofNat 64 count) count).map BitVec.toNat).sum =
      total.toNat := by
  rw [sum_splitFees (splitFees_room total positive fits), BitVec.toNat_udiv, BitVec.toNat_umod, toNat_ofNat_count fits,
    Nat.min_eq_left (Nat.mod_lt _ positive).le]
  exact Nat.div_add_mod total.toNat count

end SplitFees

/-! ## One output for each request -/

/-- What a request is paid after its fee. -/
def chargedOutput (request : WithdrawalRequest) (feeSats : Sats) : WithdrawalOutput :=
  { requestId := request.requestId
    destinationScriptHex := request.destinationScriptHex
    outputKind := request.outputKind
    grossAmountSats := request.amountSats
    feeSats
    netAmountSats := request.amountSats - feeSats }

/-- The fee leaves an amount that may be paid out. -/
structure Chargeable (crypto : Crypto) (request : WithdrawalRequest) (feeSats : Sats) : Prop where
  less : feeSats < request.amountSats
  payable : request.validateDestinationScript crypto (request.amountSats - feeSats) = .ok ()

private theorem chargeRequests_eq_ok {crypto : Crypto} {baseFee remainder : Sats} {outputs : List WithdrawalOutput} :
    chargeRequests crypto baseFee remainder requests = .ok outputs ↔
      outputs = List.zipWith chargedOutput requests (splitFees baseFee remainder requests.length) ∧
        List.Forall₂ (Chargeable crypto) requests (splitFees baseFee remainder requests.length) := by
  induction requests generalizing remainder outputs with
  | nil =>
    simp only [chargeRequests, splitFees, List.length_nil, List.zipWith_nil_left, List.Forall₂.nil, and_true]
    exact ⟨fun returned => (Except.ok.inj returned).symm, fun same => congrArg Except.ok same.symm⟩
  | cons request rest ih =>
    simp only [chargeRequests, except_bind_eq_ok, require_eq_ok, ih, List.length_cons, splitFees,
      List.zipWith_cons_cons, List.forall₂_cons]
    constructor
    · rintro ⟨_, less, _, payable, tail, ⟨rfl, charged⟩, ended⟩
      cases ended
      exact ⟨rfl, ⟨less, payable⟩, charged⟩
    · rintro ⟨rfl, ⟨less, payable⟩, charged⟩
      exact ⟨(), less, (), payable, _, ⟨rfl, charged⟩, rfl⟩

/-! ## The requests in order -/

/-- The requests in normal form and in the order of their identifiers. -/
def canonicalRequests (requests : List WithdrawalRequest) : List WithdrawalRequest :=
  sortBy (compareOn WithdrawalRequest.requestId) (requests.map WithdrawalRequest.normalized)

/-- Every identifier is larger than those before it. -/
def Ascending (requests : List WithdrawalRequest) : Prop :=
  requests.Pairwise fun left right => compare left.requestId right.requestId = .lt

theorem Ascending.ids (ascending : Ascending requests) :
    (requests.map WithdrawalRequest.requestId).Pairwise fun left right => compare left right = .lt :=
  List.pairwise_map.mpr ascending

theorem Ascending.nodup (ascending : Ascending requests) : (requests.map WithdrawalRequest.requestId).Nodup := by
  refine ascending.ids.imp ?_
  rintro left _ less rfl
  have equal : compare left left = .eq := Std.compare_eq_iff_eq.mpr rfl
  rw [equal] at less
  cases less

private theorem rejectDuplicateRequests_of_sorted
    (sorted : requests.Pairwise fun left right => (compare left.requestId right.requestId).isLE = true) :
    rejectDuplicateRequests requests = .ok () ↔ Ascending requests := by
  unfold Ascending
  induction requests with
  | nil => simp [rejectDuplicateRequests, pure, Except.pure]
  | cons first rest ih =>
    cases rest with
    | nil => simp [rejectDuplicateRequests, pure, Except.pure]
    | cons second others =>
      have below := (List.pairwise_cons.mp sorted).1
      simp only [rejectDuplicateRequests, except_bind_eq_ok, require_eq_ok, exists_const,
        ih (List.pairwise_cons.mp sorted).2]
      rw [List.pairwise_cons (a := first)]
      constructor
      · rintro ⟨apart, ascending⟩
        have next : compare first.requestId second.requestId = .lt := by
          have least := below second List.mem_cons_self
          cases order : compare first.requestId second.requestId with
          | lt => rfl
          | eq => exact absurd (Std.compare_eq_iff_eq.mp order) apart
          | gt => rw [order] at least; cases least
        refine ⟨fun later member => ?_, ascending⟩
        rcases List.mem_cons.mp member with rfl | behind
        · exact next
        · exact TransCmp.lt_trans next ((List.pairwise_cons.mp ascending).1 later behind)
      · rintro ⟨least, ascending⟩
        refine ⟨fun same => ?_, ascending⟩
        have next := least second List.mem_cons_self
        have equal : compare first.requestId second.requestId = .eq := Std.compare_eq_iff_eq.mpr same
        rw [equal] at next
        cases next

/-- What a batch that was built comes to. -/
structure BatchTerms (crypto : Crypto) (requests : List WithdrawalRequest) (inputs feeRateSatVb currentHeight : U64)
    (batch : WithdrawalBatch) : Prop where
  nonempty : requests ≠ []
  spends : inputs ≠ 0
  ascending : Ascending requests
  valid : ∀ request ∈ requests, request.validate crypto currentHeight = .ok () ∧ feeRateSatVb ≤ request.maxFeeRateSatVb
  vsize : estimateBatchVsize inputs
    (BitVec.ofNat 64 (requests.filter fun request => request.outputKind = .p2wpkh).length)
    (BitVec.ofNat 64 (requests.length - (requests.filter fun request => request.outputKind = .p2wpkh).length)) =
      .ok batch.estimatedVsize
  fee : estimateFeeSats batch.estimatedVsize feeRateSatVb = .ok batch.totalFeeSats
  charged : List.Forall₂ (Chargeable crypto) requests
    (splitFees (batch.totalFeeSats / BitVec.ofNat 64 requests.length)
      (batch.totalFeeSats % BitVec.ofNat 64 requests.length) requests.length)
  outputs : batch.outputs = List.zipWith chargedOutput requests
    (splitFees (batch.totalFeeSats / BitVec.ofNat 64 requests.length)
      (batch.totalFeeSats % BitVec.ofNat 64 requests.length) requests.length)
  inputs_eq : batch.inputs = inputs
  rate_eq : batch.feeRateSatVb = feeRateSatVb

private theorem canonicalRequests_eq_nil : canonicalRequests requests = [] ↔ requests = [] := by
  rw [← List.length_eq_zero_iff, canonicalRequests, length_sortBy, List.length_map, List.length_eq_zero_iff]

/-- A batch is built exactly on the terms of its requests in order. -/
theorem buildWithdrawalBatch_eq_ok {crypto : Crypto} {batch : WithdrawalBatch} :
    buildWithdrawalBatch crypto requests inputs feeRateSatVb currentHeight = .ok batch ↔
      BatchTerms crypto (canonicalRequests requests) inputs feeRateSatVb currentHeight batch := by
  have sorted : (canonicalRequests requests).Pairwise fun left right =>
      (compare left.requestId right.requestId).isLE = true := sortBy_pairwise (compareOn WithdrawalRequest.requestId) _
  simp only [buildWithdrawalBatch, except_bind_eq_ok, require_eq_ok]
  have nonempty_iff : requests ≠ [] ↔ canonicalRequests requests ≠ [] := canonicalRequests_eq_nil.not.symm
  rw [nonempty_iff, ← canonicalRequests]
  generalize canonicalRequests requests = ordered at sorted ⊢
  constructor
  · rintro ⟨_, nonempty, _, spends, _, unique, _, valid, vsize, sized, fee, charge, outputs, charged, ended⟩
    cases ended
    obtain ⟨same, chargeable⟩ := chargeRequests_eq_ok.mp charged
    refine ⟨nonempty, spends, (rejectDuplicateRequests_of_sorted sorted).mp unique, ?_, sized, charge, chargeable, same,
      rfl, rfl⟩
    intro request member
    have checks := forM_eq_ok.mp valid request member
    simp only [except_bind_eq_ok, require_eq_ok] at checks
    obtain ⟨_, validated, affordable⟩ := checks
    exact ⟨validated, affordable⟩
  · rintro ⟨nonempty, spends, ascending, valid, sized, charge, chargeable, same, rfl, rfl⟩
    refine ⟨(), nonempty, (), spends, (), (rejectDuplicateRequests_of_sorted sorted).mpr ascending, (),
      forM_eq_ok.mpr ?_, _, sized, _, charge, _, chargeRequests_eq_ok.mpr ⟨rfl, chargeable⟩, ?_⟩
    · intro request member
      simp only [except_bind_eq_ok, require_eq_ok]
      exact ⟨(), valid request member⟩
    · rw [← same]
      rfl

/-- Entries made of related entries of two lists. -/
theorem exists_of_mem_zipWith {α β γ : Type} {Related : α → β → Prop} {make : α → β → γ} {lefts : List α}
    {rights : List β} (related : List.Forall₂ Related lefts rights) {made : γ}
    (member : made ∈ List.zipWith make lefts rights) :
    ∃ left ∈ lefts, ∃ right ∈ rights, Related left right ∧ made = make left right := by
  induction related with
  | nil => nomatch member
  | cons holds _ ih =>
    rcases List.mem_cons.mp member with rfl | later
    · exact ⟨_, List.mem_cons_self, _, List.mem_cons_self, holds, rfl⟩
    · obtain ⟨left, inLefts, right, inRights, found⟩ := ih later
      exact ⟨left, List.mem_cons_of_mem _ inLefts, right, List.mem_cons_of_mem _ inRights, found⟩

namespace BatchTerms

variable {crypto : Crypto} {batch : WithdrawalBatch}
variable (terms : BatchTerms crypto requests inputs feeRateSatVb currentHeight batch)
include terms

/-- What does not depend on the fee is read off the requests. -/
theorem map_outputs {α : Type} (read : WithdrawalOutput → α) (ask : WithdrawalRequest → α)
    (same : ∀ request fee, read (chargedOutput request fee) = ask request) :
    batch.outputs.map read = requests.map ask := by
  rw [terms.outputs, List.map_zipWith]
  simp only [same]
  generalize fees_eq : splitFees _ _ requests.length = fees
  have aligned : requests.length = fees.length := by rw [← fees_eq, length_splitFees]
  rw [← List.map_uncurry_zip_eq_zipWith]
  conv_rhs => rw [← List.map_fst_zip aligned.le, List.map_map]
  rfl

private theorem length_outputs : batch.outputs.length = requests.length := by
  have sizes := congrArg List.length (terms.map_outputs (fun _ => ()) (fun _ => ()) fun _ _ => rfl)
  simpa using sizes

/-- Every output pays a request with its share of the fee. -/
theorem exists_charged {output : WithdrawalOutput} (member : output ∈ batch.outputs) :
    ∃ request ∈ requests, ∃ fee ∈ splitFees (batch.totalFeeSats / BitVec.ofNat 64 requests.length)
        (batch.totalFeeSats % BitVec.ofNat 64 requests.length) requests.length,
      Chargeable crypto request fee ∧ output = chargedOutput request fee :=
  exists_of_mem_zipWith terms.charged (terms.outputs ▸ member)

theorem sorted_outputs : batch.outputs.Pairwise fun left right => compare left.requestId right.requestId = .lt := by
  have ids := terms.ascending.ids
  rw [← terms.map_outputs WithdrawalOutput.requestId WithdrawalRequest.requestId fun _ _ => rfl] at ids
  exact List.pairwise_map.mp ids

private theorem orderedBatch_eq : Vault.normalizeWithdrawalOutputs batch.outputs = batch.outputs := by
  have sorted : batch.outputs.Pairwise fun left right =>
      (compareOn WithdrawalOutput.requestId left right).isLE = true := by
    refine terms.sorted_outputs.imp fun less => ?_
    change (compare _ _).isLE = true
    rw [less]
    rfl
  exact sorted.insertionSort_eq

theorem sum_fees (fits : requests.length < 2 ^ 64) :
    (batch.outputs.map fun output => output.feeSats.toNat).sum = batch.totalFeeSats.toNat := by
  have positive : 0 < requests.length := List.length_pos_iff.mpr terms.nonempty
  rw [← sum_splitFees_div batch.totalFeeSats positive fits, terms.outputs, List.map_zipWith]
  generalize fees_eq : splitFees _ _ requests.length = fees
  have aligned : fees.length = requests.length := by rw [← fees_eq, length_splitFees]
  rw [← List.map_uncurry_zip_eq_zipWith]
  conv_rhs => rw [← List.map_snd_zip aligned.le, List.map_map]
  rfl

/-- No two outputs pay fees more than one satoshi apart. -/
theorem fee_le (fits : requests.length < 2 ^ 64) {left right : WithdrawalOutput} (leftMember : left ∈ batch.outputs)
    (rightMember : right ∈ batch.outputs) : left.feeSats.toNat ≤ right.feeSats.toNat + 1 := by
  obtain ⟨_, -, leftFee, leftShare, -, rfl⟩ := terms.exists_charged leftMember
  obtain ⟨_, -, rightFee, rightShare, -, rfl⟩ := terms.exists_charged rightMember
  have lower : leftFee.toNat ≤ (batch.totalFeeSats / BitVec.ofNat 64 requests.length).toNat + 1 := by
    rcases mem_splitFees leftShare with rfl | ⟨-, rfl⟩
    · exact Nat.le_succ _
    · rw [BitVec.toNat_add]
      exact Nat.mod_le _ _
  have upper : (batch.totalFeeSats / BitVec.ofNat 64 requests.length).toNat ≤ rightFee.toNat := by
    rcases mem_splitFees rightShare with rfl | ⟨some, rfl⟩
    · exact Nat.le_refl _
    · rw [toNat_succ (splitFees_room batch.totalFeeSats (List.length_pos_iff.mpr terms.nonempty) fits some)]
      exact Nat.le_succ _
  exact lower.trans (Nat.succ_le_succ upper)

end BatchTerms

/-! ## Order and case of the requests -/

/-- The same request but for the case of its hexadecimal fields. -/
structure RecasedRequest (request other : WithdrawalRequest) : Prop where
  requestId : request.requestId = other.requestId
  claimOwnerId : EqIgnoreAsciiCase request.claimOwnerId other.claimOwnerId
  claimOwnerPubkeyHex : EqIgnoreAsciiCase request.claimOwnerPubkeyHex other.claimOwnerPubkeyHex
  destinationScriptHex : EqIgnoreAsciiCase request.destinationScriptHex other.destinationScriptHex
  amountSats : request.amountSats = other.amountSats
  maxFeeRateSatVb : request.maxFeeRateSatVb = other.maxFeeRateSatVb
  nonce : request.nonce = other.nonce
  expiryHeight : request.expiryHeight = other.expiryHeight
  signatureHex : request.signatureHex.map toAsciiLowercase = other.signatureHex.map toAsciiLowercase
  outputKind : request.outputKind = other.outputKind

theorem RecasedRequest.normalized_eq {other : WithdrawalRequest} (recased : RecasedRequest request other) :
    other.normalized = request.normalized := by
  obtain ⟨requestId, owner, pubkey, script, amount, rate, nonce, expiry, signature, kind⟩ := recased
  cases request
  cases other
  simp only [WithdrawalRequest.normalized, WithdrawalRequest.mk.injEq]
  exact ⟨requestId.symm, owner.symm, pubkey.symm, script.symm, amount.symm, rate.symm, nonce.symm, expiry.symm,
    signature.symm, kind.symm⟩

section Canonical

theorem normalized_of_mem_canonicalRequests (member : request ∈ canonicalRequests requests) :
    request.normalized = request := by
  obtain ⟨raw, -, rfl⟩ := List.mem_map.mp ((mem_sortBy _).mp member)
  exact raw.normalized_idem

theorem canonicalRequests_perm (requests : List WithdrawalRequest) :
    (canonicalRequests requests).Perm (requests.map WithdrawalRequest.normalized) := sortBy_perm _ _

/-- Requests that are those of an ascending list, in any order, are put in its order. -/
theorem canonicalRequests_of_perm {ordered : List WithdrawalRequest} (ascending : Ascending ordered)
    (permuted : (requests.map WithdrawalRequest.normalized).Perm ordered) : canonicalRequests requests = ordered := by
  have sorted : ordered.Pairwise fun left right => (compareOn WithdrawalRequest.requestId left right).isLE = true := by
    refine ascending.imp fun less => ?_
    change (compare _ _).isLE = true
    rw [less]
    rfl
  have separated : ∀ first ∈ ordered, ∀ second ∈ ordered, compareOn WithdrawalRequest.requestId first second = .eq →
      first = second :=
    fun first firstListed second secondListed same =>
      List.inj_on_of_nodup_map ascending.nodup firstListed secondListed (Std.compare_eq_iff_eq.mp same)
  rw [canonicalRequests, ← sortBy_eq_of_perm _ permuted.symm separated]
  exact sorted.insertionSort_eq

end Canonical

private theorem map_normalized_of_recasedRequest {others : List WithdrawalRequest}
    (recased : List.Forall₂ RecasedRequest requests others) :
    others.map WithdrawalRequest.normalized = requests.map WithdrawalRequest.normalized := by
  induction recased with
  | nil => rfl
  | cons same _ ih => rw [List.map_cons, List.map_cons, same.normalized_eq, ih]

namespace BatchTerms

variable {crypto : Crypto} {batch : WithdrawalBatch}
variable (terms : BatchTerms crypto requests inputs feeRateSatVb currentHeight batch)
include terms

theorem normalized_eq (normal : ∀ request ∈ requests, request.normalized = request) : batch.normalized = batch := by
  have fixed : batch.outputs.map WithdrawalOutput.normalized = batch.outputs := by
    conv_rhs => rw [← List.map_id batch.outputs]
    apply List.map_congr_left
    intro output member
    obtain ⟨request, listed, fee, -, -, rfl⟩ := terms.exists_charged member
    have lower : toAsciiLowercase request.destinationScriptHex = request.destinationScriptHex :=
      congrArg WithdrawalRequest.destinationScriptHex (normal request listed)
    simp [WithdrawalOutput.normalized, chargedOutput, lower]
  have ordered := terms.orderedBatch_eq
  rw [Vault.normalizeWithdrawalOutputs] at ordered
  rw [WithdrawalBatch.normalized, fixed, ordered]

/-- The stored requests of a batch are found in its order. -/
theorem mapM_requestOf {stored : List WithdrawalRequest}
    (found : List.Forall₂ (fun request entry => state.withdrawalRequests[request.requestId]? = some entry)
      requests stored) :
    batch.outputs.mapM state.requestOf = .ok stored := by
  have ids := terms.map_outputs WithdrawalOutput.requestId WithdrawalRequest.requestId fun _ _ => rfl
  rw [except_mapM_eq_ok_iff]
  have lookups : List.Forall₂ (fun requestId entry => state.withdrawalRequests[requestId]? = some entry)
      (requests.map WithdrawalRequest.requestId) stored := List.forall₂_map_left_iff.mpr found
  rw [← ids, List.forall₂_map_left_iff] at lookups
  refine lookups.imp fun output entry present => ?_
  rw [SharechainReplayState.requestOf, present, okOr_some]

/-- Replay recomputes the batch from the requests it stores. -/
theorem expectedWithdrawalBatch_eq (normal : ∀ request ∈ requests, request.normalized = request)
    (known : ∀ request ∈ requests, ∃ entry, state.withdrawalRequests[request.requestId]? = some entry ∧
      entry.normalized = request) : state.expectedWithdrawalBatch crypto batch currentHeight = .ok batch := by
  obtain ⟨stored, found⟩ : ∃ stored, List.Forall₂ (fun request entry =>
      state.withdrawalRequests[request.requestId]? = some entry ∧ entry.normalized = request) requests stored := by
    clear terms normal
    induction requests with
    | nil => exact ⟨[], .nil⟩
    | cons request rest ih =>
      obtain ⟨entry, present⟩ := known request List.mem_cons_self
      obtain ⟨stored, found⟩ := ih fun other member => known other (List.mem_cons_of_mem _ member)
      exact ⟨entry :: stored, .cons present found⟩
  have same : stored.map WithdrawalRequest.normalized = requests := by
    clear terms normal known
    induction found with
    | nil => rfl
    | cons holds _ ih => rw [List.map_cons, holds.2, ih]
  have again : buildWithdrawalBatch crypto stored batch.inputs batch.feeRateSatVb currentHeight = .ok batch := by
    rw [buildWithdrawalBatch_eq_ok, canonicalRequests_of_perm terms.ascending (.of_eq same), terms.inputs_eq,
      terms.rate_eq]
    exact terms
  simp only [SharechainReplayState.expectedWithdrawalBatch, terms.normalized_eq normal,
    terms.mapM_requestOf (found.imp fun _ _ holds => holds.1), except_ok_bind, again]
  rw [Except.mapError, except_ok_bind, require_of_true rfl, except_ok_bind]
  rfl

/-- The vault counts the outputs of each kind as the builder counted the requests. -/
theorem countKind_eq (kind : WithdrawalOutputKind) :
    Vault.countKind kind batch.outputs = requests.countP fun request => request.outputKind = kind := by
  have kinds := terms.map_outputs WithdrawalOutput.outputKind WithdrawalRequest.outputKind fun _ _ => rfl
  have counts := congrArg (List.countP fun other => other = kind) kinds
  rw [List.countP_map, List.countP_map] at counts
  exact counts

/-- A plan with as many inputs as the batch was built for passes the batch checks. -/
theorem validateWithdrawalBatch_eq (spent : plan.inputs.length = batch.inputs.toNat) :
    plan.validateWithdrawalBatch crypto batch = .ok () := by
  have nonempty : batch.outputs ≠ [] := by
    rw [← List.length_pos_iff, terms.length_outputs, List.length_pos_iff]
    exact terms.nonempty
  have outputs : distinctForM WithdrawalOutput.requestId
      (fun output => VaultError.duplicateWithdrawalOutput output.requestId) (Vault.validateWithdrawalOutput crypto) []
      batch.outputs = .ok () := by
    rw [distinctForM_eq_ok]
    refine ⟨?_, ?_, by simp⟩
    · intro output member
      obtain ⟨request, -, fee, -, chargeable, rfl⟩ := terms.exists_charged member
      simp only [Vault.validateWithdrawalOutput, except_bind_eq_ok, require_eq_ok, mapError_eq_ok]
      exact ⟨(), chargeable.less, (), rfl, chargeable.payable⟩
    · rw [terms.map_outputs WithdrawalOutput.requestId WithdrawalRequest.requestId fun _ _ => rfl]
      exact terms.ascending.nodup
  have count : BitVec.ofNat 64 plan.inputs.length = inputs := by
    rw [spent, terms.inputs_eq, BitVec.ofNat_toNat, BitVec.setWidth_eq]
  have witness : Vault.countKind .p2wpkh batch.outputs =
      (requests.filter fun request => request.outputKind = .p2wpkh).length := by
    rw [terms.countKind_eq, List.countP_eq_length_filter]
  have taproot : Vault.countKind .p2tr batch.outputs =
      requests.length - (requests.filter fun request => request.outputKind = .p2wpkh).length := by
    have parts := countP_kinds WithdrawalRequest.outputKind requests
    rw [terms.countKind_eq, ← List.countP_eq_length_filter]
    omega
  simp only [VaultSpendPlan.validateWithdrawalBatch, except_bind_eq_ok, require_eq_ok, mapError_eq_ok, count, witness,
    taproot, terms.vsize, terms.rate_eq, Except.ok.injEq]
  exact ⟨(), nonempty, (), spent.symm, (), outputs, _, rfl, (), rfl, _, terms.fee, rfl⟩

private theorem validateBatch_eq (fits : requests.length < 2 ^ 64) (spent : plan.inputs.length = batch.inputs.toNat)
    (fee : plan.txFeeSats = batch.totalFeeSats) : plan.validateBatch crypto batch = .ok () := by
  have total : checkedSum (batch.outputs.map WithdrawalOutput.feeSats) = some batch.totalFeeSats := by
    rw [checkedSum_eq_some, List.map_map]
    exact (terms.sum_fees fits).symm
  simp only [VaultSpendPlan.validateBatch, except_bind_eq_ok, require_eq_ok, Vault.sumSats, okOr_eq_ok]
  exact ⟨(), terms.validateWithdrawalBatch_eq spent, (), fee.symm, _, total, rfl⟩

end BatchTerms

/-- The outputs of a batch and the requests they pay. -/
structure BatchSound (requests : List WithdrawalRequest) (batch : WithdrawalBatch) : Prop where
  sorted : batch.outputs.Pairwise fun left right => compare left.requestId right.requestId = .lt
  paid : (batch.outputs.map fun output =>
      (output.requestId, output.destinationScriptHex, output.outputKind, output.grossAmountSats)).Perm
    (requests.map fun request =>
      (request.requestId, toAsciiLowercase request.destinationScriptHex, request.outputKind, request.amountSats))
  fees : (batch.outputs.map fun output => output.feeSats.toNat).sum = batch.totalFeeSats.toNat
  even : ∀ left ∈ batch.outputs, ∀ right ∈ batch.outputs, left.feeSats.toNat ≤ right.feeSats.toNat + 1
  net : ∀ output ∈ batch.outputs, output.netAmountSats.toNat + output.feeSats.toNat = output.grossAmountSats.toNat
  dust : ∀ output ∈ batch.outputs, dustThreshold output.outputKind ≤ output.netAmountSats

private theorem BatchTerms.sound {crypto : Crypto} {batch : WithdrawalBatch}
    (terms : BatchTerms crypto (canonicalRequests requests) inputs feeRateSatVb currentHeight batch)
    (fits : requests.length < 2 ^ 64) : BatchSound requests batch := by
  have count : (canonicalRequests requests).length < 2 ^ 64 := by
    rwa [canonicalRequests, length_sortBy, List.length_map]
  refine ⟨terms.sorted_outputs, ?_, terms.sum_fees count, fun left leftMember right rightMember =>
    terms.fee_le count leftMember rightMember, ?_, ?_⟩
  · rw [terms.map_outputs _ (fun request =>
      (request.requestId, request.destinationScriptHex, request.outputKind, request.amountSats)) fun _ _ => rfl]
    have permuted := (canonicalRequests_perm requests).map fun request =>
      (request.requestId, request.destinationScriptHex, request.outputKind, request.amountSats)
    rw [List.map_map] at permuted
    exact permuted
  · intro output member
    obtain ⟨request, -, fee, -, chargeable, rfl⟩ := terms.exists_charged member
    have less := BitVec.lt_def.mp chargeable.less
    change (request.amountSats - fee).toNat + fee.toNat = request.amountSats.toNat
    rw [BitVec.toNat_sub_of_le (BitVec.le_def.mpr less.le)]
    omega
  · intro output member
    obtain ⟨request, -, fee, -, chargeable, rfl⟩ := terms.exists_charged member
    have payable := chargeable.payable
    simp only [WithdrawalRequest.validateDestinationScript, validateDestinationScriptPolicy, except_bind_eq_ok,
      require_eq_ok] at payable
    obtain ⟨_, -, _, dust, -⟩ := payable
    exact dust

/-- A batch that was built pays every request once with an even share of the fee, does not depend on the order or the
case of the requests, is in normal form, and is what replay and the vault expect. A vector has fewer than `2 ^ 63`
entries. -/
theorem build_withdrawal_batch_sound (crypto : Crypto) (requests : List WithdrawalRequest)
    (inputs feeRateSatVb currentHeight : U64) (batch : WithdrawalBatch) (vector : requests.length < 2 ^ 63)
    (built : buildWithdrawalBatch crypto requests inputs feeRateSatVb currentHeight = .ok batch) :
    BatchSound requests batch ∧
      (∀ permuted others, requests.Perm permuted → List.Forall₂ RecasedRequest permuted others →
        buildWithdrawalBatch crypto others inputs feeRateSatVb currentHeight = .ok batch) ∧
      batch.normalized = batch ∧
      (∀ state : SharechainReplayState, (∀ request ∈ requests, ∃ entry,
          state.withdrawalRequests[request.requestId]? = some entry ∧ RecasedRequest request entry) →
        state.expectedWithdrawalBatch crypto batch currentHeight = .ok batch) ∧
      ∀ plan : VaultSpendPlan, plan.inputs.length = batch.inputs.toNat →
        plan.validateWithdrawalBatch crypto batch = .ok () ∧
          (plan.txFeeSats = batch.totalFeeSats → plan.validateBatch crypto batch = .ok ()) := by
  have terms := buildWithdrawalBatch_eq_ok.mp built
  have fits : requests.length < 2 ^ 64 := vector.trans (by norm_num)
  have count : (canonicalRequests requests).length < 2 ^ 64 := by
    rwa [canonicalRequests, length_sortBy, List.length_map]
  refine ⟨terms.sound fits, ?_, terms.normalized_eq fun _ => normalized_of_mem_canonicalRequests, ?_, ?_⟩
  · intro permuted others permutes recased
    have same : canonicalRequests others = canonicalRequests requests := by
      apply canonicalRequests_of_perm terms.ascending
      rw [map_normalized_of_recasedRequest recased]
      exact (permutes.symm.map _).trans (canonicalRequests_perm requests).symm
    rw [buildWithdrawalBatch_eq_ok, same]
    exact terms
  · intro state known
    refine terms.expectedWithdrawalBatch_eq (fun _ => normalized_of_mem_canonicalRequests) ?_
    intro request member
    obtain ⟨raw, listed, rfl⟩ := List.mem_map.mp ((canonicalRequests_perm requests).mem_iff.mp member)
    obtain ⟨entry, present, recased⟩ := known raw listed
    exact ⟨entry, present, recased.normalized_eq⟩
  · exact fun plan spent => ⟨terms.validateWithdrawalBatch_eq spent, terms.validateBatch_eq count spent⟩

namespace BatchSample

def ownerKey : Text := hexText 64 0x1d16453b3ab3132acb0a5bc16cc49690d819a585267a15cd5a064e2a0ad40599

/-- A request of the owner. -/
def requestOf (requestId destinationScriptHex : Text) (amountSats nonce : U64) (outputKind : WithdrawalOutputKind)
    (signatureHex : Text) : WithdrawalRequest :=
  { requestId
    claimOwnerId := ownerKey
    claimOwnerPubkeyHex := ownerKey
    destinationScriptHex
    amountSats
    maxFeeRateSatVb := 10
    nonce
    expiryHeight := 1000
    signatureHex := some signatureHex
    outputKind }

def firstRequest : WithdrawalRequest :=
  requestOf "withdrawal-1".toList (hexText 44 0x00141111111111111111111111111111111111111111) 20000 2 .p2wpkh
    (hexText 64 0x3b00dae505e7440eae69ec35f117d55e004c86dfc83e77d0d92d91b9f40b1953 ++
      hexText 64 0x71986f027127b9d745b759b700bcad340920f29dc0aecf5002a57ed329902dad)

/-- The request with the larger identifier has the smaller nonce. -/
def secondRequest : WithdrawalRequest :=
  requestOf "withdrawal-2".toList
    (hexText 4 0x5120 ++ hexEncode (List.replicate 32 0x22)) 30001 1 .p2tr
    (hexText 64 0xec375f17ba50a22aca1e8723c0fe9c5fd6a89c84bfd461d6c34ec26fd5a093e3 ++
      hexText 64 0x23c906275b29da1b24cb312fd47aea45ac37dccffecc30827de6aebb8dec19ac)

def thirdRequest : WithdrawalRequest :=
  requestOf "withdrawal-3".toList (hexText 4 0x0014 ++ hexEncode (List.replicate 20 0x33)) 15000 3 .p2wpkh
    (hexText 64 0xacc7106d58494adc59688cb8deab64cbc432697ab5cd876fcaedbb57a5dbd2b0 ++
      hexText 64 0xd7b96958c080bf5828b3b916f9ba85949690d61010b3c3f9a8acd41d861738d9)

/-- The nonces of the third and of the fourth request are in the order of the identifiers. -/
def fourthRequest : WithdrawalRequest :=
  requestOf "withdrawal-4".toList (hexText 4 0x0014 ++ hexEncode (List.replicate 20 0x44)) 16000 4 .p2wpkh
    (hexText 64 0x326fb69b5ab53ee1aca8fc76813d20ed2710aa55edd8fe652efc6b4935a2426b ++
      hexText 64 0xb2ad6b400676d1d21572e52b802fc430d6c2fdb189c25f1e27b3afc9abf25bfc)

/-- The first two requests in one transaction with one input, at five satoshis for a virtual byte. -/
def batch : WithdrawalBatch :=
  { inputs := 1
    feeRateSatVb := 5
    estimatedVsize := 142
    totalFeeSats := 710
    outputs := [chargedOutput firstRequest 355, chargedOutput secondRequest 355] }

/-- The first request alone. -/
def singleBatch : WithdrawalBatch :=
  { inputs := 1
    feeRateSatVb := 5
    estimatedVsize := 99
    totalFeeSats := 495
    outputs := [chargedOutput firstRequest 495] }

/-- The third and the fourth request. -/
def pairBatch : WithdrawalBatch :=
  { inputs := 1
    feeRateSatVb := 5
    estimatedVsize := 130
    totalFeeSats := 650
    outputs := [chargedOutput thirdRequest 325, chargedOutput fourthRequest 325] }

def withRequest (request : WithdrawalRequest) (digest messageHash : ℕ) : CryptoTables → CryptoTables :=
  .withSigned (.withdrawalRequest request.signingPayload) (.withdrawalRequest request) (request.signatureHex.getD [])
    ownerKey (hexText 64 digest) (hexText 64 messageHash)

def batchHashes (batch : WithdrawalBatch) (batchHash messageHash : ℕ) : List (HashPreimage × Text) :=
  [(.withdrawalBatch batch, hexText 64 batchHash),
    (.sharechainMessage (.withdrawalBatch batch), hexText 64 messageHash)]

def tables : CryptoTables :=
  withRequest firstRequest
    0x5e6d918d7055ab74f643eece4f7f274bc03b9cb8d5cdb5807142a853b69e23d2
    0x7eeb5dd724fb7e4e05bab2be6e183d2eec5a7121067ef0d99af74b6012b65cd0 <|
  withRequest secondRequest
    0x25e6c5906cd9f5e097d92e0ef90260a12f127a6dd66e3b410255e9fe0dbf0554
    0x79119b48525c3d8ee291da2564f9904ec391b89c8920d83cef6d85950ed72185 <|
  withRequest thirdRequest
    0x4f3aa03c4b632fc09cc026a4cc29cb9628d2d53dab457d5fe72caa22ac08ad24
    0x2dd47469a29f9aebd4b202b1cf605b0b0a65b04abcdefb86038eb97ce8e864f5 <|
  withRequest fourthRequest
    0xa8a0d4ed7cef047ad516cddcf9dcc7efb21c75172396a1dbdf3f73216a582514
    0xd8394f660498255440b50c19d2951ff63232bd59b9a7000568534f9e43777776
    { sha256Tagged :=
        batchHashes batch
          0xb5d1c0c8a3cbb6a280ec7555798ab78c4844d18d290d203080a8feeb30fbb69c
          0x9089d1361277bca2cbfa4ca1a181e28d8b2e0cde9cdd6e4fe3fdb7dcbf4d0aff ++
        batchHashes singleBatch
          0xf2b74c6fb6a314b984351fd9a4ba93440651ffed3ef428e1bb306afc344ead77
          0x77773c925d55db5e1902dc4e53447e67e948e4ffb51e9683ce6db5e4c67a9a84 ++
        batchHashes pairBatch
          0x50adb3e87a3fb46dab9714bd942246a6cf3ab418e394f4dcf9a2ceb4b83ea5d8
          0x2b3814da3560f9c6c92beb368e2d053f5a318b2e12696012b4a8f82b3e09cb4f
      publicKeys := [ownerKey] }

def crypto : Crypto := .ofTables tables

end BatchSample

open BatchSample in
theorem build_withdrawal_batch_sound_two_requests :
    buildWithdrawalBatch BatchSample.crypto [secondRequest, firstRequest] 1 5 100 = .ok BatchSample.batch ∧
      BatchSound [secondRequest, firstRequest] BatchSample.batch := by
  have built : buildWithdrawalBatch BatchSample.crypto [secondRequest, firstRequest] 1 5 100 =
      .ok BatchSample.batch := by decide +kernel
  exact ⟨built, (build_withdrawal_batch_sound BatchSample.crypto _ 1 5 100 BatchSample.batch (by decide) built).1⟩

end P2PoolBTC.Soundness
