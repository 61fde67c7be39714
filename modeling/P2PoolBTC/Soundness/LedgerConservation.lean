import P2PoolBTC.Math.Run
import P2PoolBTC.Math.TreeMap
import P2PoolBTC.Model.Core.Ledger

/-! # Conservation of claims

A ledger is driven by credits, reservations and payments. The book kept beside it records what
each accepted operation returned, so that money can be counted: what was credited is what is
still on a balance, reserved, or paid out. Nonces of one owner only grow, which is all that
keeps a paid request from being reserved again.
-/

namespace P2PoolBTC.Soundness

open Math Model.Core Std

/-- The operations that change a ledger. -/
inductive LedgerOp where
  | applyVaultAllocation (allocation : VaultAllocation)
  | applyPayoutSchedule (schedule : PayoutSchedule)
  | reserveWithdrawal (request : WithdrawalRequest) (feeSats : Sats) (currentHeight : U64)
  | markPaid (requestId : Text)

/-- A ledger with the history of the operations that returned. -/
structure LedgerBook where
  ledger : ClaimLedger := {}
  credited : List VaultAllocation := []
  reservations : List WithdrawalRequest := []
  paid : List PendingWithdrawal := []

/-- Run one operation and record what it returned; an operation that fails ends the run. -/
def LedgerBook.step? (crypto : Crypto) (book : LedgerBook) : LedgerOp → Option LedgerBook
  | .applyVaultAllocation allocation =>
    match ClaimLedger.applyVaultAllocation allocation book.ledger with
    | .ok _ ledger => some { book with ledger, credited := book.credited ++ [allocation] }
    | .error _ _ => none
  | .applyPayoutSchedule schedule =>
    match ClaimLedger.applyPayoutSchedule schedule book.ledger with
    | .ok _ ledger => some { book with ledger, credited := book.credited ++ schedule.vaultAllocations }
    | .error _ _ => none
  | .reserveWithdrawal request feeSats currentHeight =>
    match ClaimLedger.reserveWithdrawal crypto request feeSats currentHeight book.ledger with
    | .ok _ ledger => some { book with ledger, reservations := book.reservations ++ [request] }
    | .error _ _ => none
  | .markPaid requestId =>
    match ClaimLedger.markPaid requestId book.ledger with
    | .ok removed ledger => some { book with ledger, paid := book.paid ++ removed.toList }
    | .error _ _ => none

/-- The satoshis of a list of allocations. -/
def totalCredited (allocations : List VaultAllocation) : ℕ :=
  (allocations.map fun allocation => allocation.amountSats.toNat).sum

/-- The gross satoshis of a list of withdrawals. -/
def totalGross (withdrawals : List PendingWithdrawal) : ℕ :=
  (withdrawals.map fun pending => pending.grossAmountSats.toNat).sum

/-- All satoshis on claim balances. -/
def totalBalances (ledger : ClaimLedger) : ℕ := mapTotal BitVec.toNat ledger.balances

/-- All satoshis reserved for withdrawals. -/
def totalPending (ledger : ClaimLedger) : ℕ :=
  mapTotal (fun pending => pending.grossAmountSats.toNat) ledger.pendingWithdrawals

section Credits

variable {ledger later : ClaimLedger}

private theorem entry_elim (balances : ExtTreeMap Text Sats) (key : Text) :
    (balances[key]?).elim 0 BitVec.toNat = (balances.getD key 0).toNat := by
  rw [ExtTreeMap.getD_eq_getD_getElem?]
  cases balances[key]? <;> rfl

theorem totalBalances_credit {allocation : VaultAllocation} {done : Unit}
    (returned : ClaimLedger.applyVaultAllocation allocation ledger = .ok done later) :
    totalBalances later = totalBalances ledger + allocation.amountSats.toNat ∧
      later.pendingWithdrawals = ledger.pendingWithdrawals ∧
      later.lastWithdrawalNonceByOwner = ledger.lastWithdrawalNonceByOwner := by
  obtain ⟨credited, sum, rfl⟩ := ClaimLedger.applyVaultAllocation_ok returned
  refine ⟨?_, rfl, rfl⟩
  have change := mapTotal_insert BitVec.toNat ledger.balances
    (toAsciiLowercase allocation.claimOwnerId) credited
  rw [entry_elim] at change
  unfold totalBalances
  dsimp only
  omega

theorem totalBalances_credits {allocations : List VaultAllocation} {done : Unit}
    (returned : ClaimLedger.applyVaultAllocations allocations ledger = .ok done later) :
    totalBalances later = totalBalances ledger + totalCredited allocations ∧
      later.pendingWithdrawals = ledger.pendingWithdrawals ∧
      later.lastWithdrawalNonceByOwner = ledger.lastWithdrawalNonceByOwner := by
  induction allocations generalizing ledger with
  | nil =>
    simp only [ClaimLedger.applyVaultAllocations, Routine.pure_apply, EStateM.Result.ok.injEq] at returned
    obtain ⟨-, rfl⟩ := returned
    simp [totalCredited]
  | cons allocation rest ih =>
    obtain ⟨_, middle, head, tail⟩ := Routine.bind_eq_ok.mp returned
    obtain ⟨headTotal, headPending, headNonces⟩ := totalBalances_credit head
    obtain ⟨tailTotal, tailPending, tailNonces⟩ := ih tail
    refine ⟨?_, tailPending.trans headPending, tailNonces.trans headNonces⟩
    simp only [totalCredited, List.map_cons, List.sum_cons] at tailTotal ⊢
    omega

end Credits

section Reservations

variable {crypto : Crypto} {ledger later : ClaimLedger} {request : WithdrawalRequest} {feeSats : Sats}

/-- A checked reservation moves its gross amount from the balances to the pending withdrawals. -/
theorem totals_reserved (checked : ClaimLedger.ReservationChecked ledger request feeSats) :
    totalBalances (ledger.reserved request feeSats) + totalPending (ledger.reserved request feeSats) =
      totalBalances ledger + totalPending ledger := by
  have funded := checked.funded
  have balances := mapTotal_insert BitVec.toNat ledger.balances (toAsciiLowercase request.claimOwnerId)
    (ledger.balances.getD (toAsciiLowercase request.claimOwnerId) 0 - request.amountSats)
  rw [entry_elim, BitVec.toNat_sub_of_le (BitVec.le_def.mpr funded)] at balances
  have pending := mapTotal_insert_of_fresh (fun pending : PendingWithdrawal => pending.grossAmountSats.toNat)
    (ClaimLedger.pendingOf request feeSats) checked.fresh
  simp only [ClaimLedger.pendingOf] at pending
  simp only [totalBalances, totalPending, ClaimLedger.reserved, ClaimLedger.pendingOf]
  omega

private theorem totalPending_erase (ledger : ClaimLedger) (requestId : Text) :
    totalPending ledger =
      totalPending { ledger with pendingWithdrawals := ledger.pendingWithdrawals.erase requestId } +
        totalGross (ledger.pendingWithdrawals[requestId]?).toList := by
  unfold totalPending
  rw [mapTotal_eq_erase _ ledger.pendingWithdrawals requestId]
  cases ledger.pendingWithdrawals[requestId]? <;> simp [totalGross, Nat.add_comm]

end Reservations

/-- What one accepted operation does to a book. -/
inductive LedgerBook.Accepted (book later : LedgerBook) : Prop where
  | credited (allocations : List VaultAllocation)
      (total : totalBalances later.ledger = totalBalances book.ledger + totalCredited allocations)
      (pending : later.ledger.pendingWithdrawals = book.ledger.pendingWithdrawals)
      (nonces : later.ledger.lastWithdrawalNonceByOwner = book.ledger.lastWithdrawalNonceByOwner)
      (history : later.credited = book.credited ++ allocations ∧
        later.reservations = book.reservations ∧ later.paid = book.paid)
  | reserved (request : WithdrawalRequest) (feeSats : Sats)
      (checked : ClaimLedger.ReservationChecked book.ledger request feeSats)
      (outcome : later = { book with
        ledger := book.ledger.reserved request feeSats
        reservations := book.reservations ++ [request] })
  | paid (requestId : Text)
      (outcome : later = { book with
        ledger := { book.ledger with
          pendingWithdrawals := book.ledger.pendingWithdrawals.erase requestId }
        paid := book.paid ++ (book.ledger.pendingWithdrawals[requestId]?).toList })

variable {book later : LedgerBook}

private theorem LedgerBook.accepted_of_step? {crypto : Crypto} {op : LedgerOp}
    (step : book.step? crypto op = some later) :
    book.Accepted later := by
  cases op with
  | applyVaultAllocation allocation =>
    simp only [step?] at step
    split at step
    case h_1 done ledger returned =>
      obtain rfl := Option.some.inj step
      obtain ⟨total, pending, nonces⟩ := totalBalances_credit returned
      exact .credited [allocation] (by simpa [totalCredited] using total) pending nonces ⟨rfl, rfl, rfl⟩
    case h_2 => contradiction
  | applyPayoutSchedule schedule =>
    simp only [step?] at step
    split at step
    case h_1 done ledger returned =>
      obtain rfl := Option.some.inj step
      obtain ⟨total, pending, nonces⟩ := totalBalances_credits returned
      exact .credited schedule.vaultAllocations total pending nonces ⟨rfl, rfl, rfl⟩
    case h_2 => contradiction
  | reserveWithdrawal request feeSats currentHeight =>
    simp only [step?] at step
    split at step
    case h_1 pending ledger returned =>
      obtain rfl := Option.some.inj step
      obtain ⟨valid, -, rfl⟩ := ClaimLedger.reserveWithdrawal_ok.mp returned
      exact .reserved request feeSats (ClaimLedger.reservationChecked_of_validate valid) rfl
    case h_2 => contradiction
  | markPaid requestId =>
    simp only [step?, ClaimLedger.markPaid, Routine.get_bind, Routine.set_bind, Routine.pure_apply] at step
    obtain rfl := Option.some.inj step
    exact .paid requestId rfl

/-- The nonce recorded for an owner is at least as large as before. -/
def NoncesGrow (ledger later : ClaimLedger) : Prop :=
  ∀ (owner : Text) (last : U64), ledger.lastWithdrawalNonceByOwner[owner]? = some last →
    ∃ next, later.lastWithdrawalNonceByOwner[owner]? = some next ∧ last ≤ next

private theorem noncesGrow_reserved {ledger : ClaimLedger} {request : WithdrawalRequest} {feeSats : Sats}
    (checked : ClaimLedger.ReservationChecked ledger request feeSats) :
    NoncesGrow ledger (ledger.reserved request feeSats) := by
  intro owner last present
  simp only [ClaimLedger.reserved, getElem?_insert_eq]
  split_ifs with same
  · subst same
    exact ⟨request.nonce, rfl, BitVec.le_def.mpr (checked.nonce_lt last present).le⟩
  · exact ⟨last, present, BitVec.le_refl last⟩

theorem LedgerBook.Accepted.noncesGrow (accepted : book.Accepted later) : NoncesGrow book.ledger later.ledger := by
  cases accepted with
  | credited allocations total pending nonces history =>
    intro owner last present
    exact ⟨last, by rw [nonces, present], BitVec.le_refl last⟩
  | reserved request feeSats checked outcome =>
    subst outcome
    exact noncesGrow_reserved checked
  | paid requestId outcome =>
    subst outcome
    intro owner last present
    exact ⟨last, present, BitVec.le_refl last⟩

/-- The invariant of every book: money is conserved and reservations stay apart. -/
structure LedgerBook.Sound (book : LedgerBook) : Prop where
  conserved : totalBalances book.ledger + totalPending book.ledger + totalGross book.paid =
    totalCredited book.credited
  net : ∀ (requestId : Text) (pending : PendingWithdrawal),
    book.ledger.pendingWithdrawals[requestId]? = some pending →
    pending.netAmountSats.toNat + pending.feeSats.toNat = pending.grossAmountSats.toNat ∧
      pending.feeSats < pending.grossAmountSats
  nonces : ∀ request ∈ book.reservations, ∃ last,
    book.ledger.lastWithdrawalNonceByOwner[toAsciiLowercase request.claimOwnerId]? = some last ∧
      request.nonce ≤ last
  distinct : book.reservations.Pairwise fun earlier later =>
    ¬ (toAsciiLowercase earlier.claimOwnerId = toAsciiLowercase later.claimOwnerId ∧
      earlier.nonce = later.nonce)

private theorem LedgerBook.sound_empty : ({} : LedgerBook).Sound := by
  refine ⟨?_, ?_, ?_, List.Pairwise.nil⟩
  · simp [totalBalances, totalPending, totalGross, totalCredited]
  · intro requestId pending present
    simp at present
  · simp

private theorem nonces_kept (sound : book.Sound) (grow : NoncesGrow book.ledger later.ledger) :
    ∀ request ∈ book.reservations, ∃ last,
      later.ledger.lastWithdrawalNonceByOwner[toAsciiLowercase request.claimOwnerId]? = some last ∧
        request.nonce ≤ last := by
  intro request member
  obtain ⟨last, present, bound⟩ := sound.nonces request member
  obtain ⟨next, stored, larger⟩ := grow _ last present
  exact ⟨next, stored, BitVec.le_trans bound larger⟩

private theorem LedgerBook.Sound.accepted (sound : book.Sound) (accepted : book.Accepted later) : later.Sound := by
  have grow := accepted.noncesGrow
  have conserved := sound.conserved
  cases accepted with
  | credited allocations total pending nonces history =>
    obtain ⟨credits, reservations, paid⟩ := history
    have kept := nonces_kept sound grow
    refine ⟨?_, by rw [pending]; exact sound.net, by rw [reservations]; exact kept,
      by rw [reservations]; exact sound.distinct⟩
    have pendingTotal : totalPending later.ledger = totalPending book.ledger := by
      rw [totalPending, pending, totalPending]
    rw [credits, paid, total, pendingTotal]
    simp only [totalCredited, List.map_append, List.sum_append] at conserved ⊢
    omega
  | reserved request feeSats checked outcome =>
    subst outcome
    have totals := totals_reserved checked
    have kept := nonces_kept sound grow
    refine ⟨?_, ?_, ?_, ?_⟩
    · simp only at conserved ⊢
      omega
    · intro requestId pending present
      simp only [ClaimLedger.reserved, getElem?_insert_eq] at present
      split_ifs at present with same
      · obtain rfl := Option.some.inj present
        have feeBound := checked.fee_lt
        simp only [ClaimLedger.pendingOf, BitVec.lt_def]
        rw [BitVec.toNat_sub_of_le (BitVec.le_def.mpr feeBound.le)]
        omega
      · exact sound.net requestId pending present
    · intro other member
      rcases List.mem_append.mp member with old | new
      · exact kept other old
      · obtain rfl := List.mem_singleton.mp new
        exact ⟨other.nonce, by simp [ClaimLedger.reserved], BitVec.le_refl _⟩
    · -- An earlier reservation of this owner has a nonce at most the recorded one.
      refine List.pairwise_append.mpr ⟨sound.distinct, List.pairwise_singleton _ _, ?_⟩
      intro earlier old latest new
      obtain rfl := List.mem_singleton.mp new
      rintro ⟨sameOwner, sameNonce⟩
      obtain ⟨last, present, bound⟩ := sound.nonces earlier old
      have stale := checked.nonce_lt last (sameOwner ▸ present)
      have earlierBound := BitVec.le_def.mp bound
      rw [sameNonce] at earlierBound
      omega
  | paid requestId outcome =>
    subst outcome
    have kept := nonces_kept sound grow
    refine ⟨?_, ?_, kept, sound.distinct⟩
    · have removed := totalPending_erase book.ledger requestId
      simp only [totalGross, List.map_append, List.sum_append, totalBalances] at conserved removed ⊢
      omega
    · intro other pending present
      rw [getElem?_erase_eq] at present
      split_ifs at present with same
      exact sound.net other pending present

/-- Every ledger reached from the empty one by operations that return conserves what was credited:
it is on a balance, pending, or was paid. Each pending withdrawal splits into its net amount and a
smaller fee, no owner's nonce ever decreases along the run, and no two reservations share an owner
and a nonce, paid or not. -/
theorem claim_ledger_conservation (crypto : Crypto) (ops : List LedgerOp) (book : LedgerBook)
    (run : run? (LedgerBook.step? crypto) {} ops = some book) :
    (totalBalances book.ledger + totalPending book.ledger + totalGross book.paid =
      totalCredited book.credited) ∧
    (∀ (requestId : Text) (pending : PendingWithdrawal),
      book.ledger.pendingWithdrawals[requestId]? = some pending →
      pending.netAmountSats.toNat + pending.feeSats.toNat = pending.grossAmountSats.toNat ∧
        pending.feeSats < pending.grossAmountSats) ∧
    (∀ early late earlier, ops = early ++ late →
      run? (LedgerBook.step? crypto) {} early = some earlier →
        NoncesGrow earlier.ledger book.ledger) ∧
    (book.reservations.Pairwise fun earlier later =>
      ¬ (toAsciiLowercase earlier.claimOwnerId = toAsciiLowercase later.claimOwnerId ∧
        earlier.nonce = later.nonce)) := by
  have sound : book.Sound := run?_invariant LedgerBook.Sound run LedgerBook.sound_empty
    fun before op after _ held step => held.accepted (LedgerBook.accepted_of_step? step)
  refine ⟨sound.conserved, sound.net, ?_, sound.distinct⟩
  rintro early late earlier rfl first
  obtain ⟨middle, reached, rest⟩ := run?_append_eq_some.mp run
  obtain rfl : earlier = middle := Option.some.inj (first.symm.trans reached)
  refine run?_relates (fun _ => True)
    (fun before after => NoncesGrow before.ledger after.ledger) rest trivial ?_ ?_ ?_
  · exact fun state owner last present => ⟨last, present, BitVec.le_refl last⟩
  · intro first second third grow more owner last present
    obtain ⟨next, stored, larger⟩ := grow owner last present
    obtain ⟨final, kept, largest⟩ := more owner next stored
    exact ⟨final, kept, BitVec.le_trans larger largest⟩
  · exact fun before op after _ _ step => ⟨trivial, (LedgerBook.accepted_of_step? step).noncesGrow⟩

section Witness

private def ownerKey : Text :=
  hexText 64 0x989c0b76cb563971fdc9bef31ec06c3560f3249d6ee9e5d83c57625596e05f6f

private def ownerSigningHash : Text :=
  hexText 64 0x4f2e3ffdb738f3f6cec6b37ed158b68342273f6116ddb3d953fb601a22b960dd

private def ownerSignature : Text :=
  hexText 64 0xed2d774413d963623169b747d0d6db1582ebb96702c7c8ae70dc8bd406295075 ++
    hexText 64 0x4b6c726c8fa2f417355808ac9d2f50427436749a269f75ada22cfced04244574

private def ownerRequest : WithdrawalRequest :=
  { requestId := "withdrawal-1".toList
    claimOwnerId := ownerKey
    claimOwnerPubkeyHex := ownerKey
    destinationScriptHex := hexText 44 0x00141111111111111111111111111111111111111111
    amountSats := 20000
    maxFeeRateSatVb := 10
    nonce := 1
    expiryHeight := 1000
    signatureHex := some ownerSignature
    outputKind := .p2wpkh }

/-- The request's signing digest and the owner's signature over it. -/
private def ownerCrypto : Crypto := .ofTables
  { sha256Tagged := [(.withdrawalRequest
      { requestId := ownerRequest.requestId
        claimOwnerId := ownerKey
        claimOwnerPubkeyHex := ownerKey
        destinationScriptHex := ownerRequest.destinationScriptHex
        amountSats := 20000
        maxFeeRateSatVb := 10
        nonce := 1
        expiryHeight := 1000
        outputKind := .p2wpkh }, ownerSigningHash)]
    publicKeys := [ownerKey]
    signatures := [(ownerSignature, ownerSigningHash, ownerKey)] }

/-- A credit, a signed reservation, its payment, and a second credit. -/
private def ownerOps : List LedgerOp :=
  [.applyVaultAllocation { minerId := "alice".toList, claimOwnerId := ownerKey, amountSats := 50000 },
    .reserveWithdrawal ownerRequest 500 100,
    .markPaid ownerRequest.requestId,
    .applyVaultAllocation { minerId := "alice".toList, claimOwnerId := ownerKey, amountSats := 7000 }]

theorem claim_ledger_conservation_reserved_and_paid :
    ∃ book, run? (LedgerBook.step? ownerCrypto) {} ownerOps = some book ∧
      totalBalances book.ledger + totalPending book.ledger + totalGross book.paid =
        totalCredited book.credited := by
  have runs : (run? (LedgerBook.step? ownerCrypto) {} ownerOps).isSome = true := by decide +kernel
  obtain ⟨book, run⟩ := Option.isSome_iff_exists.mp runs
  exact ⟨book, run, (claim_ledger_conservation ownerCrypto ownerOps book run).1⟩

end Witness

end P2PoolBTC.Soundness
