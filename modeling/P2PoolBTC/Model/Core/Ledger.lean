import P2PoolBTC.Model.Core.Withdrawal

/-! # The claim ledger

Vault allocations credit claim balances, a withdrawal reservation moves its gross amount from
the owner's balance to the pending withdrawals, and a payment removes a pending withdrawal.
Balances and nonces are kept per lower-cased owner, pending withdrawals per request identifier.
-/

namespace P2PoolBTC.Model.Core

open Math Std

inductive LedgerError where
  | insufficientBalance (claimOwnerId : Text) (requestedSats availableSats : Sats)
  | duplicateWithdrawal (requestId : Text)
  | staleNonce (claimOwnerId : Text) (nonce lastNonce : U64)
  | balanceOverflow (claimOwnerId : Text)
  | invalidWithdrawal (error : WithdrawalError)
deriving DecidableEq

namespace ClaimLedger

def balance (ledger : ClaimLedger) (claimOwnerId : Text) : Sats :=
  ledger.balances.getD (toAsciiLowercase claimOwnerId) 0

/-- The entry of the owner is created before the addition is checked. -/
def applyVaultAllocation (allocation : VaultAllocation) : Routine ClaimLedger LedgerError Unit := do
  let ledger ← get
  let key := toAsciiLowercase allocation.claimOwnerId
  let entry := ledger.balances.getD key 0
  set { ledger with balances := ledger.balances.insert key entry }
  let credited ← attempt (okOr (checkedAdd entry allocation.amountSats) (.balanceOverflow key))
  set { ledger with balances := ledger.balances.insert key credited }

def applyVaultAllocations : List VaultAllocation → Routine ClaimLedger LedgerError Unit
  | [] => pure ()
  | allocation :: rest => do
    applyVaultAllocation allocation
    applyVaultAllocations rest

def applyPayoutSchedule (schedule : PayoutSchedule) : Routine ClaimLedger LedgerError Unit :=
  applyVaultAllocations schedule.vaultAllocations

/-- The checks a reservation passes before it changes the ledger. -/
def validateReservation (crypto : Crypto) (ledger : ClaimLedger) (request : WithdrawalRequest) (feeSats : Sats)
    (currentHeight : U64) : Except LedgerError Unit := do
  (request.validate crypto currentHeight).mapError .invalidWithdrawal
  let key := toAsciiLowercase request.claimOwnerId
  let available := ledger.balance key
  require (request.amountSats ≤ available) (.insufficientBalance key request.amountSats available)
  require (request.requestId ∉ ledger.pendingWithdrawals) (.duplicateWithdrawal request.requestId)
  require (feeSats < request.amountSats)
    (.invalidWithdrawal (.feeExceedsAmount request.requestId request.amountSats feeSats))
  (validateDestinationScriptPolicy crypto request.requestId request.destinationScriptHex
    request.outputKind (request.amountSats - feeSats)).mapError .invalidWithdrawal
  let lastNonce := ledger.lastWithdrawalNonceByOwner[key]?
  require (lastNonce.all (· < request.nonce) = true)
    (.staleNonce key request.nonce (lastNonce.getD 0))

/-- The pending entry a reservation creates. -/
def pendingOf (request : WithdrawalRequest) (feeSats : Sats) : PendingWithdrawal :=
  { requestId := request.requestId
    claimOwnerId := toAsciiLowercase request.claimOwnerId
    grossAmountSats := request.amountSats
    feeSats
    netAmountSats := request.amountSats - feeSats }

/-- The ledger after a reservation. -/
def reserved (ledger : ClaimLedger) (request : WithdrawalRequest) (feeSats : Sats) : ClaimLedger :=
  let key := toAsciiLowercase request.claimOwnerId
  { balances := ledger.balances.insert key (ledger.balances.getD key 0 - request.amountSats)
    pendingWithdrawals := ledger.pendingWithdrawals.insert request.requestId (pendingOf request feeSats)
    lastWithdrawalNonceByOwner := ledger.lastWithdrawalNonceByOwner.insert key request.nonce }

def reserveWithdrawal (crypto : Crypto) (request : WithdrawalRequest) (feeSats : Sats) (currentHeight : U64) :
    Routine ClaimLedger LedgerError PendingWithdrawal := do
  let ledger ← get
  attempt (ledger.validateReservation crypto request feeSats currentHeight)
  set (ledger.reserved request feeSats)
  return pendingOf request feeSats

/-- Remove a pending withdrawal, if there is one. -/
def markPaid (requestId : Text) : Routine ClaimLedger LedgerError (Option PendingWithdrawal) := do
  let ledger ← get
  set { ledger with pendingWithdrawals := ledger.pendingWithdrawals.erase requestId }
  return ledger.pendingWithdrawals[requestId]?

variable {crypto : Crypto} {ledger later : ClaimLedger} {request : WithdrawalRequest}
  {feeSats : Sats} {currentHeight : U64}

/-- A credit that returns adds exactly its amount to one balance. -/
theorem applyVaultAllocation_ok {allocation : VaultAllocation} {done : Unit}
    (returned : applyVaultAllocation allocation ledger = .ok done later) :
    ∃ credited : Sats,
      credited.toNat =
        (ledger.balances.getD (toAsciiLowercase allocation.claimOwnerId) 0).toNat +
          allocation.amountSats.toNat ∧
      later = { ledger with
        balances := ledger.balances.insert (toAsciiLowercase allocation.claimOwnerId) credited } := by
  simp only [applyVaultAllocation, Routine.bind_eq_ok, Routine.get_apply, Routine.set_apply,
    Routine.attempt_eq_ok, okOr_eq_ok, EStateM.Result.ok.injEq] at returned
  obtain ⟨_, _, ⟨rfl, rfl⟩, _, _, ⟨_, rfl⟩, credited, _, ⟨sum, rfl⟩, _, rfl⟩ := returned
  exact ⟨credited, checkedAdd_eq_some.mp sum, rfl⟩

/-- A reservation returns exactly when its checks pass. -/
theorem reserveWithdrawal_ok {pending : PendingWithdrawal} :
    reserveWithdrawal crypto request feeSats currentHeight ledger = .ok pending later ↔
      ledger.validateReservation crypto request feeSats currentHeight = .ok () ∧
        pending = pendingOf request feeSats ∧ later = ledger.reserved request feeSats := by
  simp only [reserveWithdrawal, Routine.bind_eq_ok, Routine.get_apply, Routine.set_apply,
    Routine.attempt_eq_ok, Routine.pure_apply, EStateM.Result.ok.injEq]
  constructor
  · rintro ⟨_, _, ⟨rfl, rfl⟩, _, _, ⟨valid, rfl⟩, _, _, ⟨_, rfl⟩, rfl, rfl⟩
    exact ⟨valid, rfl, rfl⟩
  · rintro ⟨valid, rfl, rfl⟩
    exact ⟨ledger, ledger, ⟨rfl, rfl⟩, (), ledger, ⟨valid, rfl⟩, ⟨⟩, _, ⟨trivial, rfl⟩, rfl, rfl⟩

/-- What the checks of a reservation establish. -/
structure ReservationChecked (ledger : ClaimLedger) (request : WithdrawalRequest) (feeSats : Sats) :
    Prop where
  funded : request.amountSats.toNat ≤
    (ledger.balances.getD (toAsciiLowercase request.claimOwnerId) 0).toNat
  fresh : ledger.pendingWithdrawals[request.requestId]? = none
  fee_lt : feeSats.toNat < request.amountSats.toNat
  nonce_lt : ∀ last,
    ledger.lastWithdrawalNonceByOwner[toAsciiLowercase request.claimOwnerId]? = some last →
      last.toNat < request.nonce.toNat

theorem reservationChecked_of_validate {done : Unit}
    (valid : ledger.validateReservation crypto request feeSats currentHeight = .ok done) :
    ReservationChecked ledger request feeSats := by
  simp only [validateReservation, except_bind_eq_ok, require_eq_ok, balance, toAsciiLowercase_idem] at valid
  obtain ⟨_, _, _, funded, _, fresh, _, feeBound, _, _, nonces⟩ := valid
  refine ⟨BitVec.le_def.mp funded, ExtTreeMap.getElem?_eq_none fresh, BitVec.lt_def.mp feeBound, ?_⟩
  intro last present
  rw [present, Option.all_some, decide_eq_true_eq] at nonces
  exact BitVec.lt_def.mp nonces

end ClaimLedger

end P2PoolBTC.Model.Core
