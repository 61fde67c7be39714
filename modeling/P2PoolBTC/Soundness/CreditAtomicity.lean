import P2PoolBTC.Model.Core.Payout
import P2PoolBTC.Soundness.LedgerConservation

/-! # Credits that fail

A schedule credits its vault allocations one after the other. A credit that overflows leaves the ledger it found, and
that ledger has all earlier credits of the schedule.
-/

namespace P2PoolBTC.Soundness

open Math Model.Core Std

/-- The satoshis that allocations credit to one owner. -/
abbrev creditedTo (owner : Text) (allocations : List VaultAllocation) : ℕ :=
  sumFor (fun allocation : VaultAllocation => toAsciiLowercase allocation.claimOwnerId)
    (fun allocation => allocation.amountSats.toNat) owner allocations

section Credits

variable {ledger after : ClaimLedger} {fault : Fault LedgerError}

/-- Every owner's balance has room for what the allocations credit. -/
def Fits (ledger : ClaimLedger) (allocations : List VaultAllocation) : Prop :=
  ∀ owner, (ledger.balances.getD owner 0).toNat + creditedTo owner allocations < 2 ^ 64

/-- One credit returns exactly when the balance has room; otherwise the ledger is left alone. -/
theorem applyVaultAllocation_cases (ledger : ClaimLedger) (allocation : VaultAllocation) :
    (∃ credited : Sats, credited.toNat = (ledger.balances.getD (toAsciiLowercase allocation.claimOwnerId) 0).toNat +
        allocation.amountSats.toNat ∧
      ClaimLedger.applyVaultAllocation allocation ledger = .ok ()
        { ledger with balances := ledger.balances.insert (toAsciiLowercase allocation.claimOwnerId) credited }) ∨
    (2 ^ 64 ≤ (ledger.balances.getD (toAsciiLowercase allocation.claimOwnerId) 0).toNat + allocation.amountSats.toNat ∧
      ClaimLedger.applyVaultAllocation allocation ledger =
        .error (.error (.balanceOverflow (toAsciiLowercase allocation.claimOwnerId))) ledger) := by
  set key := toAsciiLowercase allocation.claimOwnerId with key_eq
  cases sum : checkedAdd (ledger.balances.getD key 0) allocation.amountSats with
  | some credited =>
    refine .inl ⟨credited, checkedAdd_eq_some.mp sum, ?_⟩
    simp only [ClaimLedger.applyVaultAllocation, Routine.get_bind, Routine.set_bind, ← key_eq, sum, okOr_some,
      Routine.attempt_ok, Routine.pure_bind_apply]
    rfl
  | none =>
    have overflow := checkedAdd_eq_none.mp sum
    refine .inr ⟨overflow, ?_⟩
    -- the balance is positive, so writing it back changes nothing
    have same : ledger.balances.insert key (ledger.balances.getD key 0) = ledger.balances := by
      rw [ExtTreeMap.getD_eq_getD_getElem?] at overflow ⊢
      cases entry : ledger.balances[key]? with
      | none =>
        rw [entry] at overflow
        have bounded := allocation.amountSats.isLt
        simp at overflow
        omega
      | some balance => exact insert_of_stored entry
    simp only [ClaimLedger.applyVaultAllocation, Routine.get_bind, Routine.set_bind, ← key_eq, sum, okOr_none,
      Routine.attempt_error, same]
    rfl

/-- After the first credit, the others fit if all of them did. -/
theorem fits_cons {allocation : VaultAllocation} {rest : List VaultAllocation} {credited : Sats}
    (sum : credited.toNat = (ledger.balances.getD (toAsciiLowercase allocation.claimOwnerId) 0).toNat +
      allocation.amountSats.toNat) :
    Fits ledger (allocation :: rest) ↔
      Fits { ledger with
        balances := ledger.balances.insert (toAsciiLowercase allocation.claimOwnerId) credited } rest := by
  unfold Fits creditedTo
  apply forall_congr'
  intro owner
  rw [sumFor_cons, ExtTreeMap.getD_insert]
  by_cases own : toAsciiLowercase allocation.claimOwnerId = owner
  · subst own
    simp only [ReflCmp.compare_self, if_true, sum]
    omega
  · have other : ¬ compare (toAsciiLowercase allocation.claimOwnerId) owner = .eq := by
      rwa [Std.compare_eq_iff_eq]
    simp only [if_neg own, if_neg other]
    omega

/-- Either all credits fit and are made, or they stop with at least as much on the balances as before. -/
theorem applyVaultAllocations_cases (allocations : List VaultAllocation) (ledger : ClaimLedger) :
    (Fits ledger allocations ∧ ∃ later, ClaimLedger.applyVaultAllocations allocations ledger = .ok () later) ∨
    (¬ Fits ledger allocations ∧ ∃ reason after,
      ClaimLedger.applyVaultAllocations allocations ledger = .error reason after ∧
        totalBalances ledger ≤ totalBalances after) := by
  induction allocations generalizing ledger with
  | nil =>
    refine .inl ⟨fun owner => ?_, ledger, rfl⟩
    have bounded := (ledger.balances.getD owner 0).isLt
    simpa [sumFor] using bounded
  | cons allocation rest ih =>
    rcases applyVaultAllocation_cases ledger allocation with ⟨credited, sum, returned⟩ | ⟨overflow, stopped⟩
    · have onward : ClaimLedger.applyVaultAllocations (allocation :: rest) ledger = _ := Routine.bind_of_ok returned
      rw [onward, fits_cons sum]
      rcases ih { ledger with
          balances := ledger.balances.insert (toAsciiLowercase allocation.claimOwnerId) credited } with
        done | ⟨crowded, reason, after, stopped, grown⟩
      · exact .inl done
      · have first := (totalBalances_credit returned).1
        exact .inr ⟨crowded, reason, after, stopped, by omega⟩
    · refine .inr ⟨fun fits => ?_, _, ledger, Routine.bind_of_error stopped, Nat.le_refl _⟩
      have room := fits (toAsciiLowercase allocation.claimOwnerId)
      rw [creditedTo, sumFor_cons, if_pos rfl] at room
      omega

/-- The first allocation already overflows the balance of its owner. -/
def FirstOverflows (ledger : ClaimLedger) (allocations : List VaultAllocation) : Prop :=
  ∃ allocation ∈ allocations.head?,
    2 ^ 64 ≤ (ledger.balances.getD (toAsciiLowercase allocation.claimOwnerId) 0).toNat + allocation.amountSats.toNat

/-- Nonzero credits that fail leave the ledger alone only when not even the first one is made. -/
theorem credits_atomic_iff {allocations : List VaultAllocation}
    (nonzero : ∀ allocation ∈ allocations, allocation.amountSats ≠ 0) :
    (∀ fault after, ClaimLedger.applyVaultAllocations allocations ledger = .error fault after → after = ledger) ↔
      Fits ledger allocations ∨ FirstOverflows ledger allocations := by
  constructor
  · intro atomic
    rcases applyVaultAllocations_cases allocations ledger with ⟨fits, -⟩ | ⟨-, reason, after, stopped, -⟩
    · exact .inl fits
    · cases allocations with
      | nil => cases stopped
      | cons allocation rest =>
        rcases applyVaultAllocation_cases ledger allocation with ⟨credited, sum, returned⟩ | ⟨overflow, -⟩
        · -- the first credit was made, and it is not taken back
          have unchanged := atomic reason after stopped
          have onward : ClaimLedger.applyVaultAllocations (allocation :: rest) ledger = _ := Routine.bind_of_ok returned
          have first := (totalBalances_credit returned).1
          have positive : 0 < allocation.amountSats.toNat := by
            rw [Nat.pos_iff_ne_zero]
            intro zero
            exact nonzero allocation (List.mem_cons_self ..) (BitVec.eq_of_toNat_eq zero)
          rw [onward] at stopped
          rcases applyVaultAllocations_cases rest { ledger with
              balances := ledger.balances.insert (toAsciiLowercase allocation.claimOwnerId) credited } with
            ⟨-, later, done⟩ | ⟨-, _, last, again, grown⟩
          · rw [done] at stopped
            cases stopped
          · rw [again] at stopped
            cases stopped
            rw [unchanged] at grown
            omega
        · exact .inr ⟨allocation, rfl, overflow⟩
  · rintro (fits | ⟨allocation, isFirst, overflow⟩) fault after stopped
    · rcases applyVaultAllocations_cases allocations ledger with ⟨-, later, done⟩ | ⟨crowded, -⟩
      · rw [done] at stopped
        cases stopped
      · exact absurd fits crowded
    · cases allocations with
      | nil => cases isFirst
      | cons head rest =>
        cases isFirst
        rcases applyVaultAllocation_cases ledger allocation with ⟨credited, sum, -⟩ | ⟨-, refused⟩
        · have bounded := credited.isLt
          omega
        · have whole : ClaimLedger.applyVaultAllocations (allocation :: rest) ledger = _ :=
            Routine.bind_of_error refused
          rw [whole] at stopped
          cases stopped
          rfl

end Credits

/-- A valid schedule that cannot be credited leaves the ledger as it was exactly when all its credits fit, so that it
does not fail, or the very first one overflows. -/
theorem apply_payout_schedule_atomic_iff (crypto : Crypto) (ledger : ClaimLedger) (schedule : PayoutSchedule)
    (valid : schedule.validate crypto = .ok ()) :
    (∀ fault after, ClaimLedger.applyPayoutSchedule schedule ledger = .error fault after →
        after.balances = ledger.balances ∧ after.pendingWithdrawals = ledger.pendingWithdrawals ∧
          after.lastWithdrawalNonceByOwner = ledger.lastWithdrawalNonceByOwner) ↔
      Fits ledger schedule.vaultAllocations ∨ FirstOverflows ledger schedule.vaultAllocations := by
  have nonzero : ∀ allocation ∈ schedule.vaultAllocations, allocation.amountSats ≠ 0 := by
    simp only [PayoutSchedule.validate, except_bind_eq_ok, require_eq_ok] at valid
    obtain ⟨_, -, _, ⟨-, amounts⟩, -⟩ := valid
    exact amounts
  rw [← credits_atomic_iff nonzero]
  apply forall₃_congr
  intro fault after _
  constructor
  · rintro ⟨balances, pending, nonces⟩
    cases after
    cases ledger
    congr
  · rintro rfl
    exact ⟨rfl, rfl, rfl⟩

section Samples

/-- A schedule that credits Alice and then Bob. -/
def pairSchedule : PayoutSchedule :=
  { directOutputs := []
    vaultAllocations :=
      [{ minerId := "alice".toList, claimOwnerId := "alice-claims".toList, amountSats := 30000 },
       { minerId := "bob".toList, claimOwnerId := "bob-claims".toList, amountSats := 20000 }]
    vaultOutputSats := 50000
    payoutRoot := hexText 64 0xeacf8fdf6b362b4ac3639c3eb490dde5e04c0ba13a3b24c3564d86d6691e4780 }

def pairCrypto : Crypto := .ofTables
  { sha256Tagged := [(.merklePayoutLeaf
      { directOutputs := pairSchedule.directOutputs
        vaultAllocations := pairSchedule.vaultAllocations
        vaultOutputSats := pairSchedule.vaultOutputSats }, pairSchedule.payoutRoot)] }

/-- A ledger on which one owner's balance is full. -/
def fullLedger (owner : Text) : ClaimLedger :=
  { balances := ExtTreeMap.empty.insert owner (BitVec.ofNat 64 (2 ^ 64 - 1)) }

theorem apply_payout_schedule_atomic_iff_pairSchedule :
    pairSchedule.validate pairCrypto = .ok () ∧
      FirstOverflows (fullLedger "alice-claims".toList) pairSchedule.vaultAllocations ∧
      ∀ fault after, ClaimLedger.applyPayoutSchedule pairSchedule (fullLedger "alice-claims".toList) =
        .error fault after →
        after.balances = (fullLedger "alice-claims".toList).balances := by
  have valid : pairSchedule.validate pairCrypto = .ok () := by decide
  have first : FirstOverflows (fullLedger "alice-claims".toList) pairSchedule.vaultAllocations :=
    ⟨_, rfl, by decide⟩
  refine ⟨valid, first, fun fault after stopped => ?_⟩
  exact ((apply_payout_schedule_atomic_iff pairCrypto _ pairSchedule valid).mpr (.inr first) fault after stopped).1

/-- Bob's balance is full: Alice's credit stays although the schedule is refused. -/
theorem half_credited : pairSchedule.validate pairCrypto = .ok () ∧
    ¬ ∀ fault after, ClaimLedger.applyPayoutSchedule pairSchedule (fullLedger "bob-claims".toList) =
      .error fault after →
      after.balances = (fullLedger "bob-claims".toList).balances := by
  refine ⟨by decide, fun atomic => ?_⟩
  have unchanged := atomic _ _ rfl
  have alice := congrArg (fun balances : ExtTreeMap Text Sats => balances["alice-claims".toList]?) unchanged
  revert alice
  decide

end Samples

end P2PoolBTC.Soundness
