import P2PoolBTC.Soundness.PayoutComponents

/-! # Conservation of payouts

Both halves of a reward are spent exactly. The vault output, computed as the reward minus the
direct payouts, is therefore the sum of the vault allocations, and a built schedule passes its own
validation.
-/

namespace P2PoolBTC.Soundness

open Math Model.Core Std

/-- Ranking fails only where a balance and its reward overflow. -/
theorem rankAccounts_spec (paid : List (ParticipantAccount × Sats)) :
    (∃ ranked, rankAccounts paid = .ok ranked) ∨
    (rankAccounts paid = .error .amountOverflow ∧
      ∃ entry ∈ paid, 2 ^ 64 ≤ entry.1.unpaidSats.toNat + entry.2.toNat) := by
  induction paid with
  | nil => exact .inl ⟨[], rfl⟩
  | cons entry rest ih =>
    obtain ⟨account, delta⟩ := entry
    cases sum : checkedAdd account.unpaidSats delta with
    | none =>
      right
      refine ⟨?_, (account, delta), by simp, checkedAdd_eq_none.mp sum⟩
      simp only [rankAccounts, sum, okOr_none, except_error_bind]
    | some rankBalance =>
      rcases ih with ⟨ranked, returned⟩ | ⟨stopped, other, member, overflow⟩
      · left
        refine ⟨{ account, delta, rankBalance } :: ranked, ?_⟩
        simp only [rankAccounts, sum, okOr_some, except_ok_bind, returned]
        rfl
      · right
        refine ⟨?_, other, List.mem_cons_of_mem _ member, overflow⟩
        simp only [rankAccounts, sum, okOr_some, except_ok_bind, stopped, except_error_bind]

section Schedules

/-- The miners a schedule pays, in the coinbase or on the vault. -/
def paidMiners (schedule : PayoutSchedule) : List Text :=
  schedule.directOutputs.map DirectPayout.minerId ++ schedule.vaultAllocations.map VaultAllocation.minerId

/-- What a schedule pays in the coinbase. -/
def directSats (schedule : PayoutSchedule) : ℕ :=
  totalSats (schedule.directOutputs.map DirectPayout.amountSats)

/-- What a schedule allocates on the vault. -/
def vaultSats (schedule : PayoutSchedule) : ℕ :=
  totalSats (schedule.vaultAllocations.map VaultAllocation.amountSats)

theorem totalSats_perm {left right : List Sats} (permuted : left.Perm right) :
    totalSats left = totalSats right :=
  (permuted.map BitVec.toNat).sum_eq

variable (selected : List Text)

/-- The entries paid in the coinbase and those paid on the vault are those with a reward. -/
private theorem entries_perm (paid : List (ParticipantAccount × Sats)) :
    (paid.filter (fun entry => entry.2 ≠ 0 ∧ entry.1.minerId ∈ selected) ++
      paid.filter fun entry => entry.2 ≠ 0 ∧ entry.1.minerId ∉ selected).Perm
    (paid.filter fun entry => entry.2 ≠ 0) := by
  have parts := List.filter_append_perm (fun entry : ParticipantAccount × Sats => entry.1.minerId ∈ selected)
    (paid.filter fun entry => entry.2 ≠ 0)
  simpa [List.filter_filter, and_comm] using parts

private theorem totalSats_rewarded (paid : List (ParticipantAccount × Sats)) :
    totalSats ((paid.filter fun entry => entry.2 ≠ 0).map Prod.snd) = totalSats (paid.map Prod.snd) := by
  induction paid with
  | nil => rfl
  | cons entry rest ih =>
    rw [List.filter_cons]
    split_ifs with rewarded
    · simpa [totalSats] using ih
    · have zero : entry.2 = 0 := by simpa using rewarded
      simpa [totalSats, zero] using ih

/-- Every reward is paid in the coinbase or on the vault. -/
theorem totalSats_directPayouts_add_vaultPayouts (paid : List (ParticipantAccount × Sats)) :
    totalSats ((directPayouts selected paid).map DirectPayout.amountSats) +
      totalSats ((vaultPayouts selected paid).map VaultAllocation.amountSats) =
    totalSats (paid.map Prod.snd) := by
  rw [← totalSats_rewarded, ← totalSats_perm ((entries_perm selected paid).map Prod.snd)]
  simp [totalSats, directPayouts, vaultPayouts, Function.comp_def]

/-- The miners paid are those with a reward. -/
theorem paid_perm (paid : List (ParticipantAccount × Sats)) :
    ((directPayouts selected paid).map DirectPayout.minerId ++
      (vaultPayouts selected paid).map VaultAllocation.minerId).Perm
    ((paid.filter fun entry => entry.2 ≠ 0).map fun entry => entry.1.minerId) := by
  simpa [directPayouts, vaultPayouts, Function.comp_def] using
    (entries_perm selected paid).map fun entry => entry.1.minerId

theorem isCanonicallyOrdered_of_pairwise {α : Type} {cmp : α → α → Ordering} {entries : List α}
    (sorted : entries.Pairwise fun left right => (cmp left right).isLE = true) :
    isCanonicallyOrdered cmp entries = true := by
  fun_induction isCanonicallyOrdered cmp entries with
  | case1 first second rest ih =>
    obtain ⟨ahead, tail⟩ := List.pairwise_cons.mp sorted
    rw [ahead second List.mem_cons_self, ih tail]
    rfl
  | case2 => rfl

private theorem directOutputs_ordered (outputs : List DirectPayout) :
    isCanonicallyOrdered compareDirectOutputs (sortBy compareDirectOutputs outputs) = true := by
  have amounts : TransCmp fun left right : DirectPayout => compare right.amountSats left.amountSats :=
    transCmp_reverse compare DirectPayout.amountSats
  have : TransCmp compareDirectOutputs := by
    unfold compareDirectOutputs
    infer_instance
  exact isCanonicallyOrdered_of_pairwise (sortBy_pairwise _ outputs)

private theorem vaultAllocations_ordered (allocations : List VaultAllocation) :
    isCanonicallyOrdered compareVaultAllocations (sortBy compareVaultAllocations allocations) = true := by
  have : TransCmp compareVaultAllocations := by
    unfold compareVaultAllocations
    infer_instance
  exact isCanonicallyOrdered_of_pairwise (sortBy_pairwise _ allocations)

theorem canonicalAccounts_perm (accounts : List ParticipantAccount) :
    (canonicalAccounts accounts).Perm (accounts.map ParticipantAccount.normalized) :=
  sortBy_perm _ _

theorem canonicalAccounts_minerIds (accounts : List ParticipantAccount) :
    ((canonicalAccounts accounts).map ParticipantAccount.minerId).Perm
      (accounts.map fun account => toAsciiLowercase account.minerId) := by
  have ids := (canonicalAccounts_perm accounts).map ParticipantAccount.minerId
  rwa [List.map_map] at ids

private theorem canonicalAccounts_lowercase {accounts : List ParticipantAccount} {account : ParticipantAccount}
    (member : account ∈ canonicalAccounts accounts) :
    toAsciiLowercase account.minerId = account.minerId := by
  obtain ⟨raw, -, rfl⟩ := List.mem_map.mp ((canonicalAccounts_perm accounts).mem_iff.mp member)
  simp [ParticipantAccount.normalized]

/-- A schedule that splits the given rewards between the coinbase and the vault. -/
structure BuiltFrom (crypto : Crypto) (paid : List (ParticipantAccount × Sats)) (rewardSats : Sats)
    (schedule : PayoutSchedule) : Prop where
  outputs : ∃ selected,
    schedule.directOutputs = sortBy compareDirectOutputs (directPayouts selected paid) ∧
    schedule.vaultAllocations = sortBy compareVaultAllocations (vaultPayouts selected paid)
  vaultOutput : schedule.vaultOutputSats.toNat + directSats schedule = rewardSats.toNat
  root : schedule.payoutRoot = schedule.expectedPayoutRoot crypto

namespace BuiltFrom

variable {crypto : Crypto} {paid : List (ParticipantAccount × Sats)} {rewardSats : Sats}
  {schedule : PayoutSchedule}
variable (built : BuiltFrom crypto paid rewardSats schedule)
include built

theorem sats_eq : directSats schedule + vaultSats schedule = totalSats (paid.map Prod.snd) := by
  obtain ⟨selected, direct, vault⟩ := built.outputs
  rw [directSats, vaultSats, direct, vault, totalSats_perm ((sortBy_perm _ _).map _),
    totalSats_perm ((sortBy_perm _ _).map _), totalSats_directPayouts_add_vaultPayouts]

theorem paidMiners_perm : (paidMiners schedule).Perm
      ((paid.filter fun entry => entry.2 ≠ 0).map fun entry => entry.1.minerId) := by
  obtain ⟨selected, direct, vault⟩ := built.outputs
  rw [paidMiners, direct, vault]
  exact (((sortBy_perm _ _).map _).append ((sortBy_perm _ _).map _)).trans (paid_perm selected paid)

theorem paidMiners_nodup (distinct : (paid.map fun entry => entry.1.minerId).Nodup) : (paidMiners schedule).Nodup :=
  built.paidMiners_perm.nodup_iff.mpr (distinct.sublist (List.filter_sublist.map _))

private theorem not_mem_paidMiners
    (distinct : (paid.map fun entry => entry.1.minerId).Nodup) {entry : ParticipantAccount × Sats}
    (member : entry ∈ paid) (zero : entry.2 = 0) : entry.1.minerId ∉ paidMiners schedule := by
  intro listed
  obtain ⟨other, kept, same⟩ := List.mem_map.mp (built.paidMiners_perm.mem_iff.mp listed)
  obtain ⟨present, rewarded⟩ := List.mem_filter.mp kept
  have entry_eq := List.inj_on_of_nodup_map distinct present member same
  subst entry_eq
  simp [zero] at rewarded

private theorem amounts_ne_zero : (∀ output ∈ schedule.directOutputs, output.amountSats ≠ 0) ∧
      ∀ allocation ∈ schedule.vaultAllocations, allocation.amountSats ≠ 0 := by
  obtain ⟨selected, direct, vault⟩ := built.outputs
  rw [direct, vault]
  constructor
  · intro output member
    obtain ⟨entry, kept, rfl⟩ := List.mem_map.mp ((mem_sortBy _).mp member)
    exact (of_decide_eq_true (List.mem_filter.mp kept).2).1
  · intro allocation member
    obtain ⟨entry, kept, rfl⟩ := List.mem_map.mp ((mem_sortBy _).mp member)
    exact (of_decide_eq_true (List.mem_filter.mp kept).2).1

/-- A schedule built from canonical accounts passes its validation. -/
theorem validate (distinct : (paid.map fun entry => entry.1.minerId).Nodup)
    (lowercase : ∀ entry ∈ paid, toAsciiLowercase entry.1.minerId = entry.1.minerId)
    (total : totalSats (paid.map Prod.snd) = rewardSats.toNat) : schedule.validate crypto = .ok () := by
  have folded : ∀ minerId ∈ paidMiners schedule, toAsciiLowercase minerId = minerId := by
    intro minerId listed
    obtain ⟨entry, kept, rfl⟩ := List.mem_map.mp (built.paidMiners_perm.mem_iff.mp listed)
    exact lowercase entry (List.mem_filter.mp kept).1
  have directIds : (schedule.directOutputs.map fun output => toAsciiLowercase output.minerId) =
      schedule.directOutputs.map DirectPayout.minerId :=
    List.map_congr_left fun output member =>
      folded _ (List.mem_append_left _ (List.mem_map_of_mem member))
  have vaultIds : (schedule.vaultAllocations.map fun allocation => toAsciiLowercase allocation.minerId) =
      schedule.vaultAllocations.map VaultAllocation.minerId :=
    List.map_congr_left fun allocation member =>
      folded _ (List.mem_append_right _ (List.mem_map_of_mem member))
  obtain ⟨directNodup, vaultNodup, disjoint⟩ := List.nodup_append.mp (built.paidMiners_nodup distinct)
  have sums := built.sats_eq
  have output := built.vaultOutput
  have vaultTotal : checkedSum (schedule.vaultAllocations.map VaultAllocation.amountSats) =
      some schedule.vaultOutputSats := by
    rw [checkedSum_eq_some]
    exact (by omega : schedule.vaultOutputSats.toNat = vaultSats schedule)
  have apart : ∀ minerId ∈ schedule.directOutputs.map DirectPayout.minerId,
      minerId ∉ schedule.vaultAllocations.map VaultAllocation.minerId :=
    fun minerId left right => disjoint minerId left minerId right rfl
  obtain ⟨selected, direct, vault⟩ := built.outputs
  unfold PayoutSchedule.validate
  simp only [directIds, vaultIds, require_of_true built.root, require_of_true built.amounts_ne_zero,
    require_of_true (direct ▸ directOutputs_ordered (directPayouts selected paid)),
    require_of_true (vault ▸ vaultAllocations_ordered (vaultPayouts selected paid)),
    require_of_true directNodup, require_of_true vaultNodup, require_of_true apart, except_ok_bind, sumSats,
    vaultTotal, okOr_some]
  exact require_of_true trivial _

end BuiltFrom

/-- Why no schedule is built. -/
inductive BuildFailure (accounts : List ParticipantAccount) (rewardSats : Sats) : PayoutError → Prop where
  | hashrate {reason : PayoutError} (failure : ComponentFailure
      (accounts.map ParticipantAccount.hashrateScore) (rewardSats / 2) "hashrate" reason) :
      BuildFailure accounts rewardSats reason
  | idena {reason : PayoutError} (failure : ComponentFailure
      (accounts.map ParticipantAccount.idenaScore) (rewardSats - rewardSats / 2) "idena" reason) :
      BuildFailure accounts rewardSats reason
  | balance {deltas : List Sats} (rewards : rewardDeltas (canonicalAccounts accounts) rewardSats = .ok deltas)
      (entry : ParticipantAccount × Sats) (member : entry ∈ (canonicalAccounts accounts).zip deltas)
      (overflow : 2 ^ 64 ≤ entry.1.unpaidSats.toNat + entry.2.toNat) :
      BuildFailure accounts rewardSats .amountOverflow

private theorem ComponentFailure.of_perm {left right : List Score} {pool : Sats} {component : String}
    {reason : PayoutError} (failure : ComponentFailure left pool component reason)
    (permuted : left.Perm right) : ComponentFailure right pool component reason := by
  have total : totalScores left = totalScores right := (permuted.map BitVec.toNat).sum_eq
  cases failure with
  | scoreOverflow overflow => exact .scoreOverflow (total ▸ overflow)
  | scoreMultiplicationOverflow factor member overflow =>
    exact .scoreMultiplicationOverflow factor (permuted.mem_iff.mp member) overflow
  | zeroScorePool nonempty zero => exact .zeroScorePool nonempty (total ▸ zero)

private theorem canonicalAccounts_scores (accounts : List ParticipantAccount) (score : ParticipantAccount → Score)
    (unchanged : ∀ account : ParticipantAccount, score account.normalized = score account) :
    ((canonicalAccounts accounts).map score).Perm (accounts.map score) := by
  have scores := (canonicalAccounts_perm accounts).map score
  rwa [List.map_map, Function.comp_def, List.map_congr_left fun account _ => unchanged account] at scores

/-- A schedule is built from the rewards of the canonical accounts, or the build fails for one of the
reasons above. -/
theorem buildPayoutSchedule_spec (crypto : Crypto) (accounts : List ParticipantAccount) (rewardSats : Sats)
    (directLimit : U64) (minDirectPayout : Sats) :
    (∃ deltas schedule, rewardDeltas (canonicalAccounts accounts) rewardSats = .ok deltas ∧
      deltas.length = (canonicalAccounts accounts).length ∧ totalSats deltas = rewardSats.toNat ∧
      buildPayoutSchedule crypto accounts rewardSats directLimit minDirectPayout = .ok schedule ∧
      BuiltFrom crypto ((canonicalAccounts accounts).zip deltas) rewardSats schedule) ∨
    (∃ reason, buildPayoutSchedule crypto accounts rewardSats directLimit minDirectPayout = .error reason ∧
      BuildFailure accounts rewardSats reason) := by
  unfold buildPayoutSchedule
  rcases rewardDeltas_spec (canonicalAccounts accounts) rewardSats with
    ⟨deltas, rewards, shares⟩ | ⟨reason, stopped, failure | failure⟩
  · obtain ⟨length, total⟩ := shares.spent
    rcases rankAccounts_spec ((canonicalAccounts accounts).zip deltas) with
      ⟨ranked, returned⟩ | ⟨stopped, entry, member, overflow⟩
    · left
      set paid := (canonicalAccounts accounts).zip deltas with paid_eq
      set selected := selectDirect ranked directLimit minDirectPayout with selected_eq
      have amounts : paid.map Prod.snd = deltas := List.map_snd_zip length.le
      have split := totalSats_directPayouts_add_vaultPayouts selected paid
      have sorted := totalSats_perm ((sortBy_perm compareDirectOutputs (directPayouts selected paid)).map
        DirectPayout.amountSats)
      rw [amounts, total] at split
      have bound := rewardSats.isLt
      obtain ⟨directTotal, summed, direct_eq⟩ := exists_checkedSum
        ((sortBy compareDirectOutputs (directPayouts selected paid)).map DirectPayout.amountSats)
        (by rw [← totalSats]; omega)
      rw [← totalSats] at direct_eq
      obtain ⟨vaultOutputSats, rest, rest_eq⟩ := exists_checkedSub rewardSats directTotal (by omega)
      let directOutputs := sortBy compareDirectOutputs (directPayouts selected paid)
      let vaultAllocations := sortBy compareVaultAllocations (vaultPayouts selected paid)
      let payoutRoot := merkleRoot crypto [.merklePayoutLeaf { directOutputs, vaultAllocations, vaultOutputSats }]
      refine ⟨deltas, { directOutputs, vaultAllocations, vaultOutputSats, payoutRoot }, rewards, length, total,
        ?_, ⟨selected, rfl, rfl⟩, ?_, rfl⟩
      · simp only [rewards, except_ok_bind, ← paid_eq, returned, ← selected_eq, sumSats, summed,
          okOr_some, rest]
        rfl
      · rw [rest_eq, direct_eq]
        rfl
    · right
      refine ⟨.amountOverflow, ?_, .balance rewards entry member overflow⟩
      simp only [rewards, except_ok_bind, stopped, except_error_bind]
  · right
    refine ⟨reason, ?_, .hashrate (failure.of_perm (canonicalAccounts_scores accounts _ fun _ => rfl))⟩
    simp only [stopped, except_error_bind]
  · right
    refine ⟨reason, ?_, .idena (failure.of_perm (canonicalAccounts_scores accounts _ fun _ => rfl))⟩
    simp only [stopped, except_error_bind]

/-- A built schedule pays exactly the reward, each account at most once and none without a reward,
and validates; a build fails only where a sum or product overflows or a pool has nobody to pay. -/
theorem build_payout_schedule_conserves (crypto : Crypto) (accounts : List ParticipantAccount)
    (rewardSats : Sats) (directLimit : U64) (minDirectPayout : Sats)
    (distinct : (accounts.map fun account => toAsciiLowercase account.minerId).Nodup) :
    (∀ schedule, buildPayoutSchedule crypto accounts rewardSats directLimit minDirectPayout = .ok schedule →
      directSats schedule + vaultSats schedule = rewardSats.toNat ∧
      schedule.vaultOutputSats.toNat = vaultSats schedule ∧
      (paidMiners schedule).Nodup ∧
      (∃ deltas, rewardDeltas (canonicalAccounts accounts) rewardSats = .ok deltas ∧
        deltas.length = (canonicalAccounts accounts).length ∧
        ∀ entry ∈ (canonicalAccounts accounts).zip deltas,
          entry.2 = 0 → entry.1.minerId ∉ paidMiners schedule) ∧
      schedule.validate crypto = .ok ()) ∧
    (∀ reason, buildPayoutSchedule crypto accounts rewardSats directLimit minDirectPayout = .error reason →
      BuildFailure accounts rewardSats reason) := by
  rcases buildPayoutSchedule_spec crypto accounts rewardSats directLimit minDirectPayout with
    ⟨deltas, schedule, rewards, length, total, returned, built⟩ | ⟨reason, returned, failure⟩
  · have amounts : ((canonicalAccounts accounts).zip deltas).map Prod.snd = deltas :=
      List.map_snd_zip length.le
    have ids : (((canonicalAccounts accounts).zip deltas).map fun entry => entry.1.minerId) =
        (canonicalAccounts accounts).map ParticipantAccount.minerId := by
      conv_rhs => rw [← List.map_fst_zip length.ge, List.map_map]
      rfl
    have nodup : (((canonicalAccounts accounts).zip deltas).map fun entry => entry.1.minerId).Nodup := by
      rw [ids]
      exact (canonicalAccounts_minerIds accounts).nodup_iff.mpr distinct
    refine ⟨?_, fun reason failed => (by rw [returned] at failed; cases failed)⟩
    intro other otherReturned
    obtain rfl : schedule = other := Except.ok.inj (returned.symm.trans otherReturned)
    have sums := built.sats_eq
    have output := built.vaultOutput
    rw [amounts, total] at sums
    refine ⟨sums, by omega, built.paidMiners_nodup nodup, ⟨deltas, rewards, length, ?_⟩, ?_⟩
    · exact fun entry member zero => built.not_mem_paidMiners nodup member zero
    · apply built.validate nodup _ (by rw [amounts, total])
      exact fun entry member => canonicalAccounts_lowercase (List.of_mem_zip member).1
  · refine ⟨fun schedule built => (by rw [returned] at built; cases built), ?_⟩
    intro other otherReturned
    obtain rfl : reason = other := Except.error.inj (returned.symm.trans otherReturned)
    exact failure

end Schedules

section Witness

/-- Three miners: Carol has no score. -/
def threeAccounts : List ParticipantAccount :=
  [{ minerId := "Alice".toList
     btcPayoutScriptHex := hexText 44 0x00141111111111111111111111111111111111111111
     claimOwnerId := "alice-claims".toList
     unpaidSats := 500
     hashrateScore := 1
     idenaScore := 1 },
   { minerId := "carol".toList
     btcPayoutScriptHex := hexText 44 0x00143333333333333333333333333333333333333333
     claimOwnerId := "carol-claims".toList
     unpaidSats := 0
     hashrateScore := 0
     idenaScore := 0 },
   { minerId := "bob".toList
     btcPayoutScriptHex := hexText 44 0x00142222222222222222222222222222222222222222
     claimOwnerId := "bob-claims".toList
     unpaidSats := 0
     hashrateScore := 2
     idenaScore := 1 }]

def threeRoot : Text :=
  hexText 64 0xdaaad3272347fc507f4371dc2f0221bb4771d40da91177097a1539b8f5a34ee3

/-- One coinbase payout to Bob, the rest on the vault. -/
def threeSchedule : PayoutSchedule :=
  { directOutputs := [{
      minerId := "bob".toList
      btcPayoutScriptHex := hexText 44 0x00142222222222222222222222222222222222222222
      amountSats := 58333 }]
    vaultAllocations := [{
      minerId := "alice".toList
      claimOwnerId := "alice-claims".toList
      amountSats := 41668 }]
    vaultOutputSats := 41668
    payoutRoot := threeRoot }

def threeCrypto : Crypto := .ofTables
  { sha256Tagged := [(.merklePayoutLeaf
      { directOutputs := threeSchedule.directOutputs
        vaultAllocations := threeSchedule.vaultAllocations
        vaultOutputSats := 41668 }, threeRoot)] }

theorem threeSchedule_built : buildPayoutSchedule threeCrypto threeAccounts 100001 1 10000 = .ok threeSchedule := by
  decide

theorem threeAccounts_distinct : (threeAccounts.map fun account => toAsciiLowercase account.minerId).Nodup := by
  decide

theorem build_payout_schedule_conserves_three_accounts :
    buildPayoutSchedule threeCrypto threeAccounts 100001 1 10000 = .ok threeSchedule ∧
      directSats threeSchedule + vaultSats threeSchedule = 100001 ∧
      threeSchedule.validate threeCrypto = .ok () := by
  have conserved := (build_payout_schedule_conserves threeCrypto threeAccounts 100001 1 10000
    threeAccounts_distinct).1 threeSchedule threeSchedule_built
  exact ⟨threeSchedule_built, conserved.1, conserved.2.2.2.2⟩

end Witness

end P2PoolBTC.Soundness
