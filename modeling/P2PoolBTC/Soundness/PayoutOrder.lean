import P2PoolBTC.Soundness.PayoutFairness

/-! # Payouts and the order of accounts

Accounts are put into normal form and sorted by miner before anything is computed, so neither their order nor the case
of their identifiers matters. The miners paid in the coinbase are the first of those with enough reward in the order
by balance, reward and miner.
-/

namespace P2PoolBTC.Soundness

open Math Model.Core Std

/-! ## Order and case of the accounts -/

/-- The same account but for the case of its identifiers. -/
structure Recased (account other : ParticipantAccount) : Prop where
  minerId : EqIgnoreAsciiCase account.minerId other.minerId
  btcPayoutScriptHex : EqIgnoreAsciiCase account.btcPayoutScriptHex other.btcPayoutScriptHex
  claimOwnerId : EqIgnoreAsciiCase account.claimOwnerId other.claimOwnerId
  unpaidSats : account.unpaidSats = other.unpaidSats
  hashrateScore : account.hashrateScore = other.hashrateScore
  idenaScore : account.idenaScore = other.idenaScore

private theorem Recased.normalized_eq {account other : ParticipantAccount} (recased : Recased account other) :
    account.normalized = other.normalized := by
  obtain ⟨minerId, script, owner, unpaid, hashrate, idena⟩ := recased
  cases account
  cases other
  simp only [ParticipantAccount.normalized, ParticipantAccount.mk.injEq]
  exact ⟨minerId, script, owner, unpaid, hashrate, idena⟩

private theorem map_normalized_of_recased {accounts others : List ParticipantAccount}
    (recased : List.Forall₂ Recased accounts others) :
    others.map ParticipantAccount.normalized = accounts.map ParticipantAccount.normalized := by
  induction recased with
  | nil => rfl
  | cons same _ ih => rw [List.map_cons, List.map_cons, same.normalized_eq, ih]

/-- Accounts of distinct miners have one canonical list, whatever their order and case. -/
theorem canonicalAccounts_eq {accounts permuted others : List ParticipantAccount}
    (distinct : (accounts.map fun account => toAsciiLowercase account.minerId).Nodup)
    (permutes : accounts.Perm permuted) (recased : List.Forall₂ Recased permuted others) :
    canonicalAccounts others = canonicalAccounts accounts := by
  have ids : ((accounts.map ParticipantAccount.normalized).map ParticipantAccount.minerId).Nodup := by
    rw [List.map_map]
    exact distinct
  rw [canonicalAccounts, canonicalAccounts, map_normalized_of_recased recased]
  refine (sortBy_eq_of_perm _ (permutes.map _) fun first firstListed second secondListed same => ?_).symm
  exact List.inj_on_of_nodup_map ids firstListed secondListed (Std.compare_eq_iff_eq.mp same)

/-- The result of building a schedule depends neither on the order of the accounts nor on the case of their
identifiers. -/
theorem build_payout_schedule_order_independent (crypto : Crypto) (accounts permuted others : List ParticipantAccount)
    (rewardSats : Sats) (directLimit : U64) (minDirectPayout : Sats)
    (distinct : (accounts.map fun account => toAsciiLowercase account.minerId).Nodup)
    (permutes : accounts.Perm permuted) (recased : List.Forall₂ Recased permuted others) :
    buildPayoutSchedule crypto others rewardSats directLimit minDirectPayout =
      buildPayoutSchedule crypto accounts rewardSats directLimit minDirectPayout := by
  rw [buildPayoutSchedule, canonicalAccounts_eq distinct permutes recased, buildPayoutSchedule]

theorem build_payout_schedule_order_independent_three_accounts :
    buildPayoutSchedule threeCrypto (threeAccounts.reverse.map ParticipantAccount.normalized) 100001 1 10000 =
      .ok threeSchedule := by
  have recased : List.Forall₂ Recased threeAccounts.reverse
      (threeAccounts.reverse.map ParticipantAccount.normalized) := by
    rw [List.forall₂_map_right_iff, List.forall₂_same]
    intro account _
    constructor <;> simp [ParticipantAccount.normalized, EqIgnoreAsciiCase]
  rw [build_payout_schedule_order_independent threeCrypto threeAccounts threeAccounts.reverse _ 100001 1 10000
    threeAccounts_distinct (List.reverse_perm _).symm recased, threeSchedule_built]

/-! ## Who is paid in the coinbase -/

/-- What ranking adds to the rewards of the accounts. -/
theorem rankAccounts_eq_ok {paid : List (ParticipantAccount × Sats)} {ranked : List RankedAccount}
    (returned : rankAccounts paid = .ok ranked) :
    paid = ranked.map (fun entry => (entry.account, entry.delta)) ∧
      ∀ entry ∈ ranked, entry.rankBalance.toNat = entry.account.unpaidSats.toNat + entry.delta.toNat := by
  induction paid generalizing ranked with
  | nil =>
    cases returned
    exact ⟨rfl, by simp⟩
  | cons head rest ih =>
    obtain ⟨account, delta⟩ := head
    simp only [rankAccounts, except_bind_eq_ok, okOr_eq_ok] at returned
    obtain ⟨rankBalance, added, others, tail, ended⟩ := returned
    cases ended
    obtain ⟨pairs, balances⟩ := ih tail
    refine ⟨by rw [List.map_cons, ← pairs], ?_⟩
    rw [List.forall_mem_cons]
    exact ⟨checkedAdd_eq_some.mp added, balances⟩

/-- The balance an account is ranked by. -/
def rankSats (entry : ParticipantAccount × Sats) : ℕ := entry.1.unpaidSats.toNat + entry.2.toNat

/-- The larger balance comes first, then the larger reward, then the smaller miner. -/
def Precedes (first second : ParticipantAccount × Sats) : Prop :=
  rankSats second < rankSats first ∨ rankSats second = rankSats first ∧
    (second.2.toNat < first.2.toNat ∨ second.2 = first.2 ∧ compare first.1.minerId second.1.minerId = .lt)

instance : TransCmp compareRanked :=
  have := transCmp_reverse compare RankedAccount.rankBalance
  have := transCmp_reverse compare RankedAccount.delta
  inferInstanceAs (TransCmp (compareLex _ (compareLex _ _)))

private theorem precedes_of_compareRanked {first second : RankedAccount}
    (firstBalance : first.rankBalance.toNat = first.account.unpaidSats.toNat + first.delta.toNat)
    (secondBalance : second.rankBalance.toNat = second.account.unpaidSats.toNat + second.delta.toNat)
    (apart : first.account.minerId ≠ second.account.minerId) (ordered : (compareRanked first second).isLE = true) :
    Precedes (first.account, first.delta) (second.account, second.delta) := by
  unfold Precedes rankSats
  rw [← firstBalance, ← secondBalance]
  unfold compareRanked compareLex at ordered
  dsimp only at ordered
  cases balances : compare second.rankBalance first.rankBalance with
  | lt => exact .inl (Math.compare_eq_lt.mp balances)
  | gt =>
    rw [balances] at ordered
    cases ordered
  | eq =>
    refine .inr ⟨congrArg BitVec.toNat (Std.compare_eq_iff_eq.mp balances), ?_⟩
    rw [balances] at ordered
    dsimp only [Ordering.then] at ordered
    cases deltas : compare second.delta first.delta with
    | lt => exact .inl (Math.compare_eq_lt.mp deltas)
    | gt =>
      rw [deltas] at ordered
      cases ordered
    | eq =>
      refine .inr ⟨Std.compare_eq_iff_eq.mp deltas, ?_⟩
      rw [deltas] at ordered
      dsimp only [compareOn] at ordered
      cases miners : compare first.account.minerId second.account.minerId with
      | lt => rfl
      | eq => exact absurd (Std.compare_eq_iff_eq.mp miners) apart
      | gt =>
        rw [miners] at ordered
        cases ordered

section Selection

variable (ranked : List RankedAccount) (directLimit : U64) (minDirectPayout : Sats)

/-- The accounts with enough reward, in order. -/
def eligible : List RankedAccount := (sortBy compareRanked ranked).filter fun entry => minDirectPayout ≤ entry.delta

/-- The first of them. -/
def chosen : List RankedAccount := (eligible ranked minDirectPayout).take directLimit.toNat

private theorem selectDirect_eq : selectDirect ranked directLimit minDirectPayout =
    (chosen ranked directLimit minDirectPayout).map fun entry => entry.account.minerId := rfl

theorem chosen_subperm : (chosen ranked directLimit minDirectPayout).Subperm ranked :=
  ((List.take_sublist _ _).trans List.filter_sublist).subperm.trans (sortBy_perm _ _).subperm

private theorem minDirectPayout_le_of_chosen {entry : RankedAccount}
    (taken : entry ∈ chosen ranked directLimit minDirectPayout) :
    minDirectPayout ≤ entry.delta :=
  of_decide_eq_true (List.mem_filter.mp (List.mem_of_mem_take taken)).2

private theorem length_eligible : (eligible ranked minDirectPayout).length =
    (ranked.map fun entry => (entry.account, entry.delta)).countP fun entry => minDirectPayout ≤ entry.2 := by
  rw [eligible, ← List.countP_eq_length_filter, (sortBy_perm _ _).countP_eq, List.countP_map]
  rfl

variable {ranked} (distinct : (ranked.map fun entry => entry.account.minerId).Nodup)
include distinct

private theorem selected_perm : (ranked.filter fun entry => entry.account.minerId ∈
    selectDirect ranked directLimit minDirectPayout).Perm (chosen ranked directLimit minDirectPayout) :=
  filter_key_mem_perm distinct (chosen_subperm ranked directLimit minDirectPayout)

/-- The coinbase pays those of the chosen accounts that have a reward. -/
theorem directPayouts_perm :
    (directPayouts (selectDirect ranked directLimit minDirectPayout)
      (ranked.map fun entry => (entry.account, entry.delta))).Perm
    (((chosen ranked directLimit minDirectPayout).filter fun entry => entry.delta ≠ 0).map fun entry =>
      { minerId := entry.account.minerId
        btcPayoutScriptHex := entry.account.btcPayoutScriptHex
        amountSats := entry.delta }) := by
  have kept := (selected_perm directLimit minDirectPayout distinct).filter fun entry => decide (entry.delta ≠ 0)
  rw [List.filter_filter] at kept
  rw [directPayouts, List.filter_map, List.map_map]
  refine List.Perm.map _ (.trans (.of_eq (List.filter_congr fun entry _ => ?_)) kept)
  simp

end Selection

/-- What selecting the direct payouts comes to. -/
structure DirectSelection (paid : List (ParticipantAccount × Sats)) (directLimit : U64) (minDirectPayout : Sats)
    (schedule : PayoutSchedule) : Prop where
  limited : schedule.directOutputs.length ≤ directLimit.toNat
  full : ∀ output ∈ schedule.directOutputs, ∃ entry ∈ paid, output.minerId = entry.1.minerId ∧
    output.amountSats = entry.2 ∧ minDirectPayout ≤ entry.2
  first : ∀ direct ∈ paid, direct.1.minerId ∈ schedule.directOutputs.map DirectPayout.minerId →
    ∀ vault ∈ paid, vault.1.minerId ∈ schedule.vaultAllocations.map VaultAllocation.minerId →
      minDirectPayout ≤ vault.2 → Precedes direct vault
  count : 1 ≤ minDirectPayout → schedule.directOutputs.length =
    min directLimit.toNat (paid.countP fun entry => minDirectPayout ≤ entry.2)

/-- For accounts of distinct miners, the coinbase pays the first accounts with enough reward, in full, and as many of
them as the limit allows. -/
theorem direct_payout_selection (crypto : Crypto) (accounts : List ParticipantAccount) (rewardSats : Sats)
    (directLimit : U64) (minDirectPayout : Sats) (schedule : PayoutSchedule)
    (distinct : (accounts.map fun account => toAsciiLowercase account.minerId).Nodup)
    (returned : buildPayoutSchedule crypto accounts rewardSats directLimit minDirectPayout = .ok schedule) :
    ∃ deltas, rewardDeltas (canonicalAccounts accounts) rewardSats = .ok deltas ∧
      DirectSelection ((canonicalAccounts accounts).zip deltas) directLimit minDirectPayout schedule := by
  simp only [buildPayoutSchedule, except_bind_eq_ok, okOr_eq_ok] at returned
  obtain ⟨deltas, rewards, ranked, ranks, _, -, _, -, ended⟩ := returned
  cases ended
  refine ⟨deltas, rewards, ?_⟩
  have aligned := (rewardDeltas_components rewards).spent.1
  obtain ⟨pairs, balances⟩ := rankAccounts_eq_ok ranks
  have apart : (ranked.map fun entry => entry.account.minerId).Nodup := by
    have ids := (canonicalAccounts_minerIds accounts).nodup_iff.mpr distinct
    have accountsOf : canonicalAccounts accounts = ranked.map RankedAccount.account := by
      rw [← List.map_fst_zip aligned.ge, pairs, List.map_map]
      rfl
    rw [accountsOf, List.map_map] at ids
    exact ids
  rw [pairs]
  have direct := (sortBy_perm compareDirectOutputs _).trans (directPayouts_perm directLimit minDirectPayout apart)
  constructor
  · rw [direct.length_eq, List.length_map]
    exact (List.length_filter_le _ _).trans (List.length_take_le _ _)
  · intro output paid
    obtain ⟨entry, kept, rfl⟩ := List.mem_map.mp (direct.mem_iff.mp paid)
    have taken := (List.mem_filter.mp kept).1
    exact ⟨_, List.mem_map_of_mem ((chosen_subperm _ _ _).subset taken), rfl, rfl,
      minDirectPayout_le_of_chosen _ _ _ taken⟩
  · rintro _ firstPaid inCoinbase _ secondPaid onVault enough
    obtain ⟨first, firstListed, rfl⟩ := List.mem_map.mp firstPaid
    obtain ⟨second, secondListed, rfl⟩ := List.mem_map.mp secondPaid
    have firstTaken : first ∈ chosen ranked directLimit minDirectPayout := by
      obtain ⟨output, listed, same⟩ := List.mem_map.mp inCoinbase
      obtain ⟨entry, kept, rfl⟩ := List.mem_map.mp (direct.mem_iff.mp listed)
      have taken := (List.mem_filter.mp kept).1
      cases List.inj_on_of_nodup_map apart ((chosen_subperm _ _ _).subset taken) firstListed same
      exact taken
    have secondDropped : second ∉ chosen ranked directLimit minDirectPayout := by
      intro taken
      obtain ⟨allocation, listed, same⟩ := List.mem_map.mp onVault
      obtain ⟨entry, kept, rfl⟩ := List.mem_map.mp ((mem_sortBy _).mp listed)
      refine (of_decide_eq_true (List.mem_filter.mp kept).2).2 ?_
      rw [selectDirect_eq]
      exact List.mem_map.mpr ⟨second, taken, same.symm⟩
    have secondEligible : second ∈ eligible ranked minDirectPayout :=
      List.mem_filter.mpr ⟨(mem_sortBy _).mpr secondListed, decide_eq_true enough⟩
    have differ : first.account.minerId ≠ second.account.minerId := by
      intro same
      cases List.inj_on_of_nodup_map apart firstListed secondListed same
      exact secondDropped firstTaken
    exact precedes_of_compareRanked (balances first firstListed) (balances second secondListed) differ
      (rel_of_mem_take_of_not_mem ((sortBy_pairwise compareRanked ranked).filter _)
        firstTaken secondEligible secondDropped)
  · intro positive
    have rewarded : (chosen ranked directLimit minDirectPayout).filter (fun entry => entry.delta ≠ 0) =
        chosen ranked directLimit minDirectPayout := by
      refine List.filter_eq_self.mpr fun entry taken => decide_eq_true fun zero => ?_
      have enough := BitVec.le_def.mp (minDirectPayout_le_of_chosen _ _ _ taken)
      have one : (1 : Sats).toNat ≤ minDirectPayout.toNat := BitVec.le_def.mp positive
      rw [zero] at enough
      exact absurd (one.trans enough) (by decide)
    rw [direct.length_eq, List.length_map, rewarded, chosen, List.length_take, length_eligible]

theorem direct_payout_selection_three_accounts :
    buildPayoutSchedule threeCrypto threeAccounts 100001 1 10000 = .ok threeSchedule ∧
      ∃ deltas, DirectSelection ((canonicalAccounts threeAccounts).zip deltas) 1 10000 threeSchedule := by
  obtain ⟨deltas, -, selection⟩ := direct_payout_selection threeCrypto threeAccounts 100001 1 10000 threeSchedule
    threeAccounts_distinct threeSchedule_built
  exact ⟨threeSchedule_built, deltas, selection⟩

/-- Two accounts whose miners differ in case only. -/
def twinAccounts : List ParticipantAccount :=
  ["A".toList, "a".toList].map fun minerId =>
    { minerId
      btcPayoutScriptHex := hexText 44 0x00141111111111111111111111111111111111111111
      claimOwnerId := "alice-claims".toList
      unpaidSats := 0
      hashrateScore := 1
      idenaScore := 1 }

/-- Miners that differ in case only are selected together, beyond the limit. -/
theorem twins_exceed_limit : (twinAccounts.map ParticipantAccount.minerId).Nodup ∧
    ∃ schedule, buildPayoutSchedule threeCrypto twinAccounts 100000 1 10000 = .ok schedule ∧
      ¬ schedule.directOutputs.length ≤ (1 : U64).toNat := by
  have exceeds : (buildPayoutSchedule threeCrypto twinAccounts 100000 1 10000).toOption.any
      (fun schedule => 1 < schedule.directOutputs.length) = true := by decide
  refine ⟨by decide, ?_⟩
  cases built : buildPayoutSchedule threeCrypto twinAccounts 100000 1 10000 with
  | error reason =>
    rw [built] at exceeds
    cases exceeds
  | ok schedule =>
    rw [built] at exceeds
    exact ⟨schedule, rfl, Nat.not_le.mpr (of_decide_eq_true exceeds)⟩

end P2PoolBTC.Soundness
