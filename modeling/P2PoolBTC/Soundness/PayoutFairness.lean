import P2PoolBTC.Soundness.PayoutConservation

/-! # Fairness of payouts

Both halves of a reward are split fairly, and the reward of an account is the sum of its shares of both pools.
-/

namespace P2PoolBTC.Soundness

open Math Model.Core Std

/-- What is said of the shares of one pool. -/
structure FairPool (pool : ℕ) (accounts : List ParticipantAccount) (score : ParticipantAccount → Score)
    (shares : List ℕ) : Prop where
  split : FairSplit MinerAtMost pool (poolClaims accounts score) shares
  zeroScore : ∀ entry ∈ (poolClaims accounts score).zip shares, entry.1.2 = 0 → entry.2 = 0
  monotone : ∀ larger ∈ (poolClaims accounts score).zip shares, ∀ smaller ∈ (poolClaims accounts score).zip shares,
    smaller.1.2 < larger.1.2 → smaller.2 ≤ larger.2

private theorem FairPool.of_split {pool : ℕ} {accounts : List ParticipantAccount} {score : ParticipantAccount → Score}
    {shares : List ℕ}
    (fair : FairSplit MinerAtMost pool (poolClaims accounts score) shares) : FairPool pool accounts score shares :=
  ⟨fair, fun _ listed => fair.zero_weight listed, fun _ listed _ other => fair.monotone listed other⟩

/-- A built schedule pays every account its shares of the two halves of the reward, and each half is split by largest
remainders: shares are exact shares rounded down or one satoshi more, the satoshis left go to the largest remainders
and never to an exact share, and neither a zero score nor a smaller score is favoured. -/
theorem build_payout_schedule_fair (crypto : Crypto) (accounts : List ParticipantAccount) (rewardSats : Sats)
    (directLimit : U64) (minDirectPayout : Sats) (schedule : PayoutSchedule)
    (returned : buildPayoutSchedule crypto accounts rewardSats directLimit minDirectPayout = .ok schedule) :
    ∃ deltas hashrate idena, deltas.map BitVec.toNat = List.zipWith (· + ·) hashrate idena ∧
      FairPool (rewardSats.toNat / 2) (canonicalAccounts accounts) ParticipantAccount.hashrateScore hashrate ∧
      FairPool (rewardSats.toNat - rewardSats.toNat / 2) (canonicalAccounts accounts)
        ParticipantAccount.idenaScore idena ∧
      BuiltFrom crypto ((canonicalAccounts accounts).zip deltas) rewardSats schedule := by
  rcases buildPayoutSchedule_spec crypto accounts rewardSats directLimit minDirectPayout with
    ⟨deltas, same, rewards, -, -, again, built⟩ | ⟨reason, stopped, -⟩
  · cases returned.symm.trans again
    obtain ⟨earned, idena, -, -, shares, hashrateFair, idenaFair⟩ := rewardDeltas_components rewards
    exact ⟨deltas, earned.map BitVec.toNat, idena, shares, .of_split hashrateFair, .of_split idenaFair, built⟩
  · cases returned.symm.trans stopped

theorem build_payout_schedule_fair_three_accounts :
    buildPayoutSchedule threeCrypto threeAccounts 100001 1 10000 = .ok threeSchedule ∧
      ∃ hashrate idena, FairPool 50000 (canonicalAccounts threeAccounts) ParticipantAccount.hashrateScore hashrate ∧
        FairPool 50001 (canonicalAccounts threeAccounts) ParticipantAccount.idenaScore idena := by
  have returned : buildPayoutSchedule threeCrypto threeAccounts 100001 1 10000 = .ok threeSchedule := by
    decide
  obtain ⟨_, hashrate, idena, _, hashrateFair, idenaFair, _⟩ :=
    build_payout_schedule_fair threeCrypto threeAccounts 100001 1 10000 threeSchedule returned
  exact ⟨returned, hashrate, idena, hashrateFair, idenaFair⟩

end P2PoolBTC.Soundness
