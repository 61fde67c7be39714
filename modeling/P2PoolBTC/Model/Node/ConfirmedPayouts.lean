import P2PoolBTC.Model.Core.ReplayQueries

/-! # Scores of a confirmed payout

A confirmed payout is computed with the scores of the snapshot that its block commits to, and not with
the scores that the miners reported. The identity of a miner with a score has to sign for the miner.
-/

namespace P2PoolBTC.Model.Node

open Math Std Model.Core

inductive LocalNodeError where
  | sharechain (reason : SharechainError)
  | snapshot (reason : SnapshotError)
  | other (message : String)
deriving DecidableEq

variable (crypto : Crypto)

/-- The scores of the eligible identities of a snapshot by address. -/
def scoresByIdenaAddress (leaves : List SnapshotLeaf) : Except LocalNodeError (ExtTreeMap Text Score) :=
  (leaves.filter (·.isBlockEligible)).foldlM (fun scores leaf => do
    let idenaAddress := toAsciiLowercase leaf.idenaAddress
    let score ← leaf.eligibleScore.mapError .snapshot
    require (scores[idenaAddress]?.all (· == score) = true)
      (.other ("snapshot contains conflicting scores for " ++ String.ofList idenaAddress))
    return scores.insert idenaAddress score) ∅

def applySnapshotScoresToAccounts (state : SharechainReplayState) (accounts : List ParticipantAccount)
    (snapshot : Snapshot) : Except LocalNodeError (List ParticipantAccount) := do
  (snapshot.verifyScoreRoot crypto).mapError .snapshot
  let scores ← scoresByIdenaAddress snapshot.leaves
  accounts.mapM fun account => do
    let registration ← okOr state.registrations[account.minerId]?
      (.other ("missing registration for account " ++ String.ofList account.minerId))
    let score := scores.getD (toAsciiLowercase registration.idenaAddress) 0
    if score ≠ 0 then (registration.verifyIdenaOwnershipSignature crypto).mapError .sharechain
    return { account with idenaScore := score }

end P2PoolBTC.Model.Node
