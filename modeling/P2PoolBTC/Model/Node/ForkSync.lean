import P2PoolBTC.Model.Node.ForkChain

/-! # Synchronizing with a peer

A node finds the height up to which its active chain agrees with the peer's by bisection and then
submits the peer's active blocks above that height, lowest first. Afterwards it relays the peer's
waiting transactions; a refused one is skipped.
-/

namespace P2PoolBTC.Model.Node

open Math Std Model.Core

namespace ForkChainStore

variable (lib : ForkPrimitives)

/-- The peer answers requests for its own activation and upgrade only. -/
def answerRequest (peer : ForkChainStore) (activationId : Text) (upgradeId : Option Text) : Outcome Unit := do
  require (activationId = peer.manifest.activationId) (.error "peer uses a different fork activation")
  require (upgradeId = peer.transactionUpgradeId) (.error "peer uses a different fork transaction upgrade")

/-- Bisect for the last height at which both active chains have the same block. -/
def commonHeight (store peer : ForkChainStore) : ℕ → ℕ → ℕ → Outcome ℕ
  | 0, _, _ => .error .diverged
  | fuel + 1, low, high =>
    if low < high then
      let middle := low + (high - low + 1) / 2
      let localHash := store.activeBlockHash (BitVec.ofNat 64 middle)
      if localHash.isSome ∧ localHash = peer.activeBlockHash (BitVec.ofNat 64 middle) then
        commonHeight store peer fuel middle high
      else commonHeight store peer fuel low (middle - 1)
    else .ok low

/-- Submit the peer's active blocks of successive heights, each at the clock's reading. -/
def submitHeights (peer : ForkChainStore) (clock : ℕ → U64) : ℕ → ℕ → Routine ForkChainStore String Unit
  | 0, _ => pure ()
  | count + 1, height => do
    let blockHex ← attempt (okOr (peer.activeBlockHex (BitVec.ofNat 64 height))
      ("peer omitted active fork block at height " ++ toString height))
    let _ ← submitBlockAtTime lib blockHex (clock height)
    submitHeights peer clock count (height + 1)

/-- Submit relayed transactions and skip those that are refused. -/
def relayTransactions : List Text → Routine ForkChainStore String Unit
  | [] => pure ()
  | transactionHex :: rest => fun store =>
    match submitTransaction lib transactionHex store with
    | .ok _ next => relayTransactions rest next
    | .error (.error _) next => relayTransactions rest next
    | .error fault next => .error fault next

def mempoolTransactions (store : ForkChainStore) : List Text :=
  store.mempool.values.map fun transaction => hexEncode (lib.serializeTransaction transaction)

def syncFromPeer (clock : ℕ → U64) (peer : ForkChainStore) : Routine ForkChainStore String Unit := do
  let store ← get
  settle (peer.answerRequest store.manifest.activationId store.transactionUpgradeId)
  let remote ← settle peer.status
  let here ← settle store.status
  attempt (require (remote.transactionUpgradeId = store.transactionUpgradeId)
    "peer uses a different fork transaction upgrade")
  let floor := here.inheritedTipHeight.toNat
  let ceiling := min here.tipHeight.toNat remote.tipHeight.toNat
  let low ← settle (commonHeight store peer (ceiling - floor + 1) floor ceiling)
  submitHeights lib peer clock (remote.tipHeight.toNat - low) (low + 1)
  relayTransactions lib (peer.mempoolTransactions lib)

end ForkChainStore

end P2PoolBTC.Model.Node
