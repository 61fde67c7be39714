import P2PoolBTC.Math.Fault
import P2PoolBTC.Model.Core.Hashing

/-! # Payout schedules

A reward is split into a hashrate half and an identity half. Each half is apportioned by score:
every account gets the floor of its exact share, and the satoshis left over go one by one to the
largest remainders. The best-ranked accounts are paid in the coinbase, all others on the vault.
-/

namespace P2PoolBTC.Model.Core

open Math Std

variable (crypto : Crypto)

def minDirectPayoutSats : Sats := 10000

def directPayoutLimit : U64 := 100

inductive PayoutError where
  | amountOverflow
  | scoreOverflow
  | scoreMultiplicationOverflow
  | zeroScorePool (component : String)
  | payoutRootMismatch (expected actual : Text)
  | vaultOutputMismatch (expectedSats actualSats : Sats)
  | zeroAmount
  | nonCanonicalOrder (field : String)
  | duplicateEntry (field : String)
deriving DecidableEq

/-- Larger amounts first, then by miner. -/
def compareDirectOutputs : DirectPayout → DirectPayout → Ordering :=
  compareLex (fun left right => compare right.amountSats left.amountSats) (compareOn DirectPayout.minerId)

/-- By claim owner, then by miner. -/
def compareVaultAllocations : VaultAllocation → VaultAllocation → Ordering :=
  compareLex (compareOn VaultAllocation.claimOwnerId) (compareOn VaultAllocation.minerId)

def sumSats (values : List Sats) : Except PayoutError Sats := okOr (checkedSum values) .amountOverflow

def sumScores (values : List Score) : Except PayoutError Score := okOr (checkedSum values) .scoreOverflow

def PayoutSchedule.expectedPayoutRoot (schedule : PayoutSchedule) : Text :=
  merkleRoot crypto [.merklePayoutLeaf
    { directOutputs := schedule.directOutputs
      vaultAllocations := schedule.vaultAllocations
      vaultOutputSats := schedule.vaultOutputSats }]

/-- Every pair of neighbours is in order. -/
def isCanonicallyOrdered {α : Type} (compare : α → α → Ordering) : List α → Bool
  | first :: second :: rest => (compare first second).isLE && isCanonicallyOrdered compare (second :: rest)
  | _ => true

def PayoutSchedule.validate (schedule : PayoutSchedule) : Except PayoutError Unit := do
  let expectedRoot := schedule.expectedPayoutRoot crypto
  require (schedule.payoutRoot = expectedRoot) (.payoutRootMismatch expectedRoot schedule.payoutRoot)
  require ((∀ output ∈ schedule.directOutputs, output.amountSats ≠ 0) ∧
    ∀ allocation ∈ schedule.vaultAllocations, allocation.amountSats ≠ 0) .zeroAmount
  require (isCanonicallyOrdered compareDirectOutputs schedule.directOutputs = true)
    (.nonCanonicalOrder "direct_outputs")
  require (isCanonicallyOrdered compareVaultAllocations schedule.vaultAllocations = true)
    (.nonCanonicalOrder "vault_allocations")
  let directMinerIds := schedule.directOutputs.map fun output => toAsciiLowercase output.minerId
  require directMinerIds.Nodup (.duplicateEntry "direct miner")
  let vaultMinerIds := schedule.vaultAllocations.map fun allocation => toAsciiLowercase allocation.minerId
  require vaultMinerIds.Nodup (.duplicateEntry "vault miner")
  require (∀ minerId ∈ directMinerIds, minerId ∉ vaultMinerIds)
    (.duplicateEntry "miner across direct and vault outputs")
  let expectedVaultTotal ← sumSats (schedule.vaultAllocations.map VaultAllocation.amountSats)
  require (schedule.vaultOutputSats = expectedVaultTotal)
    (.vaultOutputMismatch expectedVaultTotal schedule.vaultOutputSats)

/-- What is left of one account's exact share after its whole satoshis. -/
structure Remainder where
  index : ℕ
  remainder : Score
  minerId : Text

/-- Largest remainder first, then by miner. -/
def compareRemainders : Remainder → Remainder → Ordering :=
  compareLex (fun left right => compare right.remainder left.remainder) (compareOn Remainder.minerId)

/-- Whole satoshis of every account: the deltas so increased, the satoshis handed out, and the
remainders. Accounts and deltas are walked together from the given index. -/
def addWholeShares (pool : Sats) (totalScore : Score) (score : ParticipantAccount → Score) :
    ℕ → Sats → List (ParticipantAccount × Sats) →
      Except PayoutError (List Sats × Sats × List Remainder)
  | _, allocated, [] => pure ([], allocated, [])
  | index, allocated, (account, delta) :: rest => do
    let numerator ← okOr (checkedMul (score account) (pool.setWidth 128)) .scoreMultiplicationOverflow
    let whole : Sats := (numerator / totalScore).setWidth 64
    let increased ← okOr (checkedAdd delta whole) .amountOverflow
    let allocated ← okOr (checkedAdd allocated whole) .amountOverflow
    let (deltas, total, remainders) ← addWholeShares pool totalScore score (index + 1) allocated rest
    return (increased :: deltas, total,
      { index, remainder := numerator % totalScore, minerId := account.minerId } :: remainders)

/-- One satoshi to each account in turn until none is left. -/
def distributeLeft : List Remainder → Sats → List Sats → Except PayoutError (List Sats)
  | [], _, deltas => pure deltas
  | entry :: rest, left, deltas =>
    if left = 0 then pure deltas
    else do
      let increased ← okOr (checkedAdd (deltas.getD entry.index 0) 1) .amountOverflow
      distributeLeft rest (left - 1) (deltas.set entry.index increased)

def addComponent (accounts : List ParticipantAccount) (deltas : List Sats) (pool : Sats) (component : String)
    (score : ParticipantAccount → Score) : Except PayoutError (List Sats) :=
  if pool = 0 then pure deltas
  else do
    let totalScore ← sumScores (accounts.map score)
    require (totalScore ≠ 0) (.zeroScorePool component)
    let (increased, allocated, remainders) ← addWholeShares pool totalScore score 0 0 (accounts.zip deltas)
    let left ← okOr (checkedSub pool allocated) .amountOverflow
    distributeLeft (sortBy compareRemainders remainders) left increased

def rewardDeltas (accounts : List ParticipantAccount) (rewardSats : Sats) :
    Except PayoutError (List Sats) := do
  let hashPool := rewardSats / 2
  let idenaPool := rewardSats - hashPool
  let deltas ← addComponent accounts (List.replicate accounts.length 0) hashPool "hashrate"
    ParticipantAccount.hashrateScore
  addComponent accounts deltas idenaPool "idena" ParticipantAccount.idenaScore

/-- An account with its reward and the balance it is ranked by. -/
structure RankedAccount where
  account : ParticipantAccount
  delta : Sats
  rankBalance : Sats

/-- Largest balance first, then largest reward, then by miner. -/
def compareRanked : RankedAccount → RankedAccount → Ordering :=
  compareLex (fun left right => compare right.rankBalance left.rankBalance)
    (compareLex (fun left right => compare right.delta left.delta)
      (compareOn fun ranked => ranked.account.minerId))

def rankAccounts : List (ParticipantAccount × Sats) → Except PayoutError (List RankedAccount)
  | [] => pure []
  | (account, delta) :: rest => do
    let rankBalance ← okOr (checkedAdd account.unpaidSats delta) .amountOverflow
    let ranked ← rankAccounts rest
    return { account, delta, rankBalance } :: ranked

/-- Normal forms in miner order. -/
def canonicalAccounts (accounts : List ParticipantAccount) : List ParticipantAccount :=
  sortBy (compareOn ParticipantAccount.minerId) (accounts.map ParticipantAccount.normalized)

/-- The miners paid in the coinbase. -/
def selectDirect (ranked : List RankedAccount) (directLimit : U64) (minDirectPayout : Sats) : List Text :=
  (((sortBy compareRanked ranked).filter fun entry => minDirectPayout ≤ entry.delta).take
    directLimit.toNat).map fun entry => entry.account.minerId

/-- The coinbase payouts of the selected miners, in account order. -/
def directPayouts (selected : List Text) (paid : List (ParticipantAccount × Sats)) : List DirectPayout :=
  (paid.filter fun entry => entry.2 ≠ 0 ∧ entry.1.minerId ∈ selected).map fun entry =>
    { minerId := entry.1.minerId
      btcPayoutScriptHex := entry.1.btcPayoutScriptHex
      amountSats := entry.2 }

/-- The vault allocations of the other miners, in account order. -/
def vaultPayouts (selected : List Text) (paid : List (ParticipantAccount × Sats)) : List VaultAllocation :=
  (paid.filter fun entry => entry.2 ≠ 0 ∧ entry.1.minerId ∉ selected).map fun entry =>
    { minerId := entry.1.minerId
      claimOwnerId := entry.1.claimOwnerId
      amountSats := entry.2 }

def buildPayoutSchedule (accounts : List ParticipantAccount) (rewardSats : Sats) (directLimit : U64)
    (minDirectPayout : Sats) : Except PayoutError PayoutSchedule := do
  let canonical := canonicalAccounts accounts
  let deltas ← rewardDeltas canonical rewardSats
  let ranked ← rankAccounts (canonical.zip deltas)
  let selected := selectDirect ranked directLimit minDirectPayout
  let directOutputs := sortBy compareDirectOutputs (directPayouts selected (canonical.zip deltas))
  let vaultAllocations := sortBy compareVaultAllocations (vaultPayouts selected (canonical.zip deltas))
  let directTotal ← sumSats (directOutputs.map DirectPayout.amountSats)
  let vaultOutputSats ← okOr (checkedSub rewardSats directTotal) .amountOverflow
  let payoutRoot := merkleRoot crypto [.merklePayoutLeaf
    { directOutputs, vaultAllocations, vaultOutputSats }]
  return { directOutputs, vaultAllocations, vaultOutputSats, payoutRoot }

end P2PoolBTC.Model.Core
