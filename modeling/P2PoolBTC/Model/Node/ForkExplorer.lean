import P2PoolBTC.Model.Node.ForkValidation

/-! # The explorer index of the active branch

The index is rebuilt from the active blocks in four passes: the outputs they create and what each
address was paid, the outputs they spend and what each address paid, the transactions that touch an
address, newest first, and the outputs that stay unspent.
-/

namespace P2PoolBTC.Model.Node

open Math Std Model.Core

variable (lib : ForkPrimitives)

/-- A block of the active branch with its height and hash. -/
structure ActiveBlock where
  height : U64
  hash : Digest
  block : Block

structure ForkAddressAccumulator where
  transactionIds : ExtTreeSet Digest := ∅
  fundedOutputCount : U64 := 0
  fundedTotalSats : U64 := 0
  spentOutputCount : U64 := 0
  spentTotalSats : U64 := 0
  firstSeenHeight : Option U64 := none
  lastSeenHeight : Option U64 := none

/-- What the first two passes have collected. -/
structure ExplorerTotals where
  outputs : ExtTreeMap OutPoint IndexedForkOutput := ∅
  spends : ExtTreeMap OutPoint ForkOutputSpend := ∅
  accumulators : ExtTreeMap Text ForkAddressAccumulator := ∅

def outputAddress (output : TxOut) : Option Text :=
  lib.addressFromScript output.scriptPubkey

def ForkAddressAccumulator.updateHeightRange (accumulator : ForkAddressAccumulator) (height : U64) :
    ForkAddressAccumulator :=
  { accumulator with
    firstSeenHeight := some (accumulator.firstSeenHeight.elim height fun first =>
      if height < first then height else first)
    lastSeenHeight := some (accumulator.lastSeenHeight.elim height fun last =>
      if last < height then height else last) }

/-! ## Outputs created -/

section Funding

variable (height : U64)

def fundAddress (txid : Digest) (address : Text) (value : U64) (totals : ExplorerTotals) :
    Outcome ExplorerTotals := do
  let accumulator := (totals.accumulators[address]?).getD {}
  let fundedTotalSats ← okOr (checkedAdd accumulator.fundedTotalSats value)
    (.error "fork address funded total overflow")
  let funded : ForkAddressAccumulator :=
    { accumulator with
      transactionIds := accumulator.transactionIds.insert txid
      fundedOutputCount := saturatingAdd accumulator.fundedOutputCount 1
      fundedTotalSats }
  return { totals with accumulators := totals.accumulators.insert address (funded.updateHeightRange height) }

def fundOutput (txid : Digest) (coinbase : Bool) (index : ℕ) (output : TxOut) (totals : ExplorerTotals) :
    Outcome ExplorerTotals := do
  let vout ← okOr (u32FromNat? index) (.error "fork transaction output index exceeds u32")
  let indexed := { totals with outputs := totals.outputs.insert ⟨txid, vout⟩ { output, height, coinbase } }
  match outputAddress lib output with
  | none => .ok indexed
  | some address => fundAddress height txid address output.value indexed

def fundOutputsFrom (txid : Digest) (coinbase : Bool) : ℕ → List TxOut → ExplorerTotals → Outcome ExplorerTotals
  | _, [], totals => .ok totals
  | index, output :: rest, totals => do
    let next ← fundOutput lib height txid coinbase index output totals
    fundOutputsFrom txid coinbase (index + 1) rest next

def fundTransactions : List Transaction → ExplorerTotals → Outcome ExplorerTotals
  | [], totals => .ok totals
  | transaction :: rest, totals => do
    let next ← fundOutputsFrom lib height (computeTxid lib transaction) transaction.isCoinbase 0
      transaction.output totals
    fundTransactions rest next

end Funding

def fundBlocks : List ActiveBlock → ExplorerTotals → Outcome ExplorerTotals
  | [], totals => .ok totals
  | active :: rest, totals => do
    let next ← fundTransactions lib active.height active.block.txdata totals
    fundBlocks rest next

/-! ## Outputs spent -/

section Spending

variable (height : U64)

def debitAddress (txid : Digest) (address : Text) (value : U64) (totals : ExplorerTotals) :
    Outcome ExplorerTotals := do
  let accumulator := (totals.accumulators[address]?).getD {}
  let spentTotalSats ← okOr (checkedAdd accumulator.spentTotalSats value)
    (.error "fork address spent total overflow")
  let spent : ForkAddressAccumulator :=
    { accumulator with
      transactionIds := accumulator.transactionIds.insert txid
      spentOutputCount := saturatingAdd accumulator.spentOutputCount 1
      spentTotalSats }
  return { totals with accumulators := totals.accumulators.insert address (spent.updateHeightRange height) }

def spendInput (txid : Digest) (vin : ℕ) (previousOutput : OutPoint) (totals : ExplorerTotals) :
    Outcome ExplorerTotals :=
  let marked :=
    { totals with spends := totals.spends.insert previousOutput { txid := displayHash txid, vin, height } }
  match (totals.outputs[previousOutput]?).bind fun indexed =>
    (outputAddress lib indexed.output).map (·, indexed.output.value) with
  | none => .ok marked
  | some (address, value) => debitAddress height txid address value marked

def spendInputsFrom (txid : Digest) : ℕ → List OutPoint → ExplorerTotals → Outcome ExplorerTotals
  | _, [], totals => .ok totals
  | vin, previousOutput :: rest, totals => do
    let next ← spendInput lib height txid vin previousOutput totals
    spendInputsFrom txid (vin + 1) rest next

def spendTransactions : List Transaction → ExplorerTotals → Outcome ExplorerTotals
  | [], totals => .ok totals
  | transaction :: rest, totals => do
    let next ← if transaction.isCoinbase then .ok totals else
      spendInputsFrom lib height (computeTxid lib transaction) 0 transaction.spends totals
    spendTransactions rest next

end Spending

def spendBlocks : List ActiveBlock → ExplorerTotals → Outcome ExplorerTotals
  | [], totals => .ok totals
  | active :: rest, totals => do
    let next ← spendTransactions lib active.height active.block.txdata totals
    spendBlocks rest next

/-! ## Address entries -/

def addressEntry (address : Text) (accumulator : ForkAddressAccumulator) : Outcome ForkAddressIndexEntry := do
  let balanceSats ← okOr (checkedSub accumulator.fundedTotalSats accumulator.spentTotalSats)
    (.error "fork address balance underflow")
  return {
    summary := {
      address
      transactionCount := accumulator.transactionIds.size
      fundedOutputCount := accumulator.fundedOutputCount
      fundedTotalSats := accumulator.fundedTotalSats
      spentOutputCount := accumulator.spentOutputCount
      spentTotalSats := accumulator.spentTotalSats
      inheritedInputCount := 0
      inheritedInputTotalSats := 0
      balanceSats
      balanceScope := "fork_created_utxos"
      firstSeenHeight := accumulator.firstSeenHeight
      lastSeenHeight := accumulator.lastSeenHeight }
    transactions := []
    utxos := [] }

def addressEntries : List (Text × ForkAddressAccumulator) → Outcome (ExtTreeMap Text ForkAddressIndexEntry)
  | [] => .ok ∅
  | (address, accumulator) :: rest => do
    let entry ← addressEntry address accumulator
    let entries ← addressEntries rest
    return entries.insert address entry

/-- Change the entry of an address, when there is one. -/
def updateEntry (update : ForkAddressIndexEntry → ForkAddressIndexEntry)
    (addresses : ExtTreeMap Text ForkAddressIndexEntry) (address : Text) : ExtTreeMap Text ForkAddressIndexEntry :=
  match addresses[address]? with
  | none => addresses
  | some entry => addresses.insert address (update entry)

/-! ## Transactions of an address -/

/-- The total of the spent outputs, or nothing when one of them is not indexed. -/
def sumPreviousOutputs (outputs : ExtTreeMap OutPoint IndexedForkOutput) : U64 → List OutPoint → Outcome (Option U64)
  | total, [] => .ok (some total)
  | total, previousOutput :: rest =>
    match outputs[previousOutput]? with
    | none => .ok none
    | some previous => do
      let next ← okOr (checkedAdd total previous.output.value) (.error "fork transaction input total overflow")
      sumPreviousOutputs outputs next rest

/-- Total input, total output and fee of a transaction. -/
def transactionAmounts (transaction : Transaction) (outputs : ExtTreeMap OutPoint IndexedForkOutput) :
    Outcome (Option U64 × U64 × Option U64) := do
  let totalOutputSats ← okOr (checkedSum (transaction.output.map TxOut.value))
    (.error "fork transaction output total overflow")
  if transaction.isCoinbase then return (none, totalOutputSats, none)
  else do
    let totalInputSats ← sumPreviousOutputs outputs 0 transaction.spends
    return (totalInputSats, totalOutputSats, totalInputSats.bind (checkedSub · totalOutputSats))

def transactionRef (transaction : Transaction) (hash : Digest) (height : U64) (active : Bool) (transactionIndex : ℕ)
    (outputs : ExtTreeMap OutPoint IndexedForkOutput) :
    Outcome ForkTransactionRef := do
  let (_, totalOutputSats, feeSats) ← transactionAmounts transaction outputs
  return {
    txid := displayHash (computeTxid lib transaction)
    blockHash := displayHash hash
    height, active, transactionIndex
    coinbase := transaction.isCoinbase
    totalOutputSats, feeSats }

section Transactions

variable (outputs : ExtTreeMap OutPoint IndexedForkOutput)

/-- The addresses a transaction pays to or spends from. -/
def relatedAddresses (transaction : Transaction) : ExtTreeSet Text :=
  let paid := transaction.output.filterMap (outputAddress lib)
  let spent := transaction.spends.filterMap fun previousOutput =>
    (outputs[previousOutput]?).bind fun indexed => outputAddress lib indexed.output
  (paid ++ spent).foldl (fun related address => related.insert address) ∅

def recordTransaction (height : U64) (hash : Digest) (transaction : Transaction) (transactionIndex : ℕ)
    (addresses : ExtTreeMap Text ForkAddressIndexEntry) : Outcome (ExtTreeMap Text ForkAddressIndexEntry) :=
  let related := relatedAddresses lib outputs transaction
  if related.isEmpty then .ok addresses else do
    let reference ← transactionRef lib transaction hash height true transactionIndex outputs
    return related.toList.foldl
      (updateEntry fun entry => { entry with transactions := entry.transactions ++ [reference] }) addresses

/-- Record the transactions of a block, the last one first. -/
def recordTransactions (height : U64) (hash : Digest) :
    ℕ → List Transaction → ExtTreeMap Text ForkAddressIndexEntry →
      Outcome (ExtTreeMap Text ForkAddressIndexEntry)
  | _, [], addresses => .ok addresses
  | index, transaction :: rest, addresses => do
    let later ← recordTransactions height hash (index + 1) rest addresses
    recordTransaction lib outputs height hash transaction index later

/-- Record the active blocks, the highest one first. -/
def recordBlocks : List ActiveBlock → ExtTreeMap Text ForkAddressIndexEntry →
    Outcome (ExtTreeMap Text ForkAddressIndexEntry)
  | [], addresses => .ok addresses
  | active :: rest, addresses => do
    let later ← recordBlocks rest addresses
    recordTransactions lib outputs active.height active.hash 0 active.block.txdata later

end Transactions

/-! ## Unspent outputs -/

def scriptType (output : TxOut) : String :=
  let script := output.scriptPubkey
  if Script.isP2pkh script then "p2pkh"
  else if Script.isP2sh script then "p2sh"
  else if Script.isP2wpkh script then "v0_p2wpkh"
  else if Script.isP2wsh script then "v0_p2wsh"
  else if Script.isP2tr script then "v1_p2tr"
  else if Script.isP2pk script then "p2pk"
  else if Script.isOpReturn script then "op_return"
  else if Script.isWitnessProgram script then "witness_unknown"
  else "nonstandard"

/-- Add an unspent output to the entry of its address. -/
def recordUtxo (spends : ExtTreeMap OutPoint ForkOutputSpend) (addresses : ExtTreeMap Text ForkAddressIndexEntry)
    (output : OutPoint × IndexedForkOutput) :
    ExtTreeMap Text ForkAddressIndexEntry :=
  if output.1 ∈ spends then addresses else
    match outputAddress lib output.2.output with
    | none => addresses
    | some address =>
      let utxo : ForkUtxo :=
        { txid := displayHash output.1.txid
          vout := output.1.vout
          valueSats := output.2.output.value
          scriptPubkeyHex := hexEncode output.2.output.scriptPubkey
          scriptType := scriptType output.2.output
          height := output.2.height
          coinbase := output.2.coinbase }
      updateEntry (fun entry => { entry with utxos := entry.utxos ++ [utxo] }) addresses address

/-- Newest outputs first, then by transaction identifier and position. -/
def compareUtxos (left right : ForkUtxo) : Ordering :=
  (compare right.height left.height).then
    ((compare left.txid right.txid).then (compare left.vout right.vout))

def sortUtxos (addresses : ExtTreeMap Text ForkAddressIndexEntry) : ExtTreeMap Text ForkAddressIndexEntry :=
  addresses.map fun _ entry => { entry with utxos := sortBy compareUtxos entry.utxos }

/-- The explorer index of the active blocks, lowest first. -/
def explorerIndex (active : List ActiveBlock) : Outcome ForkExplorerIndex := do
  let funded ← fundBlocks lib active {}
  let spent ← spendBlocks lib active funded
  let entries ← addressEntries spent.accumulators.toList
  let recorded ← recordBlocks lib spent.outputs active entries
  let listed := spent.outputs.toList.foldl (recordUtxo lib spent.spends) recorded
  return { outputs := spent.outputs, spends := spent.spends, addresses := sortUtxos listed }

end P2PoolBTC.Model.Node
