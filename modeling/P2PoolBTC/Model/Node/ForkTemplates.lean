import P2PoolBTC.Math.MerkleTree
import P2PoolBTC.Model.Core.Sharechain
import P2PoolBTC.Model.Node.ForkChain

/-! # Templates of the fork chain

A mining template is put together from the tip, the median time past, the prescribed difficulty and the
waiting transactions that still apply. A work template of the share chain is checked against the same
difficulty and times.
-/

namespace P2PoolBTC.Model.Node

open Math Std Model.Core

def maxTemplateNonCoinbaseWeightWu : U64 := 3500000

structure BitcoinMiningJobTransaction where
  txid : Text
  dataHex : Text
deriving DecidableEq

structure BitcoinMiningJobTemplate where
  version : U32
  previousBlockHash : Text
  curtime : U32
  bits : Text
  height : U64
  coinbaseValueSats : U64
  transactionHashes : List Text
  transactions : List BitcoinMiningJobTransaction
  defaultWitnessCommitment : Option Text
deriving DecidableEq

structure ForkWorkTemplateValidation where
  templateHash : Text
  previousBlockHash : Text
  height : U64
  headerTime : U32
  bits : Text
deriving DecidableEq

/-- The library functions that templates use besides those of validation. -/
structure TemplatePrimitives extends ForkPrimitives where
  computeWtxid : Transaction → Digest
  sha256d : List UInt8 → Digest

variable (lib : TemplatePrimitives)

/-! ## Waiting transactions of a template -/

/-- The root over the witness identifiers, with zero bytes in the place of the coinbase. -/
def witnessRoot (transactions : List Transaction) : Digest :=
  let level := Digest.zero :: transactions.map lib.computeWtxid
  (MerkleTree.collapse (fun left right => lib.sha256d (left.bytes ++ right.bytes)) level.length level).headD
    Digest.zero

def witnessCommitmentScript (transactions : List Transaction) : Outcome Text := do
  require (transactions ≠ []) (.error "fork witness commitment requires at least one non-coinbase transaction")
  let commitment := lib.sha256d ((witnessRoot lib transactions).bytes ++ List.replicate 32 0)
  return "6a24aa21a9ed".toList ++ hexEncode commitment.bytes

/-- The commitment that a template offers when it has transactions. -/
def defaultWitnessCommitment (selected : List Transaction) : Outcome (Option Text) :=
  if selected = [] then .ok none
  else do
    let script ← witnessCommitmentScript lib selected
    return some script

/-- What the selection of waiting transactions has collected. -/
structure Selection where
  selected : List Transaction := []
  totalWeight : U64 := 0
  totalFees : U64 := 0

/-- Take waiting transactions in order while they fit and apply. A transaction that does not apply is skipped. -/
def selectTransactions (lib : ForkPrimitives) (config : ForkChainConfig) (height : U64) (maxNonCoinbase : ℕ) :
    List Transaction → Selection → ForkBranchState → Outcome Selection
  | [], selection, _ => .ok selection
  | transaction :: rest, selection, state =>
    if maxNonCoinbase ≤ selection.selected.length then .ok selection
    else
      let weight : U64 := BitVec.ofNat 64 transaction.weight
      if maxTemplateNonCoinbaseWeightWu < saturatingAdd selection.totalWeight weight then
        selectTransactions lib config height maxNonCoinbase rest selection state
      else
        match config.validateAndApplyTransaction lib transaction height state with
        | .error (.error _) state => selectTransactions lib config height maxNonCoinbase rest selection state
        | .error fault _ => .error fault
        | .ok fee state => do
          let totalWeight ← okOr (checkedAdd selection.totalWeight weight)
            (.error "fork template transaction weight overflow")
          let totalFees ← okOr (checkedAdd selection.totalFees fee) (.error "fork template fee total overflow")
          selectTransactions lib config height maxNonCoinbase rest
            { selected := selection.selected ++ [transaction], totalWeight, totalFees } state

namespace ForkChainStore

def templateTransactions (lib : ForkPrimitives) (store : ForkChainStore) (height : U64) :
    Outcome (List Transaction × U64) :=
  match store.transactionUpgrade.filter fun upgrade => upgrade.activationHeight ≤ height with
  | none => .ok ([], 0)
  | some upgrade =>
    if store.mempool.isEmpty then .ok ([], 0)
    else do
      let state ← store.branchState lib store.activeTip
      let selection ← selectTransactions lib store.toForkChainConfig height
        (upgrade.maxBlockTransactions - 1).toNat store.mempool.values {} state
      return (selection.selected, selection.totalFees)

/-! ## Mining templates -/

/-- The eight hexadecimal digits of compact bits. -/
def bitsText (bits : U32) : Text := hexText 8 bits.toNat

def miningTemplate (store : ForkChainStore) (nowUnix : U64) : Outcome BitcoinMiningJobTemplate := do
  let status ← store.status
  let height ← okOr (checkedAdd status.tipHeight 1) (.error "fork-chain height overflow")
  let medianTimePast ← store.medianTimePast store.activeTip
  let minimumTime ← okOr (checkedAdd medianTimePast 1) (.error "fork-chain median-time-past overflow")
  let curtime := max nowUnix.toNat minimumTime.toNat
  let curtime ← okOr (u32FromNat? curtime) (.error "fork-chain template time exceeds u32")
  let nextDifficulty ← store.nextDifficulty lib.toForkCrypto store.activeTip height curtime
  let (selected, feesSats) ← store.templateTransactions lib.toForkPrimitives height
  let coinbaseValueSats ← okOr (checkedAdd (blockSubsidySats height) feesSats)
    (.error "fork-chain template coinbase value overflow")
  let commitment ← defaultWitnessCommitment lib selected
  return {
    version := forkBlockVersion
    previousBlockHash := status.tipHash
    curtime
    bits := bitsText nextDifficulty.bits
    height
    coinbaseValueSats
    transactionHashes := selected.map fun transaction => displayHash (computeTxid lib.toForkPrimitives transaction)
    transactions := selected.map fun transaction =>
      { txid := displayHash (computeTxid lib.toForkPrimitives transaction)
        dataHex := hexEncode (lib.serializeTransaction transaction) }
    defaultWitnessCommitment := commitment }

/-! ## Work templates -/

/-- The header that eighty bytes encode. -/
def decodeHeader? (bytes : List UInt8) : Option BlockHeader :=
  let word (offset : ℕ) : U32 := BitVec.ofNat 32 (littleEndian ((bytes.drop offset).take 4))
  if previous : ((bytes.drop 4).take 32).length = 32 then
    if root : ((bytes.drop 36).take 32).length = 32 then
      if bytes.length = 80 then
        some { version := word 0, prevBlockhash := ⟨(bytes.drop 4).take 32, previous⟩
               merkleRoot := ⟨(bytes.drop 36).take 32, root⟩, time := word 68, bits := word 72, nonce := word 76 }
      else none
    else none
  else none

def decodeHeaderPrefix (headerPrefixHex : Text) : Outcome BlockHeader := do
  require (byteLength headerPrefixHex = 76 * 2 ∧ headerPrefixHex.all isAsciiHexDigit = true)
    (.error "fork work template header prefix must be 76 bytes encoded as hex")
  let bytes ← okOr (hexDecode? headerPrefixHex) (.error "invalid fork header prefix hex")
  okOr (decodeHeader? (bytes ++ List.replicate 4 0)) (.error "fork work template header prefix is invalid")

/-- Where the block of a work template attaches: the inherited tip or a block of the active chain. -/
def workTemplateParent (store : ForkChainStore) (previous : Digest) : Outcome (U64 × Option Digest) :=
  if previous = store.inheritedTipHash then .ok (store.manifest.forkPoint.firstForkHeight, none)
  else do
    let node ← okOr (store.lookup previous) (.error "fork work template parent is unknown")
    require (store.activeByHeight[node.height]? = some previous)
      (.error "fork work template parent is not on the active chain")
    let height ← okOr (checkedAdd node.height 1) (.error "fork work template height overflow")
    return (height, some previous)

def validateWorkTemplate (crypto : Crypto) (lib : ForkPrimitives) (store : ForkChainStore)
    (template : BitcoinWorkTemplate) (nowUnix : U64) : Outcome ForkWorkTemplateValidation := do
  (template.verifyTemplateHash crypto).mapError fun _ => .error "fork work template hash is invalid"
  let header ← decodeHeaderPrefix template.headerPrefixHex
  require (header.version = forkBlockVersion) (.error "fork work template has an unsupported block version")
  let (height, parent) ← store.workTemplateParent header.prevBlockhash
  let required ← store.nextDifficulty lib.toForkCrypto parent height header.time
  require (header.bits = required.bits)
    (.error "fork work template difficulty bits do not match consensus schedule")
  let medianTimePast ← store.medianTimePast parent
  let time : U64 := header.time.setWidth 64
  require (medianTimePast < time) (.error "fork work template time is not greater than median-time-past")
  let latest ← okOr (checkedAdd nowUnix maxFutureBlockSeconds)
    (.error "fork work template future-time limit overflow")
  require (time ≤ latest) (.error "fork work template time is more than two hours in the future")
  return {
    templateHash := toAsciiLowercase template.templateHash
    previousBlockHash := displayHash header.prevBlockhash
    height
    headerTime := header.time
    bits := bitsText required.bits }

end ForkChainStore

end P2PoolBTC.Model.Node
