import P2PoolBTC.Math.Trail
import P2PoolBTC.Model.Node.ForkTypes

/-! # Validation of fork blocks

A block extends the inherited tip or a stored block. Its difficulty and its earliest time follow from
the headers of its branch, and its transactions are checked against the unspent outputs that replaying
the branch leaves. Before the transaction upgrade activates, a block holds its coinbase only.
-/

namespace P2PoolBTC.Model.Node

open Math Std Model.Core

variable (lib : ForkPrimitives)

def maxFutureBlockSeconds : U64 := 2 * 60 * 60

def maxMoneySats : U64 := 21000000 * 100000000

def forkBlockVersion : U32 := 0x20000000

def maxBlockWeight : ℕ := 4000000

/-- The value as a thirty-two-bit word, when it fits. -/
def u32FromNat? (value : ℕ) : Option U32 := if value < 2 ^ 32 then some (BitVec.ofNat 32 value) else none

/-! ## Unspent outputs of a branch -/

/-- Add the outputs of a transaction from a position on. -/
def addOutputsFrom (txid : Digest) (height : U64) (coinbase : Bool) :
    ℕ → List TxOut → Routine ForkBranchState String Unit
  | _, [] => pure ()
  | index, output :: rest => do
    let vout ← attempt (okOr (u32FromNat? index) "fork transaction output index exceeds u32")
    let state ← get
    let outpoint : OutPoint := ⟨txid, vout⟩
    set { state with utxos := state.utxos.insert outpoint { output, height, coinbase } }
    if (state.utxos[outpoint]?).isSome then
      fail ("fork transaction output collision for " ++ shown (displayHash txid) ++ ":" ++ toString vout.toNat)
    else
      addOutputsFrom txid height coinbase (index + 1) rest

def addTransactionOutputs (transaction : Transaction) (height : U64) : Routine ForkBranchState String Unit :=
  addOutputsFrom (computeTxid lib transaction) height transaction.isCoinbase 0 transaction.output

/-- Remove the outputs that a transaction spends. -/
def removeInputs (missing : OutPoint → Fault String) : List OutPoint → Routine ForkBranchState String Unit
  | [] => pure ()
  | outpoint :: rest => do
    let state ← get
    match state.utxos[outpoint]? with
    | none => raise (missing outpoint)
    | some _ => do
      set { state with utxos := state.utxos.erase outpoint }
      removeInputs missing rest

def OutPoint.shown (outpoint : OutPoint) : String :=
  Node.shown (displayHash outpoint.txid) ++ ":" ++ toString outpoint.vout.toNat

/-- Apply a transaction of a stored block to the state of its branch. -/
def replayTransaction (hash : Digest) (height : U64) (transaction : Transaction) :
    Routine ForkBranchState String Unit := do
  let txid := computeTxid lib transaction
  let state ← get
  set { state with txids := state.txids.insert txid }
  if txid ∈ state.txids then
    fail ("fork branch contains duplicate transaction id " ++ shown (displayHash txid) ++ " at block " ++
      shown (displayHash hash))
  else do
    if transaction.isCoinbase then pure () else
      removeInputs (fun outpoint => .error ("fork branch transaction " ++ shown (displayHash txid) ++
        " spends missing output " ++ OutPoint.shown outpoint)) transaction.spends
    addTransactionOutputs lib transaction height

/-- Apply transactions of one stored block in order. -/
def replayTransactions (hash : Digest) (height : U64) : List Transaction → Routine ForkBranchState String Unit
  | [] => pure ()
  | transaction :: rest => do
    replayTransaction lib hash height transaction
    replayTransactions hash height rest

/-- Apply the blocks of a branch, oldest first. -/
def replayBranch : List (Digest × BlockNode) → Routine ForkBranchState String Unit
  | [] => pure ()
  | (hash, node) :: rest => do
    replayTransactions lib hash node.height node.block.txdata
    replayBranch rest

variable (config : ForkChainConfig)

namespace ForkChainConfig

def transactionsActiveAt (height : U64) : Bool :=
  config.transactionUpgrade.any fun upgrade => upgrade.activationHeight ≤ height

/-- The stored parent of a block, or none when the block extends the inherited tip. -/
def attachment (block : Block) : Option Digest :=
  if block.header.prevBlockhash = config.inheritedTipHash then none else some block.header.prevBlockhash

def parentOf (node : BlockNode) : Option Digest := config.attachment node.block

end ForkChainConfig

variable (store : ForkChainStore)

/-- The entry of a stored block. -/
def ForkChainStore.lookup (hash : Digest) : Option BlockNode := store.blocks[hash]?

/-- Follow parent links to the inherited tip, newest block first. -/
def ForkChainStore.branch (missing : String) (tip : Option Digest) : Outcome (List (Digest × BlockNode)) :=
  walk store.lookup store.parentOf (fun hash => .error (missing ++ shown (displayHash hash))) .diverged
    store.blocks.size tip

def ForkChainStore.branchState (parent : Option Digest) : Outcome ForkBranchState := do
  let branch ← store.branch "fork UTXO traversal found missing block " parent
  match replayBranch lib branch.reverse {} with
  | .ok _ state => .ok state
  | .error fault _ => .error fault

/-! ## Transactions -/

/-- Add up outputs within the money limit. -/
def sumOutputs : U64 → List TxOut → Outcome U64
  | total, [] => .ok total
  | total, output :: rest => do
    require (output.value ≤ maxMoneySats) (.error "fork transaction output exceeds MAX_MONEY")
    let next ← okOr (checkedAdd total output.value) (.error "fork transaction output total overflow")
    require (next ≤ maxMoneySats) (.error "fork transaction output total exceeds MAX_MONEY")
    sumOutputs next rest

/-- What the scan of a transaction's inputs has collected. -/
structure InputScan where
  seenInputs : ExtTreeSet OutPoint := ∅
  prevouts : List TxOut := []
  inputTotal : U64 := 0

/-- Look up the outputs that the inputs spend, in order. -/
def scanInputs (upgrade : ForkTransactionUpgradeManifest) (height : U64)
    (utxos : ExtTreeMap OutPoint IndexedForkOutput) : InputScan → List TxIn → Outcome InputScan
  | scan, [] => .ok scan
  | scan, input :: rest => do
    require (input.scriptSig = []) (.error "fork segwit key-path input scriptSig must be empty")
    require (input.previousOutput ∉ scan.seenInputs)
      (.error ("fork transaction repeats input " ++ OutPoint.shown input.previousOutput))
    let previous ← okOr (utxos[input.previousOutput]?) (.error ("fork transaction input " ++
      OutPoint.shown input.previousOutput ++ " is not an unspent fork-created output"))
    let depth := saturatingSub height previous.height
    require (¬ (previous.coinbase = true ∧ depth < upgrade.coinbaseMaturity))
      (.error ("fork transaction spends immature coinbase " ++ OutPoint.shown input.previousOutput ++
        " at depth " ++ toString depth.toNat ++ "; " ++ toString upgrade.coinbaseMaturity.toNat ++ " required"))
    let inputTotal ← okOr (checkedAdd scan.inputTotal previous.output.value)
      (.error "fork transaction input total overflow")
    require (inputTotal ≤ maxMoneySats) (.error "fork transaction input total exceeds MAX_MONEY")
    scanInputs upgrade height utxos
      { seenInputs := scan.seenInputs.insert input.previousOutput
        prevouts := scan.prevouts ++ [previous.output]
        inputTotal } rest

def checkTaprootInput (transaction : Transaction) (prevouts : List TxOut) (index : ℕ) (input : TxIn)
    (previous : TxOut) : Outcome Unit := do
  let named := "fork P2TR input " ++ toString index
  let signatureBytes ← okOr (if input.witness.length = 1 then input.witness[0]? else none)
    (.error (named ++ " must contain exactly one key-path signature"))
  require (signatureBytes.length = 64) (.error (named ++ " requires a 64-byte SIGHASH_DEFAULT signature"))
  let signature ← okOr (lib.taprootSignatureFromSlice signatureBytes)
    (.error (named ++ " signature is invalid"))
  require (signature.sighashType = .default) (.error (named ++ " must use SIGHASH_DEFAULT"))
  let outputKey ← okOr (lib.xOnlyPublicKeyFromSlice ((previous.scriptPubkey.drop 2).take 32))
    (.error "fork P2TR output key is invalid")
  let sighash ← okOr (lib.taprootKeySpendSighash transaction index prevouts)
    (.error ("failed to compute " ++ named ++ " sighash"))
  require (lib.verifySchnorr signature.signature sighash outputKey = true)
    (.error (named ++ " signature verification failed"))

def checkWitnessKeyHashInput (transaction : Transaction) (index : ℕ) (input : TxIn) (previous : TxOut) :
    Outcome Unit := do
  let named := "fork P2WPKH input " ++ toString index
  let malformed : Fault String := .error (named ++ " must contain a signature and public key")
  require (input.witness.length = 2) malformed
  let signatureBytes ← okOr input.witness[0]? malformed
  let signature ← okOr (lib.ecdsaSignatureFromSlice signatureBytes)
    (.error (named ++ " signature is invalid"))
  require (signature.sighashType = .all) (.error (named ++ " must use SIGHASH_ALL"))
  let keyBytes ← okOr input.witness[1]? malformed
  let publicKey ← okOr (lib.compressedPublicKeyFromSlice keyBytes)
    (.error (named ++ " public key is invalid"))
  require (lib.p2wpkhScript publicKey = previous.scriptPubkey)
    (.error (named ++ " public key does not match its output"))
  let sighash ← okOr (lib.p2wpkhSighash transaction index previous.scriptPubkey previous.value)
    (.error ("failed to compute " ++ named ++ " sighash"))
  require (lib.verifyEcdsa signature.signature sighash publicKey = true)
    (.error (named ++ " signature verification failed"))

def checkInputSignature (transaction : Transaction) (prevouts : List TxOut) (index : ℕ) (input : TxIn)
    (previous : TxOut) : Outcome Unit :=
  if Script.isP2tr previous.scriptPubkey then
    checkTaprootInput lib transaction prevouts index input previous
  else if Script.isP2wpkh previous.scriptPubkey then
    checkWitnessKeyHashInput lib transaction index input previous
  else bail ("fork input " ++ toString index ++
    " spends an unsupported script; segwit-keypath-v1 permits only P2WPKH and P2TR key-path outputs")

/-- Check the remaining inputs in order against the outputs they spend. -/
def checkInputSignatures (transaction : Transaction) (prevouts : List TxOut) : ℕ → List (TxIn × TxOut) → Outcome Unit
  | _, [] => .ok ()
  | index, (input, previous) :: rest => do
    checkInputSignature lib transaction prevouts index input previous
    checkInputSignatures transaction prevouts (index + 1) rest

def validateSegwitKeypathSignatures (transaction : Transaction) (prevouts : List TxOut) : Outcome Unit := do
  require (prevouts.length = transaction.input.length)
    (.error "fork transaction previous-output count mismatch")
  checkInputSignatures lib transaction prevouts 0 (transaction.input.zip prevouts)

namespace ForkChainConfig

/-- The checks of a transaction against the state of its branch, and its fee. -/
def checkTransaction (transaction : Transaction) (height : U64) (state : ForkBranchState) : Outcome U64 := do
  let upgrade ← okOr (config.transactionUpgrade.filter fun upgrade => upgrade.activationHeight ≤ height)
    (.error "fork transaction validation requested before activation")
  require (transaction.isCoinbase = false) (.error "fork non-coinbase transaction set contains a coinbase")
  require (transaction.version = 2) (.error "fork transaction version must be 2")
  require (transaction.lockTime = 0) (.error "fork transaction lock_time must be zero in segwit-keypath-v1")
  require (transaction.input ≠ []) (.error "fork transaction has no inputs")
  require (transaction.output ≠ []) (.error "fork transaction has no outputs")
  require (transaction.weight ≤ upgrade.maxTransactionWeightWu.toNat)
    (.error ("fork transaction exceeds the " ++ toString upgrade.maxTransactionWeightWu.toNat ++
      " weight-unit limit"))
  let txid := computeTxid lib transaction
  require (txid ∉ state.txids)
    (.error ("fork branch already contains transaction id " ++ shown (displayHash txid)))
  let outputTotal ← sumOutputs 0 transaction.output
  let scan ← scanInputs upgrade height state.utxos {} transaction.input
  let feeSats ← okOr (checkedSub scan.inputTotal outputTotal)
    (.error ("fork transaction outputs " ++ toString outputTotal.toNat ++ " sats exceed inputs " ++
      toString scan.inputTotal.toNat ++ " sats"))
  validateSegwitKeypathSignatures lib transaction scan.prevouts
  return feeSats

def validateAndApplyTransaction (transaction : Transaction) (height : U64) : Routine ForkBranchState String U64 := do
  let state ← get
  let feeSats ← settle (config.checkTransaction lib transaction height state)
  removeInputs (fun _ => .panicked "validated fork transaction input remains unspent") transaction.spends
  modify fun state => { state with txids := state.txids.insert (computeTxid lib transaction) }
  addTransactionOutputs lib transaction height
  return feeSats

/-- Validate and apply the transactions after the coinbase and add up their fees. -/
def applyTransactions (height : U64) : U64 → List Transaction → Routine ForkBranchState String U64
  | feesSats, [] => pure feesSats
  | feesSats, transaction :: rest => do
    let fee ← config.validateAndApplyTransaction lib transaction height
    let total ← attempt (okOr (checkedAdd feesSats fee) "fork block fee total overflow")
    applyTransactions height total rest

/-- Apply the coinbase and then the other transactions of a new block. -/
def applyBlockTransactions (height : U64) (coinbase : Transaction) (others : List Transaction) :
    Routine ForkBranchState String U64 := do
  let txid := computeTxid lib coinbase
  let state ← get
  set { state with txids := state.txids.insert txid }
  if txid ∈ state.txids then
    fail ("fork branch already contains coinbase transaction id " ++ shown (displayHash txid))
  else do
    addTransactionOutputs lib coinbase height
    config.applyTransactions lib height 0 others

/-- The fees of the transactions of a new block, which are applied to the state of its branch. -/
def transactionFees (branchState : Outcome ForkBranchState) (coinbase : Transaction)
    (others : List Transaction) (height : U64) : Outcome U64 :=
  match config.transactionUpgrade.filter fun upgrade => upgrade.activationHeight ≤ height with
  | none => do
    require (others = []) (.error ("fork blocks before the transaction activation height must contain " ++
      "exactly one coinbase transaction"))
    return 0
  | some upgrade => do
    require (others.length + 1 ≤ upgrade.maxBlockTransactions.toNat)
      (.error ("fork block contains " ++ toString (others.length + 1) ++ " transactions; " ++
        toString upgrade.maxBlockTransactions.toNat ++ " allowed"))
    require (others.any Transaction.isCoinbase = false)
      (.error "fork block contains more than one coinbase transaction")
    let state ← branchState
    match config.applyBlockTransactions lib height coinbase others state with
    | .ok feesSats _ => .ok feesSats
    | .error fault _ => .error fault

end ForkChainConfig

def ForkChainStore.validateBlockTransactions (coinbase : Transaction) (others : List Transaction) (height : U64)
    (parent : Option Digest) : Outcome U64 :=
  store.transactionFees lib (store.branchState lib parent) coinbase others height

/-! ## Difficulty and time -/

variable (crypto : ForkCrypto)

def nextWorkRequiredV1 (previousBits : U32) (actualTimespan targetTimespan : U64) (powLimitBits : U32) :
    Outcome U32 := do
  let minTimespan := targetTimespan >>> 2
  let maxTimespan ← okOr (checkedMul targetTimespan 4)
    (.error "fork difficulty maximum retarget timespan overflow")
  let actualTimespan :=
    if actualTimespan < minTimespan then minTimespan
    else if maxTimespan < actualTimespan then maxTimespan else actualTimespan
  -- The product is taken in 512 bits.
  let scaled := (crypto.targetFromCompact previousBits).toNat * actualTimespan.toNat % 2 ^ 512
  let adjusted := scaled / targetTimespan.toNat
  let bounded := min adjusted (crypto.targetFromCompact powLimitBits).toNat
  return crypto.targetToCompactLossy (BitVec.ofNat 256 bounded)

def nextWorkRequired (previousBits : U32) (actualTimespan targetTimespan : U64) (config : ForkConfig) : Outcome U32 :=
  match config.difficultyAlgorithm with
  | .bootstrapThenBitcoin2016V1 =>
    nextWorkRequiredV1 crypto previousBits actualTimespan targetTimespan config.postForkPowLimitBits

def bootstrapHandoffWork (config : ForkConfig) : U256 :=
  BitVec.ofNat 256 (config.bootstrapHandoffHashrateHps.toNat * config.targetSpacingSeconds.toNat)

namespace ForkChainConfig

def phaseAfterBootstrapBlock (config : ForkChainConfig) (bits : U32) (height : U64) (time : U32) : DifficultyPhase :=
  if bootstrapHandoffWork config.manifest.config ≤ crypto.targetToWork (crypto.targetFromCompact bits) then
    .bitcoin height time
  else .bootstrap

/-- The difficulty of a block on top of a given parent. -/
def difficultyAfter (config : ForkChainConfig) (parent : BlockNode) (childHeight : U64) (childTime : U32) :
    Outcome NextDifficulty :=
  match parent.difficultyPhase with
  | .bootstrap => do
    let elapsed := saturatingSub childTime parent.block.header.time
    let bits ← nextWorkRequired crypto parent.block.header.bits (elapsed.setWidth 64)
      config.manifest.config.targetSpacingSeconds config.manifest.config
    return { bits, phase := config.phaseAfterBootstrapBlock crypto bits childHeight childTime }
  | .bitcoin epochStartHeight epochStartTime => do
    let epochOffset ← okOr (checkedSub childHeight epochStartHeight)
      (.error "fork-chain Bitcoin retarget height underflow")
    if epochOffset < bitcoinDifficultyAdjustmentInterval then
      return { bits := parent.block.header.bits, phase := parent.difficultyPhase }
    else do
      require (epochOffset = bitcoinDifficultyAdjustmentInterval)
        (.error "fork-chain Bitcoin retarget state skipped an epoch boundary")
      let actualTimespan := saturatingSub parent.block.header.time epochStartTime
      let targetTimespan ← okOr config.manifest.config.bitcoinRetargetTimespanSeconds
        (.error "validated fork config lost its Bitcoin retarget timespan")
      let bits ← nextWorkRequired crypto parent.block.header.bits (actualTimespan.setWidth 64) targetTimespan
        config.manifest.config
      return { bits, phase := .bitcoin childHeight childTime }

/-- The difficulty of a first fork block. -/
def launchDifficulty (config : ForkChainConfig) (childHeight : U64) (childTime : U32) : NextDifficulty :=
  { bits := config.manifest.config.postForkPowLimitBits
    phase := config.phaseAfterBootstrapBlock crypto config.manifest.config.postForkPowLimitBits childHeight
      childTime }

/-- The second before the launch, which stands in for the times before the fork. -/
def launchAnchor : Outcome U64 :=
  let launch := saturateI64 (config.manifest.config.launchTimestampUtc.timestamp - 1)
  if 0 ≤ launch then .ok (BitVec.ofNat 64 launch.toNat)
  else bail "fork launch timestamp predates Unix epoch"

end ForkChainConfig

/-- The middle entry of the times in increasing order. -/
def medianTime (times : List U64) : U64 := (sortBy compare times).getD (times.length / 2) 0

namespace ForkChainStore

def nextDifficulty (store : ForkChainStore) (parentHash : Option Digest) (childHeight : U64) (childTime : U32) :
    Outcome NextDifficulty :=
  match parentHash with
  | none => .ok (store.launchDifficulty crypto childHeight childTime)
  | some hash => do
    let parent ← okOr (store.lookup hash) (.error "fork-chain difficulty parent is unknown")
    store.difficultyAfter crypto parent childHeight childTime

def medianTimePast (parent : Option Digest) : Outcome U64 := do
  let anchor ← store.launchAnchor
  let ancestors ← walkAtMost store.lookup store.parentOf (fun hash => .error
    ("fork-chain parent traversal found missing block " ++ shown (displayHash hash))) 10 parent
  return medianTime (anchor :: ancestors.map fun entry => entry.2.block.header.time.setWidth 64)

end ForkChainStore

/-! ## Coinbase rules -/

def blockSubsidySats (height : U64) : U64 :=
  let halvings := height.toNat / 210000
  if 64 ≤ halvings then 0 else (5000000000 : U64) >>> halvings

/-- The bytes of a number, least significant first, without leading zeros. -/
def minimalBytes : ℕ → ℕ → List UInt8
  | 0, _ => []
  | _ + 1, 0 => []
  | fuel + 1, remaining => UInt8.ofNat (remaining % 256) :: minimalBytes fuel (remaining / 256)

def minimalScriptNumber (value : U64) : List UInt8 :=
  let bytes := minimalBytes 8 value.toNat
  if bytes.getLast?.any fun byte => 128 ≤ byte.toNat then bytes ++ [0] else bytes

def validateCoinbaseHeight (coinbase : Transaction) (height : U64) : Outcome Unit := do
  let input ← okOr coinbase.input.head? (.error "fork coinbase has no input")
  require (2 ≤ input.scriptSig.length ∧ input.scriptSig.length ≤ 100)
    (.error "fork coinbase scriptSig length must be 2..=100 bytes")
  let encodedHeight := minimalScriptNumber height
  require (encodedHeight.length ≤ 75) (.error "fork block height script number is too large")
  let expected := UInt8.ofNat encodedHeight.length :: encodedHeight
  require (expected.isPrefixOf input.scriptSig = true)
    (.error ("fork coinbase does not begin with the minimally encoded BIP34 height " ++ toString height.toNat))

/-- Add up coinbase outputs. -/
def sumCoinbaseOutputs : U64 → List TxOut → Outcome U64
  | total, [] => .ok total
  | total, output :: rest => do
    require (output.value ≤ maxMoneySats) (.error "fork coinbase output exceeds MAX_MONEY")
    let next ← okOr (checkedAdd total output.value) (.error "fork coinbase output sum overflow")
    sumCoinbaseOutputs next rest

def validateCoinbaseReward (coinbase : Transaction) (height : U64) (feesSats : U64) : Outcome Unit := do
  let total ← sumCoinbaseOutputs 0 coinbase.output
  let allowed ← okOr (checkedAdd (blockSubsidySats height) feesSats)
    (.error "fork coinbase subsidy plus fees overflow")
  require (total ≤ allowed) (.error ("fork coinbase pays " ++ toString total.toNat ++
    " sats but subsidy plus fees are only " ++ toString allowed.toNat ++ " sats"))

/-! ## Blocks -/

/-- Where a block attaches. -/
structure BlockParent where
  height : U64
  work : U256
  tip : Option Digest

def ForkChainStore.blockParent (previousHash : Digest) : Outcome BlockParent :=
  if previousHash = store.inheritedTipHash then
    .ok { height := store.manifest.forkPoint.firstForkHeight, work := 0, tip := none }
  else do
    let parent ← okOr (store.lookup previousHash)
      (.error ("fork block parent " ++ shown (displayHash previousHash) ++ " is unknown"))
    let height ← okOr (checkedAdd parent.height 1) (.error "fork block height overflow")
    return { height, work := parent.cumulativeWork, tip := some previousHash }

/-- The header carries the required target and its hash meets it. -/
def ValidPow (header : BlockHeader) (requiredTarget : U256) : Prop :=
  lib.targetFromCompact header.bits = requiredTarget ∧
    littleEndian (lib.headerHash header).bytes ≤ requiredTarget.toNat

instance (lib : ForkPrimitives) (header : BlockHeader) (requiredTarget : U256) :
    Decidable (ValidPow lib header requiredTarget) := inferInstanceAs (Decidable (_ ∧ _))

def ForkChainStore.validateBlock (block : Block) (blockHex : Text) (nowUnix : U64) : Outcome BlockNode := do
  require (block.weight ≤ maxBlockWeight)
    (.error "fork block exceeds the 4,000,000 weight-unit consensus limit")
  let coinbase ← okOr block.txdata.head? (.error "fork block has no coinbase transaction")
  require (coinbase.isCoinbase = true) (.error "fork block first transaction is not a coinbase")
  require (checkMerkleRoot lib block = true) (.error "fork block transaction merkle root is invalid")
  require (lib.checkWitnessCommitment block = true) (.error "fork block witness commitment is invalid")
  require (block.header.version = forkBlockVersion) (.error "fork block has an unsupported version")
  let parent ← store.blockParent block.header.prevBlockhash
  let nextDifficulty ← store.nextDifficulty lib.toForkCrypto parent.tip parent.height block.header.time
  let requiredTarget := lib.targetFromCompact nextDifficulty.bits
  require (ValidPow lib block.header requiredTarget)
    (.error "fork block has invalid difficulty bits or proof of work")
  let medianTimePast ← store.medianTimePast parent.tip
  let time : U64 := block.header.time.setWidth 64
  require (medianTimePast < time) (.error ("fork block time " ++ toString time.toNat ++
    " is not greater than median-time-past " ++ toString medianTimePast.toNat))
  let latest ← okOr (checkedAdd nowUnix maxFutureBlockSeconds) (.error "fork block future-time limit overflow")
  require (time ≤ latest) (.error "fork block time is more than two hours in the future")
  let feesSats ← store.validateBlockTransactions lib coinbase block.txdata.tail parent.height parent.tip
  validateCoinbaseHeight coinbase parent.height
  validateCoinbaseReward coinbase parent.height feesSats
  return { block, blockHex, height := parent.height
           cumulativeWork := parent.work + lib.targetToWork requiredTarget
           difficultyPhase := nextDifficulty.phase }

end P2PoolBTC.Model.Node
