import P2PoolBTC.Model.Node.ForkExplorer

/-! # The fork-chain store

Submitting a block validates it, appends it to the block log and stores it. The stored block with the
most cumulative work is the active tip, and a tie goes to the smaller displayed hash. A new tip rebuilds
the height index and the explorer index and revalidates the waiting transactions.
-/

namespace P2PoolBTC.Model.Node

open Math Std Model.Core

variable (lib : ForkPrimitives)

def maxBlockBytes : ℕ := 4 * 1024 * 1024

def maxBlockHexBytes : ℕ := maxBlockBytes * 2

def maxBlockLogLineBytes : ℕ := maxBlockHexBytes + 64 * 1024

def maxMempoolTransactions : ℕ := 10000

def maxMempoolBytes : U64 := 3 * 1024 * 1024

def maxMempoolTransactionBytes : ℕ := 400000

def forkBlockRecordSchemaVersion : U16 := 1

/-! ## Block texts and records -/

def normalizeBlockHex (raw : Text) : Outcome Text := do
  require (raw ≠ [] ∧ byteLength raw % 2 = 0 ∧ byteLength raw ≤ maxBlockHexBytes)
    (.error "fork block hex length is outside allowed bounds")
  require (raw.all isAsciiHexDigit = true) (.error "fork block contains non-hex characters")
  return toAsciiLowercase raw

def decodeBlock (blockHex : Text) : Outcome Block := do
  let bytes ← okOr (hexDecode? blockHex) (.error "fork block is invalid hex")
  require (bytes.length ≤ maxBlockBytes) (.error "fork block exceeds serialized size limit")
  let block ← okOr (lib.deserializeBlock bytes) (.error "fork block is not Bitcoin consensus data")
  require (lib.serializeBlock block = bytes) (.error "fork block encoding is not canonical")
  return block

def normalizeTransactionHex (raw : Text) : Outcome Text := do
  require (raw ≠ [] ∧ byteLength raw % 2 = 0 ∧ byteLength raw ≤ maxMempoolTransactionBytes * 2)
    (.error "fork transaction hex length is outside allowed bounds")
  require (raw.all isAsciiHexDigit = true) (.error "fork transaction contains non-hex characters")
  return toAsciiLowercase raw

def decodeTransaction (transactionHex : Text) : Outcome Transaction := do
  let bytes ← okOr (hexDecode? transactionHex) (.error "fork transaction is invalid hex")
  require (bytes.length ≤ maxBlockBytes) (.error "fork transaction exceeds serialized size limit")
  let transaction ← okOr (lib.deserializeTransaction bytes)
    (.error "fork transaction is not Bitcoin consensus data")
  require (lib.serializeTransaction transaction = bytes)
    (.error "fork transaction encoding is not canonical")
  return transaction

/-- One character of a JSON string. -/
def jsonEscape (char : Char) : Text :=
  if char = '"' then ['\\', '"']
  else if char = '\\' then ['\\', '\\']
  else if char.toNat = 8 then ['\\', 'b']
  else if char.toNat = 9 then ['\\', 't']
  else if char.toNat = 10 then ['\\', 'n']
  else if char.toNat = 12 then ['\\', 'f']
  else if char.toNat = 13 then ['\\', 'r']
  else if char.toNat < 32 then ['\\', 'u'] ++ hexText 4 char.toNat
  else [char]

def jsonString (text : Text) : Text := '"' :: text.flatMap jsonEscape ++ ['"']

/-- How an append ends: everything is written and synced, or an operation fails with an error when the
given number of bytes has been written. -/
inductive AppendEnding where
  | synced
  | stopped (written : ℕ) (reason : String)
deriving DecidableEq

def newline : UInt8 := 10

/-- The line that stores a record, without its final newline. -/
def ForkBlockRecord.encode (record : ForkBlockRecord) : List UInt8 :=
  utf8Bytes ("\x7b\"schema_version\":".toList ++ (toString record.schemaVersion.toNat).toList ++
    ",\"activation_id\":".toList ++ jsonString record.activationId ++
    ",\"block_hex\":".toList ++ jsonString record.blockHex ++ "\x7d".toList)

namespace ForkChainStore

/-- The record that stores a block in the log. -/
def blockRecord (store : ForkChainConfig) (blockHex : Text) : ForkBlockRecord :=
  { schemaVersion := forkBlockRecordSchemaVersion, activationId := store.manifest.activationId, blockHex }

/-- Append a record, with the ending that the file system gives it. An append that stops leaves what was
written in the log, whose end is repaired only when a store is opened. -/
def appendRecord (ending : AppendEnding) (blockHex : Text) : Routine ForkChainStore String Unit := do
  let store ← get
  let encoded := (blockRecord store.toForkChainConfig blockHex).encode
  attempt (require (encoded.length ≤ maxBlockLogLineBytes) "fork block record exceeds size limit")
  match ending with
  | .synced => set { store with blockLog := store.blockLog ++ encoded ++ [newline] }
  | .stopped written reason => do
    set { store with blockLog := store.blockLog ++ (encoded ++ [newline]).take written }
    fail reason

/-! ## Tip and indices -/

variable (store : ForkChainStore)

def transactionUpgradeId : Option Text :=
  store.transactionUpgrade.map ForkTransactionUpgradeManifest.upgradeId

def status : Outcome ForkChainStatus := do
  match store.activeTip with
  | some hash => do
    let node ← okOr (store.lookup hash) (.panicked "active fork tip must exist in block map")
    return {
      inheritedTipHeight := store.manifest.forkPoint.inheritedTipHeight
      tipHeight := node.height
      tipHash := displayHash hash
      transactionUpgradeId := store.transactionUpgradeId }
  | none =>
    return {
      inheritedTipHeight := store.manifest.forkPoint.inheritedTipHeight
      tipHeight := store.manifest.forkPoint.inheritedTipHeight
      tipHash := displayHash store.inheritedTipHash
      transactionUpgradeId := store.transactionUpgradeId }

/-- The blocks of the height index, lowest first. -/
def activeBlocks : Outcome (List ActiveBlock) :=
  store.activeByHeight.toList.mapM fun entry => do
    let node ← okOr (store.lookup entry.2) (.panicked "active fork block must exist")
    return { height := entry.1, hash := entry.2, block := node.block }

def rebuildExplorerIndex : Routine ForkChainStore String Unit := do
  let store ← get
  let active ← settle store.activeBlocks
  let explorer ← settle (explorerIndex lib active)
  set { store with explorer }

/-- Map the heights of a branch to its blocks. -/
def heightIndex (branch : List (Digest × BlockNode)) : ExtTreeMap U64 Digest :=
  branch.foldl (fun active entry => active.insert entry.2.height entry.1) ∅

def rebuildActiveIndex : Routine ForkChainStore String Unit := do
  let store ← get
  let branch ← settle (store.branch "active fork chain contains missing block " store.activeTip)
  set { store with activeByHeight := heightIndex branch }
  rebuildExplorerIndex lib

/-- Whether a block with some work and hash is preferred to another one. -/
def Outranks (work : U256) (hash : Digest) (otherWork : U256) (otherHash : Digest) : Prop :=
  otherWork < work ∨ work = otherWork ∧ displayHash hash < displayHash otherHash

instance (work : U256) (hash : Digest) (otherWork : U256) (otherHash : Digest) :
    Decidable (Outranks work hash otherWork otherHash) := inferInstanceAs (Decidable (_ ∨ _))

def considerActiveTip (candidateHash : Digest) : Routine ForkChainStore String Unit := do
  let store ← get
  let candidate ← settle (okOr (store.lookup candidateHash) (.panicked "new candidate must exist in block map"))
  let better ← match store.activeTip with
    | none => pure true
    | some currentHash => do
      let current ← settle (okOr (store.lookup currentHash) (.panicked "active tip must exist in block map"))
      pure (decide (Outranks candidate.cumulativeWork candidateHash current.cumulativeWork currentHash))
  if better then do
    set { store with activeTip := some candidateHash }
    rebuildActiveIndex lib
  else pure ()

/-- Note where the transactions of a block are, from a position on. -/
def locateTransactions (hash : Digest) : ℕ → List Transaction → ExtTreeMap Digest (List ForkTransactionLocation) →
      ExtTreeMap Digest (List ForkTransactionLocation)
  | _, [], locations => locations
  | transactionIndex, transaction :: rest, locations =>
    let txid := computeTxid lib transaction
    locateTransactions hash (transactionIndex + 1) rest
      (locations.insert txid ((locations[txid]?).getD [] ++ [{ blockHash := hash, transactionIndex }]))

def indexStoredBlock (hash : Digest) : Routine ForkChainStore String Unit := do
  let store ← get
  let node ← attempt (okOr (store.lookup hash) "cannot index a fork block that is not stored")
  let key : StoredBlockKey := { height := node.height, hash }
  set { store with storedBlockOrder := store.storedBlockOrder.insert key }
  if key ∈ store.storedBlockOrder then fail "fork block is already present in explorer ordering index"
  else
    modify fun store => { store with
      transactionLocations := locateTransactions lib hash 0 node.block.txdata store.transactionLocations }

/-- Store a validated block and update the indices. -/
def storeBlock (hash : Digest) (node : BlockNode) : Routine ForkChainStore String Unit := do
  modify fun store => { store with blocks := store.blocks.insert hash node }
  indexStoredBlock lib hash
  considerActiveTip lib hash

/-! ## Waiting transactions -/

def checkedMempoolBytes (current transactionBytes : U64) : Outcome U64 := do
  let next ← okOr (checkedAdd current transactionBytes) (.error "fork transaction mempool byte count overflow")
  require (next ≤ maxMempoolBytes) (.error "fork transaction mempool byte limit exceeded")
  return next

/-- Keep the waiting transactions that are still valid, in the order of their identifiers. -/
def keepValidTransactions (nextHeight : U64) :
    List (Digest × Transaction) → ForkBranchState → Routine ForkChainStore String Unit
  | [], _ => pure ()
  | (txid, transaction) :: rest, state => do
    if txid ∈ state.txids then keepValidTransactions nextHeight rest state
    else do
      let store ← get
      match store.validateAndApplyTransaction lib transaction nextHeight state with
      | .error (.error _) state => keepValidTransactions nextHeight rest state
      | .error fault _ => raise fault
      | .ok _ state => do
        let transactionBytes : U64 := BitVec.ofNat 64 (lib.serializeTransaction transaction).length
        match checkedMempoolBytes store.mempoolBytes transactionBytes with
        | .error _ => pure ()
        | .ok mempoolBytes => set { store with mempool := store.mempool.insert txid transaction, mempoolBytes }
        keepValidTransactions nextHeight rest state

def revalidateMempool : Routine ForkChainStore String Unit := do
  let store ← get
  let status ← settle store.status
  let nextHeight ← attempt (okOr (checkedAdd status.tipHeight 1)
    "fork-chain mempool revalidation height overflow")
  set { store with mempool := ∅, mempoolBytes := 0 }
  if store.transactionsActiveAt nextHeight then do
    let state ← settle (store.branchState lib store.activeTip)
    keepValidTransactions lib nextHeight store.mempool.toList state
  else pure ()

def submitTransaction (transactionHex : Text) : Routine ForkChainStore String ForkTransactionAcceptance := do
  let store ← get
  let normalized ← settle (normalizeTransactionHex transactionHex)
  let transaction ← settle (decodeTransaction lib normalized)
  let txid := computeTxid lib transaction
  if txid ∈ store.mempool then
    return { accepted := false, txid := displayHash txid, feeSats := 0
             mempoolTransactionCount := store.mempool.size }
  else do
    attempt (require (store.mempool.size < maxMempoolTransactions) "fork transaction mempool is full")
    let nextMempoolBytes ← settle (checkedMempoolBytes store.mempoolBytes
      (BitVec.ofNat 64 (byteLength normalized / 2)))
    let status ← settle store.status
    let nextHeight ← attempt (okOr (checkedAdd status.tipHeight 1) "fork-chain mempool height overflow")
    attempt (match store.transactionUpgrade with
      | none => .error "fork transaction consensus upgrade is not configured"
      | some upgrade => require (upgrade.activationHeight ≤ nextHeight)
          ("fork transactions are not active until block height " ++ toString upgrade.activationHeight.toNat))
    let state ← settle (store.branchState lib store.activeTip)
    attempt (require (txid ∉ state.txids)
      ("fork transaction " ++ shown (displayHash txid) ++ " is already confirmed on the active chain"))
    let mempoolSpends := store.mempool.values.flatMap Transaction.spends
    attempt (require (transaction.spends.any (mempoolSpends.contains ·) = false)
      "fork transaction conflicts with an existing mempool spend")
    match store.validateAndApplyTransaction lib transaction nextHeight state with
    | .error fault _ => raise fault
    | .ok feeSats _ => do
      set { store with mempool := store.mempool.insert txid transaction, mempoolBytes := nextMempoolBytes }
      return { accepted := true, txid := displayHash txid, feeSats
               mempoolTransactionCount := (store.mempool.insert txid transaction).size }

/-! ## Submission -/

/-- Revalidate the waiting transactions when the tip has moved, and report on the stored block. -/
def reportAcceptance (hash : Digest) (height : U64) (previousTip : Option Digest) :
    Routine ForkChainStore String ForkBlockAcceptance := do
  let stored ← get
  if previousTip ≠ stored.activeTip then revalidateMempool lib
  let store ← get
  let status ← settle store.status
  return {
    accepted := true
    becameActiveTip := store.activeTip = some hash ∧ previousTip ≠ store.activeTip
    blockHash := displayHash hash
    height
    tipHash := status.tipHash
    tipHeight := status.tipHeight }

/-- Validate, log and store a block that is not stored yet. When the append fails, nothing is stored. -/
def acceptBlockEnding (ending : AppendEnding) (block : Block) (normalized : Text) (nowUnix : U64) :
    Routine ForkChainStore String ForkBlockAcceptance := do
  let store ← get
  let hash := blockHash lib block
  let node ← settle (store.validateBlock lib block normalized nowUnix)
  appendRecord ending normalized
  storeBlock lib hash node
  reportAcceptance lib hash node.height store.activeTip

/-- Accept a block whose record is written and synced. -/
def acceptBlock : Block → Text → U64 → Routine ForkChainStore String ForkBlockAcceptance :=
  acceptBlockEnding lib .synced

def submitBlockAtTimeEnding (ending : AppendEnding) (blockHex : Text) (nowUnix : U64) :
    Routine ForkChainStore String ForkBlockAcceptance := do
  let store ← get
  let normalized ← settle (normalizeBlockHex blockHex)
  let block ← settle (decodeBlock lib normalized)
  let hash := blockHash lib block
  match store.lookup hash with
  | some existing => do
    let status ← settle store.status
    return {
      accepted := false
      becameActiveTip := store.activeTip = some hash
      blockHash := displayHash hash
      height := existing.height
      tipHash := status.tipHash
      tipHeight := status.tipHeight }
  | none => acceptBlockEnding lib ending block normalized nowUnix

def submitBlockAtTime : Text → U64 → Routine ForkChainStore String ForkBlockAcceptance :=
  submitBlockAtTimeEnding lib .synced

def activeBlockHash (height : U64) : Option Text :=
  if height = store.manifest.forkPoint.inheritedTipHeight then some (displayHash store.inheritedTipHash)
  else (store.activeByHeight[height]?).map displayHash

def activeBlockHex (height : U64) : Option Text :=
  ((store.activeByHeight[height]?).bind store.lookup).map BlockNode.blockHex

end ForkChainStore

end P2PoolBTC.Model.Node
