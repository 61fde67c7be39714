import P2PoolBTC.Model.Node.ForkChain

/-! # Opening a store on its block log

The log holds one JSON record per line. Opening a store first repairs the end of the log: a complete
record without its newline gets one, and an incomplete record is cut off. Then every record is read
back and its block is validated as when it was accepted, except for the limit on future times.
-/

namespace P2PoolBTC.Model.Node

open Math Std Model.Core

variable (lib : ForkPrimitives)

/-- The kinds of errors that reading a record can return, as far as they are told apart. -/
inductive JsonErrorCategory where
  | eof
  | other
deriving DecidableEq

/-- A function that reads a record from the bytes of a line. -/
abbrev RecordReader := List UInt8 → Except JsonErrorCategory ForkBlockRecord

@[irreducible] def scanChunkBytes : ℕ := 64 * 1024

/-- The position of the last newline. -/
def lastNewline? (chunk : List UInt8) : Option ℕ :=
  (chunk.reverse.findIdx? (· = newline)).map fun fromEnd => chunk.length - 1 - fromEnd

/-- Look for the last newline before a position, one chunk at a time, and return the position
after it. -/
def lastLineStart (log : List UInt8) : ℕ → ℕ → Outcome ℕ
  | _, 0 => .ok 0
  | 0, _ + 1 => .error .diverged
  | fuel + 1, searchEnd =>
    let searchStart := searchEnd - scanChunkBytes
    match lastNewline? ((log.drop searchStart).take (searchEnd - searchStart)) with
    | some position => .ok (searchStart + position + 1)
    | none => lastLineStart log fuel searchStart

/-- The contents of the log after its end has been repaired. -/
def repairTruncatedBlockLogTail (read : RecordReader) (log : List UInt8) : Outcome (List UInt8) :=
  match log.getLast? with
  | none => .ok log
  | some finalByte =>
    if finalByte = newline then .ok log else do
      let truncateTo ← lastLineStart log log.length log.length
      let tail := log.drop truncateTo
      if maxBlockLogLineBytes < tail.length then .ok log else
        match read tail with
        | .ok _ => .ok (log ++ [newline])
        | .error .eof => .ok (log.take truncateTo)
        | .error .other => .ok log

/-- The next line of the log and what follows it. -/
def readBoundedLine (maxBytes : ℕ) (bytes : List UInt8) : Outcome (Option (List UInt8 × List UInt8)) :=
  if bytes = [] then .ok none else do
    let line := bytes.takeWhile (· ≠ newline)
    require (line.length ≤ maxBytes) (.error "fork block log line exceeds size limit")
    return some (line, bytes.drop (line.length + 1))

namespace ForkChainStore

def replayRecord (index : ℕ) (record : ForkBlockRecord) : Routine ForkChainStore String Unit := do
  let store ← get
  let named := "fork block log line " ++ toString index
  attempt (require (record.schemaVersion = forkBlockRecordSchemaVersion)
    (named ++ " has unsupported schema version " ++ toString record.schemaVersion.toNat))
  attempt (require (record.activationId = store.manifest.activationId)
    (named ++ " belongs to another activation"))
  let normalized ← settle (normalizeBlockHex record.blockHex)
  let block ← settle (decodeBlock lib normalized)
  let hash := blockHash lib block
  attempt (require (hash ∉ store.blocks)
    ("fork block log contains duplicate block " ++ shown (displayHash hash)))
  let node ← settle (store.validateBlock lib block normalized (BitVec.allOnes 64 - maxFutureBlockSeconds))
  storeBlock lib hash node

/-- Read the lines of the log in order. -/
def replayLines (read : RecordReader) : ℕ → ℕ → List UInt8 → Routine ForkChainStore String Unit
  | 0, _, _ => outOfFuel
  | fuel + 1, index, bytes => do
    match ← settle (readBoundedLine maxBlockLogLineBytes bytes) with
    | none => pure ()
    | some (line, rest) => do
      if line = [] then pure () else
        match read line with
        | .error _ => fail ("fork block log line " ++ toString (index + 1) ++ " is invalid JSON")
        | .ok record => replayRecord lib (index + 1) record
      replayLines read fuel (index + 1) rest

def replayBlockLog (read : RecordReader) : Routine ForkChainStore String Unit := do
  let store ← get
  let repaired ← settle (repairTruncatedBlockLogTail read store.blockLog)
  set { store with blockLog := repaired }
  replayLines lib read (repaired.length + 1) 0 repaired

/-- The hash that a displayed text names. -/
def parseBlockHash? (text : Text) : Option Digest := do
  let bytes ← hexDecode? text
  if size : bytes.reverse.length = 32 then some ⟨bytes.reverse, size⟩ else none

/-- Check the manifests and make a store without blocks. -/
def prepare (manifest : ForkActivationManifest) (upgrade : Option ForkTransactionUpgradeManifest) :
    Outcome ForkChainConfig := do
  (manifest.validate lib.toForkCrypto).mapError fun _ => .error "invalid fork activation manifest"
  require (manifest.config.inheritedUtxoSpendingEnabled = false)
    (.error "Experiment 0 fork node requires inherited_utxo_spending_enabled=false")
  match upgrade with
  | none => pure ()
  | some upgrade =>
    (upgrade.validateFor lib.toForkCrypto manifest).mapError fun _ =>
      .error "fork transaction upgrade does not match the activation manifest"
  let inheritedTipHash ← okOr (parseBlockHash? manifest.forkPoint.inheritedTipHash)
    (.error "invalid inherited tip block hash")
  return { manifest, transactionUpgrade := upgrade, inheritedTipHash }

def openWithTransactionUpgrade (read : RecordReader) (manifest : ForkActivationManifest)
    (upgrade : Option ForkTransactionUpgradeManifest)
    (log : List UInt8) : Outcome ForkChainStore := do
  let config ← prepare lib manifest upgrade
  match replayBlockLog lib read { config with blockLog := log } with
  | .ok _ store => .ok store
  | .error fault _ => .error fault

end ForkChainStore

end P2PoolBTC.Model.Node
