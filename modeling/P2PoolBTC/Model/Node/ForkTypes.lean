import P2PoolBTC.Model.Core.ForkManifest

/-! # Records of the fork chain

The data the fork node stores and returns, and the functions of other crates it calls. An error is its
outermost message; a broken internal expectation is a panic.
-/

namespace P2PoolBTC.Model.Node

open Math Std Model.Core

/-- What a fork-chain function returns. -/
abbrev Outcome (α : Type) := Except (Fault String) α

/-- Return an error. -/
def bail {α : Type} (message : String) : Outcome α := .error (.error message)

/-- A text as a string. -/
def shown (text : Text) : String := String.ofList text

inductive DifficultyPhase where
  | bootstrap
  | bitcoin (epochStartHeight : U64) (epochStartTime : U32)
deriving DecidableEq

structure NextDifficulty where
  bits : U32
  phase : DifficultyPhase
deriving DecidableEq

structure BlockNode where
  block : Block
  blockHex : Text
  height : U64
  cumulativeWork : U256
  difficultyPhase : DifficultyPhase
deriving DecidableEq

structure IndexedForkOutput where
  output : TxOut
  height : U64
  coinbase : Bool
deriving DecidableEq

structure ForkBranchState where
  utxos : ExtTreeMap OutPoint IndexedForkOutput := ∅
  txids : ExtTreeSet Digest := ∅

structure ForkTransactionLocation where
  blockHash : Digest
  transactionIndex : ℕ
deriving DecidableEq

/-- A stored block in the order of the block list: higher blocks first. -/
structure StoredBlockKey where
  height : U64
  hash : Digest
deriving DecidableEq

instance : Ord StoredBlockKey :=
  ⟨compareLex (fun left right => compare right.height left.height) (compareOn StoredBlockKey.hash)⟩

instance : TransOrd StoredBlockKey :=
  have : TransCmp fun left right : StoredBlockKey => compare right.height left.height :=
    transCmp_reverse compare StoredBlockKey.height
  inferInstanceAs (TransCmp (compareLex (fun left right : StoredBlockKey => compare right.height left.height)
    (compareOn StoredBlockKey.hash)))

instance : LawfulEqOrd StoredBlockKey where
  eq_of_compare {left right} equal := by
    obtain ⟨height, hash⟩ := compareLex_eq_eq.mp equal
    cases left
    cases right
    rw [StoredBlockKey.mk.injEq]
    exact ⟨(Std.compare_eq_iff_eq.mp height).symm, Std.compare_eq_iff_eq.mp hash⟩

structure ForkOutputSpend where
  txid : Text
  vin : ℕ
  height : U64
deriving DecidableEq

structure ForkTransactionRef where
  txid : Text
  blockHash : Text
  height : U64
  active : Bool
  transactionIndex : ℕ
  coinbase : Bool
  totalOutputSats : U64
  feeSats : Option U64
deriving DecidableEq

structure ForkUtxo where
  txid : Text
  vout : U32
  valueSats : U64
  scriptPubkeyHex : Text
  scriptType : String
  height : U64
  coinbase : Bool
deriving DecidableEq

structure ForkAddressSummary where
  address : Text
  transactionCount : ℕ
  fundedOutputCount : U64
  fundedTotalSats : U64
  spentOutputCount : U64
  spentTotalSats : U64
  inheritedInputCount : ℕ
  inheritedInputTotalSats : U64
  balanceSats : U64
  balanceScope : String
  firstSeenHeight : Option U64
  lastSeenHeight : Option U64
deriving DecidableEq

structure ForkAddressIndexEntry where
  summary : ForkAddressSummary
  transactions : List ForkTransactionRef
  utxos : List ForkUtxo
deriving DecidableEq

structure ForkExplorerIndex where
  outputs : ExtTreeMap OutPoint IndexedForkOutput := ∅
  spends : ExtTreeMap OutPoint ForkOutputSpend := ∅
  addresses : ExtTreeMap Text ForkAddressIndexEntry := ∅

structure ForkBlockAcceptance where
  accepted : Bool
  becameActiveTip : Bool
  blockHash : Text
  height : U64
  tipHash : Text
  tipHeight : U64
deriving DecidableEq

structure ForkTransactionAcceptance where
  accepted : Bool
  txid : Text
  feeSats : U64
  mempoolTransactionCount : ℕ
deriving DecidableEq

structure ForkBlockRecord where
  schemaVersion : U16
  activationId : Text
  blockHex : Text
deriving DecidableEq

inductive EcdsaSighashType where
  | all
  | other
deriving DecidableEq

inductive TapSighashType where
  | default
  | other
deriving DecidableEq

/-- A parsed signature of a key-path input. -/
structure TaprootSignature where
  signature : List UInt8
  sighashType : TapSighashType
deriving DecidableEq

/-- A parsed signature of a witness public-key-hash input. -/
structure EcdsaSignature where
  signature : List UInt8
  sighashType : EcdsaSighashType
deriving DecidableEq

/-- Functions that the fork chain takes from the Bitcoin library: hashing, consensus encoding,
signatures and addresses. A transaction identifier is a hash of the transaction without witnesses,
so it is taken as a function of that. -/
structure ForkPrimitives extends ForkCrypto where
  strippedTxid : Transaction → Digest
  headerHash : BlockHeader → Digest
  merkleRoot : List Digest → Digest
  checkWitnessCommitment : Block → Bool
  deserializeBlock : List UInt8 → Option Block
  serializeBlock : Block → List UInt8
  deserializeTransaction : List UInt8 → Option Transaction
  serializeTransaction : Transaction → List UInt8
  addressFromScript : List UInt8 → Option Text
  taprootSignatureFromSlice : List UInt8 → Option TaprootSignature
  xOnlyPublicKeyFromSlice : List UInt8 → Option Digest
  taprootKeySpendSighash : Transaction → ℕ → List TxOut → Option Digest
  verifySchnorr : List UInt8 → Digest → Digest → Bool
  ecdsaSignatureFromSlice : List UInt8 → Option EcdsaSignature
  compressedPublicKeyFromSlice : List UInt8 → Option (List UInt8)
  p2wpkhScript : List UInt8 → List UInt8
  p2wpkhSighash : Transaction → ℕ → List UInt8 → U64 → Option Digest
  verifyEcdsa : List UInt8 → Digest → List UInt8 → Bool

variable (lib : ForkPrimitives)

/-- The target that compact bits encode; a negative mantissa gives the zero target. The library shifts by the
distance modulo the width. -/
def targetOfCompact (bits : U32) : U256 :=
  let exponent := (bits >>> 24).toNat
  let mantissa := (bits &&& 0xffffff).toNat >>> (8 * (3 - exponent))
  if 0x7fffff < mantissa then 0 else BitVec.ofNat 256 mantissa <<< (8 * (exponent - 3) % 256)

/-- The compact bits of a target, rounded down to three significant bytes. -/
def compactOfTarget (target : U256) : U32 :=
  let size := (Nat.size target.toNat + 7) / 8
  let mantissa := (target.toNat <<< (8 * (3 - size))) >>> (8 * (size - 3))
  if mantissa.testBit 23 then BitVec.ofNat 32 (mantissa >>> 8 ||| (size + 1) <<< 24)
  else BitVec.ofNat 32 (mantissa ||| size <<< 24)

/-- The expected number of hashes that meet a target. -/
def workOfTarget (target : U256) : U256 :=
  if target ≤ 1 then BitVec.allOnes 256 else ~~~target / (target + 1) + 1

/-- Recorded values of the library functions. Transactions are recorded without witnesses. -/
structure ForkTables where
  activations : List (ForkActivationPayload × Text) := []
  upgrades : List (ForkTransactionUpgradePayload × Text) := []
  txids : List (Transaction × Text) := []
  headerHashes : List (BlockHeader × Text) := []
  merkleRoots : List (List Digest × Text) := []
  commitments : List Block := []
  blocks : List (List UInt8 × Block) := []
  addresses : List (List UInt8 × Text) := []
  publicKeys : List (List UInt8) := []
  sighashes : List (Transaction × Text) := []
  signatures : List (List UInt8 × Digest × Digest) := []

/-- Library functions that return the recorded values and refuse what was not recorded. -/
def ForkPrimitives.ofTables (tables : ForkTables) : ForkPrimitives where
  activationDigest payload := Digest.ofHex ((tables.activations.lookup payload).getD [])
  upgradeDigest payload := Digest.ofHex ((tables.upgrades.lookup payload).getD [])
  targetFromCompact := targetOfCompact
  targetToCompactLossy := compactOfTarget
  targetToWork := workOfTarget
  strippedTxid transaction := Digest.ofHex ((tables.txids.lookup transaction).getD [])
  headerHash header := Digest.ofHex ((tables.headerHashes.lookup header).getD [])
  merkleRoot txids := Digest.ofHex ((tables.merkleRoots.lookup txids).getD [])
  checkWitnessCommitment block := decide (block ∈ tables.commitments)
  deserializeBlock bytes := tables.blocks.lookup bytes
  serializeBlock block := ((tables.blocks.find? fun entry => entry.2 = block).map Prod.fst).getD []
  deserializeTransaction _ := none
  serializeTransaction _ := []
  addressFromScript script := tables.addresses.lookup script
  taprootSignatureFromSlice bytes :=
    if bytes.length = 64 then some { signature := bytes, sighashType := .default } else none
  xOnlyPublicKeyFromSlice bytes :=
    if bytes ∈ tables.publicKeys then some (Digest.ofHex (hexEncode bytes)) else none
  taprootKeySpendSighash transaction index _ :=
    if index = 0 then (tables.sighashes.lookup transaction).map Digest.ofHex else none
  verifySchnorr signature sighash key := decide ((signature, sighash, key) ∈ tables.signatures)
  ecdsaSignatureFromSlice _ := none
  compressedPublicKeyFromSlice _ := none
  p2wpkhScript _ := []
  p2wpkhSighash _ _ _ _ := none
  verifyEcdsa _ _ _ := false

def computeTxid (transaction : Transaction) : Digest :=
  lib.strippedTxid transaction.stripped

def blockHash (block : Block) : Digest := lib.headerHash block.header

/-- Whether the header commits to the transactions of the block. -/
def checkMerkleRoot (block : Block) : Bool :=
  block.txdata ≠ [] ∧ block.header.merkleRoot = lib.merkleRoot (block.txdata.map (computeTxid lib))

/-- The parameters a store is opened with. -/
structure ForkChainConfig where
  manifest : ForkActivationManifest
  transactionUpgrade : Option ForkTransactionUpgradeManifest
  inheritedTipHash : Digest
deriving DecidableEq

/-- A fork-chain store together with the contents of its block log. -/
structure ForkChainStore extends ForkChainConfig where
  blocks : ExtTreeMap Digest BlockNode := ∅
  activeTip : Option Digest := none
  activeByHeight : ExtTreeMap U64 Digest := ∅
  storedBlockOrder : ExtTreeSet StoredBlockKey := ∅
  transactionLocations : ExtTreeMap Digest (List ForkTransactionLocation) := ∅
  explorer : ForkExplorerIndex := {}
  mempool : ExtTreeMap Digest Transaction := ∅
  mempoolBytes : U64 := 0
  blockLog : List UInt8 := []

/-- What the fork chain reports about its tip. -/
structure ForkChainStatus where
  inheritedTipHeight : U64
  tipHeight : U64
  tipHash : Text
  transactionUpgradeId : Option Text
deriving DecidableEq

end P2PoolBTC.Model.Node
