import P2PoolBTC.Math.Fault
import P2PoolBTC.Model.Core.Bitcoin

/-! # Fork activation and transaction upgrade manifests

A manifest is accepted only when rebuilding it from its own fields gives the same manifest, so an
accepted one has canonical texts, contiguous heights and an identifier that commits to its fields.
-/

namespace P2PoolBTC.Model.Core

open Math

inductive ForkError where
  | forkPointHeightOverflow
  | forkPointHeightMismatch (inheritedTipHeight firstForkHeight : U64)
  | configLaunchTimestampMismatch
  | launchBlockHeightMismatch (expected actual : U64)
  | launchBlockBeforeLaunchTimestamp
  | invalidChainName
  | invalidTargetSpacing
  | bitcoinRetargetTimespanOverflow
  | invalidBootstrapHandoffHashrate
  | invalidPostForkPowLimitBits
  | nonCanonicalPostForkPowLimitBits
  | manifestIntegrityMismatch
  | invalidTransactionActivationHeight
  | invalidCoinbaseMaturity
  | invalidMaxBlockTransactions
  | invalidMaxTransactionWeight
  | transactionUpgradeIntegrityMismatch
  | transactionUpgradeBaseMismatch
  | transactionUpgradeDoesNotPreserveLaunchRules
  | inheritedUtxoSpendingNotAllowed
  | invalidBlockHash (field : String)
deriving DecidableEq

inductive ForkDifficultyAlgorithm where
  | bootstrapThenBitcoin2016V1
deriving DecidableEq

inductive ForkTransactionConsensus where
  | segwitKeypathV1
deriving DecidableEq

/-- An instant as nanoseconds since the Unix epoch. -/
structure DateTime where
  nanoseconds : ℤ
deriving DecidableEq

/-- Whole seconds since the Unix epoch. -/
def DateTime.timestamp (instant : DateTime) : ℤ := instant.nanoseconds / 1000000000

structure ForkConfig where
  chainName : Text
  launchTimestampUtc : DateTime
  inheritedUtxoSpendingEnabled : Bool
  postForkPowLimitBits : U32
  targetSpacingSeconds : U64
  difficultyAlgorithm : ForkDifficultyAlgorithm
  bootstrapHandoffHashrateHps : U64
deriving DecidableEq

structure MainnetBlockRef where
  height : U64
  blockHash : Text
  timestamp : DateTime
deriving DecidableEq

structure ForkPoint where
  inheritedTipHeight : U64
  inheritedTipHash : Text
  firstForkHeight : U64
  launchTimestampUtc : DateTime
deriving DecidableEq

structure ForkActivationPayload where
  schemaVersion : U16
  config : ForkConfig
  forkPoint : ForkPoint
  launchBlock : MainnetBlockRef
  replayProtectionRequired : Bool
deriving DecidableEq

structure ForkTransactionUpgradePayload where
  schemaVersion : U16
  baseActivationId : Text
  activationHeight : U64
  transactionConsensus : ForkTransactionConsensus
  inheritedUtxoSpendingEnabled : Bool
  coinbaseMaturity : U64
  maxBlockTransactions : U32
  maxTransactionWeightWu : U64
deriving DecidableEq

structure ForkActivationManifest extends ForkActivationPayload where
  activationId : Text
deriving DecidableEq

structure ForkTransactionUpgradeManifest extends ForkTransactionUpgradePayload where
  upgradeId : Text
deriving DecidableEq

/-- The functions that the manifests take from the hash and Bitcoin libraries: the tagged digests of
the two payloads and the compact encoding of targets. -/
structure ForkCrypto where
  activationDigest : ForkActivationPayload → Digest
  upgradeDigest : ForkTransactionUpgradePayload → Digest
  targetFromCompact : U32 → U256
  targetToCompactLossy : U256 → U32
  targetToWork : U256 → U256

variable (crypto : ForkCrypto)

def forkActivationSchemaVersion : U16 := 2

def forkTransactionUpgradeSchemaVersion : U16 := 1

def bitcoinDifficultyAdjustmentInterval : U64 := 2016

def ForkConfig.bitcoinRetargetTimespanSeconds (config : ForkConfig) : Option U64 :=
  checkedMul config.targetSpacingSeconds bitcoinDifficultyAdjustmentInterval

/-- Letters, digits and the three signs that a chain name may use. -/
def isChainNameChar (char : Char) : Bool :=
  ('a' ≤ char && char ≤ 'z') || ('A' ≤ char && char ≤ 'Z') || ('0' ≤ char && char ≤ '9') ||
    char = '.' || char = '_' || char = '-'

def validateChainName (raw : Text) : Except ForkError Text := do
  require (raw ≠ [] ∧ byteLength raw ≤ 64) .invalidChainName
  require (raw.all isChainNameChar = true) .invalidChainName
  return raw

def normalizeForkHashHex (field : String) (raw : Text) : Except ForkError Text := do
  require (IsHexOfLength (toAsciiLowercase raw) 64) (.invalidBlockHash field)
  return toAsciiLowercase raw

namespace ForkActivationManifest

def new (config : ForkConfig) (forkPoint : ForkPoint) (launchBlock : MainnetBlockRef) :
    Except ForkError ForkActivationManifest := do
  require (forkPoint.launchTimestampUtc = config.launchTimestampUtc) .configLaunchTimestampMismatch
  let expectedFirstForkHeight ← okOr (checkedAdd forkPoint.inheritedTipHeight 1) .forkPointHeightOverflow
  require (forkPoint.firstForkHeight = expectedFirstForkHeight)
    (.forkPointHeightMismatch forkPoint.inheritedTipHeight forkPoint.firstForkHeight)
  require (launchBlock.height = forkPoint.firstForkHeight)
    (.launchBlockHeightMismatch forkPoint.firstForkHeight launchBlock.height)
  require (config.launchTimestampUtc.nanoseconds ≤ launchBlock.timestamp.nanoseconds)
    .launchBlockBeforeLaunchTimestamp
  let chainName ← validateChainName config.chainName
  require (4 ≤ config.targetSpacingSeconds) .invalidTargetSpacing
  require ((config.bitcoinRetargetTimespanSeconds.bind (checkedMul · 4)).isSome = true)
    .bitcoinRetargetTimespanOverflow
  require (config.bootstrapHandoffHashrateHps ≠ 0) .invalidBootstrapHandoffHashrate
  require (config.postForkPowLimitBits >>> 24 ≤ 32) .invalidPostForkPowLimitBits
  let powLimit := crypto.targetFromCompact config.postForkPowLimitBits
  require (powLimit ≠ 0) .invalidPostForkPowLimitBits
  require (crypto.targetToCompactLossy powLimit = config.postForkPowLimitBits) .nonCanonicalPostForkPowLimitBits
  let inheritedTipHash ← normalizeForkHashHex "fork_point.inherited_tip_hash" forkPoint.inheritedTipHash
  let blockHash ← normalizeForkHashHex "launch_block.block_hash" launchBlock.blockHash
  let payload : ForkActivationPayload :=
    { schemaVersion := forkActivationSchemaVersion
      config := { config with chainName }
      forkPoint := { forkPoint with inheritedTipHash }
      launchBlock := { launchBlock with blockHash }
      replayProtectionRequired := !config.inheritedUtxoSpendingEnabled }
  return { payload with activationId := hashHex (crypto.activationDigest payload) }

def validate (manifest : ForkActivationManifest) : Except ForkError Unit := do
  let canonical ← new crypto manifest.config manifest.forkPoint manifest.launchBlock
  require (canonical = manifest) .manifestIntegrityMismatch

end ForkActivationManifest

namespace ForkTransactionUpgradeManifest

def new (baseActivationId : Text) (activationHeight : U64) (transactionConsensus : ForkTransactionConsensus)
    (coinbaseMaturity : U64) (maxBlockTransactions : U32)
    (maxTransactionWeightWu : U64) : Except ForkError ForkTransactionUpgradeManifest := do
  let baseActivationId ← normalizeForkHashHex "transaction_upgrade.base_activation_id" baseActivationId
  require (activationHeight ≠ 0) .invalidTransactionActivationHeight
  require (coinbaseMaturity ≠ 0 ∧ coinbaseMaturity ≤ 10000) .invalidCoinbaseMaturity
  require (2 ≤ maxBlockTransactions ∧ maxBlockTransactions ≤ 100000) .invalidMaxBlockTransactions
  require (400 ≤ maxTransactionWeightWu ∧ maxTransactionWeightWu ≤ 4000000) .invalidMaxTransactionWeight
  let payload : ForkTransactionUpgradePayload :=
    { schemaVersion := forkTransactionUpgradeSchemaVersion
      baseActivationId, activationHeight, transactionConsensus
      inheritedUtxoSpendingEnabled := false
      coinbaseMaturity, maxBlockTransactions, maxTransactionWeightWu }
  return { payload with upgradeId := hashHex (crypto.upgradeDigest payload) }

def validate (manifest : ForkTransactionUpgradeManifest) : Except ForkError Unit := do
  let canonical ← new crypto manifest.baseActivationId manifest.activationHeight manifest.transactionConsensus
    manifest.coinbaseMaturity manifest.maxBlockTransactions manifest.maxTransactionWeightWu
  require (canonical = manifest) .transactionUpgradeIntegrityMismatch

def validateFor (manifest : ForkTransactionUpgradeManifest) (activation : ForkActivationManifest) :
    Except ForkError Unit := do
  manifest.validate crypto
  activation.validate crypto
  require (manifest.baseActivationId = activation.activationId) .transactionUpgradeBaseMismatch
  require (activation.forkPoint.firstForkHeight < manifest.activationHeight)
    .transactionUpgradeDoesNotPreserveLaunchRules
  require (manifest.inheritedUtxoSpendingEnabled = false) .inheritedUtxoSpendingNotAllowed

end ForkTransactionUpgradeManifest

end P2PoolBTC.Model.Core
