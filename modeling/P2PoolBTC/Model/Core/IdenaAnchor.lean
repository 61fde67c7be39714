import P2PoolBTC.Math.Fault
import P2PoolBTC.Model.Core.Hashing

/-! # Idena anchors

Validation of block anchors, registry anchors, finalized checkpoints and the anchor policy.
A checkpoint carries its own quorum; it is valid only when two thirds of its registered miners
support it and when its parent tip is the all-zero hash exactly in round one.
-/

namespace P2PoolBTC.Model.Core

open Math

variable (crypto : Crypto)

def checkpointQuorumNumerator : U32 := 2

def checkpointQuorumDenominator : U32 := 3

/-- Idena blocks between the finalizations of two consecutive checkpoints. -/
def checkpointMinIntervalBlocks : U64 := 6

def maxCheckpointMiners : ℕ := 48

inductive IdenaAnchorError where
  | unsupportedPolicyVersion (version : U16)
  | invalidBlockHeight
  | invalidRegistrationSequence
  | invalidRegistrationBlock
  | invalidRegistrationTimestamp
  | invalidCheckpointRecord
  | invalidCheckpointParent
  | invalidCheckpointQuorum
  | invalidCheckpointScore
  | invalidActivationHeight
  | invalidFinalityConfirmations
  | invalidAnchorAgeWindow
  | zeroRegistryContractAddress
  | invalidRegistryEcosystemCid
  | invalidMinimumRegistrationBurn
  | invalidHandoffVersionBit (bit : BitVec 8)
  | invalidExperimentId
  | invalidMinerId
  | invalidHex (field : String) (bytes : ℕ)
  | experimentMismatch
  | registryContractMismatch
  | policyCommitmentMismatch
  | registrationBeforeActivation
  | checkpointBeforeActivation
deriving DecidableEq

/-- The text an error is reported with. -/
def IdenaAnchorError.message : IdenaAnchorError → String
  | .unsupportedPolicyVersion version =>
    "unsupported Idena anchor policy version " ++ toString version.toNat
  | .invalidBlockHeight => "invalid Idena block height"
  | .invalidRegistrationSequence => "invalid miner registration sequence"
  | .invalidRegistrationBlock => "invalid miner registration block"
  | .invalidRegistrationTimestamp => "invalid miner registration timestamp"
  | .invalidCheckpointRecord => "invalid or noncanonical sharechain checkpoint record"
  | .invalidCheckpointParent => "checkpoint parent does not match its round"
  | .invalidCheckpointQuorum => "checkpoint registered/supporting miner quorum is invalid"
  | .invalidCheckpointScore => "checkpoint cumulative score must be a positive canonical u128 decimal"
  | .invalidActivationHeight => "invalid Idena anchor activation height"
  | .invalidFinalityConfirmations =>
    "Idena anchor finality confirmations must be greater than zero"
  | .invalidAnchorAgeWindow =>
    "Idena anchor age window must cover the finality confirmation depth"
  | .zeroRegistryContractAddress => "registry contract address must not be the zero address"
  | .invalidRegistryEcosystemCid =>
    "registry ecosystem CID must be canonical CIDv1 base32 with SHA2-256 multihash"
  | .invalidMinimumRegistrationBurn =>
    "minimum registration burn must be a positive canonical u128 decimal"
  | .invalidHandoffVersionBit bit =>
    "Bitcoin handoff version bit " ++ toString bit.toNat ++ " is outside the versionbits range 0-28"
  | .invalidExperimentId => "invalid experiment id"
  | .invalidMinerId => "invalid miner id"
  | .invalidHex field bytes =>
    "invalid " ++ field ++ ": expected " ++ toString bytes ++ " lowercase hexadecimal bytes"
  | .experimentMismatch => "miner registry experiment does not match the active policy"
  | .registryContractMismatch => "miner registry contract does not match the active policy"
  | .policyCommitmentMismatch => "Idena anchor policy commitment does not match the active policy"
  | .registrationBeforeActivation => "miner registration predates Idena anchor-policy activation"
  | .checkpointBeforeActivation => "sharechain checkpoint predates Idena anchor-policy activation"

def isExperimentIdChar (char : Char) : Bool :=
  char.isLower || char.isDigit || ['.', '_', ':', '/', '-'].contains char

def isMinerIdChar (char : Char) : Bool :=
  char.isAlphanum || char == '-' || char == '_' || char == '.'

def validateExperimentId (value : Text) : Except IdenaAnchorError Unit :=
  require (value ≠ [] ∧ byteLength value ≤ 64 ∧ value = toAsciiLowercase value ∧
    value.all isExperimentIdChar = true) .invalidExperimentId

def validateAnchorMinerId (value : Text) : Except IdenaAnchorError Unit :=
  require (value ≠ [] ∧ byteLength value ≤ 64 ∧ value.all isMinerIdChar = true) .invalidMinerId

def validatePrefixedHex (field : String) (value : Text) (bytes : ℕ) : Except IdenaAnchorError Unit :=
  require (byteLength value = bytes * 2 + 2 ∧ ['0', 'x'].isPrefixOf value = true ∧
    (value.drop 2).all isAsciiHexDigit = true ∧ value = toAsciiLowercase value)
    (.invalidHex field bytes)

def validateUnprefixedHex (field : String) (value : Text) (bytes : ℕ) : Except IdenaAnchorError Unit :=
  require (IsHexOfLength value (bytes * 2) ∧ value = toAsciiLowercase value) (.invalidHex field bytes)

/-- A positive decimal number below `2 ^ 128` without leading zeros or a sign. -/
def IsPositiveCanonicalU128 (value : Text) : Prop :=
  value ≠ [] ∧ (1 < byteLength value → value.head? ≠ some '0') ∧
    value.all Char.isDigit = true ∧ (parseDecimal? 128 value).any (0 < ·) = true

instance (value : Text) : Decidable (IsPositiveCanonicalU128 value) :=
  inferInstanceAs (Decidable (_ ∧ _))

def IdenaBlockAnchorV1.validate (anchor : IdenaBlockAnchorV1) : Except IdenaAnchorError Unit := do
  require (anchor.height ≠ 0) .invalidBlockHeight
  validatePrefixedHex "Idena block hash" anchor.hash 32

def MinerRegistryAnchorV1.validate (anchor : MinerRegistryAnchorV1) : Except IdenaAnchorError Unit := do
  validatePrefixedHex "registry contract address" anchor.contractAddress 20
  validateExperimentId anchor.experimentId
  require (anchor.registrationSequence ≠ 0) .invalidRegistrationSequence
  require (anchor.registrationBlock ≠ 0) .invalidRegistrationBlock
  require (0 < anchor.registrationTimestamp) .invalidRegistrationTimestamp
  validateUnprefixedHex "registration commitment" anchor.registrationCommitment 32

/-- Lower-case miner identifiers in strictly increasing order. -/
def validateCheckpointMinerList (seen : List Text) (previous : Option Text) :
    List Text → Except IdenaAnchorError Unit
  | [] => pure ()
  | miner :: rest => do
    validateAnchorMinerId miner
    require (miner = toAsciiLowercase miner ∧ previous.all (· < miner) = true ∧ miner ∉ seen)
      .invalidCheckpointRecord
    validateCheckpointMinerList (miner :: seen) (some miner) rest

def checkpointQuorumThreshold (registeredCount : U32) : Except IdenaAnchorError U32 := do
  require (registeredCount ≠ 0 ∧ registeredCount.toNat ≤ maxCheckpointMiners) .invalidCheckpointQuorum
  let doubled ← okOr (checkedMul registeredCount checkpointQuorumNumerator) .invalidCheckpointQuorum
  let rounded ← okOr (checkedAdd doubled (checkpointQuorumDenominator - 1)) .invalidCheckpointQuorum
  return rounded / checkpointQuorumDenominator

def SharechainCheckpointAnchorV1.validate (checkpoint : SharechainCheckpointAnchorV1) :
    Except IdenaAnchorError Unit := do
  validatePrefixedHex "registry contract address" checkpoint.contractAddress 20
  validateExperimentId checkpoint.experimentId
  require (checkpoint.round ≠ 0 ∧ checkpoint.shareHeight ≠ 0 ∧ checkpoint.finalizationBlock ≠ 0)
    .invalidCheckpointRecord
  require (0 < checkpoint.finalizationTimestamp) .invalidCheckpointRecord
  validateUnprefixedHex "checkpoint share tip" checkpoint.shareTipHash 32
  require (checkpoint.shareTipHash ≠ zeroShareParentHash) .invalidCheckpointRecord
  validateUnprefixedHex "checkpoint parent share tip" checkpoint.parentCheckpointTip 32
  require (checkpoint.round = 1 ↔ checkpoint.parentCheckpointTip = zeroShareParentHash)
    .invalidCheckpointParent
  validatePrefixedHex "checkpoint finalization block hash" checkpoint.finalizationBlockHash 32
  require (IsPositiveCanonicalU128 checkpoint.cumulativeScore) .invalidCheckpointScore
  validateCheckpointMinerList [] none checkpoint.registeredMiners
  validateCheckpointMinerList [] none checkpoint.supporters
  -- Both lists are sorted here, so a binary search finds exactly the members.
  require (checkpoint.registeredMiners ≠ [] ∧
    checkpoint.registeredMiners.length ≤ maxCheckpointMiners ∧
    checkpoint.supportCount.toNat = checkpoint.supporters.length ∧
    checkpoint.registeredCount.toNat = checkpoint.registeredMiners.length ∧
    ∀ miner ∈ checkpoint.supporters, miner ∈ checkpoint.registeredMiners) .invalidCheckpointQuorum
  let threshold ← checkpointQuorumThreshold checkpoint.registeredCount
  require (threshold ≤ checkpoint.supportCount) .invalidCheckpointQuorum

variable (policy : IdenaAnchorPolicyV2)

def IdenaAnchorPolicyV2.validate : Except IdenaAnchorError Unit := do
  require (policy.schemaVersion = 2) (.unsupportedPolicyVersion policy.schemaVersion)
  validateExperimentId policy.experimentId
  validatePrefixedHex "registry contract address" policy.registryContractAddress 20
  require (¬ (policy.registryContractAddress.drop 2).all (· == '0') = true)
    .zeroRegistryContractAddress
  validatePrefixedHex "registry deployment transaction hash" policy.registryDeploymentTxHash 32
  validateUnprefixedHex "registry deployment payload SHA-256" policy.registryDeploymentPayloadSha256 32
  validateUnprefixedHex "registry contract WASM SHA-256" policy.registryContractWasmSha256 32
  validateUnprefixedHex "registry contract code hash" policy.registryContractCodeHash 32
  require (crypto.isCanonicalCidV1 policy.registryEcosystemCid = true) .invalidRegistryEcosystemCid
  require (IsPositiveCanonicalU128 policy.minimumRegistrationBurnAtoms) .invalidMinimumRegistrationBurn
  require (policy.activationIdenaHeight ≠ 0) .invalidActivationHeight
  require (policy.finalityConfirmations ≠ 0) .invalidFinalityConfirmations
  require (policy.finalityConfirmations ≤ policy.maxAnchorAgeBlocks) .invalidAnchorAgeWindow
  require (policy.handoffVersionBit ≤ 28) (.invalidHandoffVersionBit policy.handoffVersionBit)

def IdenaAnchorPolicyV2.commitmentHash : Except IdenaAnchorError Text := do
  policy.normalized.validate crypto
  return taggedHashHex crypto (.idenaAnchorPolicy policy.normalized)

def IdenaAnchorPolicyV2.validateRegistryAnchor (anchor : MinerRegistryAnchorV1) : Except IdenaAnchorError Unit := do
  policy.validate crypto
  anchor.validate
  require (EqIgnoreAsciiCase anchor.experimentId policy.experimentId) .experimentMismatch
  require (EqIgnoreAsciiCase anchor.contractAddress policy.registryContractAddress)
    .registryContractMismatch
  require (policy.activationIdenaHeight ≤ anchor.registrationBlock) .registrationBeforeActivation

def IdenaAnchorPolicyV2.validateCheckpointAnchor (checkpoint : SharechainCheckpointAnchorV1) :
    Except IdenaAnchorError Unit := do
  policy.validate crypto
  checkpoint.validate
  require (EqIgnoreAsciiCase checkpoint.experimentId policy.experimentId) .experimentMismatch
  require (EqIgnoreAsciiCase checkpoint.contractAddress policy.registryContractAddress)
    .registryContractMismatch
  require (policy.activationIdenaHeight ≤ checkpoint.finalizationBlock) .checkpointBeforeActivation

variable {value : Text} {done : Unit}

private theorem prefixedHex_lowercase {field : String} {bytes : ℕ}
    (valid : validatePrefixedHex field value bytes = .ok done) : toAsciiLowercase value = value :=
  (require_eq_ok.mp valid).2.2.2.symm

private theorem unprefixedHex_lowercase {field : String} {bytes : ℕ}
    (valid : validateUnprefixedHex field value bytes = .ok done) : toAsciiLowercase value = value :=
  (require_eq_ok.mp valid).2.symm

private theorem experimentId_lowercase (valid : validateExperimentId value = .ok done) :
    toAsciiLowercase value = value :=
  (require_eq_ok.mp valid).2.2.1.symm

/-- A valid registry anchor is already in normal form. -/
theorem MinerRegistryAnchorV1.normalized_of_validate {anchor : MinerRegistryAnchorV1}
    (valid : anchor.validate = .ok done) : anchor.normalized = anchor := by
  simp only [validate, except_bind_eq_ok, require_eq_ok] at valid
  obtain ⟨_, contract, _, experiment, _, _, _, _, _, _, commitment⟩ := valid
  simp only [normalized, prefixedHex_lowercase contract, experimentId_lowercase experiment,
    unprefixedHex_lowercase commitment]

end P2PoolBTC.Model.Core
