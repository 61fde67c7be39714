import P2PoolBTC.Model.Core.IdenaAnchor
import P2PoolBTC.Model.Core.Gossip

/-! # Share-work bindings

A binding commits a share's fields into the coinbase of the header it was mined with: one
`OP_RETURN` output carries the hash of the fields, and a Merkle branch connects the coinbase to
the header.
-/

namespace P2PoolBTC.Model.Core

open Math

variable (crypto : Crypto)

def maxCoinbaseBytes : ℕ := 256 * 1024

def maxMerkleBranches : ℕ := 512

/-- The bytes of `P2SW1`. -/
def shareWorkOpReturnPrefix : List UInt8 := [0x50, 0x32, 0x53, 0x57, 0x31]

inductive ShareWorkBindingError where
  | unsupportedPolicyVersion (version : U16)
  | unsupportedBindingVersion (version : U16)
  | invalidField (field reason : String)
  | legacyReplayPolicyRejected
  | policyMismatch (expected actual : Text)
  | commitmentOutputCount (count : ℕ)
  | commitmentOutputMismatch
  | invalidCoinbase (reason : String)
  | merkleRootMismatch
deriving DecidableEq

def isLabelChar (char : Char) : Bool :=
  char.isLower || char.isDigit || char == '-' || char == '_' || char == '.' || char == ':'

def validateLabel (field : String) (value : Text) (maxBytes : ℕ) : Except ShareWorkBindingError Unit := do
  require (value ≠ [] ∧ byteLength value ≤ maxBytes)
    (.invalidField field ("length must be 1..=" ++ toString maxBytes ++ " bytes"))
  require (value = toAsciiLowercase value ∧ value.all isLabelChar = true)
    (.invalidField field "must use canonical lowercase ASCII label characters")

def validateHash (field : String) (value : Text) : Except ShareWorkBindingError Unit :=
  require (IsHexOfLength value 64 ∧ value = toAsciiLowercase value)
    (.invalidField field "must be 32-byte lowercase hex")

def decodeExactHex (field : String) (value : Text) (expectedBytes : ℕ) :
    Except ShareWorkBindingError (List UInt8) := do
  require (IsHexOfLength value (expectedBytes * 2))
    (.invalidField field ("must be exactly " ++ toString expectedBytes ++ " bytes of hex"))
  okOr (hexDecode? value) (.invalidField field (crypto.hexDecodeError value))

def ShareWorkBindingPolicyV1.validate (policy : ShareWorkBindingPolicyV1) :
    Except ShareWorkBindingError Unit := do
  require (policy.schemaVersion = 1) (.unsupportedPolicyVersion policy.schemaVersion)
  (validateExperimentId policy.experimentId).mapError fun error =>
    .invalidField "experiment_id" error.message
  validateHash "fork_activation_id" policy.forkActivationId
  require (¬ policy.forkActivationId.all (· == '0') = true)
    (.invalidField "fork_activation_id" "must not be zero")
  let networkId ← (normalizeGossipNetworkId policy.sharechainNetworkId).mapError fun error =>
    .invalidField "sharechain_network_id" error.message
  require (networkId = policy.sharechainNetworkId)
    (.invalidField "sharechain_network_id" "must use canonical lowercase form")
  require (policy.requireBindingFromGenesis = true) .legacyReplayPolicyRejected

def ShareWorkBindingPolicyV1.commitmentHash (policy : ShareWorkBindingPolicyV1) :
    Except ShareWorkBindingError Text := do
  policy.normalized.validate
  return taggedHashHex crypto (.shareWorkPolicy policy.normalized)

variable (binding : ShareWorkBindingV1)

def ShareWorkBindingV1.validateCommitmentFields : Except ShareWorkBindingError Unit := do
  require (binding.schemaVersion = 1) (.unsupportedBindingVersion binding.schemaVersion)
  validateHash "policy_hash" binding.policyHash
  validateLabel "miner_id" binding.minerId 64
  validateHash "assigned_share_target" binding.assignedShareTarget
  require (¬ binding.assignedShareTarget.all (· == '0') = true)
    (.invalidField "assigned_share_target" "must not be zero")
  validateHash "parent_share_hash" binding.parentShareHash
  validateLabel "idena_snapshot_id" binding.idenaSnapshotId 64
  validateHash "idena_snapshot_proof_root" binding.idenaSnapshotProofRoot
  binding.idenaAnchor.validate.mapError fun error => .invalidField "idena_anchor" error.message
  validateHash "idena_anchor_policy_hash" binding.idenaAnchorPolicyHash

def ShareWorkBindingV1.commitmentHash : Except ShareWorkBindingError Digest := do
  let normalized := binding.normalized
  normalized.validateCommitmentFields
  return crypto.sha256Tagged (.shareWorkCommitment
    { schemaVersion := normalized.schemaVersion
      policyHash := normalized.policyHash
      minerId := normalized.minerId
      assignedShareTarget := normalized.assignedShareTarget
      parentShareHash := normalized.parentShareHash
      idenaSnapshotId := normalized.idenaSnapshotId
      idenaSnapshotProofRoot := normalized.idenaSnapshotProofRoot
      idenaAnchor := normalized.idenaAnchor
      idenaAnchorPolicyHash := normalized.idenaAnchorPolicyHash })

/-- `OP_RETURN`, a direct push, the protocol marker and the commitment hash. -/
def ShareWorkBindingV1.opReturnScriptPubkey : Except ShareWorkBindingError (List UInt8) := do
  let commitment ← binding.commitmentHash crypto
  let payload := shareWorkOpReturnPrefix ++ commitment.bytes
  return 0x6a :: UInt8.ofNat payload.length :: payload

def ShareWorkBindingV1.verifyPolicy (policy : ShareWorkBindingPolicyV1) : Except ShareWorkBindingError Unit := do
  let expected ← policy.commitmentHash crypto
  let actual := toAsciiLowercase binding.policyHash
  require (actual = expected) (.policyMismatch expected actual)

/-- An `OP_RETURN` script that mentions the protocol marker. -/
def isShareWorkCommitmentScript : List UInt8 → Bool
  | 0x6a :: rest => rest.tails.any shareWorkOpReturnPrefix.isPrefixOf
  | _ => false

/-- Hash a coinbase identifier up the Merkle branch. -/
def climbCoinbaseBranches : List UInt8 → List Text →
    Except ShareWorkBindingError (List UInt8)
  | merkle, [] => pure merkle
  | merkle, branch :: rest => do
    let sibling ← decodeExactHex crypto "coinbase_merkle_branch" branch 32
    climbCoinbaseBranches (crypto.sha256d (merkle ++ sibling)).bytes rest

def ShareWorkBindingV1.verifyHeaderCommitment (bitcoinHeaderHex : Text) : Except ShareWorkBindingError Unit := do
  binding.validateCommitmentFields
  let header ← decodeExactHex crypto "bitcoin_header_hex" bitcoinHeaderHex 80
  require (binding.coinbaseTxHex ≠ [] ∧ byteLength binding.coinbaseTxHex % 2 = 0 ∧
    byteLength binding.coinbaseTxHex ≤ maxCoinbaseBytes * 2 ∧
    binding.coinbaseTxHex.all isAsciiHexDigit = true)
    (.invalidField "coinbase_tx_hex"
      "must be nonempty canonical transaction hex within the size limit")
  require (binding.coinbaseMerkleBranches.length ≤ maxMerkleBranches)
    (.invalidField "coinbase_merkle_branches"
      ("must contain at most " ++ toString maxMerkleBranches ++ " entries"))
  let coinbaseBytes ← okOr (hexDecode? binding.coinbaseTxHex)
    (.invalidCoinbase (crypto.hexDecodeError binding.coinbaseTxHex))
  let coinbase ← (crypto.deserializeTransaction coinbaseBytes).mapError .invalidCoinbase
  require (coinbase.isCoinbase = true ∧ coinbase.serialized = coinbaseBytes)
    (.invalidCoinbase "transaction is not a canonical coinbase")
  let expectedScript ← binding.opReturnScriptPubkey crypto
  let commitmentOutputs := coinbase.outputScripts.filter isShareWorkCommitmentScript
  require (commitmentOutputs.length = 1) (.commitmentOutputCount commitmentOutputs.length)
  require (commitmentOutputs.head? = some expectedScript) .commitmentOutputMismatch
  let merkle ← climbCoinbaseBranches crypto coinbase.txid.bytes binding.coinbaseMerkleBranches
  require (merkle = (header.drop 36).take 32) .merkleRootMismatch

end P2PoolBTC.Model.Core
