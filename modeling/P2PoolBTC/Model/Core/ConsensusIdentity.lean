import P2PoolBTC.Model.Core.IdenaAnchor
import P2PoolBTC.Model.Core.Snapshot
import P2PoolBTC.Model.Core.Bitcoin

/-! # Consensus identity authorizations

A policy pins the Merkle root of the identities that may produce blocks. An authorization carries one
identity's leaf, its Merkle path and a block signature, and travels in one `OP_RETURN` output of the
coinbase.
-/

namespace P2PoolBTC.Model.Core

open Math

/-- The external primitives with the plain hash that tagged hashes are taken with. -/
structure IdentityCrypto extends Crypto where
  sha256 : List UInt8 → Digest

variable (crypto : IdentityCrypto)

def consensusIdentityPolicyVersion : U16 := 1

def consensusIdentityAuthorizationVersion : UInt8 := 1

/-- The bytes of `P2IA1`. -/
def consensusIdentityMagic : List UInt8 := [0x50, 0x32, 0x49, 0x41, 0x31]

def maxConsensusIdentityProofDepth : ℕ := 16

def maxConsensusIdentitySnapshotSeconds : ℕ := 31 * 24 * 60 * 60

def maxExperimentIdBytes : ℕ := 64

def maxNetworkIdBytes : ℕ := 32

def policyTag : List UInt8 := utf8Bytes "P2POOLBTC_IDENA_AUTH_POLICY_V1".toList

def leafTag : List UInt8 := utf8Bytes "P2POOLBTC_IDENA_AUTH_LEAF_V1".toList

def nodeTag : List UInt8 := utf8Bytes "P2POOLBTC_IDENA_AUTH_NODE_V1".toList

def outputsTag : List UInt8 := utf8Bytes "P2POOLBTC_IDENA_AUTH_OUTPUTS_V1".toList

/-- What a tagged hash is taken of. -/
def taggedInput (tag payload : List UInt8) : List UInt8 := tag ++ 0 :: payload

def sha256Tagged (tag payload : List UInt8) : Digest :=
  crypto.sha256 (taggedInput tag payload)

structure ConsensusIdentityPolicyV1 where
  schemaVersion : U16
  experimentId : Text
  bitcoinNetwork : Text
  bitcoinForkActivationId : Text
  shareWorkActivationId : Text
  registryContractAddress : Text
  idenaFinalizedHeight : U64
  idenaFinalizedTimestamp : U64
  idenaFinalizedBlockHash : Text
  idenaNextValidationTimestamp : U64
  authorizationRoot : Text
  authorizedIdentityCount : U32
  bitcoinActivationHeight : U64
  bitcoinExpiryHeight : U64
  bitcoinExpiryMtp : U64
  maxProofDepth : UInt8
  requireShareWorkCommitment : Bool
deriving DecidableEq

structure ConsensusIdentityLeafV1 where
  idenaAddress : Text
  identityState : IdenaStatus
  miningPubkeyXonly : Text
  registryCommitment : Text
  registrationSequence : U32
  registrationBlock : U64
  registrationEpoch : U16
deriving DecidableEq

structure ConsensusIdentityProofV1 where
  leafIndex : U32
  siblings : List Text
deriving DecidableEq

structure ConsensusIdentityAuthorizationV1 where
  schemaVersion : UInt8
  policyHash : Text
  leaf : ConsensusIdentityLeafV1
  proof : ConsensusIdentityProofV1
  blockSignatureHex : Text
deriving DecidableEq

inductive ConsensusIdentityError where
  | unsupportedPolicyVersion (version : U16)
  | unsupportedAuthorizationVersion (version : UInt8)
  | invalidField (field reason : String)
  | ineligibleIdentity
  | policyMismatch (expected actual : Text)
  | invalidMerkleProof
  | malformedAuthorizationOutput
  | emptyAuthorizationSet
deriving DecidableEq

/-! ## Field checks -/

/-- The bytes of a word, least significant first. -/
def leBytes : ℕ → ℕ → List UInt8
  | 0, _ => []
  | count + 1, value => UInt8.ofNat value :: leBytes count (value / 256)

def isLowercaseHexDigit (char : Char) : Bool := isAsciiHexDigit char && !char.isUpper

/-- The digits of a hexadecimal field, without the leading `0x` of a prefixed one. -/
def hexPayload (field : String) (value : Text) (prefixed : Bool) : Except ConsensusIdentityError Text :=
  if prefixed then
    okOr (stripLeading? ['0', 'x'] value) (.invalidField field "must use a lowercase 0x prefix")
  else .ok value

def decodeHexExact (field : String) (value : Text) (bytes : ℕ) (prefixed : Bool) :
    Except ConsensusIdentityError (List UInt8) := do
  let payload ← hexPayload field value prefixed
  require (byteLength payload = bytes * 2 ∧ payload.all isLowercaseHexDigit = true)
    (.invalidField field ("must contain exactly " ++ toString bytes ++ " lowercase hexadecimal bytes"))
  okOr (hexDecode? payload) (.invalidField field (crypto.hexDecodeError payload))

def validateHex (field : String) (value : Text) (bytes : ℕ) (prefixed : Bool) :
    Except ConsensusIdentityError Unit := do
  let _ ← decodeHexExact crypto field value bytes prefixed

def decodeHash (value : Text) : Except ConsensusIdentityError Digest := do
  let bytes ← decodeHexExact crypto "hash" value 32 false
  if size : bytes.length = 32 then .ok ⟨bytes, size⟩
  else .error (.invalidField "hash" "must contain 32 bytes")

def isIdentifierChar (char : Char) : Bool :=
  char.isLower || char.isDigit || ['-', '.', '_', '/'].contains char

def validateAsciiIdentifier (field : String) (value : Text) (max : ℕ) : Except ConsensusIdentityError Unit :=
  require (value ≠ [] ∧ byteLength value ≤ max ∧ value.all isIdentifierChar = true)
    (.invalidField field "must be bounded canonical lowercase ASCII")

def appendBoundedAscii (bytes : List UInt8) (value : Text) (max : ℕ) :
    Except ConsensusIdentityError (List UInt8) := do
  validateAsciiIdentifier "identifier" value max
  return bytes ++ UInt8.ofNat (byteLength value) :: utf8Bytes value

/-- Halve until nothing remains; a 32-bit word is gone after thirty-two halvings. -/
def countHalvings : ℕ → ℕ → ℕ → ℕ
  | 0, _, depth => depth
  | fuel + 1, remaining, depth =>
    if remaining ≠ 0 then countHalvings fuel (remaining / 2) (depth + 1) else depth

def requiredMerkleProofDepth (authorizedIdentityCount : U32) : Except ConsensusIdentityError ℕ := do
  require (authorizedIdentityCount ≠ 0) .emptyAuthorizationSet
  return countHalvings 32 (authorizedIdentityCount.toNat - 1) 0

/-! ## Policies -/

variable (policy : ConsensusIdentityPolicyV1)

namespace ConsensusIdentityPolicyV1

def normalized : ConsensusIdentityPolicyV1 :=
  { policy with
    experimentId := toAsciiLowercase policy.experimentId
    bitcoinNetwork := toAsciiLowercase policy.bitcoinNetwork
    bitcoinForkActivationId := toAsciiLowercase policy.bitcoinForkActivationId
    shareWorkActivationId := toAsciiLowercase policy.shareWorkActivationId
    registryContractAddress := toAsciiLowercase policy.registryContractAddress
    idenaFinalizedBlockHash := toAsciiLowercase policy.idenaFinalizedBlockHash
    authorizationRoot := toAsciiLowercase policy.authorizationRoot }

def validate : Except ConsensusIdentityError Unit := do
  require (policy.schemaVersion = consensusIdentityPolicyVersion)
    (.unsupportedPolicyVersion policy.schemaVersion)
  (validateExperimentId policy.experimentId).mapError fun error =>
    .invalidField "experiment_id" error.message
  validateAsciiIdentifier "bitcoin_network" policy.bitcoinNetwork maxNetworkIdBytes
  validateHex crypto "bitcoin_fork_activation_id" policy.bitcoinForkActivationId 32 false
  validateHex crypto "share_work_activation_id" policy.shareWorkActivationId 32 false
  validateHex crypto "registry_contract_address" policy.registryContractAddress 20 true
  require (policy.idenaFinalizedHeight ≠ 0) (.invalidField "idena_finalized_height" "must be positive")
  require (policy.idenaFinalizedTimestamp ≠ 0 ∧
      policy.idenaFinalizedTimestamp < policy.idenaNextValidationTimestamp ∧
      policy.idenaNextValidationTimestamp.toNat - policy.idenaFinalizedTimestamp.toNat ≤
        maxConsensusIdentitySnapshotSeconds)
    (.invalidField "idena_snapshot_window" ("must be positive, ordered, and no longer than " ++
      toString maxConsensusIdentitySnapshotSeconds ++ " seconds"))
  validateHex crypto "idena_finalized_block_hash" policy.idenaFinalizedBlockHash 32 true
  validateHex crypto "authorization_root" policy.authorizationRoot 32 false
  require (policy.authorizedIdentityCount ≠ 0) (.invalidField "authorized_identity_count" "must be positive")
  require (policy.authorizedIdentityCount.toNat ≤ 2 ^ maxConsensusIdentityProofDepth)
    (.invalidField "authorized_identity_count" ("must fit within the " ++
      toString maxConsensusIdentityProofDepth ++ "-level authorization tree"))
  require (policy.bitcoinActivationHeight ≠ 0 ∧
      policy.bitcoinActivationHeight ≤ policy.bitcoinExpiryHeight)
    (.invalidField "bitcoin_activation_height"
      "must be positive and no later than bitcoin_expiry_height")
  require (policy.idenaFinalizedTimestamp < policy.bitcoinExpiryMtp ∧
      policy.bitcoinExpiryMtp ≤ policy.idenaNextValidationTimestamp)
    (.invalidField "bitcoin_expiry_mtp"
      "must be after the finalized snapshot and no later than the next Idena validation")
  require (policy.maxProofDepth.toNat ≤ maxConsensusIdentityProofDepth)
    (.invalidField "max_proof_depth" ("must be <= " ++ toString maxConsensusIdentityProofDepth))
  let depth ← requiredMerkleProofDepth policy.authorizedIdentityCount
  require (depth ≤ policy.maxProofDepth.toNat)
    (.invalidField "max_proof_depth" "is too small for authorized_identity_count")
  require (policy.requireShareWorkCommitment = true)
    (.invalidField "require_share_work_commitment" "must be true for the consensus-enforced successor")

def commitmentHashBytes (original : ConsensusIdentityPolicyV1) : Except ConsensusIdentityError Digest := do
  let policy := original.normalized
  policy.validate crypto
  let bytes := leBytes 2 policy.schemaVersion.toNat
  let bytes ← appendBoundedAscii bytes policy.experimentId maxExperimentIdBytes
  let bytes ← appendBoundedAscii bytes policy.bitcoinNetwork maxNetworkIdBytes
  let fork ← decodeHexExact crypto "bitcoin_fork_activation_id" policy.bitcoinForkActivationId 32 false
  let shareWork ← decodeHexExact crypto "share_work_activation_id" policy.shareWorkActivationId 32 false
  let contract ← decodeHexExact crypto "registry_contract_address" policy.registryContractAddress 20 true
  let block ← decodeHexExact crypto "idena_finalized_block_hash" policy.idenaFinalizedBlockHash 32 true
  let root ← decodeHexExact crypto "authorization_root" policy.authorizationRoot 32 false
  return sha256Tagged crypto policyTag (bytes ++ fork ++ shareWork ++ contract ++
    leBytes 8 policy.idenaFinalizedHeight.toNat ++ leBytes 8 policy.idenaFinalizedTimestamp.toNat ++
    block ++ leBytes 8 policy.idenaNextValidationTimestamp.toNat ++ root ++
    leBytes 4 policy.authorizedIdentityCount.toNat ++ leBytes 8 policy.bitcoinActivationHeight.toNat ++
    leBytes 8 policy.bitcoinExpiryHeight.toNat ++ leBytes 8 policy.bitcoinExpiryMtp.toNat ++
    [policy.maxProofDepth, if policy.requireShareWorkCommitment then 1 else 0])

def commitmentHash : Except ConsensusIdentityError Text := do
  let hash ← policy.commitmentHashBytes crypto
  return hashHex hash

end ConsensusIdentityPolicyV1

/-! ## Leaves -/

def identityStateCode : IdenaStatus → Except ConsensusIdentityError UInt8
  | .verified => .ok 3
  | .newbie => .ok 7
  | .human => .ok 8
  | _ => .error .ineligibleIdentity

def identityStateFromCode (code : UInt8) : Except ConsensusIdentityError IdenaStatus :=
  if code = 3 then .ok .verified
  else if code = 7 then .ok .newbie
  else if code = 8 then .ok .human
  else .error .ineligibleIdentity

namespace ConsensusIdentityLeafV1

def normalized (leaf : ConsensusIdentityLeafV1) : ConsensusIdentityLeafV1 :=
  { leaf with
    idenaAddress := toAsciiLowercase leaf.idenaAddress
    miningPubkeyXonly := toAsciiLowercase leaf.miningPubkeyXonly
    registryCommitment := toAsciiLowercase leaf.registryCommitment }

def validate (leaf : ConsensusIdentityLeafV1) : Except ConsensusIdentityError Unit := do
  validateHex crypto "idena_address" leaf.idenaAddress 20 true
  require (leaf.identityState.isBlockEligible = true) .ineligibleIdentity
  validateHex crypto "mining_pubkey_xonly" leaf.miningPubkeyXonly 32 false
  let _ ← (crypto.xOnlyPublicKeyFromStr leaf.miningPubkeyXonly).mapError
    (.invalidField "mining_pubkey_xonly")
  validateHex crypto "registry_commitment" leaf.registryCommitment 32 false
  require (leaf.registrationSequence ≠ 0 ∧ leaf.registrationBlock ≠ 0)
    (.invalidField "registration" "sequence and block must be positive")

def canonicalBytes (original : ConsensusIdentityLeafV1) : Except ConsensusIdentityError (List UInt8) := do
  let leaf := original.normalized
  leaf.validate crypto
  let address ← decodeHexExact crypto "idena_address" leaf.idenaAddress 20 true
  let code ← identityStateCode leaf.identityState
  let key ← decodeHexExact crypto "mining_pubkey_xonly" leaf.miningPubkeyXonly 32 false
  let commitment ← decodeHexExact crypto "registry_commitment" leaf.registryCommitment 32 false
  return address ++ code :: key ++ commitment ++ leBytes 4 leaf.registrationSequence.toNat ++
    leBytes 8 leaf.registrationBlock.toNat ++ leBytes 2 leaf.registrationEpoch.toNat

def leafHash (leaf : ConsensusIdentityLeafV1) : Except ConsensusIdentityError Digest := do
  let bytes ← leaf.canonicalBytes crypto
  return sha256Tagged crypto leafTag bytes

end ConsensusIdentityLeafV1

def decodeLeaf (bytes : List UInt8) : Except ConsensusIdentityError ConsensusIdentityLeafV1 := do
  require (bytes.length = 99) .malformedAuthorizationOutput
  let state ← identityStateFromCode (bytes.getD 20 0)
  let leaf : ConsensusIdentityLeafV1 :=
    { idenaAddress := '0' :: 'x' :: hexEncode (bytes.take 20)
      identityState := state
      miningPubkeyXonly := hexEncode ((bytes.drop 21).take 32)
      registryCommitment := hexEncode ((bytes.drop 53).take 32)
      registrationSequence := BitVec.ofNat 32 (littleEndian ((bytes.drop 85).take 4))
      registrationBlock := BitVec.ofNat 64 (littleEndian ((bytes.drop 89).take 8))
      registrationEpoch := BitVec.ofNat 16 (littleEndian ((bytes.drop 97).take 2)) }
  leaf.validate crypto
  return leaf

/-! ## Merkle tree of the authorized identities -/

/-- What the parent of two nodes is hashed from. -/
def parentInput (left right : Digest) : List UInt8 := taggedInput nodeTag (left.bytes ++ right.bytes)

def merkleParent (left right : Digest) : Digest :=
  sha256Tagged crypto nodeTag (left.bytes ++ right.bytes)

/-- The checks on the leaves in order, with the previous address and the mining keys so far. -/
def validateLeaves (previousAddress : Option Text) (miningKeys : List Text) :
    List ConsensusIdentityLeafV1 → Except ConsensusIdentityError Unit
  | [] => pure ()
  | original :: rest => do
    let leaf := original.normalized
    leaf.validate crypto
    require (previousAddress.all (· < leaf.idenaAddress) = true) (.invalidField "leaves"
      "must be strictly sorted by normalized Idena address without duplicates")
    require (leaf.miningPubkeyXonly ∉ miningKeys) (.invalidField "leaves"
      "must not assign one mining key to multiple Idena identities")
    validateLeaves (some leaf.idenaAddress) (leaf.miningPubkeyXonly :: miningKeys) rest

/-- Append a hash to the proof of every member. -/
def pushSibling (hash : Digest) (members : List ℕ) (proofs : List (List Digest)) : List (List Digest) :=
  members.foldl (fun proofs original => proofs.modify original (· ++ [hash])) proofs

/-- One level: every pair becomes a node of the next level, and each member's proof gets the hash of the
other side. A last node without a partner is its own partner. -/
def joinPairs : List (Digest × List ℕ) → List (List Digest) → List (Digest × List ℕ) × List (List Digest)
  | [], proofs => ([], proofs)
  | [(last, members)], proofs =>
    ([(merkleParent crypto last last, members)], pushSibling last members proofs)
  | (left, leftMembers) :: (right, rightMembers) :: rest, proofs =>
    let joined := joinPairs rest
      (pushSibling left rightMembers (pushSibling right leftMembers proofs))
    ((merkleParent crypto left right, leftMembers ++ rightMembers) :: joined.1, joined.2)

/-- Join levels until one node is left. A level has about half the nodes of the one below it, so the
number of leaves bounds the number of levels. -/
def joinLevels : ℕ → List (Digest × List ℕ) → List (List Digest) → List (Digest × List ℕ) × List (List Digest)
  | 0, nodes, proofs => (nodes, proofs)
  | fuel + 1, nodes, proofs =>
    if 1 < nodes.length then
      joinLevels fuel (joinPairs crypto nodes proofs).1 (joinPairs crypto nodes proofs).2
    else (nodes, proofs)

def buildAuthorizationRootAndProofs (leaves : List ConsensusIdentityLeafV1) :
    Except ConsensusIdentityError (Digest × List ConsensusIdentityProofV1) := do
  require (leaves ≠ []) .emptyAuthorizationSet
  require (leaves.length ≤ 2 ^ maxConsensusIdentityProofDepth) (.invalidField "leaves"
    ("authorization set exceeds " ++ toString (2 ^ maxConsensusIdentityProofDepth) ++ " entries"))
  validateLeaves crypto none [] leaves
  let hashes ← leaves.mapM (·.leafHash crypto)
  let built := joinLevels crypto leaves.length (hashes.zipIdx.map fun node => (node.1, [node.2]))
    (List.replicate leaves.length [])
  -- There is a leaf, so there is a root.
  let root ← okOr built.1.head? .emptyAuthorizationSet
  return (root.1, built.2.zipIdx.map fun proof =>
    { leafIndex := BitVec.ofNat 32 proof.2, siblings := proof.1.map hashHex })

/-! ## Authorizations -/

/-- Hash a leaf up its path, with the index of the node reached. -/
def climbSiblings : Digest → U32 → List Text → Except ConsensusIdentityError (Digest × U32)
  | hash, index, [] => .ok (hash, index)
  | hash, index, text :: rest => do
    let sibling ← decodeHash crypto text
    climbSiblings
      (if index &&& 1 = 0 then merkleParent crypto hash sibling else merkleParent crypto sibling hash)
      (index >>> 1) rest

/-- Split so many bytes off what is still unread. -/
def takeBytes (length : ℕ) (unread : List UInt8) :
    Except ConsensusIdentityError (List UInt8 × List UInt8) := do
  require (length ≤ unread.length) .malformedAuthorizationOutput
  return (unread.take length, unread.drop length)

def takeSiblings : ℕ → List UInt8 → Except ConsensusIdentityError (List Text × List UInt8)
  | 0, unread => .ok ([], unread)
  | depth + 1, unread => do
    let (sibling, unread) ← takeBytes 32 unread
    let (siblings, unread) ← takeSiblings depth unread
    return (hexEncode sibling :: siblings, unread)

def appendMinimalPush (script payload : List UInt8) : Except ConsensusIdentityError (List UInt8) :=
  if payload.length ≤ 75 then .ok (script ++ UInt8.ofNat payload.length :: payload)
  else if payload.length ≤ 255 then .ok (script ++ 0x4c :: UInt8.ofNat payload.length :: payload)
  else if payload.length ≤ 65535 then .ok (script ++ 0x4d :: leBytes 2 payload.length ++ payload)
  else .error (.invalidField "authorization_payload" "exceeds 65535 bytes")

/-- Where the payload of a push starts in the script and how long the push says it is. A longer push
opcode is refused where a shorter one would do. -/
def minimalPushSpan (script : List UInt8) : Except ConsensusIdentityError (ℕ × ℕ) :=
  let opcode := script.getD 1 0
  if opcode.toNat ≤ 75 then .ok (2, opcode.toNat)
  else if opcode = 0x4c ∧ 3 ≤ script.length ∧ 76 ≤ (script.getD 2 0).toNat then
    .ok (3, (script.getD 2 0).toNat)
  else if opcode = 0x4d ∧ 4 ≤ script.length ∧ 255 < littleEndian ((script.drop 2).take 2) then
    .ok (4, littleEndian ((script.drop 2).take 2))
  else .error .malformedAuthorizationOutput

def parseSingleMinimalOpReturn (script : List UInt8) : Except ConsensusIdentityError (List UInt8) := do
  require (2 ≤ script.length ∧ script.getD 0 0 = 0x6a) .malformedAuthorizationOutput
  let (offset, length) ← minimalPushSpan script
  require (offset + length = script.length) .malformedAuthorizationOutput
  return script.drop offset

def opReturnPayload (script : List UInt8) : Option (List UInt8) := (parseSingleMinimalOpReturn script).toOption

def isMagicOpReturn (script magic : List UInt8) : Bool := (opReturnPayload script).any (magic.isPrefixOf ·)

def isConsensusIdentityScript (script : List UInt8) : Bool := isMagicOpReturn script consensusIdentityMagic

/-- The value of an output and its script. -/
abbrev CoinbaseOutput := U64 × List UInt8

def countMagicOutputs (outputs : List CoinbaseOutput) (magic : List UInt8) : ℕ :=
  (outputs.filter fun output => output.1 == 0 && isMagicOpReturn output.2 magic).length

/-- The outputs the hash covers. -/
def hashedOutputs (outputs : List CoinbaseOutput) : List CoinbaseOutput :=
  outputs.filter fun output => !isConsensusIdentityScript output.2

def outputBytes (output : CoinbaseOutput) : List UInt8 :=
  leBytes 8 output.1.toNat ++ leBytes 4 output.2.length ++ output.2

/-- What the covered outputs are hashed from. -/
def outputsInput (outputs : List CoinbaseOutput) : List UInt8 :=
  taggedInput outputsTag (leBytes 4 (hashedOutputs outputs).length ++ (hashedOutputs outputs).flatMap outputBytes)

def coinbaseOutputsHash (outputs : List CoinbaseOutput) : Except ConsensusIdentityError Digest := do
  require ((hashedOutputs outputs).length < 2 ^ 32) (.invalidField "coinbase_outputs" "too many outputs")
  require (∀ output ∈ hashedOutputs outputs, output.2.length < 2 ^ 32)
    (.invalidField "coinbase_output_script" "script too large")
  return crypto.sha256 (outputsInput outputs)

/-- The bytes of a leaf in the payload. -/
def leafByteLength : ℕ := 99

/-- The bytes of a payload without siblings. -/
def fixedByteLength : ℕ := 5 + 1 + 32 + leafByteLength + 4 + 1 + 64

namespace ConsensusIdentityAuthorizationV1

variable (authorization : ConsensusIdentityAuthorizationV1)

def validateMembership (policy : ConsensusIdentityPolicyV1) : Except ConsensusIdentityError Unit := do
  require (authorization.schemaVersion = consensusIdentityAuthorizationVersion)
    (.unsupportedAuthorizationVersion authorization.schemaVersion)
  policy.validate crypto
  authorization.leaf.validate crypto
  let expectedPolicy ← policy.commitmentHash crypto
  validateHex crypto "policy_hash" authorization.policyHash 32 false
  require (authorization.policyHash = expectedPolicy)
    (.policyMismatch expectedPolicy authorization.policyHash)
  require (authorization.proof.siblings.length ≤ policy.maxProofDepth.toNat ∧
    authorization.proof.siblings.length ≤ maxConsensusIdentityProofDepth ∧
    authorization.proof.leafIndex < policy.authorizedIdentityCount) .invalidMerkleProof
  let depth ← requiredMerkleProofDepth policy.authorizedIdentityCount
  require (authorization.proof.siblings.length = depth) .invalidMerkleProof
  let leafHash ← authorization.leaf.leafHash crypto
  let (hash, index) ← climbSiblings crypto leafHash authorization.proof.leafIndex
    authorization.proof.siblings
  let root ← (decodeHash crypto policy.authorizationRoot).mapError fun _ => .invalidMerkleProof
  require (index = 0 ∧ hash = root) .invalidMerkleProof

def payloadBytes : Except ConsensusIdentityError (List UInt8) := do
  validateHex crypto "block_signature_hex" authorization.blockSignatureHex 64 false
  let policyHash ← decodeHash crypto authorization.policyHash
  let leaf ← authorization.leaf.canonicalBytes crypto
  require (authorization.proof.siblings.length ≤ 255)
    (.invalidField "siblings" "proof depth does not fit in one byte")
  let siblings ← authorization.proof.siblings.mapM (decodeHash crypto)
  let signature ← decodeHexExact crypto "block_signature_hex" authorization.blockSignatureHex 64 false
  return consensusIdentityMagic ++ authorization.schemaVersion :: policyHash.bytes ++ leaf ++
    leBytes 4 authorization.proof.leafIndex.toNat ++
    UInt8.ofNat authorization.proof.siblings.length :: siblings.flatMap Digest.bytes ++ signature

def opReturnScriptPubkeyHex : Except ConsensusIdentityError Text := do
  let payload ← authorization.payloadBytes crypto
  let script ← appendMinimalPush [0x6a] payload
  return hexEncode script

def fromPayloadBytes (bytes : List UInt8) : Except ConsensusIdentityError ConsensusIdentityAuthorizationV1 := do
  require (fixedByteLength ≤ bytes.length ∧ bytes.take 5 = consensusIdentityMagic)
    .malformedAuthorizationOutput
  let (policyHash, unread) ← takeBytes 32 (bytes.drop 6)
  let (leafBytes, unread) ← takeBytes leafByteLength unread
  let leaf ← decodeLeaf crypto leafBytes
  let (index, unread) ← takeBytes 4 unread
  let (depth, unread) ← takeBytes 1 unread
  let depth := (depth.getD 0 0).toNat
  require (depth ≤ maxConsensusIdentityProofDepth ∧ bytes.length = fixedByteLength + depth * 32)
    .malformedAuthorizationOutput
  let (siblings, unread) ← takeSiblings depth unread
  let (signature, unread) ← takeBytes 64 unread
  require (unread = []) .malformedAuthorizationOutput
  return { schemaVersion := bytes.getD 5 0
           policyHash := hexEncode policyHash
           leaf := leaf
           proof := { leafIndex := BitVec.ofNat 32 (littleEndian index), siblings := siblings }
           blockSignatureHex := hexEncode signature }

def fromOpReturnScript (scriptHex : Text) : Except ConsensusIdentityError ConsensusIdentityAuthorizationV1 := do
  let script ← okOr (hexDecode? scriptHex) .malformedAuthorizationOutput
  let payload ← parseSingleMinimalOpReturn script
  fromPayloadBytes crypto payload

end ConsensusIdentityAuthorizationV1

end P2PoolBTC.Model.Core
