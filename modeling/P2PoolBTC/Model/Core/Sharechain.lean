import P2PoolBTC.Model.Core.ShareWork

/-! # Signatures and proof of work of sharechain messages

Each message is checked on its own before it is replayed: field shapes, the hashes that bind a
template or share to a Bitcoin header, the target a share's score is derived from, and the
Schnorr signature of the registered mining key.
-/

namespace P2PoolBTC.Model.Core

open Math

variable (crypto : Crypto)

def maxMinerIdLen : ℕ := 64

def maxSnapshotIdLen : ℕ := 64

def schnorrSignatureHexLen : ℕ := 128

def idenaRecoverableSignatureHexLen : ℕ := 130

def p2wpkhScriptHexLen : ℕ := 44

def p2trScriptHexLen : ℕ := 68

def bitcoinHeaderBytes : ℕ := 80

def bitcoinTemplatePrefixBytes : ℕ := 76

def bitcoinNonceHexLen : ℕ := 8

def legacyBitcoinWorkTemplateVersion : U16 := 1

def targetBoundBitcoinWorkTemplateVersion : U16 := 2

def idenaAnchoredBitcoinWorkTemplateVersion : U16 := 3

def legacyMinerRegistrationVersion : U16 := 1

def idenaAnchoredMinerRegistrationVersion : U16 := 2

/-- The easiest target a share may claim, `7fffff` followed by zeros. -/
def maxShareTarget : ℕ := 0x7fffff * 2 ^ 232

inductive SharechainError where
  | invalidMiningPubkey (reason : String)
  | missingMiningSignature
  | invalidMiningSignature (reason : String)
  | invalidIdenaSignature (reason : String)
  | idenaAddressSignatureMismatch (claimedAddress recoveredAddress : Text)
  | invalidPayoutScript (reason : String)
  | invalidClaimOwnerPubkey (reason : String)
  | invalidMinerId (field reason : String)
  | invalidIdenaAddress (reason : String)
  | invalidField (field reason : String)
  | zeroShareScore
  | zeroShareTarget
  | shareTargetAboveLimit
  | unsupportedBitcoinWorkTemplateVersion (version : U16)
  | unsupportedMinerRegistrationVersion (version : U16)
  | unexpectedMinerRegistryAnchor
  | missingMinerRegistryAnchor
  | minerRegistryCommitmentMismatch
  | invalidMinerRegistryAnchor (reason : String)
  | unexpectedAssignedShareTarget
  | missingAssignedShareTarget
  | unexpectedIdenaBlockAnchor
  | missingIdenaBlockAnchor
  | unexpectedIdenaAnchorPolicyHash
  | missingIdenaAnchorPolicyHash
  | invalidIdenaBlockAnchor (reason : String)
  | assignedShareTargetMismatch (expected actual : Text)
  | shareTemplateHashMismatch (expected actual : Text)
  | shareNonceMismatch (expected actual : Text)
  | shareWorkHashMismatch (expected actual : Text)
  | shareWorkAboveTarget
  | shareScoreMismatch (expected actual : Score)
  | missingShareWorkBinding
  | shareWorkBindingMismatch (field : String)
  | invalidShareWorkBinding (error : ShareWorkBindingError)
deriving DecidableEq

section Fields

def validateMinerId (field : String) (value : Text) : Except SharechainError Unit := do
  require (value ≠ [] ∧ byteLength value ≤ maxMinerIdLen)
    (.invalidMinerId field ("length must be 1..=" ++ toString maxMinerIdLen))
  require (value.all isMinerIdChar = true)
    (.invalidMinerId field "only ASCII letters, digits, '-', '_', and '.' are allowed")

def validateIdenaAddress (value : Text) : Except SharechainError Unit := do
  let hexPart ← okOr ((stripLeading? ['0', 'x'] value).or (stripLeading? ['0', 'X'] value))
    (.invalidIdenaAddress "address must start with 0x")
  require (IsHexOfLength hexPart 40)
    (.invalidIdenaAddress "address must contain 20 bytes encoded as 40 hex characters")

def validateSnapshotId (value : Text) : Except SharechainError Unit := do
  require (value ≠ [] ∧ byteLength value ≤ maxSnapshotIdLen)
    (.invalidField "idena_snapshot_id" ("length must be 1..=" ++ toString maxSnapshotIdLen))
  require (value.all (fun char => isMinerIdChar char || char == ':') = true)
    (.invalidField "idena_snapshot_id" "contains unsupported characters")

def validateHexExactLen (field : String) (value : Text) (expectedHexLen : ℕ) : Except SharechainError Unit :=
  require (IsHexOfLength value expectedHexLen)
    (.invalidField field ("must be " ++ toString (expectedHexLen / 2) ++ " bytes encoded as " ++
      toString expectedHexLen ++ " hex characters"))

def validateHex32 (field : String) (value : Text) : Except SharechainError Unit :=
  validateHexExactLen field value 64

/-- Decode a field of a fixed number of bytes. -/
def decodeHexField (field : String) (value : Text) (bytes : ℕ) : Except SharechainError (List UInt8) := do
  validateHexExactLen field value (bytes * 2)
  okOr (hexDecode? (toAsciiLowercase value))
    (.invalidField field (crypto.hexDecodeError (toAsciiLowercase value)))

def decodeHex32 (field : String) (value : Text) : Except SharechainError (List UInt8) :=
  decodeHexField crypto field value 32

def decodeBitcoinHeaderHex (value : Text) : Except SharechainError (List UInt8) :=
  decodeHexField crypto "bitcoin_header_hex" value bitcoinHeaderBytes

def decodeBitcoinHeaderPrefixHex (value : Text) : Except SharechainError (List UInt8) :=
  decodeHexField crypto "header_prefix_hex" value bitcoinTemplatePrefixBytes

/-- The number a big-endian byte string denotes; byte strings of one length compare as it does. -/
def bigEndianValue (bytes : List UInt8) : ℕ :=
  bytes.foldl (fun value byte => 256 * value + byte.toNat) 0

/-- A decoded target that is neither zero nor too easy. -/
def checkShareTarget (target : ℕ) : Except SharechainError Unit := do
  require (target ≠ 0) .zeroShareTarget
  require (target ≤ maxShareTarget) .shareTargetAboveLimit

def validateShareTargetHex (targetHex : Text) : Except SharechainError Unit := do
  let target ← decodeHex32 crypto "target" targetHex
  checkShareTarget (bigEndianValue target)

/-- The regtest difficulty of a target, saturated to the width of a score. -/
def shareScoreFromTarget (target : ℕ) : Except SharechainError Score := do
  checkShareTarget target
  return BitVec.ofNat 128 (min (2 ^ 128 - 1) (maxShareTarget / target))

/-- Version-zero witness program of twenty bytes. -/
def isP2wpkh : List UInt8 → Bool
  | 0x00 :: 0x14 :: program => program.length == 20
  | _ => false

/-- Version-one witness program of thirty-two bytes. -/
def isP2tr : List UInt8 → Bool
  | 0x51 :: 0x20 :: program => program.length == 32
  | _ => false

def validateDirectPayoutScript (scriptHex : Text) : Except SharechainError Unit := do
  require (IsHexOfLength scriptHex p2wpkhScriptHexLen ∨ IsHexOfLength scriptHex p2trScriptHexLen)
    (.invalidPayoutScript "direct payout script must be P2WPKH or P2TR hex")
  let script ← okOr (hexDecode? (toAsciiLowercase scriptHex))
    (.invalidPayoutScript (crypto.hexDecodeError (toAsciiLowercase scriptHex)))
  require (isP2wpkh script = true ∨ isP2tr script = true)
    (.invalidPayoutScript "only P2WPKH and P2TR direct payout scripts are supported")

end Fields

section Signatures

def verifyMiningSignature (miningPubkeyHex signatureHex : Text) (signingHash : Digest) :
    Except SharechainError Unit := do
  require (signatureHex ≠ []) .missingMiningSignature
  require (IsHexOfLength signatureHex schnorrSignatureHexLen)
    (.invalidMiningSignature
      ("signature must be " ++ toString schnorrSignatureHexLen ++ " hex characters"))
  let miningPubkey ←
    (crypto.xOnlyPublicKeyFromStr (toAsciiLowercase miningPubkeyHex)).mapError .invalidMiningPubkey
  let signature ← okOr (hexDecode? (toAsciiLowercase signatureHex))
    (.invalidMiningSignature (crypto.hexDecodeError (toAsciiLowercase signatureHex)))
  (crypto.verifySchnorr signature signingHash miningPubkey).mapError .invalidMiningSignature

def decodeRecoverableIdenaSignature (signatureHex : Text) : Except String (List UInt8) := do
  let normalized := toAsciiLowercase ((stripLeading? ['0', 'x'] signatureHex).getD signatureHex)
  require (IsHexOfLength normalized idenaRecoverableSignatureHexLen)
    ("signature must be 65 bytes encoded as " ++ toString idenaRecoverableSignatureHexLen ++
      " hex characters")
  okOr (hexDecode? normalized) (crypto.hexDecodeError normalized)

/-- Plain recovery identifiers, and those offset by twenty-seven. -/
def idenaRecoveryId (value : UInt8) : Except String ℕ :=
  if value.toNat ≤ 3 then .ok value.toNat
  else if 27 ≤ value.toNat ∧ value.toNat ≤ 30 then .ok (value.toNat - 27)
  else .error ("unsupported recovery id " ++ toString value.toNat)

def idenaSigninHash (challenge : Text) : Digest :=
  crypto.keccak256 (crypto.keccak256 (utf8Bytes challenge)).bytes

def idenaAddressFromPubkey (uncompressed : List UInt8) : Text :=
  '0' :: 'x' :: hexEncode ((crypto.keccak256 (uncompressed.drop 1)).bytes.drop 12)

def recoverIdenaSigninAddress (challenge signatureHex : Text) : Except SharechainError Text := do
  let signature ←
    (decodeRecoverableIdenaSignature crypto signatureHex).mapError .invalidIdenaSignature
  let recoveryId ← (idenaRecoveryId (signature.getD 64 0)).mapError .invalidIdenaSignature
  let pubkey ←
    (crypto.recoverEcdsa (signature.take 64) recoveryId (idenaSigninHash crypto challenge)).mapError
      .invalidIdenaSignature
  return idenaAddressFromPubkey crypto pubkey

end Signatures

namespace MinerRegistration

variable (registration : MinerRegistration)

/-- What the signature of a registration covers. -/
def signingPayload : MinerRegistrationSigningPayload :=
  { version := registration.version
    minerId := toAsciiLowercase registration.minerId
    idenaAddress := toAsciiLowercase registration.idenaAddress
    btcPayoutScriptHex := toAsciiLowercase registration.btcPayoutScriptHex
    claimOwnerPubkeyHex := toAsciiLowercase registration.claimOwnerPubkeyHex
    miningPubkeyHex := toAsciiLowercase registration.miningPubkeyHex
    registryAnchor := registration.registryAnchor.map MinerRegistryAnchorV1.normalized }

def signingHash : Digest :=
  crypto.sha256Tagged (.minerRegistration registration.signingPayload)

def registryCommitmentPayload (experimentId : Text) : MinerRegistryCommitmentPayload :=
  { schemaVersion := 1
    experimentId := toAsciiLowercase experimentId
    minerId := toAsciiLowercase registration.minerId
    idenaAddress := toAsciiLowercase registration.idenaAddress
    btcPayoutScriptHex := toAsciiLowercase registration.btcPayoutScriptHex
    claimOwnerPubkeyHex := toAsciiLowercase registration.claimOwnerPubkeyHex
    miningPubkeyHex := toAsciiLowercase registration.miningPubkeyHex }

def registryCommitmentHash (experimentId : Text) : Except SharechainError Text := do
  (validateExperimentId (toAsciiLowercase experimentId)).mapError fun error =>
    .invalidMinerRegistryAnchor error.message
  return taggedHashHex crypto (.minerRegistryCommitment (registration.registryCommitmentPayload experimentId))

/-- Version 1 must not carry a registry anchor; version 2 must carry a matching one. -/
def validateRegistryAnchor : Except SharechainError Unit :=
  if registration.version = legacyMinerRegistrationVersion then
    require (registration.registryAnchor = none) .unexpectedMinerRegistryAnchor
  else if registration.version = idenaAnchoredMinerRegistrationVersion then do
    let anchor ← okOr registration.registryAnchor .missingMinerRegistryAnchor
    anchor.validate.mapError fun error => .invalidMinerRegistryAnchor error.message
    let expected ← registration.registryCommitmentHash crypto anchor.experimentId
    require (expected = anchor.registrationCommitment) .minerRegistryCommitmentMismatch
  else .error (.unsupportedMinerRegistrationVersion registration.version)

def requireRegistryAnchor : Except SharechainError MinerRegistryAnchorV1 := do
  registration.validateRegistryAnchor crypto
  okOr registration.registryAnchor .missingMinerRegistryAnchor

def idenaOwnershipChallenge : Text :=
  "signin-pohw1-miner-registration-".toList ++ hashHex (registration.signingHash crypto)

def verifyIdenaOwnershipSignature : Except SharechainError Unit := do
  let recoveredAddress ← recoverIdenaSigninAddress crypto (registration.idenaOwnershipChallenge crypto)
    registration.idenaSignatureHex
  let claimedAddress := toAsciiLowercase registration.idenaAddress
  require (recoveredAddress = claimedAddress)
    (.idenaAddressSignatureMismatch claimedAddress recoveredAddress)

def verifyMiningSignature : Except SharechainError Unit := do
  validateMinerId "miner_id" registration.minerId
  validateIdenaAddress registration.idenaAddress
  registration.validateRegistryAnchor crypto
  let _ ← (decodeRecoverableIdenaSignature crypto registration.idenaSignatureHex).mapError
    .invalidIdenaSignature
  validateDirectPayoutScript crypto registration.btcPayoutScriptHex
  let _ ← (crypto.xOnlyPublicKeyFromStr (toAsciiLowercase registration.claimOwnerPubkeyHex)).mapError
    .invalidClaimOwnerPubkey
  Core.verifyMiningSignature crypto registration.miningPubkeyHex registration.miningSignatureHex
    (registration.signingHash crypto)

end MinerRegistration

namespace BitcoinWorkTemplate

def templateHashForHeaderPrefixHex (headerPrefixHex : Text) : Except SharechainError Text := do
  let headerPrefix ← decodeBitcoinHeaderPrefixHex crypto headerPrefixHex
  return taggedHashHex crypto (.btcTemplate headerPrefix)

def targetBoundTemplateHashForHeaderPrefixHex (headerPrefixHex assignedShareTarget : Text) :
    Except SharechainError Text := do
  let headerPrefix ← decodeBitcoinHeaderPrefixHex crypto headerPrefixHex
  validateShareTargetHex crypto (toAsciiLowercase assignedShareTarget)
  return taggedHashHex crypto (.targetBoundBtcTemplate
    { version := targetBoundBitcoinWorkTemplateVersion
      headerPrefixHex := hexEncode headerPrefix
      assignedShareTarget := toAsciiLowercase assignedShareTarget })

def idenaAnchoredTemplateHashForHeaderPrefixHex (headerPrefixHex assignedShareTarget : Text)
    (idenaAnchor : IdenaBlockAnchorV1) (idenaAnchorPolicyHash : Text) : Except SharechainError Text := do
  let headerPrefix ← decodeBitcoinHeaderPrefixHex crypto headerPrefixHex
  validateShareTargetHex crypto (toAsciiLowercase assignedShareTarget)
  validateHex32 "idena_anchor_policy_hash" (toAsciiLowercase idenaAnchorPolicyHash)
  idenaAnchor.normalized.validate.mapError fun error => .invalidIdenaBlockAnchor error.message
  return taggedHashHex crypto (.idenaAnchoredBtcTemplate
    { version := idenaAnchoredBitcoinWorkTemplateVersion
      headerPrefixHex := hexEncode headerPrefix
      assignedShareTarget := toAsciiLowercase assignedShareTarget
      idenaAnchor := idenaAnchor.normalized
      idenaAnchorPolicyHash := toAsciiLowercase idenaAnchorPolicyHash })

variable (template : BitcoinWorkTemplate)

/-- The hash a template of its version must carry. -/
def expectedTemplateHash : Except SharechainError Text :=
  if template.version = legacyBitcoinWorkTemplateVersion then do
    require (template.assignedShareTarget = none) .unexpectedAssignedShareTarget
    require (template.idenaAnchor = none) .unexpectedIdenaBlockAnchor
    require (template.idenaAnchorPolicyHash = none) .unexpectedIdenaAnchorPolicyHash
    templateHashForHeaderPrefixHex crypto template.headerPrefixHex
  else if template.version = targetBoundBitcoinWorkTemplateVersion then do
    require (template.idenaAnchor = none) .unexpectedIdenaBlockAnchor
    require (template.idenaAnchorPolicyHash = none) .unexpectedIdenaAnchorPolicyHash
    let assignedShareTarget ← okOr template.assignedShareTarget .missingAssignedShareTarget
    targetBoundTemplateHashForHeaderPrefixHex crypto template.headerPrefixHex assignedShareTarget
  else if template.version = idenaAnchoredBitcoinWorkTemplateVersion then do
    let assignedShareTarget ← okOr template.assignedShareTarget .missingAssignedShareTarget
    let idenaAnchor ← okOr template.idenaAnchor .missingIdenaBlockAnchor
    let policyHash ← okOr template.idenaAnchorPolicyHash .missingIdenaAnchorPolicyHash
    idenaAnchoredTemplateHashForHeaderPrefixHex crypto template.headerPrefixHex assignedShareTarget
      idenaAnchor policyHash
  else .error (.unsupportedBitcoinWorkTemplateVersion template.version)

def verifyTemplateHash : Except SharechainError Unit := do
  validateMinerId "miner_id" template.minerId
  require (0 < template.createdAtUnix) (.invalidField "created_at_unix" "must be greater than zero")
  let expected ← template.expectedTemplateHash crypto
  require (EqIgnoreAsciiCase template.templateHash expected)
    (.shareTemplateHashMismatch expected (toAsciiLowercase template.templateHash))

def signingPayload : BitcoinWorkTemplateSigningPayload :=
  { version := template.version
    minerId := toAsciiLowercase template.minerId
    headerPrefixHex := toAsciiLowercase template.headerPrefixHex
    templateHash := toAsciiLowercase template.templateHash
    assignedShareTarget := template.assignedShareTarget.map toAsciiLowercase
    idenaAnchor := template.idenaAnchor.map IdenaBlockAnchorV1.normalized
    idenaAnchorPolicyHash := template.idenaAnchorPolicyHash.map toAsciiLowercase
    createdAtUnix := template.createdAtUnix }

def signingHash : Digest := crypto.sha256Tagged (.bitcoinWorkTemplate template.signingPayload)

def isIdenaAnchored : Prop :=
  template.version = idenaAnchoredBitcoinWorkTemplateVersion ∧ template.idenaAnchor.isSome ∧
    template.idenaAnchorPolicyHash.isSome

instance (template : BitcoinWorkTemplate) : Decidable template.isIdenaAnchored :=
  inferInstanceAs (Decidable (_ ∧ _))

def requireIdenaAnchor : Except SharechainError IdenaBlockAnchorV1 := do
  template.verifyTemplateHash crypto
  require template.isIdenaAnchored .missingIdenaBlockAnchor
  okOr template.idenaAnchor .missingIdenaBlockAnchor

def requireIdenaAnchorPolicyHash : Except SharechainError Text := do
  template.verifyTemplateHash crypto
  require template.isIdenaAnchored .missingIdenaAnchorPolicyHash
  okOr template.idenaAnchorPolicyHash .missingIdenaAnchorPolicyHash

def verifyAssignedShareTarget (claimedTarget : Text) : Except SharechainError Unit := do
  template.verifyTemplateHash crypto
  if template.version = legacyBitcoinWorkTemplateVersion then return ()
  let assigned ← okOr template.assignedShareTarget .missingAssignedShareTarget
  let expected := toAsciiLowercase assigned
  let actual := toAsciiLowercase claimedTarget
  validateShareTargetHex crypto actual
  require (actual = expected) (.assignedShareTargetMismatch expected actual)

def verifyMiningSignature (miningPubkeyHex : Text) : Except SharechainError Unit := do
  template.verifyTemplateHash crypto
  Core.verifyMiningSignature crypto miningPubkeyHex template.miningSignatureHex
    (template.signingHash crypto)

end BitcoinWorkTemplate

namespace Share

variable (share : Share)

def signingPayload : ShareSigningPayload :=
  { minerId := toAsciiLowercase share.minerId
    bitcoinHeaderHex := toAsciiLowercase share.bitcoinHeaderHex
    bitcoinTemplateHash := toAsciiLowercase share.bitcoinTemplateHash
    nonceHex := toAsciiLowercase share.nonceHex
    workHash := toAsciiLowercase share.workHash
    target := toAsciiLowercase share.target
    idenaSnapshotId := toAsciiLowercase share.idenaSnapshotId
    idenaSnapshotProofRoot := toAsciiLowercase share.idenaSnapshotProofRoot
    hashrateScoreDelta := share.hashrateScoreDelta
    parentShareHash := toAsciiLowercase share.parentShareHash
    workBinding := share.workBinding.map ShareWorkBindingV1.normalized }

def signingHash : Digest := crypto.sha256Tagged (.share share.signingPayload)

def bitcoinHeaderPrefixHex : Except SharechainError Text := do
  let header ← decodeBitcoinHeaderHex crypto share.bitcoinHeaderHex
  return hexEncode (header.take bitcoinTemplatePrefixBytes)

def recomputedNonceHex : Except SharechainError Text := do
  let header ← decodeBitcoinHeaderHex crypto share.bitcoinHeaderHex
  return hexEncode (header.drop bitcoinTemplatePrefixBytes)

/-- Block hashes are displayed in reverse byte order. -/
def recomputedWorkHash : Except SharechainError Text := do
  let header ← decodeBitcoinHeaderHex crypto share.bitcoinHeaderHex
  return hexEncode (crypto.sha256d header).bytes.reverse

def validateFields : Except SharechainError Unit := do
  validateMinerId "miner_id" share.minerId
  validateHexExactLen "bitcoin_header_hex" share.bitcoinHeaderHex (bitcoinHeaderBytes * 2)
  validateHex32 "bitcoin_template_hash" share.bitcoinTemplateHash
  validateHexExactLen "nonce_hex" share.nonceHex bitcoinNonceHexLen
  validateHex32 "work_hash" share.workHash
  validateHex32 "target" share.target
  validateSnapshotId share.idenaSnapshotId
  validateHex32 "idena_snapshot_proof_root" share.idenaSnapshotProofRoot
  validateHex32 "parent_share_hash" share.parentShareHash
  require (share.hashrateScoreDelta ≠ 0) .zeroShareScore

def verifyNonceBinding : Except SharechainError Unit := do
  let expectedNonce ← share.recomputedNonceHex crypto
  require (EqIgnoreAsciiCase share.nonceHex expectedNonce)
    (.shareNonceMismatch expectedNonce (toAsciiLowercase share.nonceHex))

/-- The claimed work is the header's, meets the target, and is worth what the target says. -/
def verifyWorkScore : Except SharechainError Unit := do
  let expectedWorkHash ← share.recomputedWorkHash crypto
  require (EqIgnoreAsciiCase share.workHash expectedWorkHash)
    (.shareWorkHashMismatch expectedWorkHash (toAsciiLowercase share.workHash))
  let workHash ← decodeHex32 crypto "work_hash" share.workHash
  let target ← decodeHex32 crypto "target" share.target
  checkShareTarget (bigEndianValue target)
  require (bigEndianValue workHash ≤ bigEndianValue target) .shareWorkAboveTarget
  let expected ← shareScoreFromTarget (bigEndianValue target)
  require (share.hashrateScoreDelta = expected) (.shareScoreMismatch expected share.hashrateScoreDelta)

def verifyPresentWorkBindingFields : Except SharechainError Unit :=
  match share.workBinding with
  | none => pure ()
  | some binding => do
    binding.validateCommitmentFields.mapError .invalidShareWorkBinding
    require (EqIgnoreAsciiCase binding.minerId share.minerId) (.shareWorkBindingMismatch "miner_id")
    require (EqIgnoreAsciiCase binding.assignedShareTarget share.target)
      (.shareWorkBindingMismatch "assigned_share_target")
    require (EqIgnoreAsciiCase binding.parentShareHash share.parentShareHash)
      (.shareWorkBindingMismatch "parent_share_hash")
    require (EqIgnoreAsciiCase binding.idenaSnapshotId share.idenaSnapshotId)
      (.shareWorkBindingMismatch "idena_snapshot_id")
    require (EqIgnoreAsciiCase binding.idenaSnapshotProofRoot share.idenaSnapshotProofRoot)
      (.shareWorkBindingMismatch "idena_snapshot_proof_root")
    (binding.verifyHeaderCommitment crypto share.bitcoinHeaderHex).mapError .invalidShareWorkBinding

def verifyPresentWorkBindingForTemplate (template : BitcoinWorkTemplate) : Except SharechainError Unit := do
  share.verifyPresentWorkBindingFields crypto
  match share.workBinding with
  | none => pure ()
  | some binding =>
    let anchor ← okOr template.idenaAnchor (.shareWorkBindingMismatch "idena_anchor")
    require (binding.idenaAnchor = anchor) (.shareWorkBindingMismatch "idena_anchor")
    let templatePolicyHash ← okOr template.idenaAnchorPolicyHash
      (.shareWorkBindingMismatch "idena_anchor_policy_hash")
    require (EqIgnoreAsciiCase binding.idenaAnchorPolicyHash templatePolicyHash)
      (.shareWorkBindingMismatch "idena_anchor_policy_hash")

def verifyRequiredWorkBinding (template : BitcoinWorkTemplate) (policy : ShareWorkBindingPolicyV1) :
    Except SharechainError Unit := do
  share.verifyPresentWorkBindingForTemplate crypto template
  let binding ← okOr share.workBinding .missingShareWorkBinding
  (binding.verifyPolicy crypto policy).mapError .invalidShareWorkBinding

def verifyMiningSignatureForTemplate (miningPubkeyHex : Text) (template : BitcoinWorkTemplate) :
    Except SharechainError Unit := do
  share.validateFields
  template.verifyTemplateHash crypto
  require (EqIgnoreAsciiCase share.bitcoinTemplateHash template.templateHash)
    (.shareTemplateHashMismatch (toAsciiLowercase template.templateHash)
      (toAsciiLowercase share.bitcoinTemplateHash))
  let headerPrefixHex ← share.bitcoinHeaderPrefixHex crypto
  require (EqIgnoreAsciiCase headerPrefixHex template.headerPrefixHex)
    (.shareTemplateHashMismatch (toAsciiLowercase template.templateHash)
      (toAsciiLowercase share.bitcoinTemplateHash))
  template.verifyAssignedShareTarget crypto share.target
  share.verifyNonceBinding crypto
  share.verifyWorkScore crypto
  share.verifyPresentWorkBindingForTemplate crypto template
  Core.verifyMiningSignature crypto miningPubkeyHex share.miningSignatureHex (share.signingHash crypto)

end Share

namespace SnapshotVote

def signingHash (vote : SnapshotVote) : Digest :=
  crypto.sha256Tagged (.snapshotVote
    { voterMinerId := toAsciiLowercase vote.voterMinerId
      snapshotDay := vote.snapshotDay
      idenaHeight := vote.idenaHeight
      scoreRoot := toAsciiLowercase vote.scoreRoot })

def verifyMiningSignature (vote : SnapshotVote) (miningPubkeyHex : Text) : Except SharechainError Unit := do
  validateMinerId "voter_miner_id" vote.voterMinerId
  (crypto.naiveDateFromStr vote.snapshotDay).mapError (.invalidField "snapshot_day")
  require (vote.idenaHeight ≠ 0) (.invalidField "idena_height" "height must be greater than zero")
  validateHex32 "score_root" vote.scoreRoot
  Core.verifyMiningSignature crypto miningPubkeyHex vote.signatureHex (vote.signingHash crypto)

end SnapshotVote

end P2PoolBTC.Model.Core
