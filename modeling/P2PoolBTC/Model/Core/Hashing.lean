import P2PoolBTC.Model.Core.Records

/-! # Tagged hashing and external primitives

Consensus hashes are SHA-256 over a domain tag and the canonical JSON of a payload. The model
keeps the payload itself as the preimage and one constructor per tag, and takes the digest
function, signature verification, and the other third-party parsers as one parameter.
-/

namespace P2PoolBTC.Model.Core

open Math

/-- A thirty-two-byte digest or public key. -/
structure Digest where
  bytes : List UInt8
  size : bytes.length = 32
deriving DecidableEq

/-- Lower-case hexadecimal text of a digest. -/
def hashHex (digest : Digest) : Text := hexEncode digest.bytes

theorem hashHex_injective : Function.Injective hashHex := by
  intro left right equal
  cases left
  cases right
  simpa [hashHex] using hexEncode_injective equal

theorem hashHex_lowercase (digest : Digest) : IsAsciiLowercase (hashHex digest) :=
  hexEncode_lowercase digest.bytes

/-- What a miner's two keys sign when it registers. -/
structure MinerRegistrationSigningPayload where
  version : U16
  minerId : Text
  idenaAddress : Text
  btcPayoutScriptHex : Text
  claimOwnerPubkeyHex : Text
  miningPubkeyHex : Text
  registryAnchor : Option MinerRegistryAnchorV1
deriving DecidableEq

/-- What the on-chain registry commits to. -/
structure MinerRegistryCommitmentPayload where
  schemaVersion : U16
  experimentId : Text
  minerId : Text
  idenaAddress : Text
  btcPayoutScriptHex : Text
  claimOwnerPubkeyHex : Text
  miningPubkeyHex : Text
deriving DecidableEq

/-- What a mining key signs for a template. -/
structure BitcoinWorkTemplateSigningPayload where
  version : U16
  minerId : Text
  headerPrefixHex : Text
  templateHash : Text
  assignedShareTarget : Option Text
  idenaAnchor : Option IdenaBlockAnchorV1
  idenaAnchorPolicyHash : Option Text
  createdAtUnix : ℤ
deriving DecidableEq

structure TargetBoundBitcoinWorkTemplateHashPayload where
  version : U16
  headerPrefixHex : Text
  assignedShareTarget : Text
deriving DecidableEq

structure IdenaAnchoredBitcoinWorkTemplateHashPayload where
  version : U16
  headerPrefixHex : Text
  assignedShareTarget : Text
  idenaAnchor : IdenaBlockAnchorV1
  idenaAnchorPolicyHash : Text
deriving DecidableEq

/-- What a mining key signs for a share. -/
structure ShareSigningPayload where
  minerId : Text
  bitcoinHeaderHex : Text
  bitcoinTemplateHash : Text
  nonceHex : Text
  workHash : Text
  target : Text
  idenaSnapshotId : Text
  idenaSnapshotProofRoot : Text
  hashrateScoreDelta : Score
  parentShareHash : Text
  workBinding : Option ShareWorkBindingV1
deriving DecidableEq

structure SnapshotVoteSigningPayload where
  voterMinerId : Text
  snapshotDay : Text
  idenaHeight : U64
  scoreRoot : Text
deriving DecidableEq

/-- What a claim owner signs for a withdrawal. -/
structure WithdrawalSigningPayload where
  requestId : Text
  claimOwnerId : Text
  claimOwnerPubkeyHex : Text
  destinationScriptHex : Text
  amountSats : Sats
  maxFeeRateSatVb : U64
  nonce : U64
  expiryHeight : U64
  outputKind : WithdrawalOutputKind
deriving DecidableEq

structure PayoutRootMaterial where
  directOutputs : List DirectPayout
  vaultAllocations : List VaultAllocation
  vaultOutputSats : Sats
deriving DecidableEq

structure ShareWorkCommitmentPayloadV1 where
  schemaVersion : U16
  policyHash : Text
  minerId : Text
  assignedShareTarget : Text
  parentShareHash : Text
  idenaSnapshotId : Text
  idenaSnapshotProofRoot : Text
  idenaAnchor : IdenaBlockAnchorV1
  idenaAnchorPolicyHash : Text
deriving DecidableEq

/-- A domain tag together with the payload hashed under it. -/
inductive HashPreimage where
  /-- `POHW1_MINER_REGISTRATION`, or `POHW2_MINER_REGISTRATION` for a version other than 1. -/
  | minerRegistration (payload : MinerRegistrationSigningPayload)
  /-- `POHW_MINER_REGISTRY_COMMITMENT_V1` -/
  | minerRegistryCommitment (payload : MinerRegistryCommitmentPayload)
  /-- `POHW1_BTC_TEMPLATE` over the raw header bytes -/
  | btcTemplate (headerPrefix : List UInt8)
  /-- `POHW2_BTC_TEMPLATE` -/
  | targetBoundBtcTemplate (payload : TargetBoundBitcoinWorkTemplateHashPayload)
  /-- `POHW3_BTC_TEMPLATE` -/
  | idenaAnchoredBtcTemplate (payload : IdenaAnchoredBitcoinWorkTemplateHashPayload)
  /-- `POHW1_BITCOIN_WORK_TEMPLATE` -/
  | bitcoinWorkTemplate (payload : BitcoinWorkTemplateSigningPayload)
  /-- `POHW1_SHARE` -/
  | share (payload : ShareSigningPayload)
  /-- `POHW1_SNAPSHOT_VOTE` -/
  | snapshotVote (payload : SnapshotVoteSigningPayload)
  /-- `POHW1_SHARECHAIN_MESSAGE` over the normal form of a message -/
  | sharechainMessage (message : SharechainMessage)
  /-- `POHW1_WITHDRAWAL_REQUEST` -/
  | withdrawalRequest (payload : WithdrawalSigningPayload)
  /-- `POHW1_WITHDRAWAL_BATCH` over the normal form of a batch -/
  | withdrawalBatch (batch : WithdrawalBatch)
  /-- `POHW1_ACCOUNTING_STATE` -/
  | accountingState (material : AccountingStateRootMaterial)
  /-- `POHW1_MERKLE_LEAF` over the material of a payout root -/
  | merklePayoutLeaf (material : PayoutRootMaterial)
  /-- `POHW1_MERKLE_LEAF` over an identity snapshot leaf -/
  | merkleSnapshotLeaf (leaf : SnapshotLeaf)
  /-- `POHW1_MERKLE_NODE` -/
  | merkleNode (left right : Digest)
  /-- `POHW1_MERKLE_EMPTY` -/
  | merkleEmpty
  /-- `POHW_IDENA_ANCHOR_POLICY_V2` -/
  | idenaAnchorPolicy (policy : IdenaAnchorPolicyV2)
  /-- `P2POOLBTC_SHARE_WORK_POLICY_V1` -/
  | shareWorkPolicy (policy : ShareWorkBindingPolicyV1)
  /-- `P2POOLBTC_SHARE_WORK_V1` -/
  | shareWorkCommitment (payload : ShareWorkCommitmentPayloadV1)
deriving DecidableEq

/-- What the share-work checks read of a deserialized Bitcoin transaction. -/
structure CoinbaseTransaction where
  isCoinbase : Bool
  serialized : List UInt8
  outputScripts : List (List UInt8)
  txid : Digest
deriving DecidableEq

/-- Hash functions, signature schemes and parsers that the repository takes from other crates. -/
structure Crypto where
  sha256Tagged : HashPreimage → Digest
  sha256d : List UInt8 → Digest
  keccak256 : List UInt8 → Digest
  xOnlyPublicKeyFromStr : Text → Except String Digest
  verifySchnorr : List UInt8 → Digest → Digest → Except String Unit
  recoverEcdsa : List UInt8 → ℕ → Digest → Except String (List UInt8)
  naiveDateFromStr : Text → Except String Unit
  isCanonicalCidV1 : Text → Bool
  deserializeTransaction : List UInt8 → Except String CoinbaseTransaction
  newP2trScriptHex : Digest → Text
  hexDecodeError : Text → String

variable (crypto : Crypto)

/-- The digest of thirty-two zero bytes. -/
def Digest.zero : Digest := ⟨List.replicate 32 0, List.length_replicate⟩

/-- The digest with the given hexadecimal text; texts of another length give the zero digest. -/
def Digest.ofHex (text : Text) : Digest :=
  if size : ((hexDecode? text).getD []).length = 32 then ⟨(hexDecode? text).getD [], size⟩
  else ⟨List.replicate 32 0, List.length_replicate⟩

/-- Recorded values of the external primitives, as hexadecimal texts. -/
structure CryptoTables where
  sha256Tagged : List (HashPreimage × Text) := []
  sha256d : List (Text × Text) := []
  keccak256 : List (Text × Text) := []
  publicKeys : List Text := []
  signatures : List (Text × Text × Text) := []
  recoveries : List (Text × ℕ × Text × Text) := []
  dates : List Text := []
  p2trScripts : List (Text × Text) := []

/-- The tables with the values on one signed message as well. -/
def CryptoTables.withSigned (payload : HashPreimage) (message : SharechainMessage) (signature key digest : Text)
    (messageHash : Text) (tables : CryptoTables) : CryptoTables :=
  { tables with
    sha256Tagged := (payload, digest) :: (.sharechainMessage message, messageHash) :: tables.sha256Tagged
    signatures := (signature, digest, key) :: tables.signatures }

/-- Primitives that return the recorded values and refuse what was not recorded. -/
def Crypto.ofTables (tables : CryptoTables) : Crypto where
  sha256Tagged preimage := Digest.ofHex ((tables.sha256Tagged.lookup preimage).getD [])
  sha256d bytes := Digest.ofHex ((tables.sha256d.lookup (hexEncode bytes)).getD [])
  keccak256 bytes := Digest.ofHex ((tables.keccak256.lookup (hexEncode bytes)).getD [])
  xOnlyPublicKeyFromStr text :=
    if text ∈ tables.publicKeys then .ok (Digest.ofHex text) else .error "malformed public key"
  verifySchnorr signature digest key :=
    if (hexEncode signature, hashHex digest, hashHex key) ∈ tables.signatures then .ok ()
    else .error "signature failed verification"
  recoverEcdsa signature recoveryId digest :=
    match tables.recoveries.find? fun entry =>
      entry.1 == hexEncode signature && entry.2.1 == recoveryId && entry.2.2.1 == hashHex digest with
    | some entry => .ok ((hexDecode? entry.2.2.2).getD [])
    | none => .error "signature failed verification"
  naiveDateFromStr text :=
    if text ∈ tables.dates then .ok () else .error "input contains invalid characters"
  isCanonicalCidV1 _ := false
  deserializeTransaction _ := .error "unexpected end of file"
  newP2trScriptHex key := (tables.p2trScripts.lookup (hashHex key)).getD []
  hexDecodeError _ := "Odd number of digits"

/-- The hexadecimal digest of a preimage. -/
def taggedHashHex (preimage : HashPreimage) : Text :=
  hashHex (crypto.sha256Tagged preimage)

theorem taggedHashHex_lowercase (preimage : HashPreimage) :
    IsAsciiLowercase (taggedHashHex crypto preimage) := hashHex_lowercase _

@[simp] theorem toAsciiLowercase_taggedHashHex (preimage : HashPreimage) :
    toAsciiLowercase (taggedHashHex crypto preimage) = taggedHashHex crypto preimage :=
  taggedHashHex_lowercase crypto preimage

/-- The digest function does not collide on the given preimages. -/
def CollisionFree (preimages : Set HashPreimage) : Prop :=
  Set.InjOn crypto.sha256Tagged preimages

theorem CollisionFree.eq_of_taggedHashHex {crypto : Crypto} {preimages : Set HashPreimage}
    (collisionFree : CollisionFree crypto preimages) {left right : HashPreimage}
    (leftMember : left ∈ preimages) (rightMember : right ∈ preimages)
    (equal : taggedHashHex crypto left = taggedHashHex crypto right) : left = right :=
  collisionFree leftMember rightMember (hashHex_injective equal)

def SharechainMessage.messageHash (message : SharechainMessage) : Text :=
  taggedHashHex crypto (.sharechainMessage message.normalized)

/-- A share is identified by the hash of its message. -/
def Share.shareHash (share : Share) : Text :=
  (SharechainMessage.share share).messageHash crypto

@[simp] theorem toAsciiLowercase_shareHash (share : Share) :
    toAsciiLowercase (share.shareHash crypto) = share.shareHash crypto :=
  taggedHashHex_lowercase crypto _

/-- Case folding does not change which message is hashed. -/
@[simp] theorem messageHash_normalized (message : SharechainMessage) :
    message.normalized.messageHash crypto = message.messageHash crypto := by
  simp [SharechainMessage.messageHash]

@[simp] theorem shareHash_normalized (share : Share) : share.normalized.shareHash crypto = share.shareHash crypto :=
  messageHash_normalized crypto (.share share)

/-- One level of a Merkle tree; an odd last node is paired with itself. -/
def merkleLevel : List Digest → List Digest
  | [] => []
  | [only] => [crypto.sha256Tagged (.merkleNode only only)]
  | left :: right :: rest => crypto.sha256Tagged (.merkleNode left right) :: merkleLevel rest

/-- Climb from a nonempty level to the root. A level has fewer nodes than the one below it, so
the length of the lowest level bounds the number of steps. -/
def merkleClimb : ℕ → Digest → List Digest → Digest
  | 0, first, _ => first
  | _ + 1, only, [] => only
  | steps + 1, first, second :: rest =>
    merkleClimb steps (crypto.sha256Tagged (.merkleNode first second)) (merkleLevel crypto rest)

def merkleRootHashes : List Digest → Digest
  | [] => crypto.sha256Tagged .merkleEmpty
  | first :: rest => merkleClimb crypto (rest.length + 1) first rest

/-- The Merkle root of the leaf hashes of a list of leaf preimages. -/
def merkleRoot (leaves : List HashPreimage) : Text :=
  hashHex (merkleRootHashes crypto (leaves.map crypto.sha256Tagged))

@[simp] theorem merkleRoot_singleton (leaf : HashPreimage) :
    merkleRoot crypto [leaf] = taggedHashHex crypto leaf := rfl

end P2PoolBTC.Model.Core
