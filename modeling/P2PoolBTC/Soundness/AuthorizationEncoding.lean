import P2PoolBTC.Math.CaseFolding
import P2PoolBTC.Math.MerkleTree
import P2PoolBTC.Model.Core.ConsensusIdentity

/-! # The encoding of identity authorizations

Each decoder is characterised by one equivalence with its encoder: a hexadecimal field, a leaf, a
payload and a minimal push are accepted exactly when they are what the encoder writes.
-/

namespace P2PoolBTC.Soundness

open Math Model.Core

section Encoding

variable {crypto : IdentityCrypto} {authorization : ConsensusIdentityAuthorizationV1}
  {policy : ConsensusIdentityPolicyV1}

/-! ## Hexadecimal fields and words -/

private theorem hexDigit_lowercaseHex : ∀ value < 16, isLowercaseHexDigit (hexDigit value) = true := by
  decide

theorem hexEncode_all_lowercaseHex (bytes : List UInt8) :
    (hexEncode bytes).all isLowercaseHexDigit = true := hexEncode_all hexDigit_lowercaseHex bytes

/-- A text of lower-case digits is what its bytes are written as. -/
theorem hexEncode_eq_of_lowercaseHex {text : Text} {bytes : List UInt8}
    (digits : text.all isLowercaseHexDigit = true) (decoded : hexDecode? text = some bytes) :
    text = hexEncode bytes := by
  rw [hexEncode_of_hexDecode? decoded, toAsciiLowercase]
  refine ((List.map_congr_left ?_).trans (List.map_id text)).symm
  intro char member
  have lower := List.all_eq_true.mp digits char member
  simp only [isLowercaseHexDigit, Bool.and_eq_true, Bool.not_eq_true'] at lower
  exact toLower_relates (R := fun char lower => char.isUpper = false → lower = char) (fun _ _ _ => rfl)
    (by decide) char lower.2

def hexPrefix (prefixed : Bool) : Text := if prefixed then ['0', 'x'] else []

variable {field : String} {value : Text} {prefixed : Bool}

private theorem hexPayload_eq_ok {payload : Text} :
    hexPayload field value prefixed = .ok payload ↔ value = hexPrefix prefixed ++ payload := by
  cases prefixed with
  | false =>
    simp only [hexPayload, hexPrefix, Bool.false_eq_true, if_false, Except.ok.injEq, List.nil_append]
  | true =>
    simp only [hexPayload, hexPrefix, if_true, okOr_eq_ok, stripLeading?, List.isPrefixOf_iff_prefix]
    constructor
    · intro stripped
      split at stripped
      · next leading =>
        obtain ⟨rest, rfl⟩ := leading
        cases stripped
        rfl
      · cases stripped
    · rintro rfl
      exact if_pos ⟨payload, rfl⟩

variable {count : ℕ}

/-- An exact hexadecimal field is its bytes written out. -/
theorem decodeHexExact_eq_ok {bytes : List UInt8} :
    decodeHexExact crypto field value count prefixed = .ok bytes ↔
      value = hexPrefix prefixed ++ hexEncode bytes ∧ bytes.length = count := by
  simp only [decodeHexExact, except_bind_eq_ok, require_eq_ok, okOr_eq_ok, exists_const, hexPayload_eq_ok]
  constructor
  · rintro ⟨payload, rfl, ⟨size, digits⟩, decoded⟩
    have length := byteLength_of_hexDecode? decoded
    rw [← hexEncode_eq_of_lowercaseHex digits decoded]
    exact ⟨rfl, by omega⟩
  · rintro ⟨rfl, rfl⟩
    have length := byteLength_of_hexDecode? (hexDecode?_hexEncode bytes)
    exact ⟨hexEncode bytes, rfl, ⟨by omega, hexEncode_all_lowercaseHex bytes⟩, hexDecode?_hexEncode bytes⟩

variable {done : Unit}

theorem validateHex_eq_ok :
    validateHex crypto field value count prefixed = .ok done ↔
      ∃ bytes, value = hexPrefix prefixed ++ hexEncode bytes ∧ bytes.length = count := by
  simp only [validateHex, except_bind_eq_ok, decodeHexExact_eq_ok]
  constructor
  · rintro ⟨bytes, valid, _⟩
    exact ⟨bytes, valid⟩
  · rintro ⟨bytes, valid⟩
    exact ⟨bytes, valid, rfl⟩

/-- A hash field is a digest written out. -/
theorem decodeHash_eq_ok {digest : Digest} : decodeHash crypto value = .ok digest ↔ value = hashHex digest := by
  simp only [decodeHash, except_bind_eq_ok, decodeHexExact_eq_ok]
  constructor
  · rintro ⟨bytes, ⟨rfl, size⟩, made⟩
    rw [dif_pos size] at made
    cases made
    rfl
  · rintro rfl
    exact ⟨digest.bytes, ⟨rfl, digest.size⟩, dif_pos digest.size⟩

@[simp] theorem length_leBytes (count value : ℕ) : (leBytes count value).length = count := by
  induction count generalizing value with
  | zero => rfl
  | succ count ih => rw [leBytes, List.length_cons, ih]

theorem littleEndian_leBytes {value : ℕ} (fits : value < 256 ^ count) : littleEndian (leBytes count value) = value := by
  induction count generalizing value with
  | zero =>
    have none : value = 0 := by simpa using fits
    rw [none]
    rfl
  | succ count ih =>
    have small : value / 256 < 256 ^ count := by
      rw [pow_succ'] at fits
      omega
    have byte : (UInt8.ofNat value).toNat = value % 256 := UInt8.toNat_ofNat'
    rw [leBytes, littleEndian, ih small, byte]
    omega

theorem leBytes_littleEndian (bytes : List UInt8) : leBytes bytes.length (littleEndian bytes) = bytes := by
  induction bytes with
  | nil => rfl
  | cons byte rest ih =>
    have bound := byte.toNat_lt
    have quotient : (byte.toNat + 256 * littleEndian rest) / 256 = littleEndian rest := by omega
    have low : UInt8.ofNat (byte.toNat + 256 * littleEndian rest) = byte := by
      apply UInt8.toNat_inj.mp
      rw [UInt8.toNat_ofNat']
      omega
    rw [List.length_cons, leBytes, littleEndian, quotient, low, ih]

theorem littleEndian_lt (bytes : List UInt8) : littleEndian bytes < 256 ^ bytes.length := by
  induction bytes with
  | nil => decide
  | cons byte rest ih =>
    have bound := byte.toNat_lt
    rw [littleEndian, List.length_cons, pow_succ']
    omega

/-- A word read from as many bytes as it has is written back as those bytes. -/
theorem leBytes_ofNat_littleEndian {bytes : List UInt8} {width : ℕ} (size : bytes.length = count)
    (wide : 256 ^ count = 2 ^ width) : leBytes count (BitVec.ofNat width (littleEndian bytes)).toNat = bytes := by
  have bound := littleEndian_lt bytes
  rw [size, wide] at bound
  rw [BitVec.toNat_ofNat, Nat.mod_eq_of_lt bound, ← size, leBytes_littleEndian]

theorem ofNat_littleEndian_leBytes {width : ℕ} (word : BitVec width) (wide : 256 ^ count = 2 ^ width) :
    BitVec.ofNat width (littleEndian (leBytes count word.toNat)) = word := by
  rw [littleEndian_leBytes (wide ▸ word.isLt), BitVec.ofNat_toNat, BitVec.setWidth_eq]

/-! ## Leaves -/

private theorem identityStateFromCode_eq_ok {code : UInt8} {state : IdenaStatus} :
    identityStateFromCode code = .ok state ↔ identityStateCode state = .ok code := by
  unfold identityStateFromCode identityStateCode
  constructor
  · intro read
    split_ifs at read with verified newbie human
    · cases read
      rw [verified]
    · cases read
      rw [newbie]
    · cases read
      rw [human]
  · intro written
    split at written <;> cases written <;> rfl

private theorem isBlockEligible_iff {state : IdenaStatus} :
    state.isBlockEligible = true ↔ ∃ code, identityStateCode state = .ok code := by
  cases state <;> simp [IdenaStatus.isBlockEligible, identityStateCode]

/-- The parts of a valid leaf as bytes. -/
structure LeafParts (crypto : IdentityCrypto) (leaf : ConsensusIdentityLeafV1)
    (address : List UInt8) (code : UInt8) (key commitment : List UInt8) : Prop where
  address_text : leaf.idenaAddress = hexPrefix true ++ hexEncode address ∧ address.length = 20
  state_code : identityStateCode leaf.identityState = .ok code
  key_text : leaf.miningPubkeyXonly = hexEncode key ∧ key.length = 32
  key_parsed : ∃ point, crypto.xOnlyPublicKeyFromStr leaf.miningPubkeyXonly = .ok point
  commitment_text : leaf.registryCommitment = hexEncode commitment ∧ commitment.length = 32
  registered : leaf.registrationSequence ≠ 0 ∧ leaf.registrationBlock ≠ 0

theorem validate_eq_ok_iff_parts {leaf : ConsensusIdentityLeafV1} :
    leaf.validate crypto = .ok done ↔ ∃ address code key commitment,
      LeafParts crypto leaf address code key commitment := by
  simp only [ConsensusIdentityLeafV1.validate, except_bind_eq_ok, exists_const, validateHex_eq_ok, require_eq_ok,
    mapError_eq_ok, isBlockEligible_iff]
  constructor
  · rintro ⟨⟨address, addressText⟩, ⟨code, coded⟩, ⟨key, keyText⟩, point, parsed, ⟨commitment, commitmentText⟩,
      registered⟩
    exact ⟨address, code, key, commitment, addressText, coded, keyText, ⟨point, parsed⟩, commitmentText, registered⟩
  · rintro ⟨address, code, key, commitment, parts⟩
    obtain ⟨point, parsed⟩ := parts.key_parsed
    exact ⟨⟨address, parts.address_text⟩, ⟨code, parts.state_code⟩, ⟨key, parts.key_text⟩, point, parsed,
      ⟨commitment, parts.commitment_text⟩, parts.registered⟩

namespace LeafParts

variable {leaf : ConsensusIdentityLeafV1} {address : List UInt8} {code : UInt8} {key commitment : List UInt8}

def bytes (leaf : ConsensusIdentityLeafV1) (address : List UInt8) (code : UInt8) (key commitment : List UInt8) :
    List UInt8 :=
  address ++ code :: key ++ commitment ++ leBytes 4 leaf.registrationSequence.toNat ++
    leBytes 8 leaf.registrationBlock.toNat ++ leBytes 2 leaf.registrationEpoch.toNat

theorem normalized_eq (parts : LeafParts crypto leaf address code key commitment) : leaf.normalized = leaf := by
  have lower (bytes : List UInt8) : toAsciiLowercase (hexEncode bytes) = hexEncode bytes := hexEncode_lowercase bytes
  have addressLower : toAsciiLowercase leaf.idenaAddress = leaf.idenaAddress := by
    rw [parts.address_text.1]
    exact congrArg (hexPrefix true ++ ·) (lower address)
  rw [ConsensusIdentityLeafV1.normalized, addressLower, parts.key_text.1, parts.commitment_text.1, lower, lower,
    ← parts.key_text.1, ← parts.commitment_text.1]

theorem canonicalBytes_eq (parts : LeafParts crypto leaf address code key commitment) :
    leaf.canonicalBytes crypto = .ok (bytes leaf address code key commitment) := by
  have valid : leaf.validate crypto = .ok () := validate_eq_ok_iff_parts.mpr ⟨_, _, _, _, parts⟩
  have addressRead : decodeHexExact crypto "idena_address" leaf.idenaAddress 20 true = .ok address :=
    decodeHexExact_eq_ok.mpr parts.address_text
  have keyRead : decodeHexExact crypto "mining_pubkey_xonly" leaf.miningPubkeyXonly 32 false = .ok key :=
    decodeHexExact_eq_ok.mpr parts.key_text
  have commitmentRead : decodeHexExact crypto "registry_commitment" leaf.registryCommitment 32 false = .ok commitment :=
    decodeHexExact_eq_ok.mpr parts.commitment_text
  simp only [ConsensusIdentityLeafV1.canonicalBytes, parts.normalized_eq, valid, addressRead, parts.state_code,
    keyRead, commitmentRead, except_ok_bind]
  rfl

end LeafParts

/-- Ninety-nine bytes are the six slices of a leaf and its state code. -/
private theorem leafSlices {bytes : List UInt8} (size : bytes.length = 99) :
    bytes.take 20 ++ bytes.getD 20 0 :: (bytes.drop 21).take 32 ++ (bytes.drop 53).take 32 ++
      (bytes.drop 85).take 4 ++ (bytes.drop 89).take 8 ++ (bytes.drop 97).take 2 = bytes := by
  have step (start count : ℕ) : bytes.drop start = (bytes.drop start).take count ++ bytes.drop (start + count) := by
    rw [← List.drop_drop, List.take_append_drop]
  have code : bytes.drop 20 = bytes.getD 20 0 :: bytes.drop 21 := by
    rw [List.drop_eq_getElem_cons (by omega), List.getD_eq_getElem _ _ (by omega)]
  have ended : bytes.drop 99 = [] := List.drop_of_length_le (by omega)
  conv_rhs => rw [← List.take_append_drop 20 bytes, code, step 21 32, step 53 32, step 85 4, step 89 8, step 97 2,
    ended]
  simp only [List.append_assoc, List.cons_append, List.append_nil]

/-- A leaf is decoded from exactly the bytes it is written as. -/
theorem decodeLeaf_eq_ok {bytes : List UInt8} {leaf : ConsensusIdentityLeafV1} :
    decodeLeaf crypto bytes = .ok leaf ↔
      ∃ address code key commitment, LeafParts crypto leaf address code key commitment ∧
        bytes = LeafParts.bytes leaf address code key commitment := by
  simp only [decodeLeaf, except_bind_eq_ok, require_eq_ok, exists_const, identityStateFromCode_eq_ok,
    validate_eq_ok_iff_parts]
  constructor
  · rintro ⟨size, state, coded, ⟨address, code, key, commitment, parts⟩, made⟩
    cases made
    refine ⟨address, code, key, commitment, parts, ?_⟩
    have addressEq := hexEncode_injective ((List.append_right_inj ['0', 'x']).mp parts.address_text.1)
    have keyEq := hexEncode_injective parts.key_text.1
    have commitmentEq := hexEncode_injective parts.commitment_text.1
    have codeEq : bytes.getD 20 0 = code := Except.ok.inj (coded.symm.trans parts.state_code)
    rw [LeafParts.bytes, ← addressEq, ← keyEq, ← commitmentEq, ← codeEq,
      leBytes_ofNat_littleEndian (by simp [size]) rfl, leBytes_ofNat_littleEndian (by simp [size]) rfl,
      leBytes_ofNat_littleEndian (by simp [size]) rfl]
    exact (leafSlices size).symm
  · rintro ⟨address, code, key, commitment, parts, rfl⟩
    have size : (LeafParts.bytes leaf address code key commitment).length = 99 := by
      simp [LeafParts.bytes, parts.address_text.2, parts.key_text.2, parts.commitment_text.2]
    generalize found : LeafParts.bytes leaf address code key commitment = bytes at size ⊢
    have slices := (leafSlices size).trans found.symm
    simp only [LeafParts.bytes, List.append_assoc, List.cons_append] at slices
    -- The slices have the lengths of the parts, so they are the parts.
    obtain ⟨addressEq, slices⟩ := List.append_inj slices (by simp [size, parts.address_text.2])
    obtain ⟨codeEq, slices⟩ := List.cons.inj slices
    obtain ⟨keyEq, slices⟩ := List.append_inj slices (by simp [size, parts.key_text.2])
    obtain ⟨commitmentEq, slices⟩ := List.append_inj slices (by simp [size, parts.commitment_text.2])
    obtain ⟨sequenceEq, slices⟩ := List.append_inj slices (by simp [size])
    obtain ⟨blockEq, epochEq⟩ := List.append_inj slices (by simp [size])
    have made : leaf = {
        idenaAddress := '0' :: 'x' :: hexEncode (bytes.take 20)
        identityState := leaf.identityState
        miningPubkeyXonly := hexEncode ((bytes.drop 21).take 32)
        registryCommitment := hexEncode ((bytes.drop 53).take 32)
        registrationSequence := BitVec.ofNat 32 (littleEndian ((bytes.drop 85).take 4))
        registrationBlock := BitVec.ofNat 64 (littleEndian ((bytes.drop 89).take 8))
        registrationEpoch := BitVec.ofNat 16 (littleEndian ((bytes.drop 97).take 2)) } := by
      rw [addressEq, keyEq, commitmentEq, sequenceEq, blockEq, epochEq, ofNat_littleEndian_leBytes _ rfl,
        ofNat_littleEndian_leBytes _ rfl, ofNat_littleEndian_leBytes _ rfl, ← parts.key_text.1,
        ← parts.commitment_text.1]
      exact congrArg (fun text => { leaf with idenaAddress := text }) parts.address_text.1
    refine ⟨size, leaf.identityState, codeEq ▸ parts.state_code, ⟨address, code, key, commitment, ?_⟩, ?_⟩
    · rw [← made]
      exact parts
    · rw [← made]
      rfl

/-! ## Payloads -/

theorem takeBytes_eq_ok {length : ℕ} {unread value rest : List UInt8} :
    takeBytes length unread = .ok (value, rest) ↔ unread = value ++ rest ∧ value.length = length := by
  simp only [takeBytes, except_bind_eq_ok, require_eq_ok, exists_const, pure, Except.pure, Except.ok.injEq,
    Prod.mk.injEq]
  constructor
  · rintro ⟨enough, rfl, rfl⟩
    exact ⟨(List.take_append_drop _ _).symm, List.length_take_of_le enough⟩
  · rintro ⟨rfl, rfl⟩
    exact ⟨by simp, List.take_left, List.drop_left⟩

variable {depth : ℕ}

/-- As many siblings are read as there are digests in front. -/
theorem takeSiblings_eq_ok {unread rest : List UInt8} {texts : List Text} :
    takeSiblings depth unread = .ok (texts, rest) ↔
      ∃ siblings : List Digest, siblings.length = depth ∧ texts = siblings.map hashHex ∧
        unread = siblings.flatMap Digest.bytes ++ rest := by
  induction depth generalizing unread rest texts with
  | zero =>
    simp only [takeSiblings, Except.ok.injEq, Prod.mk.injEq]
    constructor
    · rintro ⟨rfl, rfl⟩
      exact ⟨[], rfl, rfl, rfl⟩
    · rintro ⟨siblings, none, rfl, rfl⟩
      obtain rfl := List.length_eq_zero_iff.mp none
      exact ⟨rfl, rfl⟩
  | succ depth ih =>
    simp only [takeSiblings, except_bind_eq_ok, Prod.exists, takeBytes_eq_ok, ih]
    constructor
    · rintro ⟨sibling, later, ⟨rfl, size⟩, others, last, ⟨siblings, rfl, rfl, rfl⟩, made⟩
      cases made
      exact ⟨⟨sibling, size⟩ :: siblings, rfl, rfl, by rw [List.flatMap_cons, List.append_assoc]⟩
    · rintro ⟨siblings, size, rfl, rfl⟩
      obtain ⟨first, others, rfl⟩ := List.exists_cons_of_length_eq_add_one size
      exact ⟨first.bytes, others.flatMap Digest.bytes ++ rest,
        ⟨by rw [List.flatMap_cons, List.append_assoc], first.size⟩,
        _, rest, ⟨others, by simpa using size, rfl, rfl⟩, rfl⟩

/-- The parts of an authorization as bytes. -/
structure PayloadParts (crypto : IdentityCrypto) (authorization : ConsensusIdentityAuthorizationV1)
    (policyHash : Digest) (leaf : List UInt8) (siblings : List Digest) (signature : List UInt8) : Prop where
  policy_text : authorization.policyHash = hashHex policyHash
  leaf_decodes : decodeLeaf crypto leaf = .ok authorization.leaf
  sibling_texts : authorization.proof.siblings = siblings.map hashHex
  depth : siblings.length ≤ maxConsensusIdentityProofDepth
  signature_text : authorization.blockSignatureHex = hexEncode signature ∧ signature.length = 64

namespace PayloadParts

variable {policyHash : Digest} {leaf : List UInt8}
  {siblings : List Digest} {signature : List UInt8}

def bytes (authorization : ConsensusIdentityAuthorizationV1) (policyHash : Digest) (leaf : List UInt8)
    (siblings : List Digest) (signature : List UInt8) : List UInt8 :=
  consensusIdentityMagic ++ authorization.schemaVersion :: policyHash.bytes ++ leaf ++
    leBytes 4 authorization.proof.leafIndex.toNat ++
    UInt8.ofNat siblings.length :: siblings.flatMap Digest.bytes ++ signature

private theorem payloadBytes_eq (parts : PayloadParts crypto authorization policyHash leaf siblings signature) :
    authorization.payloadBytes crypto = .ok (bytes authorization policyHash leaf siblings signature) := by
  obtain ⟨address, code, key, commitment, leafParts, rfl⟩ := decodeLeaf_eq_ok.mp parts.leaf_decodes
  have signed : decodeHexExact crypto "block_signature_hex" authorization.blockSignatureHex 64 false = .ok signature :=
    decodeHexExact_eq_ok.mpr parts.signature_text
  have hashes : authorization.proof.siblings.mapM (decodeHash crypto) = .ok siblings := by
    rw [except_mapM_eq_ok_iff, parts.sibling_texts, List.forall₂_map_left_iff, List.forall₂_same]
    intro sibling _
    exact decodeHash_eq_ok.mpr rfl
  have count : authorization.proof.siblings.length = siblings.length := by
    rw [parts.sibling_texts, List.length_map]
  have depth := parts.depth
  have fits : siblings.length ≤ 255 := by
    unfold maxConsensusIdentityProofDepth at depth
    omega
  simp only [ConsensusIdentityAuthorizationV1.payloadBytes, validateHex, signed, decodeHash_eq_ok.mpr parts.policy_text,
    leafParts.canonicalBytes_eq, hashes, count, require_of_true fits, except_ok_bind]
  rfl

theorem length_leaf (parts : PayloadParts crypto authorization policyHash leaf siblings signature) :
    leaf.length = leafByteLength := by
  obtain ⟨address, code, key, commitment, leafParts, rfl⟩ := decodeLeaf_eq_ok.mp parts.leaf_decodes
  simp [LeafParts.bytes, leafByteLength, leafParts.address_text.2, leafParts.key_text.2, leafParts.commitment_text.2]

private theorem length_siblings (siblings : List Digest) :
    (siblings.flatMap Digest.bytes).length = siblings.length * 32 := by
  induction siblings with
  | nil => rfl
  | cons first rest ih =>
    rw [List.flatMap_cons, List.length_append, first.size, ih, List.length_cons]
    omega

theorem length_bytes (parts : PayloadParts crypto authorization policyHash leaf siblings signature) :
    (bytes authorization policyHash leaf siblings signature).length = fixedByteLength + siblings.length * 32 := by
  simp only [bytes, List.length_append, List.length_cons, parts.length_leaf, length_siblings, policyHash.size,
    length_leBytes, parts.signature_text.2, fixedByteLength, consensusIdentityMagic, List.length_nil]
  omega

end PayloadParts

variable {payload : List UInt8}

/-- An authorization is read from exactly the payload it is written as. -/
theorem fromPayloadBytes_eq_ok :
    ConsensusIdentityAuthorizationV1.fromPayloadBytes crypto payload = .ok authorization ↔
      ∃ policyHash leaf siblings signature,
        PayloadParts crypto authorization policyHash leaf siblings signature ∧
          payload = PayloadParts.bytes authorization policyHash leaf siblings signature := by
  simp only [ConsensusIdentityAuthorizationV1.fromPayloadBytes, except_bind_eq_ok, require_eq_ok, exists_const,
    Prod.exists, takeBytes_eq_ok, takeSiblings_eq_ok]
  constructor
  · rintro ⟨⟨size, magic⟩, policyHash, unread, ⟨policyAt, policySize⟩, leafBytes, unread, ⟨rfl, leafSize⟩, leaf,
      decoded, index, unread, ⟨rfl, indexSize⟩, depth, unread, ⟨rfl, depthSize⟩, ⟨shallow, whole⟩, texts, unread,
      ⟨siblings, count, rfl, rfl⟩, signature, unread, ⟨rfl, signatureSize⟩, rfl, made⟩
    cases made
    obtain ⟨depthByte, rfl⟩ := List.length_eq_one_iff.mp depthSize
    change siblings.length = depthByte.toNat at count
    refine ⟨⟨policyHash, policySize⟩, leafBytes, siblings, signature,
      ⟨rfl, decoded, rfl, count ▸ shallow, rfl, signatureSize⟩, ?_⟩
    have front : payload = payload.take 5 ++ payload.getD 5 0 :: payload.drop 6 := by
      have long : 6 ≤ payload.length := le_trans (by decide) size
      rw [List.getD_eq_getElem _ _ (by omega), ← List.drop_eq_getElem_cons, List.take_append_drop]
    rw [PayloadParts.bytes, leBytes_ofNat_littleEndian indexSize rfl, count, UInt8.ofNat_toNat, ← magic]
    conv_lhs => rw [front, policyAt]
    simp only [List.append_assoc, List.cons_append, List.nil_append, List.append_nil]
  · rintro ⟨policyHash, leaf, siblings, signature, parts, rfl⟩
    have depth := parts.depth
    have byte : (UInt8.ofNat siblings.length).toNat = siblings.length := by
      unfold maxConsensusIdentityProofDepth at depth
      exact UInt8.toNat_ofNat_of_lt' (by change _ < 256; omega)
    have unread : (PayloadParts.bytes authorization policyHash leaf siblings signature).drop 6 =
        policyHash.bytes ++ (leaf ++ (leBytes 4 authorization.proof.leafIndex.toNat ++
          ([UInt8.ofNat siblings.length] ++ (siblings.flatMap Digest.bytes ++ (signature ++ []))))) := by
      simp [PayloadParts.bytes, consensusIdentityMagic]
    have size := parts.length_bytes
    refine ⟨⟨by omega, rfl⟩, policyHash.bytes, _, ⟨unread, policyHash.size⟩, leaf, _, ⟨rfl, parts.length_leaf⟩,
      authorization.leaf, parts.leaf_decodes, _, _, ⟨rfl, length_leBytes _ _⟩, _, _, ⟨rfl, rfl⟩, ⟨?_, ?_⟩,
      siblings.map hashHex, _, ⟨siblings, byte.symm, rfl, rfl⟩, signature, [], ⟨rfl, parts.signature_text.2⟩, rfl, ?_⟩
    · exact byte.le.trans depth
    · exact size.trans (by rw [List.getD_cons_zero, byte])
    · rw [ofNat_littleEndian_leBytes _ rfl, ← parts.sibling_texts, ← parts.signature_text.1]
      change Except.ok { authorization with policyHash := hashHex policyHash } = _
      rw [← parts.policy_text]

/-! ## Scripts -/

/-- A parsed script is the minimal push of its payload. -/
theorem appendMinimalPush_of_parse {script : List UInt8} (parsed : parseSingleMinimalOpReturn script = .ok payload) :
    appendMinimalPush [0x6a] payload = .ok script := by
  simp only [parseSingleMinimalOpReturn, except_bind_eq_ok, require_eq_ok, exists_const, Prod.exists] at parsed
  obtain ⟨⟨size, marker⟩, offset, length, spanned, whole, made⟩ := parsed
  cases made
  rcases script with _ | ⟨first, _ | ⟨opcode, rest⟩⟩
  · cases size
  · exact absurd size (by simp)
  · clear size
    obtain rfl : first = 0x6a := marker
    simp only [minimalPushSpan, List.getD_cons_succ, List.getD_cons_zero, List.drop_succ_cons, List.drop_zero]
      at spanned
    unfold appendMinimalPush
    split_ifs at spanned with short medium long
    · cases spanned
      have exact : rest.length = opcode.toNat := by simp only [List.length_cons] at whole; omega
      rw [List.drop_succ_cons, List.drop_succ_cons, List.drop_zero, if_pos (by omega), exact, UInt8.ofNat_toNat]
      rfl
    · cases spanned
      obtain ⟨rfl, enough, big⟩ := medium
      simp only [List.length_cons] at enough
      obtain ⟨size, payload, rfl⟩ := List.exists_cons_of_length_pos (l := rest) (by omega)
      have exact : payload.length = size.toNat := by
        simp only [List.length_cons, List.getD_cons_zero] at whole
        omega
      have bound := size.toNat_lt
      rw [List.getD_cons_zero] at big
      simp only [List.drop_succ_cons, List.drop_zero, exact]
      rw [if_neg (by omega), if_pos (by omega), UInt8.ofNat_toNat]
      rfl
    · cases spanned
      obtain ⟨rfl, enough, big⟩ := long
      have head : (rest.take 2).length = 2 := by
        simp only [List.length_cons] at enough
        rw [List.length_take]
        omega
      have bound := littleEndian_lt (rest.take 2)
      have exact : (rest.drop 2).length = littleEndian (rest.take 2) := by
        simp only [List.length_cons] at whole
        rw [List.length_drop]
        omega
      rw [head] at bound
      have written : leBytes 2 (littleEndian (rest.take 2)) = rest.take 2 := by
        nth_rewrite 1 [← head]
        exact leBytes_littleEndian _
      simp only [List.drop_succ_cons, exact]
      rw [if_neg (by omega), if_neg (by omega), if_pos (by omega), written]
      simp only [List.cons_append, List.nil_append, List.take_append_drop]

/-- A minimal push is parsed to its payload. -/
theorem parse_of_appendMinimalPush {script : List UInt8} (written : appendMinimalPush [0x6a] payload = .ok script) :
    parseSingleMinimalOpReturn script = .ok payload := by
  simp only [parseSingleMinimalOpReturn, except_bind_eq_ok, require_eq_ok, exists_const, Prod.exists]
  unfold appendMinimalPush at written
  split_ifs at written with short medium long
  · cases written
    have byte : (UInt8.ofNat payload.length).toNat = payload.length :=
      UInt8.toNat_ofNat_of_lt' (by change _ < 256; omega)
    refine ⟨⟨by simp, rfl⟩, 2, payload.length, ?_, by simp; omega, rfl⟩
    simp only [minimalPushSpan, List.cons_append, List.nil_append, List.getD_cons_succ, List.getD_cons_zero, byte]
    exact if_pos short
  · cases written
    have byte : (UInt8.ofNat payload.length).toNat = payload.length :=
      UInt8.toNat_ofNat_of_lt' (by change _ < 256; omega)
    refine ⟨⟨by simp, rfl⟩, 3, payload.length, ?_, by simp; omega, rfl⟩
    simp only [minimalPushSpan, List.cons_append, List.nil_append, List.getD_cons_succ, List.getD_cons_zero, byte]
    rw [if_neg (by decide), if_pos ⟨trivial, by simp, by omega⟩]
  · cases written
    have value : littleEndian (leBytes 2 payload.length) = payload.length := littleEndian_leBytes (by omega)
    have head : ((leBytes 2 payload.length ++ payload).take 2) = leBytes 2 payload.length :=
      List.take_left' (length_leBytes _ _)
    refine ⟨⟨by simp, rfl⟩, 4, payload.length, ?_, by simp; omega, rfl⟩
    simp only [minimalPushSpan, List.cons_append, List.nil_append, List.getD_cons_succ, List.getD_cons_zero,
      List.drop_succ_cons, List.drop_zero, head, value]
    rw [if_neg (by decide), if_neg (by rintro ⟨differs, _⟩; exact absurd differs (by decide)),
      if_pos ⟨trivial, by simp, by omega⟩]

/-! ## Membership -/

private theorem countHalvings_eq {fuel remaining : ℕ} (fits : remaining < 2 ^ fuel) :
    countHalvings fuel remaining depth = depth + Nat.size remaining := by
  induction fuel generalizing remaining depth with
  | zero =>
    have none : remaining = 0 := by simpa using fits
    rw [countHalvings, none, Nat.size_zero, add_zero]
  | succ fuel ih =>
    rw [countHalvings]
    split
    · next positive =>
      rw [pow_succ] at fits
      rw [ih (by omega), MerkleTree.size_half (Nat.pos_of_ne_zero positive)]
      omega
    · next none =>
      rw [not_not.mp none, Nat.size_zero, add_zero]

theorem requiredMerkleProofDepth_eq_ok {count : U32} :
    requiredMerkleProofDepth count = .ok depth ↔ count ≠ 0 ∧ Nat.size (count.toNat - 1) = depth := by
  have fits : count.toNat - 1 < 2 ^ 32 := by
    have bound := count.isLt
    omega
  simp only [requiredMerkleProofDepth, except_bind_eq_ok, require_eq_ok, exists_const, countHalvings_eq fits, zero_add,
    pure, Except.pure, Except.ok.injEq]

/-- The limits a valid policy puts on proofs. -/
theorem policyLimits (valid : policy.validate crypto = .ok done) :
    policy.authorizedIdentityCount ≠ 0 ∧ policy.maxProofDepth.toNat ≤ maxConsensusIdentityProofDepth ∧
      Nat.size (policy.authorizedIdentityCount.toNat - 1) ≤ policy.maxProofDepth.toNat := by
  simp only [ConsensusIdentityPolicyV1.validate, except_bind_eq_ok, require_eq_ok, exists_const, mapError_eq_ok,
    validateHex_eq_ok, requiredMerkleProofDepth_eq_ok] at valid
  obtain ⟨_, _, _, _, _, _, _, _, _, _, _, _, _, _, _, _, shallow, depth, ⟨positive, rfl⟩, enough, _⟩ := valid
  exact ⟨positive, shallow, enough⟩

/-- Climbing over texts is climbing over the digests they spell. -/
theorem climbSiblings_eq_ok {hash result : Digest} {index last : U32} {texts : List Text} :
    climbSiblings crypto hash index texts = .ok (result, last) ↔
      ∃ siblings : List Digest, texts = siblings.map hashHex ∧
        result = MerkleTree.climb (merkleParent crypto) index.toNat hash siblings ∧
        last.toNat = index.toNat / 2 ^ siblings.length := by
  induction texts generalizing hash index with
  | nil =>
    simp only [climbSiblings, Except.ok.injEq, Prod.mk.injEq]
    constructor
    · rintro ⟨rfl, rfl⟩
      exact ⟨[], rfl, rfl, by simp⟩
    · rintro ⟨siblings, none, rfl, same⟩
      obtain rfl := List.map_eq_nil_iff.mp none.symm
      exact ⟨rfl, BitVec.eq_of_toNat_eq (by simpa using same.symm)⟩
  | cons text rest ih =>
    have half : (index >>> 1).toNat = index.toNat / 2 := by simp [Nat.shiftRight_eq_div_pow]
    have parity : index &&& 1 = 0 ↔ index.toNat % 2 = 0 := by
      rw [← BitVec.toNat_inj, BitVec.toNat_and]
      exact Nat.and_one_is_mod _ ▸ Iff.rfl
    have steps (count : ℕ) : index.toNat / 2 / 2 ^ count = index.toNat / 2 ^ (count + 1) := by
      rw [Nat.div_div_eq_div_mul, pow_succ']
    simp only [climbSiblings, except_bind_eq_ok, decodeHash_eq_ok, ih, half, parity]
    constructor
    · rintro ⟨sibling, rfl, others, rfl, rfl, reached⟩
      exact ⟨sibling :: others, rfl, rfl, by rw [reached, steps, List.length_cons]⟩
    · rintro ⟨siblings, spelled, rfl, reached⟩
      obtain ⟨sibling, others, rfl, rfl, rfl⟩ := List.map_eq_cons_iff.mp spelled.symm
      exact ⟨sibling, rfl, others, rfl, rfl, by rw [reached, steps, List.length_cons]⟩

/-- What membership amounts to: the digests of the proof climb from the leaf to the pinned root. -/
theorem validateMembership_eq_ok :
    authorization.validateMembership crypto policy = .ok done ↔
      authorization.schemaVersion = consensusIdentityAuthorizationVersion ∧ policy.validate crypto = .ok () ∧
        authorization.leaf.validate crypto = .ok () ∧ policy.commitmentHash crypto = .ok authorization.policyHash ∧
        authorization.proof.leafIndex < policy.authorizedIdentityCount ∧
        ∃ leafHash siblings, authorization.leaf.leafHash crypto = .ok leafHash ∧
          authorization.proof.siblings = siblings.map hashHex ∧
          siblings.length = Nat.size (policy.authorizedIdentityCount.toNat - 1) ∧
          policy.authorizationRoot = hashHex
            (MerkleTree.climb (merkleParent crypto) authorization.proof.leafIndex.toNat leafHash siblings) := by
  simp only [ConsensusIdentityAuthorizationV1.validateMembership, except_bind_eq_ok, require_eq_ok, exists_const,
    Prod.exists, mapError_eq_ok, climbSiblings_eq_ok, requiredMerkleProofDepth_eq_ok, decodeHash_eq_ok]
  constructor
  · rintro ⟨version, _, valid, _, leafValid, expected, committed, _, _, rfl, ⟨_, _, inside⟩, depth, ⟨_, rfl⟩, size,
      leafHash, hashed, hash, last, ⟨siblings, spelled, rfl, _⟩, root, rootText, _, rfl⟩
    rw [spelled, List.length_map] at size
    exact ⟨version, valid, leafValid, committed, inside, leafHash, siblings, hashed, spelled, size, rootText⟩
  · rintro ⟨version, valid, leafValid, committed, inside, leafHash, siblings, hashed, spelled, size, rootText⟩
    obtain ⟨positive, shallow, enough⟩ := policyLimits valid
    have count : authorization.proof.siblings.length = siblings.length := by rw [spelled, List.length_map]
    have hex : validateHex crypto "policy_hash" authorization.policyHash 32 false = .ok () := by
      simp only [ConsensusIdentityPolicyV1.commitmentHash, except_bind_eq_ok] at committed
      obtain ⟨digest, _, made⟩ := committed
      exact validateHex_eq_ok.mpr ⟨digest.bytes, (Except.ok.inj made).symm, digest.size⟩
    -- The index stays below the count, so it is used up after all the levels.
    have reached : authorization.proof.leafIndex.toNat / 2 ^ siblings.length = 0 := by
      have bound := Nat.lt_size_self (policy.authorizedIdentityCount.toNat - 1)
      have below := BitVec.lt_def.mp inside
      rw [size]
      exact Nat.div_eq_of_lt (by omega)
    exact ⟨version, (), valid, (), leafValid, _, committed, (), hex, rfl, ⟨by omega, by omega, inside⟩, _,
      ⟨positive, rfl⟩, count.trans size, leafHash, hashed, _, 0, ⟨siblings, spelled, rfl, reached.symm⟩, _, rootText,
      rfl, rfl⟩

/-- An authorization is read from exactly the script it is written as. -/
theorem opReturnScript_of_payloadParts {policyHash : Digest} {leaf : List UInt8} {siblings : List Digest}
    {signature : List UInt8} (parts : PayloadParts crypto authorization policyHash leaf siblings signature) :
    ∃ script, appendMinimalPush [0x6a] (PayloadParts.bytes authorization policyHash leaf siblings signature) =
      .ok script ∧
      authorization.opReturnScriptPubkeyHex crypto = .ok (hexEncode script) := by
  have size := parts.length_bytes
  have depth := parts.depth
  have fits : (PayloadParts.bytes authorization policyHash leaf siblings signature).length ≤ 65535 := by
    unfold maxConsensusIdentityProofDepth at depth
    simp only [fixedByteLength, leafByteLength] at size
    omega
  have pushed : ∃ script,
      appendMinimalPush [0x6a] (PayloadParts.bytes authorization policyHash leaf siblings signature) = .ok script := by
    unfold appendMinimalPush
    split_ifs
    all_goals exact ⟨_, rfl⟩
  obtain ⟨script, pushed⟩ := pushed
  refine ⟨script, pushed, ?_⟩
  rw [ConsensusIdentityAuthorizationV1.opReturnScriptPubkeyHex, parts.payloadBytes_eq, except_ok_bind, pushed]
  rfl

/-- A member with a well-formed signature has a payload. -/
theorem payloadParts_of_member (member : authorization.validateMembership crypto policy = .ok ())
    (signed : validateHex crypto "block_signature_hex" authorization.blockSignatureHex 64 false = .ok ()) :
    ∃ policyHash leaf siblings signature, PayloadParts crypto authorization policyHash leaf siblings signature := by
  obtain ⟨_, valid, leafValid, committed, _, _, siblings, _, spelled, size, _⟩ := validateMembership_eq_ok.mp member
  obtain ⟨_, shallow, enough⟩ := policyLimits valid
  obtain ⟨signature, signatureText⟩ := validateHex_eq_ok.mp signed
  obtain ⟨address, code, key, commitment, leafParts⟩ := validate_eq_ok_iff_parts.mp leafValid
  simp only [ConsensusIdentityPolicyV1.commitmentHash, except_bind_eq_ok] at committed
  obtain ⟨policyHash, _, made⟩ := committed
  exact ⟨policyHash, LeafParts.bytes authorization.leaf address code key commitment, siblings, signature,
    (Except.ok.inj made).symm, decodeLeaf_eq_ok.mpr ⟨address, code, key, commitment, leafParts, rfl⟩, spelled,
    by omega, signatureText⟩

/-- What a script reads as, and how it was written. -/
theorem fromOpReturnScript_eq_ok {scriptHex : Text} :
    ConsensusIdentityAuthorizationV1.fromOpReturnScript crypto scriptHex = .ok authorization ↔
      ∃ script policyHash leaf siblings signature, hexDecode? scriptHex = some script ∧
        PayloadParts crypto authorization policyHash leaf siblings signature ∧
        appendMinimalPush [0x6a] (PayloadParts.bytes authorization policyHash leaf siblings signature) =
          .ok script := by
  simp only [ConsensusIdentityAuthorizationV1.fromOpReturnScript, except_bind_eq_ok, okOr_eq_ok, fromPayloadBytes_eq_ok]
  constructor
  · rintro ⟨script, decoded, payload, parsed, policyHash, leaf, siblings, signature, parts, rfl⟩
    exact ⟨script, policyHash, leaf, siblings, signature, decoded, parts, appendMinimalPush_of_parse parsed⟩
  · rintro ⟨script, policyHash, leaf, siblings, signature, decoded, parts, pushed⟩
    exact ⟨script, decoded, _, parse_of_appendMinimalPush pushed, policyHash, leaf, siblings, signature, parts, rfl⟩

end Encoding

/-! ## A sample tree of three identities -/

namespace AuthorizedTrio

def firstKey : Text := "79be667ef9dcbbac55a06295ce870b07029bfcdb2dce28d959f2815b16f81798".toList

def secondKey : Text := "c6047f9441ed7d6d3045406e95c07cd85c778e4b8cef3ca7abac09b95c709ee5".toList

def thirdKey : Text := "f9308a019258c31049344f85f89d5229b531c845836f99b08601f113bce036f9".toList

def leafOf (number : ℕ) (state : IdenaStatus) (key : Text) : ConsensusIdentityLeafV1 :=
  { idenaAddress := '0' :: 'x' :: hexEncode (List.replicate 20 (UInt8.ofNat (0x11 * (number + 1))))
    identityState := state
    miningPubkeyXonly := key
    registryCommitment := hexEncode (List.replicate 32 (UInt8.ofNat (0xa0 + number)))
    registrationSequence := BitVec.ofNat 32 (number + 1)
    registrationBlock := BitVec.ofNat 64 (100 + number)
    registrationEpoch := 40 }

def trio : List ConsensusIdentityLeafV1 :=
  [leafOf 0 .newbie firstKey, leafOf 1 .verified secondKey, leafOf 2 .human thirdKey]

def leafHashes : List Digest :=
  [Digest.ofHex "96669250a25328bb08a924f1da578bcfb17f2e1e5f09283f7879a5e8fb5dc7e3".toList,
    Digest.ofHex "425b88d008e0235d306d3eebefc6e5cdc27cd426d6ce411c0d7d9b2272e432df".toList,
    Digest.ofHex "d1f8c427b0200c9a72ec2b190e8fa7b74f0256aba9696436734a963ba83adce7".toList]

def leafHash (index : ℕ) : Digest := leafHashes.getD index Digest.zero

def leftNode : Digest := Digest.ofHex "b37a4e13ec3af2e9480106a00257128d7c010bf4ddd6ffc58040c78d00e47fcc".toList

def rightNode : Digest := Digest.ofHex "1b3a604c64eb3eb06f436343f258a98fb71e73059be479c958c16ada41179bae".toList

def root : Digest := Digest.ofHex "fe7681fc3658edfc2aaff83c1feabf27844825f9f4af87161f1ba8eeaeafe263".toList

def policyDigest : Digest := Digest.ofHex "1489b0d27b425163a92918a81a5a2619ff516e9f8b26ffd5221174ace91d5270".toList

def unhashed : IdentityCrypto :=
  { Crypto.ofTables { publicKeys := [firstKey, secondKey, thirdKey] } with sha256 := fun _ => policyDigest }

/-- The recorded hashes of the leaves and nodes; the policy is the only other input that is hashed. -/
def hashes : List (List UInt8 × Digest) :=
  (trio.map fun leaf => taggedInput leafTag ((leaf.canonicalBytes unhashed).toOption.getD [])).zip leafHashes ++
    [(parentInput (leafHash 0) (leafHash 1), leftNode), (parentInput (leafHash 2) (leafHash 2), rightNode),
      (parentInput leftNode rightNode, root)]

def library : IdentityCrypto := { unhashed with sha256 := fun input => (hashes.lookup input).getD policyDigest }

def policy : ConsensusIdentityPolicyV1 :=
  { schemaVersion := 1
    experimentId := "experiment-2".toList
    bitcoinNetwork := "main".toList
    bitcoinForkActivationId := hexEncode (List.replicate 32 0x21)
    shareWorkActivationId := hexEncode (List.replicate 32 0x22)
    registryContractAddress := '0' :: 'x' :: hexEncode (List.replicate 20 0x23)
    idenaFinalizedHeight := 9000
    idenaFinalizedTimestamp := 1700000000
    idenaFinalizedBlockHash := '0' :: 'x' :: hexEncode (List.replicate 32 0x24)
    idenaNextValidationTimestamp := 1701000000
    authorizationRoot := hashHex root
    authorizedIdentityCount := 3
    bitcoinActivationHeight := 850000
    bitcoinExpiryHeight := 860000
    bitcoinExpiryMtp := 1700900000
    maxProofDepth := 2
    requireShareWorkCommitment := true }

/-- The last identity: its first sibling is itself. -/
def authorization : ConsensusIdentityAuthorizationV1 :=
  { schemaVersion := 1
    policyHash := hashHex policyDigest
    leaf := leafOf 2 .human thirdKey
    proof := { leafIndex := 2, siblings := [hashHex (leafHash 2), hashHex leftNode] }
    blockSignatureHex := hexEncode (List.replicate 64 0) }

theorem policy_valid : policy.validate library = .ok () := by decide

theorem authorization_member : authorization.validateMembership library policy = .ok () := by decide +kernel

end AuthorizedTrio

open ConsensusIdentityAuthorizationV1 in
/-- Members with a well-formed signature are written as a script that reads back, every accepted script is
written back byte for byte, and no authorization is read from two different scripts. -/
theorem authorization_encoding_bijective (crypto : IdentityCrypto) :
    (∀ authorization policy, policy.validate crypto = .ok () →
      authorization.validateMembership crypto policy = .ok () →
      validateHex crypto "block_signature_hex" authorization.blockSignatureHex 64 false = .ok () →
      ∃ script, authorization.opReturnScriptPubkeyHex crypto = .ok script ∧
        fromOpReturnScript crypto script = .ok authorization) ∧
    (∀ script authorization, fromOpReturnScript crypto script = .ok authorization →
      ∃ encoded, authorization.opReturnScriptPubkeyHex crypto = .ok encoded ∧ hexDecode? encoded = hexDecode? script) ∧
    (∀ script other authorization, fromOpReturnScript crypto script = .ok authorization →
      fromOpReturnScript crypto other = .ok authorization → hexDecode? script = hexDecode? other) := by
  have rewrites : ∀ script authorization, fromOpReturnScript crypto script = .ok authorization →
      ∃ encoded, authorization.opReturnScriptPubkeyHex crypto = .ok encoded ∧
        hexDecode? encoded = hexDecode? script := by
    intro script authorization read
    obtain ⟨bytes, policyHash, leaf, siblings, signature, decoded, parts, pushed⟩ := fromOpReturnScript_eq_ok.mp read
    obtain ⟨again, repushed, encoded⟩ := opReturnScript_of_payloadParts parts
    obtain rfl : again = bytes := Except.ok.inj (repushed.symm.trans pushed)
    exact ⟨hexEncode again, encoded, (hexDecode?_hexEncode again).trans decoded.symm⟩
  refine ⟨?_, rewrites, ?_⟩
  · intro authorization policy _ member signed
    obtain ⟨policyHash, leaf, siblings, signature, parts⟩ := payloadParts_of_member member signed
    obtain ⟨script, pushed, encoded⟩ := opReturnScript_of_payloadParts parts
    exact ⟨hexEncode script, encoded, fromOpReturnScript_eq_ok.mpr
      ⟨script, policyHash, leaf, siblings, signature, hexDecode?_hexEncode script, parts, pushed⟩⟩
  · intro script other authorization read otherRead
    obtain ⟨encoded, written, same⟩ := rewrites script authorization read
    obtain ⟨otherEncoded, otherWritten, otherSame⟩ := rewrites other authorization otherRead
    obtain rfl : encoded = otherEncoded := Except.ok.inj (written.symm.trans otherWritten)
    exact same.symm.trans otherSame

theorem authorization_encoding_bijective_trio :
    ∃ script, AuthorizedTrio.authorization.opReturnScriptPubkeyHex AuthorizedTrio.library = .ok script ∧
      ConsensusIdentityAuthorizationV1.fromOpReturnScript AuthorizedTrio.library script =
        .ok AuthorizedTrio.authorization :=
  (authorization_encoding_bijective AuthorizedTrio.library).1 AuthorizedTrio.authorization AuthorizedTrio.policy
    AuthorizedTrio.policy_valid AuthorizedTrio.authorization_member (by decide +kernel)

end P2PoolBTC.Soundness
