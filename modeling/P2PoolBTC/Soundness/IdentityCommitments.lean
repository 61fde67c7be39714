import P2PoolBTC.Soundness.AuthorizationEncoding

/-! # What identity commitments bind

The policy hash and the hash of the coinbase outputs are taken of concatenated fields. Every field has a
fixed width or carries its length, so equal inputs have equal fields. What is left open is decided by the
checks around the hashes: which identifiers a policy may have and which outputs are left out.
-/

namespace P2PoolBTC.Soundness

open Math Model.Core

variable {crypto : IdentityCrypto}

/-! ## Concatenated fields -/

private theorem utf8Bytes_injective : Function.Injective utf8Bytes := by
  intro left right same
  apply String.ofList_injective
  rw [← String.toByteArray_inj, String.toByteArray_ofList, String.toByteArray_ofList]
  exact congrArg List.toByteArray same

theorem length_utf8Bytes (text : Text) : (utf8Bytes text).length = byteLength text := by
  simp only [utf8Bytes, byteLength, List.length_flatMap, String.length_utf8EncodeChar]

variable {count : ℕ} {tail other : List UInt8}

/-- A number of a fixed width can be read off in front of anything. -/
theorem leBytes_append_inj {first second : ℕ} (fits : first < 256 ^ count) (otherFits : second < 256 ^ count)
    (same : leBytes count first ++ tail = leBytes count second ++ other) : first = second ∧ tail = other := by
  obtain ⟨words, tails⟩ := List.append_inj same (by rw [length_leBytes, length_leBytes])
  have values := congrArg littleEndian words
  rw [littleEndian_leBytes fits, littleEndian_leBytes otherFits] at values
  exact ⟨values, tails⟩

/-- So can bytes that come after their length. -/
theorem lengthPrefixed_append_inj {first second : List UInt8} (fits : first.length < 256 ^ count)
    (otherFits : second.length < 256 ^ count)
    (same : leBytes count first.length ++ (first ++ tail) = leBytes count second.length ++ (second ++ other)) :
    first = second ∧ tail = other := by
  obtain ⟨lengths, rest⟩ := leBytes_append_inj fits otherFits same
  exact List.append_inj rest lengths

theorem word_append_inj {width : ℕ} {first second : BitVec width} (wide : 256 ^ count = 2 ^ width)
    (same : leBytes count first.toNat ++ tail = leBytes count second.toNat ++ other) :
    first = second ∧ tail = other := by
  obtain ⟨values, tails⟩ := leBytes_append_inj (wide ▸ first.isLt) (wide ▸ second.isLt) same
  exact ⟨BitVec.eq_of_toNat_eq values, tails⟩

/-- Encodings that can be read off in front of anything can be read off one after the other. -/
theorem flatMap_inj {α : Type} {encode : α → List UInt8} {first second : List α}
    (readable : ∀ left ∈ first, ∀ right ∈ second, ∀ tail other,
      encode left ++ tail = encode right ++ other → left = right ∧ tail = other)
    (sizes : first.length = second.length) (same : first.flatMap encode = second.flatMap encode) : first = second := by
  induction first generalizing second with
  | nil => exact (List.length_eq_zero_iff.mp sizes.symm).symm
  | cons entry rest ih =>
    cases second with
    | nil => cases sizes
    | cons next others =>
      rw [List.flatMap_cons, List.flatMap_cons] at same
      obtain ⟨rfl, tails⟩ := readable entry List.mem_cons_self next List.mem_cons_self _ _ same
      rw [ih (fun left member right otherMember =>
        readable left (List.mem_cons_of_mem _ member) right (List.mem_cons_of_mem _ otherMember)) (Nat.succ.inj sizes)
        tails]

/-! ## Policies -/

/-- The bytes a hexadecimal field spells. -/
def hexBytes (prefixed : Bool) (value : Text) : List UInt8 :=
  (hexDecode? (value.drop (hexPrefix prefixed).length)).getD []

variable {field : String} {value : Text} {prefixed : Bool} {done : Unit}

theorem validateHex_text (valid : validateHex crypto field value count prefixed = .ok done) :
    value = hexPrefix prefixed ++ hexEncode (hexBytes prefixed value) ∧ (hexBytes prefixed value).length = count := by
  obtain ⟨bytes, rfl, size⟩ := validateHex_eq_ok.mp valid
  have read : hexBytes prefixed (hexPrefix prefixed ++ hexEncode bytes) = bytes := by
    rw [hexBytes, List.drop_left, hexDecode?_hexEncode, Option.getD_some]
  rw [read]
  exact ⟨rfl, size⟩

private theorem validateHex_lowercase (valid : validateHex crypto field value count prefixed = .ok done) :
    toAsciiLowercase value = value := by
  obtain ⟨bytes, rfl, -⟩ := validateHex_eq_ok.mp valid
  have digits : toAsciiLowercase (hexEncode bytes) = hexEncode bytes := hexEncode_lowercase bytes
  have start : toAsciiLowercase (hexPrefix prefixed) = hexPrefix prefixed := by cases prefixed <;> decide
  rw [toAsciiLowercase, List.map_append]
  exact congrArg₂ _ start digits

private theorem hexBytes_append_inj {other : Text} (valid : validateHex crypto field value count prefixed = .ok done)
    (otherValid : validateHex crypto field other count prefixed = .ok done) {rest : List UInt8}
    (same : hexBytes prefixed value ++ tail = hexBytes prefixed other ++ rest) : value = other ∧ tail = rest := by
  obtain ⟨text, size⟩ := validateHex_text valid
  obtain ⟨otherText, otherSize⟩ := validateHex_text otherValid
  obtain ⟨bytes, tails⟩ := List.append_inj same (size.trans otherSize.symm)
  rw [text, otherText, bytes]
  exact ⟨rfl, tails⟩

/-- What the policy hash is taken of. -/
def policyInput (policy : ConsensusIdentityPolicyV1) : List UInt8 :=
  taggedInput policyTag (leBytes 2 policy.schemaVersion.toNat ++
    leBytes 1 (byteLength policy.experimentId) ++ utf8Bytes policy.experimentId ++
    leBytes 1 (byteLength policy.bitcoinNetwork) ++ utf8Bytes policy.bitcoinNetwork ++
    hexBytes false policy.bitcoinForkActivationId ++ hexBytes false policy.shareWorkActivationId ++
    hexBytes true policy.registryContractAddress ++ leBytes 8 policy.idenaFinalizedHeight.toNat ++
    leBytes 8 policy.idenaFinalizedTimestamp.toNat ++ hexBytes true policy.idenaFinalizedBlockHash ++
    leBytes 8 policy.idenaNextValidationTimestamp.toNat ++ hexBytes false policy.authorizationRoot ++
    leBytes 4 policy.authorizedIdentityCount.toNat ++ leBytes 8 policy.bitcoinActivationHeight.toNat ++
    leBytes 8 policy.bitcoinExpiryHeight.toNat ++ leBytes 8 policy.bitcoinExpiryMtp.toNat ++
    [policy.maxProofDepth, if policy.requireShareWorkCommitment then 1 else 0])

/-- The checks of a policy that its encoding depends on. -/
structure EncodablePolicy (crypto : IdentityCrypto) (policy : ConsensusIdentityPolicyV1) : Prop where
  experiment : validateExperimentId policy.experimentId = .ok ()
  network : validateAsciiIdentifier "bitcoin_network" policy.bitcoinNetwork maxNetworkIdBytes = .ok ()
  fork : validateHex crypto "bitcoin_fork_activation_id" policy.bitcoinForkActivationId 32 false = .ok ()
  shareWork : validateHex crypto "share_work_activation_id" policy.shareWorkActivationId 32 false = .ok ()
  contract : validateHex crypto "registry_contract_address" policy.registryContractAddress 20 true = .ok ()
  block : validateHex crypto "idena_finalized_block_hash" policy.idenaFinalizedBlockHash 32 true = .ok ()
  root : validateHex crypto "authorization_root" policy.authorizationRoot 32 false = .ok ()
  required : policy.requireShareWorkCommitment = true

private theorem encodablePolicy_of_validate {policy : ConsensusIdentityPolicyV1}
    (valid : policy.validate crypto = .ok ()) :
    EncodablePolicy crypto policy := by
  simp only [ConsensusIdentityPolicyV1.validate, except_bind_eq_ok, require_eq_ok, Unique.exists_iff,
    mapError_eq_ok] at valid
  obtain ⟨-, experiment, network, fork, shareWork, contract, -, -, block, root, -, -, -, -, -, depth, -, -,
    required⟩ := valid
  exact ⟨experiment, network, fork, shareWork, contract, block, root, required⟩

namespace EncodablePolicy

variable {policy other : ConsensusIdentityPolicyV1}

section

variable (encodable : EncodablePolicy crypto policy)
include encodable

private theorem normalized_eq : policy.normalized = policy := by
  have network : toAsciiLowercase policy.bitcoinNetwork = policy.bitcoinNetwork := by
    refine (List.map_congr_left ?_).trans (List.map_id _)
    intro char member
    have allowed := List.all_eq_true.mp (require_eq_ok.mp encodable.network).2.2 char member
    exact toLower_relates (R := fun char lower => isIdentifierChar char = true → lower = char) (fun _ _ _ => rfl)
      (by decide) char allowed
  have experiment := (require_eq_ok.mp encodable.experiment).2.2.1.symm
  rw [ConsensusIdentityPolicyV1.normalized, experiment, network, validateHex_lowercase encodable.fork,
    validateHex_lowercase encodable.shareWork, validateHex_lowercase encodable.contract,
    validateHex_lowercase encodable.block, validateHex_lowercase encodable.root]

/-- The identifiers of a policy may have a colon and those of the encoding may not. -/
theorem experiment_identifier (field : String) :
    validateAsciiIdentifier field policy.experimentId maxExperimentIdBytes = .ok () ↔ ':' ∉ policy.experimentId := by
  obtain ⟨filled, short, -, allowed⟩ := require_eq_ok.mp encodable.experiment
  rw [List.all_eq_true] at allowed
  rw [validateAsciiIdentifier, require_eq_ok, List.all_eq_true]
  constructor
  · rintro ⟨-, -, letters⟩ member
    exact absurd (letters ':' member) (by decide)
  · intro absent
    refine ⟨filled, short, fun char member => ?_⟩
    have known := allowed char member
    have other : char ≠ ':' := fun colon => absent (colon ▸ member)
    simp only [isExperimentIdChar, isIdentifierChar, List.contains_cons, List.contains_nil, Bool.or_eq_true,
      beq_iff_eq, Bool.or_false] at known ⊢
    tauto

private theorem commitmentHash_eq_ok (valid : policy.validate crypto = .ok ())
    {text : Text} : policy.commitmentHash crypto = .ok text ↔
      ':' ∉ policy.experimentId ∧ hashHex (crypto.sha256 (policyInput policy)) = text := by
  have network : validateAsciiIdentifier "identifier" policy.bitcoinNetwork maxNetworkIdBytes = .ok () :=
    require_eq_ok.mpr (require_eq_ok.mp encodable.network)
  have field {name : String} {value : Text} {count : ℕ} {prefixed : Bool}
      (known : validateHex crypto name value count prefixed = .ok ()) :
      decodeHexExact crypto name value count prefixed = .ok (hexBytes prefixed value) :=
    decodeHexExact_eq_ok.mpr (validateHex_text known)
  simp only [ConsensusIdentityPolicyV1.commitmentHash, ConsensusIdentityPolicyV1.commitmentHashBytes,
    appendBoundedAscii, encodable.normalized_eq, valid, network, field encodable.fork, field encodable.shareWork,
    field encodable.contract, field encodable.block, field encodable.root, except_ok_bind, except_bind_eq_ok,
    Unique.exists_iff, encodable.experiment_identifier, pure, Except.pure, Except.ok.injEq, exists_eq_left',
    and_assoc, exists_and_left, policyInput, sha256Tagged, List.append_assoc, leBytes, List.cons_append,
    List.nil_append]

/-- Equal inputs come from equal policies: the fields are read off one after the other. -/
theorem eq_of_policyInput (otherEncodable : EncodablePolicy crypto other)
    (same : policyInput policy = policyInput other) : policy = other := by
  have short {max : ℕ} {value : Text} (fits : byteLength value ≤ max) (small : max < 256) :
      (utf8Bytes value).length < 256 ^ 1 := by
    rw [length_utf8Bytes]
    omega
  have experiment := short (require_eq_ok.mp encodable.experiment).2.1 (by decide)
  have otherExperiment := short (require_eq_ok.mp otherEncodable.experiment).2.1 (by decide)
  have network := short (require_eq_ok.mp encodable.network).2.1 (by decide)
  have otherNetwork := short (require_eq_ok.mp otherEncodable.network).2.1 (by decide)
  simp only [policyInput, taggedInput, List.append_assoc, List.append_cancel_left_eq, List.cons.injEq, true_and,
    ← length_utf8Bytes] at same
  obtain ⟨version, same⟩ := word_append_inj (by norm_num) same
  obtain ⟨experimentId, same⟩ := lengthPrefixed_append_inj experiment otherExperiment same
  obtain ⟨networkId, same⟩ := lengthPrefixed_append_inj network otherNetwork same
  obtain ⟨fork, same⟩ := hexBytes_append_inj encodable.fork otherEncodable.fork same
  obtain ⟨shareWork, same⟩ := hexBytes_append_inj encodable.shareWork otherEncodable.shareWork same
  obtain ⟨contract, same⟩ := hexBytes_append_inj encodable.contract otherEncodable.contract same
  obtain ⟨height, same⟩ := word_append_inj (by norm_num) same
  obtain ⟨timestamp, same⟩ := word_append_inj (by norm_num) same
  obtain ⟨block, same⟩ := hexBytes_append_inj encodable.block otherEncodable.block same
  obtain ⟨validation, same⟩ := word_append_inj (by norm_num) same
  obtain ⟨root, same⟩ := hexBytes_append_inj encodable.root otherEncodable.root same
  obtain ⟨count, same⟩ := word_append_inj (by norm_num) same
  obtain ⟨activation, same⟩ := word_append_inj (by norm_num) same
  obtain ⟨expiry, same⟩ := word_append_inj (by norm_num) same
  obtain ⟨expiryMtp, same⟩ := word_append_inj (by norm_num) same
  have depth := (List.cons.inj same).1
  have required := encodable.required.trans otherEncodable.required.symm
  cases policy
  cases other
  simp only [ConsensusIdentityPolicyV1.mk.injEq]
  exact ⟨version, utf8Bytes_injective experimentId, utf8Bytes_injective networkId, fork, shareWork, contract, height,
    timestamp, block, validation, root, count, activation, expiry, expiryMtp, depth, required⟩

end

end EncodablePolicy

/-- A valid policy has a hash that no other valid policy has, unless its experiment has a colon. -/
theorem policy_commitment_binds_iff (crypto : IdentityCrypto) (policy : ConsensusIdentityPolicyV1)
    (valid : policy.validate crypto = .ok ()) :
    ((∃ hash, policy.commitmentHash crypto = .ok hash) ∧
      ∀ other hash, other.validate crypto = .ok () → Set.InjOn crypto.sha256 {policyInput policy, policyInput other} →
        policy.commitmentHash crypto = .ok hash → other.commitmentHash crypto = .ok hash →
        policy.normalized = other.normalized) ↔ ':' ∉ policy.experimentId := by
  have encodable := encodablePolicy_of_validate valid
  constructor
  · rintro ⟨⟨hash, hashed⟩, -⟩
    exact ((encodable.commitmentHash_eq_ok valid).mp hashed).1
  · intro plain
    refine ⟨⟨_, (encodable.commitmentHash_eq_ok valid).mpr ⟨plain, rfl⟩⟩, ?_⟩
    intro other hash otherValid injective hashed otherHashed
    have otherEncodable := encodablePolicy_of_validate otherValid
    have digest := ((encodable.commitmentHash_eq_ok valid).mp hashed).2
    have otherDigest := ((otherEncodable.commitmentHash_eq_ok otherValid).mp otherHashed).2
    have inputs := injective (by simp) (by simp) (hashHex_injective (digest.trans otherDigest.symm))
    rw [encodable.eq_of_policyInput otherEncodable inputs]

theorem policy_commitment_binds_iff_trio :
    AuthorizedTrio.policy.validate AuthorizedTrio.library = .ok () ∧
      ∃ hash, AuthorizedTrio.policy.commitmentHash AuthorizedTrio.library = .ok hash :=
  ⟨AuthorizedTrio.policy_valid, ((policy_commitment_binds_iff AuthorizedTrio.library AuthorizedTrio.policy
    AuthorizedTrio.policy_valid).mpr (by decide)).1⟩

/-- With a colon the same policy is valid and has no hash. -/
theorem colon_policy_has_no_commitment :
    let policy := { AuthorizedTrio.policy with experimentId := "experiment:2".toList }
    policy.validate AuthorizedTrio.library = .ok () ∧ policy.commitmentHash AuthorizedTrio.library =
      .error (.invalidField "identifier" "must be bounded canonical lowercase ASCII") := by
  decide

/-! ## Coinbase outputs -/

/-- The outputs that are counted as authorizations. -/
def isAuthorizationOutput (output : CoinbaseOutput) : Bool := output.1 == 0 && isConsensusIdentityScript output.2

/-- No output with an identity script carries a value. -/
def UnvaluedIdentities (outputs : List CoinbaseOutput) : Prop :=
  ∀ output ∈ outputs, isConsensusIdentityScript output.2 = true → output.1 = 0

variable {first second : List CoinbaseOutput}

private theorem outputs_flatMap_inj (sizes : first.length = second.length)
    (fits : ∀ output ∈ first, output.2.length < 2 ^ 32) (otherFits : ∀ output ∈ second, output.2.length < 2 ^ 32)
    (same : first.flatMap outputBytes = second.flatMap outputBytes) : first = second := by
  refine flatMap_inj ?_ sizes same
  intro left member right otherMember tail other same
  simp only [outputBytes, List.append_assoc] at same
  obtain ⟨value, same⟩ := word_append_inj (by norm_num) same
  obtain ⟨script, rest⟩ := lengthPrefixed_append_inj (by simpa using fits left member)
    (by simpa using otherFits right otherMember) same
  exact ⟨Prod.ext value script, rest⟩

/-- Outputs with one hash agree wherever the hash covers them. -/
theorem hashedOutputs_eq {hash : Digest} (injective : Set.InjOn crypto.sha256 {outputsInput first, outputsInput second})
    (hashed : coinbaseOutputsHash crypto first = .ok hash)
    (otherHashed : coinbaseOutputsHash crypto second = .ok hash) : hashedOutputs first = hashedOutputs second := by
  simp only [coinbaseOutputsHash, except_bind_eq_ok, require_eq_ok, exists_const, pure, Except.pure,
    Except.ok.injEq] at hashed otherHashed
  obtain ⟨few, fits, rfl⟩ := hashed
  obtain ⟨otherFew, otherFits, digest⟩ := otherHashed
  have inputs := injective (by simp) (by simp) digest
  simp only [outputsInput, taggedInput, List.append_cancel_left_eq, List.cons.injEq, true_and] at inputs
  obtain ⟨sizes, same⟩ := leBytes_append_inj (by simpa using otherFew) (by simpa using few) inputs
  exact (outputs_flatMap_inj sizes otherFits fits same).symm

theorem coinbaseOutputsHash_congr (same : hashedOutputs first = hashedOutputs second) :
    coinbaseOutputsHash crypto first = coinbaseOutputsHash crypto second := by
  simp only [coinbaseOutputsHash, outputsInput, same]

private theorem countMagicOutputs_eq_countP (outputs : List CoinbaseOutput) :
    countMagicOutputs outputs consensusIdentityMagic = outputs.countP isAuthorizationOutput :=
  List.countP_eq_length_filter.symm

/-- Where one output is counted and no other has an identity script, the hash covers what is left without it. -/
theorem eraseP_eq_hashedOutputs {outputs : List CoinbaseOutput} (unvalued : UnvaluedIdentities outputs)
    (one : outputs.countP isAuthorizationOutput = 1) :
    outputs.eraseP isAuthorizationOutput = hashedOutputs outputs := by
  induction outputs with
  | nil => cases one
  | cons output rest ih =>
    rw [UnvaluedIdentities, List.forall_mem_cons] at unvalued
    cases script : isConsensusIdentityScript output.2 with
    | false =>
      have kept : ¬ isAuthorizationOutput output = true := by simp [isAuthorizationOutput, script]
      rw [List.countP_cons_of_neg kept] at one
      rw [List.eraseP_cons_of_neg kept, ih unvalued.2 one, hashedOutputs, hashedOutputs,
        List.filter_cons_of_pos (by simp [script])]
    | true =>
      have counted : isAuthorizationOutput output = true := by simp [isAuthorizationOutput, script, unvalued.1 script]
      have none : rest.countP isAuthorizationOutput = 0 := by
        rw [List.countP_cons_of_pos counted] at one
        omega
      rw [List.eraseP_cons_of_pos counted, hashedOutputs, List.filter_cons_of_neg (by simp [script])]
      refine (List.filter_eq_self.mpr ?_).symm
      intro other member
      rw [Bool.not_eq_true']
      by_contra identity
      rw [Bool.not_eq_false] at identity
      refine List.countP_eq_zero.mp none other member ?_
      simp [isAuthorizationOutput, identity, unvalued.2 other member identity]

/-- Leaving out the identity scripts with a value keeps the count and the hash. -/
theorem exists_unvalued (outputs : List CoinbaseOutput) : ∃ other : List CoinbaseOutput,
    UnvaluedIdentities other ∧ hashedOutputs other = hashedOutputs outputs ∧
      other.countP isAuthorizationOutput = outputs.countP isAuthorizationOutput := by
  refine ⟨outputs.filter fun output => output.1 == 0 || !isConsensusIdentityScript output.2, ?_, ?_, ?_⟩
  · intro output member identity
    simpa [identity] using (List.mem_filter.mp member).2
  · rw [hashedOutputs, List.filter_filter, hashedOutputs]
    exact List.filter_congr fun output _ => by cases isConsensusIdentityScript output.2 <;> simp
  · rw [List.countP_filter]
    exact List.countP_congr fun output _ => by simp +contextual [isAuthorizationOutput]

/-- Another value on an identity script that is not counted before or after keeps the count and the hash. -/
theorem revalued_identity {before after : List CoinbaseOutput} {script : List UInt8} {value changed : U64}
    (identity : isConsensusIdentityScript script = true) :
    hashedOutputs (before ++ (changed, script) :: after) = hashedOutputs (before ++ (value, script) :: after) ∧
      ((before ++ (changed, script) :: after).countP isAuthorizationOutput =
        (before ++ (value, script) :: after).countP isAuthorizationOutput ↔ (changed = 0 ↔ value = 0)) := by
  constructor
  · simp only [hashedOutputs, List.filter_append, List.filter_cons, identity, Bool.not_true,
      Bool.false_eq_true, if_false]
  · simp only [List.countP_append, List.countP_cons, isAuthorizationOutput, identity, Bool.and_true, beq_iff_eq]
    by_cases zero : changed = 0 <;> by_cases otherZero : value = 0 <;>
      simp only [zero, otherZero, if_true, if_false, iff_true, iff_false, iff_self, not_true_eq_false] <;> omega

/-- The hash of outputs binds all but the counted one, and every value, exactly where no identity script
carries a value. -/
theorem outputs_hash_binds_iff (crypto : IdentityCrypto) (outputs : List CoinbaseOutput) (hash : Digest)
    (one : countMagicOutputs outputs consensusIdentityMagic = 1)
    (hashed : coinbaseOutputsHash crypto outputs = .ok hash) :
    ((∀ other, countMagicOutputs other consensusIdentityMagic = 1 → UnvaluedIdentities other →
        Set.InjOn crypto.sha256 {outputsInput outputs, outputsInput other} →
        coinbaseOutputsHash crypto other = .ok hash →
        outputs.eraseP isAuthorizationOutput = other.eraseP isAuthorizationOutput) ↔ UnvaluedIdentities outputs) ∧
    ((∀ before after script value changed, outputs = before ++ (value, script) :: after →
        countMagicOutputs (before ++ (changed, script) :: after) consensusIdentityMagic = 1 →
        Set.InjOn crypto.sha256 {outputsInput outputs, outputsInput (before ++ (changed, script) :: after)} →
        coinbaseOutputsHash crypto (before ++ (changed, script) :: after) = .ok hash → changed = value) ↔
      UnvaluedIdentities outputs) := by
  simp only [countMagicOutputs_eq_countP] at one ⊢
  have inputs {other : List CoinbaseOutput} (covered : hashedOutputs other = hashedOutputs outputs) :
      Set.InjOn crypto.sha256 {outputsInput outputs, outputsInput other} := by
    simp only [outputsInput, covered, Set.pair_eq_singleton, Set.injOn_singleton]
  refine ⟨⟨?_, ?_⟩, ?_, ?_⟩
  · intro binds output member identity
    by_contra valued
    obtain ⟨other, unvalued, covered, count⟩ := exists_unvalued outputs
    have same := binds other (count.trans one) unvalued (inputs covered)
      ((coinbaseOutputsHash_congr covered).trans hashed)
    -- The output is not counted, so it is left on one side and never was on the other.
    have kept : output ∈ outputs.eraseP isAuthorizationOutput :=
      (List.mem_eraseP_of_neg fun counted => valued (by simpa using (Bool.and_eq_true_iff.mp counted).1)).mpr member
    rw [same] at kept
    exact valued (unvalued output (List.mem_of_mem_eraseP kept) identity)
  · intro unvalued other otherOne otherUnvalued injective otherHashed
    rw [eraseP_eq_hashedOutputs unvalued one, eraseP_eq_hashedOutputs otherUnvalued otherOne]
    exact hashedOutputs_eq injective hashed otherHashed
  · rintro binds ⟨value, script⟩ member identity
    by_contra valued
    obtain ⟨before, after, rfl⟩ := List.append_of_mem member
    obtain ⟨changed, nonzero, different⟩ : ∃ changed : U64, changed ≠ 0 ∧ changed ≠ value := by
      by_cases unit : value = 1
      · exact ⟨2, by decide, by rw [unit]; decide⟩
      · exact ⟨1, by decide, Ne.symm unit⟩
    obtain ⟨covered, count⟩ := revalued_identity identity
    exact different (binds before after script value changed rfl ((count.mpr (by tauto)).trans one) (inputs covered)
      ((coinbaseOutputsHash_congr covered).trans hashed))
  · rintro unvalued before after script value changed rfl otherOne injective otherHashed
    cases identity : isConsensusIdentityScript script with
    | false =>
      have same := hashedOutputs_eq injective hashed otherHashed
      simp only [hashedOutputs, List.filter_append, List.append_cancel_left_eq] at same
      rw [List.filter_cons_of_pos (by simp [identity]), List.filter_cons_of_pos (by simp [identity])] at same
      exact (congrArg Prod.fst (List.cons.inj same).1).symm
    | true =>
      have zero : value = 0 := unvalued (value, script) (by simp) identity
      rw [zero, ((revalued_identity identity).2.mp (otherOne.trans one.symm)).mpr zero]

namespace OutputSample

/-- An identity output with so many satoshis. -/
def identityOutput (value : U64) : CoinbaseOutput := (value, 0x6a :: 5 :: consensusIdentityMagic)

/-- A payout pays so much next to the counted output. -/
def payout : CoinbaseOutput := (42, [0x51])

end OutputSample

open OutputSample in
/-- The place of the counted output does not matter. -/
theorem outputs_hash_binds_iff_payout :
    let crypto : IdentityCrypto := { AuthorizedTrio.library with
      sha256 := fun _ => Digest.ofHex "dab1271b39347ee304dcb70656906cb90b48c9eb67c350cf55225f885d40bb26".toList }
    coinbaseOutputsHash crypto [payout, identityOutput 0] = coinbaseOutputsHash crypto [identityOutput 0, payout] ∧
      [payout, identityOutput 0].eraseP isAuthorizationOutput =
        [identityOutput 0, payout].eraseP isAuthorizationOutput := by
  intro crypto
  have unvalued : UnvaluedIdentities [payout, identityOutput 0] := by unfold UnvaluedIdentities; decide
  refine ⟨by decide, (outputs_hash_binds_iff crypto [payout, identityOutput 0] (crypto.sha256 []) (by decide)
    (by decide)).1.mpr unvalued [identityOutput 0, payout] (by decide) ?_ ?_ (by decide)⟩
  · unfold UnvaluedIdentities; decide
  · have inputs : outputsInput [payout, identityOutput 0] = outputsInput [identityOutput 0, payout] := by decide
    rw [inputs, Set.pair_eq_singleton]
    exact Set.injOn_singleton _ _

open OutputSample in
/-- The satoshis on a second identity script are neither counted nor hashed. -/
theorem identity_value_unbound :
    countMagicOutputs [payout, identityOutput 0, identityOutput 1] consensusIdentityMagic = 1 ∧
      countMagicOutputs [payout, identityOutput 0, identityOutput 2] consensusIdentityMagic = 1 ∧
      coinbaseOutputsHash AuthorizedTrio.library [payout, identityOutput 0, identityOutput 1] =
        coinbaseOutputsHash AuthorizedTrio.library [payout, identityOutput 0, identityOutput 2] ∧
      [payout, identityOutput 0, identityOutput 1].eraseP isAuthorizationOutput ≠
        [payout, identityOutput 0, identityOutput 2].eraseP isAuthorizationOutput :=
  ⟨by decide, by decide, coinbaseOutputsHash_congr (by decide), by decide⟩

end P2PoolBTC.Soundness
