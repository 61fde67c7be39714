import P2PoolBTC.Math.CaseFolding
import P2PoolBTC.Soundness.OrderIndependence

/-! # Messages and their normal forms

A message is identified by the hash of its normal form, but it is checked as it came. Most checks do
not see the case of a letter. Those that do are the registry anchor and the marker of the ownership
signature of a registration, the work binding of a share, a payout schedule as a whole, and the
version of a commitment; a message whose texts there are not in normal form is treated differently
from its normal form.
-/

namespace P2PoolBTC.Soundness

open Math Std Model.Core SharechainReplayState

variable {crypto : Crypto} {state : SharechainReplayState} {schedule : PayoutSchedule}

/-! ## Checks that do not see case -/

section Fields

variable (field : String) (value : Text)

@[simp] theorem isMinerIdChar_toLower (char : Char) : isMinerIdChar char.toLower = isMinerIdChar char :=
  toLower_relates (R := fun char lower => isMinerIdChar lower = isMinerIdChar char) (fun _ _ => rfl) (by decide) char

private theorem toLower_beq_colon (char : Char) : (char.toLower == ':') = (char == ':') :=
  toLower_relates (R := fun char lower => (lower == ':') = (char == ':')) (fun _ _ => rfl) (by decide) char

@[simp] theorem isSnapshotIdChar_toLower (char : Char) : isSnapshotIdChar char.toLower = isSnapshotIdChar char :=
  toLower_relates (R := fun char lower => isSnapshotIdChar lower = isSnapshotIdChar char) (fun _ _ => rfl)
    (by decide) char

theorem all_toAsciiLowercase {check : Char → Bool} (folds : ∀ char, check char.toLower = check char) (text : Text) :
    (toAsciiLowercase text).all check = text.all check := by
  rw [toAsciiLowercase, List.all_map]
  exact congrArg text.all (funext folds)

@[simp] theorem validateMinerId_fold : validateMinerId field (toAsciiLowercase value) =
    validateMinerId field value := by
  simp only [validateMinerId, ne_eq, toAsciiLowercase_eq_nil, byteLength_toAsciiLowercase,
    all_toAsciiLowercase isMinerIdChar_toLower]

@[simp] theorem validateSnapshotId_fold : validateSnapshotId (toAsciiLowercase value) = validateSnapshotId value := by
  have folds : (toAsciiLowercase value).all (fun char => isMinerIdChar char || char == ':') =
      value.all fun char => isMinerIdChar char || char == ':' :=
    all_toAsciiLowercase (fun char => by rw [isMinerIdChar_toLower, toLower_beq_colon]) value
  simp only [validateSnapshotId, ne_eq, toAsciiLowercase_eq_nil, byteLength_toAsciiLowercase, folds]

@[simp] theorem validateIdenaAddress_fold :
    validateIdenaAddress (toAsciiLowercase value) = validateIdenaAddress value := by
  simp only [validateIdenaAddress, stripLeading?_toAsciiLowercase, stripLeading?_upper_toAsciiLowercase, Option.or_none]
  cases (stripLeading? ['0', 'x'] value).or (stripLeading? ['0', 'X'] value) <;>
    simp [isHexOfLength_toAsciiLowercase]

@[simp] theorem validateHexExactLen_fold (length : ℕ) :
    validateHexExactLen field (toAsciiLowercase value) length = validateHexExactLen field value length := by
  simp only [validateHexExactLen, isHexOfLength_toAsciiLowercase]

@[simp] theorem validateHex32_fold : validateHex32 field (toAsciiLowercase value) = validateHex32 field value :=
  validateHexExactLen_fold field value 64

@[simp] theorem decodeHexField_fold (bytes : ℕ) :
    decodeHexField crypto field (toAsciiLowercase value) bytes = decodeHexField crypto field value bytes := by
  simp only [decodeHexField, validateHexExactLen_fold, toAsciiLowercase_idem]

@[simp] theorem validateDirectPayoutScript_fold :
    validateDirectPayoutScript crypto (toAsciiLowercase value) = validateDirectPayoutScript crypto value := by
  simp only [validateDirectPayoutScript, isHexOfLength_toAsciiLowercase, toAsciiLowercase_idem]

@[simp] theorem verifyMiningSignature_fold (key : Text) (digest : Digest) :
    verifyMiningSignature crypto key (toAsciiLowercase value) digest =
      verifyMiningSignature crypto key value digest := by
  simp only [verifyMiningSignature, ne_eq, toAsciiLowercase_eq_nil, isHexOfLength_toAsciiLowercase,
    toAsciiLowercase_idem]

@[simp] theorem verifyMiningSignature_fold_key (key : Text) (digest : Digest) :
    verifyMiningSignature crypto (toAsciiLowercase key) value digest =
      verifyMiningSignature crypto key value digest := by
  simp only [verifyMiningSignature, toAsciiLowercase_idem]

theorem require_congr {ε : Type} {left right : Prop} [Decidable left] [Decidable right] (same : left ↔ right)
    (reason : ε) : require left reason = require right reason := by
  by_cases holds : right
  · rw [require_of_true holds, require_of_true (same.mpr holds)]
  · rw [require_of_false holds, require_of_false (mt same.mp holds)]

@[simp] theorem require_fold_left {ε : Type} (other : Text) (reason : ε) :
    require (EqIgnoreAsciiCase (toAsciiLowercase value) other) reason =
      require (EqIgnoreAsciiCase value other) reason := by
  apply require_congr
  simp only [EqIgnoreAsciiCase, toAsciiLowercase_idem]

private theorem require_fold {ε : Type} {left right leftFolded rightFolded : Text}
    (first : toAsciiLowercase left = leftFolded) (second : toAsciiLowercase right = rightFolded) (reason : ε) :
    require (EqIgnoreAsciiCase leftFolded rightFolded) reason = require (EqIgnoreAsciiCase left right) reason := by
  subst first second
  apply require_congr
  simp only [EqIgnoreAsciiCase, toAsciiLowercase_idem]

end Fields

/-! ## Registrations -/

/-- The texts of a registration whose case its checks see are in normal form. -/
def CanonicalRegistration (registration : MinerRegistration) : Prop :=
  registration.registryAnchor.map MinerRegistryAnchorV1.normalized = registration.registryAnchor ∧
    stripLeading? ['0', 'X'] registration.idenaSignatureHex = none

section Registrations

variable {registration : MinerRegistration}

theorem registration_signingHash_normalized : registration.normalized.signingHash crypto =
    registration.signingHash crypto := by
  simp [MinerRegistration.signingHash, MinerRegistration.signingPayload, MinerRegistration.normalized,
    Function.comp_def]

theorem decodeRecoverable_fold {signature : Text} (canonical : stripLeading? ['0', 'X'] signature = none) :
    decodeRecoverableIdenaSignature crypto (toAsciiLowercase signature) =
      decodeRecoverableIdenaSignature crypto signature := by
  have folded : toAsciiLowercase ((stripLeading? ['0', 'x'] (toAsciiLowercase signature)).getD
      (toAsciiLowercase signature)) = toAsciiLowercase ((stripLeading? ['0', 'x'] signature).getD signature) := by
    rw [stripLeading?_toAsciiLowercase, canonical, Option.or_none]
    cases stripLeading? ['0', 'x'] signature <;> simp
  simp only [decodeRecoverableIdenaSignature, folded]

section

variable (canonical : CanonicalRegistration registration)
include canonical

private theorem validateRegistryAnchor_normalized :
    registration.normalized.validateRegistryAnchor crypto = registration.validateRegistryAnchor crypto := by
  have commitment (experimentId : Text) : registration.normalized.registryCommitmentHash crypto experimentId =
      registration.registryCommitmentHash crypto experimentId := by
    simp [MinerRegistration.registryCommitmentHash, MinerRegistration.registryCommitmentPayload,
      MinerRegistration.normalized]
  have anchor : registration.normalized.registryAnchor = registration.registryAnchor := canonical.1
  simp only [MinerRegistration.validateRegistryAnchor, commitment, anchor]
  rfl

private theorem verifyMiningSignature_normalized :
    registration.normalized.verifyMiningSignature crypto = registration.verifyMiningSignature crypto := by
  have signature : decodeRecoverableIdenaSignature crypto (toAsciiLowercase registration.idenaSignatureHex) =
    decodeRecoverableIdenaSignature crypto registration.idenaSignatureHex := decodeRecoverable_fold canonical.2
  simp only [MinerRegistration.verifyMiningSignature, validateRegistryAnchor_normalized canonical,
    registration_signingHash_normalized]
  simp only [MinerRegistration.normalized, validateMinerId_fold, validateIdenaAddress_fold, signature,
    validateDirectPayoutScript_fold, toAsciiLowercase_idem, verifyMiningSignature_fold, verifyMiningSignature_fold_key]

private theorem verifyIdenaOwnershipSignature_normalized :
    registration.normalized.verifyIdenaOwnershipSignature crypto =
      registration.verifyIdenaOwnershipSignature crypto := by
  have signature : decodeRecoverableIdenaSignature crypto (toAsciiLowercase registration.idenaSignatureHex) =
    decodeRecoverableIdenaSignature crypto registration.idenaSignatureHex := decodeRecoverable_fold canonical.2
  have challenge : registration.normalized.idenaOwnershipChallenge crypto =
      registration.idenaOwnershipChallenge crypto := by
    unfold MinerRegistration.idenaOwnershipChallenge
    exact congrArg (fun digest => _ ++ hashHex digest) registration_signingHash_normalized
  simp only [MinerRegistration.verifyIdenaOwnershipSignature, challenge, recoverIdenaSigninAddress]
  simp only [MinerRegistration.normalized, signature, toAsciiLowercase_idem]

private theorem stored_normalized : registration.normalized.stored = registration.stored := by
  simp [MinerRegistration.stored, MinerRegistration.normalized, canonical.1]

private theorem applyRegistration_normalized :
    applyRegistration crypto registration.normalized = applyRegistration crypto registration := by
  simp only [applyRegistration, verifyMiningSignature_normalized canonical,
    verifyIdenaOwnershipSignature_normalized canonical, stored_normalized canonical]

end

/-- A verified registration is in normal form where its checks see case. -/
theorem RegistrationVerified.canonical (verified : RegistrationVerified crypto registration) :
    CanonicalRegistration registration := by
  have anchored := congrArg MinerRegistration.registryAnchor verified.stored_eq.symm
  refine ⟨anchored, ?_⟩
  have mining := verified.mining
  simp only [MinerRegistration.verifyMiningSignature, decodeRecoverableIdenaSignature, except_bind_eq_ok,
    mapError_eq_ok, require_eq_ok] at mining
  obtain ⟨_, -, _, -, _, -, _, ⟨_, ⟨-, digits⟩, -⟩, -⟩ := mining
  rw [all_isAsciiHexDigit_toAsciiLowercase, List.all_eq_true] at digits
  rw [stripLeading?_pair] at digits ⊢
  split_ifs with marked
  · -- The upper-case marker is not stripped, and its second letter is no digit.
    rw [if_neg (by rw [marked]; decide), Option.getD_none] at digits
    have listed : 'X' ∈ registration.idenaSignatureHex.take 2 := by
      rw [marked]
      decide
    exact absurd (digits 'X' (List.mem_of_mem_take listed)) (by decide)
  · rfl

end Registrations

/-! ## Templates, votes and commitments -/

section Templates

variable {template : BitcoinWorkTemplate}

private theorem expectedTemplateHash_normalized :
    template.normalized.expectedTemplateHash crypto = template.expectedTemplateHash crypto := by
  have legacy : BitcoinWorkTemplate.templateHashForHeaderPrefixHex crypto (toAsciiLowercase template.headerPrefixHex) =
      BitcoinWorkTemplate.templateHashForHeaderPrefixHex crypto template.headerPrefixHex := by
    simp only [BitcoinWorkTemplate.templateHashForHeaderPrefixHex, decodeBitcoinHeaderPrefixHex, decodeHexField_fold]
  have bound (target : Text) : BitcoinWorkTemplate.targetBoundTemplateHashForHeaderPrefixHex crypto
        (toAsciiLowercase template.headerPrefixHex) (toAsciiLowercase target) =
      BitcoinWorkTemplate.targetBoundTemplateHashForHeaderPrefixHex crypto template.headerPrefixHex target := by
    simp only [BitcoinWorkTemplate.targetBoundTemplateHashForHeaderPrefixHex, decodeBitcoinHeaderPrefixHex,
      decodeHexField_fold, toAsciiLowercase_idem]
  have anchored (target policyHash : Text) (anchor : IdenaBlockAnchorV1) :
      BitcoinWorkTemplate.idenaAnchoredTemplateHashForHeaderPrefixHex crypto (toAsciiLowercase template.headerPrefixHex)
        (toAsciiLowercase target) anchor.normalized (toAsciiLowercase policyHash) =
      BitcoinWorkTemplate.idenaAnchoredTemplateHashForHeaderPrefixHex crypto template.headerPrefixHex target anchor
        policyHash := by
    simp only [BitcoinWorkTemplate.idenaAnchoredTemplateHashForHeaderPrefixHex, decodeBitcoinHeaderPrefixHex,
      decodeHexField_fold, toAsciiLowercase_idem, IdenaBlockAnchorV1.normalized_idem]
  unfold BitcoinWorkTemplate.expectedTemplateHash BitcoinWorkTemplate.normalized
  cases template.assignedShareTarget <;> cases template.idenaAnchor <;> cases template.idenaAnchorPolicyHash <;>
    simp only [Option.map_none, Option.map_some, legacy, bound, anchored, okOr_some, except_ok_bind, reduceCtorEq] <;>
    split_ifs <;> rfl

private theorem verifyTemplateHash_normalized : template.normalized.verifyTemplateHash crypto =
    template.verifyTemplateHash crypto := by
  simp only [BitcoinWorkTemplate.verifyTemplateHash, expectedTemplateHash_normalized]
  simp only [BitcoinWorkTemplate.normalized, validateMinerId_fold, require_fold_left, toAsciiLowercase_idem]
  rfl

private theorem template_signingHash_normalized :
    template.normalized.signingHash crypto = template.signingHash crypto := by
  simp [BitcoinWorkTemplate.signingHash, BitcoinWorkTemplate.signingPayload, BitcoinWorkTemplate.normalized,
    Function.comp_def]

private theorem applyBitcoinWorkTemplate_normalized :
    applyBitcoinWorkTemplate crypto template.normalized = applyBitcoinWorkTemplate crypto template := by
  have validated (state : SharechainReplayState) : state.validateBitcoinWorkTemplate crypto template.normalized =
      state.validateBitcoinWorkTemplate crypto template := by
    simp only [validateBitcoinWorkTemplate, BitcoinWorkTemplate.verifyMiningSignature, verifyTemplateHash_normalized,
      template_signingHash_normalized]
    simp only [BitcoinWorkTemplate.normalized, registrationOf, toAsciiLowercase_idem, verifyMiningSignature_fold,
      require_fold_left]
  have hash : toAsciiLowercase template.normalized.templateHash = toAsciiLowercase template.templateHash := by
    simp only [BitcoinWorkTemplate.normalized, toAsciiLowercase_idem]
  simp only [applyBitcoinWorkTemplate, validated, BitcoinWorkTemplate.normalized_idem, hash]

end Templates

private theorem applySnapshotVote_normalized (vote : SnapshotVote) :
    applySnapshotVote crypto vote.normalized = applySnapshotVote crypto vote := by
  have digest : vote.normalized.signingHash crypto = vote.signingHash crypto := by
    simp [SnapshotVote.signingHash, SnapshotVote.normalized]
  simp only [applySnapshotVote, SnapshotVote.verifyMiningSignature, digest]
  simp only [SnapshotVote.normalized, registrationOf, toAsciiLowercase_idem, validateMinerId_fold, validateHex32_fold,
    verifyMiningSignature_fold]
  rfl

variable {commitment : PohwCommitment}

section Commitments

variable (field : String) (value : Text)

@[simp] theorem commitment_validateSnapshotId_fold :
    PohwCommitment.validateSnapshotId (toAsciiLowercase value) = PohwCommitment.validateSnapshotId value := by
  simp only [PohwCommitment.validateSnapshotId, ne_eq, toAsciiLowercase_eq_nil, byteLength_toAsciiLowercase,
    all_toAsciiLowercase isSnapshotIdChar_toLower]

@[simp] theorem commitment_validateHashHex_fold :
    PohwCommitment.validateHashHex field (toAsciiLowercase value) = PohwCommitment.validateHashHex field value := by
  simp only [PohwCommitment.validateHashHex, isHexOfLength_toAsciiLowercase]

@[simp] theorem commitment_validateIdenaAddress_fold :
    PohwCommitment.validateIdenaAddress (toAsciiLowercase value) = PohwCommitment.validateIdenaAddress value := by
  simp only [PohwCommitment.validateIdenaAddress, stripLeading?_toAsciiLowercase, stripLeading?_upper_toAsciiLowercase,
    Option.or_none, byteLength_toAsciiLowercase]
  cases (stripLeading? ['0', 'x'] value).or (stripLeading? ['0', 'X'] value) <;>
    simp [isHexOfLength_toAsciiLowercase]

/-- Only the version of a commitment is compared exactly. -/
theorem validateFields_normalized (canonical : toAsciiUppercase commitment.version = commitment.version) :
    commitment.normalized.validateFields = commitment.validateFields := by
  unfold PohwCommitment.validateFields
  have version : commitment.normalized.version = commitment.version := canonical
  simp only [version]
  simp only [PohwCommitment.normalized, commitment_validateSnapshotId_fold, commitment_validateHashHex_fold,
    commitment_validateIdenaAddress_fold]
  cases commitment.sharechainStateRoot <;> simp only [Option.map_none, Option.map_some, commitment_validateHashHex_fold]

theorem version_of_validateFields (valid : commitment.validateFields = .ok ()) :
    toAsciiUppercase commitment.version = commitment.version := by
  simp only [PohwCommitment.validateFields, except_bind_eq_ok, require_eq_ok] at valid
  obtain ⟨_, version, -⟩ := valid
  rw [version]
  decide

end Commitments

/-! ## Shares -/

/-- The committed texts of a work binding are in normal form; its proof may be in either case. -/
def CanonicalBinding (binding : ShareWorkBindingV1) : Prop :=
  { binding.normalized with
    coinbaseTxHex := binding.coinbaseTxHex
    coinbaseMerkleBranches := binding.coinbaseMerkleBranches } = binding

section Bindings

variable {binding : ShareWorkBindingV1}

private theorem CanonicalBinding.idenaAnchor_eq (canonical : CanonicalBinding binding) :
    binding.normalized.idenaAnchor = binding.idenaAnchor := by
  unfold CanonicalBinding at canonical
  have anchors := congrArg ShareWorkBindingV1.idenaAnchor canonical
  exact anchors

private theorem canonical_of_commitmentFields (valid : binding.validateCommitmentFields = .ok ()) :
    CanonicalBinding binding := by
  simp only [ShareWorkBindingV1.validateCommitmentFields, validateHash, validateLabel, IdenaBlockAnchorV1.validate,
    validatePrefixedHex, except_bind_eq_ok, require_eq_ok, mapError_eq_ok, exists_const] at valid
  obtain ⟨-, ⟨-, policy⟩, ⟨-, miner, -⟩, ⟨-, target⟩, -, ⟨-, parent⟩, ⟨-, snapshot, -⟩, ⟨-, proofRoot⟩,
    ⟨-, -, -, -, anchor⟩, -, anchorPolicy⟩ := valid
  simp only [CanonicalBinding, ShareWorkBindingV1.normalized, IdenaBlockAnchorV1.normalized, ← policy, ← miner,
    ← target, ← parent, ← snapshot, ← proofRoot, ← anchor, ← anchorPolicy]

theorem decodeExactHex_fold (field : String) (value : Text) (count : ℕ) :
    decodeExactHex crypto field (toAsciiLowercase value) count = decodeExactHex crypto field value count := by
  simp only [decodeExactHex, isHexOfLength_toAsciiLowercase, hexDecode?_toAsciiLowercase]
  by_cases hex : IsHexOfLength value (count * 2)
  · obtain ⟨bytes, decoded⟩ := exists_hexDecode? hex.2 (by rw [hex.1]; omega)
    simp only [decoded, okOr_some]
  · simp only [require_of_false hex]
    rfl

private theorem climbCoinbaseBranches_fold (merkle : List UInt8) (branches : List Text) :
    climbCoinbaseBranches crypto merkle (branches.map toAsciiLowercase) =
      climbCoinbaseBranches crypto merkle branches := by
  induction branches generalizing merkle with
  | nil => rfl
  | cons branch rest ih => simp only [List.map_cons, climbCoinbaseBranches, decodeExactHex_fold, ih]

private theorem opReturnScriptPubkey_normalized :
    binding.normalized.opReturnScriptPubkey crypto = binding.opReturnScriptPubkey crypto := by
  simp only [ShareWorkBindingV1.opReturnScriptPubkey, ShareWorkBindingV1.commitmentHash,
    ShareWorkBindingV1.normalized_idem]

theorem validateCommitmentFields_normalized (canonical : CanonicalBinding binding) :
    binding.normalized.validateCommitmentFields = binding.validateCommitmentFields := by
  have same : binding.normalized.validateCommitmentFields = ShareWorkBindingV1.validateCommitmentFields
      { binding.normalized with
        coinbaseTxHex := binding.coinbaseTxHex
        coinbaseMerkleBranches := binding.coinbaseMerkleBranches } := rfl
  rw [same, canonical]

private theorem verifyHeaderCommitment_normalized (canonical : CanonicalBinding binding) (header : Text) :
    binding.normalized.verifyHeaderCommitment crypto (toAsciiLowercase header) =
      binding.verifyHeaderCommitment crypto header := by
  simp only [ShareWorkBindingV1.verifyHeaderCommitment, validateCommitmentFields_normalized canonical,
    decodeExactHex_fold, opReturnScriptPubkey_normalized]
  simp only [ShareWorkBindingV1.normalized, ne_eq, toAsciiLowercase_eq_nil, byteLength_toAsciiLowercase,
    all_isAsciiHexDigit_toAsciiLowercase, List.length_map, hexDecode?_toAsciiLowercase, climbCoinbaseBranches_fold]
  refine bind_congr fun _ => bind_congr fun header => ?_
  -- Hexadecimal text of even length decodes, so the error that would show it is never returned.
  by_cases hex : ¬ binding.coinbaseTxHex = [] ∧ byteLength binding.coinbaseTxHex % 2 = 0 ∧
      byteLength binding.coinbaseTxHex ≤ maxCoinbaseBytes * 2 ∧ binding.coinbaseTxHex.all isAsciiHexDigit = true
  · obtain ⟨bytes, decoded⟩ := exists_hexDecode? hex.2.2.2 hex.2.1
    simp only [decoded, okOr_some]
  · simp only [require_of_false hex]
    rfl

end Bindings

section Shares

variable {share : Share}

private theorem share_signingHash_normalized : share.normalized.signingHash crypto = share.signingHash crypto := by
  simp [Share.signingHash, Share.signingPayload, Share.normalized, Function.comp_def]

theorem decodeBitcoinHeaderHex_fold (value : Text) :
    decodeBitcoinHeaderHex crypto (toAsciiLowercase value) = decodeBitcoinHeaderHex crypto value :=
  decodeHexField_fold _ value _

private theorem share_validateFields_normalized : share.normalized.validateFields = share.validateFields := by
  simp only [Share.validateFields, Share.normalized, validateMinerId_fold, validateHexExactLen_fold, validateHex32_fold,
    validateSnapshotId_fold]
  rfl

private theorem share_bitcoinHeaderPrefixHex_normalized :
    share.normalized.bitcoinHeaderPrefixHex crypto = share.bitcoinHeaderPrefixHex crypto := by
  simp only [Share.bitcoinHeaderPrefixHex, Share.normalized, decodeBitcoinHeaderHex_fold]

private theorem verifyNonceBinding_normalized : share.normalized.verifyNonceBinding crypto =
    share.verifyNonceBinding crypto := by
  simp only [Share.verifyNonceBinding, Share.recomputedNonceHex, Share.normalized, decodeBitcoinHeaderHex_fold,
    require_fold_left, toAsciiLowercase_idem]

private theorem verifyWorkScore_normalized :
    share.normalized.verifyWorkScore crypto = share.verifyWorkScore crypto := by
  simp only [Share.verifyWorkScore, Share.recomputedWorkHash, Share.normalized, decodeBitcoinHeaderHex_fold,
    require_fold_left, toAsciiLowercase_idem, decodeHex32, decodeHexField_fold]
  rfl

private theorem verifyAssignedShareTarget_fold (template : BitcoinWorkTemplate) (target : Text) :
    template.verifyAssignedShareTarget crypto (toAsciiLowercase target) =
      template.verifyAssignedShareTarget crypto target := by
  simp only [BitcoinWorkTemplate.verifyAssignedShareTarget, toAsciiLowercase_idem]

/-- A binding is compared with its share up to case, and with its template exactly. -/
theorem verifyPresentWorkBindingForTemplate_normalized
    (canonical : ∀ binding ∈ share.workBinding, CanonicalBinding binding)
    (template : BitcoinWorkTemplate) : share.normalized.verifyPresentWorkBindingForTemplate crypto template =
      share.verifyPresentWorkBindingForTemplate crypto template := by
  cases bound : share.workBinding with
  | none =>
    have boundNormal : share.normalized.workBinding = none := by rw [Share.normalized, bound, Option.map_none]
    simp only [Share.verifyPresentWorkBindingForTemplate, Share.verifyPresentWorkBindingFields, bound, boundNormal]
  | some binding =>
    have boundNormal : share.normalized.workBinding = some binding.normalized := by
      rw [Share.normalized, bound, Option.map_some]
    have lower : CanonicalBinding binding := canonical binding bound
    have anchor := lower.idenaAnchor_eq
    have header : binding.normalized.verifyHeaderCommitment crypto share.normalized.bitcoinHeaderHex =
        binding.verifyHeaderCommitment crypto share.bitcoinHeaderHex :=
      verifyHeaderCommitment_normalized lower share.bitcoinHeaderHex
    have policy (expected : Text) (reason : SharechainError) :
        require (EqIgnoreAsciiCase binding.normalized.idenaAnchorPolicyHash expected) reason =
          require (EqIgnoreAsciiCase binding.idenaAnchorPolicyHash expected) reason :=
      require_fold_left binding.idenaAnchorPolicyHash expected reason
    have fields (reason : SharechainError) :
        require (EqIgnoreAsciiCase binding.normalized.minerId share.normalized.minerId) reason =
          require (EqIgnoreAsciiCase binding.minerId share.minerId) reason ∧
        require (EqIgnoreAsciiCase binding.normalized.assignedShareTarget share.normalized.target) reason =
          require (EqIgnoreAsciiCase binding.assignedShareTarget share.target) reason ∧
        require (EqIgnoreAsciiCase binding.normalized.parentShareHash share.normalized.parentShareHash) reason =
          require (EqIgnoreAsciiCase binding.parentShareHash share.parentShareHash) reason ∧
        require (EqIgnoreAsciiCase binding.normalized.idenaSnapshotId share.normalized.idenaSnapshotId) reason =
          require (EqIgnoreAsciiCase binding.idenaSnapshotId share.idenaSnapshotId) reason ∧
        require (EqIgnoreAsciiCase binding.normalized.idenaSnapshotProofRoot
            share.normalized.idenaSnapshotProofRoot) reason =
          require (EqIgnoreAsciiCase binding.idenaSnapshotProofRoot share.idenaSnapshotProofRoot) reason :=
      ⟨require_fold rfl rfl reason, require_fold rfl rfl reason, require_fold rfl rfl reason,
        require_fold rfl rfl reason, require_fold rfl rfl reason⟩
    simp only [Share.verifyPresentWorkBindingForTemplate, Share.verifyPresentWorkBindingFields, bound, boundNormal,
      anchor, validateCommitmentFields_normalized lower, header, policy, fields]

/-- The checks of a share see case in its binding only. -/
theorem validateShare_normalized (canonical : ∀ binding ∈ share.workBinding, CanonicalBinding binding)
    (state : SharechainReplayState) :
    state.validateShare crypto share.normalized = state.validateShare crypto share := by
  have miner : toAsciiLowercase share.normalized.minerId = toAsciiLowercase share.minerId := by
    simp only [Share.normalized, toAsciiLowercase_idem]
  have hash : toAsciiLowercase share.normalized.bitcoinTemplateHash = toAsciiLowercase share.bitcoinTemplateHash := by
    simp only [Share.normalized, toAsciiLowercase_idem]
  have target (template : BitcoinWorkTemplate) : template.verifyAssignedShareTarget crypto share.normalized.target =
      template.verifyAssignedShareTarget crypto share.target := verifyAssignedShareTarget_fold template share.target
  have compared (template : BitcoinWorkTemplate) (reason : SharechainError) :
      require (EqIgnoreAsciiCase share.normalized.bitcoinTemplateHash template.templateHash) reason =
        require (EqIgnoreAsciiCase share.bitcoinTemplateHash template.templateHash) reason :=
    require_fold_left share.bitcoinTemplateHash template.templateHash reason
  have signed (key : Text) (digest : Digest) :
      verifyMiningSignature crypto key share.normalized.miningSignatureHex digest =
      verifyMiningSignature crypto key share.miningSignatureHex digest := verifyMiningSignature_fold _ key digest
  simp only [validateShare, registrationOf, templateOf, miner, hash, Share.verifyMiningSignatureForTemplate,
    share_validateFields_normalized, compared, share_bitcoinHeaderPrefixHex_normalized, target,
    verifyNonceBinding_normalized, verifyWorkScore_normalized, verifyPresentWorkBindingForTemplate_normalized canonical,
    signed, share_signingHash_normalized, validateShareBitcoinWorkTemplate]

/-- The committed texts of the binding of a valid share are in normal form. -/
theorem canonical_of_validateShare (valid : state.validateShare crypto share = .ok ()) :
    ∀ binding ∈ share.workBinding, CanonicalBinding binding := by
  intro binding bound
  simp only [validateShare, Share.verifyMiningSignatureForTemplate, Share.verifyPresentWorkBindingForTemplate,
    Share.verifyPresentWorkBindingFields, Option.mem_def.mp bound, except_bind_eq_ok, mapError_eq_ok] at valid
  obtain ⟨_, -, _, -, _, ⟨_, -, _, -, _, -, _, -, _, -, _, -, _, -, _, -, _, ⟨_, ⟨_, fields, -⟩, -⟩, -⟩, -⟩ := valid
  exact canonical_of_commitmentFields fields

private theorem applyShare_normalized (share : Share) :
    ShareTree.applyShare crypto share.normalized = ShareTree.applyShare crypto share := by
  simp only [ShareTree.applyShare, Share.normalized_idem]

end Shares

/-! ## Messages -/

/-- The texts whose case the checks of a message see are in normal form. -/
def CaseCanonical : SharechainMessage → Prop
  | .minerRegistration registration => CanonicalRegistration registration
  | .share mined => ∀ binding ∈ mined.workBinding, CanonicalBinding binding
  | .payoutSchedule schedule => schedule.normalizedForHash = schedule
  | .pohwCommitment commitment => toAsciiUppercase commitment.version = commitment.version
  | _ => True

/-- Such a message is handled as its normal form is. -/
theorem handleMessage_normalized {message : SharechainMessage} (canonical : CaseCanonical message) :
    handleMessage crypto message.normalized = handleMessage crypto message := by
  cases message with
  | minerRegistration registration => exact applyRegistration_normalized canonical
  | bitcoinWorkTemplate template => exact applyBitcoinWorkTemplate_normalized
  | share mined =>
    simp only [SharechainMessage.normalized, handleMessage, validateShare_normalized canonical, applyShare_normalized]
  | sharechainCheckpoint checkpoint =>
    simp only [SharechainMessage.normalized, handleMessage, applySharechainCheckpoint,
      SharechainCheckpointAnchorV1.normalized_idem]
  | snapshotVote vote => exact applySnapshotVote_normalized vote
  | payoutSchedule schedule =>
    simp only [CaseCanonical] at canonical
    rw [SharechainMessage.normalized, canonical]
  | withdrawalRequest request =>
    simp only [SharechainMessage.normalized, handleMessage, applyWithdrawalRequest, WithdrawalRequest.validate,
      WithdrawalRequest.normalized_idem]
  | withdrawalBatch batch =>
    simp only [SharechainMessage.normalized, handleMessage, applyWithdrawalBatch, WithdrawalBatch.normalized_idem]
  | pohwCommitment commitment =>
    simp only [SharechainMessage.normalized, handleMessage, validateFields_normalized canonical]

section Acceptable

variable (crypto state)

/-- A registration verifies and does not conflict with the stored one. -/
def Registrable (registration : MinerRegistration) : Prop :=
  RegistrationVerified crypto registration ∧
    ∀ existing, state.registrations[toAsciiLowercase registration.minerId]? = some existing →
      existing = registration.stored ∨ isValidRegistryRegistrationUpgrade existing registration.stored = true

/-- A share is valid and either stored already or admitted to branches that do not overflow. -/
def Minable (share : Share) : Prop :=
  state.validateShare crypto share = .ok () ∧
    ((∃ node, state.shares[share.shareHash crypto]? = some node ∧ node.share = share.normalized) ∨
      Admits crypto state.toShareTree share ∧ ¬ OverflowsWith crypto state.toShareTree share)

/-- A schedule is valid and does not conflict with the one stored under its root. -/
def Proposable (schedule : PayoutSchedule) : Prop :=
  state.validatePayoutScheduleBindings crypto schedule = .ok () ∧
    ∀ existing, state.proposedPayoutSchedules[toAsciiLowercase schedule.payoutRoot]? = some existing →
      existing = schedule

/-- The message and its normal form are treated alike: what is compared exactly is in normal form already, or the
normal form is refused as well. A schedule can also be acceptable while its normal form is not. -/
def Transparent : SharechainMessage → Prop
  | .minerRegistration registration =>
    CanonicalRegistration registration ∨ ¬ Registrable crypto state registration.normalized
  | .share mined =>
    (∀ binding ∈ mined.workBinding, CanonicalBinding binding) ∨ ¬ Minable crypto state mined.normalized
  | .payoutSchedule schedule =>
    schedule.normalizedForHash = schedule ∨
      ¬ Proposable crypto state schedule ∧ ¬ Proposable crypto state schedule.normalizedForHash
  | .pohwCommitment commitment =>
    toAsciiUppercase commitment.version = commitment.version ∨ commitment.normalized.validateFields ≠ .ok ()
  | _ => True

/-- Applying a message and applying its normal form both fail, or both return the same outcome and leave states with
the same accounting root. -/
def AgreesWithNormalForm (message : SharechainMessage) : Prop :=
  match applyMessage crypto message state, applyMessage crypto message.normalized state with
  | .ok outcome after, .ok normalOutcome normalAfter =>
    outcome = normalOutcome ∧ after.accountingStateRoot crypto = normalAfter.accountingStateRoot crypto
  | .error _ _, .error _ _ => True
  | _, _ => False

end Acceptable

section Agreement

variable {message : SharechainMessage}

/-- A routine returns from a state. -/
def Completes {σ ε α : Type} (routine : Routine σ ε α) (before : σ) : Prop :=
  ∃ value after, routine before = .ok value after

theorem applyMessage_returns_iff (fresh : message.messageHash crypto ∉ state.appliedMessageHashes) :
    Completes (applyMessage crypto message) state ↔ Completes (handleMessage crypto message) state := by
  have opened : applyMessage crypto message state = (do
      handleMessage crypto message
      modify fun state => { state with
        appliedMessageHashes := state.appliedMessageHashes.insert (message.messageHash crypto)
        lastMessageHash := some (message.messageHash crypto) }
      return ApplyOutcome.applied : Replay ApplyOutcome) state := by
    rw [applyMessage, Routine.get_bind, if_neg fresh]
  unfold Completes
  rw [opened]
  constructor
  · rintro ⟨outcome, after, returned⟩
    obtain ⟨done, middle, handled, -⟩ := Routine.bind_eq_ok.mp returned
    exact ⟨done, middle, handled⟩
  · rintro ⟨done, middle, handled⟩
    rw [Routine.bind_of_ok handled]
    exact ⟨_, _, rfl⟩

theorem agrees_iff_of_returns (differ : ¬ (Completes (applyMessage crypto message) state ∧
      Completes (applyMessage crypto message.normalized) state)) :
    AgreesWithNormalForm crypto state message ↔ ¬ Completes (applyMessage crypto message) state ∧
      ¬ Completes (applyMessage crypto message.normalized) state := by
  unfold AgreesWithNormalForm Completes at *
  cases given : applyMessage crypto message state with
  | ok outcome after =>
    cases normal : applyMessage crypto message.normalized state with
    | ok normalOutcome normalAfter => exact absurd ⟨⟨_, _, given⟩, ⟨_, _, normal⟩⟩ differ
    | error fault normalAfter => simp
  | error fault after =>
    cases normal : applyMessage crypto message.normalized state with
    | ok normalOutcome normalAfter => simp
    | error normalFault normalAfter => simp

private theorem agrees_of_eq (same : applyMessage crypto message.normalized state = applyMessage crypto message state) :
    AgreesWithNormalForm crypto state message := by
  unfold AgreesWithNormalForm
  rw [same]
  cases applyMessage crypto message state with
  | ok outcome after => exact ⟨rfl, rfl⟩
  | error fault after => trivial

private theorem registration_returns_iff {registration : MinerRegistration} :
    Completes (handleMessage crypto (.minerRegistration registration)) state ↔
      Registrable crypto state registration := by
  constructor
  · rintro ⟨⟨⟩, after, returned⟩
    cases handleMessage_ok returned with
    | registrationKept verified stored =>
      refine ⟨verified, fun existing present => .inl ?_⟩
      exact Option.some.inj (present.symm.trans stored)
    | registered verified upgrade => exact ⟨verified, fun existing present => .inr (upgrade existing present)⟩
  · rintro ⟨verified, compatible⟩
    have found : state.registrations[registration.stored.minerId]? =
        state.registrations[toAsciiLowercase registration.minerId]? := rfl
    simp only [Completes, handleMessage, applyRegistration, verified.mining, verified.ownership, Except.mapError,
      Routine.attempt_ok, Routine.pure_bind_apply, Routine.get_bind]
    split_ifs with stored
    · exact ⟨_, _, rfl⟩
    · have upgrade : (state.registrations[registration.stored.minerId]?.all
          (isValidRegistryRegistrationUpgrade · registration.stored)) = true := by
        cases present : state.registrations[registration.stored.minerId]? with
        | none => rfl
        | some existing =>
          rcases compatible existing (found.symm.trans present) with rfl | valid
          · exact absurd present stored
          · exact valid
      simp only [require_of_true upgrade, Routine.attempt_ok, Routine.pure_bind_apply]
      exact ⟨_, _, rfl⟩

private theorem proposal_returns_iff :
    Completes (handleMessage crypto (.payoutSchedule schedule)) state ↔ Proposable crypto state schedule := by
  constructor
  · rintro ⟨⟨⟩, after, returned⟩
    cases handleMessage_ok returned with
    | proposalKept valid stored =>
      exact ⟨valid, fun existing present => Option.some.inj (present.symm.trans stored)⟩
    | proposed valid fresh =>
      refine ⟨valid, fun existing present => ?_⟩
      rw [fresh] at present
      cases present
  · rintro ⟨valid, compatible⟩
    simp only [Completes, handleMessage, applyPayoutScheduleProposal, Routine.get_bind, valid, Routine.attempt_ok,
      Routine.pure_bind_apply]
    cases present : state.proposedPayoutSchedules[toAsciiLowercase schedule.payoutRoot]? with
    | none => exact ⟨_, _, rfl⟩
    | some existing =>
      simp only [require_of_true (compatible existing present), Routine.attempt_ok]
      exact ⟨_, _, rfl⟩

theorem commitment_returns_iff :
    Completes (handleMessage crypto (.pohwCommitment commitment)) state ↔ commitment.validateFields = .ok () := by
  constructor
  · rintro ⟨⟨⟩, after, returned⟩
    cases handleMessage_ok returned with
    | committed valid => exact valid
  · intro valid
    simp only [Completes, handleMessage, valid, Except.mapError, Routine.attempt_ok]
    exact ⟨_, _, rfl⟩

private theorem share_returns_iff {mined : Set Share} {share : Share} (sound : SoundState crypto mined state)
    (acyclic : AcyclicShares crypto mined) (member : share ∈ mined) :
    Completes (handleMessage crypto (.share share)) state ↔ Minable crypto state share := by
  have opened (valid : state.validateShare crypto share = .ok ()) : handleMessage crypto (.share share) state =
      onTree (ShareTree.applyShare crypto share) state := by
    simp only [handleMessage, Routine.get_bind, valid, Routine.attempt_ok, Routine.pure_bind_apply]
  constructor
  · rintro ⟨⟨⟩, after, returned⟩
    cases handleMessage_ok returned with
    | @shared _ tree valid applied =>
      refine ⟨valid, ?_⟩
      rcases applyShare_ok sound.tree acyclic member applied with ⟨admits, -, -, fits⟩ | ⟨-, stored⟩
      · exact .inr ⟨admits, fits⟩
      · exact .inl stored
  · rintro ⟨valid, ⟨node, stored, same⟩ | ⟨admits, fits⟩⟩
    · have kept : ShareTree.applyShare crypto share state.toShareTree = .ok () state.toShareTree := by
        simp only [ShareTree.applyShare, Routine.get_bind, shareHash_normalized, stored, require_of_true same,
          Routine.attempt_ok]
        rfl
      rw [Completes, opened valid]
      exact ⟨_, _, onTree_eq_ok.mpr ⟨_, kept, rfl⟩⟩
    · rcases applyShare_spec sound.tree member admits acyclic with ⟨tree, applied, -⟩ | ⟨_, _, -, -, overflows⟩
      · rw [Completes, opened valid]
        exact ⟨_, _, onTree_eq_ok.mpr ⟨tree, applied, rfl⟩⟩
      · exact absurd overflows fits

/-- A refused message agrees with its normal form exactly when that is refused as well. -/
theorem agrees_iff_of_refused (fresh : message.messageHash crypto ∉ state.appliedMessageHashes)
    (refused : ¬ Completes (handleMessage crypto message) state) :
    AgreesWithNormalForm crypto state message ↔ ¬ Completes (handleMessage crypto message.normalized) state := by
  have freshNormal : message.normalized.messageHash crypto ∉ state.appliedMessageHashes := by
    rwa [messageHash_normalized]
  rw [← applyMessage_returns_iff fresh] at refused
  rw [agrees_iff_of_returns fun both => refused both.1, applyMessage_returns_iff freshNormal]
  exact and_iff_right refused

/-- At most one of a schedule and a different normal form carries its own root. -/
theorem normal_of_proposable (collisionFree : CollisionFree crypto (replayPreimages {message, message.normalized}))
    (proposes : message = .payoutSchedule schedule) (given : Proposable crypto state schedule)
    (normal : Proposable crypto state schedule.normalizedForHash) : schedule.normalizedForHash = schedule := by
  subst proposes
  have first : Proposed crypto {.payoutSchedule schedule, SharechainMessage.normalized (.payoutSchedule schedule)}
      schedule := ⟨.inl rfl, payoutRoot_of_bindings given.1⟩
  have second : Proposed crypto {.payoutSchedule schedule, SharechainMessage.normalized (.payoutSchedule schedule)}
      schedule.normalizedForHash := ⟨.inr rfl, payoutRoot_of_bindings normal.1⟩
  exact Proposed.eq_of_normalizedForHash collisionFree second first (PayoutSchedule.normalizedForHash_idem schedule)

private theorem agrees_iff_transparent {mined : Set Share} (sound : SoundState crypto mined state)
    (acyclic : AcyclicShares crypto mined) (member : ∀ share, message = .share share → share.normalized ∈ mined)
    (collisionFree : CollisionFree crypto (replayPreimages {message, message.normalized}))
    (fresh : message.messageHash crypto ∉ state.appliedMessageHashes) (differs : ¬ CaseCanonical message) :
    AgreesWithNormalForm crypto state message ↔ Transparent crypto state message := by
  cases message with
  | minerRegistration registration =>
    have refused : ¬ Completes (handleMessage crypto (.minerRegistration registration)) state := by
      rw [registration_returns_iff]
      exact fun registrable => differs registrable.1.canonical
    rw [agrees_iff_of_refused fresh refused, SharechainMessage.normalized, registration_returns_iff, Transparent]
    exact (or_iff_right differs).symm
  | share share =>
    have refused : ¬ Completes (handleMessage crypto (.share share)) state := by
      rintro ⟨⟨⟩, after, returned⟩
      cases handleMessage_ok returned with
      | shared valid _ => exact differs (canonical_of_validateShare valid)
    rw [agrees_iff_of_refused fresh refused, SharechainMessage.normalized,
      share_returns_iff sound acyclic (member share rfl), Transparent]
    exact (or_iff_right differs).symm
  | pohwCommitment commitment =>
    have refused : ¬ Completes (handleMessage crypto (.pohwCommitment commitment)) state := by
      rw [commitment_returns_iff]
      exact fun valid => differs (version_of_validateFields valid)
    rw [agrees_iff_of_refused fresh refused, SharechainMessage.normalized, commitment_returns_iff, Transparent]
    exact (or_iff_right differs).symm
  | payoutSchedule schedule =>
    have freshNormal : (SharechainMessage.payoutSchedule schedule).normalized.messageHash crypto ∉
        state.appliedMessageHashes := by
      rwa [messageHash_normalized]
    have one : ¬ (Completes (applyMessage crypto (.payoutSchedule schedule)) state ∧
        Completes (applyMessage crypto (SharechainMessage.payoutSchedule schedule).normalized) state) := by
      rw [applyMessage_returns_iff fresh, applyMessage_returns_iff freshNormal, SharechainMessage.normalized,
        proposal_returns_iff, proposal_returns_iff]
      rintro ⟨given, normal⟩
      exact differs (normal_of_proposable collisionFree rfl given normal)
    rw [agrees_iff_of_returns one, applyMessage_returns_iff fresh, applyMessage_returns_iff freshNormal,
      SharechainMessage.normalized, proposal_returns_iff, proposal_returns_iff, Transparent]
    exact (or_iff_right differs).symm
  | _ => exact absurd trivial differs

private theorem transparent_of_canonical (canonical : CaseCanonical message) : Transparent crypto state message := by
  cases message with
  | minerRegistration registration => exact .inl canonical
  | share share => exact .inl canonical
  | payoutSchedule schedule => exact .inl canonical
  | pohwCommitment commitment => exact .inl canonical
  | _ => trivial

end Agreement

/-- In every reachable state, a message and its normal form give the same outcome and the same accounting root
exactly when the message was applied before, or the texts its checks compare exactly are in normal form, or both
are refused. -/
theorem normal_form_agrees_iff (crypto : Crypto) (ops : List ReplayOp) (state : SharechainReplayState)
    (message : SharechainMessage)
    (acyclic : AcyclicShares crypto (sharesOf (ops ++ [.applyMessage message.normalized])))
    (collisionFree : CollisionFree crypto (replayPreimages {message, message.normalized}))
    (reached : run? (ReplayOp.step? crypto) {} ops = some state) :
    AgreesWithNormalForm crypto state message ↔
      message.messageHash crypto ∈ state.appliedMessageHashes ∨ Transparent crypto state message := by
  obtain ⟨sound, -⟩ := (SoundState.initial crypto _).run acyclic
    (fun share => List.mem_append_left [ReplayOp.applyMessage message.normalized]) reached
  have member : ∀ share, message = .share share →
      share.normalized ∈ sharesOf (ops ++ [.applyMessage message.normalized]) := by
    rintro share rfl
    exact List.mem_append_right ops (List.mem_singleton_self _)
  by_cases known : message.messageHash crypto ∈ state.appliedMessageHashes
  · refine iff_of_true (agrees_of_eq ?_) (.inl known)
    simp only [applyMessage, Routine.get_bind, messageHash_normalized, if_pos known]
  · by_cases canonical : CaseCanonical message
    · refine iff_of_true (agrees_of_eq ?_) (.inr (transparent_of_canonical canonical))
      simp only [applyMessage, messageHash_normalized, handleMessage_normalized canonical]
    · rw [agrees_iff_transparent sound acyclic member collisionFree known canonical]
      exact (or_iff_right known).symm

namespace CommitmentSample

/-- A commitment with its version as given and its other texts in either case. -/
def commitmentOf (version : Text) : PohwCommitment :=
  { version
    idenaSnapshotId := "Snapshot-2026-07-05".toList
    idenaScoreRoot := toAsciiUppercase (List.replicate 64 'a')
    minerIdenaAddress := '0' :: 'X' :: List.replicate 40 'c'
    identityProofRoot := List.replicate 64 'b'
    sharechainTip := List.replicate 64 'd'
    sharechainStateRoot := some (toAsciiUppercase (List.replicate 64 'e'))
    payoutScheduleRoot := List.replicate 64 'f'
    vaultEpochId := 1
    frostVaultKeyXonly := List.replicate 64 '1' }

/-- No schedule is sent, and the message has one normal form. -/
theorem collisionFree (crypto : Crypto) (commitment : PohwCommitment) : CollisionFree crypto
    (replayPreimages {.pohwCommitment commitment, SharechainMessage.normalized (.pohwCommitment commitment)}) := by
  have only : ∀ preimage ∈ replayPreimages
      {.pohwCommitment commitment, SharechainMessage.normalized (.pohwCommitment commitment)},
      preimage = .sharechainMessage (.pohwCommitment commitment.normalized) := by
    rintro preimage (⟨message, rfl | rfl, rfl⟩ | ⟨schedule, same | same, -⟩)
    · rfl
    · simp [SharechainMessage.normalized]
    · cases same
    · cases same
  intro left leftMember right rightMember _
  rw [only left leftMember, only right rightMember]

end CommitmentSample

theorem normal_form_agrees_iff_sample : ∃ state, run? (ReplayOp.step? Sample.crypto) {} Sample.ops = some state ∧
    AgreesWithNormalForm Sample.crypto state
      (.pohwCommitment (CommitmentSample.commitmentOf "POHW1".toList)) := by
  obtain ⟨state, run⟩ := Option.isSome_iff_exists.mp Sample.reached
  refine ⟨state, run, (normal_form_agrees_iff Sample.crypto Sample.ops state _ ?_
    (CommitmentSample.collisionFree _ _) run).mpr (.inr (.inl (by decide)))⟩
  refine Sample.acyclic.mono fun share listed => ?_
  rcases List.mem_append.mp listed with earlier | last
  · exact earlier
  · cases List.mem_singleton.mp last

/-- A commitment whose version is in lower case is refused, and its normal form is applied. -/
theorem lower_case_version_disagrees :
    ¬ Completes (applyMessage Sample.crypto (.pohwCommitment (CommitmentSample.commitmentOf "pohw1".toList))) {} ∧
    Completes (applyMessage Sample.crypto
      (SharechainMessage.normalized (.pohwCommitment (CommitmentSample.commitmentOf "pohw1".toList)))) {} ∧
    ¬ AgreesWithNormalForm Sample.crypto {} (.pohwCommitment (CommitmentSample.commitmentOf "pohw1".toList)) := by
  have fresh (message : SharechainMessage) :
      message.messageHash Sample.crypto ∉ ({} : SharechainReplayState).appliedMessageHashes :=
    ExtTreeSet.not_mem_empty
  have refused : ¬ Completes (handleMessage Sample.crypto
      (.pohwCommitment (CommitmentSample.commitmentOf "pohw1".toList))) {} := by
    rw [commitment_returns_iff]
    intro valid
    exact absurd (version_of_validateFields valid) (by decide)
  have applied : Completes (handleMessage Sample.crypto
      (SharechainMessage.normalized (.pohwCommitment (CommitmentSample.commitmentOf "pohw1".toList)))) {} := by
    rw [SharechainMessage.normalized, commitment_returns_iff]
    have computed : (CommitmentSample.commitmentOf "pohw1".toList).normalized.validateFields.toOption = some () := by
      decide
    cases result : (CommitmentSample.commitmentOf "pohw1".toList).normalized.validateFields with
    | error reason =>
      rw [result] at computed
      cases computed
    | ok done => rfl
  refine ⟨?_, ?_, ?_⟩
  · rwa [applyMessage_returns_iff (fresh _)]
  · rwa [applyMessage_returns_iff (fresh _)]
  · rw [agrees_iff_of_refused (fresh _) refused]
    exact not_not_intro applied

end P2PoolBTC.Soundness
