import P2PoolBTC.Soundness.VaultPlans

/-! # One hash, one transaction

The hash of a plan is taken of its normal form. The checks and the transaction read the plan as it is written: they
sort and compare identifiers with their case. Two plans with one hash make one transaction when the case of their
identifiers neither changes the order of the inputs nor tells equal ones apart.
-/

namespace P2PoolBTC.Soundness

open Math Model.Core Std

/-- Inputs that spend one output, whatever the case of its identifier. -/
def SameOutput (left right : VaultInput) : Prop :=
  toAsciiLowercase left.txid = toAsciiLowercase right.txid ∧ left.vout = right.vout

instance (left right : VaultInput) : Decidable (SameOutput left right) :=
  inferInstanceAs (Decidable (_ ∧ _))

section Hashes

variable {crypto : VaultCrypto} {plan other : VaultSpendPlan}

/-! The transaction reads of a plan what its normal form keeps, except for the order of the inputs. -/

theorem outPointOf_normalized {input : VaultInput} (digits : IsHexOfLength input.txid 64) :
    outPointOf input.normalized = outPointOf input := by
  have lowered : IsHexOfLength input.normalized.txid 64 := (isHexOfLength_toAsciiLowercase _ _).mpr digits
  apply (outPointOf_eq_iff lowered digits).mpr
  exact ⟨toAsciiLowercase_idem input.txid, rfl⟩

private theorem prevoutOf_normalized (input : VaultInput) : prevoutOf input.normalized = prevoutOf input := by
  simp only [prevoutOf, VaultInput.normalized, scriptOf, hexDecode?_toAsciiLowercase]

private theorem sameOutput_of_normalized {left right : VaultInput} (same : left.normalized = right.normalized) :
    SameOutput left right := by
  simp only [VaultInput.normalized, VaultInput.mk.injEq] at same
  exact ⟨same.1, same.2.1⟩

theorem perm_of_canonical (same : plan.canonicalizedForHash = other.canonicalizedForHash) :
    (plan.inputs.map VaultInput.normalized).Perm (other.inputs.map VaultInput.normalized) := by
  have sorted : Vault.normalizeInputs plan.inputs = Vault.normalizeInputs other.inputs :=
    congrArg VaultSpendPlan.inputs same
  have permuted : (Vault.normalizeInputs plan.inputs).Perm (plan.inputs.map VaultInput.normalized) := sortBy_perm _ _
  rw [sorted] at permuted
  exact permuted.symm.trans (sortBy_perm _ _)

theorem separated_inputs (checked : PlanChecked crypto.toCrypto plan) :
    ∀ left ∈ plan.inputs, ∀ right ∈ plan.inputs, Vault.compareInputs left right = .eq → left = right := by
  intro left leftMember right rightMember equal
  apply List.inj_on_of_nodup_map checked.distinct leftMember rightMember
  simpa [Vault.compareInputs, compareLex_eq_eq, compareOn] using equal

/-- The outputs depend on the normal form alone. -/
theorem output_eq_of_canonical
    (caseless : ∀ text, crypto.xOnlyPublicKeyFromStr (toAsciiLowercase text) = crypto.xOnlyPublicKeyFromStr text)
    (same : plan.canonicalizedForHash = other.canonicalizedForHash) :
    (unsignedTransaction crypto plan).output = (unsignedTransaction crypto other).output := by
  have remainder : ∀ raw : VaultSpendPlan, raw.vaultRemainder.map (remainderOut crypto) =
      raw.canonicalizedForHash.vaultRemainder.map (remainderOut crypto) := by
    intro raw
    simp only [VaultSpendPlan.canonicalizedForHash, Option.map_map, Function.comp_def, remainderOut, caseless]
    rfl
  rw [unsignedTransaction, unsignedTransaction, ← planWithdrawals_canonicalizedForHash,
    ← planWithdrawals_canonicalizedForHash, remainder plan, remainder other, same]

theorem spends_unsignedTransaction (crypto : VaultCrypto) (plan : VaultSpendPlan) :
    (unsignedTransaction crypto plan).spends = (sortedInputs plan.inputs).map outPointOf := by
  rw [Transaction.spends, unsignedTransaction, List.map_map]
  rfl

theorem spends_perm (crypto : VaultCrypto) (plan : VaultSpendPlan) :
    (unsignedTransaction crypto plan).spends.Perm (plan.inputs.map outPointOf) := by
  rw [spends_unsignedTransaction]
  exact (sortBy_perm _ _).map outPointOf

theorem nodup_spends_iff (checked : PlanChecked crypto.toCrypto plan) :
    (unsignedTransaction crypto plan).spends.Nodup ↔
      plan.inputs.Pairwise fun left right => ¬ SameOutput left right := by
  rw [(spends_perm crypto plan).nodup_iff]
  unfold List.Nodup
  rw [List.pairwise_map]
  constructor
  · intro apart
    refine apart.imp_of_mem ?_
    intro left right leftMember rightMember different same
    exact different ((outPointOf_eq_iff (checked.txids left leftMember) (checked.txids right rightMember)).mpr same)
  · intro apart
    refine apart.imp_of_mem ?_
    intro left right leftMember rightMember different same
    exact different ((outPointOf_eq_iff (checked.txids left leftMember) (checked.txids right rightMember)).mp same)

/-- Inputs of the two plans that spend the same outputs are in the same order, by their texts as written. -/
def OrderedAlike (plan other : VaultSpendPlan) : Prop :=
  ∀ first ∈ plan.inputs, ∀ second ∈ plan.inputs, ∀ third ∈ other.inputs, ∀ fourth ∈ other.inputs,
    SameOutput first third → SameOutput second fourth →
      Vault.compareInputs first second = Vault.compareInputs third fourth

instance (plan other : VaultSpendPlan) : Decidable (OrderedAlike plan other) :=
  inferInstanceAs (Decidable (∀ first ∈ plan.inputs, _))

section Orders

variable (checked : PlanChecked crypto.toCrypto plan) (otherChecked : PlanChecked crypto.toCrypto other)
  (same : plan.canonicalizedForHash = other.canonicalizedForHash)
  (apart : plan.inputs.Pairwise fun left right => ¬ SameOutput left right)

include checked otherChecked same apart

theorem normalized_sorted_eq (alike : OrderedAlike plan other) :
    (sortedInputs plan.inputs).map VaultInput.normalized = (sortedInputs other.inputs).map VaultInput.normalized := by
  have distinct : (plan.inputs.map VaultInput.normalized).Nodup := by
    apply List.pairwise_map.mpr
    exact apart.imp fun different equal => different (sameOutput_of_normalized equal)
  apply (map_sortBy_eq_iff Vault.compareInputs (perm_of_canonical same) distinct (separated_inputs checked)
    (separated_inputs otherChecked)).mpr
  intro a aMember b bMember c cMember d dMember first second
  exact alike a aMember b bMember c cMember d dMember (sameOutput_of_normalized first) (sameOutput_of_normalized second)

private theorem unsignedTransaction_eq
    (caseless : ∀ text, crypto.xOnlyPublicKeyFromStr (toAsciiLowercase text) = crypto.xOnlyPublicKeyFromStr text)
    (alike : OrderedAlike plan other) : unsignedTransaction crypto plan = unsignedTransaction crypto other := by
  have inputs : ∀ {raw : VaultSpendPlan}, PlanChecked crypto.toCrypto raw → (unsignedTransaction crypto raw).input =
      ((sortedInputs raw.inputs).map VaultInput.normalized).map unsignedTxIn := by
    intro raw rawChecked
    rw [unsignedTransaction, List.map_map]
    apply List.map_congr_left
    intro input member
    rw [Function.comp_apply, unsignedTxIn, unsignedTxIn,
      outPointOf_normalized (rawChecked.txids input (mem_sortedInputs.mp member))]
  have sameInputs : (unsignedTransaction crypto plan).input = (unsignedTransaction crypto other).input := by
    rw [inputs checked, inputs otherChecked, normalized_sorted_eq checked otherChecked same apart alike]
  have sameOutputs := output_eq_of_canonical caseless same
  simp only [unsignedTransaction, Transaction.mk.injEq, true_and] at sameInputs sameOutputs ⊢
  exact ⟨sameInputs, sameOutputs⟩

private theorem prevouts_eq (alike : OrderedAlike plan other) :
    (sortedInputs plan.inputs).map prevoutOf = (sortedInputs other.inputs).map prevoutOf := by
  have prevouts : ∀ inputs : List VaultInput, inputs.map prevoutOf =
      (inputs.map VaultInput.normalized).map prevoutOf := by
    intro inputs
    rw [List.map_map]
    apply List.map_congr_left
    exact fun input _ => (prevoutOf_normalized input).symm
  rw [prevouts, prevouts (sortedInputs other.inputs), normalized_sorted_eq checked otherChecked same apart alike]

private theorem orderedAlike_of_input_eq
    (inputs : (unsignedTransaction crypto plan).input = (unsignedTransaction crypto other).input) :
    OrderedAlike plan other := by
  have outPoints : ∀ {raw : VaultSpendPlan}, PlanChecked crypto.toCrypto raw →
      (raw.inputs.map VaultInput.normalized).map outPointOf = raw.inputs.map outPointOf := by
    intro raw rawChecked
    rw [List.map_map]
    apply List.map_congr_left
    exact fun input member => outPointOf_normalized (rawChecked.txids input member)
  have permuted : (plan.inputs.map outPointOf).Perm (other.inputs.map outPointOf) := by
    rw [← outPoints checked, ← outPoints otherChecked]
    exact (perm_of_canonical same).map outPointOf
  have distinct : (plan.inputs.map outPointOf).Nodup :=
    (spends_perm crypto plan).nodup_iff.mp ((nodup_spends_iff checked).mpr apart)
  have sorted : (sortedInputs plan.inputs).map outPointOf = (sortedInputs other.inputs).map outPointOf := by
    rw [← spends_unsignedTransaction crypto, ← spends_unsignedTransaction crypto]
    exact congrArg (List.map TxIn.previousOutput) inputs
  have alike := (map_sortBy_eq_iff Vault.compareInputs permuted distinct (separated_inputs checked)
    (separated_inputs otherChecked)).mp sorted
  intro a aMember b bMember c cMember d dMember first second
  exact alike a aMember b bMember c cMember d dMember
    ((outPointOf_eq_iff (checked.txids a aMember) (otherChecked.txids c cMember)).mpr first)
    ((outPointOf_eq_iff (checked.txids b bMember) (otherChecked.txids d dMember)).mpr second)

end Orders

/-- What a plan has its signers sign. -/
theorem vaultInputSighashes_eq (crypto : VaultCrypto) (plan : VaultSpendPlan) (internalKey : Digest) :
    vaultInputSighashes crypto (vaultTransactionPlan crypto plan internalKey) =
      .ok ((List.range (unsignedTransaction crypto plan).input.length).map fun inputIndex =>
        hashHex (crypto.tapSighash (unsignedTransaction crypto plan) ((sortedInputs plan.inputs).map prevoutOf)
          inputIndex)) := by
  have prevouts : (vaultTransactionPlan crypto plan internalKey).psbt.inputs.zipIdx.mapM
      (fun input => okOr input.1.witnessUtxo (VaultTxError.missingWitnessUtxo input.2)) =
        .ok ((sortedInputs plan.inputs).map prevoutOf) := by
    have attached : ∀ input ∈ (vaultTransactionPlan crypto plan internalKey).psbt.inputs.zipIdx,
        okOr input.1.witnessUtxo (VaultTxError.missingWitnessUtxo input.2) =
          .ok (input.1.witnessUtxo.getD { value := 0, scriptPubkey := [] }) := by
      rintro ⟨input, index⟩ member
      obtain ⟨given, -, rfl⟩ := List.mem_map.mp (List.fst_mem_of_mem_zipIdx member)
      rfl
    rw [except_mapM_eq_ok attached]
    congr 1
    change List.map
      ((fun input : PsbtInput => input.witnessUtxo.getD { value := 0, scriptPubkey := [] }) ∘ Prod.fst) _ = _
    rw [← List.map_map, List.zipIdx_map_fst]
    simp only [vaultTransactionPlan, List.map_map]
    rfl
  have counts : (vaultTransactionPlan crypto plan internalKey).psbt.inputs.length =
      (vaultTransactionPlan crypto plan internalKey).unsignedTx.input.length := by
    simp only [vaultTransactionPlan, unsignedTransaction, List.length_map]
  rw [vaultInputSighashes, require_of_true counts, except_ok_bind, prevouts]
  rfl

/-- The checks read the remainder's key up to case. -/
theorem remainderParses_canonicalizedForHash
    (caseless : ∀ text, crypto.xOnlyPublicKeyFromStr (toAsciiLowercase text) = crypto.xOnlyPublicKeyFromStr text)
    (raw : VaultSpendPlan) :
    RemainderParses crypto.toCrypto raw.canonicalizedForHash ↔ RemainderParses crypto.toCrypto raw := by
  unfold RemainderParses VaultSpendPlan.canonicalizedForHash
  cases raw.vaultRemainder <;> simp [caseless]

/-- Two valid plans with one hash make one transaction with distinct inputs, and one list of digests to sign, exactly
when the key of the remainder is one and the case of the identifiers hides no input and moves none. -/
theorem plan_hash_identifies_iff (crypto : VaultCrypto) (plan other : VaultSpendPlan)
    (caseless : ∀ text, crypto.xOnlyPublicKeyFromStr (toAsciiLowercase text) = crypto.xOnlyPublicKeyFromStr text)
    (injective : Set.InjOn crypto.spendPlanDigest {plan.canonicalizedForHash, other.canonicalizedForHash})
    (valid : plan.validate crypto.toCrypto = .ok ()) (otherValid : other.validate crypto.toCrypto = .ok ())
    (hashes : plan.planHash crypto = other.planHash crypto) :
    (∃ txPlan otherTxPlan sighashes, buildVaultPsbt crypto plan = .ok txPlan ∧
      buildVaultPsbt crypto other = .ok otherTxPlan ∧ txPlan.unsignedTx = otherTxPlan.unsignedTx ∧
      vaultInputSighashes crypto txPlan = .ok sighashes ∧ vaultInputSighashes crypto otherTxPlan = .ok sighashes ∧
      txPlan.unsignedTx.spends.Nodup) ↔
    RemainderParses crypto.toCrypto plan ∧ (plan.inputs.Pairwise fun left right => ¬ SameOutput left right) ∧
      OrderedAlike plan other := by
  have same : plan.canonicalizedForHash = other.canonicalizedForHash :=
    injective (.inl rfl) (.inr rfl) (hashHex_injective hashes)
  have checked := planChecked_of_validate valid
  have otherChecked := planChecked_of_validate otherValid
  obtain ⟨internalKey, lower, -⟩ := checked.keyed
  obtain ⟨otherKey, otherLower, -⟩ := otherChecked.keyed
  have keyed := (caseless plan.frostGroupKeyXonly).symm.trans lower
  have otherKeyed := (caseless other.frostGroupKeyXonly).symm.trans otherLower
  have parses : RemainderParses crypto.toCrypto plan ↔ RemainderParses crypto.toCrypto other := by
    rw [← remainderParses_canonicalizedForHash caseless plan, same, remainderParses_canonicalizedForHash caseless]
  constructor
  · rintro ⟨_, _, sighashes, first, second, transactions, -, -, distinct⟩
    obtain ⟨parsed, rfl⟩ := (buildVaultPsbt_eq_ok valid keyed lower).mp first
    obtain ⟨-, rfl⟩ := (buildVaultPsbt_eq_ok otherValid otherKeyed otherLower).mp second
    have apart := (nodup_spends_iff checked).mp distinct
    exact ⟨parsed, apart, orderedAlike_of_input_eq checked otherChecked same apart
      (congrArg Transaction.input transactions)⟩
  · rintro ⟨parsed, apart, alike⟩
    have transactions := unsignedTransaction_eq checked otherChecked same apart caseless alike
    have prevouts := prevouts_eq checked otherChecked same apart alike
    refine ⟨_, _, _, (buildVaultPsbt_eq_ok valid keyed lower).mpr ⟨parsed, rfl⟩,
      (buildVaultPsbt_eq_ok otherValid otherKeyed otherLower).mpr ⟨parses.mp parsed, rfl⟩, transactions,
      vaultInputSighashes_eq crypto plan internalKey, ?_, (nodup_spends_iff checked).mpr apart⟩
    rw [vaultInputSighashes_eq crypto other otherKey, transactions, prevouts]

end Hashes

namespace VaultSample

def pairPlan (inputs : List VaultInput) : VaultSpendPlan := { rotationPlan with inputs }

/-- The same input with its texts in upper case. -/
def shout (input : VaultInput) : VaultInput :=
  { input with txid := input.txid.map Char.toUpper, scriptPubkeyHex := input.scriptPubkeyHex.map Char.toUpper }

/-- The rotation in upper case and in the opposite order. -/
def shoutedPair : VaultSpendPlan :=
  { pairPlan [shout (secondInput (0xbb * 2 ^ 248)), shout (firstInput (0xaa * 2 ^ 248))] with
    frostGroupKeyXonly := epochKey.map Char.toUpper }

def lowerPair : VaultSpendPlan := pairPlan [firstInput (0xa1 * 2 ^ 248), secondInput (0xb0 * 2 ^ 248)]

/-- Only the second identifier is in upper case, and so comes first. -/
def mixedPair : VaultSpendPlan := pairPlan [firstInput (0xa1 * 2 ^ 248), shout (secondInput (0xb0 * 2 ^ 248))]

def plans : List (VaultSpendPlan × Text) :=
  (lowerPair, hexText 64 0xda96a5c11619268e40175938a5a2c1802d3632bbc855947e736a6239ba849b27) :: rotationPlans

def sighashes : List ((Transaction × List TxOut × ℕ) × Text) :=
  let transaction := unsignedTransaction (cryptoOf [] []) rotationPlan
  let prevouts := rotationPlan.inputs.map prevoutOf
  [((transaction, prevouts, 0), hexText 64 0x4a1eb1b45363af9dd8f9e9fd2b8bcd0d8fbbf759ac070fcba94d9a3bd8271ac1),
    ((transaction, prevouts, 1), hexText 64 0x1b4f12e5cdf07afe027e4c2367c3bd5cb3fc1dd3912bc557a85ed7378cda55e2)]

def pairVaultCrypto : VaultCrypto := cryptoOf plans sighashes

private theorem cryptoOf_caseless (plans : List (VaultSpendPlan × Text))
    (sighashes : List ((Transaction × List TxOut × ℕ) × Text))
    (text : Text) : (cryptoOf plans sighashes).xOnlyPublicKeyFromStr (toAsciiLowercase text) =
      (cryptoOf plans sighashes).xOnlyPublicKeyFromStr text := by
  simp only [cryptoOf, toAsciiLowercase_idem]

end VaultSample

open VaultSample in
theorem plan_hash_identifies_shouted :
    rotationPlan.planHash pairVaultCrypto = shoutedPair.planHash pairVaultCrypto ∧
      ∃ txPlan otherTxPlan, buildVaultPsbt pairVaultCrypto rotationPlan = .ok txPlan ∧
        buildVaultPsbt pairVaultCrypto shoutedPair = .ok otherTxPlan ∧ txPlan.unsignedTx = otherTxPlan.unsignedTx := by
  have same : rotationPlan.canonicalizedForHash = shoutedPair.canonicalizedForHash := by decide
  have hashes : rotationPlan.planHash pairVaultCrypto = shoutedPair.planHash pairVaultCrypto := by
    rw [VaultSpendPlan.planHash, VaultSpendPlan.planHash, same]
  have injective : Set.InjOn pairVaultCrypto.spendPlanDigest
      {rotationPlan.canonicalizedForHash, shoutedPair.canonicalizedForHash} := by
    rw [same, Set.pair_eq_singleton]
    exact Set.injOn_singleton _ _
  have parses : RemainderParses pairVaultCrypto.toCrypto rotationPlan := by
    intro remainder member
    cases member
    exact ⟨Digest.ofHex nextKey, by decide⟩
  obtain ⟨txPlan, otherTxPlan, -, first, second, transactions, -⟩ :=
    (plan_hash_identifies_iff pairVaultCrypto rotationPlan shoutedPair (cryptoOf_caseless _ _) injective (by decide)
      (by decide) hashes).mpr ⟨parses, by decide, by decide⟩
  exact ⟨hashes, txPlan, otherTxPlan, first, second, transactions⟩

open VaultSample in
/-- The case of one identifier swaps the inputs: two transactions for one hash. -/
theorem one_hash_two_transactions :
    lowerPair.validate pairVaultCrypto.toCrypto = .ok () ∧ mixedPair.validate pairVaultCrypto.toCrypto = .ok () ∧
      lowerPair.planHash pairVaultCrypto = mixedPair.planHash pairVaultCrypto ∧
      ∃ txPlan otherTxPlan, buildVaultPsbt pairVaultCrypto lowerPair = .ok txPlan ∧
        buildVaultPsbt pairVaultCrypto mixedPair = .ok otherTxPlan ∧ txPlan.unsignedTx ≠ otherTxPlan.unsignedTx := by
  refine ⟨by decide, by decide, by decide,
    vaultTransactionPlan pairVaultCrypto lowerPair (Digest.ofHex epochKey),
    vaultTransactionPlan pairVaultCrypto mixedPair (Digest.ofHex epochKey), ?_⟩
  decide

end P2PoolBTC.Soundness
