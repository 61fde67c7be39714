import P2PoolBTC.Soundness.VaultPlans

/-! # Sizes of vault transactions

The fee of a withdrawal is charged for an estimated size. The estimate counts one byte for the number of inputs, one
for the number of outputs, and no remainder; the signed transaction has what it has.
-/

namespace P2PoolBTC.Soundness

open Math Model.Core Std

/-! ## The size of a signed transaction -/

/-- A transaction with one signature on each input. -/
def withSignatures (transaction : Transaction) (signatures : List (List UInt8)) : Transaction :=
  { transaction with
    input := List.zipWith (fun input signature => { input with witness := [signature] }) transaction.input signatures }

/-- A quarter of the weight, rounded up. -/
def virtualSize (transaction : Transaction) : ℕ := (transaction.weight + 3) / 4

section Sizes

variable {transaction : Transaction} {signatures : List (List UInt8)}

/-- Each signature adds its own length and two counts. -/
theorem signed_inputs (inputs : List TxIn) (signatures : List (List UInt8)) (count : signatures.length = inputs.length)
    (sizes : ∀ signature ∈ signatures, signature.length = 64) :
    let signed := List.zipWith (fun (input : TxIn) signature => { input with witness := [signature] }) inputs signatures
    signed.length = inputs.length ∧ signed.map TxIn.baseSize = inputs.map TxIn.baseSize ∧
      (signed.map TxIn.witnessSize).sum = 66 * inputs.length := by
  induction inputs generalizing signatures with
  | nil => simp
  | cons input rest ih =>
    cases signatures with
    | nil => cases count
    | cons signature others =>
      rw [List.forall_mem_cons] at sizes
      obtain ⟨length, bases, witnesses⟩ := ih others (Nat.succ.inj count) sizes.2
      refine ⟨?_, ?_, ?_⟩
      · simp only [List.zipWith_cons_cons, List.length_cons, length]
      · simp only [List.zipWith_cons_cons, List.map_cons, bases]
        rfl
      · have one : TxIn.witnessSize { input with witness := [signature] } = 66 := by
          simp [TxIn.witnessSize, varIntSize, sizes.1]
        simp only [List.zipWith_cons_cons, List.map_cons, List.sum_cons, witnesses, one, List.length_cons]
        omega

private theorem weight_withSignatures (nonempty : transaction.input ≠ [])
    (count : signatures.length = transaction.input.length) (sizes : ∀ signature ∈ signatures, signature.length = 64) :
    (withSignatures transaction signatures).weight =
      4 * transaction.baseSize + 2 + 66 * transaction.input.length := by
  obtain ⟨length, bases, witnesses⟩ := signed_inputs transaction.input signatures count sizes
  have base : (withSignatures transaction signatures).baseSize = transaction.baseSize := by
    simp only [Transaction.baseSize, withSignatures, length, bases]
  have segwit : (withSignatures transaction signatures).usesSegwitSerialization = true := by
    unfold Transaction.usesSegwitSerialization withSignatures
    cases inputs : transaction.input with
    | nil => exact absurd inputs nonempty
    | cons input rest =>
      cases signatures with
      | nil =>
        rw [inputs] at count
        cases count
      | cons signature others => rfl
  rw [Transaction.weight, Transaction.totalSize, segwit, base, if_pos rfl]
  change 3 * transaction.baseSize + (transaction.baseSize + (2 + (List.map TxIn.witnessSize
    (List.zipWith _ transaction.input signatures)).sum)) = _
  rw [witnesses]
  omega

/-! Outputs to the two kinds of scripts have known sizes. -/

theorem length_of_isP2wpkh {script : List UInt8} (matched : isP2wpkh script = true) : script.length = 22 := by
  unfold isP2wpkh at matched
  split at matched
  · rw [beq_iff_eq] at matched
    simp only [List.length_cons, matched]
  · cases matched

theorem length_of_isP2tr {script : List UInt8} (matched : isP2tr script = true) : script.length = 34 := by
  unfold isP2tr at matched
  split at matched
  · rw [beq_iff_eq] at matched
    simp only [List.length_cons, matched]
  · cases matched

private theorem size_withdrawalOut {output : WithdrawalOutput}
    (matched : output.outputKind.matchesScript (scriptOf output.destinationScriptHex) = true) :
    (withdrawalOut output).size = if output.outputKind = .p2wpkh then 31 else 43 := by
  rw [TxOut.size, withdrawalOut]
  cases kind : output.outputKind with
  | p2wpkh =>
    rw [kind] at matched
    rw [length_of_isP2wpkh matched]
    rfl
  | p2tr =>
    rw [kind] at matched
    rw [length_of_isP2tr matched]
    rfl

theorem isP2tr_newP2tr (crypto : VaultCrypto) (internalKey : Digest) : isP2tr (crypto.newP2tr internalKey) = true := by
  simp [isP2tr, VaultCrypto.newP2tr, (crypto.tapTweakedKey internalKey).size]

private theorem size_remainderOut (crypto : VaultCrypto) (remainder : VaultRemainderOutput) :
    (remainderOut crypto remainder).size = 43 := by
  rw [TxOut.size, remainderOut, length_of_isP2tr (isP2tr_newP2tr crypto _)]
  rfl

private theorem sum_sizes {outputs : List WithdrawalOutput}
    (matched : ∀ output ∈ outputs, output.outputKind.matchesScript (scriptOf output.destinationScriptHex) = true) :
    (outputs.map fun output => (withdrawalOut output).size).sum =
      31 * Vault.countKind .p2wpkh outputs + 43 * Vault.countKind .p2tr outputs := by
  induction outputs with
  | nil => rfl
  | cons output rest ih =>
    rw [List.forall_mem_cons] at matched
    rw [List.map_cons, List.sum_cons, ih matched.2, size_withdrawalOut matched.1]
    unfold Vault.countKind
    rw [List.countP_cons, List.countP_cons]
    cases output.outputKind <;> simp <;> omega

end Sizes

/-! ## The estimate and the size -/

private theorem estimateBatchVsize_eq_ok {inputs p2wpkhOutputs p2trOutputs vsize : U64}
    (returned : estimateBatchVsize inputs p2wpkhOutputs p2trOutputs = .ok vsize) :
    vsize.toNat = (21 + 115 * inputs.toNat + 62 * p2wpkhOutputs.toNat + 86 * p2trOutputs.toNat + 1) / 2 := by
  simp only [estimateBatchVsize, except_bind_eq_ok, okOr_eq_ok, checkedMul_eq_some, checkedAdd_eq_some] at returned
  obtain ⟨inputWeight, ofInputs, p2wpkhWeight, ofP2wpkh, p2trWeight, ofP2tr, withInputs, first, withP2wpkh, second,
    total, third, ended⟩ := returned
  cases ended
  have bound := total.isLt
  rw [BitVec.toNat_ofNat, Nat.mod_eq_of_lt (by omega), third, second, first, ofInputs, ofP2wpkh, ofP2tr]
  rfl

section Estimate

variable {crypto : VaultCrypto} {plan : VaultSpendPlan} {batch : WithdrawalBatch}

theorem planWithdrawals_eq (carried : plan.withdrawalBatch = some batch) : planWithdrawals plan = batch.outputs := by
  rw [planWithdrawals, carried]
  rfl

section

variable (checked : PlanChecked crypto.toCrypto plan) (carried : plan.withdrawalBatch = some batch)
include checked carried

/-- Every withdrawal pays more than dust, so their sum bounds their number. -/
theorem length_withdrawals_lt : batch.outputs.length < 2 ^ 64 := by
  have bound := List.card_nsmul_le_sum (batch.outputs.map fun output => output.netAmountSats.toNat) 1 (by
    intro amount listed
    obtain ⟨output, member, rfl⟩ := List.mem_map.mp listed
    have dust := BitVec.le_def.mp (script_of_policy ((checked.batches batch carried).payable output member)).2.2
    have positive : 1 ≤ (dustThreshold output.outputKind).toNat := by cases output.outputKind <;> decide
    omega)
  have fits := checked.fits
  rw [planWithdrawals_eq carried] at fits
  simp only [List.length_map, smul_eq_mul, mul_one] at bound
  omega

/-- The estimate, over the numbers of inputs and of outputs of either kind. -/
theorem estimatedVsize_eq :
    batch.estimatedVsize.toNat = (21 + 115 * plan.inputs.length + 62 * Vault.countKind .p2wpkh batch.outputs +
      86 * Vault.countKind .p2tr batch.outputs + 1) / 2 := by
  have batchChecked := checked.batches batch carried
  have few := length_withdrawals_lt checked carried
  have inputs : plan.inputs.length < 2 ^ 64 := batchChecked.inputs ▸ batch.inputs.isLt
  have kinds := countP_kinds WithdrawalOutput.outputKind batch.outputs
  have count := estimateBatchVsize_eq_ok batchChecked.vsize
  unfold Vault.countKind at count ⊢
  rwa [BitVec.toNat_ofNat, BitVec.toNat_ofNat, BitVec.toNat_ofNat, Nat.mod_eq_of_lt inputs, Nat.mod_eq_of_lt (by omega),
    Nat.mod_eq_of_lt (by omega)] at count

private theorem baseSize_unsignedTransaction :
    (unsignedTransaction crypto plan).baseSize =
      8 + varIntSize plan.inputs.length + 41 * plan.inputs.length +
        varIntSize (batch.outputs.length + plan.vaultRemainder.toList.length) +
        (31 * Vault.countKind .p2wpkh batch.outputs + 43 * Vault.countKind .p2tr batch.outputs) +
        43 * plan.vaultRemainder.toList.length := by
  have inputs : ((sortedInputs plan.inputs).map fun input => (unsignedTxIn input).baseSize).sum =
      41 * plan.inputs.length := by
    have each : ∀ input, (unsignedTxIn input).baseSize = 41 := fun _ => rfl
    simp only [each, List.map_const', sortedInputs, length_sortBy, List.sum_replicate, smul_eq_mul]
    omega
  have withdrawals : ((Vault.normalizeWithdrawalOutputs batch.outputs).map fun output =>
      (withdrawalOut output).size).sum =
      31 * Vault.countKind .p2wpkh batch.outputs + 43 * Vault.countKind .p2tr batch.outputs := by
    rw [Vault.normalizeWithdrawalOutputs, ((sortBy_perm _ batch.outputs).map _).sum_eq]
    apply sum_sizes
    intro output member
    exact (script_of_policy ((checked.batches batch carried).payable output member)).2.1
  have remainder : ((plan.vaultRemainder.map (remainderOut crypto)).toList.map TxOut.size).sum =
      43 * plan.vaultRemainder.toList.length := by
    cases plan.vaultRemainder with
    | none => rfl
    | some remainder => simp [size_remainderOut]
  have inputCount : (sortedInputs plan.inputs).length = plan.inputs.length := length_sortBy _ _
  have withdrawalCount : (Vault.normalizeWithdrawalOutputs batch.outputs).length = batch.outputs.length :=
    length_sortBy _ _
  have remainderCount : (plan.vaultRemainder.map (remainderOut crypto)).toList.length =
      plan.vaultRemainder.toList.length := by
    cases plan.vaultRemainder <;> rfl
  simp only [Transaction.baseSize, unsignedTransaction, planWithdrawals_eq carried, List.length_map, List.length_append,
    List.map_append, List.map_map, List.sum_append, Function.comp_def, inputs, withdrawals, remainder, inputCount,
    withdrawalCount, remainderCount]
  omega

end

/-- What the estimate leaves out: longer counts and the remainder. -/
def unestimated (inputs outputs remainders : ℕ) : ℕ :=
  (varIntSize inputs - 1) + (varIntSize (outputs + remainders) - 1) + 43 * remainders

theorem one_le_varIntSize (value : ℕ) : 1 ≤ varIntSize value := by
  unfold varIntSize
  split_ifs <;> omega

private theorem varIntSize_eq_one_iff (value : ℕ) : varIntSize value = 1 ↔ value < 253 := by
  unfold varIntSize
  split_ifs <;> omega

private theorem virtualSize_eq (checked : PlanChecked crypto.toCrypto plan)
    (carried : plan.withdrawalBatch = some batch)
    {signatures : List (List UInt8)} (count : signatures.length = (unsignedTransaction crypto plan).input.length)
    (sizes : ∀ signature ∈ signatures, signature.length = 64) :
    virtualSize (withSignatures (unsignedTransaction crypto plan) signatures) = batch.estimatedVsize.toNat +
      unestimated plan.inputs.length batch.outputs.length plan.vaultRemainder.toList.length := by
  have inputs : (unsignedTransaction crypto plan).input.length = plan.inputs.length := by
    rw [unsignedTransaction, List.length_map]
    exact length_sortBy _ _
  have nonempty : (unsignedTransaction crypto plan).input ≠ [] := by
    rw [← List.length_pos_iff, inputs, List.length_pos_iff]
    exact checked.nonempty
  have first := one_le_varIntSize plan.inputs.length
  have second := one_le_varIntSize (batch.outputs.length + plan.vaultRemainder.toList.length)
  rw [virtualSize, weight_withSignatures nonempty count sizes, inputs, baseSize_unsignedTransaction checked carried,
    estimatedVsize_eq checked carried, unestimated]
  omega

private theorem unestimated_eq_zero_iff {inputs outputs remainders : ℕ} :
    unestimated inputs outputs remainders = 0 ↔ remainders = 0 ∧ inputs < 253 ∧ outputs < 253 := by
  have first := one_le_varIntSize inputs
  have second := one_le_varIntSize (outputs + remainders)
  rw [← varIntSize_eq_one_iff inputs, ← varIntSize_eq_one_iff outputs, unestimated]
  constructor
  · intro none
    obtain rfl : remainders = 0 := by omega
    rw [Nat.add_zero outputs] at none second
    omega
  · rintro ⟨rfl, inputCount, outputCount⟩
    rw [Nat.add_zero outputs]
    omega

/-- A withdrawal keeps the batch and the remainder it is given, up to order and case. -/
theorem ofWithdrawalBatch_shape {crypto : Crypto} {epoch : VaultEpoch} {inputs : List VaultInput}
    {vaultRemainder : Option VaultRemainderOutput}
    (made : VaultSpendPlan.ofWithdrawalBatch crypto epoch inputs batch vaultRemainder = .ok plan) :
    plan.inputs.length = inputs.length ∧ plan.withdrawalBatch = some (Vault.orderedBatch batch) ∧
      plan.vaultRemainder = vaultRemainder.map fun remainder =>
        { remainder with frostGroupKeyXonly := toAsciiLowercase remainder.frostGroupKeyXonly } := by
  simp only [VaultSpendPlan.ofWithdrawalBatch, except_bind_eq_ok] at made
  obtain ⟨_, -, normal, normalized, _, -, ended⟩ := made
  cases ended
  obtain ⟨-, -, rfl⟩ := normalized_eq_ok.mp normalized
  refine ⟨?_, rfl, rfl⟩
  simp only [VaultSpendPlan.canonicalizedForHash, Vault.normalizeInputs, length_sortBy, List.length_map]

/-- Withdrawals are never dust; a remainder may be. -/
theorem dust_free_iff (checked : PlanChecked crypto.toCrypto plan) (carried : plan.withdrawalBatch = some batch) :
    (∀ output ∈ (unsignedTransaction crypto plan).output,
      ∃ kind : WithdrawalOutputKind, kind.matchesScript output.scriptPubkey = true ∧
        dustThreshold kind ≤ output.value) ↔
      ∀ remainder ∈ plan.vaultRemainder, p2trDustSats ≤ remainder.amountSats := by
  constructor
  · intro free remainder member
    have listed : remainderOut crypto remainder ∈ (unsignedTransaction crypto plan).output := by
      apply List.mem_append_right
      rw [Option.mem_toList]
      exact Option.mem_map_of_mem _ member
    obtain ⟨kind, matched, enough⟩ := free _ listed
    cases kind with
    | p2wpkh =>
      have short : (remainderOut crypto remainder).scriptPubkey.length = 22 := length_of_isP2wpkh matched
      have long : (remainderOut crypto remainder).scriptPubkey.length = 34 := length_of_isP2tr (isP2tr_newP2tr crypto _)
      omega
    | p2tr => exact enough
  · intro enough output member
    rcases List.mem_append.mp member with withdrawn | kept
    · obtain ⟨withdrawal, listed, rfl⟩ := List.mem_map.mp withdrawn
      rw [planWithdrawals_eq carried] at listed
      have policy := (checked.batches batch carried).payable withdrawal ((mem_sortBy _).mp listed)
      exact ⟨withdrawal.outputKind, (script_of_policy policy).2⟩
    · obtain ⟨remainder, listed, rfl⟩ := Option.mem_map.mp (Option.mem_toList.mp kept)
      exact ⟨.p2tr, isP2tr_newP2tr crypto _, enough remainder listed⟩

/-- A withdrawal pays its fee rate for its whole size and leaves no dust exactly when its remainder is not dust and
either the rate is zero or the estimate leaves nothing out. -/
theorem withdrawal_pays_rate_iff (crypto : VaultCrypto) (epoch : VaultEpoch) (inputs : List VaultInput)
    (batch : WithdrawalBatch) (vaultRemainder : Option VaultRemainderOutput) (plan : VaultSpendPlan)
    (txPlan : VaultTransactionPlan) (signatures : List (List UInt8))
    (made : VaultSpendPlan.ofWithdrawalBatch crypto.toCrypto epoch inputs batch vaultRemainder = .ok plan)
    (built : buildVaultPsbt crypto plan = .ok txPlan) (count : signatures.length = txPlan.unsignedTx.input.length)
    (sizes : ∀ signature ∈ signatures, signature.length = 64) :
    (batch.feeRateSatVb.toNat * virtualSize (withSignatures txPlan.unsignedTx signatures) +
          (txPlan.unsignedTx.output.map fun output => output.value.toNat).sum ≤
        (plan.inputs.map fun input => input.amountSats.toNat).sum ∧
      ∀ output ∈ txPlan.unsignedTx.output, ∃ kind : WithdrawalOutputKind,
        kind.matchesScript output.scriptPubkey = true ∧ dustThreshold kind ≤ output.value) ↔
    (∀ remainder ∈ vaultRemainder, p2trDustSats ≤ remainder.amountSats) ∧
      (batch.feeRateSatVb = 0 ∨ vaultRemainder = none ∧ inputs.length < 253 ∧ batch.outputs.length < 253) := by
  obtain ⟨inputCount, carried, remainders⟩ := ofWithdrawalBatch_shape made
  obtain ⟨raw, -, canonical, valid⟩ :=
    Construction.plan_eq_ok (show (Construction.withdrawalBatch epoch inputs batch vaultRemainder).plan _ =
      .ok plan from made)
  have checked := planChecked_of_validate valid
  obtain ⟨internalKey, lower, -⟩ := checked.keyed
  have parsed : crypto.xOnlyPublicKeyFromStr plan.frostGroupKeyXonly = .ok internalKey := by
    rw [← lower, canonical]
    exact congrArg _ (toAsciiLowercase_idem raw.frostGroupKeyXonly).symm
  obtain ⟨-, rfl⟩ := (buildVaultPsbt_eq_ok valid parsed lower).mp built
  change signatures.length = (unsignedTransaction crypto plan).input.length at count
  have size := virtualSize_eq checked carried count sizes
  have charged := (checked.batches _ carried).fee
  rw [(checked.batches _ carried).total, estimateFeeSats, okOr_eq_ok, checkedMul_eq_some] at charged
  have conserved := checked.conserved
  have paid : batch.feeRateSatVb.toNat * virtualSize (withSignatures (unsignedTransaction crypto plan) signatures) +
      ((unsignedTransaction crypto plan).output.map fun output => output.value.toNat).sum ≤
        (plan.inputs.map fun input => input.amountSats.toNat).sum ↔
      batch.feeRateSatVb = 0 ∨ vaultRemainder = none ∧ inputs.length < 253 ∧ batch.outputs.length < 253 := by
    have outputCount : (Vault.orderedBatch batch).outputs.length = batch.outputs.length := length_sortBy _ _
    have remainderCount : plan.vaultRemainder.toList.length = 0 ↔ vaultRemainder = none := by
      rw [remainders]
      cases vaultRemainder <;> simp
    have free : batch.feeRateSatVb = 0 ↔ batch.feeRateSatVb.toNat = 0 := BitVec.toNat_inj.symm
    rw [free, ← remainderCount, ← inputCount, ← outputCount, ← unestimated_eq_zero_iff, ← Nat.mul_eq_zero, size,
      Nat.mul_add, Nat.mul_comm _ (Vault.orderedBatch batch).estimatedVsize.toNat]
    change (Vault.orderedBatch batch).estimatedVsize.toNat *
      (Vault.orderedBatch batch).feeRateSatVb.toNat + _ + _ ≤ _ ↔ _
    rw [← charged]
    omega
  have dust : (∀ remainder ∈ plan.vaultRemainder, p2trDustSats ≤ remainder.amountSats) ↔
      ∀ remainder ∈ vaultRemainder, p2trDustSats ≤ remainder.amountSats := by
    rw [remainders]
    cases vaultRemainder <;> simp
  rw [← dust, ← dust_free_iff checked carried, ← paid]
  exact And.comm

end Estimate

namespace VaultSample

/-- One withdrawal at five satoshis for a virtual byte, from one input. -/
def batch : WithdrawalBatch :=
  { inputs := 1
    feeRateSatVb := 5
    estimatedVsize := 99
    totalFeeSats := 495
    outputs := [
      { requestId := "withdrawal-1".toList
        destinationScriptHex := hexText 44 0x00141111111111111111111111111111111111111111
        outputKind := .p2wpkh
        grossAmountSats := 20000
        feeSats := 495
        netAmountSats := 19505 }] }

def change (amountSats : Sats) : VaultRemainderOutput :=
  { epochId := 5, frostGroupKeyXonly := epochKey, amountSats, kind := .sameEpochChange }

/-- The withdrawal from an input of the given value, with what is left over. -/
def withdrawalPlan (amountSats : Sats) (vaultRemainder : Option VaultRemainderOutput) : VaultSpendPlan :=
  { epochId := 5
    frostGroupKeyXonly := epochKey
    inputs := [inputOf (hexText 64 (0xaa * 2 ^ 248)) 0 amountSats]
    withdrawalBatch := some batch
    txFeeSats := 495
    vaultRemainder }

def withdrawalCrypto : VaultCrypto :=
  cryptoOf [
    (withdrawalPlan 20000 none, hexText 64 0x3519442169a32ae9ea5f1ca2333f9dc2cddc05d57f2570cd51b57756f038b66b),
    (withdrawalPlan 20001 (some (change 1)),
      hexText 64 0x2ede66ba0d48b7c2509cc2a56859796240b4386ad6e656bdd3600555d718c8cd)] []

end VaultSample

open VaultSample in
theorem withdrawal_pays_rate_without_change :
    ∃ txPlan, buildVaultPsbt withdrawalCrypto (withdrawalPlan 20000 none) = .ok txPlan ∧
      5 * virtualSize (withSignatures txPlan.unsignedTx [List.replicate 64 0]) +
        (txPlan.unsignedTx.output.map fun output => output.value.toNat).sum ≤ 20000 := by
  have made : VaultSpendPlan.ofWithdrawalBatch withdrawalCrypto.toCrypto epoch (withdrawalPlan 20000 none).inputs batch
      none = .ok (withdrawalPlan 20000 none) := by decide
  have built : buildVaultPsbt withdrawalCrypto (withdrawalPlan 20000 none) =
      .ok (vaultTransactionPlan withdrawalCrypto (withdrawalPlan 20000 none) (Digest.ofHex epochKey)) := by decide
  have rate := (withdrawal_pays_rate_iff withdrawalCrypto epoch _ batch none _ _ [List.replicate 64 0] made built
    (by decide) (by decide)).mpr ⟨by simp, .inr ⟨rfl, by decide, by decide⟩⟩
  exact ⟨_, built, rate.1⟩

open VaultSample in
/-- With one satoshi of change, the change is dust, and nobody pays for its output. -/
theorem unpaid_dust_change :
    ∃ txPlan, VaultSpendPlan.ofWithdrawalBatch withdrawalCrypto.toCrypto epoch
        [inputOf (hexText 64 (0xaa * 2 ^ 248)) 0 20001] batch (some (change 1)) =
          .ok (withdrawalPlan 20001 (some (change 1))) ∧
      buildVaultPsbt withdrawalCrypto (withdrawalPlan 20001 (some (change 1))) = .ok txPlan ∧
      virtualSize (withSignatures txPlan.unsignedTx [List.replicate 64 0]) = 142 ∧
      20001 < 5 * 142 + (txPlan.unsignedTx.output.map fun output => output.value.toNat).sum ∧
      ∃ output ∈ txPlan.unsignedTx.output, isP2tr output.scriptPubkey = true ∧ output.value < p2trDustSats := by
  refine ⟨vaultTransactionPlan withdrawalCrypto (withdrawalPlan 20001 (some (change 1))) (Digest.ofHex epochKey), ?_⟩
  decide

end P2PoolBTC.Soundness
