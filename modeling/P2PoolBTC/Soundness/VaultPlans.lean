import P2PoolBTC.Math.CaseFolding
import P2PoolBTC.Model.Core.VaultTransaction

/-! # From vault plans to transactions

A plan that passes its checks determines the transaction built from it: the inputs in order, the withdrawals in
order, and the remainder. Building fails only on a remainder whose key is hexadecimal but no public key.
-/

namespace P2PoolBTC.Soundness

open Math Model.Core Std

variable {batch : WithdrawalBatch}

/-! ## What the checks of a plan establish -/

private theorem forM_option_eq_ok {ε α : Type} {check : α → Except ε Unit} {entry : Option α} :
    entry.forM check = .ok () ↔ ∀ value ∈ entry, check value = .ok () := by
  cases entry with
  | none => simp [pure, Except.pure]
  | some value => simp

/-- The withdrawals that a plan pays. -/
def planWithdrawals (plan : VaultSpendPlan) : List WithdrawalOutput :=
  (plan.withdrawalBatch.map WithdrawalBatch.outputs).getD []

theorem validateXonlyHex_eq_ok {value normalized : Text} :
    Vault.validateXonlyHex value = .ok normalized ↔ IsHexOfLength value 64 ∧ normalized = toAsciiLowercase value := by
  simp only [Vault.validateXonlyHex, except_bind_eq_ok, require_eq_ok, isHexOfLength_toAsciiLowercase]
  constructor
  · rintro ⟨_, digits, ended⟩
    cases ended
    exact ⟨digits, rfl⟩
  · rintro ⟨digits, rfl⟩
    exact ⟨(), digits, rfl⟩

/-- What the checks of the batch of a plan establish. -/
structure BatchChecked (crypto : Crypto) (plan : VaultSpendPlan) (batch : WithdrawalBatch) : Prop where
  nonempty : batch.outputs ≠ []
  inputs : batch.inputs.toNat = plan.inputs.length
  payable : ∀ output ∈ batch.outputs, validateDestinationScriptPolicy crypto output.requestId
    output.destinationScriptHex output.outputKind output.netAmountSats = .ok ()
  distinct : (batch.outputs.map WithdrawalOutput.requestId).Nodup
  vsize : estimateBatchVsize (BitVec.ofNat 64 plan.inputs.length)
    (BitVec.ofNat 64 (Vault.countKind .p2wpkh batch.outputs)) (BitVec.ofNat 64 (Vault.countKind .p2tr batch.outputs)) =
      .ok batch.estimatedVsize
  fee : estimateFeeSats batch.estimatedVsize batch.feeRateSatVb = .ok batch.totalFeeSats
  total : batch.totalFeeSats = plan.txFeeSats

private theorem batchChecked_of_validate {crypto : Crypto} {plan : VaultSpendPlan}
    (valid : plan.validateBatch crypto batch = .ok ()) : BatchChecked crypto plan batch := by
  simp only [VaultSpendPlan.validateBatch, VaultSpendPlan.validateWithdrawalBatch, except_bind_eq_ok, require_eq_ok,
    mapError_eq_ok] at valid
  obtain ⟨_, ⟨_, nonempty, _, inputs, _, outputs, vsize, estimated, _, same, fee, charged, total⟩, _, paid, -⟩ := valid
  obtain ⟨checks, distinct, -⟩ := (distinctForM_eq_ok _ _ _).mp outputs
  refine ⟨nonempty, inputs, ?_, distinct, same ▸ estimated, ?_, paid⟩
  · intro output member
    have checked := checks output member
    simp only [Vault.validateWithdrawalOutput, except_bind_eq_ok, require_eq_ok, mapError_eq_ok] at checked
    obtain ⟨_, -, _, -, policy⟩ := checked
    exact policy
  · rw [same, total]
    exact charged

/-- What the checks of a plan establish. -/
structure PlanChecked (crypto : Crypto) (plan : VaultSpendPlan) : Prop where
  nonempty : plan.inputs ≠ []
  keyed : ∃ internalKey, crypto.xOnlyPublicKeyFromStr (toAsciiLowercase plan.frostGroupKeyXonly) = .ok internalKey ∧
    ∀ input ∈ plan.inputs, toAsciiLowercase input.scriptPubkeyHex = crypto.newP2trScriptHex internalKey
  txids : ∀ input ∈ plan.inputs, IsHexOfLength input.txid 64
  distinct : (plan.inputs.map fun input => (input.txid, input.vout)).Nodup
  batches : ∀ batch ∈ plan.withdrawalBatch, BatchChecked crypto plan batch
  remainders : ∀ remainder ∈ plan.vaultRemainder, plan.validateRemainder remainder = .ok ()
  balanced : (plan.inputs.map fun input => input.amountSats.toNat).sum =
    ((planWithdrawals plan).map fun output => output.netAmountSats.toNat).sum + plan.txFeeSats.toNat +
      plan.vaultRemainderSats.toNat
  fits : ((planWithdrawals plan).map fun output => output.netAmountSats.toNat).sum < 2 ^ 64

private theorem withdrawalNetTotalSats_eq_ok {plan : VaultSpendPlan} {total : Sats}
    (returned : plan.withdrawalNetTotalSats = .ok total) :
    total.toNat = ((planWithdrawals plan).map fun output => output.netAmountSats.toNat).sum := by
  unfold VaultSpendPlan.withdrawalNetTotalSats at returned
  unfold planWithdrawals
  cases batch : plan.withdrawalBatch with
  | none =>
    rw [batch] at returned
    cases returned
    rfl
  | some batch =>
    simp only [batch, Vault.sumSats, okOr_eq_ok, checkedSum_eq_some, List.map_map] at returned
    exact returned

theorem planChecked_of_validate {crypto : Crypto} {plan : VaultSpendPlan} (valid : plan.validate crypto = .ok ()) :
    PlanChecked crypto plan := by
  simp only [VaultSpendPlan.validate, VaultSpendPlan.inputTotalSats, Vault.sumSats, except_bind_eq_ok, require_eq_ok,
    okOr_eq_ok, checkedSum_eq_some] at valid
  obtain ⟨_, nonempty, script, keyed, _, inputs, _, apart, _, -, net, nets, _, batches, _, remainders, spend, spends,
    total, totals, balanced⟩ := valid
  simp only [Vault.vaultScriptPubkeyHex, except_bind_eq_ok, mapError_eq_ok] at keyed
  obtain ⟨normalized, hexadecimal, internalKey, parsed, ended⟩ := keyed
  cases ended
  obtain ⟨-, rfl⟩ := validateXonlyHex_eq_ok.mp hexadecimal
  have checks : ∀ input ∈ plan.inputs, IsHexOfLength input.txid 64 ∧
      toAsciiLowercase input.scriptPubkeyHex = crypto.newP2trScriptHex internalKey := by
    intro input member
    have checked := forM_eq_ok.mp inputs input member
    simp only [Vault.validateInput, Vault.validateInputTxid, Vault.validateScriptHex, except_bind_eq_ok, require_eq_ok,
      isHexOfLength_toAsciiLowercase, okOr_eq_ok] at checked
    obtain ⟨_, ⟨_, txid, -⟩, script, ⟨_, -, ended⟩, _, same, -⟩ := checked
    cases ended
    exact ⟨txid, same⟩
  refine ⟨nonempty, ⟨internalKey, parsed, fun input member => (checks input member).2⟩,
    fun input member => (checks input member).1, ((distinctForM_eq_ok _ _ _).mp apart).2.1,
    fun batch member => batchChecked_of_validate (forM_option_eq_ok.mp batches batch member),
    forM_option_eq_ok.mp remainders, ?_, ?_⟩
  · rw [balanced, spends, List.map_map] at totals
    rw [← withdrawalNetTotalSats_eq_ok nets]
    simp only [List.map_cons, List.map_nil, List.sum_cons, List.sum_nil] at totals
    change _ = (plan.inputs.map fun input => input.amountSats.toNat).sum at totals
    omega
  · rw [← withdrawalNetTotalSats_eq_ok nets]
    exact net.isLt

theorem PlanChecked.nodup_requests {crypto : Crypto} {plan : VaultSpendPlan} (checked : PlanChecked crypto plan) :
    ((planWithdrawals plan).map WithdrawalOutput.requestId).Nodup := by
  unfold planWithdrawals
  cases carried : plan.withdrawalBatch with
  | none => exact List.nodup_nil
  | some batch => exact (checked.batches batch carried).distinct

/-! ## The transaction of a plan -/

/-- The bytes of a script. -/
def scriptOf (scriptHex : Text) : List UInt8 := (hexDecode? scriptHex).getD []

/-- The output that an input spends. -/
def outPointOf (input : VaultInput) : OutPoint := ⟨(txidFromStr? input.txid).getD Digest.zero, input.vout⟩

def unsignedTxIn (input : VaultInput) : TxIn :=
  { previousOutput := outPointOf input
    scriptSig := []
    sequence := enableRbfNoLocktime
    witness := [] }

def prevoutOf (input : VaultInput) : TxOut :=
  { value := input.amountSats, scriptPubkey := scriptOf input.scriptPubkeyHex }

def withdrawalOut (output : WithdrawalOutput) : TxOut :=
  { value := output.netAmountSats, scriptPubkey := scriptOf output.destinationScriptHex }

def remainderOut (crypto : VaultCrypto) (remainder : VaultRemainderOutput) : TxOut :=
  { value := remainder.amountSats
    scriptPubkey := crypto.newP2tr
      ((crypto.xOnlyPublicKeyFromStr remainder.frostGroupKeyXonly).toOption.getD Digest.zero) }

/-- The inputs in order, the withdrawals in order, and the remainder. -/
def unsignedTransaction (crypto : VaultCrypto) (plan : VaultSpendPlan) : Transaction :=
  { version := 2
    lockTime := 0
    input := (sortedInputs plan.inputs).map unsignedTxIn
    output := (Vault.normalizeWithdrawalOutputs (planWithdrawals plan)).map withdrawalOut ++
      (plan.vaultRemainder.map (remainderOut crypto)).toList }

def vaultTransactionPlan (crypto : VaultCrypto) (plan : VaultSpendPlan) (internalKey : Digest) : VaultTransactionPlan :=
  { spendPlanHash := plan.planHash crypto
    vaultScriptPubkey := crypto.newP2tr internalKey
    unsignedTx := unsignedTransaction crypto plan
    psbt :=
      { unsignedTx := unsignedTransaction crypto plan
        inputs := (sortedInputs plan.inputs).map fun input =>
          { witnessUtxo := some (prevoutOf input), tapInternalKey := some internalKey } } }

/-- The key of the remainder, if there is one, is a public key. -/
def RemainderParses (crypto : Crypto) (plan : VaultSpendPlan) : Prop :=
  ∀ remainder ∈ plan.vaultRemainder, ∃ key, crypto.xOnlyPublicKeyFromStr remainder.frostGroupKeyXonly = .ok key

section Building

variable {crypto : VaultCrypto} {plan : VaultSpendPlan} {internalKey : Digest}

/-- The checks of a script leave its bytes, of the template of its kind. -/
theorem script_of_policy {crypto : Crypto} {requestId destinationScriptHex : Text} {outputKind : WithdrawalOutputKind}
    {netAmountSats : Sats}
    (valid : validateDestinationScriptPolicy crypto requestId destinationScriptHex outputKind netAmountSats = .ok ()) :
    hexDecode? destinationScriptHex = some (scriptOf destinationScriptHex) ∧
      outputKind.matchesScript (scriptOf destinationScriptHex) = true ∧ dustThreshold outputKind ≤ netAmountSats := by
  simp only [validateDestinationScriptPolicy, except_bind_eq_ok, require_eq_ok, okOr_eq_ok] at valid
  obtain ⟨_, -, _, dust, _, -, script, decoded, matched⟩ := valid
  rw [scriptOf, decoded]
  exact ⟨rfl, matched, dust⟩

theorem exists_txid {text : Text} (digits : IsHexOfLength text 64) :
    ∃ txid, txidFromStr? text = some txid ∧ hexDecode? text = some txid.bytes.reverse := by
  have width := digits.1
  obtain ⟨bytes, decoded⟩ := exists_hexDecode? digits.2 (by rw [width])
  have length := byteLength_of_hexDecode? decoded
  have size : bytes.reverse.length = 32 := by
    rw [List.length_reverse]
    omega
  refine ⟨⟨bytes.reverse, size⟩, ?_, ?_⟩
  · simp only [txidFromStr?, decoded, dif_pos size]
  · rw [decoded, List.reverse_reverse]

/-- Inputs spend one output when their texts agree up to case. -/
theorem outPointOf_eq_iff {left right : VaultInput} (leftDigits : IsHexOfLength left.txid 64)
    (rightDigits : IsHexOfLength right.txid 64) :
    outPointOf left = outPointOf right ↔
      toAsciiLowercase left.txid = toAsciiLowercase right.txid ∧ left.vout = right.vout := by
  obtain ⟨leftId, leftParsed, leftDecoded⟩ := exists_txid leftDigits
  obtain ⟨rightId, rightParsed, rightDecoded⟩ := exists_txid rightDigits
  have texts : leftId = rightId ↔ toAsciiLowercase left.txid = toAsciiLowercase right.txid := by
    constructor
    · rintro rfl
      rw [← hexEncode_of_hexDecode? leftDecoded, ← hexEncode_of_hexDecode? rightDecoded]
    · intro same
      have bytes : hexDecode? left.txid = hexDecode? right.txid := EqIgnoreAsciiCase.hexDecode?_eq same
      rw [leftDecoded, rightDecoded] at bytes
      have equal := List.reverse_injective (Option.some.inj bytes)
      cases leftId
      cases rightId
      congr
  rw [outPointOf, outPointOf, leftParsed, rightParsed, OutPoint.mk.injEq, Option.getD_some, Option.getD_some, texts]

private theorem vaultTxIn_eq {input : VaultInput} (digits : IsHexOfLength input.txid 64) :
    vaultTxIn crypto input = .ok (unsignedTxIn input) := by
  obtain ⟨txid, parsed, -⟩ := exists_txid digits
  rw [vaultTxIn, unsignedTxIn, outPointOf, parsed]
  rfl

private theorem withdrawalTxOut_eq {output : WithdrawalOutput}
    (payable : validateDestinationScriptPolicy crypto.toCrypto output.requestId output.destinationScriptHex
      output.outputKind output.netAmountSats = .ok ()) :
    withdrawalTxOut crypto output = .ok (withdrawalOut output) := by
  rw [withdrawalTxOut, payable, (script_of_policy payable).1]
  rfl

private theorem remainderTxOut_eq_ok {remainder : VaultRemainderOutput} {output : TxOut} :
    remainderTxOut crypto remainder = .ok output ↔
      (∃ key, crypto.xOnlyPublicKeyFromStr remainder.frostGroupKeyXonly = .ok key) ∧
        output = remainderOut crypto remainder := by
  simp only [remainderTxOut, except_bind_eq_ok, mapError_eq_ok]
  constructor
  · rintro ⟨key, parsed, ended⟩
    cases ended
    refine ⟨⟨key, parsed⟩, ?_⟩
    rw [remainderOut, parsed]
    rfl
  · rintro ⟨⟨key, parsed⟩, rfl⟩
    refine ⟨key, parsed, ?_⟩
    rw [remainderOut, parsed]
    rfl

private theorem vaultPsbtInput_eq {input : VaultInput} {bytes : List UInt8}
    (decoded : hexDecode? input.scriptPubkeyHex = some bytes) :
    vaultPsbtInput crypto internalKey input =
      .ok { witnessUtxo := some (prevoutOf input), tapInternalKey := some internalKey } := by
  rw [vaultPsbtInput, prevoutOf, scriptOf, decoded]
  rfl

/-- Inputs pay to the script of the vault, whatever their case. -/
theorem PlanChecked.exists_script (checked : PlanChecked crypto.toCrypto plan)
    (parsed : crypto.xOnlyPublicKeyFromStr (toAsciiLowercase plan.frostGroupKeyXonly) = .ok internalKey)
    {input : VaultInput} (member : input ∈ plan.inputs) :
    hexDecode? input.scriptPubkeyHex = some (crypto.newP2tr internalKey) := by
  obtain ⟨key, same, scripts⟩ := checked.keyed
  obtain rfl : key = internalKey := Except.ok.inj (same.symm.trans parsed)
  rw [← hexDecode?_toAsciiLowercase, scripts input member, crypto.newP2trScriptHex_eq, hexDecode?_hexEncode]
  rfl

theorem mem_sortedInputs {inputs : List VaultInput} {input : VaultInput} :
    input ∈ sortedInputs inputs ↔ input ∈ inputs :=
  mem_sortBy _

private theorem withdrawalTxOuts_eq (checked : PlanChecked crypto.toCrypto plan) : withdrawalTxOuts crypto plan =
    .ok ((Vault.normalizeWithdrawalOutputs (planWithdrawals plan)).map withdrawalOut) := by
  unfold withdrawalTxOuts planWithdrawals
  cases carried : plan.withdrawalBatch with
  | none => rfl
  | some batch =>
    apply except_mapM_eq_ok
    intro output member
    exact withdrawalTxOut_eq ((checked.batches batch carried).payable output ((mem_sortBy _).mp member))

private theorem mapM_remainderTxOut_eq_ok {remainder : Option VaultRemainderOutput} {output : Option TxOut} :
    remainder.mapM (remainderTxOut crypto) = .ok output ↔
      (∀ entry ∈ remainder, ∃ key, crypto.xOnlyPublicKeyFromStr entry.frostGroupKeyXonly = .ok key) ∧
        output = remainder.map (remainderOut crypto) := by
  cases remainder with
  | none => simp [pure, Except.pure, eq_comm]
  | some entry =>
    simp only [Option.mapM_some, Option.mem_def, Option.some.injEq, forall_eq', Option.map_some]
    constructor
    · intro returned
      cases outcome : remainderTxOut crypto entry with
      | error reason =>
        rw [outcome] at returned
        cases returned
      | ok made =>
        rw [outcome] at returned
        cases returned
        obtain ⟨parses, rfl⟩ := remainderTxOut_eq_ok.mp outcome
        exact ⟨parses, rfl⟩
    · rintro ⟨parses, rfl⟩
      rw [remainderTxOut_eq_ok.mpr ⟨parses, rfl⟩]
      rfl

private theorem psbtFromUnsignedTx_eq (crypto : VaultCrypto) (plan : VaultSpendPlan) :
    psbtFromUnsignedTx (unsignedTransaction crypto plan) = .ok
      { unsignedTx := unsignedTransaction crypto plan
        inputs := (unsignedTransaction crypto plan).input.map fun _ => {} } := by
  have unsigned : ∀ input ∈ (unsignedTransaction crypto plan).input, input.scriptSig = [] ∧ input.witness = [] := by
    intro input member
    obtain ⟨raw, -, rfl⟩ := List.mem_map.mp member
    exact ⟨rfl, rfl⟩
  rw [psbtFromUnsignedTx, require_of_true fun input member => (unsigned input member).1,
    require_of_true fun input member => (unsigned input member).2]
  rfl

/-- The transaction of a valid plan is built exactly when the key of its remainder is one. -/
theorem buildVaultPsbt_eq_ok {txPlan : VaultTransactionPlan} (valid : plan.validate crypto.toCrypto = .ok ())
    (parsed : crypto.xOnlyPublicKeyFromStr plan.frostGroupKeyXonly = .ok internalKey)
    (lower : crypto.xOnlyPublicKeyFromStr (toAsciiLowercase plan.frostGroupKeyXonly) = .ok internalKey) :
    buildVaultPsbt crypto plan = .ok txPlan ↔
      RemainderParses crypto.toCrypto plan ∧ txPlan = vaultTransactionPlan crypto plan internalKey := by
  have checked := planChecked_of_validate valid
  have inputs : (sortedInputs plan.inputs).mapM (vaultTxIn crypto) =
      .ok ((sortedInputs plan.inputs).map unsignedTxIn) :=
    except_mapM_eq_ok fun input member => vaultTxIn_eq (checked.txids input (mem_sortedInputs.mp member))
  have prevouts : (sortedInputs plan.inputs).mapM (vaultPsbtInput crypto internalKey) =
      .ok ((sortedInputs plan.inputs).map fun input =>
        { witnessUtxo := some (prevoutOf input), tapInternalKey := some internalKey }) :=
    except_mapM_eq_ok fun input member => vaultPsbtInput_eq (checked.exists_script lower (mem_sortedInputs.mp member))
  simp only [buildVaultPsbt, valid, Except.mapError, parsed, except_ok_bind, inputs, withdrawalTxOuts_eq checked,
    except_bind_eq_ok, mapM_remainderTxOut_eq_ok, prevouts]
  constructor
  · rintro ⟨_, ⟨parses, rfl⟩, psbt, prepared, ended⟩
    cases ended
    obtain rfl := Except.ok.inj (prepared.symm.trans (psbtFromUnsignedTx_eq crypto plan))
    exact ⟨parses, rfl⟩
  · rintro ⟨parses, rfl⟩
    exact ⟨_, ⟨parses, rfl⟩, _, psbtFromUnsignedTx_eq crypto plan, rfl⟩

end Building

/-! ## Plans from the constructors -/

/-- The calls that make a plan. -/
inductive Construction where
  | withdrawalBatch (epoch : VaultEpoch) (inputs : List VaultInput) (batch : WithdrawalBatch)
      (vaultRemainder : Option VaultRemainderOutput)
  | rotation (currentEpoch nextEpoch : VaultEpoch) (inputs : List VaultInput) (txFeeSats : Sats)

namespace Construction

def plan (crypto : Crypto) : Construction → Except VaultError VaultSpendPlan
  | .withdrawalBatch epoch inputs batch vaultRemainder =>
    VaultSpendPlan.ofWithdrawalBatch crypto epoch inputs batch vaultRemainder
  | .rotation currentEpoch nextEpoch inputs txFeeSats =>
    VaultSpendPlan.rotation crypto currentEpoch nextEpoch inputs txFeeSats

/-- The epoch whose vault is spent. -/
def epoch : Construction → VaultEpoch
  | .withdrawalBatch epoch _ _ _ => epoch
  | .rotation currentEpoch _ _ _ => currentEpoch

def inputs : Construction → List VaultInput
  | .withdrawalBatch _ inputs _ _ => inputs
  | .rotation _ _ inputs _ => inputs

def withdrawals : Construction → List WithdrawalOutput
  | .withdrawalBatch _ _ batch _ => batch.outputs
  | .rotation _ _ _ _ => []

/-- The key that the remainder is to be paid to. -/
def remainderKey? : Construction → Option Text
  | .withdrawalBatch _ _ _ vaultRemainder => vaultRemainder.map VaultRemainderOutput.frostGroupKeyXonly
  | .rotation _ nextEpoch _ _ => nextEpoch.frostGroupKeyXonly

/-- The same call with inputs and withdrawals in another order. -/
inductive Reordered : Construction → Construction → Prop
  | withdrawalBatch {epoch : VaultEpoch} {inputs others : List VaultInput} {batch : WithdrawalBatch}
      {outputs : List WithdrawalOutput} {vaultRemainder : Option VaultRemainderOutput}
      (inputsPermuted : inputs.Perm others) (outputsPermuted : batch.outputs.Perm outputs) :
      Reordered (.withdrawalBatch epoch inputs batch vaultRemainder)
        (.withdrawalBatch epoch others { batch with outputs } vaultRemainder)
  | rotation {currentEpoch nextEpoch : VaultEpoch} {inputs others : List VaultInput} {txFeeSats : Sats}
      (inputsPermuted : inputs.Perm others) :
      Reordered (.rotation currentEpoch nextEpoch inputs txFeeSats) (.rotation currentEpoch nextEpoch others txFeeSats)

end Construction

section Constructors

variable {crypto : Crypto} {plan : VaultSpendPlan}

theorem vaultInput_normalized_idem (input : VaultInput) : input.normalized.normalized = input.normalized := by
  simp [VaultInput.normalized]

private theorem normalizeInputs_map_normalized (inputs : List VaultInput) :
    Vault.normalizeInputs (inputs.map VaultInput.normalized) = Vault.normalizeInputs inputs := by
  rw [Vault.normalizeInputs, Vault.normalizeInputs, List.map_map]
  congr 1
  apply List.map_congr_left
  exact fun input _ => vaultInput_normalized_idem input

/-- What the normal form of a plan is made of. -/
theorem normalized_eq_ok {raw : VaultSpendPlan} : raw.normalized = .ok plan ↔
    IsHexOfLength raw.frostGroupKeyXonly 64 ∧
      (∀ remainder ∈ raw.vaultRemainder, IsHexOfLength remainder.frostGroupKeyXonly 64) ∧
      plan = raw.canonicalizedForHash := by
  simp only [VaultSpendPlan.normalized, except_bind_eq_ok, validateXonlyHex_eq_ok]
  have remainders : ∀ made, raw.vaultRemainder.mapM VaultRemainderOutput.normalized = .ok made ↔
      (∀ remainder ∈ raw.vaultRemainder, IsHexOfLength remainder.frostGroupKeyXonly 64) ∧
        made = raw.vaultRemainder.map fun remainder =>
          { remainder with frostGroupKeyXonly := toAsciiLowercase remainder.frostGroupKeyXonly } := by
    intro made
    cases raw.vaultRemainder with
    | none => simp [pure, Except.pure, eq_comm]
    | some remainder =>
      simp only [Option.mapM_some, Option.mem_def, Option.some.injEq, forall_eq', Option.map_some,
        VaultRemainderOutput.normalized]
      change (((Vault.validateXonlyHex remainder.frostGroupKeyXonly) >>= fun frostGroupKeyXonly =>
        Except.ok { remainder with frostGroupKeyXonly }) >>= fun value => Except.ok (some value)) = _ ↔ _
      simp only [except_bind_eq_ok, validateXonlyHex_eq_ok, Except.ok.injEq]
      constructor
      · rintro ⟨_, ⟨_, ⟨digits, rfl⟩, rfl⟩, rfl⟩
        exact ⟨digits, rfl⟩
      · rintro ⟨digits, rfl⟩
        exact ⟨_, ⟨_, ⟨digits, rfl⟩, rfl⟩, rfl⟩
  constructor
  · rintro ⟨_, ⟨digits, rfl⟩, made, mapped, ended⟩
    obtain ⟨all, rfl⟩ := (remainders made).mp mapped
    cases ended
    exact ⟨digits, all, rfl⟩
  · rintro ⟨digits, all, rfl⟩
    exact ⟨_, ⟨digits, rfl⟩, _, (remainders _).mpr ⟨all, rfl⟩, rfl⟩

private theorem requiredGroupKey_eq_ok {epoch : VaultEpoch} {groupKey : Text} : epoch.requiredGroupKey = .ok groupKey ↔
    ∃ key, epoch.frostGroupKeyXonly = some key ∧ IsHexOfLength key 64 ∧ groupKey = toAsciiLowercase key := by
  simp only [VaultEpoch.requiredGroupKey, except_bind_eq_ok, okOr_eq_ok, validateXonlyHex_eq_ok]

private theorem validate_of_validateAgainstEpoch {epoch : VaultEpoch}
    (valid : plan.validateAgainstEpoch crypto epoch = .ok ()) : plan.validate crypto = .ok () := by
  simp only [VaultSpendPlan.validateAgainstEpoch, except_bind_eq_ok, require_eq_ok] at valid
  obtain ⟨_, -, _, -, _, -, _, -, valid⟩ := valid
  exact valid

/-- The plan that a call describes, before it is brought into normal form. -/
structure Construction.Describes (construction : Construction) (raw : VaultSpendPlan) : Prop where
  epochId : raw.epochId = construction.epoch.epochId
  key : construction.epoch.frostGroupKeyXonly.map toAsciiLowercase = some raw.frostGroupKeyXonly
  inputs : raw.inputs.map VaultInput.normalized = construction.inputs.map VaultInput.normalized
  withdrawals : planWithdrawals raw = construction.withdrawals
  remainder : raw.vaultRemainder.map (fun remainder => toAsciiLowercase remainder.frostGroupKeyXonly) =
    construction.remainderKey?.map toAsciiLowercase

/-- The constructors return the normal form of what they are given, once it passes the checks. -/
theorem Construction.plan_eq_ok {construction : Construction} (made : construction.plan crypto = .ok plan) :
    ∃ raw : VaultSpendPlan, construction.Describes raw ∧ plan = raw.canonicalizedForHash ∧
      plan.validate crypto = .ok () := by
  cases construction with
  | withdrawalBatch epoch inputs batch vaultRemainder =>
    simp only [Construction.plan, VaultSpendPlan.ofWithdrawalBatch, except_bind_eq_ok, requiredGroupKey_eq_ok] at made
    obtain ⟨_, ⟨key, known, -, rfl⟩, normal, normalized, _, valid, ended⟩ := made
    cases ended
    obtain ⟨-, -, rfl⟩ := normalized_eq_ok.mp normalized
    refine ⟨_, ?_, rfl, validate_of_validateAgainstEpoch valid⟩
    refine ⟨rfl, by simp only [Construction.epoch, known, Option.map_some], rfl, rfl, ?_⟩
    simp only [Construction.remainderKey?, Option.map_map, Function.comp_def]
  | rotation currentEpoch nextEpoch inputs txFeeSats =>
    simp only [Construction.plan, VaultSpendPlan.rotation, except_bind_eq_ok, requiredGroupKey_eq_ok] at made
    obtain ⟨_, ⟨key, known, -, rfl⟩, _, ⟨nextKey, nextKnown, -, rfl⟩, _, -, _, -, normal, normalized, _, valid,
      ended⟩ := made
    cases ended
    obtain ⟨-, -, rfl⟩ := normalized_eq_ok.mp normalized
    refine ⟨_, ?_, rfl, validate_of_validateAgainstEpoch valid⟩
    refine ⟨rfl, by simp only [Construction.epoch, known, Option.map_some], ?_, rfl, ?_⟩
    · rw [List.map_map]
      apply List.map_congr_left
      exact fun input _ => vaultInput_normalized_idem input
    · simp only [Construction.remainderKey?, nextKnown, Option.map_some, VaultRemainderOutput.nextEpochRotation,
        toAsciiLowercase_idem]

/-! Distinct entries are in one order only. -/

private theorem normalizeInputs_of_perm {inputs others : List VaultInput} (permuted : inputs.Perm others)
    (distinct : ((Vault.normalizeInputs inputs).map fun input => (input.txid, input.vout)).Nodup) :
    Vault.normalizeInputs others = Vault.normalizeInputs inputs := by
  symm
  apply sortBy_eq_of_perm _ (permuted.map _)
  intro left leftMember right rightMember same
  apply List.inj_on_of_nodup_map distinct ((mem_sortBy _).mpr leftMember) ((mem_sortBy _).mpr rightMember)
  simpa [Vault.compareInputs, compareLex_eq_eq, compareOn] using same

private theorem orderedBatch_of_perm {outputs : List WithdrawalOutput} (permuted : batch.outputs.Perm outputs)
    (distinct : ((Vault.orderedBatch batch).outputs.map WithdrawalOutput.requestId).Nodup) :
    Vault.orderedBatch { batch with outputs } = Vault.orderedBatch batch := by
  have sorted : Vault.normalizeWithdrawalOutputs batch.outputs = Vault.normalizeWithdrawalOutputs outputs := by
    apply sortBy_eq_of_perm _ permuted
    intro left leftMember right rightMember same
    apply List.inj_on_of_nodup_map distinct ((mem_sortBy _).mpr leftMember) ((mem_sortBy _).mpr rightMember)
    simpa [compareOn] using same
  simp only [Vault.orderedBatch, sorted]

theorem planWithdrawals_canonicalizedForHash (raw : VaultSpendPlan) :
    planWithdrawals raw.canonicalizedForHash = Vault.normalizeWithdrawalOutputs (planWithdrawals raw) := by
  unfold planWithdrawals VaultSpendPlan.canonicalizedForHash
  cases raw.withdrawalBatch <;> rfl

/-- The plan does not depend on the order in which inputs and withdrawals are given. -/
theorem Construction.Reordered.plan_eq {construction other : Construction} (reordered : construction.Reordered other)
    (made : construction.plan crypto = .ok plan) : other.plan crypto = .ok plan := by
  obtain ⟨raw, described, rfl, valid⟩ := construction.plan_eq_ok made
  have checked := planChecked_of_validate valid
  have distinct : ((Vault.normalizeInputs construction.inputs).map fun input => (input.txid, input.vout)).Nodup := by
    have same : Vault.normalizeInputs raw.inputs = Vault.normalizeInputs construction.inputs := by
      rw [Vault.normalizeInputs, described.inputs]
      rfl
    rw [← same]
    exact checked.distinct
  have requests := checked.nodup_requests
  rw [planWithdrawals_canonicalizedForHash, described.withdrawals] at requests
  rw [← made]
  cases reordered with
  | withdrawalBatch inputsPermuted outputsPermuted =>
    simp only [Construction.plan, VaultSpendPlan.ofWithdrawalBatch, VaultSpendPlan.normalized, Option.map_some,
      normalizeInputs_of_perm inputsPermuted distinct, orderedBatch_of_perm outputsPermuted requests]
  | rotation inputsPermuted =>
    have sums := checkedSum_of_perm ((inputsPermuted.map VaultInput.normalized).map VaultInput.amountSats)
    simp only [Construction.plan, VaultSpendPlan.rotation, VaultSpendPlan.normalized, normalizeInputs_map_normalized,
      normalizeInputs_of_perm inputsPermuted distinct, Vault.sumSats, sums]

end Constructors

/-! ## Value is conserved -/

/-- What a transaction is to do for the call that described it. -/
structure VaultSpendSound (crypto : VaultCrypto) (construction : Construction) (plan : VaultSpendPlan)
    (txPlan : VaultTransactionPlan) : Prop where
  inputs : plan.inputs.Perm (construction.inputs.map VaultInput.normalized)
  spends : txPlan.unsignedTx.spends = plan.inputs.map outPointOf
  distinct : txPlan.unsignedTx.spends.Nodup
  scripts : ∃ key internalKey, construction.epoch.frostGroupKeyXonly = some key ∧
    crypto.xOnlyPublicKeyFromStr (toAsciiLowercase key) = .ok internalKey ∧
    txPlan.psbt.inputs.map PsbtInput.witnessUtxo = plan.inputs.map fun input =>
      some { value := input.amountSats, scriptPubkey := crypto.newP2tr internalKey }
  withdrawals : (planWithdrawals plan).Perm construction.withdrawals
  ordered : (planWithdrawals plan).Pairwise fun left right => compare left.requestId right.requestId = .lt
  outputs : txPlan.unsignedTx.output =
    (planWithdrawals plan).map withdrawalOut ++ (plan.vaultRemainder.map (remainderOut crypto)).toList
  conserved : (txPlan.unsignedTx.output.map fun output => output.value.toNat).sum + plan.txFeeSats.toNat =
    (plan.inputs.map fun input => input.amountSats.toNat).sum
  target : ∀ remainder ∈ plan.vaultRemainder,
    match remainder.kind with
    | .sameEpochChange => remainder.epochId = construction.epoch.epochId ∧
        construction.epoch.frostGroupKeyXonly.map toAsciiLowercase = some remainder.frostGroupKeyXonly
    | .nextEpochRotation => construction.epoch.epochId < remainder.epochId ∧
        construction.epoch.frostGroupKeyXonly.map toAsciiLowercase ≠ some remainder.frostGroupKeyXonly

section Conservation

variable {crypto : VaultCrypto} {construction : Construction} {raw : VaultSpendPlan}

private theorem sortedInputs_canonicalizedForHash (raw : VaultSpendPlan) :
    sortedInputs raw.canonicalizedForHash.inputs = raw.canonicalizedForHash.inputs :=
  sortBy_sortBy _ _

private theorem normalizeWithdrawalOutputs_canonicalizedForHash (raw : VaultSpendPlan) :
    Vault.normalizeWithdrawalOutputs (planWithdrawals raw.canonicalizedForHash) =
      planWithdrawals raw.canonicalizedForHash := by
  rw [planWithdrawals_canonicalizedForHash]
  exact sortBy_sortBy _ _

/-- In normal form, inputs that the checks tell apart spend different outputs. -/
theorem nodup_outPoints (checked : PlanChecked crypto.toCrypto raw.canonicalizedForHash) :
    (raw.canonicalizedForHash.inputs.map outPointOf).Nodup := by
  apply List.Nodup.map_on _ checked.distinct.of_map
  intro left leftMember right rightMember same
  obtain ⟨texts, vouts⟩ := (outPointOf_eq_iff (checked.txids left leftMember) (checked.txids right rightMember)).mp same
  have lower : ∀ input ∈ raw.canonicalizedForHash.inputs, toAsciiLowercase input.txid = input.txid := by
    intro input member
    obtain ⟨given, -, rfl⟩ := List.mem_map.mp ((mem_sortBy _).mp member)
    exact toAsciiLowercase_idem given.txid
  rw [lower left leftMember, lower right rightMember] at texts
  exact List.inj_on_of_nodup_map checked.distinct leftMember rightMember (Prod.ext texts vouts)

private theorem ordered_withdrawals (checked : PlanChecked crypto.toCrypto raw.canonicalizedForHash) :
    (planWithdrawals raw.canonicalizedForHash).Pairwise fun left right =>
      compare left.requestId right.requestId = .lt := by
  have sorted := sortBy_pairwise (compareOn WithdrawalOutput.requestId) (planWithdrawals raw)
  change (Vault.normalizeWithdrawalOutputs _).Pairwise _ at sorted
  rw [← planWithdrawals_canonicalizedForHash] at sorted
  refine (sorted.and (List.pairwise_map.mp checked.nodup_requests)).imp ?_
  rintro left right ⟨least, apart⟩
  cases outcome : compare left.requestId right.requestId with
  | lt => rfl
  | eq => exact absurd (Std.compare_eq_iff_eq.mp outcome) apart
  | gt =>
    change (compare left.requestId right.requestId).isLE = true at least
    rw [outcome] at least
    cases least

/-- The transaction of a plan that passes its checks pays out all but the fee. -/
theorem PlanChecked.conserved {plan : VaultSpendPlan} (checked : PlanChecked crypto.toCrypto plan) :
    ((unsignedTransaction crypto plan).output.map fun output => output.value.toNat).sum + plan.txFeeSats.toNat =
      (plan.inputs.map fun input => input.amountSats.toNat).sum := by
  have withdrawals : ((Vault.normalizeWithdrawalOutputs (planWithdrawals plan)).map fun output =>
      (withdrawalOut output).value.toNat).sum =
        ((planWithdrawals plan).map fun output => output.netAmountSats.toNat).sum :=
    ((sortBy_perm _ (planWithdrawals plan)).map _).sum_eq
  have remainder : ((plan.vaultRemainder.map (remainderOut crypto)).toList.map fun output => output.value.toNat).sum =
      plan.vaultRemainderSats.toNat := by
    cases carried : plan.vaultRemainder with
    | none => simp [VaultSpendPlan.vaultRemainderSats, carried]
    | some remainder => simp [VaultSpendPlan.vaultRemainderSats, carried, remainderOut]
  rw [unsignedTransaction, List.map_append, List.sum_append, List.map_map, remainder, checked.balanced, ← withdrawals]
  simp only [Function.comp_def]
  omega

theorem target_of_described (described : construction.Describes raw)
    (checked : PlanChecked crypto.toCrypto raw.canonicalizedForHash) :
    ∀ remainder ∈ raw.canonicalizedForHash.vaultRemainder,
      match remainder.kind with
      | .sameEpochChange => remainder.epochId = construction.epoch.epochId ∧
          construction.epoch.frostGroupKeyXonly.map toAsciiLowercase = some remainder.frostGroupKeyXonly
      | .nextEpochRotation => construction.epoch.epochId < remainder.epochId ∧
          construction.epoch.frostGroupKeyXonly.map toAsciiLowercase ≠ some remainder.frostGroupKeyXonly := by
  intro remainder member
  have valid := checked.remainders remainder member
  obtain ⟨given, -, rfl⟩ := Option.mem_map.mp member
  have key : toAsciiLowercase raw.frostGroupKeyXonly = raw.frostGroupKeyXonly := by
    obtain ⟨original, -, lowered⟩ := Option.map_eq_some_iff.mp described.key
    rw [← lowered, toAsciiLowercase_idem]
  rw [described.key, ← described.epochId]
  cases kind : given.kind with
  | sameEpochChange =>
    simp only [VaultSpendPlan.validateRemainder, kind, VaultSpendPlan.canonicalizedForHash, except_bind_eq_ok,
      require_eq_ok, validateXonlyHex_eq_ok, toAsciiLowercase_idem, key] at valid
    obtain ⟨_, epochId, _, ⟨-, rfl⟩, _, ⟨-, rfl⟩, same⟩ := valid
    exact ⟨epochId, congrArg some same.symm⟩
  | nextEpochRotation =>
    simp only [VaultSpendPlan.validateRemainder, kind, VaultSpendPlan.canonicalizedForHash, except_bind_eq_ok,
      require_eq_ok, validateXonlyHex_eq_ok, toAsciiLowercase_idem, key] at valid
    obtain ⟨_, epochId, _, ⟨-, rfl⟩, _, ⟨-, rfl⟩, other⟩ := valid
    exact ⟨epochId, fun same => other (Option.some.inj same).symm⟩

/-- The transaction of a constructed plan does what the call described. -/
theorem Construction.Describes.sound (described : construction.Describes raw)
    (checked : PlanChecked crypto.toCrypto raw.canonicalizedForHash) {internalKey : Digest}
    (parsed : crypto.xOnlyPublicKeyFromStr raw.canonicalizedForHash.frostGroupKeyXonly = .ok internalKey)
    (lower : crypto.xOnlyPublicKeyFromStr (toAsciiLowercase raw.canonicalizedForHash.frostGroupKeyXonly) =
      .ok internalKey) :
    VaultSpendSound crypto construction raw.canonicalizedForHash
      (vaultTransactionPlan crypto raw.canonicalizedForHash internalKey) := by
  have spends : (unsignedTransaction crypto raw.canonicalizedForHash).spends =
      raw.canonicalizedForHash.inputs.map outPointOf := by
    rw [Transaction.spends, unsignedTransaction, sortedInputs_canonicalizedForHash, List.map_map]
    rfl
  have outputs : (unsignedTransaction crypto raw.canonicalizedForHash).output =
      (planWithdrawals raw.canonicalizedForHash).map withdrawalOut ++
        (raw.canonicalizedForHash.vaultRemainder.map (remainderOut crypto)).toList := by
    rw [unsignedTransaction, normalizeWithdrawalOutputs_canonicalizedForHash]
  refine ⟨?_, spends, ?_, ?_, ?_, ordered_withdrawals checked, outputs, checked.conserved,
    target_of_described described checked⟩
  · rw [← described.inputs]
    exact sortBy_perm _ _
  · change (unsignedTransaction crypto raw.canonicalizedForHash).spends.Nodup
    rw [spends]
    exact nodup_outPoints checked
  · obtain ⟨key, known, lowered⟩ := Option.map_eq_some_iff.mp described.key
    refine ⟨key, internalKey, known, ?_, ?_⟩
    · rw [← toAsciiLowercase_idem key, lowered]
      exact parsed
    · simp only [vaultTransactionPlan, sortedInputs_canonicalizedForHash, List.map_map]
      apply List.map_congr_left
      intro input member
      simp only [Function.comp_apply, prevoutOf, scriptOf, checked.exists_script lower member, Option.getD_some]
  · rw [planWithdrawals_canonicalizedForHash, described.withdrawals]
    exact sortBy_perm _ _

/-- The key of the remainder of a constructed plan is the one given, in lower case. -/
theorem Construction.Describes.remainderParses_iff (described : construction.Describes raw) :
    RemainderParses crypto.toCrypto raw.canonicalizedForHash ↔
      ∀ key ∈ construction.remainderKey?,
        ∃ parsed, crypto.xOnlyPublicKeyFromStr (toAsciiLowercase key) = .ok parsed := by
  have keys : raw.canonicalizedForHash.vaultRemainder.map VaultRemainderOutput.frostGroupKeyXonly =
      construction.remainderKey?.map toAsciiLowercase := by
    rw [← described.remainder, VaultSpendPlan.canonicalizedForHash, Option.map_map]
    rfl
  constructor
  · intro parses key member
    have lowered : toAsciiLowercase key ∈ construction.remainderKey?.map toAsciiLowercase :=
      Option.mem_map_of_mem _ member
    rw [← keys] at lowered
    obtain ⟨remainder, carried, same⟩ := Option.mem_map.mp lowered
    rw [← same]
    exact parses remainder carried
  · intro parses remainder member
    have given : remainder.frostGroupKeyXonly ∈ construction.remainderKey?.map toAsciiLowercase := by
      rw [← keys]
      exact Option.mem_map_of_mem _ member
    obtain ⟨key, carried, same⟩ := Option.mem_map.mp given
    rw [← same]
    exact parses key carried

/-- A constructed plan yields its transaction, whatever the order of the arguments, exactly when the key of its
remainder is a public key. The constructors check only that it is hexadecimal. -/
theorem constructed_plan_conserves_iff (crypto : VaultCrypto) (construction : Construction) (plan : VaultSpendPlan)
    (made : construction.plan crypto.toCrypto = .ok plan) :
    (∃ txPlan, buildVaultPsbt crypto plan = .ok txPlan ∧ VaultSpendSound crypto construction plan txPlan ∧
      ∀ other, construction.Reordered other → ∃ otherPlan otherTxPlan, other.plan crypto.toCrypto = .ok otherPlan ∧
        buildVaultPsbt crypto otherPlan = .ok otherTxPlan ∧ otherTxPlan.unsignedTx = txPlan.unsignedTx) ↔
      ∀ key ∈ construction.remainderKey?,
        ∃ parsed, crypto.xOnlyPublicKeyFromStr (toAsciiLowercase key) = .ok parsed := by
  obtain ⟨raw, described, rfl, valid⟩ := construction.plan_eq_ok made
  have checked := planChecked_of_validate valid
  obtain ⟨internalKey, lower, -⟩ := checked.keyed
  have parsed : crypto.xOnlyPublicKeyFromStr raw.canonicalizedForHash.frostGroupKeyXonly = .ok internalKey := by
    rw [← lower]
    exact congrArg _ (toAsciiLowercase_idem raw.frostGroupKeyXonly).symm
  rw [← described.remainderParses_iff]
  constructor
  · rintro ⟨txPlan, built, -, -⟩
    exact ((buildVaultPsbt_eq_ok valid parsed lower).mp built).1
  · intro parses
    have built := (buildVaultPsbt_eq_ok valid parsed lower).mpr ⟨parses, rfl⟩
    exact ⟨_, built, described.sound checked parsed lower,
      fun other reordered => ⟨_, _, reordered.plan_eq made, built, rfl⟩⟩

end Conservation

namespace VaultSample

def epochKey : Text := hexText 64 0x4d4b6cd1361032ca9bd2aeb9d900aa4d45d9ead80ac9423374c451a7254d0766

def nextKey : Text := hexText 64 0x531fe6068134503d2723133227c867ac8fa6c83c537e9a44c3c5bdbdcb1fe337

/-- The output keys of the two epochs. -/
def tweakedKey (internalKey : Digest) : Digest :=
  Digest.ofHex (([
    (epochKey, hexText 64 0xa674c2b152a383126b1e2a3a0683eb07a4d6568983a73dfb26dec2a7a9fb0643),
    (nextKey, hexText 64 0xd3a0d82bbfae272329e54e3b3410efc98646eaf06b7b6bf7cadceee05ba1447e)].lookup
      (hashHex internalKey)).getD [])

/-- Primitives that know the keys of the two epochs, with recorded hashes of plans and digests to sign. -/
def cryptoOf (plans : List (VaultSpendPlan × Text)) (sighashes : List ((Transaction × List TxOut × ℕ) × Text)) :
    VaultCrypto :=
  { Crypto.ofTables {} with
    xOnlyPublicKeyFromStr := fun text =>
      if toAsciiLowercase text ∈ [epochKey, nextKey] then .ok (Digest.ofHex (toAsciiLowercase text))
      else .error "malformed public key"
    newP2trScriptHex := fun internalKey => hexEncode (0x51 :: 0x20 :: (tweakedKey internalKey).bytes)
    tapTweakedKey := tweakedKey
    spendPlanDigest := fun plan => Digest.ofHex ((plans.lookup plan).getD [])
    tapSighash := fun transaction prevouts index =>
      Digest.ofHex ((sighashes.lookup (transaction, prevouts, index)).getD [])
    txidFromStrError := fun _ => "bad hex string length"
    newP2trScriptHex_eq := fun _ => rfl }

def epoch : VaultEpoch := { epochId := 5, frostGroupKeyXonly := some epochKey }

/-- An output of the vault in the transaction with the given identifier. -/
def inputOf (txid : Text) (vout : U32) (amountSats : Sats) : VaultInput :=
  { txid
    vout
    amountSats
    confirmations := 144
    scriptPubkeyHex := hexText 4 0x5120 ++
      hexText 64 0xa674c2b152a383126b1e2a3a0683eb07a4d6568983a73dfb26dec2a7a9fb0643 }

def firstInput (txid : ℕ) : VaultInput := inputOf (hexText 64 txid) 0 60000

def secondInput (txid : ℕ) : VaultInput := inputOf (hexText 64 txid) 1 40000

/-- A rotation that spends two outputs, given in the opposite order. -/
def rotation (key : Text) : Construction :=
  .rotation epoch { epochId := 6, frostGroupKeyXonly := some key }
    [secondInput (0xbb * 2 ^ 248), firstInput (0xaa * 2 ^ 248)] 1000

def rotationPlan : VaultSpendPlan :=
  { epochId := 5
    frostGroupKeyXonly := epochKey
    inputs := [firstInput (0xaa * 2 ^ 248), secondInput (0xbb * 2 ^ 248)]
    withdrawalBatch := none
    txFeeSats := 1000
    vaultRemainder := some (.nextEpochRotation 6 nextKey 99000) }

def rotationPlans : List (VaultSpendPlan × Text) :=
  [(rotationPlan, hexText 64 0x6a5cfb78349b293655453910bd8d76b0b775b268ff773e0afb375d9898c67092)]

end VaultSample

open VaultSample in
theorem constructed_plan_conserves_rotation :
    ∃ crypto txPlan, (rotation nextKey).plan crypto.toCrypto = .ok rotationPlan ∧
      buildVaultPsbt crypto rotationPlan = .ok txPlan ∧
        VaultSpendSound crypto (rotation nextKey) rotationPlan txPlan := by
  let crypto := cryptoOf rotationPlans []
  have made : (rotation nextKey).plan crypto.toCrypto = .ok rotationPlan := by decide +kernel
  have parses : ∀ key ∈ (rotation nextKey).remainderKey?,
      ∃ parsed, crypto.xOnlyPublicKeyFromStr (toAsciiLowercase key) = .ok parsed := by
    intro key member
    cases member
    exact ⟨Digest.ofHex nextKey, by decide +kernel⟩
  obtain ⟨txPlan, built, sound, -⟩ := (constructed_plan_conserves_iff crypto _ _ made).mpr parses
  exact ⟨crypto, txPlan, made, built, sound⟩

open VaultSample in
/-- A rotation to a next key that no point has is accepted as a plan, and no transaction can be built from it. -/
theorem rotation_to_no_key :
    ∃ plan, (rotation (List.replicate 64 'f')).plan (cryptoOf [] []).toCrypto = .ok plan ∧
      buildVaultPsbt (cryptoOf [] []) plan = .error (.invalidVaultKey "malformed public key") := by
  refine ⟨{ rotationPlan with vaultRemainder := some (.nextEpochRotation 6 (List.replicate 64 'f') 99000) }, ?_, ?_⟩ <;>
    decide

end P2PoolBTC.Soundness
