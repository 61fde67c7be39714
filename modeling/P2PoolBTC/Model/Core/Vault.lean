import P2PoolBTC.Math.Loop
import P2PoolBTC.Model.Core.Withdrawal

/-! # Vault spend plans

A plan spends outputs of one epoch's vault: it pays a withdrawal batch, a remainder, or both. The plan
is checked as it is written, while its hash is taken of a copy in lower case and in order.
-/

namespace P2PoolBTC.Model.Core

open Math

variable (crypto : Crypto)

def minVaultInputConfirmations : U32 := 100

/-- An epoch as far as a spend reads it. -/
structure VaultEpoch where
  epochId : U64
  frostGroupKeyXonly : Option Text
deriving DecidableEq

structure VaultInput where
  txid : Text
  vout : U32
  amountSats : Sats
  confirmations : U32
  scriptPubkeyHex : Text
deriving DecidableEq

inductive VaultRemainderKind where
  | sameEpochChange
  | nextEpochRotation
deriving DecidableEq

structure VaultRemainderOutput where
  epochId : U64
  frostGroupKeyXonly : Text
  amountSats : Sats
  kind : VaultRemainderKind
deriving DecidableEq

structure VaultSpendPlan where
  epochId : U64
  frostGroupKeyXonly : Text
  inputs : List VaultInput
  withdrawalBatch : Option WithdrawalBatch
  txFeeSats : Sats
  vaultRemainder : Option VaultRemainderOutput
deriving DecidableEq

/-- Errors of the withdrawal module are kept as they are; the source keeps their texts. -/
inductive VaultError where
  | wrongEpoch (expected actual : U64)
  | missingGroupKey (epochId : U64)
  | wrongGroupKey (epochId : U64)
  | invalidXOnlyGroupKey (value : Text)
  | emptyVaultInputs
  | invalidVaultInputTxid (txid : Text)
  | invalidVaultInputScript (reason : String)
  | vaultInputScriptMismatch (txid : Text) (vout : U32) (expectedScriptPubkeyHex actualScriptPubkeyHex : Text)
  | zeroValueInput (txid : Text) (vout : U32)
  | insufficientInputConfirmations (txid : Text) (vout confirmations minimumConfirmations : U32)
  | duplicateVaultInput (txid : Text) (vout : U32)
  | noSpendOutputs
  | emptyWithdrawalBatch
  | batchInputCountMismatch (batchInputs : U64) (vaultInputs : ℕ)
  | duplicateWithdrawalOutput (requestId : Text)
  | withdrawalOutputFeeExceedsAmount (requestId : Text) (grossAmountSats feeSats : Sats)
  | withdrawalOutputNetMismatch (requestId : Text) (grossAmountSats feeSats netAmountSats : Sats)
  | withdrawalOutputPolicy (requestId : Text) (reason : WithdrawalError)
  | withdrawalBatchEstimate (reason : WithdrawalError)
  | batchVsizeMismatch (batchVsize expectedVsize : U64)
  | batchFeeEstimateMismatch (batchFeeSats expectedFeeSats : Sats)
  | batchFeeMismatch (batchFeeSats txFeeSats : Sats)
  | batchOutputFeeMismatch (outputFeeTotalSats batchFeeSats : Sats)
  | invalidRemainderTarget
  | feeExceedsInputs (inputTotalSats txFeeSats : Sats)
  | amountMismatch (inputTotalSats expectedSpendSats : Sats)
  | amountOverflow
deriving DecidableEq

namespace Vault

def sumSats (values : List Sats) : Except VaultError Sats := okOr (checkedSum values) .amountOverflow

def validateXonlyHex (value : Text) : Except VaultError Text := do
  let normalized := toAsciiLowercase value
  require (IsHexOfLength normalized 64) (.invalidXOnlyGroupKey value)
  return normalized

def validateInputTxid (value : Text) : Except VaultError Text := do
  let normalized := toAsciiLowercase value
  require (IsHexOfLength normalized 64) (.invalidVaultInputTxid value)
  return normalized

def validateScriptHex (value : Text) : Except VaultError Text := do
  let normalized := toAsciiLowercase value
  let _ ← okOr (hexDecode? normalized) (.invalidVaultInputScript (crypto.hexDecodeError normalized))
  return normalized

def vaultScriptPubkeyHex (frostGroupKeyXonly : Text) : Except VaultError Text := do
  let normalized ← validateXonlyHex frostGroupKeyXonly
  let internalKey ← (crypto.xOnlyPublicKeyFromStr normalized).mapError fun reason =>
    .invalidXOnlyGroupKey reason.toList
  return crypto.newP2trScriptHex internalKey

/-- By transaction, then by output, both as written. -/
def compareInputs : VaultInput → VaultInput → Ordering :=
  compareLex (compareOn VaultInput.txid) (compareOn VaultInput.vout)

instance : Std.TransCmp compareInputs :=
  inferInstanceAs (Std.TransCmp (compareLex (compareOn VaultInput.txid) (compareOn VaultInput.vout)))

end Vault

def VaultEpoch.requiredGroupKey (epoch : VaultEpoch) : Except VaultError Text := do
  let key ← okOr epoch.frostGroupKeyXonly (.missingGroupKey epoch.epochId)
  Vault.validateXonlyHex key

def VaultInput.normalized (input : VaultInput) : VaultInput :=
  { input with
    txid := toAsciiLowercase input.txid
    scriptPubkeyHex := toAsciiLowercase input.scriptPubkeyHex }

def VaultRemainderOutput.nextEpochRotation (epochId : U64) (frostGroupKeyXonly : Text) (amountSats : Sats) :
    VaultRemainderOutput :=
  { epochId, frostGroupKeyXonly, amountSats, kind := .nextEpochRotation }

def VaultRemainderOutput.normalized (remainder : VaultRemainderOutput) : Except VaultError VaultRemainderOutput := do
  let frostGroupKeyXonly ← Vault.validateXonlyHex remainder.frostGroupKeyXonly
  return { remainder with frostGroupKeyXonly }

namespace Vault

def normalizeInputs (inputs : List VaultInput) : List VaultInput :=
  sortBy compareInputs (inputs.map VaultInput.normalized)

/-- The outputs are put in order and keep their case. -/
def normalizeWithdrawalOutputs (outputs : List WithdrawalOutput) : List WithdrawalOutput :=
  sortBy (compareOn WithdrawalOutput.requestId) outputs

def orderedBatch (batch : WithdrawalBatch) : WithdrawalBatch :=
  { batch with outputs := normalizeWithdrawalOutputs batch.outputs }

/-- The checks of one input. -/
def validateInput (expectedScriptPubkeyHex : Text) (input : VaultInput) : Except VaultError Unit := do
  let _ ← validateInputTxid input.txid
  let scriptPubkeyHex ← validateScriptHex crypto input.scriptPubkeyHex
  require (scriptPubkeyHex = expectedScriptPubkeyHex)
    (.vaultInputScriptMismatch input.txid input.vout expectedScriptPubkeyHex scriptPubkeyHex)
  require (input.amountSats ≠ 0) (.zeroValueInput input.txid input.vout)
  require (minVaultInputConfirmations ≤ input.confirmations)
    (.insufficientInputConfirmations input.txid input.vout input.confirmations minVaultInputConfirmations)

/-- The checks of one withdrawal output, after it was found to be the first of its request. -/
def validateWithdrawalOutput (output : WithdrawalOutput) : Except VaultError Unit := do
  require (output.feeSats < output.grossAmountSats)
    (.withdrawalOutputFeeExceedsAmount output.requestId output.grossAmountSats output.feeSats)
  require (output.netAmountSats = output.grossAmountSats - output.feeSats)
    (.withdrawalOutputNetMismatch output.requestId output.grossAmountSats output.feeSats output.netAmountSats)
  (validateDestinationScriptPolicy crypto output.requestId output.destinationScriptHex output.outputKind
    output.netAmountSats).mapError (.withdrawalOutputPolicy output.requestId)

/-- The outputs of one kind. -/
def countKind (kind : WithdrawalOutputKind) (outputs : List WithdrawalOutput) : ℕ :=
  outputs.countP fun output => output.outputKind = kind

end Vault

namespace VaultSpendPlan

open Vault

variable (plan : VaultSpendPlan)

def normalized : Except VaultError VaultSpendPlan := do
  let frostGroupKeyXonly ← validateXonlyHex plan.frostGroupKeyXonly
  let vaultRemainder ← plan.vaultRemainder.mapM VaultRemainderOutput.normalized
  return { plan with
    frostGroupKeyXonly
    inputs := normalizeInputs plan.inputs
    withdrawalBatch := plan.withdrawalBatch.map orderedBatch
    vaultRemainder }

def canonicalizedForHash : VaultSpendPlan :=
  { plan with
    frostGroupKeyXonly := toAsciiLowercase plan.frostGroupKeyXonly
    inputs := normalizeInputs plan.inputs
    withdrawalBatch := plan.withdrawalBatch.map orderedBatch
    vaultRemainder := plan.vaultRemainder.map fun remainder =>
      { remainder with frostGroupKeyXonly := toAsciiLowercase remainder.frostGroupKeyXonly } }

def inputTotalSats : Except VaultError Sats :=
  Vault.sumSats (plan.inputs.map VaultInput.amountSats)

def withdrawalNetTotalSats : Except VaultError Sats :=
  match plan.withdrawalBatch with
  | none => pure 0
  | some batch => Vault.sumSats (batch.outputs.map WithdrawalOutput.netAmountSats)

def vaultRemainderSats : Sats :=
  (plan.vaultRemainder.map VaultRemainderOutput.amountSats).getD 0

def validateWithdrawalBatch (batch : WithdrawalBatch) : Except VaultError Unit := do
  require (batch.outputs ≠ []) .emptyWithdrawalBatch
  require (batch.inputs.toNat = plan.inputs.length) (.batchInputCountMismatch batch.inputs plan.inputs.length)
  distinctForM WithdrawalOutput.requestId (fun output => .duplicateWithdrawalOutput output.requestId)
    (validateWithdrawalOutput crypto) [] batch.outputs
  let expectedVsize ← (estimateBatchVsize (BitVec.ofNat 64 plan.inputs.length)
    (BitVec.ofNat 64 (countKind .p2wpkh batch.outputs)) (BitVec.ofNat 64 (countKind .p2tr batch.outputs))).mapError
      .withdrawalBatchEstimate
  require (batch.estimatedVsize = expectedVsize) (.batchVsizeMismatch batch.estimatedVsize expectedVsize)
  let expectedFeeSats ← (estimateFeeSats expectedVsize batch.feeRateSatVb).mapError .withdrawalBatchEstimate
  require (batch.totalFeeSats = expectedFeeSats) (.batchFeeEstimateMismatch batch.totalFeeSats expectedFeeSats)

/-- All checks of a plan on the batch it carries. -/
def validateBatch (batch : WithdrawalBatch) : Except VaultError Unit := do
  plan.validateWithdrawalBatch crypto batch
  require (batch.totalFeeSats = plan.txFeeSats) (.batchFeeMismatch batch.totalFeeSats plan.txFeeSats)
  let outputFeeTotalSats ← Vault.sumSats (batch.outputs.map WithdrawalOutput.feeSats)
  require (outputFeeTotalSats = batch.totalFeeSats) (.batchOutputFeeMismatch outputFeeTotalSats batch.totalFeeSats)

/-- A remainder goes back to the epoch's own key, or on to another key of a later epoch. The keys are read only when
the epoch is right. -/
def validateRemainder (remainder : VaultRemainderOutput) : Except VaultError Unit :=
  match remainder.kind with
  | .sameEpochChange => do
    require (remainder.epochId = plan.epochId) .invalidRemainderTarget
    let remainderKey ← validateXonlyHex remainder.frostGroupKeyXonly
    let planKey ← validateXonlyHex plan.frostGroupKeyXonly
    require (remainderKey = planKey) .invalidRemainderTarget
  | .nextEpochRotation => do
    require (plan.epochId < remainder.epochId) .invalidRemainderTarget
    let remainderKey ← validateXonlyHex remainder.frostGroupKeyXonly
    let planKey ← validateXonlyHex plan.frostGroupKeyXonly
    require (remainderKey ≠ planKey) .invalidRemainderTarget

def validate : Except VaultError Unit := do
  require (plan.inputs ≠ []) .emptyVaultInputs
  let expectedScriptPubkeyHex ← vaultScriptPubkeyHex crypto plan.frostGroupKeyXonly
  plan.inputs.forM (validateInput crypto expectedScriptPubkeyHex)
  distinctForM (fun input => (input.txid, input.vout)) (fun input => .duplicateVaultInput input.txid input.vout)
    (fun _ => .ok ()) [] plan.inputs
  require (¬ (plan.withdrawalBatch = none ∧ plan.vaultRemainder = none)) .noSpendOutputs
  let withdrawalNetTotalSats ← plan.withdrawalNetTotalSats
  plan.withdrawalBatch.forM (plan.validateBatch crypto)
  plan.vaultRemainder.forM plan.validateRemainder
  let expectedSpend ← Vault.sumSats [withdrawalNetTotalSats, plan.txFeeSats, plan.vaultRemainderSats]
  let inputTotalSats ← plan.inputTotalSats
  require (inputTotalSats = expectedSpend) (.amountMismatch inputTotalSats expectedSpend)

def validateAgainstEpoch (epoch : VaultEpoch) : Except VaultError Unit := do
  require (plan.epochId = epoch.epochId) (.wrongEpoch epoch.epochId plan.epochId)
  let epochKey ← epoch.requiredGroupKey
  let planKey ← validateXonlyHex plan.frostGroupKeyXonly
  require (planKey = epochKey) (.wrongGroupKey epoch.epochId)
  plan.validate crypto

/-- The plan that pays a withdrawal batch. -/
def ofWithdrawalBatch (epoch : VaultEpoch) (inputs : List VaultInput) (batch : WithdrawalBatch)
    (vaultRemainder : Option VaultRemainderOutput) : Except VaultError VaultSpendPlan := do
  let frostGroupKeyXonly ← epoch.requiredGroupKey
  let plan ← normalized
    { epochId := epoch.epochId
      frostGroupKeyXonly
      inputs
      txFeeSats := batch.totalFeeSats
      withdrawalBatch := some batch
      vaultRemainder }
  plan.validateAgainstEpoch crypto epoch
  return plan

/-- The plan that moves the vault to the next epoch. -/
def rotation (currentEpoch nextEpoch : VaultEpoch) (inputs : List VaultInput) (txFeeSats : Sats) :
    Except VaultError VaultSpendPlan := do
  let frostGroupKeyXonly ← currentEpoch.requiredGroupKey
  let nextGroupKey ← nextEpoch.requiredGroupKey
  let inputs := inputs.map VaultInput.normalized
  let inputTotalSats ← Vault.sumSats (inputs.map VaultInput.amountSats)
  require (txFeeSats < inputTotalSats) (.feeExceedsInputs inputTotalSats txFeeSats)
  let plan ← normalized
    { epochId := currentEpoch.epochId
      frostGroupKeyXonly
      inputs
      withdrawalBatch := none
      txFeeSats
      vaultRemainder := some (.nextEpochRotation nextEpoch.epochId nextGroupKey (inputTotalSats - txFeeSats)) }
  plan.validateAgainstEpoch crypto currentEpoch
  return plan

end VaultSpendPlan

end P2PoolBTC.Model.Core
