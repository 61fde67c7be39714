import P2PoolBTC.Model.Core.Bitcoin
import P2PoolBTC.Model.Core.Vault

/-! # Vault transactions

The unsigned transaction of a spend plan, with the outputs it spends attached for signing. The inputs and
the withdrawals are sorted again, on their texts as written, and parsed.
-/

namespace P2PoolBTC.Model.Core

open Math

/-- The primitives that vault spends use besides the others. A taproot output commits to the tweaked key in a
version-one witness program. -/
structure VaultCrypto extends Crypto where
  spendPlanDigest : VaultSpendPlan → Digest
  tapTweakedKey : Digest → Digest
  tapSighash : Transaction → List TxOut → ℕ → Digest
  txidFromStrError : Text → String
  newP2trScriptHex_eq : ∀ internalKey,
    newP2trScriptHex internalKey = hexEncode (0x51 :: 0x20 :: (tapTweakedKey internalKey).bytes)

/-- The script that pays an internal key by its taproot key path. -/
def VaultCrypto.newP2tr (crypto : VaultCrypto) (internalKey : Digest) : List UInt8 :=
  0x51 :: 0x20 :: (crypto.tapTweakedKey internalKey).bytes

def VaultSpendPlan.planHash (crypto : VaultCrypto) (plan : VaultSpendPlan) : Text :=
  hashHex (crypto.spendPlanDigest plan.canonicalizedForHash)

/-- A transaction identifier from its text, which shows the bytes in reverse. -/
def txidFromStr? (text : Text) : Option Digest :=
  match hexDecode? text with
  | some bytes => if size : bytes.reverse.length = 32 then some ⟨bytes.reverse, size⟩ else none
  | none => none

/-- What a partially signed transaction records of one input. -/
structure PsbtInput where
  witnessUtxo : Option TxOut := none
  tapInternalKey : Option Digest := none
deriving DecidableEq

structure Psbt where
  unsignedTx : Transaction
  inputs : List PsbtInput
deriving DecidableEq

structure VaultTransactionPlan where
  spendPlanHash : Text
  vaultScriptPubkey : List UInt8
  unsignedTx : Transaction
  psbt : Psbt
deriving DecidableEq

inductive VaultTxError where
  | invalidVaultKey (reason : String)
  | invalidInputTxid (txid : Text) (reason : String)
  | invalidDestinationScript (requestId : Text) (reason : String)
  | withdrawalOutputPolicy (requestId : Text) (reason : WithdrawalError)
  | invalidSpendPlan (reason : VaultError ⊕ String)
  | psbt (reason : String)
  | missingWitnessUtxo (input : ℕ)
  | psbtInputCountMismatch (psbtInputs txInputs : ℕ)
deriving DecidableEq

section Building

variable (crypto : VaultCrypto)

def sortedInputs (inputs : List VaultInput) : List VaultInput := sortBy Vault.compareInputs inputs

/-- The sequence number that signals replaceability and sets no lock time. -/
def enableRbfNoLocktime : U32 := 0xFFFFFFFD

def vaultTxIn (input : VaultInput) : Except VaultTxError TxIn := do
  let txid ← okOr (txidFromStr? input.txid) (.invalidInputTxid input.txid (crypto.txidFromStrError input.txid))
  return {
    previousOutput := { txid, vout := input.vout }
    scriptSig := []
    sequence := enableRbfNoLocktime
    witness := [] }

def withdrawalTxOut (output : WithdrawalOutput) : Except VaultTxError TxOut := do
  (validateDestinationScriptPolicy crypto.toCrypto output.requestId output.destinationScriptHex output.outputKind
    output.netAmountSats).mapError (.withdrawalOutputPolicy output.requestId)
  let script ← okOr (hexDecode? output.destinationScriptHex)
    (.invalidDestinationScript output.requestId (crypto.hexDecodeError output.destinationScriptHex))
  return { value := output.netAmountSats, scriptPubkey := script }

def remainderTxOut (remainder : VaultRemainderOutput) : Except VaultTxError TxOut := do
  let remainderKey ← (crypto.xOnlyPublicKeyFromStr remainder.frostGroupKeyXonly).mapError .invalidVaultKey
  return { value := remainder.amountSats, scriptPubkey := crypto.newP2tr remainderKey }

/-- A transaction to be signed has no scripts or witnesses yet. -/
def psbtFromUnsignedTx (transaction : Transaction) : Except VaultTxError Psbt := do
  require (∀ input ∈ transaction.input, input.scriptSig = [])
    (.psbt "the unsigned transaction has script sigs")
  require (∀ input ∈ transaction.input, input.witness = [])
    (.psbt "the unsigned transaction has script witnesses")
  return { unsignedTx := transaction, inputs := transaction.input.map fun _ => {} }

/-- The output an input spends, with the key that signs for it. -/
def vaultPsbtInput (internalKey : Digest) (input : VaultInput) : Except VaultTxError PsbtInput := do
  let script ← okOr (hexDecode? input.scriptPubkeyHex)
    (.invalidSpendPlan (.inr ("vault input " ++ String.ofList input.txid ++ ":" ++ toString input.vout.toNat ++
      " scriptPubKey is invalid hex: " ++ crypto.hexDecodeError input.scriptPubkeyHex)))
  return {
    witnessUtxo := some { value := input.amountSats, scriptPubkey := script }
    tapInternalKey := some internalKey }

/-- The outputs of the withdrawal batch in the order of the requests. -/
def withdrawalTxOuts (plan : VaultSpendPlan) : Except VaultTxError (List TxOut) :=
  match plan.withdrawalBatch with
  | none => pure []
  | some batch => (Vault.normalizeWithdrawalOutputs batch.outputs).mapM (withdrawalTxOut crypto)

def buildVaultPsbt (plan : VaultSpendPlan) : Except VaultTxError VaultTransactionPlan := do
  (plan.validate crypto.toCrypto).mapError fun error => .invalidSpendPlan (.inl error)
  let internalKey ← (crypto.xOnlyPublicKeyFromStr plan.frostGroupKeyXonly).mapError .invalidVaultKey
  let inputs := sortedInputs plan.inputs
  let txInputs ← inputs.mapM (vaultTxIn crypto)
  let withdrawals ← withdrawalTxOuts crypto plan
  let remainder ← plan.vaultRemainder.mapM (remainderTxOut crypto)
  let unsignedTx : Transaction :=
    { version := 2, lockTime := 0, input := txInputs, output := withdrawals ++ remainder.toList }
  let psbt ← psbtFromUnsignedTx unsignedTx
  let psbtInputs ← inputs.mapM (vaultPsbtInput crypto internalKey)
  return {
    spendPlanHash := plan.planHash crypto
    vaultScriptPubkey := crypto.newP2tr internalKey
    unsignedTx
    psbt := { psbt with inputs := psbtInputs } }

/-- The digests to sign. Every one commits to all outputs that the transaction spends. -/
def vaultInputSighashes (txPlan : VaultTransactionPlan) : Except VaultTxError (List Text) := do
  require (txPlan.psbt.inputs.length = txPlan.unsignedTx.input.length)
    (.psbtInputCountMismatch txPlan.psbt.inputs.length txPlan.unsignedTx.input.length)
  let prevouts ← txPlan.psbt.inputs.zipIdx.mapM fun input => okOr input.1.witnessUtxo (.missingWitnessUtxo input.2)
  return (List.range txPlan.unsignedTx.input.length).map fun inputIndex =>
    hashHex (crypto.tapSighash txPlan.unsignedTx prevouts inputIndex)

end Building

end P2PoolBTC.Model.Core
