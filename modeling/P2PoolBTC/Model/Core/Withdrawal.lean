import P2PoolBTC.Model.Core.Sharechain

/-! # Withdrawal requests and batches

A request is signed by the key that owns the claim, and names the script and the fee rate it
accepts. A batch splits one transaction fee over its requests as evenly as integers allow.
-/

namespace P2PoolBTC.Model.Core

open Math

variable (crypto : Crypto)

def minWithdrawalRequestSats : Sats := 10000

def p2wpkhDustSats : Sats := 546

def p2trDustSats : Sats := 330

def maxWithdrawalRequestIdLen : ℕ := 64

inductive WithdrawalError where
  | emptyBatch
  | inputCountZero
  | duplicateRequest (requestId : Text)
  | invalidRequestId (requestId : Text) (reason : String)
  | expired (requestId : Text) (expiryHeight currentHeight : U64)
  | amountBelowMinimum (requestId : Text) (amountSats minimumSats : Sats)
  | dustOutput (requestId : Text) (netAmountSats : Sats) (outputKind : WithdrawalOutputKind)
  | invalidDestinationScript (requestId : Text) (outputKind : WithdrawalOutputKind) (reason : String)
  | missingSignature (requestId : Text)
  | invalidOwnerPubkey (requestId : Text) (reason : String)
  | ownerIdPubkeyMismatch (requestId : Text)
  | invalidSignature (requestId : Text) (reason : String)
  | feeRateTooHigh (requestId : Text) (feeRateSatVb maxFeeRateSatVb : U64)
  | feeExceedsAmount (requestId : Text) (amountSats feeSats : Sats)
  | vsizeOverflow
  | feeOverflow
deriving DecidableEq

def dustThreshold : WithdrawalOutputKind → Sats
  | .p2wpkh => p2wpkhDustSats
  | .p2tr => p2trDustSats

def validateRequestId (requestId : Text) : Except WithdrawalError Unit := do
  require (requestId ≠ [] ∧ byteLength requestId ≤ maxWithdrawalRequestIdLen)
    (.invalidRequestId requestId ("must be 1-" ++ toString maxWithdrawalRequestIdLen ++ " characters"))
  require (requestId.all isMinerIdChar = true)
    (.invalidRequestId requestId "must contain only ASCII letters, digits, '-', '_' or '.'")

/-- The script template and length that belong to an output kind. -/
def WithdrawalOutputKind.scriptHexLen : WithdrawalOutputKind → ℕ
  | .p2wpkh => p2wpkhScriptHexLen
  | .p2tr => p2trScriptHexLen

def WithdrawalOutputKind.matchesScript : WithdrawalOutputKind → List UInt8 → Bool
  | .p2wpkh => isP2wpkh
  | .p2tr => isP2tr

/-- Every entry is of one of the two kinds. -/
theorem countP_kinds {α : Type} (kindOf : α → WithdrawalOutputKind) (entries : List α) :
    (entries.countP fun entry => kindOf entry = .p2wpkh) + (entries.countP fun entry => kindOf entry = .p2tr) =
      entries.length := by
  induction entries with
  | nil => rfl
  | cons entry rest ih =>
    rw [List.countP_cons, List.countP_cons, List.length_cons, ← ih]
    cases kindOf entry <;> simp <;> omega

def validateDestinationScriptPolicy (requestId destinationScriptHex : Text) (outputKind : WithdrawalOutputKind)
    (netAmountSats : Sats) : Except WithdrawalError Unit := do
  validateRequestId requestId
  require (dustThreshold outputKind ≤ netAmountSats) (.dustOutput requestId netAmountSats outputKind)
  require (IsHexOfLength destinationScriptHex outputKind.scriptHexLen)
    (.invalidDestinationScript requestId outputKind
      ("script must be " ++ toString outputKind.scriptHexLen ++ " hex characters"))
  let script ← okOr (hexDecode? destinationScriptHex)
    (.invalidDestinationScript requestId outputKind (crypto.hexDecodeError destinationScriptHex))
  require (outputKind.matchesScript script = true)
    (.invalidDestinationScript requestId outputKind "script template does not match output kind")

namespace WithdrawalRequest

variable (request : WithdrawalRequest)

def signingPayload : WithdrawalSigningPayload :=
  { requestId := request.requestId
    claimOwnerId := toAsciiLowercase request.claimOwnerId
    claimOwnerPubkeyHex := toAsciiLowercase request.claimOwnerPubkeyHex
    destinationScriptHex := toAsciiLowercase request.destinationScriptHex
    amountSats := request.amountSats
    maxFeeRateSatVb := request.maxFeeRateSatVb
    nonce := request.nonce
    expiryHeight := request.expiryHeight
    outputKind := request.outputKind }

def signingHash : Digest := crypto.sha256Tagged (.withdrawalRequest request.signingPayload)

def validateDestinationScript (netAmountSats : Sats) : Except WithdrawalError Unit :=
  validateDestinationScriptPolicy crypto request.requestId request.destinationScriptHex
    request.outputKind netAmountSats

def verifyOwnerSignature : Except WithdrawalError Unit := do
  let signatureHex ← okOr request.signatureHex (.missingSignature request.requestId)
  require (IsHexOfLength signatureHex schnorrSignatureHexLen)
    (.invalidSignature request.requestId
      ("signature must be " ++ toString schnorrSignatureHexLen ++ " hex characters"))
  let ownerPubkey ← (crypto.xOnlyPublicKeyFromStr request.claimOwnerPubkeyHex).mapError
    (.invalidOwnerPubkey request.requestId)
  let signature ← okOr (hexDecode? signatureHex)
    (.invalidSignature request.requestId (crypto.hexDecodeError signatureHex))
  (crypto.verifySchnorr signature (request.signingHash crypto) ownerPubkey).mapError
    (.invalidSignature request.requestId)

/-- Checks on a request whose fields are already in normal form. -/
def validateNormalized (currentHeight : U64) : Except WithdrawalError Unit := do
  validateRequestId request.requestId
  require (currentHeight ≤ request.expiryHeight)
    (.expired request.requestId request.expiryHeight currentHeight)
  require (minWithdrawalRequestSats ≤ request.amountSats)
    (.amountBelowMinimum request.requestId request.amountSats minWithdrawalRequestSats)
  require (request.claimOwnerId = request.claimOwnerPubkeyHex) (.ownerIdPubkeyMismatch request.requestId)
  request.validateDestinationScript crypto request.amountSats
  request.verifyOwnerSignature crypto

def validate (currentHeight : U64) : Except WithdrawalError Unit :=
  request.normalized.validateNormalized crypto currentHeight

end WithdrawalRequest

/-- Transaction weight in half virtual bytes, rounded up. -/
def estimateBatchVsize (inputs p2wpkhOutputs p2trOutputs : U64) : Except WithdrawalError U64 := do
  let inputWeight ← okOr (checkedMul 115 inputs) .vsizeOverflow
  let p2wpkhWeight ← okOr (checkedMul 62 p2wpkhOutputs) .vsizeOverflow
  let p2trWeight ← okOr (checkedMul 86 p2trOutputs) .vsizeOverflow
  let withInputs ← okOr (checkedAdd 21 inputWeight) .vsizeOverflow
  let withP2wpkh ← okOr (checkedAdd withInputs p2wpkhWeight) .vsizeOverflow
  let weightX2 ← okOr (checkedAdd withP2wpkh p2trWeight) .vsizeOverflow
  return BitVec.ofNat 64 ((weightX2.toNat + 1) / 2)

def estimateFeeSats (vsize feeRateSatVb : U64) : Except WithdrawalError Sats :=
  okOr (checkedMul vsize feeRateSatVb) .feeOverflow

/-- Neighbours of a sorted list with one identifier. -/
def rejectDuplicateRequests : List WithdrawalRequest → Except WithdrawalError Unit
  | first :: second :: rest => do
    require (first.requestId ≠ second.requestId) (.duplicateRequest first.requestId)
    rejectDuplicateRequests (second :: rest)
  | _ => pure ()

/-- One output per request; the first `remainder` of them pay one satoshi more. -/
def chargeRequests (baseFee : Sats) : Sats → List WithdrawalRequest → Except WithdrawalError (List WithdrawalOutput)
  | _, [] => pure []
  | remainder, request :: rest => do
    let feeSats := if remainder = 0 then baseFee else baseFee + 1
    require (feeSats < request.amountSats)
      (.feeExceedsAmount request.requestId request.amountSats feeSats)
    request.validateDestinationScript crypto (request.amountSats - feeSats)
    let outputs ← chargeRequests baseFee (if remainder = 0 then 0 else remainder - 1) rest
    return {
      requestId := request.requestId
      destinationScriptHex := request.destinationScriptHex
      outputKind := request.outputKind
      grossAmountSats := request.amountSats
      feeSats
      netAmountSats := request.amountSats - feeSats } :: outputs

def buildWithdrawalBatch (requests : List WithdrawalRequest) (inputs feeRateSatVb : U64) (currentHeight : U64) :
    Except WithdrawalError WithdrawalBatch := do
  require (requests ≠ []) .emptyBatch
  require (inputs ≠ 0) .inputCountZero
  let sorted := sortBy (compareOn WithdrawalRequest.requestId) (requests.map WithdrawalRequest.normalized)
  rejectDuplicateRequests sorted
  sorted.forM fun request => do
    request.validate crypto currentHeight
    require (feeRateSatVb ≤ request.maxFeeRateSatVb)
      (.feeRateTooHigh request.requestId feeRateSatVb request.maxFeeRateSatVb)
  let p2wpkhOutputs := (sorted.filter fun request => request.outputKind = .p2wpkh).length
  let p2trOutputs := sorted.length - p2wpkhOutputs
  let estimatedVsize ←
    estimateBatchVsize inputs (BitVec.ofNat 64 p2wpkhOutputs) (BitVec.ofNat 64 p2trOutputs)
  let totalFeeSats ← estimateFeeSats estimatedVsize feeRateSatVb
  let count : Sats := BitVec.ofNat 64 sorted.length
  let outputs ← chargeRequests crypto (totalFeeSats / count) (totalFeeSats % count) sorted
  return { inputs, feeRateSatVb, estimatedVsize, totalFeeSats, outputs }

def WithdrawalBatch.batchHash (batch : WithdrawalBatch) : Text :=
  taggedHashHex crypto (.withdrawalBatch batch.normalized)

end P2PoolBTC.Model.Core
