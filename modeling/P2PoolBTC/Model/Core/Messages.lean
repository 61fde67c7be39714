import P2PoolBTC.Math.Checked
import P2PoolBTC.Math.SortBy
import P2PoolBTC.Math.Ascii

/-! # Sharechain messages

The nine kinds of gossip a replica replays, with the record each of them carries. Every record
has a normal form that folds the case of its hexadecimal and identifier fields; hashes and
stored copies are taken from normal forms.
-/

namespace P2PoolBTC.Model.Core

open Math

/-- Amounts of satoshis. -/
abbrev Sats := U64

/-- Hashrate and identity scores. -/
abbrev Score := U128

/-- The parent of the first share, and the parent tip of the first checkpoint. -/
def zeroShareParentHash : Text := List.replicate 64 '0'

/-- A reference to one Idena block. -/
structure IdenaBlockAnchorV1 where
  height : U64
  hash : Text
deriving DecidableEq

def IdenaBlockAnchorV1.normalized (anchor : IdenaBlockAnchorV1) : IdenaBlockAnchorV1 :=
  { anchor with hash := toAsciiLowercase anchor.hash }

/-- The on-chain registry record behind a miner registration. -/
structure MinerRegistryAnchorV1 where
  contractAddress : Text
  experimentId : Text
  registrationSequence : U32
  registrationBlock : U64
  registrationEpoch : U16
  registrationTimestamp : ℤ
  registrationCommitment : Text
deriving DecidableEq

def MinerRegistryAnchorV1.normalized (anchor : MinerRegistryAnchorV1) : MinerRegistryAnchorV1 :=
  { anchor with
    contractAddress := toAsciiLowercase anchor.contractAddress
    experimentId := toAsciiLowercase anchor.experimentId
    registrationCommitment := toAsciiLowercase anchor.registrationCommitment }

/-- A finalized checkpoint of the share tree, with the quorum that supported it. -/
structure SharechainCheckpointAnchorV1 where
  contractAddress : Text
  experimentId : Text
  round : U32
  shareTipHash : Text
  shareHeight : U64
  cumulativeScore : Text
  parentCheckpointTip : Text
  finalizationBlock : U64
  finalizationBlockHash : Text
  finalizationEpoch : U16
  finalizationTimestamp : ℤ
  supportCount : U32
  registeredCount : U32
  registeredMiners : List Text
  supporters : List Text
deriving DecidableEq

def SharechainCheckpointAnchorV1.normalized (checkpoint : SharechainCheckpointAnchorV1) :
    SharechainCheckpointAnchorV1 :=
  { checkpoint with
    contractAddress := toAsciiLowercase checkpoint.contractAddress
    experimentId := toAsciiLowercase checkpoint.experimentId
    shareTipHash := toAsciiLowercase checkpoint.shareTipHash
    parentCheckpointTip := toAsciiLowercase checkpoint.parentCheckpointTip
    finalizationBlockHash := toAsciiLowercase checkpoint.finalizationBlockHash
    registeredMiners := checkpoint.registeredMiners.map toAsciiLowercase
    supporters := checkpoint.supporters.map toAsciiLowercase }

/-- The coinbase commitment that binds proof of work to the fields of its share. -/
structure ShareWorkBindingV1 where
  schemaVersion : U16
  policyHash : Text
  minerId : Text
  assignedShareTarget : Text
  parentShareHash : Text
  idenaSnapshotId : Text
  idenaSnapshotProofRoot : Text
  idenaAnchor : IdenaBlockAnchorV1
  idenaAnchorPolicyHash : Text
  coinbaseTxHex : Text
  coinbaseMerkleBranches : List Text
deriving DecidableEq

def ShareWorkBindingV1.normalized (binding : ShareWorkBindingV1) : ShareWorkBindingV1 :=
  { binding with
    policyHash := toAsciiLowercase binding.policyHash
    minerId := toAsciiLowercase binding.minerId
    assignedShareTarget := toAsciiLowercase binding.assignedShareTarget
    parentShareHash := toAsciiLowercase binding.parentShareHash
    idenaSnapshotId := toAsciiLowercase binding.idenaSnapshotId
    idenaSnapshotProofRoot := toAsciiLowercase binding.idenaSnapshotProofRoot
    idenaAnchor := binding.idenaAnchor.normalized
    idenaAnchorPolicyHash := toAsciiLowercase binding.idenaAnchorPolicyHash
    coinbaseTxHex := toAsciiLowercase binding.coinbaseTxHex
    coinbaseMerkleBranches := binding.coinbaseMerkleBranches.map toAsciiLowercase }

/-- A miner's identity, keys and payout script. -/
structure MinerRegistration where
  version : U16
  minerId : Text
  idenaAddress : Text
  btcPayoutScriptHex : Text
  claimOwnerPubkeyHex : Text
  miningPubkeyHex : Text
  registryAnchor : Option MinerRegistryAnchorV1
  idenaSignatureHex : Text
  miningSignatureHex : Text
deriving DecidableEq

def MinerRegistration.normalized (registration : MinerRegistration) : MinerRegistration :=
  { registration with
    minerId := toAsciiLowercase registration.minerId
    idenaAddress := toAsciiLowercase registration.idenaAddress
    btcPayoutScriptHex := toAsciiLowercase registration.btcPayoutScriptHex
    claimOwnerPubkeyHex := toAsciiLowercase registration.claimOwnerPubkeyHex
    miningPubkeyHex := toAsciiLowercase registration.miningPubkeyHex
    registryAnchor := registration.registryAnchor.map MinerRegistryAnchorV1.normalized
    idenaSignatureHex := toAsciiLowercase registration.idenaSignatureHex
    miningSignatureHex := toAsciiLowercase registration.miningSignatureHex }

/-- A block template a miner announces before mining shares on it. -/
structure BitcoinWorkTemplate where
  version : U16
  minerId : Text
  headerPrefixHex : Text
  templateHash : Text
  assignedShareTarget : Option Text
  idenaAnchor : Option IdenaBlockAnchorV1
  idenaAnchorPolicyHash : Option Text
  createdAtUnix : ℤ
  miningSignatureHex : Text
deriving DecidableEq

def BitcoinWorkTemplate.normalized (template : BitcoinWorkTemplate) : BitcoinWorkTemplate :=
  { template with
    minerId := toAsciiLowercase template.minerId
    headerPrefixHex := toAsciiLowercase template.headerPrefixHex
    templateHash := toAsciiLowercase template.templateHash
    assignedShareTarget := template.assignedShareTarget.map toAsciiLowercase
    idenaAnchor := template.idenaAnchor.map IdenaBlockAnchorV1.normalized
    idenaAnchorPolicyHash := template.idenaAnchorPolicyHash.map toAsciiLowercase
    miningSignatureHex := toAsciiLowercase template.miningSignatureHex }

/-- One unit of proof of work on the share tree. -/
structure Share where
  minerId : Text
  bitcoinHeaderHex : Text
  bitcoinTemplateHash : Text
  nonceHex : Text
  workHash : Text
  target : Text
  idenaSnapshotId : Text
  idenaSnapshotProofRoot : Text
  hashrateScoreDelta : Score
  parentShareHash : Text
  workBinding : Option ShareWorkBindingV1
  miningSignatureHex : Text
deriving DecidableEq

def Share.normalized (share : Share) : Share :=
  { share with
    minerId := toAsciiLowercase share.minerId
    bitcoinHeaderHex := toAsciiLowercase share.bitcoinHeaderHex
    bitcoinTemplateHash := toAsciiLowercase share.bitcoinTemplateHash
    nonceHex := toAsciiLowercase share.nonceHex
    workHash := toAsciiLowercase share.workHash
    target := toAsciiLowercase share.target
    idenaSnapshotId := toAsciiLowercase share.idenaSnapshotId
    idenaSnapshotProofRoot := toAsciiLowercase share.idenaSnapshotProofRoot
    parentShareHash := toAsciiLowercase share.parentShareHash
    workBinding := share.workBinding.map ShareWorkBindingV1.normalized
    miningSignatureHex := toAsciiLowercase share.miningSignatureHex }

/-- A miner's vote for the score root of one day's identity snapshot. -/
structure SnapshotVote where
  voterMinerId : Text
  snapshotDay : Text
  idenaHeight : U64
  scoreRoot : Text
  signatureHex : Text
deriving DecidableEq

def SnapshotVote.normalized (vote : SnapshotVote) : SnapshotVote :=
  { vote with
    voterMinerId := toAsciiLowercase vote.voterMinerId
    scoreRoot := toAsciiLowercase vote.scoreRoot
    signatureHex := toAsciiLowercase vote.signatureHex }

/-- A payout made directly in the coinbase. -/
structure DirectPayout where
  minerId : Text
  btcPayoutScriptHex : Text
  amountSats : Sats
deriving DecidableEq

/-- A payout credited to a claim on the vault. -/
structure VaultAllocation where
  minerId : Text
  claimOwnerId : Text
  amountSats : Sats
deriving DecidableEq

/-- How one block reward is paid out. -/
structure PayoutSchedule where
  directOutputs : List DirectPayout
  vaultAllocations : List VaultAllocation
  vaultOutputSats : Sats
  payoutRoot : Text
deriving DecidableEq

/-- The normal form a schedule takes inside a hashed message. -/
def PayoutSchedule.normalizedForHash (schedule : PayoutSchedule) : PayoutSchedule :=
  { schedule with
    directOutputs := schedule.directOutputs.map fun output =>
      { output with
        minerId := toAsciiLowercase output.minerId
        btcPayoutScriptHex := toAsciiLowercase output.btcPayoutScriptHex }
    vaultAllocations := schedule.vaultAllocations.map fun allocation =>
      { allocation with
        minerId := toAsciiLowercase allocation.minerId
        claimOwnerId := toAsciiLowercase allocation.claimOwnerId }
    payoutRoot := toAsciiLowercase schedule.payoutRoot }

/-- The two output scripts a withdrawal may pay to. -/
inductive WithdrawalOutputKind where
  | p2wpkh
  | p2tr
deriving DecidableEq

/-- A signed request to pay out part of a claim. -/
structure WithdrawalRequest where
  requestId : Text
  claimOwnerId : Text
  claimOwnerPubkeyHex : Text
  destinationScriptHex : Text
  amountSats : Sats
  maxFeeRateSatVb : U64
  nonce : U64
  expiryHeight : U64
  signatureHex : Option Text
  outputKind : WithdrawalOutputKind
deriving DecidableEq

def WithdrawalRequest.normalized (request : WithdrawalRequest) : WithdrawalRequest :=
  { request with
    claimOwnerId := toAsciiLowercase request.claimOwnerId
    claimOwnerPubkeyHex := toAsciiLowercase request.claimOwnerPubkeyHex
    destinationScriptHex := toAsciiLowercase request.destinationScriptHex
    signatureHex := request.signatureHex.map toAsciiLowercase }

/-- One output of a withdrawal transaction. -/
structure WithdrawalOutput where
  requestId : Text
  destinationScriptHex : Text
  outputKind : WithdrawalOutputKind
  grossAmountSats : Sats
  feeSats : Sats
  netAmountSats : Sats
deriving DecidableEq

def WithdrawalOutput.normalized (output : WithdrawalOutput) : WithdrawalOutput :=
  { output with destinationScriptHex := toAsciiLowercase output.destinationScriptHex }

/-- The withdrawals paid by one vault transaction. -/
structure WithdrawalBatch where
  inputs : U64
  feeRateSatVb : U64
  estimatedVsize : U64
  totalFeeSats : Sats
  outputs : List WithdrawalOutput
deriving DecidableEq

/-- Outputs in request order; the sort is stable. -/
def WithdrawalBatch.normalized (batch : WithdrawalBatch) : WithdrawalBatch :=
  { batch with
    outputs := sortBy (compareOn WithdrawalOutput.requestId)
      (batch.outputs.map WithdrawalOutput.normalized) }

/-- The proof-of-humanity data a block commits to. -/
structure PohwCommitment where
  version : Text
  idenaSnapshotId : Text
  idenaScoreRoot : Text
  minerIdenaAddress : Text
  identityProofRoot : Text
  sharechainTip : Text
  sharechainStateRoot : Option Text
  payoutScheduleRoot : Text
  vaultEpochId : U64
  frostVaultKeyXonly : Text
deriving DecidableEq

def PohwCommitment.normalized (commitment : PohwCommitment) : PohwCommitment :=
  { commitment with
    version := toAsciiUppercase commitment.version
    idenaSnapshotId := toAsciiLowercase commitment.idenaSnapshotId
    idenaScoreRoot := toAsciiLowercase commitment.idenaScoreRoot
    minerIdenaAddress := toAsciiLowercase commitment.minerIdenaAddress
    identityProofRoot := toAsciiLowercase commitment.identityProofRoot
    sharechainTip := toAsciiLowercase commitment.sharechainTip
    sharechainStateRoot := commitment.sharechainStateRoot.map toAsciiLowercase
    payoutScheduleRoot := toAsciiLowercase commitment.payoutScheduleRoot
    frostVaultKeyXonly := toAsciiLowercase commitment.frostVaultKeyXonly }

/-- Everything a replica replays. -/
inductive SharechainMessage where
  | minerRegistration (registration : MinerRegistration)
  | bitcoinWorkTemplate (template : BitcoinWorkTemplate)
  | share (share : Share)
  | sharechainCheckpoint (checkpoint : SharechainCheckpointAnchorV1)
  | snapshotVote (vote : SnapshotVote)
  | payoutSchedule (schedule : PayoutSchedule)
  | withdrawalRequest (request : WithdrawalRequest)
  | withdrawalBatch (batch : WithdrawalBatch)
  | pohwCommitment (commitment : PohwCommitment)
deriving DecidableEq

def SharechainMessage.normalized : SharechainMessage → SharechainMessage
  | .minerRegistration registration => .minerRegistration registration.normalized
  | .bitcoinWorkTemplate template => .bitcoinWorkTemplate template.normalized
  | .share mined => .share mined.normalized
  | .sharechainCheckpoint checkpoint => .sharechainCheckpoint checkpoint.normalized
  | .snapshotVote vote => .snapshotVote vote.normalized
  | .payoutSchedule schedule => .payoutSchedule schedule.normalizedForHash
  | .withdrawalRequest request => .withdrawalRequest request.normalized
  | .withdrawalBatch batch => .withdrawalBatch batch.normalized
  | .pohwCommitment commitment => .pohwCommitment commitment.normalized

section Idempotence

@[simp] theorem IdenaBlockAnchorV1.normalized_idem (anchor : IdenaBlockAnchorV1) :
    anchor.normalized.normalized = anchor.normalized := by
  simp [normalized]

@[simp] theorem MinerRegistryAnchorV1.normalized_idem (anchor : MinerRegistryAnchorV1) :
    anchor.normalized.normalized = anchor.normalized := by
  simp [normalized]

@[simp] theorem SharechainCheckpointAnchorV1.normalized_idem (checkpoint : SharechainCheckpointAnchorV1) :
    checkpoint.normalized.normalized = checkpoint.normalized := by
  simp [normalized]

@[simp] theorem ShareWorkBindingV1.normalized_idem (binding : ShareWorkBindingV1) :
    binding.normalized.normalized = binding.normalized := by
  simp [normalized]

@[simp] theorem MinerRegistration.normalized_idem (registration : MinerRegistration) :
    registration.normalized.normalized = registration.normalized := by
  simp [normalized, Function.comp_def]

@[simp] theorem BitcoinWorkTemplate.normalized_idem (template : BitcoinWorkTemplate) :
    template.normalized.normalized = template.normalized := by
  simp [normalized, Function.comp_def]

@[simp] theorem Share.normalized_idem (share : Share) :
    share.normalized.normalized = share.normalized := by
  simp [normalized, Function.comp_def]

@[simp] theorem SnapshotVote.normalized_idem (vote : SnapshotVote) :
    vote.normalized.normalized = vote.normalized := by
  simp [normalized]

@[simp] theorem PayoutSchedule.normalizedForHash_idem (schedule : PayoutSchedule) :
    schedule.normalizedForHash.normalizedForHash = schedule.normalizedForHash := by
  simp [normalizedForHash]

@[simp] theorem WithdrawalRequest.normalized_idem (request : WithdrawalRequest) :
    request.normalized.normalized = request.normalized := by
  simp [normalized, Function.comp_def]

@[simp] theorem WithdrawalOutput.normalized_idem (output : WithdrawalOutput) :
    output.normalized.normalized = output.normalized := by
  simp [normalized]

private theorem sorted_outputs_normalized (outputs : List WithdrawalOutput) :
    (sortBy (compareOn WithdrawalOutput.requestId) (outputs.map WithdrawalOutput.normalized)).map
        WithdrawalOutput.normalized =
      sortBy (compareOn WithdrawalOutput.requestId) (outputs.map WithdrawalOutput.normalized) := by
  conv_rhs => rw [← List.map_id (sortBy _ (outputs.map WithdrawalOutput.normalized))]
  apply List.map_congr_left
  intro output member
  obtain ⟨raw, -, rfl⟩ := List.mem_map.mp ((mem_sortBy _).mp member)
  exact raw.normalized_idem

@[simp] theorem WithdrawalBatch.normalized_idem (batch : WithdrawalBatch) :
    batch.normalized.normalized = batch.normalized := by
  simp only [normalized, sorted_outputs_normalized, sortBy_sortBy]

@[simp] theorem PohwCommitment.normalized_idem (commitment : PohwCommitment) :
    commitment.normalized.normalized = commitment.normalized := by
  simp [normalized, Function.comp_def]

@[simp] theorem SharechainMessage.normalized_idem (message : SharechainMessage) :
    message.normalized.normalized = message.normalized := by
  cases message <;> simp [normalized]

end Idempotence

end P2PoolBTC.Model.Core
