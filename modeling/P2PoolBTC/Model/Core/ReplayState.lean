import P2PoolBTC.Model.Core.ShareTree

/-! # The replay state

Every gossiped message is validated against the state and then applied to it, once. A handler that
fails keeps what it wrote before it failed.
-/

namespace P2PoolBTC.Model.Core

open Math Std

variable (crypto : Crypto)

inductive ApplyOutcome where
  | applied
  | duplicateIgnored
deriving DecidableEq

/-- Everything replayed from the message log. -/
structure SharechainReplayState extends ShareTree where
  appliedMessageHashes : ExtTreeSet Text := ∅
  acceptedBitcoinWorkTemplatePrefixes : ExtTreeMap Text Text := ∅
  bitcoinWorkTemplates : ExtTreeMap Text BitcoinWorkTemplate := ∅
  registrations : ExtTreeMap Text MinerRegistration := ∅
  snapshotVotes : ExtTreeMap SnapshotVoteKey (ExtTreeSet Text) := ∅
  proposedPayoutSchedules : ExtTreeMap Text PayoutSchedule := ∅
  withdrawalRequests : ExtTreeMap Text WithdrawalRequest := ∅
  withdrawalBatches : ExtTreeMap Text WithdrawalBatch := ∅
  claimLedger : ClaimLedger := {}
  lastMessageHash : Option Text := none
deriving DecidableEq

/-- Routines of the replay. -/
abbrev Replay := Routine SharechainReplayState SharechainReplayError

/-- Run a routine of the share tree. -/
def onTree {α : Type} (routine : Routine ShareTree SharechainReplayError α) : Replay α :=
  focus SharechainReplayState.toShareTree (fun tree state => { state with toShareTree := tree }) id routine

/-- Run a routine of the claim ledger. -/
def onLedger {α : Type} (routine : Routine ClaimLedger LedgerError α) : Replay α :=
  focus SharechainReplayState.claimLedger (fun claimLedger state => { state with claimLedger })
    SharechainReplayError.ledger routine

/-- An upgrade keeps the miner's keys and moves to a later registry anchor of one contract. -/
def isValidRegistryRegistrationUpgrade (existing candidate : MinerRegistration) : Bool :=
  if candidate.version = idenaAnchoredMinerRegistrationVersion ∧
      EqIgnoreAsciiCase existing.minerId candidate.minerId ∧
      EqIgnoreAsciiCase existing.idenaAddress candidate.idenaAddress ∧
      EqIgnoreAsciiCase existing.btcPayoutScriptHex candidate.btcPayoutScriptHex ∧
      EqIgnoreAsciiCase existing.claimOwnerPubkeyHex candidate.claimOwnerPubkeyHex ∧
      EqIgnoreAsciiCase existing.miningPubkeyHex candidate.miningPubkeyHex then
    match candidate.registryAnchor, existing.registryAnchor with
    | none, _ => false
    | some _, none => true
    | some candidateAnchor, some existingAnchor =>
      EqIgnoreAsciiCase candidateAnchor.contractAddress existingAnchor.contractAddress ∧
        EqIgnoreAsciiCase candidateAnchor.experimentId existingAnchor.experimentId ∧
        existingAnchor.registrationSequence < candidateAnchor.registrationSequence
  else false

/-- The stored form of a registration: its texts in lower case, its anchor as it came. -/
def MinerRegistration.stored (registration : MinerRegistration) : MinerRegistration :=
  { registration.normalized with registryAnchor := registration.registryAnchor }

/-- The version of the header a template is for. -/
def BitcoinWorkTemplate.bitcoinHeaderVersion (template : BitcoinWorkTemplate) : Except SharechainError U32 := do
  let headerPrefix ← decodeBitcoinHeaderPrefixHex crypto template.headerPrefixHex
  return BitVec.ofNat 32 (bigEndianValue (headerPrefix.take 4).reverse)

def IdenaAnchorPolicyV2.bootstrapLimitsActive (policy : IdenaAnchorPolicyV2) (bitcoinHeaderVersion : U32) :
    Bool :=
  bitcoinHeaderVersion &&& (1 <<< policy.handoffVersionBit.toNat) == 0

/-- The key a vote is accounted under. -/
def SnapshotVoteKey.accountingKey (key : SnapshotVoteKey) : SnapshotVoteKey :=
  { key with scoreRoot := toAsciiLowercase key.scoreRoot }

namespace SharechainReplayState

variable (state : SharechainReplayState)

/-- The registration of a miner. -/
def registrationOf (minerId : Text) (unknown : Text → SharechainReplayError) :
    Except SharechainReplayError MinerRegistration :=
  okOr state.registrations[toAsciiLowercase minerId]? (unknown (toAsciiLowercase minerId))

/-- The accepted template a share or message refers to. -/
def templateOf (templateHash : Text) : Except SharechainReplayError BitcoinWorkTemplate :=
  okOr state.bitcoinWorkTemplates[toAsciiLowercase templateHash]?
    (.unknownShareBitcoinWorkTemplate (toAsciiLowercase templateHash))

/-- Record an accepted prefix. The new prefix is written before it is compared with the old one. -/
def acceptPrefix (templateHash headerPrefixHex : Text) : Replay Text := do
  let normalizedPrefix := toAsciiLowercase headerPrefixHex
  let existingPrefix := (← get).acceptedBitcoinWorkTemplatePrefixes[templateHash]?
  modify fun state => { state with
    acceptedBitcoinWorkTemplatePrefixes :=
      state.acceptedBitcoinWorkTemplatePrefixes.insert templateHash normalizedPrefix }
  attempt (require (existingPrefix.all (· == normalizedPrefix) = true)
    (.conflictingBitcoinWorkTemplate templateHash))
  return templateHash

def acceptBitcoinWorkTemplatePrefix (headerPrefixHex : Text) : Replay Text := do
  let templateHash ← attempt ((BitcoinWorkTemplate.templateHashForHeaderPrefixHex crypto
    headerPrefixHex).mapError .invalidSharechainSignature)
  acceptPrefix templateHash headerPrefixHex

def acceptBitcoinWorkTemplate (template : BitcoinWorkTemplate) : Replay Text := do
  attempt ((template.verifyTemplateHash crypto).mapError .invalidSharechainSignature)
  acceptPrefix (toAsciiLowercase template.templateHash) template.headerPrefixHex

def applyRegistration (registration : MinerRegistration) : Replay Unit := do
  attempt ((registration.verifyMiningSignature crypto).mapError .invalidSharechainSignature)
  attempt ((registration.verifyIdenaOwnershipSignature crypto).mapError .invalidSharechainSignature)
  let registration := registration.stored
  let state ← get
  let existing := state.registrations[registration.minerId]?
  if existing = some registration then pure ()
  else
    attempt (require (existing.all (isValidRegistryRegistrationUpgrade · registration) = true)
      (.conflictingRegistration registration.minerId))
    set { state with registrations := state.registrations.insert registration.minerId registration }

/-- The checks of a template before it is stored. -/
def validateBitcoinWorkTemplate (template : BitcoinWorkTemplate) : Except SharechainReplayError Unit := do
  let registration ← state.registrationOf template.minerId .unknownBitcoinWorkTemplateMiner
  (template.verifyMiningSignature crypto registration.miningPubkeyHex).mapError .invalidSharechainSignature
  let templateHash := toAsciiLowercase template.templateHash
  let acceptedPrefix ← okOr state.acceptedBitcoinWorkTemplatePrefixes[templateHash]?
    (.unacceptedBitcoinWorkTemplate templateHash)
  require (EqIgnoreAsciiCase template.headerPrefixHex acceptedPrefix)
    (.conflictingBitcoinWorkTemplate templateHash)

/-- The template is stored before it is compared with the one it replaces. -/
def applyBitcoinWorkTemplate (template : BitcoinWorkTemplate) : Replay Unit := do
  let state ← get
  attempt (state.validateBitcoinWorkTemplate crypto template)
  let templateHash := toAsciiLowercase template.templateHash
  set { state with
    bitcoinWorkTemplates := state.bitcoinWorkTemplates.insert templateHash template.normalized }
  attempt (require (state.bitcoinWorkTemplates[templateHash]?.all (· == template.normalized) = true)
    (.conflictingBitcoinWorkTemplate templateHash))

def validateShareBitcoinWorkTemplate (share : Share) : Except SharechainReplayError Unit := do
  let template ← state.templateOf share.bitcoinTemplateHash
  let sharePrefix ← (share.bitcoinHeaderPrefixHex crypto).mapError .invalidSharechainSignature
  require (EqIgnoreAsciiCase sharePrefix template.headerPrefixHex)
    (.shareBitcoinWorkTemplateMismatch (toAsciiLowercase share.bitcoinTemplateHash))
  (template.verifyAssignedShareTarget crypto share.target).mapError .invalidSharechainSignature

/-- The checks of a share before it enters the tree. -/
def validateShare (share : Share) : Except SharechainReplayError Unit := do
  let registration ← state.registrationOf share.minerId .unknownShareMiner
  let template ← state.templateOf share.bitcoinTemplateHash
  (share.verifyMiningSignatureForTemplate crypto registration.miningPubkeyHex template).mapError
    .invalidSharechainSignature
  state.validateShareBitcoinWorkTemplate crypto share

/-- A new checkpoint follows the latest one by round, parent tip and interval. -/
def validateCheckpointSuccession (checkpoint : SharechainCheckpointAnchorV1) : Except SharechainReplayError Unit := do
  let expectedRound := state.latestCheckpoint?.elim 1 fun previous => saturatingAdd previous.1 1
  require (checkpoint.round = expectedRound)
    (.nonSequentialCheckpoint (saturatingSub expectedRound 1) checkpoint.round)
  match state.latestCheckpoint? with
  | none => require (checkpoint.parentCheckpointTip = zeroShareParentHash) .checkpointParentMismatch
  | some (_, prior) =>
    require (checkpoint.parentCheckpointTip = prior.shareTipHash) .checkpointParentMismatch
    let earliest ← okOr (checkedAdd prior.finalizationBlock checkpointMinIntervalBlocks)
      .checkpointIntervalNotElapsed
    require (earliest ≤ checkpoint.finalizationBlock) .checkpointIntervalNotElapsed

/-- The checkpoint lists exactly the registered miners, all anchored in its contract. -/
def validateCheckpointRegistrations (checkpoint : SharechainCheckpointAnchorV1) :
    Except SharechainReplayError Unit := do
  require (state.registrations.keys = checkpoint.registeredMiners) .checkpointRegistrationSetMismatch
  checkpoint.registeredMiners.forM fun minerId => do
    let registration ← okOr state.registrations[minerId]? .checkpointRegistrationSetMismatch
    let registryAnchor ← (registration.requireRegistryAnchor crypto).mapError
      fun _ => .checkpointRegistrationSetMismatch
    require (EqIgnoreAsciiCase registryAnchor.contractAddress checkpoint.contractAddress ∧
      EqIgnoreAsciiCase registryAnchor.experimentId checkpoint.experimentId)
      .checkpointRegistrationSetMismatch

/-- The checkpoint's tip is resolved with the height and score it states. -/
def validateCheckpointTip (checkpoint : SharechainCheckpointAnchorV1) : Except SharechainReplayError Unit := do
  let tip ← okOr (state.shares[checkpoint.shareTipHash]?.filter fun node => node.cumulativeScore.isSome)
    (.unknownCheckpointShareTip checkpoint.shareTipHash)
  let expectedScore ← okOr (parseDecimal? 128 checkpoint.cumulativeScore) .checkpointShareMetadataMismatch
  require (tip.height = checkpoint.shareHeight ∧ tip.cumulativeScore = some expectedScore)
    .checkpointShareMetadataMismatch

/-- The checkpoint's tip descends from the tip of the latest checkpoint. -/
def requireCheckpointDescends (checkpoint : SharechainCheckpointAnchorV1) : Replay Unit :=
  match state.latestCheckpoint? with
  | none => pure ()
  | some (_, prior) =>
    match state.shareDescendsFrom checkpoint.shareTipHash prior.shareTipHash with
    | none => outOfFuel
    | some descends => attempt (require (descends = true) .checkpointNotDescendant)

def applySharechainCheckpoint (checkpoint : SharechainCheckpointAnchorV1) : Replay Unit := do
  let checkpoint := checkpoint.normalized
  attempt (checkpoint.validate.mapError .idenaAnchorPolicy)
  let state ← get
  match state.sharechainCheckpoints[checkpoint.round]? with
  | some existing => attempt (require (existing = checkpoint) (.conflictingCheckpoint checkpoint.round))
  | none =>
    attempt (state.validateCheckpointSuccession checkpoint)
    attempt (state.validateCheckpointRegistrations crypto checkpoint)
    attempt (state.validateCheckpointTip checkpoint)
    state.requireCheckpointDescends checkpoint
    set { state with
      sharechainCheckpoints := state.sharechainCheckpoints.insert checkpoint.round checkpoint }
    onTree (ShareTree.rebuildActiveBranch checkpoint.shareTipHash)

def applySnapshotVote (vote : SnapshotVote) : Replay Unit := do
  let voterMinerId := toAsciiLowercase vote.voterMinerId
  let state ← get
  let registration ← attempt (state.registrationOf vote.voterMinerId .unknownSnapshotVoter)
  attempt ((vote.verifyMiningSignature crypto registration.miningPubkeyHex).mapError
    .invalidSharechainSignature)
  let key : SnapshotVoteKey :=
    { snapshotDay := vote.snapshotDay
      idenaHeight := vote.idenaHeight
      scoreRoot := toAsciiLowercase vote.scoreRoot }
  set { state with
    snapshotVotes := state.snapshotVotes.insert key ((state.snapshotVotes[key]?.getD ∅).insert voterMinerId) }

/-- Every payee is registered with the script or claim owner the schedule pays. -/
def validatePayoutScheduleBindings (schedule : PayoutSchedule) : Except SharechainReplayError Unit := do
  (schedule.validate crypto).mapError .invalidPayoutSchedule
  schedule.directOutputs.forM fun output => do
    let registration ← state.registrationOf output.minerId .unknownPayoutMiner
    require (toAsciiLowercase output.btcPayoutScriptHex = registration.btcPayoutScriptHex)
      (.payoutScriptMismatch (toAsciiLowercase output.minerId))
  schedule.vaultAllocations.forM fun allocation => do
    let registration ← state.registrationOf allocation.minerId .unknownPayoutMiner
    require (toAsciiLowercase allocation.claimOwnerId = registration.claimOwnerPubkeyHex)
      (.payoutClaimOwnerMismatch (toAsciiLowercase allocation.minerId))

def applyPayoutScheduleProposal (schedule : PayoutSchedule) : Replay Unit := do
  let state ← get
  attempt (state.validatePayoutScheduleBindings crypto schedule)
  let payoutRoot := toAsciiLowercase schedule.payoutRoot
  match state.proposedPayoutSchedules[payoutRoot]? with
  | some existing => attempt (require (existing = schedule) (.conflictingPayoutSchedule payoutRoot))
  | none =>
    set { state with
      proposedPayoutSchedules := state.proposedPayoutSchedules.insert payoutRoot schedule }

def applyWithdrawalRequest (request : WithdrawalRequest) : Replay Unit := do
  attempt ((request.validate crypto 0).mapError .invalidWithdrawal)
  let request := request.normalized
  let state ← get
  let availableSats := state.claimLedger.balance request.claimOwnerId
  attempt (require (request.amountSats ≤ availableSats)
    (.ledger (.insufficientBalance request.claimOwnerId request.amountSats availableSats)))
  match state.withdrawalRequests[request.requestId]? with
  | some existing =>
    attempt (require (existing = request) (.conflictingWithdrawalRequest request.requestId))
  | none =>
    set { state with withdrawalRequests := state.withdrawalRequests.insert request.requestId request }

/-- The stored request an output pays. -/
def requestOf (output : WithdrawalOutput) : Except SharechainReplayError WithdrawalRequest :=
  okOr state.withdrawalRequests[output.requestId]? (.unknownWithdrawalRequest output.requestId)

/-- An output pays what its signed request asks for. -/
def requireOutputMatchesRequest (output : WithdrawalOutput) (request : WithdrawalRequest) :
    Except SharechainReplayError Unit :=
  require (EqIgnoreAsciiCase request.destinationScriptHex output.destinationScriptHex ∧
    request.outputKind = output.outputKind ∧ request.amountSats = output.grossAmountSats)
    (.withdrawalBatchRequestMismatch output.requestId)

/-- The batch recomputed from the stored requests. -/
def expectedWithdrawalBatch (batch : WithdrawalBatch) (currentHeight : U64) :
    Except SharechainReplayError WithdrawalBatch := do
  let batch := batch.normalized
  let requests ← batch.outputs.mapM state.requestOf
  let expected ← (buildWithdrawalBatch crypto requests batch.inputs batch.feeRateSatVb
    currentHeight).mapError .invalidWithdrawal
  require (expected = batch) (.withdrawalBatchMismatch (batch.batchHash crypto))
  return expected

/-- Reserve every output of a batch in turn. -/
def reserveOutputs (currentHeight : U64) : List WithdrawalOutput → Routine ClaimLedger SharechainReplayError Unit
  | [] => pure ()
  | output :: rest => do
    let request ← attempt (state.requestOf output)
    attempt (requireOutputMatchesRequest output request)
    let pending ← focus id (fun ledger _ => ledger) SharechainReplayError.ledger
      (ClaimLedger.reserveWithdrawal crypto request output.feeSats currentHeight)
    attempt (require (pending.requestId = output.requestId ∧
      pending.grossAmountSats = output.grossAmountSats ∧ pending.feeSats = output.feeSats ∧
      pending.netAmountSats = output.netAmountSats) (.withdrawalBatchRequestMismatch output.requestId))
    reserveOutputs currentHeight rest

def claimLedgerAfterWithdrawalBatch (batch : WithdrawalBatch) (currentHeight : U64) : Replay ClaimLedger := do
  let batch ← attempt (state.expectedWithdrawalBatch crypto batch currentHeight)
  onCopy state.claimLedger (state.reserveOutputs crypto currentHeight batch.outputs)

def applyWithdrawalBatch (batch : WithdrawalBatch) : Replay Unit := do
  let batch := batch.normalized
  let batchHash := batch.batchHash crypto
  let state ← get
  match state.withdrawalBatches[batchHash]? with
  | some existing => attempt (require (existing = batch) (.conflictingWithdrawalBatch batchHash))
  | none =>
    let claimLedger ← state.claimLedgerAfterWithdrawalBatch crypto batch 0
    set { state with
      claimLedger
      withdrawalBatches := state.withdrawalBatches.insert batchHash batch }

/-- The handler of one message. -/
def handleMessage : SharechainMessage → Replay Unit
  | .minerRegistration registration => applyRegistration crypto registration
  | .bitcoinWorkTemplate template => applyBitcoinWorkTemplate crypto template
  | .share mined => do
    attempt ((← get).validateShare crypto mined)
    onTree (ShareTree.applyShare crypto mined)
  | .sharechainCheckpoint checkpoint => applySharechainCheckpoint crypto checkpoint
  | .snapshotVote vote => applySnapshotVote crypto vote
  | .payoutSchedule schedule => applyPayoutScheduleProposal crypto schedule
  | .withdrawalRequest request => applyWithdrawalRequest crypto request
  | .withdrawalBatch batch => applyWithdrawalBatch crypto batch
  | .pohwCommitment commitment => attempt (commitment.validateFields.mapError .invalidCommitment)

/-- Apply a message once. -/
def applyMessage (message : SharechainMessage) : Replay ApplyOutcome := do
  let messageHash := message.messageHash crypto
  if messageHash ∈ (← get).appliedMessageHashes then return .duplicateIgnored
  else
    handleMessage crypto message
    modify fun state => { state with
      appliedMessageHashes := state.appliedMessageHashes.insert messageHash
      lastMessageHash := some messageHash }
    return .applied

end SharechainReplayState

end P2PoolBTC.Model.Core
