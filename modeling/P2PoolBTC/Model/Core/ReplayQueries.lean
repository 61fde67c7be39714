import P2PoolBTC.Model.Core.ReplayState

/-! # What a node reads from the replay state

The accounting root, the accounts a reward is split over, confirmed payouts, reserved withdrawal
batches, and the policies a message is checked against before it is applied.
-/

namespace P2PoolBTC.Model.Core.SharechainReplayState

open Math Std

variable (crypto : Crypto) (state : SharechainReplayState)

/-- Everything the accounting root commits to. -/
def accountingMaterial : AccountingStateRootMaterial :=
  { version := "POHW1_ACCOUNTING_STATE".toList
    bestShareTip := state.bestShareTip
    activeShareHashes := state.activeShareHashes.toList
    activeShareScoreTotal := state.activeShareScoreTotal
    hashrateScores := state.hashrateScores
    registrations := state.registrations.map fun _ registration => registration.normalized
    sharechainCheckpoints := state.sharechainCheckpoints
    snapshotVotes := ExtTreeMap.ofList
      (state.snapshotVotes.toList.map fun entry => (entry.1.accountingKey, entry.2))
    proposedPayoutSchedules := state.proposedPayoutSchedules
    withdrawalRequests := state.withdrawalRequests.map fun _ request => request.normalized
    withdrawalBatches := state.withdrawalBatches
    claimLedger := state.claimLedger }

def accountingStateRoot : Text :=
  taggedHashHex crypto (.accountingState state.accountingMaterial)

/-- One account for every registered miner; identity scores are added from a snapshot later. -/
def participantAccounts : List ParticipantAccount :=
  state.registrations.values.map fun registration =>
    { minerId := toAsciiLowercase registration.minerId
      btcPayoutScriptHex := toAsciiLowercase registration.btcPayoutScriptHex
      claimOwnerId := toAsciiLowercase registration.claimOwnerPubkeyHex
      unpaidSats := state.claimLedger.balance (toAsciiLowercase registration.claimOwnerPubkeyHex)
      hashrateScore := state.hashrateScores.getD (toAsciiLowercase registration.minerId) 0
      idenaScore := 0 }

def expectedPayoutSchedule (accounts : List ParticipantAccount) (rewardSats : Sats) (directLimit : U64)
    (minDirectPayoutSats : Sats) : Except SharechainReplayError PayoutSchedule := do
  let schedule ← (buildPayoutSchedule crypto accounts rewardSats directLimit minDirectPayoutSats).mapError
    .invalidPayoutSchedule
  state.validatePayoutScheduleBindings crypto schedule
  return schedule

def validateDeterministicPayoutSchedule (schedule : PayoutSchedule) (accounts : List ParticipantAccount)
    (rewardSats : Sats) (directLimit : U64) (minDirectPayoutSats : Sats) : Except SharechainReplayError Unit := do
  state.validatePayoutScheduleBindings crypto schedule
  let expected ← state.expectedPayoutSchedule crypto accounts rewardSats directLimit minDirectPayoutSats
  require (expected = schedule) .payoutScheduleMismatch

def applyConfirmedPayoutSchedule (schedule : PayoutSchedule) (accounts : List ParticipantAccount) (rewardSats : Sats)
    (directLimit : U64) (minDirectPayoutSats : Sats) : Replay Unit := do
  attempt ((← get).validateDeterministicPayoutSchedule crypto schedule accounts rewardSats directLimit
    minDirectPayoutSats)
  onLedger (ClaimLedger.applyPayoutSchedule schedule)

def replaceClaimLedger (claimLedger : ClaimLedger) : Replay Unit :=
  modify fun state => { state with claimLedger }

/-- One output of a reserved batch: its request is still valid and reserved as the output says. -/
def outputIsReserved (currentHeight : U64) (output : WithdrawalOutput) : Except SharechainReplayError Unit := do
  let request ← state.requestOf output
  requireOutputMatchesRequest output request
  (request.validate crypto currentHeight).mapError .invalidWithdrawal
  let pending ← okOr state.claimLedger.pendingWithdrawals[output.requestId]?
    (.unreservedWithdrawalRequest output.requestId)
  require (pending.requestId = output.requestId ∧ pending.claimOwnerId = request.claimOwnerId ∧
    pending.grossAmountSats = output.grossAmountSats ∧ pending.feeSats = output.feeSats ∧
    pending.netAmountSats = output.netAmountSats) (.withdrawalBatchRequestMismatch output.requestId)

def withdrawalBatchIsReserved (batch : WithdrawalBatch) (currentHeight : U64) :
    Except SharechainReplayError Unit := do
  let batch ← state.expectedWithdrawalBatch crypto batch currentHeight
  let batchHash := batch.batchHash crypto
  let accepted ← okOr state.withdrawalBatches[batchHash]? (.unknownWithdrawalBatch batchHash)
  require (accepted = batch) (.conflictingWithdrawalBatch batchHash)
  batch.outputs.forM (state.outputIsReserved crypto currentHeight)

/-- The registry anchor of a registration that the policy accepts. -/
def acceptedRegistryAnchor (registration : MinerRegistration) (policy : IdenaAnchorPolicyV2) (minerId : Text) :
    Except SharechainReplayError MinerRegistryAnchorV1 := do
  let anchor ← (registration.requireRegistryAnchor crypto).mapError
    fun _ => .unanchoredMinerRegistration minerId
  (policy.validateRegistryAnchor crypto anchor).mapError .idenaAnchorPolicy
  return anchor

/-- A share of the same miner whose template has the same block anchor. -/
def reusesAnchor (minerId : Text) (anchor : IdenaBlockAnchorV1) (node : ShareNode) : Bool :=
  EqIgnoreAsciiCase node.share.minerId minerId ∧
    (state.bitcoinWorkTemplates[toAsciiLowercase node.share.bitcoinTemplateHash]?.any
      fun template => template.idenaAnchor = some anchor) = true

/-- A bootstrap share's anchor is later than its parent's. -/
def validateParentAnchor (parentHash : Text) (anchor : IdenaBlockAnchorV1) : Except SharechainReplayError Unit :=
  if parentHash = zeroShareParentHash then pure ()
  else do
    let parent ← okOr state.shares[parentHash]? (.missingAnchoredShareParent parentHash)
    let parentTemplateHash := toAsciiLowercase parent.share.bitcoinTemplateHash
    let parentTemplate ← okOr state.bitcoinWorkTemplates[parentTemplateHash]?
      (.missingAnchoredParentBitcoinWorkTemplate parentTemplateHash)
    require (parentTemplate.idenaAnchor.all (fun parentAnchor => parentAnchor.height < anchor.height) = true)
      .nonIncreasingBootstrapAnchor

def validateAnchoredShare (share : Share) (policy : IdenaAnchorPolicyV2) : Except SharechainReplayError Unit := do
  let minerId := toAsciiLowercase share.minerId
  let registration ← state.registrationOf share.minerId .unknownShareMiner
  let registryAnchor ← acceptedRegistryAnchor crypto registration policy minerId
  let templateHash := toAsciiLowercase share.bitcoinTemplateHash
  let template ← state.templateOf share.bitcoinTemplateHash
  let anchor ← (template.requireIdenaAnchor crypto).mapError
    fun _ => .unanchoredBitcoinWorkTemplate templateHash
  require (registryAnchor.registrationBlock ≤ anchor.height) .templateAnchorBeforeRegistration
  let parentHash := toAsciiLowercase share.parentShareHash
  state.validateUniqueSharechainRoot (share.shareHash crypto) parentHash
  let version ← (template.bitcoinHeaderVersion crypto).mapError .invalidSharechainSignature
  if policy.bootstrapLimitsActive version then
    require (¬ state.shares.values.any (state.reusesAnchor minerId anchor) = true)
      (.duplicateBootstrapAnchor minerId anchor.height)
    state.validateParentAnchor parentHash anchor
  else pure ()

def validateIdenaAnchorPolicy (message : SharechainMessage) (policy : IdenaAnchorPolicyV2) :
    Except SharechainReplayError Unit := do
  (policy.validate crypto).mapError .idenaAnchorPolicy
  match message with
  | .minerRegistration registration =>
    let _ ← acceptedRegistryAnchor crypto registration policy (toAsciiLowercase registration.minerId)
  | .bitcoinWorkTemplate template =>
    let registration ← state.registrationOf template.minerId .unknownBitcoinWorkTemplateMiner
    let registryAnchor ←
      acceptedRegistryAnchor crypto registration policy (toAsciiLowercase template.minerId)
    let blockAnchor ← (template.requireIdenaAnchor crypto).mapError
      fun _ => .unanchoredBitcoinWorkTemplate (toAsciiLowercase template.templateHash)
    let policyHash ← (policy.commitmentHash crypto).mapError .idenaAnchorPolicy
    let templatePolicyHash ← (template.requireIdenaAnchorPolicyHash crypto).mapError
      .invalidSharechainSignature
    require (templatePolicyHash = policyHash) (.idenaAnchorPolicy .policyCommitmentMismatch)
    require (registryAnchor.registrationBlock ≤ blockAnchor.height) .templateAnchorBeforeRegistration
  | .share mined => state.validateAnchoredShare crypto mined policy
  | .sharechainCheckpoint checkpoint =>
    (policy.validateCheckpointAnchor crypto checkpoint).mapError .idenaAnchorPolicy
  | _ => pure ()

end P2PoolBTC.Model.Core.SharechainReplayState
