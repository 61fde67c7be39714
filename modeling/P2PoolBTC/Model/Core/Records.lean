import P2PoolBTC.Model.Core.Messages

/-! # Stored and hashed records

Data that a replica keeps, hashes or reads from its configuration without gossiping it on its
own: the claim ledger, the material of the accounting root, identity snapshots, the two bound
policies, confirmed payouts and signed gossip envelopes. Ordered maps and sets are extensional
tree maps, so two of them are equal exactly when they hold the same entries.
-/

namespace P2PoolBTC.Model.Core

open Math Std

/-- A reserved withdrawal. -/
structure PendingWithdrawal where
  requestId : Text
  claimOwnerId : Text
  grossAmountSats : Sats
  feeSats : Sats
  netAmountSats : Sats
deriving DecidableEq

/-- Claim balances, reserved withdrawals and the last withdrawal nonce of every owner. -/
@[ext]
structure ClaimLedger where
  balances : ExtTreeMap Text Sats := ∅
  pendingWithdrawals : ExtTreeMap Text PendingWithdrawal := ∅
  lastWithdrawalNonceByOwner : ExtTreeMap Text U64 := ∅
deriving DecidableEq

/-- One miner's standing when a reward is split. -/
structure ParticipantAccount where
  minerId : Text
  btcPayoutScriptHex : Text
  claimOwnerId : Text
  unpaidSats : Sats
  hashrateScore : Score
  idenaScore : Score
deriving DecidableEq

def ParticipantAccount.normalized (account : ParticipantAccount) : ParticipantAccount :=
  { account with
    minerId := toAsciiLowercase account.minerId
    btcPayoutScriptHex := toAsciiLowercase account.btcPayoutScriptHex
    claimOwnerId := toAsciiLowercase account.claimOwnerId }

/-- The snapshot a vote is for. -/
structure SnapshotVoteKey where
  snapshotDay : Text
  idenaHeight : U64
  scoreRoot : Text
deriving DecidableEq

/-- Field by field, in declaration order. -/
instance : Ord SnapshotVoteKey where
  compare := compareLex (compareOn SnapshotVoteKey.snapshotDay)
    (compareLex (compareOn SnapshotVoteKey.idenaHeight) (compareOn SnapshotVoteKey.scoreRoot))

instance : TransOrd SnapshotVoteKey :=
  inferInstanceAs (TransCmp (compareLex (compareOn SnapshotVoteKey.snapshotDay)
    (compareLex (compareOn SnapshotVoteKey.idenaHeight) (compareOn SnapshotVoteKey.scoreRoot))))

instance : LawfulEqOrd SnapshotVoteKey where
  eq_of_compare {left right} equal := by
    change compareLex _ _ left right = .eq at equal
    simp only [compareLex_eq_eq, compareOn, Std.compare_eq_iff_eq] at equal
    obtain ⟨day, height, root⟩ := equal
    cases left
    cases right
    simp_all

/-- Everything the accounting root commits to. -/
structure AccountingStateRootMaterial where
  version : Text
  bestShareTip : Option Text
  activeShareHashes : List Text
  activeShareScoreTotal : Score
  hashrateScores : ExtTreeMap Text Score
  registrations : ExtTreeMap Text MinerRegistration
  sharechainCheckpoints : ExtTreeMap U32 SharechainCheckpointAnchorV1
  snapshotVotes : ExtTreeMap SnapshotVoteKey (ExtTreeSet Text)
  proposedPayoutSchedules : ExtTreeMap Text PayoutSchedule
  withdrawalRequests : ExtTreeMap Text WithdrawalRequest
  withdrawalBatches : ExtTreeMap Text WithdrawalBatch
  claimLedger : ClaimLedger
deriving DecidableEq

/-- The validation status of an Idena identity. -/
inductive IdenaStatus where
  | invite
  | candidate
  | newbie
  | verified
  | suspended
  | zombie
  | killed
  | human
  | undefined
deriving DecidableEq

/-- One identity of a snapshot. -/
structure SnapshotLeaf where
  idenaAddress : Text
  status : IdenaStatus
  pubkey : Text
  validationRewardScore : Score
  proposerRewardScore : Score
  committeeRewardScore : Score
  ignoredInvitationScore : Score
  identityRoot : Text
  formulaVersion : U16
deriving DecidableEq

def SnapshotLeaf.normalized (leaf : SnapshotLeaf) : SnapshotLeaf :=
  { leaf with
    idenaAddress := toAsciiLowercase leaf.idenaAddress
    pubkey := toAsciiLowercase leaf.pubkey
    identityRoot := toAsciiLowercase leaf.identityRoot }

/-- One day's identity scores. The day is kept in its ISO text form. -/
structure Snapshot where
  snapshotDay : Text
  idenaHeight : U64
  idenaBlockHash : Text
  identityRoot : Text
  scoreRoot : Text
  formulaVersion : U16
  leaves : List SnapshotLeaf
deriving DecidableEq

/-- The identity-anchor policy a data directory can be bound to. -/
structure IdenaAnchorPolicyV2 where
  schemaVersion : U16
  experimentId : Text
  registryContractAddress : Text
  registryDeploymentTxHash : Text
  registryDeploymentPayloadSha256 : Text
  registryContractCodeHash : Text
  registryContractWasmSha256 : Text
  registryEcosystemCid : Text
  minimumRegistrationBurnAtoms : Text
  activationIdenaHeight : U64
  finalityConfirmations : U64
  maxAnchorAgeBlocks : U64
  handoffVersionBit : BitVec 8
deriving DecidableEq

def IdenaAnchorPolicyV2.normalized (policy : IdenaAnchorPolicyV2) : IdenaAnchorPolicyV2 :=
  { policy with
    experimentId := toAsciiLowercase policy.experimentId
    registryContractAddress := toAsciiLowercase policy.registryContractAddress
    registryDeploymentTxHash := toAsciiLowercase policy.registryDeploymentTxHash
    registryDeploymentPayloadSha256 := toAsciiLowercase policy.registryDeploymentPayloadSha256
    registryContractCodeHash := toAsciiLowercase policy.registryContractCodeHash
    registryContractWasmSha256 := toAsciiLowercase policy.registryContractWasmSha256 }

/-- The share-work policy a data directory can be bound to. -/
structure ShareWorkBindingPolicyV1 where
  schemaVersion : U16
  experimentId : Text
  forkActivationId : Text
  sharechainNetworkId : Text
  requireBindingFromGenesis : Bool
deriving DecidableEq

def ShareWorkBindingPolicyV1.normalized (policy : ShareWorkBindingPolicyV1) : ShareWorkBindingPolicyV1 :=
  { policy with
    experimentId := toAsciiLowercase policy.experimentId
    forkActivationId := toAsciiLowercase policy.forkActivationId
    sharechainNetworkId := toAsciiLowercase policy.sharechainNetworkId }

end P2PoolBTC.Model.Core
