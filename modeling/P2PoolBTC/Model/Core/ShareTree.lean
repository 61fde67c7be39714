import P2PoolBTC.Math.TreeMap
import P2PoolBTC.Model.Core.Ledger
import P2PoolBTC.Model.Core.Payout
import P2PoolBTC.Model.Core.Commitment

/-! # The share tree

Shares arrive in any order. A share whose ancestors are all stored is resolved: it has a height and
a cumulative score. Inserting a share resolves it and, breadth first, the stored descendants that
waited for it. Until a checkpoint is finalized the best resolved share is the tip of the active
branch, whose shares earn their miners hashrate scores.
-/

namespace P2PoolBTC.Model.Core

open Math Std

inductive SharechainReplayError where
  | conflictingRegistration (minerId : Text)
  | idenaAnchorPolicy (reason : IdenaAnchorError)
  | unanchoredMinerRegistration (minerId : Text)
  | unanchoredBitcoinWorkTemplate (templateHash : Text)
  | templateAnchorBeforeRegistration
  | duplicateBootstrapAnchor (minerId : Text) (anchorHeight : U64)
  | nonIncreasingBootstrapAnchor
  | missingAnchoredShareParent (parentHash : Text)
  | missingAnchoredParentBitcoinWorkTemplate (templateHash : Text)
  | unknownShareMiner (minerId : Text)
  | unknownBitcoinWorkTemplateMiner (minerId : Text)
  | unacceptedBitcoinWorkTemplate (templateHash : Text)
  | conflictingBitcoinWorkTemplate (templateHash : Text)
  | unknownShareBitcoinWorkTemplate (templateHash : Text)
  | shareBitcoinWorkTemplateMismatch (templateHash : Text)
  | additionalSharechainRoot (existingShareHash candidateShareHash : Text)
  | conflictingShare (shareHash : Text)
  | duplicateShareWork (workHash existingShareHash : Text)
  | conflictingCheckpoint (round : U32)
  | nonSequentialCheckpoint (expectedParent actual : U32)
  | checkpointParentMismatch
  | checkpointIntervalNotElapsed
  | checkpointRegistrationSetMismatch
  | unknownCheckpointShareTip (shareTipHash : Text)
  | checkpointShareMetadataMismatch
  | checkpointNotDescendant
  | unknownSnapshotVoter (minerId : Text)
  | hashrateScoreOverflow (minerId : Text)
  | shareBranchScoreOverflow (shareHash : Text)
  | conflictingPayoutSchedule (payoutRoot : Text)
  | unknownPayoutMiner (minerId : Text)
  | payoutScriptMismatch (minerId : Text)
  | payoutClaimOwnerMismatch (minerId : Text)
  | payoutScheduleMismatch
  | conflictingWithdrawalRequest (requestId : Text)
  | conflictingWithdrawalBatch (batchHash : Text)
  | unknownWithdrawalRequest (requestId : Text)
  | unknownWithdrawalBatch (batchHash : Text)
  | unreservedWithdrawalRequest (requestId : Text)
  | withdrawalBatchMismatch (batchHash : Text)
  | withdrawalBatchRequestMismatch (requestId : Text)
  | invalidSharechainSignature (reason : SharechainError)
  | invalidCommitment (reason : CommitmentError)
  | invalidWithdrawal (reason : WithdrawalError)
  | invalidPayoutSchedule (reason : PayoutError)
  | ledger (reason : LedgerError)
deriving DecidableEq

/-- A stored share. It has a cumulative score and a height once it is resolved. -/
structure ShareNode where
  share : Share
  parentShareHash : Text
  cumulativeScore : Option Score
  height : U64
deriving DecidableEq

/-- The fields of the replay state that the share functions read and write. -/
structure ShareTree where
  sharechainCheckpoints : ExtTreeMap U32 SharechainCheckpointAnchorV1 := ∅
  shares : ExtTreeMap Text ShareNode := ∅
  shareHashByWorkHash : ExtTreeMap Text Text := ∅
  childrenByParent : ExtTreeMap Text (ExtTreeSet Text) := ∅
  activeShareHashes : ExtTreeSet Text := ∅
  activeShareScoreTotal : Score := 0
  bestShareTip : Option Text := none
  hashrateScores : ExtTreeMap Text Score := ∅
deriving DecidableEq

namespace ShareTree

variable (tree : ShareTree)

/-- The checkpoint of the highest round. -/
def latestCheckpoint? : Option (U32 × SharechainCheckpointAnchorV1) :=
  lastKeyValue? tree.sharechainCheckpoints

/-- The children stored under a parent hash. -/
def childrenOf (parent : Text) : ExtTreeSet Text :=
  tree.childrenByParent[parent]?.getD ∅

def validateUniqueSharechainRoot (candidateShareHash parentShareHash : Text) : Except SharechainReplayError Unit :=
  if ¬ EqIgnoreAsciiCase parentShareHash zeroShareParentHash then pure ()
  else
    match tree.shares.toList.find? fun entry =>
      EqIgnoreAsciiCase entry.2.parentShareHash zeroShareParentHash ∧
        ¬ EqIgnoreAsciiCase entry.1 candidateShareHash with
    | some entry =>
      .error (.additionalSharechainRoot (toAsciiLowercase entry.1) (toAsciiLowercase candidateShareHash))
    | none => pure ()

/-- Credit one active share to its miner and to the total. -/
def creditActiveShare (shareHash : Text) (share : Share) : Routine ShareTree SharechainReplayError Unit := do
  let minerId := toAsciiLowercase share.minerId
  -- The default entry is written before the addition can fail.
  let entry := (← get).hashrateScores.getD minerId 0
  modify fun tree => { tree with hashrateScores := tree.hashrateScores.insert minerId entry }
  let increased ← attempt (okOr (checkedAdd entry share.hashrateScoreDelta) (.hashrateScoreOverflow minerId))
  modify fun tree => { tree with hashrateScores := tree.hashrateScores.insert minerId increased }
  let activeShareScoreTotal ← attempt (okOr
    (checkedAdd (← get).activeShareScoreTotal share.hashrateScoreDelta) (.shareBranchScoreOverflow shareHash))
  modify fun tree => { tree with activeShareScoreTotal }

/-- Credit every share of a branch. -/
def creditActiveBranch : List Text → Routine ShareTree SharechainReplayError Unit
  | [] => pure ()
  | shareHash :: rest => do
    match (← get).shares[shareHash]? with
    | none => panicWith "active branch share remains in replay state"
    | some node => creditActiveShare shareHash node.share
    creditActiveBranch rest

/-- The walk from a share to its root. It stops at an unknown or repeated share, so one step more
than there are shares is always enough. -/
def activeBranchFrom (shares : ExtTreeMap Text ShareNode) : ℕ → ExtTreeSet Text → Text → Option (List Text)
  | 0, _, _ => none
  | fuel + 1, seen, shareHash =>
    if shareHash ∈ seen then some []
    else
      match shares[shareHash]? with
      | none => some []
      | some node =>
        if node.parentShareHash = zeroShareParentHash then some [shareHash]
        else (activeBranchFrom shares fuel (seen.insert shareHash) node.parentShareHash).map (shareHash :: ·)

def rebuildActiveBranch (bestShareTip : Text) : Routine ShareTree SharechainReplayError Unit := do
  let tree ← get
  match activeBranchFrom tree.shares (tree.shares.size + 1) ∅ bestShareTip with
  | none => outOfFuel
  | some activeBranch =>
    set { tree with
      activeShareHashes := ExtTreeSet.ofList activeBranch
      hashrateScores := ∅
      activeShareScoreTotal := 0 }
    creditActiveBranch activeBranch
    modify fun tree => { tree with bestShareTip := some bestShareTip }

/-- A share outranks another by score, then by the smaller hash. -/
def outranks (score : Score) (shareHash : Text) (currentScore : Score) (currentTip : Text) : Bool :=
  currentScore < score || (score == currentScore && compare shareHash currentTip == .lt)

/-- Whether a resolved share beats the current tip. -/
def isBetter (score : Score) (shareHash : Text) : Routine ShareTree SharechainReplayError Bool :=
  match tree.bestShareTip.bind fun tip => tree.shares[tip]?.map fun current => (tip, current) with
  | none => pure true
  | some (tip, current) =>
    match current.cumulativeScore with
    | none => panicWith "best share tip has cumulative score"
    | some currentScore => pure (outranks score shareHash currentScore tip)

/-- Make a share the tip: append it to the branch it extends, or rebuild the branch. -/
def promoteShare (shareHash : Text) (node : ShareNode) : Routine ShareTree SharechainReplayError Unit :=
  if tree.bestShareTip = some node.parentShareHash ∧ node.parentShareHash ∈ tree.activeShareHashes then do
    creditActiveShare shareHash node.share
    modify fun tree => { tree with
      activeShareHashes := tree.activeShareHashes.insert shareHash
      bestShareTip := some shareHash }
  else rebuildActiveBranch shareHash

/-- A newly resolved share becomes the tip when it is the best one. Once a checkpoint is finalized,
new shares wait for the next one. -/
def considerResolvedShare (shareHash : Text) : Routine ShareTree SharechainReplayError Unit := do
  let tree ← get
  if tree.latestCheckpoint?.isSome then pure ()
  else
    match tree.shares[shareHash]? with
    | none => panicWith "resolved share remains in replay state"
    | some node =>
      match node.cumulativeScore with
      | none => panicWith "resolved share has cumulative score"
      | some score =>
        if ← isBetter tree score shareHash then promoteShare tree shareHash node
        else pure ()

/-- The cumulative score and height of a share whose parent is resolved. -/
def branchScore (shareHash : Text) (node : ShareNode) : Except SharechainReplayError (Option (Score × U64)) :=
  if node.parentShareHash = zeroShareParentHash then pure (some (node.share.hashrateScoreDelta, 1))
  else
    match tree.shares[node.parentShareHash]? with
    | none => pure none
    | some parent =>
      match parent.cumulativeScore with
      | none => pure none
      | some parentScore => do
        let cumulativeScore ← okOr (checkedAdd parentScore node.share.hashrateScoreDelta)
          (.shareBranchScoreOverflow shareHash)
        let height ← okOr (checkedAdd parent.height 1) (.shareBranchScoreOverflow shareHash)
        return some (cumulativeScore, height)

/-- The breadth-first loop. Every share is queued at most once, so as many steps as there are shares
are enough. -/
def resolveQueue : ℕ → List Text → Routine ShareTree SharechainReplayError Unit
  | _, [] => pure ()
  | 0, _ :: _ => outOfFuel
  | fuel + 1, candidateHash :: queue => do
    let tree ← get
    match tree.shares[candidateHash]? with
    | none => resolveQueue fuel queue
    | some candidate =>
      match ← attempt (tree.branchScore candidateHash candidate) with
      | none => resolveQueue fuel queue
      | some (cumulativeScore, height) =>
        if height = 0 then fail (.shareBranchScoreOverflow candidateHash)
        else
          modify fun tree => { tree with
            shares := tree.shares.insert candidateHash
              { candidate with cumulativeScore := some cumulativeScore, height } }
          considerResolvedShare candidateHash
          let children := (← get).childrenOf candidateHash
          resolveQueue fuel (queue ++ children.toList)

def resolveShareAndDescendants (shareHash : Text) : Routine ShareTree SharechainReplayError Unit := do
  let tree ← get
  resolveQueue tree.shares.size [shareHash]

/-- A tree with one more unresolved share in its store and its index of children. -/
def withShare (shareHash parentShareHash : Text) (share : Share) : ShareTree :=
  { tree with
    shares := tree.shares.insert shareHash
      { share, parentShareHash, cumulativeScore := none, height := 0 }
    childrenByParent := tree.childrenByParent.insert parentShareHash
      ((tree.childrenOf parentShareHash).insert shareHash) }

def applyShare (crypto : Crypto) (share : Share) : Routine ShareTree SharechainReplayError Unit := do
  let share := share.normalized
  let shareHash := share.shareHash crypto
  let tree ← get
  match tree.shares[shareHash]? with
  | some existing => attempt (require (existing.share = share) (.conflictingShare shareHash))
  | none =>
    let workHash := toAsciiLowercase share.workHash
    match tree.shareHashByWorkHash[workHash]? with
    | some existingShareHash => fail (.duplicateShareWork workHash existingShareHash)
    | none =>
      let parentShareHash := toAsciiLowercase share.parentShareHash
      attempt (tree.validateUniqueSharechainRoot shareHash parentShareHash)
      set (tree.withShare shareHash parentShareHash share)
      resolveShareAndDescendants shareHash
      modify fun tree => { tree with
        shareHashByWorkHash := tree.shareHashByWorkHash.insert workHash shareHash }

/-- Whether the walk from a share to its root meets an ancestor. -/
def descendsFrom (shares : ExtTreeMap Text ShareNode) (ancestorHash : Text) :
    ℕ → ExtTreeSet Text → Text → Option Bool
  | 0, _, _ => none
  | fuel + 1, seen, shareHash =>
    if shareHash = ancestorHash then some true
    else if shareHash ∈ seen then some false
    else
      match shares[shareHash]? with
      | none => some false
      | some node =>
        if node.parentShareHash = zeroShareParentHash then some false
        else descendsFrom shares ancestorHash fuel (seen.insert shareHash) node.parentShareHash

def shareDescendsFrom (candidateHash ancestorHash : Text) : Option Bool :=
  descendsFrom tree.shares (toAsciiLowercase ancestorHash) (tree.shares.size + 2) ∅
    (toAsciiLowercase candidateHash)

end ShareTree

end P2PoolBTC.Model.Core
