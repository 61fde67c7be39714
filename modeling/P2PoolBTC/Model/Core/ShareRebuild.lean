import P2PoolBTC.Model.Core.ShareTree

/-! # Rebuilding the derived share state

Every index, score and height of the share tree computed afresh from the stored shares alone. The
scores come from a recursion over the parents that remembers what it has computed.
-/

namespace P2PoolBTC.Model.Core.ShareTree

open Math Std

/-- Index a stored share by its work. The entry is written before an older one is reported. -/
def indexShareWork (shareHash : Text) (node : ShareNode) : Routine ShareTree SharechainReplayError Unit := do
  let tree ← get
  attempt (tree.validateUniqueSharechainRoot shareHash node.parentShareHash)
  let workHash := toAsciiLowercase node.share.workHash
  set { tree with shareHashByWorkHash := tree.shareHashByWorkHash.insert workHash shareHash }
  match tree.shareHashByWorkHash[workHash]? with
  | some existingShareHash => fail (.duplicateShareWork workHash existingShareHash)
  | none => pure ()

def indexShareWorks : List (Text × ShareNode) → Routine ShareTree SharechainReplayError Unit
  | [] => pure ()
  | (shareHash, node) :: rest => do
    indexShareWork shareHash node
    indexShareWorks rest

/-- List a stored share under its parent. -/
def indexChild (index : ExtTreeMap Text (ExtTreeSet Text)) (entry : Text × ShareNode) :
    ExtTreeMap Text (ExtTreeSet Text) :=
  index.insert entry.2.parentShareHash ((index[entry.2.parentShareHash]?.getD ∅).insert entry.1)

/-- What has been computed of the branches: a score and a height, or that there is none. -/
abbrev BranchScores := ExtTreeMap Text (Option (Score × U64))

/-- The score and height of a share above its parent's. -/
def extendBranchScore (shareHash : Text) (node : ShareNode) :
    Option (Score × U64) → Except (Fault SharechainReplayError) (Option (Score × U64))
  | none => pure none
  | some (parentScore, parentHeight) => do
    let cumulativeScore ← okOr (checkedAdd parentScore node.share.hashrateScoreDelta)
      (.error (.shareBranchScoreOverflow shareHash))
    let height ← okOr (checkedAdd parentHeight 1) (.error (.shareBranchScoreOverflow shareHash))
    return some (cumulativeScore, height)

/-- The recursion over the parents. A share that is being visited already has no branch. Every call visits one
share more, so one call more than there are shares is always enough. -/
def computeShareBranchScore (shares : ExtTreeMap Text ShareNode) :
    ℕ → Text → ExtTreeSet Text → BranchScores →
      Except (Fault SharechainReplayError) (Option (Score × U64) × BranchScores)
  | 0, _, _, _ => .error .diverged
  | fuel + 1, shareHash, visiting, memo =>
    match memo[shareHash]? with
    | some cached => pure (cached, memo)
    | none =>
      if shareHash ∈ visiting then pure (none, memo.insert shareHash none)
      else
        match shares[shareHash]? with
        | none => pure (none, memo.insert shareHash none)
        | some node =>
          if node.parentShareHash = zeroShareParentHash then
            let result := some (node.share.hashrateScoreDelta, 1)
            pure (result, memo.insert shareHash result)
          else if node.parentShareHash ∈ shares then do
            let (parent, memo) ←
              computeShareBranchScore shares fuel node.parentShareHash (visiting.insert shareHash) memo
            let result ← extendBranchScore shareHash node parent
            pure (result, memo.insert shareHash result)
          else pure (none, memo.insert shareHash none)

def computeBranchScores (shares : ExtTreeMap Text ShareNode) :
    List Text → BranchScores → Except (Fault SharechainReplayError) BranchScores
  | [], memo => pure memo
  | shareHash :: rest, memo => do
    let (_, memo) ← computeShareBranchScore shares (shares.size + 1) shareHash ∅ memo
    computeBranchScores shares rest memo

/-- The node with the computed score and height, and with neither where none was computed. -/
def rescored (node : ShareNode) (computed : Option (Score × U64)) : ShareNode :=
  { node with
    cumulativeScore := computed.map Prod.fst
    height := computed.elim 0 Prod.snd }

/-- Higher score, then the smaller hash. -/
def compareTips (left right : Text × Score) : Ordering :=
  (compare left.2 right.2).then (compare right.1 left.1)

/-- The later of two candidates unless the earlier one is strictly better. -/
def laterTip (best candidate : Text × Score) : Text × Score :=
  if compareTips best candidate = .gt then best else candidate

/-- The best of the scored shares. -/
def bestScoredTip (branchScores : BranchScores) : Option Text :=
  match branchScores.toList.filterMap fun entry => entry.2.map fun computed => (entry.1, computed.1) with
  | [] => none
  | first :: rest => some (rest.foldl laterTip first).1

/-- Credit the shares of a branch that are stored. -/
def creditStoredBranch : List Text → Routine ShareTree SharechainReplayError Unit
  | [] => pure ()
  | shareHash :: rest => do
    match (← get).shares[shareHash]? with
    | none => pure ()
    | some node => creditActiveShare shareHash node.share
    creditStoredBranch rest

/-- The walk from an optional tip. -/
def branchOfTip (tree : ShareTree) : Option Text → Option (List Text)
  | none => some []
  | some tip => activeBranchFrom tree.shares (tree.shares.size + 1) ∅ tip

def rebuildDerivedShareState : Routine ShareTree SharechainReplayError Unit := do
  modify fun tree => { tree with shareHashByWorkHash := ∅ }
  indexShareWorks (← get).shares.toList
  modify fun tree => { tree with childrenByParent := tree.shares.toList.foldl indexChild ∅ }
  let tree ← get
  let branchScores ← settle (computeBranchScores tree.shares tree.shares.keys ∅)
  let tree := { tree with
    shares := tree.shares.map fun shareHash node => rescored node (branchScores[shareHash]?.join)
    bestShareTip := bestScoredTip branchScores }
  set tree
  match tree.branchOfTip tree.bestShareTip with
  | none => outOfFuel
  | some activeBranch =>
    set { tree with
      activeShareHashes := ExtTreeSet.ofList activeBranch
      hashrateScores := ∅
      activeShareScoreTotal := 0 }
    creditStoredBranch activeBranch

end P2PoolBTC.Model.Core.ShareTree
