import P2PoolBTC.Soundness.ReplaySteps

/-! # Checkpoints are final

The stored checkpoints are one chain of rounds whose tips descend from each other. A checkpoint is
accepted only at the end of the chain, shares never detach a tip, and so the path of every stored
checkpoint stays on the active branch.
-/

namespace P2PoolBTC.Soundness

open Math Model.Core Std SharechainReplayState

/-- A checkpoint states the height and the score of its tip. -/
def RecordsTip (shares : ExtTreeMap Text ShareNode) (checkpoint : SharechainCheckpointAnchorV1) : Prop :=
  ∃ node score, shares[checkpoint.shareTipHash]? = some node ∧ node.cumulativeScore = some score ∧
    node.height = checkpoint.shareHeight ∧ parseDecimal? 128 checkpoint.cumulativeScore = some score

/-- A checkpoint continues the one before it. -/
structure Follows (shares : ExtTreeMap Text ShareNode) (prior checkpoint : SharechainCheckpointAnchorV1) :
    Prop where
  parent : checkpoint.parentCheckpointTip = prior.shareTipHash
  interval : prior.finalizationBlock.toNat + checkpointMinIntervalBlocks.toNat ≤
    checkpoint.finalizationBlock.toNat
  descends : ∃ path, ShareLineage shares checkpoint.shareTipHash path ∧ prior.shareTipHash ∈ path

/-- The stored checkpoints are numbered from one without gaps and follow each other. -/
structure CheckpointChain (tree : ShareTree) : Prop where
  rounds : ∃ count : U32, ∀ round : U32, round ∈ tree.sharechainCheckpoints ↔
    1 ≤ round.toNat ∧ round.toNat ≤ count.toNat
  first : ∀ checkpoint, tree.sharechainCheckpoints[(1 : U32)]? = some checkpoint →
    checkpoint.parentCheckpointTip = zeroShareParentHash
  next : ∀ (round following : U32) (prior checkpoint : SharechainCheckpointAnchorV1),
    following.toNat = round.toNat + 1 → tree.sharechainCheckpoints[round]? = some prior →
    tree.sharechainCheckpoints[following]? = some checkpoint → Follows tree.shares prior checkpoint
  tips : ∀ (round : U32) (checkpoint : SharechainCheckpointAnchorV1),
    tree.sharechainCheckpoints[round]? = some checkpoint →
      RecordsTip tree.shares checkpoint ∧ IsAsciiLowercase checkpoint.shareTipHash

variable {crypto : Crypto} {mined : Set Share} {tree after : ShareTree} {latest : U32 × SharechainCheckpointAnchorV1}

theorem latestCheckpoint?_eq_some :
    tree.latestCheckpoint? = some latest ↔ tree.sharechainCheckpoints[latest.1]? = some latest.2 ∧
      ∀ round ∈ tree.sharechainCheckpoints, round ≤ latest.1 := by
  simp only [ShareTree.latestCheckpoint?, lastKeyValue?_eq_some, compare_isLE]

theorem latestCheckpoint?_eq_none : tree.latestCheckpoint? = none ↔
    ∀ round : U32, tree.sharechainCheckpoints[round]? = none :=
  lastKeyValue?_eq_none

theorem CheckpointChain.initial : CheckpointChain {} where
  rounds := ⟨0, fun round => by
    have zero : (0 : U32).toNat = 0 := rfl
    simp only [ExtTreeMap.not_mem_empty, false_iff]
    omega⟩
  first checkpoint stored := by simp at stored
  next _ _ _ _ _ stored := by simp at stored
  tips _ _ stored := by simp at stored

variable {checkpoint : SharechainCheckpointAnchorV1}

/-- A tree that only gains shares and resolves more of them keeps the record of every tip. -/
theorem RecordsTip.mono {before : ExtTreeMap Text ShareNode} {later : ExtTreeMap Text ShareNode}
    (records : RecordsTip before checkpoint) (scored : ScoredShares before) (scored' : ScoredShares later)
    (grows : ∀ child parent, parentOf before child = some parent → parentOf later child = some parent)
    (keeps : ∀ hash score, ResolvedWith before hash score → ResolvedWith later hash score) :
    RecordsTip later checkpoint := by
  obtain ⟨node, score, stored, cumulative, height, decimal⟩ := records
  obtain ⟨path, lineage, -, length⟩ := scored _ node score stored cumulative
  obtain ⟨node', stored', cumulative'⟩ := keeps _ score ⟨node, stored, cumulative⟩
  obtain ⟨path', lineage', -, length'⟩ := scored' _ node' score stored' cumulative'
  obtain rfl := (lineage.mono grows).unique lineage'
  refine ⟨node', score, stored', cumulative', ?_, decimal⟩
  rw [← height]
  exact BitVec.eq_of_toNat_eq (length'.trans length.symm)

/-- A tree that only gains shares and resolves more of them keeps the chain. -/
theorem CheckpointChain.mono (chain : CheckpointChain tree) (scored : ScoredShares tree.shares)
    (scored' : ScoredShares after.shares) (same : after.sharechainCheckpoints = tree.sharechainCheckpoints)
    (grows : ∀ child parent, parentOf tree.shares child = some parent →
      parentOf after.shares child = some parent)
    (keeps : ∀ hash score, ResolvedWith tree.shares hash score → ResolvedWith after.shares hash score) :
    CheckpointChain after where
  rounds := by
    rw [same]
    exact chain.rounds
  first checkpoint stored := chain.first checkpoint (same ▸ stored)
  next round following prior checkpoint successive stored stored' := by
    rw [same] at stored stored'
    obtain ⟨parent, interval, path, lineage, inside⟩ :=
      chain.next round following prior checkpoint successive stored stored'
    exact ⟨parent, interval, path, lineage.mono grows, inside⟩
  tips round checkpoint stored := by
    obtain ⟨records, lower⟩ := chain.tips round checkpoint (same ▸ stored)
    exact ⟨records.mono scored scored' grows keeps, lower⟩

/-- The tip of the latest checkpoint descends from the tip of every stored one. -/
theorem CheckpointChain.latest_descends (chain : CheckpointChain tree) (scored : ScoredShares tree.shares) {round : U32}
    (stored : tree.sharechainCheckpoints[round]? = some checkpoint) :
    ∃ latest path, tree.latestCheckpoint? = some latest ∧
      ShareLineage tree.shares latest.2.shareTipHash path ∧ checkpoint.shareTipHash ∈ path := by
  obtain ⟨count, rounds⟩ := chain.rounds
  have present : round ∈ tree.sharechainCheckpoints := mem_iff_exists_getElem?.mpr ⟨_, stored⟩
  -- Walk up the chain: the number of later rounds decreases with each link.
  induction distance : count.toNat - round.toNat generalizing round checkpoint with
  | zero =>
    obtain ⟨⟨node, score, tip, cumulative, -⟩, -⟩ := chain.tips round checkpoint stored
    obtain ⟨path, lineage, -⟩ := scored _ node score tip cumulative
    refine ⟨(round, checkpoint), path, latestCheckpoint?_eq_some.mpr ⟨stored, fun other member => ?_⟩,
      lineage, lineage.self_mem⟩
    have otherBound := ((rounds other).mp member).2
    change other.toNat ≤ round.toNat
    omega
  | succ rest ih =>
    have room : round.toNat + 1 < 2 ^ 32 := by omega
    have one : (1 : U32).toNat = 1 := rfl
    have successive : (round + 1).toNat = round.toNat + 1 := by
      rw [BitVec.toNat_add, one]
      omega
    have later : round + 1 ∈ tree.sharechainCheckpoints := (rounds _).mpr (by omega)
    obtain ⟨following, stored'⟩ := mem_iff_exists_getElem?.mp later
    obtain ⟨latest, path, chosen, lineage, above⟩ := ih stored' later (by omega)
    obtain ⟨rest, lineage', inside⟩ := (chain.next round _ checkpoint following successive stored stored').descends
    exact ⟨latest, path, chosen, lineage, lineage.subset_of_mem above lineage' inside⟩

/-- The path of every stored checkpoint is on the active branch. -/
theorem CheckpointChain.final (chain : CheckpointChain tree) (sound : SoundTree crypto mined tree) {round : U32}
    {path : List Text} (stored : tree.sharechainCheckpoints[round]? = some checkpoint)
    (lineage : ShareLineage tree.shares checkpoint.shareTipHash path) :
    ∀ hash ∈ path, hash ∈ tree.activeShareHashes := by
  obtain ⟨latest, whole, chosen, lineage', inside⟩ := chain.latest_descends sound.scored stored
  obtain ⟨active, tipPath, branch⟩ := sound.active.branch
  rw [sound.active.finalized latest chosen] at tipPath
  cases tipPath with
  | some tipLineage =>
    obtain rfl := tipLineage.unique lineage'
    intro hash member
    exact (branch.hashes hash).mpr (lineage'.subset_of_mem inside lineage member)

section Accepted

variable {state : SharechainReplayState} {checkpoint : SharechainCheckpointAnchorV1}

section

variable (accepted : CheckpointAccepted crypto state checkpoint)
include accepted

theorem CheckpointAccepted.records : RecordsTip state.shares checkpoint := by
  have tip := accepted.tip
  simp only [validateCheckpointTip, except_bind_eq_ok, okOr_eq_ok, require_eq_ok] at tip
  obtain ⟨node, found, score, decimal, height, cumulative⟩ := tip
  obtain ⟨stored, -⟩ := Option.filter_eq_some_iff.mp found
  exact ⟨node, score, stored, cumulative, height, decimal⟩

/-- What the succession check leaves of a checkpoint: it opens the chain or it follows its end. -/
theorem CheckpointAccepted.succeeds :
    (state.latestCheckpoint? = none ∧ checkpoint.round = 1 ∧
      checkpoint.parentCheckpointTip = zeroShareParentHash) ∨
    (∃ latest, state.latestCheckpoint? = some latest ∧ checkpoint.round = saturatingAdd latest.1 1 ∧
      checkpoint.parentCheckpointTip = latest.2.shareTipHash ∧
      latest.2.finalizationBlock.toNat + checkpointMinIntervalBlocks.toNat ≤
        checkpoint.finalizationBlock.toNat) := by
  have succession := accepted.succession
  simp only [validateCheckpointSuccession, except_bind_eq_ok, require_eq_ok] at succession
  obtain ⟨_, round, succession⟩ := succession
  cases latest : state.latestCheckpoint? with
  | none =>
    rw [latest] at round succession
    exact .inl ⟨rfl, round, require_eq_ok.mp succession⟩
  | some prior =>
    rw [latest] at round succession
    simp only [except_bind_eq_ok, require_eq_ok, okOr_eq_ok] at succession
    obtain ⟨_, parent, earliest, sum, bound⟩ := succession
    refine .inr ⟨prior, rfl, round, parent, ?_⟩
    rw [checkedAdd_eq_some] at sum
    rw [BitVec.le_def] at bound
    omega

/-- The tip of an accepted checkpoint descends from the tip of the latest one. -/
theorem CheckpointAccepted.descends_latest {path : List Text} (lower : IsAsciiLowercase checkpoint.shareTipHash)
    (latestLower : IsAsciiLowercase latest.2.shareTipHash) (found : state.latestCheckpoint? = some latest)
    (lineage : ShareLineage state.shares checkpoint.shareTipHash path) : latest.2.shareTipHash ∈ path := by
  have checked := accepted.descends
  rw [IsAsciiLowercase] at lower latestLower
  have walk := descendsFrom_eq lineage latest.2.shareTipHash (state.shares.size + 2) ∅
    (Nat.le_add_right_of_le (lineage_length_le_size lineage)) (fun _ _ => ExtTreeSet.not_mem_empty)
  simp only [requireCheckpointDescends, found, ShareTree.shareDescendsFrom, lower, latestLower, walk,
    Routine.attempt_eq_ok, require_eq_ok, decide_eq_true_eq] at checked
  exact checked.1

end

private theorem CheckpointChain.rounds_latest (chain : CheckpointChain tree)
    (found : tree.latestCheckpoint? = some latest)
    (round : U32) : round ∈ tree.sharechainCheckpoints ↔ 1 ≤ round.toNat ∧ round.toNat ≤ latest.1.toNat := by
  obtain ⟨count, rounds⟩ := chain.rounds
  obtain ⟨stored, largest⟩ := latestCheckpoint?_eq_some.mp found
  have bounds := (rounds latest.1).mp (mem_iff_exists_getElem?.mpr ⟨_, stored⟩)
  have last : count.toNat ≤ latest.1.toNat := largest count ((rounds count).mpr (by omega))
  rw [rounds]
  omega

private theorem CheckpointChain.opened (empty : ∀ round : U32, tree.sharechainCheckpoints[round]? = none)
    (parent : checkpoint.parentCheckpointTip = zeroShareParentHash) (records : RecordsTip tree.shares checkpoint)
    (lower : IsAsciiLowercase checkpoint.shareTipHash) : CheckpointChain { tree with
      sharechainCheckpoints := tree.sharechainCheckpoints.insert 1 checkpoint } := by
  have one : (1 : U32).toNat = 1 := rfl
  have only : ∀ (round : U32) (stored : SharechainCheckpointAnchorV1),
      (tree.sharechainCheckpoints.insert 1 checkpoint)[round]? = some stored →
        round = 1 ∧ stored = checkpoint := by
    intro round stored present
    rw [getElem?_insert_eq, empty] at present
    split_ifs at present with same
    exact ⟨same.symm, (Option.some.inj present).symm⟩
  refine ⟨⟨1, fun round => ?_⟩, ?_, ?_, ?_⟩
  · have absent : round ∉ tree.sharechainCheckpoints := by
      rw [mem_iff_exists_getElem?, empty]
      simp
    rw [mem_treeMap_insert, or_iff_left absent]
    constructor
    · rintro rfl
      omega
    · intro bounds
      exact BitVec.eq_of_toNat_eq (by omega)
  · intro stored present
    obtain ⟨-, rfl⟩ := only _ _ present
    exact parent
  · intro round following prior stored successive present present'
    obtain ⟨rfl, -⟩ := only _ _ present
    obtain ⟨rfl, -⟩ := only _ _ present'
    omega
  · intro round stored present
    obtain ⟨-, rfl⟩ := only _ _ present
    exact ⟨records, lower⟩

/-- Storing a checkpoint that follows the latest one extends the chain. -/
theorem CheckpointChain.extended (chain : CheckpointChain tree) (found : tree.latestCheckpoint? = some latest)
    (successive : checkpoint.round.toNat = latest.1.toNat + 1) (follows : Follows tree.shares latest.2 checkpoint)
    (records : RecordsTip tree.shares checkpoint) (lower : IsAsciiLowercase checkpoint.shareTipHash) :
    CheckpointChain { tree with
      sharechainCheckpoints := tree.sharechainCheckpoints.insert checkpoint.round checkpoint } := by
  have rounds := chain.rounds_latest found
  obtain ⟨storedLatest, -⟩ := latestCheckpoint?_eq_some.mp found
  have bounds := (rounds latest.1).mp (mem_iff_exists_getElem?.mpr ⟨_, storedLatest⟩)
  have one : (1 : U32).toNat = 1 := rfl
  refine ⟨⟨checkpoint.round, fun round => ?_⟩, ?_, ?_, ?_⟩
  · rw [mem_treeMap_insert, rounds]
    constructor
    · rintro (rfl | bound) <;> omega
    · intro bound
      by_cases last : checkpoint.round = round
      · exact .inl last
      · have different : checkpoint.round.toNat ≠ round.toNat := fun equal => last (BitVec.eq_of_toNat_eq equal)
        omega
  · intro stored present
    rw [getElem?_insert_eq] at present
    split_ifs at present with same
    · rw [same] at successive
      omega
    · exact chain.first stored present
  · intro round following prior stored step present present'
    rw [getElem?_insert_eq] at present present'
    split_ifs at present present' with second first first
    · rw [← second, ← first] at step
      omega
    · have bound := ((rounds following).mp (mem_iff_exists_getElem?.mpr ⟨_, present'⟩)).2
      rw [← second] at step
      omega
    · obtain rfl := Option.some.inj present'
      obtain rfl : round = latest.1 := BitVec.eq_of_toNat_eq (by rw [← first] at step; omega)
      obtain rfl := Option.some.inj (storedLatest.symm.trans present)
      exact follows
    · exact chain.next round following prior stored step present present'
  · intro round stored present
    rw [getElem?_insert_eq] at present
    split_ifs at present with same
    · obtain rfl := Option.some.inj present
      exact ⟨records, lower⟩
    · exact chain.tips round stored present

/-- The tree with a further checkpoint, before its branch is rebuilt. -/
abbrev withCheckpoint (state : SharechainReplayState) (checkpoint : SharechainCheckpointAnchorV1) : ShareTree :=
  { state.toShareTree with
    sharechainCheckpoints := state.sharechainCheckpoints.insert checkpoint.round checkpoint }

namespace CheckpointAccepted

variable (accepted : CheckpointAccepted crypto state checkpoint)
include accepted

/-- An accepted checkpoint has the round after the latest one. -/
theorem successive (found : state.latestCheckpoint? = some latest)
    (round : checkpoint.round = saturatingAdd latest.1 1) : checkpoint.round.toNat = latest.1.toNat + 1 := by
  obtain ⟨stored, -⟩ := latestCheckpoint?_eq_some.mp found
  have moves : saturatingAdd latest.1 1 ≠ latest.1 := by
    intro stays
    have fresh := accepted.fresh
    rw [round, stays, stored] at fresh
    cases fresh
  rw [round]
  exact toNat_saturatingAdd_one moves (by decide)

theorem chain (lower : IsAsciiLowercase checkpoint.shareTipHash) (chain : CheckpointChain state.toShareTree)
    (scored : ScoredShares state.shares) : CheckpointChain (withCheckpoint state checkpoint) := by
  have records := accepted.records
  rcases accepted.succeeds with ⟨none, round, parent⟩ | ⟨latest, found, round, parent, interval⟩
  · rw [withCheckpoint, round]
    exact CheckpointChain.opened (latestCheckpoint?_eq_none.mp none) parent records lower
  · obtain ⟨stored, -⟩ := latestCheckpoint?_eq_some.mp found
    obtain ⟨node, score, tip, cumulative, -⟩ := records
    obtain ⟨path, lineage, -⟩ := scored _ node score tip cumulative
    have inside := accepted.descends_latest lower (chain.tips _ _ stored).2 found lineage
    exact chain.extended found (accepted.successive found round) ⟨parent, interval, path, lineage, inside⟩
      accepted.records lower

private theorem latest_withCheckpoint : (withCheckpoint state checkpoint).latestCheckpoint? =
    some (checkpoint.round, checkpoint) := by
  rw [latestCheckpoint?_eq_some]
  refine ⟨ExtTreeMap.getElem?_insert_self, fun round member => ?_⟩
  rcases mem_treeMap_insert.mp member with rfl | before
  · exact BitVec.le_refl _
  · rcases accepted.succeeds with ⟨none, -⟩ | ⟨latest, found, successor, -⟩
    · obtain ⟨stored, present⟩ := mem_iff_exists_getElem?.mp before
      rw [latestCheckpoint?_eq_none.mp none] at present
      cases present
    · have bound : round.toNat ≤ latest.1.toNat := (latestCheckpoint?_eq_some.mp found).2 round before
      have successive := accepted.successive found successor
      change round.toNat ≤ checkpoint.round.toNat
      omega

variable (soundTree : SoundTree crypto mined state.toShareTree)
include soundTree

/-- The branch of an accepted checkpoint can be rebuilt, which keeps the tree sound and moves the tip only. -/
theorem rebuilds : ∃ after,
    ShareTree.rebuildActiveBranch checkpoint.shareTipHash (withCheckpoint state checkpoint) = .ok () after ∧
      SoundTree crypto mined after ∧ BranchOnly (withCheckpoint state checkpoint) after := by
  obtain ⟨node, score, tip, cumulative, -⟩ := accepted.records
  obtain ⟨path, lineage, total, -⟩ := soundTree.scored _ node score tip cumulative
  have bound := score.isLt
  obtain ⟨after, rebuilt, chosen, branch, only⟩ :=
    rebuildActiveBranch_spec (show ShareLineage (withCheckpoint state checkpoint).shares _ path from lineage)
      (show pathScore state.shares path < 2 ^ 128 by omega)
  have shares_eq : after.shares = state.shares := only.shares_eq
  have latest : after.latestCheckpoint? = some (checkpoint.round, checkpoint) :=
    only.latestCheckpoint?_eq.trans accepted.latest_withCheckpoint
  have active : ActiveTip after { hash | Resolved after.shares hash } := by
    refine ⟨⟨path, ?_, branch⟩, ?_, ?_, ?_, ?_⟩
    · rw [chosen, shares_eq]
      exact .some lineage
    · intro other same
      obtain rfl := Option.some.inj (chosen.symm.trans same)
      rw [shares_eq]
      exact ⟨score, node, tip, cumulative⟩
    · intro none
      rw [latest] at none
      cases none
    · intro none
      rw [latest] at none
      cases none
    · intro other same
      obtain rfl := Option.some.inj (latest.symm.trans same)
      exact chosen
  refine ⟨after, rebuilt, ⟨?_, ?_, ?_, ?_, ?_, ?_, active⟩, only⟩
  all_goals rw [only]
  · exact soundTree.keyed
  · exact soundTree.scored
  · exact soundTree.complete
  · exact soundTree.children
  · exact soundTree.oneRoot
  · exact soundTree.works

theorem sound
    (rebuilt : ShareTree.rebuildActiveBranch checkpoint.shareTipHash (withCheckpoint state checkpoint) = .ok () after) :
    SoundTree crypto mined after ∧ BranchOnly (withCheckpoint state checkpoint) after := by
  obtain ⟨_, again, kept⟩ := accepted.rebuilds soundTree
  cases rebuilt.symm.trans again
  exact kept

end CheckpointAccepted

end Accepted

end P2PoolBTC.Soundness
