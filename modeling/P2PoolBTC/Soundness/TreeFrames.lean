import P2PoolBTC.Math.Frame
import P2PoolBTC.Soundness.ShareResolution

/-! # What the share functions leave alone

Resolving shares and choosing a tip write scores, heights and the active branch. The checkpoints and
the stored shares themselves stay as they are, whether a function returns or stops, and a share that is
applied is the only one added.
-/

namespace P2PoolBTC.Soundness

open Math Model.Core Std

/-! ## The bookkeeping of the active branch -/

theorem BranchOnly.refl (tree : ShareTree) : BranchOnly tree tree := rfl

theorem BranchOnly.trans {one two three : ShareTree} (early : BranchOnly one two) (late : BranchOnly two three) :
    BranchOnly one three := by
  unfold BranchOnly at *
  rw [late, early]

theorem creditActiveShare_branch (shareHash : Text) (share : Share) (tree : ShareTree) :
    Frame BranchOnly (ShareTree.creditActiveShare shareHash share) tree := by
  refine .get_bind (.bind .trans (.modify rfl) fun _ _ _ => .attempt_bind .refl fun _ _ => ?_)
  refine .bind .trans (.modify rfl) fun _ _ _ => .get_bind (.attempt_bind .refl fun _ _ => .modify rfl)

private theorem creditActiveBranch_branch (branch : List Text) (tree : ShareTree) :
    Frame BranchOnly (ShareTree.creditActiveBranch branch) tree := by
  induction branch generalizing tree with
  | nil => exact .pure .refl ()
  | cons shareHash rest ih =>
    refine .get_bind ?_
    cases tree.shares[shareHash]? with
    | none => exact .bind .trans (.raise .refl _) fun _ middle _ => ih middle
    | some node => exact .bind .trans (creditActiveShare_branch _ _ _) fun _ middle _ => ih middle

theorem rebuildActiveBranch_branch (tip : Text) (tree : ShareTree) :
    Frame BranchOnly (ShareTree.rebuildActiveBranch tip) tree := by
  refine .get_bind ?_
  cases ShareTree.activeBranchFrom tree.shares (tree.shares.size + 1) ∅ tip with
  | none => exact .raise .refl _
  | some branch =>
    exact .bind .trans (.set rfl) fun _ _ _ =>
      .bind .trans (creditActiveBranch_branch branch _) fun _ _ _ => .modify rfl

private theorem isBetter_branch (score : Score) (shareHash : Text) (tree : ShareTree) :
    Frame BranchOnly (tree.isBetter score shareHash) tree := by
  unfold ShareTree.isBetter
  split
  · exact .pure .refl _
  · split
    · exact .raise .refl _
    · exact .pure .refl _

private theorem promoteShare_branch (shareHash : Text) (node : ShareNode) (tree start : ShareTree) :
    Frame BranchOnly (tree.promoteShare shareHash node) start := by
  unfold ShareTree.promoteShare
  split_ifs
  · exact .bind .trans (creditActiveShare_branch _ _ _) fun _ _ _ => .modify rfl
  · exact rebuildActiveBranch_branch _ _

private theorem considerResolvedShare_branch (shareHash : Text) (tree : ShareTree) :
    Frame BranchOnly (ShareTree.considerResolvedShare shareHash) tree := by
  unfold ShareTree.considerResolvedShare
  refine .get_bind ?_
  split_ifs
  · exact .pure .refl ()
  · split
    · exact .raise .refl _
    · split
      · exact .raise .refl _
      · refine .bind .trans (isBetter_branch _ _ _) fun better middle _ => ?_
        cases better with
        | true => exact promoteShare_branch _ _ _ _
        | false => exact .pure .refl ()

/-! ## Resolution -/

/-- What is not resolved has no height, and no parent is listed without a child. -/
structure Tidy (tree : ShareTree) : Prop where
  unresolved : ∀ (hash : Text) (node : ShareNode), tree.shares[hash]? = some node → node.cumulativeScore = none →
    node.height = 0
  listed : ∀ (parent : Text) (children : ExtTreeSet Text), tree.childrenByParent[parent]? = some children →
    ∃ hash, hash ∈ children

/-- The two trees store the same checkpoints and the same shares under the same parents. -/
structure TreeKept (before after : ShareTree) : Prop where
  checkpoints : after.sharechainCheckpoints = before.sharechainCheckpoints
  records : skeleton after.shares = skeleton before.shares
  tidy : Tidy before → Tidy after

theorem TreeKept.refl (tree : ShareTree) : TreeKept tree tree := ⟨rfl, rfl, id⟩

theorem TreeKept.trans {one two three : ShareTree} (early : TreeKept one two) (late : TreeKept two three) :
    TreeKept one three :=
  ⟨late.checkpoints.trans early.checkpoints, late.records.trans early.records, fun tidy => late.tidy (early.tidy tidy)⟩

theorem TreeKept.of_branch {before after : ShareTree} (only : BranchOnly before after) : TreeKept before after := by
  rw [only]
  exact ⟨rfl, rfl, fun tidy => ⟨tidy.unresolved, tidy.listed⟩⟩

private theorem TreeKept.resolved {tree : ShareTree} {candidate : Text} {node : ShareNode} (score : Score)
    (height : U64)
    (stored : tree.shares[candidate]? = some node) : TreeKept tree (withResolved tree candidate node score height) := by
  refine ⟨rfl, skeleton_withResolved score height stored, fun tidy => ⟨fun hash other present waiting => ?_,
    tidy.listed⟩⟩
  simp only [withResolved, getElem?_insert_eq] at present
  split_ifs at present with same
  · cases present
    cases waiting
  · exact tidy.unresolved hash other present waiting

private theorem resolveQueue_kept (fuel : ℕ) (queue : List Text) (tree : ShareTree) :
    Frame TreeKept (ShareTree.resolveQueue fuel queue) tree := by
  induction fuel generalizing queue tree with
  | zero =>
    cases queue with
    | nil => exact .pure .refl ()
    | cons candidate rest => exact .raise .refl _
  | succ fuel ih =>
    cases queue with
    | nil => exact .pure .refl ()
    | cons candidate rest =>
      unfold ShareTree.resolveQueue
      refine .get_bind ?_
      split
      · exact ih _ _
      · next node stored =>
        refine .attempt_bind .refl fun found _ => ?_
        cases found with
        | none => exact ih _ _
        | some scored =>
          dsimp only
          split_ifs
          · exact .fail .refl _
          · exact .bind .trans (.modify (.resolved _ _ stored)) fun _ _ _ =>
              .bind .trans ((considerResolvedShare_branch _ _).mono fun _ => .of_branch) fun _ _ _ => .get_bind (ih _ _)

private theorem Tidy.withShare {tree : ShareTree} (tidy : Tidy tree) (shareHash parentShareHash : Text)
    (share : Share) :
    Tidy (tree.withShare shareHash parentShareHash share) := by
  constructor
  · intro hash node present waiting
    simp only [ShareTree.withShare, getElem?_insert_eq] at present
    split_ifs at present
    · cases present
      rfl
    · exact tidy.unresolved hash node present waiting
  · intro parent children present
    simp only [ShareTree.withShare, getElem?_insert_eq] at present
    split_ifs at present
    · cases present
      exact ⟨shareHash, mem_treeSet_insert.mpr (.inl rfl)⟩
    · exact tidy.listed parent children present

/-- What applying a share does to the stored shares: nothing, or it adds the share under its hash. -/
structure ShareAdded (crypto : Crypto) (share : Share) (before after : ShareTree) : Prop where
  checkpoints : after.sharechainCheckpoints = before.sharechainCheckpoints
  records : skeleton after.shares = skeleton before.shares ∨
    before.shares[share.normalized.shareHash crypto]? = none ∧ ∀ hash, skeleton after.shares hash =
      if share.normalized.shareHash crypto = hash then
        some (share.normalized, toAsciiLowercase share.normalized.parentShareHash)
      else skeleton before.shares hash
  tidy : Tidy before → Tidy after

private theorem ShareAdded.of_kept {crypto : Crypto} {share : Share} {before after : ShareTree}
    (kept : TreeKept before after) : ShareAdded crypto share before after :=
      ⟨kept.checkpoints, .inl kept.records, kept.tidy⟩

/-- Resolving a new share and recording its work. -/
theorem resolveShareAndDescendants_kept (shareHash workHash : Text) (tree : ShareTree) : Frame TreeKept (do
    ShareTree.resolveShareAndDescendants shareHash
    modify fun tree => { tree with shareHashByWorkHash := tree.shareHashByWorkHash.insert workHash shareHash }) tree :=
  .bind .trans (.get_bind (resolveQueue_kept _ _ _)) fun _ _ _ =>
    .modify ⟨rfl, rfl, fun tidy => ⟨tidy.unresolved, tidy.listed⟩⟩

theorem applyShare_adds (crypto : Crypto) (share : Share) (tree : ShareTree) :
    Frame (ShareAdded crypto share) (ShareTree.applyShare crypto share) tree := by
  unfold ShareTree.applyShare
  refine .get_bind ?_
  split
  · exact .attempt (fun _ => .of_kept (.refl _)) _
  · next fresh =>
    dsimp only
    split
    · exact .fail (fun _ => .of_kept (.refl _)) _
    · refine .attempt_bind (fun _ => .of_kept (.refl _)) fun _ _ => ?_
      intro after ended
      have kept := resolveShareAndDescendants_kept _ _ _ after ended
      refine ⟨kept.checkpoints, .inr ⟨fresh, fun hash => ?_⟩, fun tidy => kept.tidy (tidy.withShare _ _ _)⟩
      rw [kept.records]
      exact skeleton_withShare hash

end P2PoolBTC.Soundness
