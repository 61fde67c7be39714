import P2PoolBTC.Math.Apportion
import P2PoolBTC.Math.Lineage
import P2PoolBTC.Model.Core.ShareTree

/-! # The active branch

The walks of the share tree follow lineages, and crediting a branch gives every miner the sum of
its scores on it. Extending the branch by a child of its tip and rebuilding it from scratch
therefore leave the same scores.
-/

namespace P2PoolBTC.Soundness

open Math Model.Core Std

variable {hash : Text} {node : ShareNode} {path : List Text} {shares : ExtTreeMap Text ShareNode} {tree : ShareTree}
  {score : Score} {miner : Text}

section Skeleton

variable (shares : ExtTreeMap Text ShareNode)

/-- What resolution never changes about a stored share. -/
def skeleton (hash : Text) : Option (Share × Text) :=
  shares[hash]?.map fun node => (node.share, node.parentShareHash)

/-- The parent hash of a stored share. -/
def parentOf (hash : Text) : Option Text := (skeleton shares hash).map Prod.snd

/-- The score of a stored share. -/
def deltaOf (hash : Text) : ℕ := (skeleton shares hash).elim 0 fun entry => entry.1.hashrateScoreDelta.toNat

/-- The miner of a stored share. -/
def minerOf (hash : Text) : Option Text :=
  (skeleton shares hash).map fun entry => toAsciiLowercase entry.1.minerId

/-- Every share from a share up to the root is stored. -/
abbrev ShareLineage : Text → List Text → Prop := Lineage (parentOf shares) zeroShareParentHash

/-- The score of all shares of a path. -/
def pathScore (path : List Text) : ℕ := (path.map (deltaOf shares)).sum

/-- The score of one miner's shares of a path. -/
def minerScore (path : List Text) (miner : Text) : ℕ :=
  pathScore shares (path.filter fun hash => minerOf shares hash = some miner)

variable {shares}

theorem parentOf_of_stored (stored : shares[hash]? = some node) :
    parentOf shares hash = some node.parentShareHash := by
  simp [parentOf, skeleton, stored]

theorem deltaOf_of_stored (stored : shares[hash]? = some node) :
    deltaOf shares hash = node.share.hashrateScoreDelta.toNat := by
  simp [deltaOf, skeleton, stored]

private theorem minerOf_of_stored (stored : shares[hash]? = some node) :
    minerOf shares hash = some (toAsciiLowercase node.share.minerId) := by
  simp [minerOf, skeleton, stored]

theorem stored_of_parentOf {parent : Text} (link : parentOf shares hash = some parent) :
    ∃ node, shares[hash]? = some node ∧ node.parentShareHash = parent := by
  simpa [parentOf, skeleton] using link

theorem stored_of_mem_lineage {member : Text} (lineage : ShareLineage shares hash path)
    (inside : member ∈ path) : ∃ node, shares[member]? = some node := by
  obtain ⟨parent, link⟩ := lineage.exists_parent inside
  obtain ⟨node, stored, -⟩ := stored_of_parentOf link
  exact ⟨node, stored⟩

theorem lineage_length_le_size (lineage : ShareLineage shares hash path) : path.length ≤ shares.size := by
  apply length_le_size lineage.nodup
  intro member inside
  exact mem_iff_exists_getElem?.mpr (stored_of_mem_lineage lineage inside)

@[simp] theorem pathScore_nil : pathScore shares [] = 0 := rfl

@[simp] theorem pathScore_cons : pathScore shares (hash :: path) = deltaOf shares hash + pathScore shares path :=
  List.sum_cons

private theorem pathScore_append (early late : List Text) :
    pathScore shares (early ++ late) = pathScore shares early + pathScore shares late := by
  simp [pathScore]

private theorem pathScore_perm {left right : List Text} (permuted : left.Perm right) :
    pathScore shares left = pathScore shares right :=
  (permuted.map _).sum_eq

theorem minerScore_le_pathScore (shares : ExtTreeMap Text ShareNode) (path : List Text) (miner : Text) :
    minerScore shares path miner ≤ pathScore shares path := by
  have split := List.sum_map_filter_add_sum_map_filter_not (minerOf shares · = some miner) (deltaOf shares) path
  simp only [minerScore, pathScore] at *
  omega

private theorem minerScore_cons_self (mined : minerOf shares hash = some miner) :
    minerScore shares (hash :: path) miner = deltaOf shares hash + minerScore shares path miner := by
  simp [minerScore, mined]

private theorem minerScore_cons_other (other : minerOf shares hash ≠ some miner) :
    minerScore shares (hash :: path) miner = minerScore shares path miner := by
  simp [minerScore, other]

private theorem minerScore_eq_zero (none : ¬ ∃ hash ∈ path, minerOf shares hash = some miner) :
    minerScore shares path miner = 0 := by
  have empty : (path.filter fun hash => minerOf shares hash = some miner) = [] := by
    rw [List.filter_eq_nil_iff]
    intro hash inside mined
    exact none ⟨hash, inside, of_decide_eq_true mined⟩
  rw [minerScore, empty, pathScore_nil]

end Skeleton

section Walks

private theorem fresh_above {seen : ExtTreeSet Text} (distinct : (hash :: path).Nodup)
    (fresh : ∀ member ∈ hash :: path, member ∉ seen) : ∀ member ∈ path, member ∉ seen.insert hash := by
  intro member inside
  rw [mem_treeSet_insert]
  rintro (rfl | old)
  · exact (List.nodup_cons.mp distinct).1 inside
  · exact fresh member (List.mem_cons_of_mem _ inside) old

/-- The walk up the active branch visits exactly the lineage. -/
theorem activeBranchFrom_eq (lineage : ShareLineage shares hash path) (fuel : ℕ) (seen : ExtTreeSet Text)
    (enough : path.length ≤ fuel) (fresh : ∀ member ∈ path, member ∉ seen) :
    ShareTree.activeBranchFrom shares fuel seen hash = some path := by
  induction lineage generalizing fuel seen with
  | @root hash link =>
    obtain ⟨node, stored, top⟩ := stored_of_parentOf link
    obtain ⟨fuel, rfl⟩ := Nat.exists_eq_add_of_le' enough
    simp only [List.length_singleton, ShareTree.activeBranchFrom, stored, top, if_true,
      if_neg (fresh hash List.mem_cons_self)]
  | @child hash parent path link inner above ih =>
    obtain ⟨node, stored, rfl⟩ := stored_of_parentOf link
    obtain ⟨fuel, rfl⟩ : ∃ rest, fuel = rest + 1 := ⟨fuel - 1, by simp at enough; omega⟩
    have rest := ih fuel (seen.insert hash) (by simpa using enough)
      (fresh_above (Lineage.child link inner above).nodup fresh)
    simp only [ShareTree.activeBranchFrom, stored, if_neg inner, rest, Option.map_some,
      if_neg (fresh hash List.mem_cons_self)]

/-- The descendant walk finds exactly the members of the lineage. -/
theorem descendsFrom_eq (lineage : ShareLineage shares hash path) (ancestor : Text) (fuel : ℕ)
    (seen : ExtTreeSet Text) (enough : path.length ≤ fuel) (fresh : ∀ member ∈ path, member ∉ seen) :
    ShareTree.descendsFrom shares ancestor fuel seen hash = some (decide (ancestor ∈ path)) := by
  induction lineage generalizing fuel seen with
  | @root hash link =>
    obtain ⟨node, stored, top⟩ := stored_of_parentOf link
    obtain ⟨fuel, rfl⟩ := Nat.exists_eq_add_of_le' enough
    by_cases found : hash = ancestor
    · simp [ShareTree.descendsFrom, found]
    · simp [ShareTree.descendsFrom, found, stored, top, fresh hash List.mem_cons_self, Ne.symm found]
  | @child hash parent path link inner above ih =>
    obtain ⟨node, stored, rfl⟩ := stored_of_parentOf link
    obtain ⟨fuel, rfl⟩ : ∃ rest, fuel = rest + 1 := ⟨fuel - 1, by simp at enough; omega⟩
    have rest := ih fuel (seen.insert hash) (by simpa using enough)
      (fresh_above (Lineage.child link inner above).nodup fresh)
    by_cases found : hash = ancestor
    · simp [ShareTree.descendsFrom, found]
    · simp [ShareTree.descendsFrom, found, stored, inner, rest, fresh hash List.mem_cons_self, Ne.symm found]

end Walks

section Credits

/-- The total and the miners' scores are those of a path. -/
structure Credited (tree : ShareTree) (path : List Text) : Prop where
  total : tree.activeShareScoreTotal.toNat = pathScore tree.shares path
  scores : ∀ (miner : Text) (score : Score), tree.hashrateScores[miner]? = some score ↔
    (∃ hash ∈ path, minerOf tree.shares hash = some miner) ∧
      score.toNat = minerScore tree.shares path miner

/-- A tree that differs in its scores only. -/
def ScoresOnly (before after : ShareTree) : Prop :=
  after = { before with
    hashrateScores := after.hashrateScores
    activeShareScoreTotal := after.activeShareScoreTotal }

namespace Credited

private theorem of_perm {other : List Text} (credited : Credited tree path) (permuted : path.Perm other) :
    Credited tree other where
  total := by rw [credited.total, pathScore_perm permuted]
  scores miner score := by
    have filtered := permuted.filter fun hash => decide (minerOf tree.shares hash = some miner)
    rw [credited.scores, minerScore, minerScore, pathScore_perm filtered]
    simp only [permuted.mem_iff]

theorem nil (total : tree.activeShareScoreTotal = 0) (scores : tree.hashrateScores = ∅) : Credited tree [] where
  total := by simp [total]
  scores miner score := by simp [scores]

/-- The stored score of a miner, zero when there is none. -/
theorem entry_toNat (credited : Credited tree path) (miner : Text) :
    (tree.hashrateScores.getD miner 0).toNat = minerScore tree.shares path miner := by
  rw [ExtTreeMap.getD_eq_getD_getElem?]
  cases entry : tree.hashrateScores[miner]? with
  | some score => exact ((credited.scores miner score).mp entry).2
  | none =>
    rw [minerScore_eq_zero]
    · rfl
    · intro mined
      have fits : minerScore tree.shares path miner < 2 ^ 128 := by
        have bound := minerScore_le_pathScore tree.shares path miner
        have total := credited.total
        have word := tree.activeShareScoreTotal.isLt
        omega
      have present := (credited.scores miner (BitVec.ofNat 128 (minerScore tree.shares path miner))).mpr
        ⟨mined, by rw [BitVec.toNat_ofNat, Nat.mod_eq_of_lt fits]⟩
      rw [entry] at present
      cases present

theorem creditActiveShare (credited : Credited tree path) (stored : tree.shares[hash]? = some node)
    (fits : pathScore tree.shares (hash :: path) < 2 ^ 128) :
    ∃ after, ShareTree.creditActiveShare hash node.share tree = .ok () after ∧
      Credited after (hash :: path) ∧ ScoresOnly tree after := by
  have mined := minerOf_of_stored stored
  have delta := deltaOf_of_stored stored
  set miner := toAsciiLowercase node.share.minerId with miner_eq
  have share := minerScore_le_pathScore tree.shares path miner
  rw [pathScore_cons, delta] at fits
  obtain ⟨increased, added, increased_eq⟩ := exists_checkedAdd
    (tree.hashrateScores.getD miner 0) node.share.hashrateScoreDelta
    (by rw [credited.entry_toNat]; omega)
  obtain ⟨total, summed, total_eq⟩ := exists_checkedAdd tree.activeShareScoreTotal
    node.share.hashrateScoreDelta (by rw [credited.total]; omega)
  rw [credited.entry_toNat] at increased_eq
  rw [credited.total] at total_eq
  refine ⟨{ tree with
    hashrateScores := tree.hashrateScores.insert miner increased
    activeShareScoreTotal := total }, ?_, ⟨?_, ?_⟩, rfl⟩
  · simp only [ShareTree.creditActiveShare, ← miner_eq, Routine.get_bind, Routine.modify_bind, added, okOr_some,
      Routine.attempt_ok, Routine.pure_bind_apply, insert_insert_self, summed, Routine.modify_apply]
  · change total.toNat = pathScore tree.shares (hash :: path)
    rw [pathScore_cons, delta, total_eq, Nat.add_comm]
  · intro other score
    rw [getElem?_insert_eq]
    split_ifs with same
    · subst same
      rw [minerScore_cons_self mined, delta, Option.some.injEq]
      constructor
      · rintro rfl
        exact ⟨⟨hash, List.mem_cons_self, mined⟩, by omega⟩
      · rintro ⟨-, equal⟩
        apply BitVec.eq_of_toNat_eq
        omega
    · have different : minerOf tree.shares hash ≠ some other := by
        rw [mined]
        exact fun equal => same (Option.some.inj equal)
      rw [credited.scores, minerScore_cons_other different]
      simp [different]

/-- Crediting a whole branch whose path fits succeeds. -/
theorem creditActiveBranch {branch : List Text} (credited : Credited tree path)
    (stored : ∀ hash ∈ branch, ∃ node, tree.shares[hash]? = some node)
    (fits : pathScore tree.shares (branch ++ path) < 2 ^ 128) :
    ∃ after, ShareTree.creditActiveBranch branch tree = .ok () after ∧
      Credited after (branch ++ path) ∧ ScoresOnly tree after := by
  induction branch generalizing tree path with
  | nil => exact ⟨tree, rfl, credited, rfl⟩
  | cons hash rest ih =>
    obtain ⟨node, present⟩ := stored hash List.mem_cons_self
    rw [List.cons_append, pathScore_cons, pathScore_append] at fits
    obtain ⟨middle, credit, creditedMiddle, middle_eq⟩ :=
      credited.creditActiveShare present (by rw [pathScore_cons]; omega)
    have shares_eq : middle.shares = tree.shares := by rw [middle_eq]
    obtain ⟨after, credits, creditedAfter, after_eq⟩ := ih creditedMiddle
      (fun other inside => by rw [shares_eq]; exact stored other (List.mem_cons_of_mem _ inside))
      (by rw [shares_eq, pathScore_append, pathScore_cons]; omega)
    refine ⟨after, ?_, creditedAfter.of_perm List.perm_middle, ?_⟩
    · simp only [ShareTree.creditActiveBranch, Routine.get_bind, present]
      rw [Routine.bind_of_ok credit, credits]
    · unfold ScoresOnly at *
      rw [after_eq, middle_eq]

end Credited

/-- The bookkeeping of the active branch is that of a path. -/
structure ActiveBranch (tree : ShareTree) (path : List Text) : Prop extends Credited tree path where
  hashes : ∀ hash, hash ∈ tree.activeShareHashes ↔ hash ∈ path

/-- Crediting a path whose hashes are set from nothing. -/
theorem creditActiveBranch_cleared (stored : ∀ hash ∈ path, ∃ node, tree.shares[hash]? = some node)
    (fits : pathScore tree.shares path < 2 ^ 128) (hashes : tree.activeShareHashes = ExtTreeSet.ofList path)
    (total : tree.activeShareScoreTotal = 0) (scores : tree.hashrateScores = ∅) :
    ∃ after, ShareTree.creditActiveBranch path tree = .ok () after ∧ ActiveBranch after path ∧
      ScoresOnly tree after := by
  obtain ⟨after, credits, credited, only⟩ := (Credited.nil total scores).creditActiveBranch stored (by simpa using fits)
  rw [List.append_nil] at credited
  have kept : after.activeShareHashes = tree.activeShareHashes := by rw [only]
  exact ⟨after, credits, ⟨credited, fun hash => by rw [kept, hashes, mem_treeSet_ofList]⟩, only⟩

/-- A tree that differs in the bookkeeping of its active branch only. -/
def BranchOnly (before after : ShareTree) : Prop :=
  after = { before with
    activeShareHashes := after.activeShareHashes
    activeShareScoreTotal := after.activeShareScoreTotal
    bestShareTip := after.bestShareTip
    hashrateScores := after.hashrateScores }

/-- Rebuilding from a resolved tip whose path fits succeeds. -/
theorem rebuildActiveBranch_spec {tip : Text} (lineage : ShareLineage tree.shares tip path)
    (fits : pathScore tree.shares path < 2 ^ 128) :
    ∃ after, ShareTree.rebuildActiveBranch tip tree = .ok () after ∧
      after.bestShareTip = some tip ∧ ActiveBranch after path ∧ BranchOnly tree after := by
  have walk := activeBranchFrom_eq lineage (tree.shares.size + 1) ∅
    (Nat.le_succ_of_le (lineage_length_le_size lineage)) (fun _ _ => ExtTreeSet.not_mem_empty)
  set cleared : ShareTree := { tree with
    activeShareHashes := ExtTreeSet.ofList path
    hashrateScores := ∅
    activeShareScoreTotal := 0 } with cleared_eq
  have stored : ∀ hash ∈ path, ∃ node, cleared.shares[hash]? = some node :=
    fun hash inside => stored_of_mem_lineage lineage inside
  obtain ⟨credited, credits, active, scores_eq⟩ := creditActiveBranch_cleared stored fits rfl rfl rfl
  refine ⟨{ credited with bestShareTip := some tip }, ?_, rfl, { active with }, ?_⟩
  · simp only [ShareTree.rebuildActiveBranch, Routine.get_bind, walk, Routine.set_bind]
    rw [← cleared_eq, Routine.bind_of_ok credits, Routine.modify_apply]
  · unfold BranchOnly
    rw [scores_eq]

end Credits

variable {other : Score}

section Tip

open ShareTree (outranks)

theorem outranks_iff {otherHash : Text} :
    outranks score hash other otherHash = true ↔
      other.toNat < score.toNat ∨ score = other ∧ compare hash otherHash = .lt := by
  simp [outranks, BitVec.lt_def]

theorem outranks_trans {first second third : Score} {a b c : Text}
    (upper : outranks first a second b = true) (lower : outranks second b third c = true) :
    outranks first a third c = true := by
  rw [outranks_iff] at *
  rcases upper with larger | ⟨rfl, before⟩
  · rcases lower with also | ⟨rfl, -⟩
    · exact .inl (also.trans larger)
    · exact .inl larger
  · rcases lower with larger | ⟨rfl, after⟩
    · exact .inl larger
    · exact .inr ⟨rfl, TransCmp.lt_trans before after⟩

theorem outranks_irrefl : ¬ outranks score hash score hash = true := by
  rw [outranks_iff]
  rintro (smaller | ⟨-, before⟩)
  · omega
  · rw [Std.compare_eq_iff_eq.mpr rfl] at before
    cases before

theorem outranks_total {otherHash : Text} (different : hash ≠ otherHash)
    (fails : outranks score hash other otherHash = false) : outranks other otherHash score hash = true := by
  rw [← Bool.not_eq_true, outranks_iff] at fails
  rw [outranks_iff]
  rcases Nat.lt_trichotomy other.toNat score.toNat with smaller | equal | larger
  · exact absurd (.inl smaller) fails
  · obtain rfl := BitVec.eq_of_toNat_eq equal
    right
    refine ⟨rfl, ?_⟩
    cases order : compare hash otherHash with
    | lt => exact absurd (.inr ⟨rfl, order⟩) fails
    | eq => exact absurd (Std.compare_eq_iff_eq.mp order) different
    | gt => exact OrientedCmp.lt_of_gt order
  · exact .inl larger

/-- A stored share with a cumulative score. -/
def ResolvedWith (shares : ExtTreeMap Text ShareNode) (hash : Text) (score : Score) : Prop :=
  ∃ node, shares[hash]? = some node ∧ node.cumulativeScore = some score

theorem ResolvedWith.unique (first : ResolvedWith shares hash score) (second : ResolvedWith shares hash other) :
    score = other := by
  obtain ⟨node, stored, cumulative⟩ := first
  obtain ⟨node', stored', cumulative'⟩ := second
  rw [stored] at stored'
  cases stored'
  rw [cumulative] at cumulative'
  exact Option.some.inj cumulative'

/-- Every resolved share has a lineage with its score and height. -/
def ScoredShares (shares : ExtTreeMap Text ShareNode) : Prop :=
  ∀ (hash : Text) (node : ShareNode) (score : Score), shares[hash]? = some node →
    node.cumulativeScore = some score → ∃ path, ShareLineage shares hash path ∧
      score.toNat = pathScore shares path ∧ node.height.toNat = path.length

theorem ScoredShares.lineage (scored : ScoredShares shares) (resolved : ResolvedWith shares hash score) :
    ∃ path, ShareLineage shares hash path ∧ score.toNat = pathScore shares path := by
  obtain ⟨node, stored, cumulative⟩ := resolved
  obtain ⟨path, lineage, total, -⟩ := scored hash node score stored cumulative
  exact ⟨path, lineage, total⟩

/-- The path of an optional tip. -/
inductive TipPath (shares : ExtTreeMap Text ShareNode) : Option Text → List Text → Prop
  | none : TipPath shares none []
  | some {tip : Text} {path : List Text} (lineage : ShareLineage shares tip path) :
      TipPath shares (some tip) path

theorem TipPath.unique {tip : Option Text} {other : List Text} (first : TipPath shares tip path)
    (second : TipPath shares tip other) : path = other := by
  cases first with
  | none =>
    cases second
    rfl
  | some lineage =>
    cases second with
    | some lineage' => exact lineage.unique lineage'

/-- The tip and its branch, when it was chosen among the given shares. -/
structure ActiveTip (tree : ShareTree) (considered : Set Text) : Prop where
  branch : ∃ path, TipPath tree.shares tree.bestShareTip path ∧ ActiveBranch tree path
  resolved : ∀ tip, tree.bestShareTip = some tip → ∃ score, ResolvedWith tree.shares tip score
  waits : tree.latestCheckpoint? = none → tree.bestShareTip = none → considered = ∅
  leads : tree.latestCheckpoint? = none → ∀ tip score, tree.bestShareTip = some tip →
    ResolvedWith tree.shares tip score → ∀ other ∈ considered, ∀ otherScore,
      ResolvedWith tree.shares other otherScore → other ≠ tip → outranks score tip otherScore other = true
  finalized : ∀ latest, tree.latestCheckpoint? = some latest →
    tree.bestShareTip = some latest.2.shareTipHash

variable {after : ShareTree} {considered : Set Text}

theorem BranchOnly.shares_eq (only : BranchOnly tree after) : after.shares = tree.shares := by
  rw [only]

theorem BranchOnly.latestCheckpoint?_eq (only : BranchOnly tree after) :
    after.latestCheckpoint? = tree.latestCheckpoint? := by
  rw [only]
  rfl

/-- A new tip that outranks every other considered share. -/
theorem ActiveTip.of_branch (only : BranchOnly tree after) (unfinalized : tree.latestCheckpoint? = none)
    (tip : after.bestShareTip = some hash) (lineage : ShareLineage tree.shares hash path)
    (active : ActiveBranch after path) (resolved : ResolvedWith tree.shares hash score)
    (leads : ∀ other ∈ considered, ∀ otherScore, ResolvedWith tree.shares other otherScore →
      other ≠ hash → outranks score hash otherScore other = true) :
    ActiveTip after (insert hash considered) where
  branch := ⟨path, by rw [tip, only.shares_eq]; exact .some lineage, active⟩
  resolved other chosen := by
    rw [tip] at chosen
    obtain rfl := Option.some.inj chosen
    exact ⟨score, by rwa [only.shares_eq]⟩
  waits _ none := by rw [tip] at none; cases none
  leads _ other otherScore chosen otherResolved third member thirdScore thirdResolved different := by
    rw [tip] at chosen
    obtain rfl := Option.some.inj chosen
    rw [only.shares_eq] at otherResolved thirdResolved
    obtain rfl := resolved.unique otherResolved
    rcases member with rfl | old
    · exact absurd rfl different
    · exact leads third old thirdScore thirdResolved different
  finalized latest checkpoint := by
    rw [only.latestCheckpoint?_eq, unfinalized] at checkpoint
    cases checkpoint

private theorem isBetter_of_tip {tip : Text} {tipScore : Score} (chosen : tree.bestShareTip = some tip)
    (resolved : ResolvedWith tree.shares tip tipScore) (state : ShareTree) :
    ShareTree.isBetter tree score hash state = .ok (outranks score hash tipScore tip) state := by
  obtain ⟨node, stored, cumulative⟩ := resolved
  simp only [ShareTree.isBetter, chosen, Option.bind_some, stored, Option.map_some, cumulative, Routine.pure_apply]

private theorem isBetter_of_none (none : tree.bestShareTip = none) (state : ShareTree) :
    ShareTree.isBetter tree score hash state = .ok true state := by
  simp only [ShareTree.isBetter, none, Option.bind_none, Routine.pure_apply]

/-- The branch of a better share, appended to the tip it extends or rebuilt. -/
theorem promoteShare_spec (scored : ScoredShares tree.shares)
    (rootless : ∀ path, ¬ ShareLineage tree.shares zeroShareParentHash path)
    (branch : ∃ path, TipPath tree.shares tree.bestShareTip path ∧ ActiveBranch tree path)
    (stored : tree.shares[hash]? = some node) (cumulative : node.cumulativeScore = some score) :
    ∃ after path, ShareTree.promoteShare tree hash node tree = .ok () after ∧
      after.bestShareTip = some hash ∧ ShareLineage tree.shares hash path ∧ ActiveBranch after path ∧
      BranchOnly tree after := by
  obtain ⟨path, lineage, total, -⟩ := scored hash node score stored cumulative
  have fits : pathScore tree.shares path < 2 ^ 128 := by
    rw [← total]
    exact score.isLt
  unfold ShareTree.promoteShare
  split_ifs with extension
  · obtain ⟨tipPath, tipLineage, active⟩ := branch
    rw [extension.1] at tipLineage
    cases tipLineage with
    | some parentLineage =>
      -- The parent is the tip, so it is not the origin and the branch is the rest of the lineage.
      rcases lineage.parent_cases (parentOf_of_stored stored) with
        ⟨top, -⟩ | ⟨rest, -, above, rfl⟩
      · exact absurd (top ▸ parentLineage) (rootless tipPath)
      · obtain rfl := parentLineage.unique above
        obtain ⟨middle, credit, credited, scores_eq⟩ := active.toCredited.creditActiveShare stored fits
        refine ⟨{ middle with
            activeShareHashes := middle.activeShareHashes.insert hash
            bestShareTip := some hash }, _, ?_, rfl, lineage, ⟨⟨credited.total, credited.scores⟩, ?_⟩, ?_⟩
        · rw [Routine.bind_of_ok credit, Routine.modify_apply]
        · intro other
          have hashes : middle.activeShareHashes = tree.activeShareHashes := by rw [scores_eq]
          simp only [hashes, mem_treeSet_insert, active.hashes, List.mem_cons, eq_comm]
        · unfold BranchOnly
          rw [scores_eq]
  · obtain ⟨after, rebuilt, tip, active, only⟩ := rebuildActiveBranch_spec lineage fits
    exact ⟨after, path, rebuilt, tip, lineage, active, only⟩

/-- Considering a resolved share succeeds and keeps the tip the best of the considered shares. -/
theorem considerResolvedShare_spec (scored : ScoredShares tree.shares)
    (rootless : ∀ path, ¬ ShareLineage tree.shares zeroShareParentHash path)
    (active : ActiveTip tree considered) (resolved : ResolvedWith tree.shares hash score) :
    ∃ after, ShareTree.considerResolvedShare hash tree = .ok () after ∧ BranchOnly tree after ∧
      ActiveTip after (insert hash considered) := by
  cases latest : tree.latestCheckpoint? with
  | some checkpoint =>
    refine ⟨tree, ?_, rfl, ⟨active.branch, active.resolved, ?_, ?_, active.finalized⟩⟩
    · simp only [ShareTree.considerResolvedShare, Routine.get_bind, latest, Option.isSome_some, if_true,
        Routine.pure_apply]
    · intro none
      rw [latest] at none
      cases none
    · intro none
      rw [latest] at none
      cases none
  | none =>
    obtain ⟨node, stored, cumulative⟩ := resolved
    obtain ⟨promoted, path, promotion, tip_eq, lineage, branch, only⟩ :=
      promoteShare_spec scored rootless active.branch stored cumulative
    have unfold_eq : ShareTree.considerResolvedShare hash tree =
        (ShareTree.isBetter tree score hash >>= fun better =>
          if better then ShareTree.promoteShare tree hash node else pure ()) tree := by
      simp only [ShareTree.considerResolvedShare, Routine.get_bind, latest, Option.isSome_none, stored, cumulative]
      rfl
    rw [unfold_eq]
    cases chosen : tree.bestShareTip with
    | none =>
      refine ⟨promoted, ?_, only, .of_branch only latest tip_eq lineage branch ⟨node, stored, cumulative⟩ ?_⟩
      · rw [Routine.bind_of_ok (isBetter_of_none chosen tree)]
        exact promotion
      · rw [active.waits latest chosen]
        exact fun other member => absurd member (Set.notMem_empty other)
    | some tip =>
      obtain ⟨tipScore, tipResolved⟩ := active.resolved tip chosen
      have leads := active.leads latest tip tipScore chosen tipResolved
      rw [Routine.bind_of_ok (isBetter_of_tip chosen tipResolved tree)]
      cases better : outranks score hash tipScore tip with
      | true =>
        refine ⟨promoted, ?_, only, .of_branch only latest tip_eq lineage branch ⟨node, stored, cumulative⟩ ?_⟩
        · exact promotion
        · intro other member otherScore otherResolved different
          by_cases same : other = tip
          · subst same
            rwa [otherResolved.unique tipResolved]
          · exact outranks_trans better (leads other member otherScore otherResolved same)
      | false =>
        refine ⟨tree, rfl, rfl, ⟨active.branch, active.resolved, ?_, ?_, active.finalized⟩⟩
        · intro _ none
          rw [chosen] at none
          cases none
        · intro _ tip' tipScore' chosen' tipResolved' other member otherScore otherResolved different
          rw [chosen] at chosen'
          obtain rfl := Option.some.inj chosen'
          obtain rfl := tipResolved.unique tipResolved'
          rcases member with rfl | old
          · obtain rfl := otherResolved.unique ⟨node, stored, cumulative⟩
            exact outranks_total different better
          · exact leads other old otherScore otherResolved different

end Tip

end P2PoolBTC.Soundness
