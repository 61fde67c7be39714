import P2PoolBTC.Model.Core.ShareRebuild
import P2PoolBTC.Soundness.ReplayRuns
import P2PoolBTC.Soundness.TreeFrames

/-! # The rebuilt share state

In a sound tree every index, score and height is what the rebuild computes from the stored shares.
The tip is the exception: the rebuild looks for the heaviest share and does not know checkpoints.
-/

namespace P2PoolBTC.Soundness

open Math Model.Core Std ShareTree

variable {crypto : Crypto} {mined : Set Share} {tree : ShareTree} {index : ExtTreeMap Text (ExtTreeSet Text)}
  {branchScores : BranchScores}

/-! ## Indices -/

variable {hash : Text} {entries : List (Text × ShareNode)}

section Indices

/-- The work of a stored share. -/
def shareWork (shares : ExtTreeMap Text ShareNode) (hash : Text) : Text :=
  shares[hash]?.elim [] fun node => toAsciiLowercase node.share.workHash

private theorem SoundTree.uniqueRoot (sound : SoundTree crypto mined tree) {node : ShareNode}
    (stored : tree.shares[hash]? = some node) (other : ShareTree) (same : other.shares = tree.shares) :
    other.validateUniqueSharechainRoot hash node.parentShareHash = .ok () := by
  unfold validateUniqueSharechainRoot
  split_ifs with top
  · have none : other.shares.toList.find? (fun entry =>
        decide (EqIgnoreAsciiCase entry.2.parentShareHash zeroShareParentHash ∧ ¬ EqIgnoreAsciiCase entry.1 hash)) =
          none := by
      rw [List.find?_eq_none]
      rintro ⟨key, entry⟩ listed
      rw [ExtTreeMap.mem_toList_iff_getElem?_eq_some, same] at listed
      rw [decide_eq_true_eq]
      rintro ⟨entryTop, different⟩
      rw [eqIgnoreAsciiCase_iff_eq (sound.lowercase listed).2 zeroShareParentHash_lowercase] at entryTop
      rw [eqIgnoreAsciiCase_iff_eq (sound.lowercase stored).2 zeroShareParentHash_lowercase] at top
      apply different
      rw [sound.oneRoot key hash (entryTop ▸ parentOf_of_stored listed) (top ▸ parentOf_of_stored stored)]
      rfl
    rw [none]
    rfl
  · rfl

private theorem SoundTree.workOf_injective (sound : SoundTree crypto mined tree) {other : Text}
    (stored : hash ∈ tree.shares)
    (otherStored : other ∈ tree.shares) (same : shareWork tree.shares hash = shareWork tree.shares other) :
    hash = other := by
  obtain ⟨node, present⟩ := mem_iff_exists_getElem?.mp stored
  obtain ⟨otherNode, otherPresent⟩ := mem_iff_exists_getElem?.mp otherStored
  simp only [shareWork, present, otherPresent, Option.elim_some] at same
  have first := (sound.works _ hash).mpr ⟨node, present, rfl⟩
  have second := (sound.works _ other).mpr ⟨otherNode, otherPresent, rfl⟩
  rw [same, second] at first
  exact (Option.some.inj first).symm

/-- Indexing stored shares with works of their own. -/
theorem SoundTree.indexShareWorks (sound : SoundTree crypto mined tree) {index : ExtTreeMap Text Text} (done : Set Text)
    (stored : ∀ entry ∈ entries, tree.shares[entry.1]? = some entry.2) (distinct : (entries.map Prod.fst).Nodup)
    (fresh : ∀ entry ∈ entries, entry.1 ∉ done) (within : ∀ hash ∈ done, hash ∈ tree.shares)
    (filled : FilledWith (shareWork tree.shares) ∅ index done) :
    ∃ last, ShareTree.indexShareWorks entries { tree with shareHashByWorkHash := index } =
        .ok () { tree with shareHashByWorkHash := last } ∧
      FilledWith (shareWork tree.shares) ∅ last (done ∪ { hash | hash ∈ entries.map Prod.fst }) := by
  induction entries generalizing index done with
  | nil => exact ⟨index, rfl, by simpa using filled⟩
  | cons entry rest ih =>
    obtain ⟨hash, node⟩ := entry
    have present : tree.shares[hash]? = some node := stored (hash, node) List.mem_cons_self
    have work : shareWork tree.shares hash = toAsciiLowercase node.share.workHash := by simp [shareWork, present]
    have member : hash ∈ tree.shares := mem_iff_exists_getElem?.mpr ⟨node, present⟩
    -- another share with this work would be the same share
    have unused : index[shareWork tree.shares hash]? = none := by
      by_contra used
      obtain ⟨other, found⟩ := Option.ne_none_iff_exists'.mp used
      have listed := (filled _ _).mp found
      simp only [ExtTreeMap.getElem?_empty, reduceCtorEq, false_or] at listed
      have same := sound.workOf_injective (within other listed.1) member listed.2
      exact fresh (hash, node) List.mem_cons_self (same ▸ listed.1)
    rw [List.map_cons, List.nodup_cons] at distinct
    obtain ⟨last, returned, filledLast⟩ := ih (insert hash done)
      (fun entry later => stored entry (List.mem_cons_of_mem _ later)) distinct.2
      (fun entry later listed => by
        rcases listed with same | old
        · exact distinct.1 (List.mem_map.mpr ⟨entry, later, same⟩)
        · exact fresh entry (List.mem_cons_of_mem _ later) old)
      (fun other listed => by
        rcases listed with rfl | old
        · exact member
        · exact within other old)
      (filled.added unused)
    refine ⟨last, ?_, ?_⟩
    · have indexed : indexShareWork hash node { tree with shareHashByWorkHash := index } =
          .ok () { tree with shareHashByWorkHash := index.insert (shareWork tree.shares hash) hash } := by
        simp only [indexShareWork, Routine.get_bind]
        rw [Routine.attempt_bind_of_ok (sound.uniqueRoot present { tree with shareHashByWorkHash := index } rfl)]
        simp only [Routine.set_bind, ← work, unused]
        rfl
      rw [ShareTree.indexShareWorks, Routine.bind_of_ok indexed, returned]
    · convert filledLast using 1
      ext other
      simp only [List.map_cons, List.mem_cons, Set.mem_union, Set.mem_ofPred_eq, Set.mem_insert_iff]
      tauto

private theorem SoundTree.works_rebuilt (sound : SoundTree crypto mined tree) :
    ShareTree.indexShareWorks tree.shares.toList { tree with shareHashByWorkHash := ∅ } = .ok () tree := by
  obtain ⟨last, returned, filled⟩ := sound.indexShareWorks ∅
    (fun entry listed => ExtTreeMap.mem_toList_iff_getElem?_eq_some.mp listed)
    (by rw [ExtTreeMap.map_fst_toList_eq_keys]; exact ExtTreeMap.nodup_keys) (fun _ _ => id) (fun _ => False.elim)
    (.refl _ _)
  have same : last = tree.shareHashByWorkHash := by
    apply ext_entries
    intro work hash
    rw [filled, sound.works]
    simp only [ExtTreeMap.getElem?_empty, reduceCtorEq, false_or, Set.empty_union, Set.mem_ofPred_eq, List.mem_map,
      Prod.exists, exists_and_right, exists_eq_right, ExtTreeMap.mem_toList_iff_getElem?_eq_some, shareWork]
    constructor
    · rintro ⟨⟨node, present⟩, rfl⟩
      exact ⟨node, present, by simp [present]⟩
    · rintro ⟨node, present, rfl⟩
      exact ⟨⟨node, present⟩, by simp [present]⟩
  rw [returned, same]

private theorem mem_indexChildren {parent : Text} :
    hash ∈ (entries.foldl indexChild index)[parent]?.getD ∅ ↔
      hash ∈ index[parent]?.getD ∅ ∨ ∃ node, (hash, node) ∈ entries ∧ node.parentShareHash = parent := by
  induction entries generalizing index with
  | nil => simp
  | cons entry rest ih =>
    obtain ⟨other, node⟩ := entry
    rw [List.foldl_cons, ih]
    have here : hash ∈ (indexChild index (other, node))[parent]?.getD ∅ ↔
        hash ∈ index[parent]?.getD ∅ ∨ other = hash ∧ node.parentShareHash = parent := by
      rw [indexChild, getElem?_insert_eq]
      split_ifs with same
      · subst same
        rw [Option.getD_some, mem_treeSet_insert]
        tauto
      · tauto
    rw [here]
    simp only [List.mem_cons, Prod.mk.injEq]
    constructor
    · rintro ((old | ⟨rfl, same⟩) | ⟨later, listed, same⟩)
      · exact .inl old
      · exact .inr ⟨node, .inl ⟨rfl, rfl⟩, same⟩
      · exact .inr ⟨later, .inr listed, same⟩
    · rintro (old | ⟨later, ⟨rfl, rfl⟩ | listed, same⟩)
      · exact .inl (.inl old)
      · exact .inl (.inr ⟨rfl, same⟩)
      · exact .inr ⟨later, listed, same⟩

private theorem nonempty_indexChildren
    (listed : ∀ (parent : Text) (children : ExtTreeSet Text), index[parent]? = some children →
      ∃ hash, hash ∈ children) :
    ∀ (parent : Text) (children : ExtTreeSet Text), (entries.foldl indexChild index)[parent]? = some children →
      ∃ hash, hash ∈ children := by
  induction entries generalizing index with
  | nil => exact listed
  | cons entry rest ih =>
    refine ih fun parent children found => ?_
    rw [indexChild, getElem?_insert_eq] at found
    split_ifs at found
    · cases found
      exact ⟨entry.1, mem_treeSet_insert.mpr (.inl rfl)⟩
    · exact listed parent children found

/-- Indices of children without empty lists are determined by their members. -/
theorem childIndex_ext {first second : ExtTreeMap Text (ExtTreeSet Text)}
    (members : ∀ parent hash : Text, hash ∈ first[parent]?.getD ∅ ↔ hash ∈ second[parent]?.getD ∅)
    (firstListed : ∀ (parent : Text) (children : ExtTreeSet Text), first[parent]? = some children →
      ∃ hash, hash ∈ children)
    (secondListed : ∀ (parent : Text) (children : ExtTreeSet Text), second[parent]? = some children →
      ∃ hash, hash ∈ children) : first = second := by
  apply ExtTreeMap.ext_getElem?
  intro parent
  have same := members parent
  cases one : first[parent]? with
  | none =>
    cases two : second[parent]? with
    | none => rfl
    | some children =>
      obtain ⟨hash, member⟩ := secondListed parent children two
      rw [one, two] at same
      exact absurd ((same hash).mpr member) ExtTreeSet.not_mem_empty
  | some children =>
    cases two : second[parent]? with
    | none =>
      obtain ⟨hash, member⟩ := firstListed parent children one
      rw [one, two] at same
      exact absurd ((same hash).mp member) ExtTreeSet.not_mem_empty
    | some others =>
      rw [one, two] at same
      exact congrArg some (ExtTreeSet.ext_mem fun hash => same hash)

theorem SoundTree.children_rebuilt (sound : SoundTree crypto mined tree) (tidy : Tidy tree) :
    tree.shares.toList.foldl indexChild ∅ = tree.childrenByParent := by
  refine childIndex_ext (fun parent hash => ?_) (nonempty_indexChildren fun parent children found => ?_) tidy.listed
  · rw [mem_indexChildren, show tree.childrenByParent[parent]?.getD ∅ = tree.childrenOf parent from rfl, sound.children]
    simp only [ExtTreeMap.getElem?_empty, Option.getD_none, ExtTreeSet.not_mem_empty, false_or,
      ExtTreeMap.mem_toList_iff_getElem?_eq_some]
    exact ⟨fun ⟨node, stored, same⟩ => same ▸ parentOf_of_stored stored, stored_of_parentOf⟩
  · simp at found

end Indices

/-! ## Scores and heights -/

variable {shares : ExtTreeMap Text ShareNode}

section Scores

/-- The stored score and height of a share. -/
def branchOf (shares : ExtTreeMap Text ShareNode) (hash : Text) : Option (Score × U64) :=
  shares[hash]?.bind fun node => node.cumulativeScore.map fun score => (score, node.height)

/-- Scores and heights are those of the lineages. -/
theorem SoundTree.branchOf_eq_some (sound : SoundTree crypto mined tree) {score : Score} {height : U64} :
    branchOf tree.shares hash = some (score, height) ↔ ∃ path, ShareLineage tree.shares hash path ∧
      score.toNat = pathScore tree.shares path ∧ height.toNat = path.length := by
  constructor
  · intro found
    obtain ⟨node, stored, found⟩ := Option.bind_eq_some_iff.mp found
    obtain ⟨other, cumulative, same⟩ := Option.map_eq_some_iff.mp found
    cases same
    exact sound.scored hash node score stored cumulative
  · rintro ⟨path, lineage, total, length⟩
    obtain ⟨other, node, stored, cumulative⟩ := sound.complete hash path lineage
    obtain ⟨path', lineage', total', length'⟩ := sound.scored hash node other stored cumulative
    obtain rfl := lineage.unique lineage'
    have sameScore : other = score := BitVec.eq_of_toNat_eq (total'.trans total.symm)
    have sameHeight : node.height = height := BitVec.eq_of_toNat_eq (length'.trans length.symm)
    simp [branchOf, stored, cumulative, sameScore, sameHeight]

theorem SoundTree.branchOf_eq_none (sound : SoundTree crypto mined tree)
    (rootless : ∀ path, ¬ ShareLineage tree.shares hash path) : branchOf tree.shares hash = none := by
  cases found : branchOf tree.shares hash with
  | none => rfl
  | some branch =>
    obtain ⟨path, lineage, -⟩ :=
      sound.branchOf_eq_some.mp (show branchOf tree.shares hash = some (branch.1, branch.2) from found)
    exact absurd lineage (rootless path)

/-- The score of a share above a parent with a known branch. -/
theorem SoundTree.extendBranchScore (sound : SoundTree crypto mined tree) {node : ShareNode}
    (stored : tree.shares[hash]? = some node) (inner : node.parentShareHash ≠ zeroShareParentHash) :
    ShareTree.extendBranchScore hash node (branchOf tree.shares node.parentShareHash) =
      .ok (branchOf tree.shares hash) := by
  have link := parentOf_of_stored stored
  cases parent : branchOf tree.shares node.parentShareHash with
  | none =>
    rw [sound.branchOf_eq_none]
    · rfl
    intro path lineage
    rcases lineage.parent_cases link with ⟨top, -⟩ | ⟨rest, -, above, -⟩
    · exact inner top
    · obtain ⟨score, other, present, cumulative⟩ := sound.complete _ rest above
      simp [branchOf, present, cumulative] at parent
  | some branch =>
    obtain ⟨parentScore, parentHeight⟩ := branch
    obtain ⟨path, above, total, length⟩ := sound.branchOf_eq_some.mp parent
    have lineage : ShareLineage tree.shares hash (hash :: path) := .child link inner above
    obtain ⟨score, other, present, cumulative⟩ := sound.complete hash _ lineage
    obtain ⟨path', lineage', total', length'⟩ := sound.scored hash other score present cumulative
    obtain rfl := lineage.unique lineage'
    obtain rfl := Option.some.inj (stored.symm.trans present)
    rw [pathScore_cons, deltaOf_of_stored stored] at total'
    rw [List.length_cons] at length'
    have one : (1 : U64).toNat = 1 := rfl
    have sum : checkedAdd parentScore node.share.hashrateScoreDelta = some score :=
      checkedAdd_eq_some.mpr (by omega)
    have next : checkedAdd parentHeight 1 = some node.height := checkedAdd_eq_some.mpr (by omega)
    simp only [ShareTree.extendBranchScore, sum, next, okOr_some, except_ok_bind]
    simp [branchOf, stored, cumulative, pure, Except.pure]

/-- Everything that was computed so far is right. -/
def Memoized (shares : ExtTreeMap Text ShareNode) (memo : BranchScores) : Prop :=
  ∀ (hash : Text) (computed : Option (Score × U64)), memo[hash]? = some computed → computed = branchOf shares hash

private theorem Memoized.insert {memo : BranchScores} (right : Memoized shares memo) (hash : Text) :
    Memoized shares (memo.insert hash (branchOf shares hash)) := by
  intro other computed found
  rw [getElem?_insert_eq] at found
  split_ifs at found with same
  · subst same
    exact (Option.some.inj found).symm
  · exact right other computed found

section

variable (sound : SoundTree crypto mined tree) (acyclic : AcyclicShares crypto mined)
include sound acyclic

/-- The recursion returns the stored score and height of a stored share and remembers it. -/
theorem SoundTree.computeShareBranchScore (fuel : ℕ) (visiting : ExtTreeSet Text) {memo : BranchScores}
    (visited : List Text) (stored : hash ∈ tree.shares)
    (distinct : visited.Nodup) (inside : ∀ other ∈ visited, other ∈ tree.shares)
    (same : ∀ other, other ∈ visiting ↔ other ∈ visited)
    (below : ∀ other ∈ visited, Relation.TransGen (ParentLink crypto mined) hash other)
    (enough : tree.shares.size + 1 ≤ visited.length + fuel) (right : Memoized tree.shares memo) :
    ∃ last, ShareTree.computeShareBranchScore tree.shares fuel hash visiting memo =
        .ok (branchOf tree.shares hash, last) ∧
      Memoized tree.shares last ∧ hash ∈ last ∧ ∀ other ∈ memo, other ∈ last := by
  induction fuel generalizing hash visiting memo visited with
  | zero =>
    have bound := length_le_size distinct inside
    omega
  | succ fuel ih =>
    unfold ShareTree.computeShareBranchScore
    cases cached : memo[hash]? with
    | some computed =>
      obtain rfl := right hash computed cached
      exact ⟨memo, rfl, right, mem_iff_exists_getElem?.mpr ⟨_, cached⟩, fun _ => id⟩
    | none =>
      have remembers : ∀ computed, computed = branchOf tree.shares hash → ∃ last : BranchScores,
          (pure (computed, memo.insert hash computed) : Except (Fault SharechainReplayError) _) =
            .ok (branchOf tree.shares hash, last) ∧
          Memoized tree.shares last ∧ hash ∈ last ∧ ∀ other ∈ memo, other ∈ last := by
        rintro computed rfl
        exact ⟨_, rfl, right.insert hash, mem_treeMap_insert.mpr (.inl rfl),
          fun other known => mem_treeMap_insert.mpr (.inr known)⟩
      -- no share is its own ancestor, so the share is not being visited
      have fresh : hash ∉ visited := fun member => acyclic hash (below hash member)
      obtain ⟨node, present⟩ := mem_iff_exists_getElem?.mp stored
      have link := parentOf_of_stored present
      simp only [same, if_neg fresh, present]
      split_ifs with top parentStored
      · apply remembers
        refine (sound.branchOf_eq_some.mpr ⟨[hash], .root (top ▸ link), ?_, rfl⟩).symm
        simp [pathScore, deltaOf_of_stored present]
      · have climbs := sound.parentLink link
        obtain ⟨last, returned, rightLast, -, kept⟩ := ih _ (hash :: visited) parentStored
          (List.nodup_cons.mpr ⟨fresh, distinct⟩)
          (fun other listed => by
            rcases List.mem_cons.mp listed with rfl | old
            · exact stored
            · exact inside other old)
          (fun other => by rw [mem_treeSet_insert, same, List.mem_cons, eq_comm])
          (fun other listed => by
            rcases List.mem_cons.mp listed with rfl | old
            · exact .single climbs
            · exact .trans (.single climbs) (below other old))
          (by rw [List.length_cons]; omega) right
        rw [returned, except_ok_bind]
        dsimp only
        rw [sound.extendBranchScore present top, except_ok_bind]
        exact ⟨_, rfl, rightLast.insert hash, mem_treeMap_insert.mpr (.inl rfl),
          fun other known => mem_treeMap_insert.mpr (.inr (kept other known))⟩
      · apply remembers
        refine (sound.branchOf_eq_none fun path lineage => ?_).symm
        rcases lineage.parent_cases link with ⟨zero, -⟩ | ⟨rest, -, above, -⟩
        · exact top zero
        · obtain ⟨parent, parentPresent⟩ := stored_of_mem_lineage above above.self_mem
          exact parentStored (mem_iff_exists_getElem?.mpr ⟨parent, parentPresent⟩)

private theorem SoundTree.computeBranchScores {hashes : List Text} (memo : BranchScores)
    (stored : ∀ hash ∈ hashes, hash ∈ tree.shares)
    (right : Memoized tree.shares memo) :
    ∃ last, ShareTree.computeBranchScores tree.shares hashes memo = .ok last ∧ Memoized tree.shares last ∧
      (∀ hash ∈ hashes, hash ∈ last) ∧ ∀ other ∈ memo, other ∈ last := by
  induction hashes generalizing memo with
  | nil => exact ⟨memo, rfl, right, by simp, fun _ => id⟩
  | cons hash rest ih =>
    obtain ⟨middle, returned, rightMiddle, known, kept⟩ := sound.computeShareBranchScore acyclic
      (tree.shares.size + 1) ∅ [] (stored hash List.mem_cons_self) List.nodup_nil (by simp)
      (by simp) (by simp) (by simp) right
    obtain ⟨last, rest_eq, rightLast, all, keptLast⟩ :=
      ih middle (fun other later => stored other (List.mem_cons_of_mem _ later)) rightMiddle
    refine ⟨last, ?_, rightLast, fun other listed => ?_, fun other member => keptLast other (kept other member)⟩
    · rw [ShareTree.computeBranchScores, returned, except_ok_bind]
      exact rest_eq
    · rcases List.mem_cons.mp listed with rfl | later
      · exact keptLast _ known
      · exact all other later

/-- What the rebuild computes for every hash. -/
theorem SoundTree.scores_rebuilt :
    ∃ branchScores, ShareTree.computeBranchScores tree.shares tree.shares.keys ∅ = .ok branchScores ∧
      ∀ hash : Text, branchScores[hash]?.join = branchOf tree.shares hash := by
  obtain ⟨last, returned, right, all, -⟩ := sound.computeBranchScores acyclic ∅
    (fun hash listed => ExtTreeMap.mem_keys.mp listed) (fun hash computed found => by simp at found)
  refine ⟨last, returned, fun hash => ?_⟩
  cases found : last[hash]? with
  | some computed =>
    rw [Option.join_some]
    exact right hash computed found
  | none =>
    cases stored : tree.shares[hash]? with
    | none => simp [branchOf, stored]
    | some node =>
      have member := all hash (ExtTreeMap.mem_keys.mpr (mem_iff_exists_getElem?.mpr ⟨node, stored⟩))
      obtain ⟨computed, present⟩ := mem_iff_exists_getElem?.mp member
      cases found.symm.trans present

end

private theorem Tidy.shares_rebuilt (tidy : Tidy tree)
    (right : ∀ hash : Text, branchScores[hash]?.join = branchOf tree.shares hash) :
    (tree.shares.map fun shareHash node => rescored node (branchScores[shareHash]?.join)) = tree.shares := by
  apply ExtTreeMap.ext_getElem?
  intro hash
  rw [ExtTreeMap.getElem?_map]
  cases stored : tree.shares[hash]? with
  | none => rfl
  | some node =>
    rw [Option.map_some, right, Option.some.injEq]
    cases cumulative : node.cumulativeScore with
    | none =>
      have height := tidy.unresolved hash node stored cumulative
      obtain ⟨share, parentShareHash, cumulativeScore, height'⟩ := node
      cases cumulative
      cases height
      simp [rescored, branchOf, stored]
    | some score =>
      obtain ⟨share, parentShareHash, cumulativeScore, height⟩ := node
      cases cumulative
      simp [rescored, branchOf, stored]

end Scores

/-! ## The best tip -/

section BestTip

private theorem compareTips_eq_gt {left right : Text × Score} :
    compareTips left right = .gt ↔ outranks left.2 left.1 right.2 right.1 = true := by
  rw [outranks_iff, compareTips]
  cases scores : compare left.2 right.2 with
  | lt =>
    have smaller := Math.compare_eq_lt.mp scores
    simp only [Ordering.then, reduceCtorEq, false_iff]
    rintro (larger | ⟨same, -⟩)
    · omega
    · rw [same] at smaller
      omega
  | eq =>
    have same : left.2 = right.2 := Std.compare_eq_iff_eq.mp scores
    simp only [Ordering.then, same, Nat.lt_irrefl, false_or, true_and]
    exact ⟨OrientedCmp.lt_of_gt, OrientedCmp.gt_of_lt⟩
  | gt =>
    have larger := Math.compare_eq_lt.mp (OrientedCmp.lt_of_gt scores)
    simp only [Ordering.then, true_iff]
    exact .inl larger

/-- A candidate that outranks all the others of a list. -/
def LeadsAll (entries : List (Text × Score)) (leader : Text × Score) : Prop :=
  leader ∈ entries ∧ ∀ other ∈ entries, other.1 ≠ leader.1 → outranks leader.2 leader.1 other.2 other.1 = true

/-- A candidate that is outranked by one of the list can be added. -/
theorem LeadsAll.cons {entries : List (Text × Score)} {leader winner loser : Text × Score}
    (leads : LeadsAll entries leader) (distinct : (entries.map Prod.fst).Nodup) (member : winner ∈ entries)
    (outranked : outranks winner.2 winner.1 loser.2 loser.1 = true) : LeadsAll (loser :: entries) leader := by
  refine ⟨List.mem_cons_of_mem _ leads.1, fun other listed different => ?_⟩
  rcases List.mem_cons.mp listed with rfl | old
  · by_cases same : winner.1 = leader.1
    · have winner_eq : winner = leader := List.inj_on_of_nodup_map distinct member leads.1 same
      exact winner_eq ▸ outranked
    · exact outranks_trans (leads.2 winner member same) outranked
  · exact leads.2 other old different

/-- The fold keeps a candidate that outranks all the others. -/
theorem foldl_laterTip {rest : List (Text × Score)} {first : Text × Score}
    (distinct : ((first :: rest).map Prod.fst).Nodup) : LeadsAll (first :: rest) (rest.foldl laterTip first) := by
  induction rest generalizing first with
  | nil =>
    refine ⟨List.mem_singleton_self _, fun other listed different => ?_⟩
    exact absurd (congrArg Prod.fst (List.mem_singleton.mp listed)) different
  | cons next rest ih =>
    rw [List.map_cons, List.map_cons, List.nodup_cons, List.nodup_cons] at distinct
    obtain ⟨firstFresh, nextFresh, others⟩ := distinct
    have different : first.1 ≠ next.1 := fun same => firstFresh (same ▸ List.mem_cons_self)
    rw [List.foldl_cons, laterTip]
    split_ifs with better
    · have kept : ((first :: rest).map Prod.fst).Nodup :=
        List.nodup_cons.mpr ⟨fun listed => firstFresh (List.mem_cons_of_mem _ listed), others⟩
      have leads := (ih kept).cons kept List.mem_cons_self (compareTips_eq_gt.mp better)
      have swap := List.Perm.swap next first rest
      exact ⟨swap.mem_iff.mpr leads.1, fun other listed => leads.2 other (swap.mem_iff.mp listed)⟩
    · have kept : ((next :: rest).map Prod.fst).Nodup := List.nodup_cons.mpr ⟨nextFresh, others⟩
      rw [compareTips_eq_gt, Bool.not_eq_true] at better
      exact (ih kept).cons kept List.mem_cons_self (outranks_total different better)

private theorem resolvedWith_iff {score : Score} :
    ResolvedWith shares hash score ↔ ∃ height, branchOf shares hash = some (score, height) := by
  constructor
  · rintro ⟨node, stored, cumulative⟩
    exact ⟨node.height, by simp [branchOf, stored, cumulative]⟩
  · rintro ⟨height, found⟩
    obtain ⟨node, stored, found⟩ := Option.bind_eq_some_iff.mp found
    obtain ⟨other, cumulative, same⟩ := Option.map_eq_some_iff.mp found
    cases same
    exact ⟨node, stored, cumulative⟩

/-- The scored hashes are some of the hashes, in order. -/
theorem map_fst_scored_sublist (entries : List (Text × Option (Score × U64))) :
    ((entries.filterMap fun entry => entry.2.map fun computed => (entry.1, computed.1)).map Prod.fst).Sublist
      (entries.map Prod.fst) := by
  induction entries with
  | nil => exact .slnil
  | cons entry rest ih =>
    obtain ⟨hash, computed⟩ := entry
    cases computed with
    | none => exact ih.cons hash
    | some branch => exact ih.cons_cons hash

private theorem heaviestTip_bestScoredTip (right : ∀ hash : Text, branchScores[hash]?.join = branchOf shares hash) :
    HeaviestTip shares (bestScoredTip branchScores) := by
  set scored := branchScores.toList.filterMap fun entry =>
    entry.2.map fun computed => (entry.1, computed.1) with scored_eq
  have listed (hash : Text) (score : Score) : (hash, score) ∈ scored ↔ ResolvedWith shares hash score := by
    rw [resolvedWith_iff, ← right, scored_eq, List.mem_filterMap]
    constructor
    · rintro ⟨⟨key, computed⟩, member, found⟩
      obtain ⟨branch, rfl, same⟩ := Option.map_eq_some_iff.mp found
      cases same
      exact ⟨branch.2, by rw [ExtTreeMap.mem_toList_iff_getElem?_eq_some.mp member, Option.join_some]⟩
    · rintro ⟨height, found⟩
      exact ⟨(hash, some (score, height)),
        ExtTreeMap.mem_toList_iff_getElem?_eq_some.mpr (Option.join_eq_some_iff.mp found), rfl⟩
  have distinct : (scored.map Prod.fst).Nodup := by
    have keys : (branchScores.toList.map Prod.fst).Nodup := by
      rw [ExtTreeMap.map_fst_toList_eq_keys]
      exact ExtTreeMap.nodup_keys
    exact keys.sublist (map_fst_scored_sublist _)
  unfold bestScoredTip
  rw [← scored_eq]
  cases entries : scored with
  | nil =>
    rintro hash ⟨score, resolved⟩
    have member := (listed hash score).mpr resolved
    rw [entries] at member
    cases member
  | cons first rest =>
    rw [entries] at distinct
    obtain ⟨member, leads⟩ := foldl_laterTip distinct
    rw [← entries] at member leads
    exact ⟨_, (listed _ _).mp member, fun other otherScore resolved different =>
      leads (other, otherScore) ((listed _ _).mpr resolved) different⟩

end BestTip

/-! ## The whole rebuild -/

section Rebuild

private theorem creditStoredBranch_eq {branch : List Text}
    (stored : ∀ hash ∈ branch, ∃ node, tree.shares[hash]? = some node) :
    creditStoredBranch branch tree = creditActiveBranch branch tree := by
  induction branch generalizing tree with
  | nil => rfl
  | cons hash rest ih =>
    obtain ⟨node, present⟩ := stored hash List.mem_cons_self
    simp only [creditStoredBranch, creditActiveBranch, Routine.get_bind, present]
    cases credit : creditActiveShare hash node.share tree with
    | ok done middle =>
      rw [Routine.bind_of_ok credit, Routine.bind_of_ok credit]
      have shares : middle.shares = tree.shares := ((creditActiveShare_branch _ _ _).of_ok credit).shares_eq
      exact ih fun other later => by
        rw [shares]
        exact stored other (List.mem_cons_of_mem _ later)
    | error fault middle => rw [Routine.bind_of_error credit, Routine.bind_of_error credit]

/-- The branch bookkeeping of a tree is determined by its path. -/
theorem ActiveBranch.ext {first second : ShareTree} {path : List Text} (one : ActiveBranch first path)
    (two : ActiveBranch second path) (only : BranchOnly second first) (tip : first.bestShareTip = second.bestShareTip) :
    first = second := by
  have shares : first.shares = second.shares := only.shares_eq
  have hashes : first.activeShareHashes = second.activeShareHashes :=
    ExtTreeSet.ext_mem fun hash => (one.hashes hash).trans (two.hashes hash).symm
  have total : first.activeShareScoreTotal = second.activeShareScoreTotal := by
    apply BitVec.eq_of_toNat_eq
    rw [one.total, two.total, shares]
  have scores : first.hashrateScores = second.hashrateScores := by
    apply ext_entries
    intro miner score
    rw [one.scores, two.scores, shares]
  rw [only, hashes, total, scores, tip]

/-- The rebuild returns; it finds the heaviest tip and gives the tree the bookkeeping of its branch. -/
theorem SoundTree.rebuildDerivedShareState (sound : SoundTree crypto mined tree) (acyclic : AcyclicShares crypto mined)
    (tidy : Tidy tree) : ∃ after path, ShareTree.rebuildDerivedShareState tree = .ok () after ∧ BranchOnly tree after ∧
      HeaviestTip tree.shares after.bestShareTip ∧ TipPath tree.shares after.bestShareTip path ∧
      ActiveBranch after path := by
  obtain ⟨branchScores, computed, right⟩ := sound.scores_rebuilt acyclic
  have heaviest := heaviestTip_bestScoredTip right
  generalize best_eq : bestScoredTip branchScores = best at heaviest
  -- the branch of the best tip is its lineage, and its score fits
  obtain ⟨path, tipPath, walk, fits⟩ : ∃ path, TipPath tree.shares best path ∧
      ({ tree with bestShareTip := best } : ShareTree).branchOfTip best = some path ∧
      pathScore tree.shares path < 2 ^ 128 := by
    cases best with
    | none => exact ⟨[], .none, rfl, by simp [pathScore]⟩
    | some tip =>
      obtain ⟨score, resolved, -⟩ := heaviest
      obtain ⟨path, lineage, total⟩ := sound.scored.lineage resolved
      refine ⟨path, .some lineage, ?_, total ▸ score.isLt⟩
      exact activeBranchFrom_eq lineage (tree.shares.size + 1) ∅
        (Nat.le_succ_of_le (lineage_length_le_size lineage)) (fun _ _ => ExtTreeSet.not_mem_empty)
  set cleared : ShareTree := { tree with
    bestShareTip := best
    activeShareHashes := ExtTreeSet.ofList path
    hashrateScores := ∅
    activeShareScoreTotal := 0 } with cleared_eq
  have stored : ∀ hash ∈ path, ∃ node, cleared.shares[hash]? = some node := by
    intro hash member
    cases tipPath with
    | none => cases member
    | some lineage => exact stored_of_mem_lineage lineage member
  obtain ⟨after, credits, branch, scores_eq⟩ := creditActiveBranch_cleared stored fits rfl rfl rfl
  refine ⟨after, path, ?_, ?_, ?_, ?_, branch⟩
  · simp only [ShareTree.rebuildDerivedShareState, Routine.modify_bind, Routine.get_bind]
    rw [Routine.bind_of_ok sound.works_rebuilt]
    simp only [Routine.modify_bind, Routine.get_bind, sound.children_rebuilt tidy, computed, settle, pure_bind,
      tidy.shares_rebuilt right, best_eq, Routine.set_bind, walk]
    have same : creditStoredBranch path cleared = creditActiveBranch path cleared := creditStoredBranch_eq stored
    exact same.trans credits
  · unfold BranchOnly
    rw [scores_eq]
  · rw [scores_eq]
    exact heaviest
  · rw [scores_eq]
    exact tipPath

private theorem tidy_of_run {ops : List ReplayOp} {state : SharechainReplayState}
    (reached : run? (ReplayOp.step? crypto) {} ops = some state) : Tidy state.toShareTree := by
  refine run?_invariant (fun state => Tidy state.toShareTree) reached ⟨?_, ?_⟩ fun before op after _ held taken => ?_
  · intro hash node stored
    simp at stored
  · intro parent children stored
    simp at stored
  · cases ReplayOp.stepped taken with
    | ignored _ same => exact same ▸ held
    | accepted prefixes ledger _ effect =>
      subst effect
      exact held
    | message _ handled marks =>
      subst marks
      cases handled with
      | @shared share tree _ applied => exact ((applyShare_adds crypto share _).of_ok applied).tidy held
      | @checkpointed checkpoint tree _ rebuilt =>
        exact (TreeKept.of_branch ((rebuildActiveBranch_branch _ _).of_ok rebuilt)).tidy ⟨held.unresolved, held.listed⟩
      | _ => exact held

/-- No resolved share outranks the tip of the latest checkpoint. -/
def CheckpointTipLeads (tree : ShareTree) : Prop :=
  ∀ latest, tree.latestCheckpoint? = some latest → ∀ (score otherScore : Score) (other : Text),
    ResolvedWith tree.shares latest.2.shareTipHash score → ResolvedWith tree.shares other otherScore →
      other ≠ latest.2.shareTipHash → outranks score latest.2.shareTipHash otherScore other = true

/-- The stored tip is the heaviest one unless a checkpoint holds it back. -/
theorem SoundTree.heaviestTip_iff (sound : SoundTree crypto mined tree) :
    HeaviestTip tree.shares tree.bestShareTip ↔ CheckpointTipLeads tree := by
  constructor
  · intro heaviest latest finalized score otherScore other resolved otherResolved different
    rw [sound.active.finalized latest finalized] at heaviest
    obtain ⟨tipScore, tipResolved, leads⟩ := heaviest
    obtain rfl := resolved.unique tipResolved
    exact leads other otherScore otherResolved different
  · intro leads
    cases finalized : tree.latestCheckpoint? with
    | none => exact sound.active.heaviest finalized
    | some latest =>
      have chosen := sound.active.finalized latest finalized
      obtain ⟨score, resolved⟩ := sound.active.resolved _ chosen
      rw [chosen]
      exact ⟨score, resolved, fun other otherScore otherResolved =>
        leads latest finalized score otherScore other resolved otherResolved⟩

end Rebuild

/-- From every reachable state the rebuild returns, and it changes the tree exactly when a resolved share outranks the
tip of the latest checkpoint: then it moves the tip there. -/
theorem rebuild_derived_share_state_identity_iff (crypto : Crypto) (ops : List ReplayOp) (state : SharechainReplayState)
    (acyclic : AcyclicShares crypto (sharesOf ops))
    (reached : run? (ReplayOp.step? crypto) {} ops = some state) :
    (∃ after, rebuildDerivedShareState state.toShareTree = .ok () after) ∧
    (rebuildDerivedShareState state.toShareTree = .ok () state.toShareTree ↔ CheckpointTipLeads state.toShareTree) := by
  have sound := (soundState_of_run acyclic reached).tree
  obtain ⟨after, path, returned, only, heaviest, tipPath, branch⟩ :=
    sound.rebuildDerivedShareState acyclic (tidy_of_run reached)
  refine ⟨⟨after, returned⟩, ?_⟩
  rw [← sound.heaviestTip_iff, returned]
  constructor
  · intro same
    cases same
    exact heaviest
  · intro leads
    have tip := heaviest.unique leads
    obtain ⟨path', tipPath', branch'⟩ := sound.active.branch
    rw [tip] at tipPath
    obtain rfl := tipPath.unique tipPath'
    rw [branch.ext branch' only tip]

theorem rebuild_derived_share_state_identity_iff_sample : ∃ state,
    run? (ReplayOp.step? Sample.crypto) {} Sample.ops = some state ∧
    (rebuildDerivedShareState state.toShareTree = .ok () state.toShareTree ↔ CheckpointTipLeads state.toShareTree) := by
  obtain ⟨state, run⟩ := Option.isSome_iff_exists.mp Sample.reached
  exact ⟨state, run,
    (rebuild_derived_share_state_identity_iff Sample.crypto Sample.ops state Sample.acyclic run).2⟩

/-! ## A tip held back

The root share is finalized before its child arrives, so the child stays pending although it is the
heavier share.
-/

namespace HeldTip

def checkpoint : SharechainCheckpointAnchorV1 :=
  { Sample.checkpoint with
    shareTipHash := Sample.rootShareHash
    shareHeight := 1
    cumulativeScore := "1".toList }

def lib : Crypto := .ofTables { Sample.tables with
  sha256Tagged :=
    (.sharechainMessage (.sharechainCheckpoint checkpoint),
      hexText 64 0x0c8a031383d17f79112f4c82b6c3bfa1d4f47978fe56b68f85307cc752b81136) :: Sample.tables.sha256Tagged }

def ops : List ReplayOp :=
  [.acceptBitcoinWorkTemplate Sample.template, .applyMessage (.minerRegistration Sample.registration),
    .applyMessage (.bitcoinWorkTemplate Sample.template), .applyMessage (.share Sample.rootShare),
    .applyMessage (.sharechainCheckpoint checkpoint), .applyMessage (.share Sample.childShare)]

/-- The tip after the rebuild, where it returns. -/
def rebuiltTip? (tree : ShareTree) : Option (Option Text) :=
  match rebuildDerivedShareState tree with
  | .ok _ after => some after.bestShareTip
  | .error _ _ => none

private theorem tips : (run? (ReplayOp.step? lib) {} ops).map
      (fun state => (state.bestShareTip, rebuiltTip? state.toShareTree)) =
    some (some Sample.rootShareHash, some (some Sample.childShareHash)) := by decide +kernel

end HeldTip

/-- The rebuild moves the tip from the finalized root share to its pending child. -/
theorem rebuild_derived_share_state_moves_tip : ∃ state after,
    run? (ReplayOp.step? HeldTip.lib) {} HeldTip.ops = some state ∧
    rebuildDerivedShareState state.toShareTree = .ok () after ∧
    state.bestShareTip = some Sample.rootShareHash ∧ after.bestShareTip = some Sample.childShareHash := by
  obtain ⟨state, run, tips⟩ := Option.map_eq_some_iff.mp HeldTip.tips
  obtain ⟨held, moved⟩ := Prod.mk.inj tips
  unfold HeldTip.rebuiltTip? at moved
  split at moved
  · next after rebuilt => exact ⟨state, after, run, rebuilt, held, Option.some.inj moved⟩
  · cases moved

end P2PoolBTC.Soundness
