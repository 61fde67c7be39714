import P2PoolBTC.Soundness.ActiveBranch

/-! # Resolution of shares

The breadth-first loop resolves exactly the shares whose ancestors are all stored. Its queue holds
the unresolved shares that could be resolved next, each of them once; a share is resolved when it
leaves the queue and its children enter it. The loop ends early only when a branch outgrows the
range of its score or height.
-/

namespace P2PoolBTC.Soundness

open Math Model.Core Std

variable {hash candidate : Text} {tree : ShareTree} {path : List Text} {node : ShareNode}

section SameSkeleton

variable {before after : ExtTreeMap Text ShareNode}

theorem parentOf_congr (same : skeleton after = skeleton before) : parentOf after = parentOf before := by
  funext hash
  simp only [parentOf, same]

theorem minerOf_congr (same : skeleton after = skeleton before) : minerOf after = minerOf before := by
  funext hash
  simp only [minerOf, same]

theorem pathScore_congr_on (same : ∀ member ∈ path, skeleton after member = skeleton before member) :
    pathScore after path = pathScore before path := by
  unfold pathScore
  congr 1
  apply List.map_congr_left
  intro member inside
  simp only [deltaOf, same member inside]

private theorem minerScore_congr_on (miner : Text)
    (same : ∀ member ∈ path, skeleton after member = skeleton before member) :
    minerScore after path miner = minerScore before path miner := by
  have filtered : (path.filter fun member => minerOf after member = some miner) =
      path.filter fun member => minerOf before member = some miner := by
    apply List.filter_congr
    intro member inside
    have mined : minerOf after member = minerOf before member := by simp only [minerOf, same member inside]
    rw [mined]
  rw [minerScore, minerScore, filtered]
  exact pathScore_congr_on fun member inside => same member (List.mem_of_mem_filter inside)

theorem pathScore_congr (same : skeleton after = skeleton before) : pathScore after = pathScore before :=
  funext fun _ => pathScore_congr_on fun member _ => congrFun same member

theorem TipPath.congr {tip : Option Text} (tipPath : TipPath before tip path)
    (same : skeleton after = skeleton before) : TipPath after tip path := by
  cases tipPath with
  | none => exact .none
  | some lineage =>
    rw [ShareLineage, ← parentOf_congr same] at lineage
    exact .some lineage

theorem minerScore_congr (same : skeleton after = skeleton before) : minerScore after = minerScore before := by
  funext path miner
  simp only [minerScore, minerOf_congr same, pathScore_congr same]

private theorem stored_congr (same : skeleton after = skeleton before) :
    (∃ node, after[hash]? = some node) ↔ ∃ node, before[hash]? = some node := by
  have entry := congrFun same hash
  unfold skeleton at entry
  cases inAfter : after[hash]? <;> cases inBefore : before[hash]? <;> simp_all

private theorem size_congr (same : skeleton after = skeleton before) : after.size = before.size := by
  have bound : ∀ {smaller larger : ExtTreeMap Text ShareNode}, skeleton smaller = skeleton larger →
      smaller.size ≤ larger.size := by
    intro smaller larger equal
    rw [← ExtTreeMap.length_keys]
    apply length_le_size ExtTreeMap.nodup_keys
    intro hash listed
    rw [ExtTreeMap.mem_keys, mem_iff_exists_getElem?] at listed
    exact mem_iff_exists_getElem?.mpr ((stored_congr equal).mp listed)
  exact Nat.le_antisymm (bound same) (bound same.symm)

theorem ActiveBranch.congr_on {shares : ExtTreeMap Text ShareNode} (active : ActiveBranch tree path)
    (same : ∀ member ∈ path, skeleton shares member = skeleton tree.shares member) :
    ActiveBranch { tree with shares } path where
  total := by
    rw [pathScore_congr_on same]
    exact active.total
  scores miner score := by
    have mined : (∃ member ∈ path, minerOf shares member = some miner) ↔
        ∃ member ∈ path, minerOf tree.shares member = some miner := by
      apply exists_congr
      intro member
      apply and_congr_right
      intro inside
      simp only [minerOf, same member inside]
    rw [minerScore_congr_on miner same, mined]
    exact active.scores miner score
  hashes := active.hashes

end SameSkeleton

variable {shares : ExtTreeMap Text ShareNode}

/-- A stored share that is resolved. -/
def Resolved (shares : ExtTreeMap Text ShareNode) (hash : Text) : Prop := ∃ score, ResolvedWith shares hash score

/-- The tip of the heaviest resolved share, if there is one. -/
def HeaviestTip (shares : ExtTreeMap Text ShareNode) : Option Text → Prop
  | none => ∀ hash, ¬ Resolved shares hash
  | some tip => ∃ score, ResolvedWith shares tip score ∧ ∀ other otherScore, ResolvedWith shares other otherScore →
      other ≠ tip → ShareTree.outranks score tip otherScore other = true

theorem HeaviestTip.unique {first second : Option Text} (one : HeaviestTip shares first)
    (two : HeaviestTip shares second) : first = second := by
  cases first with
  | none =>
    cases second with
    | none => rfl
    | some tip =>
      obtain ⟨score, resolved, -⟩ := two
      exact absurd ⟨score, resolved⟩ (one tip)
  | some tip =>
    obtain ⟨score, resolved, leads⟩ := one
    cases second with
    | none => exact absurd ⟨score, resolved⟩ (two tip)
    | some other =>
      obtain ⟨otherScore, otherResolved, otherLeads⟩ := two
      by_contra different
      have apart : other ≠ tip := fun same => different (congrArg some same.symm)
      exact outranks_irrefl (outranks_trans (leads other otherScore otherResolved apart)
        (otherLeads tip score resolved apart.symm))

theorem HeaviestTip.congr {others : ExtTreeMap Text ShareNode} {tip : Option Text} (heaviest : HeaviestTip shares tip)
    (same : ∀ hash score, ResolvedWith others hash score ↔ ResolvedWith shares hash score) :
    HeaviestTip others tip := by
  cases tip <;> simpa only [HeaviestTip, Resolved, same] using heaviest

/-- Without checkpoints the tip is the heaviest one. -/
theorem ActiveTip.heaviest (active : ActiveTip tree { hash | Resolved tree.shares hash })
    (unfinalized : tree.latestCheckpoint? = none) : HeaviestTip tree.shares tree.bestShareTip := by
  cases chosen : tree.bestShareTip with
  | none =>
    intro hash resolved
    have none := active.waits unfinalized chosen
    exact Set.notMem_empty hash (none ▸ resolved)
  | some tip =>
    obtain ⟨score, resolved⟩ := active.resolved tip chosen
    exact ⟨score, resolved, fun other otherScore otherResolved =>
      active.leads unfinalized tip score chosen resolved other ⟨otherScore, otherResolved⟩ otherScore otherResolved⟩

/-- A stored share whose parent is the origin or resolved. -/
def Ready (shares : ExtTreeMap Text ShareNode) (hash : Text) : Prop :=
  ∃ parent, parentOf shares hash = some parent ∧ (parent = zeroShareParentHash ∨ Resolved shares parent)

/-- A path too long or too heavy for the fields of a share. -/
def Overflows (shares : ExtTreeMap Text ShareNode) (path : List Text) : Prop :=
  2 ^ 128 ≤ pathScore shares path ∨ 2 ^ 64 ≤ path.length

/-- Resolution keeps the shares and their index, and never forgets a score. -/
structure ResolvesMore (before after : ShareTree) : Prop where
  skeleton_eq : skeleton after.shares = skeleton before.shares
  children_eq : after.childrenByParent = before.childrenByParent
  works_eq : after.shareHashByWorkHash = before.shareHashByWorkHash
  checkpoints_eq : after.sharechainCheckpoints = before.sharechainCheckpoints
  keeps : ∀ hash score, ResolvedWith before.shares hash score → ResolvedWith after.shares hash score

theorem ResolvesMore.refl (tree : ShareTree) : ResolvesMore tree tree := ⟨rfl, rfl, rfl, rfl, fun _ _ => id⟩

theorem ResolvesMore.trans {first second third : ShareTree} (early : ResolvesMore first second)
    (late : ResolvesMore second third) : ResolvesMore first third where
  skeleton_eq := late.skeleton_eq.trans early.skeleton_eq
  children_eq := late.children_eq.trans early.children_eq
  works_eq := late.works_eq.trans early.works_eq
  checkpoints_eq := late.checkpoints_eq.trans early.checkpoints_eq
  keeps hash score resolved := late.keeps hash score (early.keeps hash score resolved)

section Candidate

/-- A ready share gets the score and height of its lineage, or its branch overflows. -/
theorem branchScore_spec (scored : ScoredShares tree.shares) (stored : tree.shares[candidate]? = some node)
    (ready : Ready tree.shares candidate) :
    (∃ score height path, tree.branchScore candidate node = .ok (some (score, height)) ∧
      ShareLineage tree.shares candidate path ∧ score.toNat = pathScore tree.shares path ∧
      height.toNat = path.length) ∨
    (tree.branchScore candidate node = .error (.shareBranchScoreOverflow candidate) ∧
      ∃ path, ShareLineage tree.shares candidate path ∧ Overflows tree.shares path) := by
  have link := parentOf_of_stored stored
  have delta := deltaOf_of_stored stored
  obtain ⟨parent, link', reached⟩ := ready
  obtain rfl : node.parentShareHash = parent := Option.some.inj (link.symm.trans link')
  by_cases top : node.parentShareHash = zeroShareParentHash
  · left
    refine ⟨node.share.hashrateScoreDelta, 1, [candidate], ?_, .root (top ▸ link), ?_, rfl⟩
    · simp only [ShareTree.branchScore, if_pos top]
      rfl
    · simp [delta]
  · obtain ⟨parentScore, above, aboveStored, aboveScore⟩ := reached.resolve_left top
    obtain ⟨path, lineage, total, length⟩ := scored _ above parentScore aboveStored aboveScore
    have extended := Lineage.child link top lineage
    cases summed : checkedAdd parentScore node.share.hashrateScoreDelta with
    | none =>
      right
      refine ⟨?_, _, extended, .inl ?_⟩
      · simp only [ShareTree.branchScore, if_neg top, aboveStored, aboveScore, summed, okOr_none,
          except_error_bind]
      · rw [pathScore_cons, delta]
        have overflow := checkedAdd_eq_none.mp summed
        omega
    | some score =>
      have score_eq := checkedAdd_eq_some.mp summed
      cases taller : checkedAdd above.height 1 with
      | none =>
        right
        refine ⟨?_, _, extended, .inr ?_⟩
        · simp only [ShareTree.branchScore, if_neg top, aboveStored, aboveScore, summed, okOr_some,
            except_ok_bind, taller, okOr_none, except_error_bind]
        · have overflow := checkedAdd_eq_none.mp taller
          have one : (1 : U64).toNat = 1 := rfl
          rw [List.length_cons]
          omega
      | some height =>
        have height_eq := checkedAdd_eq_some.mp taller
        have one : (1 : U64).toNat = 1 := rfl
        left
        refine ⟨score, height, _, ?_, extended, ?_, ?_⟩
        · simp only [ShareTree.branchScore, if_neg top, aboveStored, aboveScore, summed, okOr_some,
            except_ok_bind, taller]
          rfl
        · rw [pathScore_cons, delta]
          omega
        · rw [List.length_cons]
          omega

end Candidate

/-- Between two steps of the loop: the queue holds every unresolved ready share once. -/
structure Resolving (tree : ShareTree) (queue : List Text) : Prop where
  scored : ScoredShares tree.shares
  upward : ∀ hash parent, Resolved tree.shares hash → parentOf tree.shares hash = some parent →
    parent ≠ zeroShareParentHash → Resolved tree.shares parent
  children : ∀ parent hash, hash ∈ tree.childrenOf parent ↔ parentOf tree.shares hash = some parent
  rootless : ∀ path, ¬ ShareLineage tree.shares zeroShareParentHash path
  active : ActiveTip tree { hash | Resolved tree.shares hash }
  distinct : queue.Nodup
  ready : ∀ hash ∈ queue, Ready tree.shares hash
  unresolved : ∀ hash ∈ queue, ¬ Resolved tree.shares hash
  frontier : ∀ hash, Ready tree.shares hash → Resolved tree.shares hash ∨ hash ∈ queue

section Step

variable {rest : List Text} {score : Score} {height : U64}

/-- The tree with one share resolved. -/
def withResolved (tree : ShareTree) (candidate : Text) (node : ShareNode) (score : Score) (height : U64) :
    ShareTree :=
  { tree with shares := tree.shares.insert candidate { node with cumulativeScore := some score, height } }

theorem skeleton_withResolved (score : Score) (height : U64) (stored : tree.shares[candidate]? = some node) :
    skeleton (withResolved tree candidate node score height).shares = skeleton tree.shares := by
  funext hash
  simp only [skeleton, withResolved, getElem?_insert_eq]
  split_ifs with same
  · subst same
    simp [stored]
  · rfl

theorem resolvedWith_withResolved {other : Score} :
    ResolvedWith (withResolved tree candidate node score height).shares hash other ↔
      candidate = hash ∧ score = other ∨ candidate ≠ hash ∧ ResolvedWith tree.shares hash other := by
  simp only [ResolvedWith, withResolved, getElem?_insert_eq]
  by_cases same : candidate = hash <;> simp [same]

private theorem resolved_withResolved (unresolved : ¬ Resolved tree.shares candidate) :
    Resolved (withResolved tree candidate node score height).shares hash ↔
      hash = candidate ∨ Resolved tree.shares hash := by
  simp only [Resolved, resolvedWith_withResolved]
  constructor
  · rintro ⟨other, ⟨rfl, -⟩ | ⟨-, resolved⟩⟩
    · exact .inl rfl
    · exact .inr ⟨other, resolved⟩
  · rintro (rfl | ⟨other, resolved⟩)
    · exact ⟨score, .inl ⟨rfl, rfl⟩⟩
    · refine ⟨other, .inr ⟨?_, resolved⟩⟩
      rintro rfl
      exact unresolved ⟨other, resolved⟩

private theorem ActiveTip.withResolved (active : ActiveTip tree { hash | Resolved tree.shares hash })
    (stored : tree.shares[candidate]? = some node) (unresolved : ¬ Resolved tree.shares candidate) :
    ActiveTip (withResolved tree candidate node score height) { hash | Resolved tree.shares hash } := by
  have same := skeleton_withResolved score height stored
  have kept : ∀ {hash : Text} {other : Score}, Resolved tree.shares hash →
      (ResolvedWith (Soundness.withResolved tree candidate node score height).shares hash other ↔
        ResolvedWith tree.shares hash other) := by
    intro hash other resolved
    have different : candidate ≠ hash := by
      rintro rfl
      exact unresolved resolved
    simp [resolvedWith_withResolved, different]
  refine ⟨?_, ?_, active.waits, ?_, active.finalized⟩
  · obtain ⟨path, tipPath, branch⟩ := active.branch
    exact ⟨path, tipPath.congr same, branch.congr_on fun member _ => congrFun same member⟩
  · intro tip chosen
    obtain ⟨tipScore, resolved⟩ := active.resolved tip chosen
    exact ⟨tipScore, (kept ⟨tipScore, resolved⟩).mpr resolved⟩
  · intro unfinalized tip tipScore chosen tipResolved other member otherScore otherResolved different
    exact active.leads unfinalized tip tipScore chosen ((kept (active.resolved tip chosen)).mp tipResolved)
      other member otherScore ((kept member).mp otherResolved) different

private theorem Resolving.scored_withResolved (resolving : Resolving tree (candidate :: rest))
    (stored : tree.shares[candidate]? = some node) (lineage : ShareLineage tree.shares candidate path)
    (total : score.toNat = pathScore tree.shares path) (length : height.toNat = path.length) :
    ScoredShares (withResolved tree candidate node score height).shares := by
  have same := skeleton_withResolved score height stored
  intro hash stale cumulative present some
  rw [ShareLineage, parentOf_congr same, pathScore_congr same]
  rw [withResolved, getElem?_insert_eq] at present
  split_ifs at present with equal
  · subst equal
    cases present
    cases some
    exact ⟨path, lineage, total, length⟩
  · exact resolving.scored hash stale cumulative present some

private theorem BranchOnly.resolvesMore {after : ShareTree} (stored : tree.shares[candidate]? = some node)
    (unresolved : ¬ Resolved tree.shares candidate)
    (only : BranchOnly (withResolved tree candidate node score height) after) : ResolvesMore tree after := by
  refine ⟨by rw [only.shares_eq, skeleton_withResolved score height stored], by rw [only]; rfl, by rw [only]; rfl,
    by rw [only]; rfl, ?_⟩
  intro hash other resolved
  rw [only.shares_eq, resolvedWith_withResolved]
  refine .inr ⟨?_, resolved⟩
  rintro rfl
  exact unresolved ⟨other, resolved⟩

section Advance

variable {after : ShareTree} {children : List Text} (resolving : Resolving tree (candidate :: rest))
  (links : parentOf after.shares = parentOf tree.shares)
  (resolved_iff : ∀ hash, Resolved after.shares hash ↔ hash = candidate ∨ Resolved tree.shares hash)
  (child : ∀ hash, hash ∈ children ↔ parentOf tree.shares hash = some candidate)
  (inner : candidate ≠ zeroShareParentHash)

include links resolved_iff in
/-- Resolving a share makes its children ready. -/
theorem ready_advance : Ready after.shares hash ↔
    Ready tree.shares hash ∨ parentOf tree.shares hash = some candidate := by
  simp only [Ready, links, resolved_iff]
  constructor
  · rintro ⟨parent, link, top | rfl | resolved⟩
    · exact .inl ⟨parent, link, .inl top⟩
    · exact .inr link
    · exact .inl ⟨parent, link, .inr resolved⟩
  · rintro (⟨parent, link, reached⟩ | link)
    · exact ⟨parent, link, reached.imp_right .inr⟩
    · exact ⟨candidate, link, .inr (.inl rfl)⟩

include resolving

include inner in
theorem Resolving.child_unready (link : parentOf tree.shares hash = some candidate) : ¬ Ready tree.shares hash := by
  rintro ⟨parent, link', reached⟩
  obtain rfl := Option.some.inj (link.symm.trans link')
  exact reached.elim inner (resolving.unresolved candidate List.mem_cons_self)

include links resolved_iff

private theorem Resolving.upward_advance (hash parent : Text) (resolved : Resolved after.shares hash)
    (link : parentOf after.shares hash = some parent) (notTop : parent ≠ zeroShareParentHash) :
    Resolved after.shares parent := by
  rw [links] at link
  rw [resolved_iff]
  rcases (resolved_iff hash).mp resolved with rfl | old
  · obtain ⟨_, link', reached⟩ := resolving.ready hash List.mem_cons_self
    obtain rfl := Option.some.inj (link.symm.trans link')
    exact .inr (reached.resolve_left notTop)
  · exact .inr (resolving.upward hash parent old link notTop)

include child

private theorem Resolving.ready_queue_advance (hash : Text) (queued : hash ∈ rest ++ children) :
    Ready after.shares hash := by
  rw [ready_advance links resolved_iff]
  rcases List.mem_append.mp queued with early | late
  · exact .inl (resolving.ready hash (List.mem_cons_of_mem _ early))
  · exact .inr ((child hash).mp late)

private theorem Resolving.frontier_advance (hash : Text) (ready : Ready after.shares hash) :
    Resolved after.shares hash ∨ hash ∈ rest ++ children := by
  rw [resolved_iff, List.mem_append, child]
  rcases (ready_advance links resolved_iff).mp ready with old | link
  · rcases resolving.frontier hash old with resolved | queued
    · exact .inl (.inr resolved)
    · rcases List.mem_cons.mp queued with rfl | later
      · exact .inl (.inl rfl)
      · exact .inr (.inl later)
  · exact .inr (.inr link)

include inner
omit links

private theorem Resolving.unresolved_advance (hash : Text) (queued : hash ∈ rest ++ children) :
    ¬ Resolved after.shares hash := by
  intro resolved
  rcases (resolved_iff hash).mp resolved with rfl | old <;> rcases List.mem_append.mp queued with early | late
  · exact (List.nodup_cons.mp resolving.distinct).1 early
  · exact resolving.child_unready inner ((child hash).mp late) (resolving.ready hash List.mem_cons_self)
  · exact resolving.unresolved hash (List.mem_cons_of_mem _ early) old
  · exact resolving.unresolved candidate List.mem_cons_self
      (resolving.upward hash candidate old ((child hash).mp late) inner)

omit resolved_iff

private theorem Resolving.nodup_advance (distinct : children.Nodup) : (rest ++ children).Nodup := by
  refine List.nodup_append.mpr ⟨(List.nodup_cons.mp resolving.distinct).2, distinct, ?_⟩
  rintro hash queued other listed rfl
  exact resolving.child_unready inner ((child hash).mp listed) (resolving.ready hash (List.mem_cons_of_mem _ queued))

end Advance

/-- One step of the loop: the candidate is resolved and its children join the queue. -/
theorem Resolving.step (resolving : Resolving tree (candidate :: rest))
    (stored : tree.shares[candidate]? = some node) (lineage : ShareLineage tree.shares candidate path)
    (total : score.toNat = pathScore tree.shares path) (length : height.toNat = path.length) :
    ∃ after, ShareTree.considerResolvedShare candidate (withResolved tree candidate node score height) =
        .ok () after ∧
      ResolvesMore tree after ∧ Resolved after.shares candidate ∧
      Resolving after (rest ++ (after.childrenOf candidate).toList) := by
  have unresolved := resolving.unresolved candidate List.mem_cons_self
  have scored := resolving.scored_withResolved stored lineage total length
  have rootless : ∀ path, ¬ ShareLineage (withResolved tree candidate node score height).shares
      zeroShareParentHash path := by
    rw [ShareLineage, parentOf_congr (skeleton_withResolved score height stored)]
    exact resolving.rootless
  obtain ⟨after, considered, only, active⟩ := considerResolvedShare_spec scored rootless
    (resolving.active.withResolved stored unresolved)
    (resolvedWith_withResolved.mpr (.inl ⟨rfl, rfl⟩) : ResolvedWith _ candidate score)
  have shares_eq := only.shares_eq
  have more := only.resolvesMore stored unresolved
  have links := parentOf_congr more.skeleton_eq
  have children : after.childrenOf = tree.childrenOf := by
    rw [only]
    rfl
  have resolved_iff : ∀ hash, Resolved after.shares hash ↔ hash = candidate ∨ Resolved tree.shares hash := by
    rw [shares_eq]
    exact fun hash => resolved_withResolved unresolved
  -- The candidate has a lineage, so it is not the origin and its children were not resolved before.
  have inner : candidate ≠ zeroShareParentHash := by
    rintro rfl
    exact resolving.rootless path lineage
  have child : ∀ hash, hash ∈ (after.childrenOf candidate).toList ↔
      parentOf tree.shares hash = some candidate := by
    intro hash
    rw [ExtTreeSet.mem_toList, children]
    exact resolving.children candidate hash
  refine ⟨after, considered, more, (resolved_iff candidate).mpr (.inl rfl), shares_eq ▸ scored,
    resolving.upward_advance links resolved_iff, ?_, by rwa [shares_eq], ?_,
    resolving.nodup_advance child inner (nodup_treeSet_toList _),
    resolving.ready_queue_advance links resolved_iff child,
    resolving.unresolved_advance resolved_iff child inner, resolving.frontier_advance links resolved_iff child⟩
  · intro parent hash
    rw [children, links]
    exact resolving.children parent hash
  · rwa [show { hash | Resolved after.shares hash } = insert candidate { hash | Resolved tree.shares hash } from
      Set.ext resolved_iff]

end Step

section Loop

variable {queue : List Text}

private theorem Resolved.mem (resolved : Resolved shares hash) : hash ∈ shares := by
  obtain ⟨score, node, stored, -⟩ := resolved
  exact mem_iff_exists_getElem?.mpr ⟨node, stored⟩

theorem ResolvesMore.resolved {before after : ShareTree} (more : ResolvesMore before after)
    (resolved : Resolved before.shares hash) : Resolved after.shares hash := by
  obtain ⟨score, known⟩ := resolved
  exact ⟨score, more.keeps hash score known⟩

/-- Overflow stops the loop at an unresolved share. -/
structure StoppedAt (tree after : ShareTree) (candidate : Text) : Prop where
  more : ResolvesMore tree after
  unresolved : ¬ Resolved tree.shares candidate
  overflows : ∃ path, ShareLineage tree.shares candidate path ∧ Overflows tree.shares path

private theorem StoppedAt.of_more {middle after : ShareTree} (more : ResolvesMore tree middle)
    (stopped : StoppedAt middle after candidate) : StoppedAt tree after candidate where
  more := more.trans stopped.more
  unresolved := fun resolved => stopped.unresolved (more.resolved resolved)
  overflows := by
    obtain ⟨path, lineage, overflow⟩ := stopped.overflows
    refine ⟨path, ?_, ?_⟩
    · rwa [ShareLineage, parentOf_congr more.skeleton_eq] at lineage
    · rwa [Overflows, pathScore_congr more.skeleton_eq] at overflow

/-- The loop empties its queue, or stops at a share whose branch overflows. The resolved shares that
left the queue so far account for the steps already made. -/
theorem resolveQueue_spec (fuel : ℕ) {left : List Text} (resolving : Resolving tree queue)
    (distinct : left.Nodup) (processed : ∀ hash ∈ left, Resolved tree.shares hash)
    (enough : tree.shares.size ≤ fuel + left.length) :
    (∃ after, ShareTree.resolveQueue fuel queue tree = .ok () after ∧ ResolvesMore tree after ∧
      Resolving after []) ∨
    (∃ candidate after, ShareTree.resolveQueue fuel queue tree =
        .error (.error (.shareBranchScoreOverflow candidate)) after ∧ StoppedAt tree after candidate) := by
  induction fuel generalizing tree queue left with
  | zero =>
    cases queue with
    | nil => exact .inl ⟨tree, rfl, .refl tree, resolving⟩
    | cons candidate rest =>
      -- The candidate and the shares that left the queue are more than there are shares.
      have unresolved := resolving.unresolved candidate List.mem_cons_self
      obtain ⟨parent, link, -⟩ := resolving.ready candidate List.mem_cons_self
      obtain ⟨node, stored, -⟩ := stored_of_parentOf link
      have bound : (candidate :: left).length ≤ tree.shares.size := length_le_size
        (List.nodup_cons.mpr ⟨fun inside => unresolved (processed candidate inside), distinct⟩) (by
          intro hash listed
          rcases List.mem_cons.mp listed with rfl | inside
          · exact mem_iff_exists_getElem?.mpr ⟨node, stored⟩
          · exact (processed hash inside).mem)
      rw [List.length_cons] at bound
      omega
  | succ fuel ih =>
    cases queue with
    | nil => exact .inl ⟨tree, rfl, .refl tree, resolving⟩
    | cons candidate rest =>
      have ready := resolving.ready candidate List.mem_cons_self
      obtain ⟨parent, link, -⟩ := id ready
      obtain ⟨node, stored, -⟩ := stored_of_parentOf link
      rcases branchScore_spec resolving.scored stored ready with
        ⟨score, height, path, computed, lineage, total, length⟩ | ⟨stopped, path, lineage, overflow⟩
      · obtain ⟨middle, considered, more, resolved, next⟩ := resolving.step stored lineage total length
        have tall : height ≠ 0 := by
          rintro rfl
          have positive := lineage.length_pos
          have zero : (0 : U64).toNat = 0 := rfl
          omega
        have unfold_eq : ShareTree.resolveQueue (fuel + 1) (candidate :: rest) tree =
            ShareTree.resolveQueue fuel (rest ++ (middle.childrenOf candidate).toList) middle := by
          simp only [ShareTree.resolveQueue, Routine.get_bind, stored, computed, Routine.attempt_ok,
            Routine.pure_bind_apply, if_neg tall, Routine.modify_bind]
          rw [← withResolved, Routine.bind_of_ok considered, Routine.get_bind]
        rw [unfold_eq]
        have fresh : candidate ∉ left := fun inside =>
          resolving.unresolved candidate List.mem_cons_self (processed candidate inside)
        rcases ih next (List.nodup_cons.mpr ⟨fresh, distinct⟩)
          (fun hash listed => by
            rcases List.mem_cons.mp listed with rfl | inside
            · exact resolved
            · exact more.resolved (processed hash inside))
          (by rw [size_congr more.skeleton_eq, List.length_cons]; omega) with
          ⟨after, returned, later, done⟩ | ⟨stop, after, returned, stopped⟩
        · exact .inl ⟨after, returned, more.trans later, done⟩
        · exact .inr ⟨stop, after, returned, stopped.of_more more⟩
      · right
        refine ⟨candidate, tree, ?_, .refl tree, resolving.unresolved candidate List.mem_cons_self,
          path, lineage, overflow⟩
        simp only [ShareTree.resolveQueue, Routine.get_bind, stored, stopped, Routine.attempt_error,
          Routine.fail_bind]

end Loop

variable {other : Text}

section Insertion

variable {parent : Text} {share : Share}

/-- Once the queue is empty, every share with a lineage is resolved. -/
theorem Resolving.complete (resolving : Resolving tree []) (lineage : ShareLineage tree.shares hash path) :
    Resolved tree.shares hash := by
  induction lineage with
  | @root hash link =>
    exact (resolving.frontier hash ⟨_, link, .inl rfl⟩).resolve_right (by simp)
  | @child hash parent path link inner above ih =>
    exact (resolving.frontier hash ⟨_, link, .inr ih⟩).resolve_right (by simp)

theorem skeleton_withShare (other : Text) :
    skeleton (tree.withShare hash parent share).shares other =
      if hash = other then some (share, parent) else skeleton tree.shares other := by
  simp only [skeleton, ShareTree.withShare, getElem?_insert_eq]
  split_ifs <;> rfl

theorem parentOf_withShare (other : Text) :
    parentOf (tree.withShare hash parent share).shares other =
      if hash = other then some parent else parentOf tree.shares other := by
  simp only [parentOf, skeleton_withShare]
  split_ifs <;> rfl

theorem childrenOf_withShare (other : Text) :
    (tree.withShare hash parent share).childrenOf other =
      if parent = other then (tree.childrenOf parent).insert hash else tree.childrenOf other := by
  simp only [ShareTree.childrenOf, ShareTree.withShare, getElem?_insert_eq]
  split_ifs <;> rfl

section Fresh

variable (fresh : tree.shares[hash]? = none)

include fresh

theorem ne_of_stored (stored : tree.shares[other]? = some node) : hash ≠ other := by
  rintro rfl
  rw [fresh] at stored
  cases stored

theorem resolvedWith_withShare {score : Score} :
    ResolvedWith (tree.withShare hash parent share).shares other score ↔
      ResolvedWith tree.shares other score := by
  simp only [ResolvedWith, ShareTree.withShare, getElem?_insert_eq]
  by_cases same : hash = other
  · subst same
    simp [fresh]
  · simp [same]

theorem resolved_withShare : Resolved (tree.withShare hash parent share).shares other ↔ Resolved tree.shares other := by
  simp only [Resolved, resolvedWith_withShare fresh]

/-- An old lineage is a lineage of the larger tree, with the same score. -/
theorem lineage_withShare (parent : Text) (share : Share) (lineage : ShareLineage tree.shares other path) :
    ShareLineage (tree.withShare hash parent share).shares other path ∧
      ∀ member ∈ path, skeleton (tree.withShare hash parent share).shares member =
        skeleton tree.shares member := by
  have agree : ∀ member ∈ path, hash ≠ member := by
    intro member inside
    obtain ⟨node, stored⟩ := stored_of_mem_lineage lineage inside
    exact ne_of_stored fresh stored
  refine ⟨lineage.congr fun member inside => ?_, fun member inside => ?_⟩
  · rw [parentOf_withShare, if_neg (agree member inside)]
  · rw [skeleton_withShare, if_neg (agree member inside)]

end Fresh

/-- A new lineage that avoids the new share is an old one. -/
theorem lineage_of_withShare (lineage : ShareLineage (tree.withShare hash parent share).shares other path)
    (avoids : hash ∉ path) : ShareLineage tree.shares other path := by
  refine lineage.congr fun member inside => ?_
  rw [parentOf_withShare, if_neg]
  rintro rfl
  exact avoids inside

private theorem ActiveBranch.withShare (active : ActiveBranch tree path)
    (same : ∀ member ∈ path, skeleton (tree.withShare hash parent share).shares member =
      skeleton tree.shares member) : ActiveBranch (tree.withShare hash parent share) path :=
  { active.congr_on same with }

theorem ActiveTip.withShare (active : ActiveTip tree { other | Resolved tree.shares other })
    (fresh : tree.shares[hash]? = none) : ActiveTip (tree.withShare hash parent share)
      { other | Resolved (tree.withShare hash parent share).shares other } := by
  simp only [resolved_withShare fresh]
  refine ⟨?_, ?_, active.waits, ?_, active.finalized⟩
  · obtain ⟨path, tipPath, branch⟩ := active.branch
    change ∃ path, TipPath _ tree.bestShareTip path ∧ _
    cases tip : tree.bestShareTip with
    | none =>
      rw [tip] at tipPath
      cases tipPath
      exact ⟨[], .none, branch.withShare (by simp)⟩
    | some chosen =>
      rw [tip] at tipPath
      cases tipPath with
      | some lineage =>
        obtain ⟨larger, same⟩ := lineage_withShare fresh parent share lineage
        exact ⟨path, .some larger, branch.withShare same⟩
  · simp only [resolvedWith_withShare fresh]
    exact active.resolved
  · simp only [resolvedWith_withShare fresh]
    exact active.leads

end Insertion

end P2PoolBTC.Soundness
