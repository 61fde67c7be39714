import P2PoolBTC.Soundness.ShareResolution

/-! # Soundness of the share tree

The indices of the tree describe its shares exactly, a share is resolved exactly when its lineage is
stored, and the active branch is the path of the chosen tip. Applying a share keeps all of this; it
fails before it changes anything, or because a branch overflows.
-/

namespace P2PoolBTC.Soundness

open Math Model.Core Std

variable (crypto : Crypto) (mined : Set Share)

/-- A share links its parent's hash to its own. -/
def ParentLink (parent hash : Text) : Prop :=
  ∃ share ∈ mined, toAsciiLowercase share.parentShareHash = parent ∧ share.shareHash crypto = hash

/-- No hash is its own ancestor. The hash covers the parent's hash, so a cycle would need a share
that commits to its own hash. -/
def AcyclicShares : Prop :=
  ∀ hash, ¬ Relation.TransGen (ParentLink crypto mined) hash hash

/-- Everything that holds of the tree between two messages. -/
structure SoundTree (tree : ShareTree) : Prop where
  keyed : ∀ (hash : Text) (node : ShareNode), tree.shares[hash]? = some node → ∃ share ∈ mined,
    node.share = share.normalized ∧ node.parentShareHash = toAsciiLowercase share.parentShareHash ∧
      hash = share.shareHash crypto
  scored : ScoredShares tree.shares
  complete : ∀ hash path, ShareLineage tree.shares hash path → Resolved tree.shares hash
  children : ∀ parent hash, hash ∈ tree.childrenOf parent ↔ parentOf tree.shares hash = some parent
  oneRoot : ∀ hash other, parentOf tree.shares hash = some zeroShareParentHash →
    parentOf tree.shares other = some zeroShareParentHash → hash = other
  works : ∀ (work hash : Text), tree.shareHashByWorkHash[work]? = some hash ↔
    ∃ node, tree.shares[hash]? = some node ∧ toAsciiLowercase node.share.workHash = work
  active : ActiveTip tree { hash | Resolved tree.shares hash }

variable {crypto mined} {tree : ShareTree}

theorem AcyclicShares.mono {fewer : Set Share} (acyclic : AcyclicShares crypto mined)
    (within : fewer ⊆ mined) : AcyclicShares crypto fewer := by
  intro hash cycle
  refine acyclic hash (Relation.TransGen.mono ?_ _ _ cycle)
  rintro parent child ⟨share, member, link⟩
  exact ⟨share, within member, link⟩

/-- Shares that only ever point to lower ranks have no cycle. -/
theorem AcyclicShares.of_rank (rank : Text → ℕ)
    (increases : ∀ share ∈ mined,
      rank (toAsciiLowercase share.parentShareHash) < rank (share.shareHash crypto)) :
    AcyclicShares crypto mined := by
  have climbs : ∀ parent hash, Relation.TransGen (ParentLink crypto mined) parent hash →
      rank parent < rank hash := by
    intro parent hash ancestors
    induction ancestors with
    | single link =>
      obtain ⟨share, member, rfl, rfl⟩ := link
      exact increases share member
    | tail _ link ih =>
      obtain ⟨share, member, rfl, rfl⟩ := link
      exact ih.trans (increases share member)
  exact fun hash cycle => (climbs hash hash cycle).false

private theorem ActiveTip.initial : ActiveTip {} ∅ where
  branch := ⟨[], .none, ⟨Credited.nil rfl rfl, by simp⟩⟩
  resolved _ chosen := by cases chosen
  waits _ _ := rfl
  leads _ _ _ chosen := by cases chosen
  finalized latest stored := by
    have none : ({} : ShareTree).latestCheckpoint? = none :=
      lastKeyValue?_eq_none.mpr fun round => ExtTreeMap.getElem?_empty
    rw [none] at stored
    cases stored

theorem SoundTree.initial (crypto : Crypto) (mined : Set Share) : SoundTree crypto mined {} := by
  have empty : ∀ hash : Text, ({} : ShareTree).shares[hash]? = none := fun hash => by simp
  have rootless : ∀ hash : Text, parentOf ({} : ShareTree).shares hash = none := fun hash => by
    simp [parentOf, skeleton]
  have unresolved : ∀ hash : Text, ¬ Resolved ({} : ShareTree).shares hash := by
    rintro hash ⟨score, node, stored, -⟩
    rw [empty hash] at stored
    cases stored
  refine ⟨?_, ?_, ?_, ?_, ?_, ?_, ?_⟩
  · intro hash node stored
    rw [empty hash] at stored
    cases stored
  · intro hash node score stored
    rw [empty hash] at stored
    cases stored
  · intro hash path lineage
    obtain ⟨parent, link⟩ := lineage.exists_parent lineage.self_mem
    rw [rootless hash] at link
    cases link
  · intro parent hash
    simp [rootless, ShareTree.childrenOf]
  · intro hash other link
    rw [rootless hash] at link
    cases link
  · intro work hash
    simp
  · have none : { hash | Resolved ({} : ShareTree).shares hash } = ∅ :=
      Set.eq_empty_of_forall_notMem unresolved
    rw [none]
    exact ActiveTip.initial

variable {hash : Text}

namespace SoundTree

theorem parentLink (sound : SoundTree crypto mined tree) {parent : Text}
    (link : parentOf tree.shares hash = some parent) : ParentLink crypto mined parent hash := by
  obtain ⟨node, stored, rfl⟩ := stored_of_parentOf link
  obtain ⟨share, member, -, parent_eq, hash_eq⟩ := sound.keyed hash node stored
  exact ⟨share, member, parent_eq.symm, hash_eq.symm⟩

theorem lowercase (sound : SoundTree crypto mined tree) {node : ShareNode} (stored : tree.shares[hash]? = some node) :
    IsAsciiLowercase hash ∧ IsAsciiLowercase node.parentShareHash := by
  obtain ⟨share, -, -, parent_eq, hash_eq⟩ := sound.keyed hash node stored
  rw [parent_eq, hash_eq]
  exact ⟨toAsciiLowercase_shareHash crypto share, isAsciiLowercase_toAsciiLowercase _⟩

end SoundTree

theorem zeroShareParentHash_lowercase : IsAsciiLowercase zeroShareParentHash := by
  simp only [IsAsciiLowercase, toAsciiLowercase, zeroShareParentHash, List.map_replicate]
  rfl

/-- The origin has no lineage: it would be its own ancestor. -/
theorem not_lineage_origin {shares : ExtTreeMap Text ShareNode} (acyclic : AcyclicShares crypto mined)
    (links : ∀ parent hash, parentOf shares hash = some parent → ParentLink crypto mined parent hash)
    (path : List Text) : ¬ ShareLineage shares zeroShareParentHash path := by
  intro lineage
  exact acyclic zeroShareParentHash (Relation.TransGen.mono links _ _ lineage.transGen)

section Admission

variable {share : Share}

/-- What a share must pass to be stored. -/
structure Admits (crypto : Crypto) (tree : ShareTree) (share : Share) : Prop where
  fresh : tree.shares[share.shareHash crypto]? = none
  uncredited : tree.shareHashByWorkHash[toAsciiLowercase share.workHash]? = none
  root : tree.validateUniqueSharechainRoot (share.shareHash crypto) (toAsciiLowercase share.parentShareHash) =
    .ok ()

/-- The tree with an admitted share, before anything is resolved. -/
def admitted (crypto : Crypto) (tree : ShareTree) (share : Share) : ShareTree :=
  tree.withShare (share.shareHash crypto) (toAsciiLowercase share.parentShareHash) share.normalized

theorem lower_workHash_normalized : toAsciiLowercase share.normalized.workHash = toAsciiLowercase share.workHash := by
  simp [Share.normalized]

theorem lower_parentShareHash_normalized :
    toAsciiLowercase share.normalized.parentShareHash = toAsciiLowercase share.parentShareHash := by
  simp [Share.normalized]

private theorem applyShare_of_admits (admits : Admits crypto tree share) :
    ShareTree.applyShare crypto share tree = (do
      ShareTree.resolveShareAndDescendants (share.shareHash crypto)
      modify fun tree => { tree with
        shareHashByWorkHash := tree.shareHashByWorkHash.insert (toAsciiLowercase share.workHash)
          (share.shareHash crypto) } : Routine ShareTree SharechainReplayError Unit)
      (admitted crypto tree share) := by
  simp only [ShareTree.applyShare, Routine.get_bind, shareHash_normalized, admits.fresh, lower_workHash_normalized,
    admits.uncredited, lower_parentShareHash_normalized, admits.root, Routine.attempt_ok, Routine.pure_bind_apply,
    Routine.set_bind]
  rfl

/-- A share that is not admitted changes nothing: it is stored already, or it is refused. -/
theorem applyShare_of_not_admits (refused : ¬ Admits crypto tree share) :
    (ShareTree.applyShare crypto share tree = .ok () tree ∧
      ∃ node, tree.shares[share.shareHash crypto]? = some node ∧ node.share = share.normalized) ∨
    (∃ reason, ShareTree.applyShare crypto share tree = .error (.error reason) tree) := by
  simp only [ShareTree.applyShare, Routine.get_bind, shareHash_normalized]
  cases stored : tree.shares[share.shareHash crypto]? with
  | some existing =>
    by_cases same : existing.share = share.normalized
    · refine .inl ⟨?_, existing, rfl, same⟩
      simp only [require_of_true same, Routine.attempt_ok, Routine.pure_apply]
    · refine .inr ⟨.conflictingShare (share.shareHash crypto), ?_⟩
      simp only [require_of_false same, Routine.attempt_error, Routine.fail_apply]
  | none =>
    right
    simp only [lower_workHash_normalized, lower_parentShareHash_normalized]
    cases credited : tree.shareHashByWorkHash[toAsciiLowercase share.workHash]? with
    | some existing => exact ⟨_, rfl⟩
    | none =>
      cases root : tree.validateUniqueSharechainRoot (share.shareHash crypto)
          (toAsciiLowercase share.parentShareHash) with
      | ok done => exact absurd ⟨stored, credited, root⟩ refused
      | error reason => exact ⟨reason, by simp⟩

/-- An admitted share is the only root or no root. -/
theorem Admits.oneRoot (admits : Admits crypto tree share) (sound : SoundTree crypto mined tree)
    (top : toAsciiLowercase share.parentShareHash = zeroShareParentHash) (hash : Text) :
    parentOf tree.shares hash ≠ some zeroShareParentHash := by
  intro link
  obtain ⟨node, stored, root⟩ := stored_of_parentOf link
  have accepted := admits.root
  have eligible : EqIgnoreAsciiCase (toAsciiLowercase share.parentShareHash) zeroShareParentHash := by
    rw [top]
    rfl
  simp only [ShareTree.validateUniqueSharechainRoot, eligible, not_true_eq_false, if_false] at accepted
  split at accepted
  · cases accepted
  · next missing =>
    rw [List.find?_eq_none] at missing
    apply missing (hash, node) (ExtTreeMap.mem_toList_iff_getElem?_eq_some.mpr stored)
    refine decide_eq_true ⟨by rw [root]; rfl, ?_⟩
    rw [eqIgnoreAsciiCase_iff_eq (sound.lowercase stored).1 (toAsciiLowercase_shareHash crypto share)]
    exact (ne_of_stored admits.fresh stored).symm

/-- The lookup of a share of the tree with one more. -/
theorem getElem?_admitted (crypto : Crypto) (tree : ShareTree) (share : Share) (hash : Text) :
    (admitted crypto tree share).shares[hash]? =
      if share.shareHash crypto = hash then
        some { share := share.normalized
               parentShareHash := toAsciiLowercase share.parentShareHash
               cumulativeScore := none
               height := 0 }
      else tree.shares[hash]? := by
  simp only [admitted, ShareTree.withShare, getElem?_insert_eq]

section Admitted

variable (sound : SoundTree crypto mined tree) (acyclic : AcyclicShares crypto mined) (member : share ∈ mined)
  (admits : Admits crypto tree share)

include sound admits

omit admits in
theorem keyed_admitted (member : share ∈ mined) (hash : Text) (node : ShareNode)
    (stored : (admitted crypto tree share).shares[hash]? = some node) :
    ∃ share ∈ mined, node.share = share.normalized ∧
      node.parentShareHash = toAsciiLowercase share.parentShareHash ∧ hash = share.shareHash crypto := by
  rw [getElem?_admitted] at stored
  split_ifs at stored with same
  · cases stored
    exact ⟨share, member, rfl, rfl, same.symm⟩
  · exact sound.keyed hash node stored

private theorem scored_admitted : ScoredShares (admitted crypto tree share).shares := by
  intro hash node score stored cumulative
  rw [getElem?_admitted] at stored
  split_ifs at stored with same
  · cases stored
    cases cumulative
  · obtain ⟨path, lineage, total, length⟩ := sound.scored hash node score stored cumulative
    obtain ⟨larger, agree⟩ := lineage_withShare admits.fresh (toAsciiLowercase share.parentShareHash)
      share.normalized lineage
    exact ⟨path, larger, total.trans (pathScore_congr_on agree).symm, length⟩

private theorem children_admitted (parent hash : Text) :
    hash ∈ (admitted crypto tree share).childrenOf parent ↔
      parentOf (admitted crypto tree share).shares hash = some parent := by
  have unlinked : parentOf tree.shares (share.shareHash crypto) = none := by
    simp [parentOf, skeleton, admits.fresh]
  rw [admitted, childrenOf_withShare, parentOf_withShare]
  by_cases same : share.shareHash crypto = hash
  · subst same
    rw [if_pos rfl, Option.some.injEq]
    split_ifs with equal
    · simp [equal]
    · simp [equal, sound.children, unlinked]
  · rw [if_neg same]
    split_ifs with equal
    · subst equal
      simp [same, sound.children]
    · exact sound.children parent hash

/-- Only the new share can be ready and not resolved. -/
theorem frontier_admitted (hash : Text) (ready : Ready (admitted crypto tree share).shares hash) :
    Resolved (admitted crypto tree share).shares hash ∨ hash = share.shareHash crypto := by
  by_cases same : share.shareHash crypto = hash
  · exact .inr same.symm
  · left
    obtain ⟨parent, link, reached⟩ := ready
    rw [admitted, parentOf_withShare, if_neg same] at link
    rw [admitted, resolved_withShare admits.fresh] at reached ⊢
    rcases reached with rfl | ⟨score, resolved⟩
    · exact sound.complete hash _ (.root link)
    · by_cases top : parent = zeroShareParentHash
      · exact sound.complete hash _ (.root (top ▸ link))
      · obtain ⟨path, lineage, -⟩ := sound.scored.lineage resolved
        exact sound.complete hash _ (.child link top lineage)

private theorem upward_admitted (hash parent : Text) (resolved : Resolved (admitted crypto tree share).shares hash)
    (link : parentOf (admitted crypto tree share).shares hash = some parent)
    (inner : parent ≠ zeroShareParentHash) : Resolved (admitted crypto tree share).shares parent := by
  rw [admitted, resolved_withShare admits.fresh] at resolved ⊢
  obtain ⟨score, known⟩ := resolved
  obtain ⟨node, stored, -⟩ := id known
  obtain ⟨path, lineage, -⟩ := sound.scored.lineage known
  rw [admitted, parentOf_withShare, if_neg (ne_of_stored admits.fresh stored)] at link
  rcases lineage.parent_cases link with ⟨top, -⟩ | ⟨rest, -, above, -⟩
  · exact absurd top inner
  · exact sound.complete parent rest above

include acyclic member

omit admits in
private theorem rootless_admitted (path : List Text) :
    ¬ ShareLineage (admitted crypto tree share).shares zeroShareParentHash path := by
  apply not_lineage_origin acyclic
  intro parent hash link
  obtain ⟨node, stored, rfl⟩ := stored_of_parentOf link
  obtain ⟨origin, known, -, parent_eq, hash_eq⟩ := keyed_admitted sound member hash node stored
  exact ⟨origin, known, parent_eq.symm, hash_eq.symm⟩

/-- The loop starts with the new share in its queue, or with nothing to do. -/
theorem resolving_admitted (queue : List Text)
    (queued : (Ready (admitted crypto tree share).shares (share.shareHash crypto) ∧
        queue = [share.shareHash crypto]) ∨
      (¬ Ready (admitted crypto tree share).shares (share.shareHash crypto) ∧ queue = [])) :
    Resolving (admitted crypto tree share) queue := by
  have unresolved : ¬ Resolved (admitted crypto tree share).shares (share.shareHash crypto) := by
    rw [admitted, resolved_withShare admits.fresh]
    rintro ⟨score, node, stored, -⟩
    exact ne_of_stored admits.fresh stored rfl
  refine ⟨scored_admitted sound admits, upward_admitted sound admits, children_admitted sound admits,
    rootless_admitted sound acyclic member, sound.active.withShare admits.fresh, ?_, ?_, ?_, ?_⟩
  all_goals rcases queued with ⟨ready, rfl⟩ | ⟨waiting, rfl⟩
  · exact List.nodup_singleton _
  · exact List.nodup_nil
  · simpa using ready
  · simp
  · simpa using unresolved
  · simp
  · intro hash ready'
    simpa using frontier_admitted sound admits hash ready'
  · intro hash ready'
    rcases frontier_admitted sound admits hash ready' with resolved | rfl
    · exact .inl resolved
    · exact absurd ready' waiting

end Admitted

/-- A share that waits for its parent leaves the queue unresolved. -/
theorem branchScore_of_not_ready {node : ShareNode} (stored : tree.shares[hash]? = some node)
    (waiting : ¬ Ready tree.shares hash) : tree.branchScore hash node = .ok none := by
  have link := parentOf_of_stored stored
  have inner : node.parentShareHash ≠ zeroShareParentHash := fun top => waiting ⟨_, link, .inl top⟩
  simp only [ShareTree.branchScore, if_neg inner]
  cases above : tree.shares[node.parentShareHash]? with
  | none => rfl
  | some parent =>
    cases cumulative : parent.cumulativeScore with
    | none =>
      simp only [cumulative]
      rfl
    | some score => exact absurd ⟨_, link, .inr ⟨score, parent, above, cumulative⟩⟩ waiting

/-- Resolution of an admitted share ends with nothing left to resolve, or at an overflowing branch. -/
theorem resolveAdmitted_spec (sound : SoundTree crypto mined tree) (acyclic : AcyclicShares crypto mined)
    (member : share ∈ mined) (admits : Admits crypto tree share) :
    (∃ after, ShareTree.resolveShareAndDescendants (share.shareHash crypto) (admitted crypto tree share) =
        .ok () after ∧ ResolvesMore (admitted crypto tree share) after ∧ Resolving after []) ∨
    (∃ candidate after, ShareTree.resolveShareAndDescendants (share.shareHash crypto)
        (admitted crypto tree share) = .error (.error (.shareBranchScoreOverflow candidate)) after ∧
      StoppedAt (admitted crypto tree share) after candidate) := by
  have unfold_eq : ShareTree.resolveShareAndDescendants (share.shareHash crypto) (admitted crypto tree share) =
      ShareTree.resolveQueue (admitted crypto tree share).shares.size [share.shareHash crypto]
        (admitted crypto tree share) := by
    simp only [ShareTree.resolveShareAndDescendants, Routine.get_bind]
  have stored := getElem?_admitted crypto tree share (share.shareHash crypto)
  rw [if_pos rfl] at stored
  rw [unfold_eq]
  by_cases ready : Ready (admitted crypto tree share).shares (share.shareHash crypto)
  · have resolving := resolving_admitted sound acyclic member admits _ (.inl ⟨ready, rfl⟩)
    exact resolveQueue_spec _ resolving List.nodup_nil (by simp) (by simp)
  · left
    have resolving := resolving_admitted sound acyclic member admits _ (.inr ⟨ready, rfl⟩)
    refine ⟨admitted crypto tree share, ?_, .refl _, resolving⟩
    have nonempty : 1 ≤ (admitted crypto tree share).shares.size :=
      length_le_size (List.nodup_singleton (share.shareHash crypto)) (by
        intro hash listed
        exact mem_iff_exists_getElem?.mpr ⟨_, List.mem_singleton.mp listed ▸ stored⟩)
    obtain ⟨fuel, size_eq⟩ := Nat.exists_eq_add_of_le' nonempty
    rw [size_eq]
    simp only [ShareTree.resolveQueue, Routine.get_bind, stored, branchScore_of_not_ready stored ready,
      Routine.attempt_ok, Routine.pure_bind_apply]
    rfl

/-- What applying a new share leaves behind. -/
structure Inserted (crypto : Crypto) (share : Share) (before after : ShareTree) : Prop where
  skeleton_eq : skeleton after.shares = skeleton (admitted crypto before share).shares
  keeps : ∀ hash score, ResolvedWith before.shares hash score → ResolvedWith after.shares hash score
  checkpoints_eq : after.sharechainCheckpoints = before.sharechainCheckpoints

/-- Some branch through the new share is too long or too heavy. -/
def OverflowsWith (crypto : Crypto) (tree : ShareTree) (share : Share) : Prop :=
  ∃ hash path, ShareLineage (admitted crypto tree share).shares hash path ∧ share.shareHash crypto ∈ path ∧
    Overflows (admitted crypto tree share).shares path

section Applied

variable (sound : SoundTree crypto mined tree) (acyclic : AcyclicShares crypto mined) (member : share ∈ mined)
  (admits : Admits crypto tree share)

include sound member admits

/-- The tree is sound again once the queue is empty and the work is recorded. -/
theorem SoundTree.of_resolving {after : ShareTree} (more : ResolvesMore (admitted crypto tree share) after)
    (resolving : Resolving after []) : SoundTree crypto mined { after with
      shareHashByWorkHash := after.shareHashByWorkHash.insert (toAsciiLowercase share.workHash)
        (share.shareHash crypto) } := by
  have same := more.skeleton_eq
  have links := parentOf_congr same
  have entry : ∀ (hash : Text) (node : ShareNode), after.shares[hash]? = some node →
      ∃ old, (admitted crypto tree share).shares[hash]? = some old ∧ old.share = node.share ∧
        old.parentShareHash = node.parentShareHash := by
    intro hash node stored
    have equal := congrFun same hash
    simp only [skeleton, stored, Option.map_some] at equal
    obtain ⟨old, present, pair⟩ := Option.map_eq_some_iff.mp equal.symm
    exact ⟨old, present, congrArg Prod.fst pair, congrArg Prod.snd pair⟩
  refine ⟨?_, resolving.scored, fun hash path lineage => resolving.complete lineage, ?_, ?_, ?_, ?_⟩
  · intro hash node stored
    obtain ⟨old, present, share_eq, parent_eq⟩ := entry hash node stored
    rw [← share_eq, ← parent_eq]
    exact keyed_admitted sound member hash old present
  · exact resolving.children
  · intro hash other link link'
    rw [links, admitted, parentOf_withShare] at link link'
    split_ifs at link link' with first second second
    · rw [← first, second]
    · exact absurd link' (admits.oneRoot sound (Option.some.inj link) other)
    · exact absurd link (admits.oneRoot sound (Option.some.inj link') hash)
    · exact sound.oneRoot hash other link link'
  · intro work hash
    have old : after.shareHashByWorkHash = tree.shareHashByWorkHash := more.works_eq
    have found : (∃ node, after.shares[hash]? = some node ∧ toAsciiLowercase node.share.workHash = work) ↔
        (skeleton (admitted crypto tree share).shares hash).any
          (fun pair => toAsciiLowercase pair.1.workHash = work) = true := by
      rw [← same, skeleton]
      cases after.shares[hash]? <;> simp
    simp only [found, admitted, skeleton_withShare, old, getElem?_insert_eq]
    by_cases first : share.shareHash crypto = hash
    · subst first
      by_cases second : toAsciiLowercase share.workHash = work
      · simp [second, lower_workHash_normalized]
      · have unknown : tree.shareHashByWorkHash[work]? ≠ some (share.shareHash crypto) := by
          rw [ne_eq, sound.works]
          rintro ⟨node, stored, -⟩
          exact ne_of_stored admits.fresh stored rfl
        simp [second, lower_workHash_normalized, unknown]
    · have existing : tree.shareHashByWorkHash[work]? = some hash ↔
          (skeleton tree.shares hash).any (fun pair => toAsciiLowercase pair.1.workHash = work) = true := by
        rw [sound.works, skeleton]
        cases tree.shares[hash]? <;> simp
      by_cases second : toAsciiLowercase share.workHash = work
      · subst second
        rw [admits.uncredited] at existing
        simpa [first] using existing
      · simpa [first, second] using existing
  · obtain ⟨path, tipPath, branch⟩ := resolving.active.branch
    exact ⟨⟨path, tipPath, ⟨⟨branch.total, branch.scores⟩, branch.hashes⟩⟩, resolving.active.resolved,
      resolving.active.waits, resolving.active.leads, resolving.active.finalized⟩

/-- An admitted share is applied unless a branch through it overflows. -/
theorem applyShare_spec (acyclic : AcyclicShares crypto mined) :
    (∃ after, ShareTree.applyShare crypto share tree = .ok () after ∧ SoundTree crypto mined after ∧
      Inserted crypto share tree after ∧ ¬ OverflowsWith crypto tree share) ∨
    (∃ candidate after, ShareTree.applyShare crypto share tree =
        .error (.error (.shareBranchScoreOverflow candidate)) after ∧
      skeleton after.shares = skeleton (admitted crypto tree share).shares ∧
      OverflowsWith crypto tree share) := by
  rw [applyShare_of_admits admits]
  rcases resolveAdmitted_spec sound acyclic member admits with
    ⟨after, resolved, more, resolving⟩ | ⟨candidate, after, stopped, reason⟩
  · left
    refine ⟨_, by rw [Routine.bind_of_ok resolved, Routine.modify_apply],
      SoundTree.of_resolving sound member admits more resolving, ⟨more.skeleton_eq, ?_, more.checkpoints_eq⟩, ?_⟩
    · intro hash score known
      exact more.keeps hash score ((resolvedWith_withShare admits.fresh).mpr known)
    · rintro ⟨hash, path, lineage, -, overflow⟩
      rw [ShareLineage, ← parentOf_congr more.skeleton_eq] at lineage
      rw [Overflows, ← pathScore_congr more.skeleton_eq] at overflow
      obtain ⟨score, node, stored, cumulative⟩ := resolving.complete lineage
      obtain ⟨path', lineage', total, length⟩ := resolving.scored hash node score stored cumulative
      obtain rfl := lineage.unique lineage'
      have scoreBound := score.isLt
      have heightBound := node.height.isLt
      rcases overflow with heavy | long <;> omega
  · right
    refine ⟨candidate, after, Routine.bind_of_error stopped, reason.more.skeleton_eq, ?_⟩
    obtain ⟨path, lineage, overflow⟩ := reason.overflows
    refine ⟨candidate, path, lineage, ?_, overflow⟩
    by_contra avoids
    apply reason.unresolved
    rw [admitted, resolved_withShare admits.fresh]
    exact sound.complete candidate path (lineage_of_withShare lineage avoids)

end Applied

end Admission

/-- An applied share was admitted, or was in the tree as it is. -/
theorem applyShare_ok {after : ShareTree} {share : Share} (sound : SoundTree crypto mined tree)
    (acyclic : AcyclicShares crypto mined) (member : share ∈ mined)
    (applied : ShareTree.applyShare crypto share tree = .ok () after) :
    (Admits crypto tree share ∧ SoundTree crypto mined after ∧ Inserted crypto share tree after ∧
      ¬ OverflowsWith crypto tree share) ∨
    (after = tree ∧ ∃ node, tree.shares[share.shareHash crypto]? = some node ∧ node.share = share.normalized) := by
  by_cases admits : Admits crypto tree share
  · rcases applyShare_spec sound member admits acyclic with ⟨later, returned, rest⟩ | ⟨_, _, failed, -⟩
    · obtain rfl := (EStateM.Result.ok.inj (returned.symm.trans applied)).2
      exact .inl ⟨admits, rest⟩
    · cases failed.symm.trans applied
  · rcases applyShare_of_not_admits admits with ⟨returned, kept⟩ | ⟨_, failed⟩
    · exact .inr ⟨(EStateM.Result.ok.inj (applied.symm.trans returned)).2, kept⟩
    · cases failed.symm.trans applied

end P2PoolBTC.Soundness
