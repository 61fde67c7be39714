import P2PoolBTC.Soundness.AuthorizationEncoding

/-! # Authorization proofs against the tree they were built from

The builder carries every node's members along and pushes one sibling per level. Its levels are the
levels of the hash tree and the pushed siblings are the paths, so the proofs it returns are accepted.
When no two hashed inputs collide, no other proof is accepted.
-/

namespace P2PoolBTC.Soundness

open Math Model.Core MerkleTree

variable {hash : Digest} {proofs : List (List Digest)} {nodes : List (Digest × List ℕ)} {hashes : List Digest}
  {leaves : List ConsensusIdentityLeafV1} {crypto : IdentityCrypto} {node : Digest × List ℕ}

/-! ## One level of the builder -/

theorem getElem?_pushSibling {members : List ℕ} (index : ℕ) (distinct : members.Nodup) :
    (pushSibling hash members proofs)[index]? =
      if index ∈ members then proofs[index]?.map (· ++ [hash]) else proofs[index]? := by
  induction members generalizing proofs with
  | nil => simp [pushSibling]
  | cons member rest ih =>
    obtain ⟨absent, distinct⟩ := List.nodup_cons.mp distinct
    change (pushSibling hash rest (proofs.modify member (· ++ [hash])))[index]? = _
    rw [ih distinct, List.getElem?_modify]
    by_cases same : member = index
    · subst same
      simp [absent]
    · have other : index ≠ member := fun equal => same equal.symm
      simp [same, other]

variable {index : ℕ}

theorem getElem?_pushSibling_of_notMem {members : List ℕ} (distinct : members.Nodup) (absent : index ∉ members) :
    (pushSibling hash members proofs)[index]? = proofs[index]? := by
  rw [getElem?_pushSibling index distinct, if_neg absent]

theorem joinPairs_hashes (nodes : List (Digest × List ℕ)) (proofs : List (List Digest)) :
    (joinPairs crypto nodes proofs).1.map Prod.fst = parents (merkleParent crypto) (nodes.map Prod.fst) := by
  fun_induction joinPairs crypto nodes proofs with
  | case1 => rfl
  | case2 => rfl
  | case3 left leftMembers right rightMembers rest proofs joined ih => exact congrArg _ ih

private theorem joinPairs_members (nodes : List (Digest × List ℕ)) (proofs : List (List Digest)) :
    (joinPairs crypto nodes proofs).1.flatMap Prod.snd = nodes.flatMap Prod.snd := by
  fun_induction joinPairs crypto nodes proofs with
  | case1 => rfl
  | case2 => rfl
  | case3 left leftMembers right rightMembers rest proofs joined ih =>
    simp only [List.flatMap_cons, List.append_assoc]
    exact congrArg (leftMembers ++ ·) (congrArg (rightMembers ++ ·) ih)

/-- A member of a parent is a member of one of its children. -/
theorem joinPairs_located {position : ℕ} (found : (joinPairs crypto nodes proofs).1[position]? = some node)
    (member : index ∈ node.2) :
    ∃ below child, nodes[below]? = some child ∧ index ∈ child.2 ∧ below / 2 = position := by
  induction nodes, proofs using joinPairs.induct crypto generalizing position with
  | case1 => cases found
  | case2 last members proofs =>
    match position, found with
    | 0, found =>
      cases found
      exact ⟨0, _, rfl, member, rfl⟩
    | position + 1, found => cases found
  | case3 left leftMembers right rightMembers rest proofs ih =>
    match position, found with
    | 0, found =>
      cases found
      rcases List.mem_append.mp member with inLeft | inRight
      · exact ⟨0, _, rfl, inLeft, rfl⟩
      · exact ⟨1, _, rfl, inRight, rfl⟩
    | position + 1, found =>
      rw [joinPairs, List.getElem?_cons_succ] at found
      obtain ⟨below, child, childAt, inChild, half⟩ := ih found
      exact ⟨below + 2, child, by simpa using childAt, inChild, by omega⟩

private theorem length_pushSibling (hash : Digest) (members : List ℕ) (proofs : List (List Digest)) :
    (pushSibling hash members proofs).length = proofs.length := by
  induction members generalizing proofs with
  | nil => rfl
  | cons member rest ih => exact (ih _).trans (List.length_modify _ _ _)

private theorem length_joinPairs_proofs (nodes : List (Digest × List ℕ)) (proofs : List (List Digest)) :
    (joinPairs crypto nodes proofs).2.length = proofs.length := by
  fun_induction joinPairs crypto nodes proofs with
  | case1 => rfl
  | case2 last members proofs => exact length_pushSibling _ _ _
  | case3 left leftMembers right rightMembers rest proofs joined ih =>
    exact ih.trans ((length_pushSibling _ _ _).trans (length_pushSibling _ _ _))

private theorem joinPairs_untouched (distinct : (nodes.flatMap Prod.snd).Nodup)
    (absent : index ∉ nodes.flatMap Prod.snd) :
    (joinPairs crypto nodes proofs).2[index]? = proofs[index]? := by
  fun_induction joinPairs crypto nodes proofs with
  | case1 => rfl
  | case2 last members proofs =>
    simp only [List.flatMap_cons, List.flatMap_nil, List.append_nil] at distinct absent
    exact getElem?_pushSibling_of_notMem distinct absent
  | case3 left leftMembers right rightMembers rest proofs joined ih =>
    simp only [List.flatMap_cons, List.nodup_append, List.mem_append, not_or] at distinct absent
    obtain ⟨leftDistinct, ⟨rightDistinct, restDistinct, _⟩, _⟩ := distinct
    rw [ih restDistinct absent.2.2, getElem?_pushSibling_of_notMem rightDistinct absent.2.1,
      getElem?_pushSibling_of_notMem leftDistinct absent.1]

/-- Each member's proof gets the neighbour of its node. -/
theorem joinPairs_proof {position : ℕ} (distinct : (nodes.flatMap Prod.snd).Nodup)
    (found : nodes[position]? = some node) (member : index ∈ node.2) :
    (joinPairs crypto nodes proofs).2[index]? =
      proofs[index]?.map (· ++ (neighbour (nodes.map Prod.fst) position).toList) := by
  induction nodes, proofs using joinPairs.induct crypto generalizing position with
  | case1 => cases found
  | case2 last members proofs =>
    simp only [List.flatMap_cons, List.flatMap_nil, List.append_nil] at distinct
    match position, found with
    | 0, found =>
      cases found
      rw [joinPairs, getElem?_pushSibling index distinct, if_pos member]
      rfl
    | position + 1, found => simp at found
  | case3 left leftMembers right rightMembers rest proofs ih =>
    simp only [List.flatMap_cons, List.nodup_append] at distinct
    obtain ⟨leftDistinct, ⟨rightDistinct, restDistinct, rightApart⟩, leftApart⟩ := distinct
    match position, found with
    | 0, found =>
      cases found
      have notRight : index ∉ rightMembers := fun inside =>
        leftApart index member index (List.mem_append_left _ inside) rfl
      have notRest : index ∉ rest.flatMap Prod.snd := fun inside =>
        leftApart index member index (List.mem_append_right _ inside) rfl
      rw [joinPairs, joinPairs_untouched restDistinct notRest, getElem?_pushSibling_of_notMem rightDistinct notRight,
        getElem?_pushSibling index leftDistinct, if_pos member]
      rfl
    | 1, found =>
      cases found
      have notLeft : index ∉ leftMembers := fun inside =>
        leftApart index inside index (List.mem_append_left _ member) rfl
      have notRest : index ∉ rest.flatMap Prod.snd := fun inside => rightApart index member index inside rfl
      rw [joinPairs, joinPairs_untouched restDistinct notRest, getElem?_pushSibling index rightDistinct, if_pos member,
        getElem?_pushSibling_of_notMem leftDistinct notLeft]
      rfl
    | position + 2, found =>
      have later : rest[position]? = some node := by simpa using found
      have inRest : index ∈ rest.flatMap Prod.snd :=
        List.mem_flatMap.mpr ⟨node, List.mem_of_getElem? later, member⟩
      have notLeft : index ∉ leftMembers := fun inside =>
        leftApart index inside index (List.mem_append_right _ inRest) rfl
      have notRight : index ∉ rightMembers := fun inside => rightApart index inside index inRest rfl
      rw [joinPairs, ih restDistinct later, getElem?_pushSibling_of_notMem rightDistinct notRight,
        getElem?_pushSibling_of_notMem leftDistinct notLeft, List.map_cons, List.map_cons, neighbour_cons_cons]

/-! ## The whole tree -/

/-- What the builder holds so many levels up from the leaf hashes. -/
structure LevelBuilt (crypto : IdentityCrypto) (hashes : List Digest) (depth : ℕ) (nodes : List (Digest × List ℕ))
    (proofs : List (List Digest)) : Prop where
  hashes_eq : nodes.map Prod.fst = ascend (merkleParent crypto) depth hashes
  members_eq : nodes.flatMap Prod.snd = List.range hashes.length
  located : ∀ position node, nodes[position]? = some node → ∀ index ∈ node.2, index / 2 ^ depth = position
  length_eq : proofs.length = hashes.length
  proofs_eq : ∀ index < hashes.length, proofs[index]? = some (path (merkleParent crypto) depth hashes index)

namespace LevelBuilt

variable {depth : ℕ}

private theorem start (crypto : IdentityCrypto) (hashes : List Digest) :
    LevelBuilt crypto hashes 0 (hashes.zipIdx.map fun node => (node.1, [node.2]))
      (List.replicate hashes.length []) where
  hashes_eq := by simp [ascend, Function.comp_def]
  members_eq := by
    rw [List.flatMap_map, ← List.map_eq_flatMap, List.zipIdx_map_snd, List.range_eq_range']
  located := by
    intro position node found index member
    simp only [List.getElem?_map, List.getElem?_zipIdx, Option.map_map, Option.map_eq_some_iff] at found
    obtain ⟨hash, _, rfl⟩ := found
    simpa using member
  length_eq := List.length_replicate
  proofs_eq index inside := by rw [List.getElem?_replicate, if_pos inside]; rfl

private theorem step (built : LevelBuilt crypto hashes depth nodes proofs) :
    LevelBuilt crypto hashes (depth + 1) (joinPairs crypto nodes proofs).1 (joinPairs crypto nodes proofs).2 where
  hashes_eq := by rw [joinPairs_hashes, built.hashes_eq, ascend_succ_top]
  members_eq := by rw [joinPairs_members, built.members_eq]
  located := by
    intro position node found index member
    obtain ⟨below, child, childAt, inChild, half⟩ := joinPairs_located found member
    rw [pow_succ, ← Nat.div_div_eq_div_mul, built.located below child childAt index inChild, half]
  length_eq := by rw [length_joinPairs_proofs, built.length_eq]
  proofs_eq := by
    intro index inside
    -- The one node that has the leaf as a member is the one above it.
    have member : index ∈ nodes.flatMap Prod.snd := by
      rw [built.members_eq]
      exact List.mem_range.mpr inside
    obtain ⟨node, listed, inNode⟩ := List.mem_flatMap.mp member
    obtain ⟨position, found⟩ := List.getElem?_of_mem listed
    have distinct : (nodes.flatMap Prod.snd).Nodup := built.members_eq ▸ List.nodup_range
    rw [joinPairs_proof distinct found inNode, built.proofs_eq index inside, built.hashes_eq,
      ← built.located position node found index inNode, Option.map_some, path_succ_top]

private theorem length_joinPairs (nodes : List (Digest × List ℕ)) (proofs : List (List Digest)) :
    (joinPairs crypto nodes proofs).1.length = (nodes.length + 1) / 2 := by
  rw [← List.length_map (f := Prod.fst), joinPairs_hashes, length_parents, List.length_map]

/-- Enough levels lead to one node, at the depth of the tree. -/
theorem run {fuel : ℕ} (built : LevelBuilt crypto hashes depth nodes proofs) (nonempty : 0 < nodes.length)
    (enough : nodes.length ≤ fuel + 1) :
    LevelBuilt crypto hashes (depth + Nat.size (nodes.length - 1)) (joinLevels crypto fuel nodes proofs).1
        (joinLevels crypto fuel nodes proofs).2 ∧
      (joinLevels crypto fuel nodes proofs).1.length = 1 := by
  induction fuel generalizing depth nodes proofs with
  | zero =>
    have one : nodes.length - 1 = 0 := by omega
    rw [one, Nat.size_zero]
    exact ⟨built, by rw [joinLevels]; change nodes.length = 1; omega⟩
  | succ fuel ih =>
    rw [joinLevels]
    split
    · next many =>
      have above : (joinPairs crypto nodes proofs).1.length = (nodes.length + 1) / 2 := length_joinPairs nodes proofs
      have half : (joinPairs crypto nodes proofs).1.length - 1 = (nodes.length - 1) / 2 := by omega
      have rest := ih built.step (by omega) (by omega)
      rw [half] at rest
      rw [size_half (by omega : 0 < nodes.length - 1), add_comm (Nat.size _) 1, ← add_assoc]
      exact rest
    · next few =>
      have one : nodes.length - 1 = 0 := by omega
      rw [one, Nat.size_zero]
      exact ⟨built, by change nodes.length = 1; omega⟩

end LevelBuilt

/-- What the builder checked and returned: the root over the leaf hashes and each leaf's path. -/
theorem build_eq_ok {root : Digest} {proofs : List ConsensusIdentityProofV1}
    (built : buildAuthorizationRootAndProofs crypto leaves = .ok (root, proofs)) :
    ∃ hashes, leaves.mapM (·.leafHash crypto) = .ok hashes ∧ hashes.length = leaves.length ∧
      ascend (merkleParent crypto) (Nat.size (leaves.length - 1)) hashes = [root] ∧ proofs.length = leaves.length ∧
      ∀ index < leaves.length, proofs[index]? = some
        { leafIndex := BitVec.ofNat 32 index
          siblings := (path (merkleParent crypto) (Nat.size (leaves.length - 1)) hashes index).map hashHex } := by
  simp only [buildAuthorizationRootAndProofs, except_bind_eq_ok, require_eq_ok, exists_const, okOr_eq_ok] at built
  obtain ⟨nonempty, _, _, _, hashes, hashed, top, topAt, made⟩ := built
  have size : hashes.length = leaves.length := (except_mapM_eq_ok_iff.mp hashed).length_eq.symm
  have positive := List.length_pos_of_ne_nil nonempty
  have count : (hashes.zipIdx.map fun node => (node.1, [node.2])).length = leaves.length := by simp [size]
  have start := LevelBuilt.start crypto hashes
  rw [size] at start
  obtain ⟨level, one⟩ := start.run (by omega) (le_of_eq_of_le count (Nat.le_succ _))
  generalize joinLevels crypto leaves.length (hashes.zipIdx.map fun node => (node.1, [node.2]))
    (List.replicate leaves.length []) = ended at level one topAt made
  rw [count, zero_add] at level
  refine ⟨hashes, hashed, size, ?_, ?_, ?_⟩
  · obtain ⟨last, only⟩ := List.length_eq_one_iff.mp one
    rw [only, List.head?_cons, Option.some.injEq] at topAt
    cases made
    rw [← level.hashes_eq, only, topAt]
    rfl
  · cases made
    rw [List.length_map, List.length_zipIdx, level.length_eq, size]
  · intro index inside
    cases made
    rw [List.getElem?_map, List.getElem?_zipIdx, level.proofs_eq index (by omega), Option.map_some, Option.map_some,
      zero_add]

/-! ## Collisions -/

section Inputs

variable (crypto) (leaves : List ConsensusIdentityLeafV1) (authorization : ConsensusIdentityAuthorizationV1)

/-- What the leaves are hashed from. -/
def leafInputs : List (List UInt8) :=
  leaves.filterMap fun leaf => (leaf.canonicalBytes crypto).toOption.map (taggedInput leafTag)

/-- The leaf hashes of the leaves that have one. -/
def leafDigests : List Digest :=
  leaves.filterMap fun leaf => (leaf.leafHash crypto).toOption

/-- Everything hashed to build the tree over the leaves. -/
def treeInputs : List (List UInt8) :=
  leafInputs crypto leaves ++
    (joined (merkleParent crypto) (Nat.size (leaves.length - 1)) (leafDigests crypto leaves)).map
      fun pair => parentInput pair.1 pair.2

/-- Everything hashed to check the path of an authorization. -/
def pathInputs : List (List UInt8) :=
  leafInputs crypto [authorization.leaf] ++
    (leafDigests crypto [authorization.leaf]).flatMap fun hash =>
      (climbed (merkleParent crypto) authorization.proof.leafIndex.toNat hash
        (authorization.proof.siblings.filterMap fun text => (decodeHash crypto text).toOption)).map
        fun pair => parentInput pair.1 pair.2

/-- Nothing hashed to build the tree or to check the authorization has the hash of something else. -/
def CollisionFreePaths : Prop :=
  ∀ input ∈ treeInputs crypto leaves ++ pathInputs crypto authorization,
    ∀ other ∈ treeInputs crypto leaves ++ pathInputs crypto authorization,
      crypto.sha256 input = crypto.sha256 other → input = other

end Inputs

private theorem parentInput_inj {left right otherLeft otherRight : Digest}
    (same : parentInput left right = parentInput otherLeft otherRight) : left = otherLeft ∧ right = otherRight := by
  have bytes := List.append_cancel_left same
  obtain ⟨lefts, rights⟩ := List.append_inj (List.cons.inj bytes).2 (by rw [left.size, otherLeft.size])
  exact ⟨hashHex_injective (congrArg hexEncode lefts), hashHex_injective (congrArg hexEncode rights)⟩

variable {leaf : ConsensusIdentityLeafV1}

/-- A leaf in normal form is decoded from the bytes it is hashed from. -/
theorem decodeLeaf_of_canonicalBytes {bytes : List UInt8} (normal : leaf.normalized = leaf)
    (written : leaf.canonicalBytes crypto = .ok bytes) : decodeLeaf crypto bytes = .ok leaf := by
  have valid : leaf.validate crypto = .ok () := by
    simp only [ConsensusIdentityLeafV1.canonicalBytes, normal, except_bind_eq_ok] at written
    obtain ⟨_, valid, _⟩ := written
    exact valid
  obtain ⟨address, code, key, commitment, parts⟩ := validate_eq_ok_iff_parts.mp valid
  exact decodeLeaf_eq_ok.mpr ⟨address, code, key, commitment, parts,
    Except.ok.inj (written.symm.trans parts.canonicalBytes_eq)⟩

private theorem leafDigests_eq (hashed : leaves.mapM (·.leafHash crypto) = .ok hashes) :
    leafDigests crypto leaves = hashes := by
  induction except_mapM_eq_ok_iff.mp hashed with
  | nil => rfl
  | cons first rest ih =>
    have later := ih (except_mapM_eq_ok_iff.mpr rest)
    rw [leafDigests, List.filterMap_cons, first]
    exact congrArg _ later

private theorem decodedSiblings_eq (siblings : List Digest) :
    (siblings.map hashHex).filterMap (fun text => (decodeHash crypto text).toOption) = siblings := by
  rw [List.filterMap_map]
  refine (List.filterMap_congr ?_).trans List.filterMap_some
  intro sibling _
  have decoded : decodeHash crypto (hashHex sibling) = .ok sibling := decodeHash_eq_ok.mpr rfl
  simp only [Function.comp_apply, decoded, Except.toOption]

/-- The leaf at an index and its hash. -/
theorem leafHash_at (hashed : leaves.mapM (·.leafHash crypto) = .ok hashes) (found : leaves[index]? = some leaf) :
    ∃ hash, hashes[index]? = some hash ∧ leaf.leafHash crypto = .ok hash := by
  have each := except_mapM_eq_ok_iff.mp hashed
  obtain ⟨inside, rfl⟩ := List.getElem?_eq_some_iff.mp found
  have bound : index < hashes.length := each.length_eq ▸ inside
  exact ⟨hashes[index], List.getElem?_eq_getElem bound, each.get inside bound⟩

/-- A hashed leaf was written out, and its hash is of what was written. -/
theorem leafHash_eq_ok :
    leaf.leafHash crypto = .ok hash ↔
      ∃ bytes, leaf.canonicalBytes crypto = .ok bytes ∧ crypto.sha256 (taggedInput leafTag bytes) = hash := by
  simp only [ConsensusIdentityLeafV1.leafHash, except_bind_eq_ok, pure, Except.pure, Except.ok.injEq]
  rfl

private theorem valid_of_hashed (normal : leaf.normalized = leaf) (hashed : leaf.leafHash crypto = .ok hash) :
    leaf.validate crypto = .ok () := by
  obtain ⟨bytes, written, _⟩ := leafHash_eq_ok.mp hashed
  obtain ⟨address, code, key, commitment, parts, _⟩ := decodeLeaf_eq_ok.mp (decodeLeaf_of_canonicalBytes normal written)
  exact validate_eq_ok_iff_parts.mpr ⟨address, code, key, commitment, parts⟩

private theorem normal_of_valid (valid : leaf.validate crypto = .ok ()) : leaf.normalized = leaf := by
  obtain ⟨_, _, _, _, parts⟩ := validate_eq_ok_iff_parts.mp valid
  exact parts.normalized_eq

namespace CollisionFreePaths

variable {authorization : ConsensusIdentityAuthorizationV1} {siblings : List Digest} {leafHash : Digest}

/-- No two joined pairs share a parent. -/
theorem injOn_pairs (free : CollisionFreePaths crypto leaves authorization)
    (hashed : leaves.mapM (·.leafHash crypto) = .ok hashes)
    (leafHashed : authorization.leaf.leafHash crypto = .ok leafHash)
    (spelled : authorization.proof.siblings = siblings.map hashHex) :
    Set.InjOn (fun pair : Digest × Digest => merkleParent crypto pair.1 pair.2)
      {pair | pair ∈ joined (merkleParent crypto) (Nat.size (leaves.length - 1)) hashes ++
        climbed (merkleParent crypto) authorization.proof.leafIndex.toNat leafHash siblings} := by
  have listed (pair : Digest × Digest)
      (member : pair ∈ joined (merkleParent crypto) (Nat.size (leaves.length - 1)) hashes ++
        climbed (merkleParent crypto) authorization.proof.leafIndex.toNat leafHash siblings) :
      parentInput pair.1 pair.2 ∈ treeInputs crypto leaves ++ pathInputs crypto authorization := by
    rcases List.mem_append.mp member with inTree | inPath
    · apply List.mem_append_left
      rw [treeInputs, leafDigests_eq hashed]
      exact List.mem_append_right _ (List.mem_map_of_mem inTree)
    · apply List.mem_append_right
      rw [pathInputs, spelled, decodedSiblings_eq]
      have one : leafDigests crypto [authorization.leaf] = [leafHash] := by
        simp only [leafDigests, List.filterMap_cons, leafHashed, Except.toOption, List.filterMap_nil]
      rw [one, List.flatMap_singleton]
      exact List.mem_append_right _ (List.mem_map_of_mem inPath)
  intro pair member other otherMember same
  obtain ⟨lefts, rights⟩ := parentInput_inj (free _ (listed pair member) _ (listed other otherMember) same)
  exact Prod.ext lefts rights

/-- A leaf of the tree with the hash of the authorized leaf is the authorized leaf. -/
theorem leaf_eq (free : CollisionFreePaths crypto leaves authorization) (member : leaf ∈ leaves)
    (normal : leaf.normalized = leaf) (valid : authorization.leaf.validate crypto = .ok ())
    (hashed : leaf.leafHash crypto = .ok hash) (leafHashed : authorization.leaf.leafHash crypto = .ok hash) :
    leaf = authorization.leaf := by
  obtain ⟨bytes, written, rfl⟩ := leafHash_eq_ok.mp hashed
  obtain ⟨otherBytes, otherWritten, same⟩ := leafHash_eq_ok.mp leafHashed
  have listed {leaf : ConsensusIdentityLeafV1} {leaves : List ConsensusIdentityLeafV1} {bytes : List UInt8}
      (member : leaf ∈ leaves) (written : leaf.canonicalBytes crypto = .ok bytes) :
      taggedInput leafTag bytes ∈ leafInputs crypto leaves :=
    List.mem_filterMap.mpr ⟨leaf, member, by rw [written]; rfl⟩
  have inputs := free _ (List.mem_append_right _ (List.mem_append_left _
    (listed (List.mem_singleton_self authorization.leaf) otherWritten))) _
    (List.mem_append_left _ (List.mem_append_left _ (listed member written))) same
  obtain rfl : otherBytes = bytes := (List.cons.inj (List.append_cancel_left inputs)).2
  exact Except.ok.inj ((decodeLeaf_of_canonicalBytes normal written).symm.trans
    (decodeLeaf_of_canonicalBytes (normal_of_valid valid) otherWritten))

end CollisionFreePaths

/-- The proofs built for a list of leaves are accepted by every valid policy with that root and count, and
without a hash collision nothing else is. -/
theorem authorization_proofs_exact (crypto : IdentityCrypto) (leaves : List ConsensusIdentityLeafV1)
    (policy : ConsensusIdentityPolicyV1) (root : Digest) (proofs : List ConsensusIdentityProofV1)
    (normal : ∀ leaf ∈ leaves, leaf.normalized = leaf)
    (built : buildAuthorizationRootAndProofs crypto leaves = .ok (root, proofs))
    (valid : policy.validate crypto = .ok ()) (rooted : policy.authorizationRoot = hashHex root)
    (counted : policy.authorizedIdentityCount.toNat = leaves.length) :
    proofs.length = leaves.length ∧
    (∀ (index : ℕ) leaf proof policyHash signature, leaves[index]? = some leaf → proofs[index]? = some proof →
      policy.commitmentHash crypto = .ok policyHash →
      ConsensusIdentityAuthorizationV1.validateMembership crypto
        { schemaVersion := consensusIdentityAuthorizationVersion, policyHash := policyHash, leaf := leaf,
          proof := proof, blockSignatureHex := signature } policy = .ok ()) ∧
    ∀ authorization, CollisionFreePaths crypto leaves authorization →
      authorization.validateMembership crypto policy = .ok () →
      leaves[authorization.proof.leafIndex.toNat]? = some authorization.leaf ∧
        proofs[authorization.proof.leafIndex.toNat]? = some authorization.proof := by
  obtain ⟨hashes, hashed, size, top, length, paths⟩ := build_eq_ok built
  have small := policy.authorizedIdentityCount.isLt
  have levels := Nat.lt_size_self (leaves.length - 1)
  refine ⟨length, ?_, ?_⟩
  · intro index leaf proof policyHash signature found proved committed
    have inside := (List.getElem?_eq_some_iff.mp found).1
    obtain ⟨hash, hashAt, leafHashed⟩ := leafHash_at hashed found
    obtain rfl := Option.some.inj ((paths index inside).symm.trans proved)
    have word : (BitVec.ofNat 32 index).toNat = index := by
      rw [BitVec.toNat_ofNat]
      exact Nat.mod_eq_of_lt (by omega)
    have climbs : (ascend (merkleParent crypto) (Nat.size (leaves.length - 1)) hashes)[
        index / 2 ^ Nat.size (leaves.length - 1)]? = some _ := getElem?_ascend (merkleParent crypto) hashAt
    rw [top, Nat.div_eq_of_lt (by omega : index < 2 ^ Nat.size (leaves.length - 1)), List.getElem?_cons_zero,
      Option.some.injEq] at climbs
    refine validateMembership_eq_ok.mpr ⟨rfl, valid,
      valid_of_hashed (normal leaf (List.mem_of_getElem? found)) leafHashed,
      committed, ?_, hash, _, leafHashed, rfl, ?_, ?_⟩
    · rw [BitVec.lt_def, word]
      omega
    · rw [counted]
      exact length_path (merkleParent crypto) hashAt
    · rw [rooted, climbs, word]
  · intro authorization free member
    obtain ⟨_, _, leafValid, _, below, leafHash, siblings, leafHashed, spelled, depth, rootText⟩ :=
      validateMembership_eq_ok.mp member
    have inside : authorization.proof.leafIndex.toNat < leaves.length := counted ▸ BitVec.lt_def.mp below
    have found := List.getElem?_eq_getElem inside
    obtain ⟨hash, hashAt, treeHashed⟩ := leafHash_at hashed found
    have reaches : (ascend (merkleParent crypto) (Nat.size (leaves.length - 1)) hashes)[
        authorization.proof.leafIndex.toNat / 2 ^ Nat.size (leaves.length - 1)]? =
        some (climb (merkleParent crypto) authorization.proof.leafIndex.toNat leafHash siblings) := by
      rw [top, Nat.div_eq_of_lt (by omega), List.getElem?_cons_zero, ← hashHex_injective (rooted.symm.trans rootText)]
    obtain ⟨rfl, rfl⟩ := eq_of_climb (merkleParent crypto) hashAt (counted ▸ depth)
      (free.injOn_pairs hashed leafHashed spelled) reaches
    constructor
    · rw [found, free.leaf_eq (List.getElem_mem inside) (normal _ (List.getElem_mem inside))
        leafValid treeHashed leafHashed]
    · rw [paths _ inside, ← spelled]
      simp

open AuthorizedTrio in
theorem authorization_proofs_exact_trio :
    (∃ proof, buildAuthorizationRootAndProofs library trio = .ok (root, proof)) ∧
      CollisionFreePaths library trio authorization ∧
      trio[2]? = some authorization.leaf := by
  -- One evaluation for the three facts: they read the same hashes.
  obtain ⟨built, free, normal⟩ : buildAuthorizationRootAndProofs library trio = .ok (root, [
        { leafIndex := 0, siblings := [hashHex (leafHash 1), hashHex rightNode] },
        { leafIndex := 1, siblings := [hashHex (leafHash 0), hashHex rightNode] },
        { leafIndex := 2, siblings := [hashHex (leafHash 2), hashHex leftNode] }]) ∧
      CollisionFreePaths library trio authorization ∧ ∀ leaf ∈ trio, leaf.normalized = leaf := by
    unfold CollisionFreePaths
    decide +kernel
  obtain ⟨-, -, members⟩ := authorization_proofs_exact library trio policy root _ normal built policy_valid rfl rfl
  exact ⟨⟨_, built⟩, free, (members authorization free authorization_member).1⟩

end P2PoolBTC.Soundness
