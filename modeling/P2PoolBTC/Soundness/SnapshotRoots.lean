import P2PoolBTC.Math.MerkleTree
import P2PoolBTC.Soundness.IdentityRewards

/-! # Snapshots with equal roots

An odd level of the tree joins its last hash with itself, so lists of different lengths can have one root. Verification
refuses an address that occurs twice. The hashes of every level are then different, and the root determines the leaves.
-/

namespace P2PoolBTC.Soundness

open Math Model.Core Std MerkleTree

variable {crypto : Crypto}

/-! ## Roots of different leaves -/

/-- The parent of two hashes. -/
def nodeHash (crypto : Crypto) (left right : Digest) : Digest := crypto.sha256Tagged (.merkleNode left right)

private theorem merkleLevel_eq (level : List Digest) : merkleLevel crypto level = parents (nodeHash crypto) level := by
  induction level using parents.induct with
  | case1 => rfl
  | case2 only => rfl
  | case3 left right rest ih => rw [merkleLevel, ih, parents, nodeHash]

/-- The climb ends at the only entry of the highest level. -/
theorem ascend_eq_climb {steps : ℕ} {first : Digest} {rest : List Digest} (enough : rest.length ≤ steps) :
    ascend (nodeHash crypto) (Nat.size rest.length) (first :: rest) = [merkleClimb crypto steps first rest] := by
  induction steps generalizing first rest with
  | zero =>
    obtain rfl := List.length_eq_zero_iff.mp (Nat.le_zero.mp enough)
    rfl
  | succ steps ih =>
    cases rest with
    | nil => rfl
    | cons second rest =>
      have half : Nat.size (rest.length + 1) = Nat.size (parents (nodeHash crypto) rest).length + 1 := by
        rw [length_parents, size_half (Nat.succ_pos _)]
      rw [List.length_cons] at enough ⊢
      rw [half, ascend_succ, parents, merkleClimb, merkleLevel_eq]
      exact ih (by rw [length_parents]; omega)

/-- The levels above some hashes. -/
def treeDepth (hashes : List Digest) : ℕ := Nat.size (hashes.length - 1)

/-- The hashes of some leaves. -/
def hashesOf (crypto : Crypto) (leaves : List HashPreimage) : List Digest := leaves.map crypto.sha256Tagged

theorem ascend_eq_root {leaves : List HashPreimage} (nonempty : leaves ≠ []) :
    ascend (nodeHash crypto) (treeDepth (hashesOf crypto leaves)) (hashesOf crypto leaves) =
      [merkleRootHashes crypto (hashesOf crypto leaves)] := by
  cases leaves with
  | nil => exact absurd rfl nonempty
  | cons first rest => exact ascend_eq_climb (Nat.le_succ (hashesOf crypto rest).length)

/-- The pairs that are joined above the hashes of some leaves. -/
def joinedAbove (crypto : Crypto) (leaves : List HashPreimage) : List (Digest × Digest) :=
  joined (nodeHash crypto) (treeDepth (hashesOf crypto leaves)) (hashesOf crypto leaves)

/-- What is hashed for the root of some leaves. -/
def rootPreimages (crypto : Crypto) (leaves : List HashPreimage) : List HashPreimage :=
  if leaves = [] then [.merkleEmpty]
  else leaves ++ (joinedAbove crypto leaves).map fun pair => .merkleNode pair.1 pair.2

/-- Neither the preimage of an inner hash nor that of an empty tree. -/
def IsLeafPreimage (preimage : HashPreimage) : Prop :=
  preimage ≠ .merkleEmpty ∧ ∀ left right, preimage ≠ .merkleNode left right

/-- Leaves that are different, and whose root is computed from preimages of a family. -/
structure TreeWithin (crypto : Crypto) (preimages : Set HashPreimage) (leaves : List HashPreimage) : Prop where
  distinct : leaves.Nodup
  isLeaf : ∀ leaf ∈ leaves, IsLeafPreimage leaf
  within : ∀ preimage ∈ rootPreimages crypto leaves, preimage ∈ preimages

section Roots

variable {preimages : Set HashPreimage} {leaves left right : List HashPreimage}

namespace TreeWithin

theorem parts (tree : TreeWithin crypto preimages leaves) (nonempty : leaves ≠ []) :
    (∀ leaf ∈ leaves, leaf ∈ preimages) ∧
      ∀ pair ∈ joinedAbove crypto leaves, HashPreimage.merkleNode pair.1 pair.2 ∈ preimages := by
  have within := tree.within
  rwa [rootPreimages, if_neg nonempty, List.forall_mem_append, List.forall_mem_map] at within

variable (free : CollisionFree crypto preimages)
include free

private theorem root_ne_empty (tree : TreeWithin crypto preimages leaves) (nonempty : leaves ≠ [])
    (empty : .merkleEmpty ∈ preimages) :
    merkleRootHashes crypto (hashesOf crypto leaves) ≠ crypto.sha256Tagged .merkleEmpty := by
  intro same
  obtain ⟨leavesWithin, nodesWithin⟩ := tree.parts nonempty
  have top : crypto.sha256Tagged .merkleEmpty ∈
      ascend (nodeHash crypto) (treeDepth (hashesOf crypto leaves)) (hashesOf crypto leaves) := by
    rw [ascend_eq_root nonempty, same]
    exact List.mem_singleton_self _
  unfold joinedAbove at nodesWithin
  cases depthEq : treeDepth (hashesOf crypto leaves) with
  | zero =>
    rw [depthEq] at top
    obtain ⟨leaf, listed, hashes⟩ := List.mem_map.mp top
    exact (tree.isLeaf leaf listed).1 (free (leavesWithin leaf listed) empty hashes)
  | succ depth =>
    rw [depthEq] at top nodesWithin
    obtain ⟨pair, listed, hashes⟩ := exists_joined _ top
    cases free (nodesWithin pair listed) empty hashes

/-- Leaves with the root of a tree that is no deeper are the leaves of that tree. -/
theorem eq_of_depth_le (leftTree : TreeWithin crypto preimages left) (rightTree : TreeWithin crypto preimages right)
    (leftNonempty : left ≠ []) (rightNonempty : right ≠ [])
    (ordered : treeDepth (hashesOf crypto left) ≤ treeDepth (hashesOf crypto right))
    (same : merkleRootHashes crypto (hashesOf crypto left) =
      merkleRootHashes crypto (hashesOf crypto right)) : left = right := by
  obtain ⟨leftWithin, leftNodes⟩ := leftTree.parts leftNonempty
  obtain ⟨rightWithin, rightNodes⟩ := rightTree.parts rightNonempty
  have nodup {leaves : List HashPreimage} (distinct : leaves.Nodup) (within : ∀ leaf ∈ leaves, leaf ∈ preimages) :
      (hashesOf crypto leaves).Nodup :=
    distinct.map_on fun leaf listed other otherListed => free (within leaf listed) (within other otherListed)
  have injective : Set.InjOn (fun pair : Digest × Digest => nodeHash crypto pair.1 pair.2)
      {pair | pair ∈ joinedAbove crypto left ++ joinedAbove crypto right} := by
    have within := List.forall_mem_append.mpr ⟨leftNodes, rightNodes⟩
    intro pair listed other otherListed hashes
    obtain ⟨first, second⟩ := HashPreimage.merkleNode.inj (free (within pair listed) (within other otherListed) hashes)
    exact Prod.ext first second
  obtain ⟨extra, deeper⟩ := Nat.exists_eq_add_of_le' ordered
  have split := joined_add (nodeHash crypto) extra (treeDepth (hashesOf crypto left)) (hashesOf crypto right)
  have climbed : ascend (nodeHash crypto) (treeDepth (hashesOf crypto left)) (hashesOf crypto left) =
      ascend (nodeHash crypto) (treeDepth (hashesOf crypto left))
        (ascend (nodeHash crypto) extra (hashesOf crypto right)) := by
    rw [ascend_eq_root leftNonempty, same, ← ascend_eq_root rightNonempty, deeper, add_comm extra]
    exact Function.iterate_add_apply _ _ _ _
  rw [← deeper, ← joinedAbove] at split
  have level := eq_of_ascend (nodeHash crypto) (nodup leftTree.distinct leftWithin)
    (nodup_ascend (nodeHash crypto) (nodup rightTree.distinct rightWithin) (injective.mono fun pair listed =>
      List.mem_append_right _ (split ▸ List.mem_append_left _ listed)))
    (injective.mono fun pair listed => by
      rcases List.mem_append.mp listed with here | there
      · exact List.mem_append_left _ here
      · exact List.mem_append_right _ (split ▸ List.mem_append_right _ there)) climbed
  cases extra with
  | zero => exact map_injOn free leftWithin rightWithin level
  | succ extra =>
    -- The leaves of the smaller tree would be hashes of inner nodes.
    obtain ⟨leaf, listed⟩ := List.exists_mem_of_ne_nil _ leftNonempty
    have hashed : crypto.sha256Tagged leaf ∈ hashesOf crypto left := List.mem_map_of_mem listed
    rw [level] at hashed
    obtain ⟨pair, inner, hashes⟩ := exists_joined _ hashed
    exact absurd (free (rightNodes pair (split ▸ List.mem_append_left _ inner)) (leftWithin leaf listed) hashes).symm
      ((leftTree.isLeaf leaf listed).2 _ _)

private theorem eq_of_root (leftTree : TreeWithin crypto preimages left) (rightTree : TreeWithin crypto preimages right)
    (same : merkleRoot crypto left = merkleRoot crypto right) : left = right := by
  have roots := hashHex_injective same
  by_cases leftEmpty : left = []
  · by_cases rightEmpty : right = []
    · rw [leftEmpty, rightEmpty]
    · subst leftEmpty
      exact absurd roots.symm (rightTree.root_ne_empty free rightEmpty (leftTree.within _ List.mem_cons_self))
  · by_cases rightEmpty : right = []
    · subst rightEmpty
      exact absurd roots (leftTree.root_ne_empty free leftEmpty (rightTree.within _ List.mem_cons_self))
    · rcases Nat.le_total (treeDepth (hashesOf crypto left)) (treeDepth (hashesOf crypto right)) with
        ordered | ordered
      · exact leftTree.eq_of_depth_le free rightTree leftEmpty rightEmpty ordered roots
      · exact (rightTree.eq_of_depth_le free leftTree rightEmpty leftEmpty ordered roots.symm).symm

end TreeWithin

end Roots

/-! ## Verified snapshots -/

/-- The normal forms of the leaves in address order. -/
def canonicalLeaves (snapshot : Snapshot) : List SnapshotLeaf :=
  sortBy compareLeaves (snapshot.leaves.map SnapshotLeaf.normalized)

instance : TransCmp compareLeaves := inferInstanceAs (TransCmp (compareOn _))

/-- Sorted leaves that were validated have different addresses. -/
theorem nodup_of_validateLeaves {version : U16} {identityRoot : Text} {previous : Option Text}
    {leaves : List SnapshotLeaf}
    (sorted : leaves.Pairwise fun left right => (compareLeaves left right).isLE = true)
    (validated : Snapshot.validateLeaves version identityRoot previous leaves = .ok ()) : leaves.Nodup := by
  induction leaves generalizing previous with
  | nil => exact List.nodup_nil
  | cons leaf rest ih =>
    simp only [Snapshot.validateLeaves, except_bind_eq_ok, require_eq_ok, exists_const] at validated
    obtain ⟨_, -, -, -, -, validated⟩ := validated
    obtain ⟨least, sorted⟩ := List.pairwise_cons.mp sorted
    refine List.nodup_cons.mpr ⟨fun listed => ?_, ih sorted validated⟩
    cases rest with
    | nil => cases listed
    | cons next later =>
      -- The next leaf lies between two leaves with one address.
      simp only [Snapshot.validateLeaves, except_bind_eq_ok, require_eq_ok, exists_const] at validated
      obtain ⟨_, -, -, different, -⟩ := validated
      have between : (compareLeaves next leaf).isLE = true := by
        rcases List.mem_cons.mp listed with rfl | behind
        · exact least leaf List.mem_cons_self
        · exact (List.pairwise_cons.mp sorted).1 leaf behind
      apply different
      exact congrArg some (compare_eq_iff_eq.mp (OrientedCmp.isLE_antisymm (least next List.mem_cons_self) between))

private theorem verifyScoreRoot_ok {snapshot : Snapshot} (verified : snapshot.verifyScoreRoot crypto = .ok ()) :
    (canonicalLeaves snapshot).Nodup ∧
      snapshot.scoreRoot = merkleRoot crypto ((canonicalLeaves snapshot).map .merkleSnapshotLeaf) := by
  simp only [Snapshot.verifyScoreRoot, except_bind_eq_ok, require_eq_ok, exists_const] at verified
  obtain ⟨-, _, validated, root⟩ := verified
  exact ⟨nodup_of_validateLeaves (sortBy_pairwise _ _) validated, root⟩

/-- What is hashed to verify a snapshot. -/
def snapshotPreimages (crypto : Crypto) (snapshot : Snapshot) : List HashPreimage :=
  rootPreimages crypto ((canonicalLeaves snapshot).map .merkleSnapshotLeaf)

/-- Two verified snapshots with one root have the same normal forms of leaves, however many they have, when the hashes
that their verification computes do not collide. -/
theorem score_root_binds_leaves (crypto : Crypto) (first second : Snapshot)
    (free : CollisionFree crypto
      {preimage | preimage ∈ snapshotPreimages crypto first ++ snapshotPreimages crypto second})
    (firstVerified : first.verifyScoreRoot crypto = .ok ()) (secondVerified : second.verifyScoreRoot crypto = .ok ())
    (same : first.scoreRoot = second.scoreRoot) : canonicalLeaves first = canonicalLeaves second := by
  have injective : Function.Injective HashPreimage.merkleSnapshotLeaf := fun _ _ => HashPreimage.merkleSnapshotLeaf.inj
  have leafOnly (leaves : List SnapshotLeaf) :
      ∀ leaf ∈ leaves.map HashPreimage.merkleSnapshotLeaf, IsLeafPreimage leaf := by
    simp [IsLeafPreimage]
  obtain ⟨firstDistinct, firstRoot⟩ := verifyScoreRoot_ok firstVerified
  obtain ⟨secondDistinct, secondRoot⟩ := verifyScoreRoot_ok secondVerified
  rw [firstRoot, secondRoot] at same
  refine injective.list_map (TreeWithin.eq_of_root free ⟨firstDistinct.map injective, leafOnly _, ?_⟩
    ⟨secondDistinct.map injective, leafOnly _, ?_⟩ same)
  · exact fun preimage => List.mem_append_left _
  · exact fun preimage => List.mem_append_right _

/-- Verification does not depend on the order in which the leaves are listed. -/
theorem score_root_binds_leaves_reversed :
    canonicalLeaves Sample.evenSnapshot =
      canonicalLeaves { Sample.evenSnapshot with leaves := Sample.evenSnapshot.leaves.reverse } := by
  refine score_root_binds_leaves Sample.twinCrypto _ _ ?_ (by decide) (by decide) rfl
  have hashes : ((snapshotPreimages Sample.twinCrypto Sample.evenSnapshot).map
      Sample.twinCrypto.sha256Tagged).Nodup := by
    decide
  refine Set.InjOn.mono ?_ (List.inj_on_of_nodup_map hashes)
  intro preimage listed
  exact (List.mem_append.mp listed).elim id id

end P2PoolBTC.Soundness
