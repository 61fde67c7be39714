import P2PoolBTC.Math.CaseFolding
import P2PoolBTC.Model.Node.StratumWork

/-! # Merkle branches of mining jobs

The branch of a job is collected with a placeholder for the coinbase. Whatever coinbase a miner submits, hashing
its identifier up the branch gives the Merkle root of the block, in the node and in the check of a share.
-/

namespace P2PoolBTC.Soundness

open Math Model.Core Model.Node

/-- The Merkle root of a block: neighbours are hashed together, a last one without a neighbour with itself,
until one hash is left. -/
def blockMerkleRoot (crypto : Crypto) (txids : List Digest) : Digest :=
  (MerkleTree.collapse (hashPair crypto) txids.length txids).headD Digest.zero

variable {crypto : Crypto}

theorem isHexOfLength_displayHash (txid : Digest) : IsHexOfLength (displayHash txid) (32 * 2) :=
  isHexOfLength_hexEncode (by rw [List.length_reverse, txid.size])

theorem displayHashToHeaderOrderBytes_eq_ok {hash : Text} {txid : Digest} :
    displayHashToHeaderOrderBytes crypto hash = .ok txid ↔ toAsciiLowercase hash = displayHash txid := by
  simp only [displayHashToHeaderOrderBytes, validateHexExact, except_bind_eq_ok, require_eq_ok, okOr_eq_ok,
    exists_const, hexDecode?_toAsciiLowercase]
  constructor
  · rintro ⟨-, bytes, decoded, ended⟩
    split at ended
    · cases ended
      rw [displayHash, List.reverse_reverse, hexEncode_of_hexDecode? decoded]
    · cases ended
  · intro same
    have digits : IsHexOfLength (toAsciiLowercase hash) (32 * 2) := same ▸ isHexOfLength_displayHash txid
    refine ⟨(isHexOfLength_toAsciiLowercase hash _).mp digits, txid.bytes.reverse, ?_, ?_⟩
    · rw [← hexDecode?_toAsciiLowercase, same, displayHash, hexDecode?_hexEncode]
    · simp only [List.reverse_reverse, txid.size, dite_true]
      rfl

/-- Exactly the texts of hashes are read. -/
theorem isHexOfLength_iff_displayHash {hash : Text} :
    IsHexOfLength hash 64 ↔ toAsciiLowercase hash ∈ Set.range displayHash := by
  constructor
  · intro digits
    obtain ⟨bytes, decoded⟩ := exists_hexDecode? digits.2 (by rw [digits.1])
    have length := byteLength_of_hexDecode? decoded
    have size : bytes.reverse.length = 32 := by
      rw [List.length_reverse]
      have := digits.1
      omega
    exact ⟨⟨bytes.reverse, size⟩, by rw [displayHash, List.reverse_reverse, hexEncode_of_hexDecode? decoded]⟩
  · rintro ⟨txid, same⟩
    exact (isHexOfLength_toAsciiLowercase hash 64).mp (same ▸ isHexOfLength_displayHash txid)

/-- The loop collects the neighbours of the first entry, whatever that entry is. -/
theorem collectBranches_eq {fuel : ℕ} {rest : List Digest} (enough : rest.length ≤ fuel) (first : Digest) :
    collectBranches crypto (fuel + 1) (first :: rest) 0 =
      .ok ((MerkleTree.spine (hashPair crypto) fuel rest).map hashHex) := by
  induction fuel generalizing first rest with
  | zero =>
    obtain rfl := List.length_eq_zero_iff.mp (Nat.le_zero.mp enough)
    rfl
  | succ fuel ih =>
    cases rest with
    | nil => rfl
    | cons sibling more =>
      have halved := MerkleTree.length_parents (hashPair crypto) more
      rw [List.length_cons] at enough
      rw [collectBranches, if_pos (by simp), MerkleTree.parents]
      simp [ih (by omega : (MerkleTree.parents (hashPair crypto) more).length ≤ fuel), MerkleTree.spine]

private theorem coinbaseMerkleBranches_eq_ok {transactionHashes branches : List Text} :
    coinbaseMerkleBranches crypto transactionHashes = .ok branches ↔
      ∃ txids : List Digest, transactionHashes.map toAsciiLowercase = txids.map displayHash ∧
        txids.length < 2 ^ 512 ∧
        branches = (MerkleTree.spine (hashPair crypto) (txids.length + 1) txids).map hashHex := by
  have decodes (txids : List Digest) : transactionHashes.mapM (displayHashToHeaderOrderBytes crypto) = .ok txids ↔
      transactionHashes.map toAsciiLowercase = txids.map displayHash := by
    rw [except_mapM_eq_ok_iff, ← List.forall₂_eq_eq_eq, List.forall₂_map_left_iff, List.forall₂_map_right_iff]
    simp only [displayHashToHeaderOrderBytes_eq_ok]
  simp only [coinbaseMerkleBranches, except_bind_eq_ok, decodes]
  refine exists_congr fun txids => and_congr_right fun _ => ?_
  have bounded := MerkleTree.length_spine_le_iff (hashPair crypto) (Nat.le_succ txids.length) 512
  rw [List.length_cons, collectBranches_eq (Nat.le_succ _)]
  simp only [Except.ok.injEq, exists_eq_left', require_eq_ok, exists_const, List.length_map,
    Model.Node.maxMerkleBranches, bounded]
  exact and_congr_right fun _ => ⟨fun ended => (Except.ok.inj ended).symm, fun same => congrArg _ same.symm⟩

/-- The check of a share and the node climb the same tree. -/
theorem climbs_branches (txid : Digest) (siblings : List Digest) :
    climbCoinbaseBranches crypto txid.bytes (siblings.map hashHex) =
        .ok (MerkleTree.climb (hashPair crypto) 0 txid siblings).bytes ∧
      foldMerkleBranches crypto txid (siblings.map hashHex) =
        .ok (MerkleTree.climb (hashPair crypto) 0 txid siblings) := by
  induction siblings generalizing txid with
  | nil => exact ⟨rfl, rfl⟩
  | cons sibling rest ih =>
    have digits : IsHexOfLength (hashHex sibling) (32 * 2) := isHexOfLength_hexEncode sibling.size
    have bytes : hexDecode? (hashHex sibling) = some sibling.bytes := hexDecode?_hexEncode _
    obtain ⟨climbed, folded⟩ := ih (hashPair crypto txid sibling)
    constructor
    · rw [List.map_cons, climbCoinbaseBranches, decodeExactHex, require_of_true digits, except_ok_bind, bytes]
      exact climbed
    · rw [List.map_cons, foldMerkleBranches, decodeHexExactBytes, validateHexExact, require_of_true digits,
        except_ok_bind, hexDecode?_toAsciiLowercase, bytes]
      exact folded

private theorem blockMerkleRoot_cons (txid : Digest) (txids : List Digest) : blockMerkleRoot crypto (txid :: txids) =
    MerkleTree.climb (hashPair crypto) 0 txid (MerkleTree.spine (hashPair crypto) (txids.length + 1) txids) := by
  rw [blockMerkleRoot, List.length_cons, MerkleTree.collapse_cons _ (Nat.le_succ _)]
  rfl

/-- A job gets branches for every list of transaction hashes that its limit of branches allows. Hashing the
identifier of any coinbase up these branches gives the Merkle root of the block with that coinbase before the
transactions, in the check of a share and in the header of a submission. -/
theorem merkle_branches_reach_root (crypto : Crypto) (transactionHashes : List Text) :
    ((∃ branches, coinbaseMerkleBranches crypto transactionHashes = .ok branches) ↔
      (∀ hash ∈ transactionHashes, IsHexOfLength hash 64) ∧ transactionHashes.length < 2 ^ 512) ∧
    ∀ branches, coinbaseMerkleBranches crypto transactionHashes = .ok branches →
      ∃ txids : List Digest, transactionHashes.map toAsciiLowercase = txids.map displayHash ∧
        (∀ coinbase : CoinbaseTransaction,
          climbCoinbaseBranches crypto coinbase.txid.bytes branches =
              .ok (blockMerkleRoot crypto (coinbase.txid :: txids)).bytes ∧
            headerMerkleRoot crypto coinbase branches = .ok (blockMerkleRoot crypto (coinbase.txid :: txids))) ∧
        ∀ (job : StratumJob) (submit : SubmitWork) (extranonce1 header : Text), job.merkleBranches = branches →
          buildHeaderHexFromSubmit crypto job submit extranonce1 = .ok header →
          ∃ (coinbaseHex : Text) (bytes : List UInt8) (coinbase : CoinbaseTransaction),
            coinbaseTxHexFromSubmit job submit extranonce1 = .ok coinbaseHex ∧
            hexDecode? coinbaseHex = some bytes ∧ decodeCoinbaseTransaction crypto bytes = .ok coinbase ∧
            header = toAsciiLowercase job.version ++ toAsciiLowercase job.prevhash ++
              hashHex (blockMerkleRoot crypto (coinbase.txid :: txids)) ++ toAsciiLowercase submit.ntime ++
              toAsciiLowercase job.nbits ++ toAsciiLowercase submit.nonce := by
  simp only [coinbaseMerkleBranches_eq_ok]
  constructor
  · have texts : (∀ hash ∈ transactionHashes, IsHexOfLength hash 64) ↔
        transactionHashes.map toAsciiLowercase ∈ Set.range (List.map displayHash) := by
      rw [Set.range_list_map, Set.mem_ofPred_eq, List.forall_mem_map]
      simp only [isHexOfLength_iff_displayHash]
    have lengths {txids : List Digest} (same : txids.map displayHash = transactionHashes.map toAsciiLowercase) :
        txids.length = transactionHashes.length := by
      simpa only [List.length_map] using congrArg List.length same
    rw [texts]
    constructor
    · rintro ⟨_, txids, same, short, -⟩
      exact ⟨⟨txids, same.symm⟩, lengths same.symm ▸ short⟩
    · rintro ⟨⟨txids, same⟩, short⟩
      exact ⟨_, txids, same.symm, (lengths same).symm ▸ short, rfl⟩
  · rintro _ ⟨txids, same, -, rfl⟩
    have climbed (coinbase : CoinbaseTransaction) := @climbs_branches crypto coinbase.txid
      (MerkleTree.spine (hashPair crypto) (txids.length + 1) txids)
    have rooted (coinbase : CoinbaseTransaction) : headerMerkleRoot crypto coinbase
        ((MerkleTree.spine (hashPair crypto) (txids.length + 1) txids).map hashHex) =
          .ok (blockMerkleRoot crypto (coinbase.txid :: txids)) := by
      have read : displayHashToHeaderOrderBytes crypto (displayHash coinbase.txid) = .ok coinbase.txid :=
        displayHashToHeaderOrderBytes_eq_ok.mpr (hexEncode_lowercase _)
      rw [headerMerkleRoot, read, except_ok_bind, (climbed coinbase).2, blockMerkleRoot_cons]
    refine ⟨txids, same, fun coinbase => ⟨?_, rooted coinbase⟩, ?_⟩
    · rw [(climbed coinbase).1, blockMerkleRoot_cons]
    · intro job submit extranonce1 header offered built
      simp only [buildHeaderHexFromSubmit, offered, rooted, except_bind_eq_ok, okOr_eq_ok, Except.ok.injEq,
        exists_eq_left'] at built
      obtain ⟨-, -, coinbaseHex, joined, bytes, decoded, coinbase, read, -, -, ended⟩ := built
      exact ⟨coinbaseHex, bytes, coinbase, joined, decoded, read, (Except.ok.inj ended).symm⟩

namespace BranchSample

/-- The hash function on the one pair that the branches of two transactions hash: the last one with itself. -/
def branchCrypto : Crypto := Crypto.ofTables
  { sha256d := [(List.replicate 128 '2',
      hexText 64 0x1e195ab43b27f0aec7055b81277c8f0ade35b1246a8d44c9aadb4ce7431f3108)] }

def transactionHashes : List Text := [List.replicate 64 '1', List.replicate 64 '2']

def branches : List Text :=
  [List.replicate 64 '1', hexText 64 0x1e195ab43b27f0aec7055b81277c8f0ade35b1246a8d44c9aadb4ce7431f3108]

end BranchSample

open BranchSample in
theorem merkle_branches_reach_root_pair : coinbaseMerkleBranches branchCrypto transactionHashes = .ok branches ∧
    ∃ txids : List Digest, transactionHashes.map toAsciiLowercase = txids.map displayHash ∧
      ∀ coinbase : CoinbaseTransaction, climbCoinbaseBranches branchCrypto coinbase.txid.bytes branches =
        .ok (blockMerkleRoot branchCrypto (coinbase.txid :: txids)).bytes := by
  have collected : coinbaseMerkleBranches branchCrypto transactionHashes = .ok branches := by decide
  obtain ⟨txids, same, rooted, -⟩ := (merkle_branches_reach_root branchCrypto _).2 _ collected
  exact ⟨collected, txids, same, fun coinbase => (rooted coinbase).1⟩

end P2PoolBTC.Soundness
