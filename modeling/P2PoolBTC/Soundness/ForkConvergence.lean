import P2PoolBTC.Math.MerkleTree
import P2PoolBTC.Model.Node.ForkSync
import P2PoolBTC.Soundness.ForkCalls
import P2PoolBTC.Soundness.ForkRecovery

/-! # Convergence of two peers

A node that synchronizes with a peer ends up with every block of the peer's active chain, because each
of them extends a block it already has, was valid for the peer and stays valid for it. The tip is the
block of the highest rank, and ranks agree, so after both nodes have synchronized they have the same tip.
-/

namespace P2PoolBTC.Soundness

open Math Std Model.Core Model.Node ForkChainStore

variable {store peer : ForkChainStore} {nowUnix : U64} {branch : Branch} {family : Set Block}
  {lib : ForkPrimitives} {status : ForkChainStatus} {state : ForkBranchState}

/-! ## Stores that peers can be served from -/

/-- The text of a stored block can be submitted and its record fits the log. -/
def Relayable (lib : ForkPrimitives) (config : ForkChainConfig) (node : BlockNode) : Prop :=
  Submits lib node.blockHex node.blockHex node.block ∧ FitsLine config node.blockHex

/-- What holds of every reached store beyond the fork choice: its blocks can be relayed and there is a
height above the tip. -/
structure PeerReady (lib : ForkPrimitives) (store : ForkChainStore) : Prop where
  sound : SoundFork lib store
  relayable : ∀ hash node, store.lookup hash = some node → Relayable lib store.toForkChainConfig node
  below : ∀ tip node, store.activeTip = some tip → store.lookup tip = some node →
    ∃ next, checkedAdd node.height 1 = some next

theorem SoundFork.status_ok (sound : SoundFork lib store) : ∃ status, store.status = .ok status := by
  cases active : store.activeTip with
  | none => exact ⟨_, status_of_none active⟩
  | some tip =>
    obtain ⟨node, stored⟩ := sound.tip_stored tip active
    exact ⟨_, status_of_tip active stored⟩

section Accepting

variable {before after : ForkChainStore} {block : Block} {normalized : Text} {acceptance : ForkBlockAcceptance}

theorem acceptBlock_blocks (returned : acceptBlock lib block normalized nowUnix before = .ok acceptance after) :
    ∃ node, before.validateBlock lib block normalized nowUnix = .ok node ∧
      FitsLine before.toForkChainConfig normalized ∧ after.toForkChainConfig = before.toForkChainConfig ∧
      (∀ other, after.lookup other = if blockHash lib block = other then some node else before.lookup other) ∧
      (before.activeTip = after.activeTip ∨ Revalidates lib after) := by
  obtain ⟨node, stored, validated, fits, storing, reported⟩ := acceptBlock_eq_ok.mp returned
  obtain ⟨config, blocks⟩ := storeBlock_blocks (logged normalized before) (.inl ⟨_, storing⟩)
  have only : OnlyMempool stored after := (reportAcceptance_frame _ _ _ stored).of_ok reported
  have reports := reportAcceptance_ok_iff.mp ⟨_, _, reported⟩
  obtain ⟨_, _, rfl⟩ := only
  refine ⟨node, validated, fits, config, fun other => ?_, ?_⟩
  · change stored.blocks[other]? = _
    rw [blocks]
    exact getElem?_insert_eq before.blocks _ other node
  · by_cases same : before.activeTip = stored.activeTip
    · exact .inl same
    · exact .inr (reports.2 same)

/-- A valid block that is not stored yet is accepted when its branch can be replayed and indexed and there is a height
above it. -/
theorem SoundFork.acceptBlock_returns {node : BlockNode} {rest : Branch} (sound : SoundFork lib before)
    (unknown : before.lookup (blockHash lib block) = none)
    (validated : before.validateBlock lib block normalized nowUnix = .ok node)
    (found : BranchOf before (before.attachment block) rest)
    (fits : FitsLine before.toForkChainConfig normalized) (above : ∃ next, checkedAdd node.height 1 = some next)
    (replayed : ∃ state, stateOn lib ((blockHash lib block, node) :: rest) = .ok state)
    (indexed : ∃ explorer, explorerIndex lib (((blockHash lib block, node) :: rest).reverse.map activeOf) =
      .ok explorer) :
    ∃ acceptance after, acceptBlock lib block normalized nowUnix before = .ok acceptance after := by
  obtain ⟨rfl, -, other, attached, valid⟩ := sound.rooted.validated validated
  obtain rfl : other = rest := Trail.unique attached found
  have soundLogged := (SameChain.logged normalized before).sound sound
  have unknownLogged : (logged normalized before).lookup (blockHash lib node.block) = none := unknown
  have attachedLogged : BranchOf (logged normalized before)
    ((logged normalized before).attachment node.block) other := attached
  obtain ⟨stored, storing, moves⟩ : ∃ stored,
      storeBlock lib (blockHash lib node.block) node (logged normalized before) = .ok () stored ∧
      (before.activeTip ≠ stored.activeTip → Revalidates lib stored) := by
    rcases SoundFork.storeBlock_eq unknownLogged attachedLogged soundLogged with ⟨-, storing⟩ | ⟨-, storing⟩
    · exact ⟨_, storing, fun moved => absurd rfl moved⟩
    · obtain ⟨state, replayed⟩ := replayed
      obtain ⟨explorer, built⟩ := indexed
      obtain ⟨next, sum⟩ := above
      have branch : BranchOf (withBlock lib (blockHash lib node.block) node (logged normalized before))
        (some (blockHash lib node.block)) _ := attachedLogged.grown_new unknownLogged
      rw [explored_eq branch valid, built] at storing
      have active : BranchOf (movedTip lib (blockHash lib node.block) node other explorer
        (logged normalized before)) (some (blockHash lib node.block)) _ := branch
      exact ⟨_, storing, fun _ => ⟨_, next, status_of_tip rfl lookup_movedTip, sum, fun _ =>
        ⟨state, active.branchState_eq.trans replayed⟩⟩⟩
  have kept := soundLogged.storing unknownLogged attachedLogged valid storing
  obtain ⟨acceptance, after, reported⟩ := reportAcceptance_ok_iff.mpr ⟨kept.status_ok, moves⟩
  exact ⟨acceptance, after, acceptBlock_eq_ok.mpr ⟨node, stored, validated, fits, storing, reported⟩⟩

namespace PeerReady

private theorem initial (config : ForkChainConfig) : PeerReady lib (emptyStore config) where
  sound := .initial config []
  relayable hash node stored := by
    rw [emptyStore, lookup_empty] at stored
    cases stored
  below tip node active := by cases active

theorem onlyMempool (ready : PeerReady lib before) (only : OnlyMempool before after) :
    PeerReady lib after := by
  have sound := ready.sound.onlyMempool only
  obtain ⟨_, _, rfl⟩ := only
  exact ⟨sound, ready.relayable, ready.below⟩

theorem accepted (ready : PeerReady lib before) (unknown : before.lookup (blockHash lib block) = none)
    (decoded : decodeBlock lib normalized = .ok block) (normal : normalizeBlockHex normalized = .ok normalized)
    (returned : acceptBlock lib block normalized nowUnix before = .ok acceptance after) :
    PeerReady lib after := by
  have sound := ready.sound.accepted (acceptBlock_ok unknown returned)
  obtain ⟨node, validated, fits, config, lookups, tip⟩ := acceptBlock_blocks returned
  obtain ⟨isBlock, text, -⟩ := ready.sound.rooted.validated validated
  refine ⟨sound, ?_, ?_⟩
  · intro other held stored
    rw [lookups] at stored
    rw [config]
    split_ifs at stored
    · obtain rfl := Option.some.inj stored
      rw [Relayable, isBlock, text]
      exact ⟨⟨normal, decoded⟩, fits⟩
    · exact ready.relayable other held stored
  · intro current held active stored
    rcases tip with same | ⟨status, next, known, fitting, -⟩
    · have activeBefore : before.activeTip = some current := same.trans active
      rw [lookups] at stored
      split_ifs at stored with new
      · obtain ⟨earlier, known⟩ := ready.sound.tip_stored current activeBefore
        rw [← new, unknown] at known
        cases known
      · exact ready.below current held activeBefore stored
    · rw [status_of_tip active stored] at known
      cases known
      exact ⟨next, fitting⟩

private theorem run {ops : List ForkOp} (ready : PeerReady lib before)
    (reached : run? (ForkOp.step? lib) before ops = some after) : PeerReady lib after := by
  refine run?_invariant (PeerReady lib) reached ready ?_
  intro store op next _ held stepped
  rcases ForkOp.step?_returned stepped with
    only | ⟨blockHex, nowUnix, normalized, block, _, rfl, submits, unknown, returned⟩
  · exact held.onlyMempool only
  · exact held.accepted unknown submits.2 (normalizeBlockHex_idem submits.1) returned

end PeerReady

end Accepting

/-! ## Blocks without hash collisions -/

/-- The blocks that two stores hold. -/
def occurringBlocks (left right : ForkChainStore) : Set Block :=
  { block | ∃ hash node, (left.lookup hash = some node ∨ right.lookup hash = some node) ∧ node.block = block }

/-- No two of the blocks collide in the hash of their header, the root of their transaction identifiers
or the identifier of a transaction. -/
structure BlocksApart (lib : ForkPrimitives) (family : Set Block) : Prop where
  headers : Set.InjOn lib.headerHash (Block.header '' family)
  roots : Set.InjOn lib.merkleRoot ((fun block => block.txdata.map (computeTxid lib)) '' family)
  txids : Set.InjOn lib.strippedTxid
    { stripped | ∃ block ∈ family, ∃ transaction ∈ block.txdata, transaction.stripped = stripped }

/-- All stored blocks belong to a family. -/
def Within (family : Set Block) (store : ForkChainStore) : Prop :=
  ∀ hash node, store.lookup hash = some node → node.block ∈ family

section Families

variable {left right : ForkChainStore}

/-- Blocks with the same hash are the same up to witnesses. -/
theorem BlocksApart.same_block (free : BlocksApart lib family) {first second : Block} (firstInside : first ∈ family)
    (secondInside : second ∈ family) (firstRoot : checkMerkleRoot lib first = true)
    (secondRoot : checkMerkleRoot lib second = true)
    (hashes : blockHash lib first = blockHash lib second) :
    first.header = second.header ∧ first.txdata.map Transaction.stripped = second.txdata.map Transaction.stripped := by
  have headers : first.header = second.header :=
    free.headers ⟨first, firstInside, rfl⟩ ⟨second, secondInside, rfl⟩ hashes
  simp only [checkMerkleRoot, decide_eq_true_eq] at firstRoot secondRoot
  have identifiers : first.txdata.map (computeTxid lib) = second.txdata.map (computeTxid lib) := by
    refine free.roots ⟨first, firstInside, rfl⟩ ⟨second, secondInside, rfl⟩ ?_
    rw [← firstRoot.2, ← secondRoot.2, headers]
  have stripped (block : Block) : block.txdata.map (computeTxid lib) =
      (block.txdata.map Transaction.stripped).map lib.strippedTxid := by
    rw [List.map_map]
    rfl
  have inside {block : Block} (member : block ∈ family) : ∀ entry ∈ block.txdata.map Transaction.stripped, entry ∈
      { stripped | ∃ block ∈ family, ∃ transaction ∈ block.txdata, transaction.stripped = stripped } := by
    intro entry listed
    obtain ⟨transaction, held, rfl⟩ := List.mem_map.mp listed
    exact ⟨block, member, transaction, held, rfl⟩
  rw [stripped, stripped] at identifiers
  exact ⟨headers, map_injOn free.txids (inside firstInside) (inside secondInside) identifiers⟩

theorem SoundFork.stored_block (sound : SoundFork lib left) {hash : Digest} {node : BlockNode}
    (stored : left.lookup hash = some node) :
    hash = blockHash lib node.block ∧ checkMerkleRoot lib node.block = true := by
  obtain ⟨rest, -, valid⟩ := sound.rooted hash node stored
  cases valid with
  | cons hashed linked admitted valid => exact ⟨hashed, admitted.merkle⟩

theorem BlocksApart.agree (free : BlocksApart lib family) (soundLeft : SoundFork lib left)
    (soundRight : SoundFork lib right) (leftWithin : Within family left) (rightWithin : Within family right) :
    AgreeOnBlocks left right := by
  intro hash first second storedLeft storedRight
  obtain ⟨firstHash, firstRoot⟩ := soundLeft.stored_block storedLeft
  obtain ⟨secondHash, secondRoot⟩ := soundRight.stored_block storedRight
  exact free.same_block (leftWithin hash first storedLeft) (rightWithin hash second storedRight) firstRoot secondRoot
    (firstHash.symm.trans secondHash)

theorem BlocksApart.distinct (free : BlocksApart lib family) (within : Within family left) {tip : Option Digest}
    (found : BranchOf left tip branch) : Set.InjOn lib.strippedTxid (strippedOn branch) := by
  refine free.txids.mono (found.strippedOn_subset.trans ?_)
  rintro stripped ⟨hash, node, stored, transaction, listed, same⟩
  exact ⟨node.block, within hash node stored, transaction, listed, same⟩

end Families

/-! ## Taking over the peer's blocks -/

private theorem submitBlockAtTime_again {blockHex normalized : Text} {block : Block} (sound : SoundFork lib store)
    (submits : Submits lib blockHex normalized block) (known : blockHash lib block ∈ storedHashes store) :
    ∃ acceptance, submitBlockAtTime lib blockHex nowUnix store = .ok acceptance store := by
  obtain ⟨existing, stored⟩ := known
  obtain ⟨status, reported⟩ := sound.status_ok
  rw [submitBlockAtTime, submitBlockAtTimeEnding, Routine.get_bind]
  simp only [submits.1, Routine.settle_ok, pure_bind, submits.2, stored, reported]
  exact ⟨_, rfl⟩

/-- There is a height above every block of the active branch. -/
theorem PeerReady.height_fits (ready : PeerReady lib store) (active : BranchOf store store.activeTip branch)
    (valid : ValidBranch lib store.toForkChainConfig branch) {entry : Digest × BlockNode}
    (member : entry ∈ branch) : ∃ next, checkedAdd entry.2.height 1 = some next := by
  cases branch with
  | nil => cases member
  | cons top rest =>
    obtain ⟨tip, node⟩ := top
    have stored := Trail.stored_of_mem active List.mem_cons_self
    obtain ⟨next, fits⟩ := ready.below tip node active.start_eq stored
    rcases List.mem_cons.mp member with rfl | deeper
    · exact ⟨next, fits⟩
    · have lower := (List.pairwise_cons.mp valid.pairwise_height).1 entry deeper
      have sum := checkedAdd_eq_some.mp fits
      have bound := next.isLt
      obtain ⟨total, added, -⟩ := exists_checkedAdd entry.2.height 1 (by simp only at lower; omega)
      exact ⟨total, added⟩

/-- What a store has after it took blocks over from a peer. -/
structure CaughtUp (lib : ForkPrimitives) (family : Set Block) (peer before after : ForkChainStore) : Prop where
  ready : PeerReady lib after
  config : after.toForkChainConfig = before.toForkChainConfig
  within : Within family after
  keeps : storedHashes before ⊆ storedHashes after
  taken : storedHashes after ⊆ storedHashes before ∪ storedHashes peer

namespace CaughtUp

variable {first second third : ForkChainStore}

theorem refl (ready : PeerReady lib first) (within : Within family first) :
    CaughtUp lib family peer first first :=
  ⟨ready, rfl, within, subset_rfl, Set.subset_union_left⟩

private theorem trans (one : CaughtUp lib family peer first second) (two : CaughtUp lib family peer second third) :
    CaughtUp lib family peer first third :=
  ⟨two.ready, two.config.trans one.config, two.within, one.keeps.trans two.keeps,
    two.taken.trans (Set.union_subset one.taken Set.subset_union_right)⟩

private theorem onlyMempool (caught : CaughtUp lib family peer first second) (only : OnlyMempool second third) :
    CaughtUp lib family peer first third := by
  have ready := caught.ready.onlyMempool only
  obtain ⟨_, _, rfl⟩ := only
  exact ⟨ready, caught.config, caught.within, caught.keeps, caught.taken⟩

end CaughtUp

section Relay

variable {newer older : Branch} {hash : Digest} {node : BlockNode}

/-- The peer serves the text of every block of its active branch at the block's height. -/
theorem activeBlockHex_eq (peerSound : SoundFork lib peer)
    (active : BranchOf peer peer.activeTip (newer ++ (hash, node) :: older)) :
    peer.activeBlockHex (BitVec.ofNat 64 (peer.manifest.forkPoint.firstForkHeight.toNat + older.length)) =
      some node.blockHex := by
  obtain ⟨_, found, valid, index, -⟩ := peerSound.active
  obtain rfl := Trail.unique found active
  have member : (hash, node) ∈ newer ++ (hash, node) :: older := by simp
  have height := (valid.of_suffix (List.suffix_append newer _)).height_eq
  have listed : peer.activeByHeight[BitVec.ofNat 64 (peer.manifest.forkPoint.firstForkHeight.toNat + older.length)]? =
      some hash := by
    rw [index, valid.heightIndex_eq_some]
    refine ⟨node, member, ?_⟩
    rw [← height, BitVec.ofNat_toNat, BitVec.setWidth_eq]
  rw [activeBlockHex, listed, Option.bind_some, Trail.stored_of_mem active member]
  rfl

variable (free : BlocksApart lib family) (ready : PeerReady lib store)
  (peerReady : PeerReady lib peer) (within : Within family store) (peerWithin : Within family peer)
  (config : store.toForkChainConfig = peer.toForkChainConfig)
include free ready peerReady within peerWithin config

section

variable (active : BranchOf peer peer.activeTip (newer ++ (hash, node) :: older))
  (parent : ∀ entry ∈ older.head?, entry.1 ∈ storedHashes store) (timely : Timely nowUnix node.block)
include active parent timely

/-- A new block of the peer's active chain is valid on the branch of its parent, which can be replayed and indexed with
it. -/
theorem admitted_of_peer : ∃ rest, BranchOf store (store.attachment node.block) rest ∧
      Admitted lib store.toForkChainConfig rest nowUnix node ∧
      (∃ state, stateOn lib ((hash, node) :: rest) = .ok state) ∧
      ∃ explorer, explorerIndex lib (((hash, node) :: rest).reverse.map activeOf) = .ok explorer := by
  obtain ⟨_, found, valid, -, built⟩ := peerReady.sound.active
  obtain rfl := Trail.unique found active
  obtain ⟨_, below⟩ := Trail.of_append active
  have suffix := valid.of_suffix (List.suffix_append newer _)
  have distinct := free.distinct peerWithin active
  obtain ⟨state, replayed, -⟩ := suffix.money (distinct.mono strippedOn_suffix)
  cases below with
  | entry storedPeer above =>
  cases suffix with
  | cons hashed linked admitted validOlder =>
  obtain ⟨rest, attached, validRest⟩ : ∃ rest, BranchOf store (store.attachment node.block) rest ∧
      ValidBranch lib store.toForkChainConfig rest := by
    rw [config, linked]
    cases older with
    | nil => exact ⟨[], .stop, .nil⟩
    | cons entry deeper =>
      obtain ⟨held, stored⟩ := parent entry rfl
      obtain ⟨rest, branch, valid⟩ := ready.sound.rooted entry.1 held stored
      exact ⟨_, branch, config ▸ valid⟩
  have agree := free.agree ready.sound peerReady.sound within peerWithin
  have aboveHere : BranchOf peer (store.attachment node.block) older := by
    rw [config]
    exact above
  have cores := map_coreOf_eq config agree attached aboveHere validRest validOlder
  have cores' : ((hash, node) :: rest).map coreOf = ((hash, node) :: older).map coreOf := by
    rw [List.map_cons, List.map_cons, cores]
  refine ⟨rest, attached, ?_, ⟨state, by rw [stateOn_congr cores', replayed]⟩, ?_⟩
  · rw [config]
    exact (admitted.at_time timely).congr cores.symm
  · rw [explorerIndex_congr cores']
    exact valid.explorerIndex_suffix distinct built

/-- A block of the peer's active chain whose parent the store has is accepted or known. -/
theorem relayed_block :
    ∃ acceptance after, submitBlockAtTime lib node.blockHex nowUnix store = .ok acceptance after ∧
      CaughtUp lib family peer store after ∧ hash ∈ storedHashes after := by
  have member : (hash, node) ∈ newer ++ (hash, node) :: older := by simp
  have storedPeer : peer.lookup hash = some node := Trail.stored_of_mem active member
  obtain ⟨submits, fits⟩ := peerReady.relayable hash node storedPeer
  obtain ⟨rfl, -⟩ := peerReady.sound.stored_block storedPeer
  cases unknown : store.lookup (blockHash lib node.block) with
  | some existing =>
    have known : blockHash lib node.block ∈ storedHashes store := ⟨existing, unknown⟩
    obtain ⟨acceptance, returned⟩ := submitBlockAtTime_again ready.sound submits known
    exact ⟨acceptance, store, returned, .refl ready within, known⟩
  | none =>
    obtain ⟨rest, attached, admitted, replayed, indexed⟩ :=
      admitted_of_peer free ready peerReady within peerWithin config
      active parent timely
    obtain ⟨_, peerFound, peerValid, -⟩ := peerReady.sound.active
    obtain rfl := Trail.unique peerFound active
    have validated := (validateBlock_eq_ok_iff attached).mpr ⟨rfl, rfl, admitted⟩
    obtain ⟨acceptance, after, returned⟩ := ready.sound.acceptBlock_returns unknown validated attached (config ▸ fits)
      (peerReady.height_fits active peerValid member) replayed indexed
    obtain ⟨_, again, -, configAfter, lookups, -⟩ := acceptBlock_blocks returned
    obtain rfl := Except.ok.inj (validated.symm.trans again)
    refine ⟨acceptance, after, by rw [submitBlockAtTime_unknown submits unknown, returned],
      ⟨ready.accepted unknown submits.2 submits.1 returned, configAfter, ?_, ?_, ?_⟩, node,
        (lookups _).trans (if_pos rfl)⟩
    · intro other held found
      rw [lookups] at found
      split_ifs at found
      · obtain rfl := Option.some.inj found
        exact peerWithin _ node storedPeer
      · exact within other held found
    · rintro other ⟨held, found⟩
      by_cases same : blockHash lib node.block = other
      · exact ⟨node, (lookups other).trans (if_pos same)⟩
      · exact ⟨held, (lookups other).trans ((if_neg same).trans found)⟩
    · rintro other ⟨held, found⟩
      by_cases same : blockHash lib node.block = other
      · exact .inr ⟨node, same ▸ storedPeer⟩
      · exact .inl ⟨held, ((lookups other).trans (if_neg same)).symm.trans found⟩

end

/-- Submitting the peer's active blocks in order stores them all. -/
theorem submitHeights_ok {clock : ℕ → U64} (timely : ∀ block ∈ family, ∀ height, Timely (clock height) block)
    (pending : Branch) (active : BranchOf peer peer.activeTip (pending.reverse ++ older))
    (parent : ∀ entry ∈ older.head?, entry.1 ∈ storedHashes store) :
    ∃ after, submitHeights lib peer clock pending.length
        (peer.manifest.forkPoint.firstForkHeight.toNat + older.length) store = .ok () after ∧
      CaughtUp lib family peer store after ∧
      ∀ entry ∈ (pending.reverse ++ older).head?, entry.1 ∈ storedHashes after := by
  induction pending generalizing older store with
  | nil => exact ⟨store, rfl, .refl ready within, parent⟩
  | cons entry rest ih =>
    obtain ⟨hash, node⟩ := entry
    rw [List.reverse_cons, List.append_assoc, List.singleton_append] at active ⊢
    have listed : (hash, node) ∈ rest.reverse ++ (hash, node) :: older := by simp
    have stored : peer.lookup hash = some node := Trail.stored_of_mem active listed
    obtain ⟨acceptance, middle, submitted, caught, known⟩ := relayed_block free ready peerReady within peerWithin config
      active parent (timely _ (peerWithin hash node stored)
        (peer.manifest.forkPoint.firstForkHeight.toNat + older.length))
    obtain ⟨after, later, caughtLater, top⟩ := ih caught.ready caught.within (caught.config.trans config) active
      (by rintro _ ⟨⟩; exact known)
    refine ⟨after, ?_, caught.trans caughtLater, top⟩
    rw [List.length_cons, submitHeights, activeBlockHex_eq peerReady.sound active, okOr_some, Routine.attempt_ok,
      Routine.pure_bind_apply, Routine.bind_of_ok submitted]
    exact later

end Relay

/-! ## The common height -/

/-- Both stores report the same active block at a height. -/
def Agreed (store peer : ForkChainStore) (height : ℕ) : Prop :=
  ∃ text, store.activeBlockHash (BitVec.ofNat 64 height) = some text ∧
    peer.activeBlockHash (BitVec.ofNat 64 height) = some text

/-- Bisection ends at its lower bound or at a height inside the window where the stores agree. -/
theorem commonHeight_ok (store peer : ForkChainStore) (fuel low high : ℕ) (ordered : low ≤ high)
    (enough : high - low < fuel) :
    ∃ height, commonHeight store peer fuel low high = .ok height ∧ low ≤ height ∧ height ≤ high ∧
      (height = low ∨ Agreed store peer height) := by
  induction fuel generalizing low high with
  | zero => omega
  | succ fuel ih =>
    rw [commonHeight]
    by_cases inside : low < high
    · rw [if_pos inside]
      dsimp only
      split_ifs with agree
      · obtain ⟨height, found, above, within, agreed⟩ := ih (low + (high - low + 1) / 2) high (by omega) (by omega)
        refine ⟨height, found, by omega, within, .inr ?_⟩
        rcases agreed with rfl | agreed
        · obtain ⟨text, known⟩ := Option.isSome_iff_exists.mp agree.1
          exact ⟨text, known, agree.2 ▸ known⟩
        · exact agreed
      · obtain ⟨height, found, above, within, agreed⟩ := ih low (low + (high - low + 1) / 2 - 1) (by omega) (by omega)
        exact ⟨height, found, above, by omega, agreed⟩
    · rw [if_neg inside]
      exact ⟨low, rfl, le_rfl, ordered, .inl rfl⟩

section Common

/-- The height of the tip that a store reports, in terms of its active branch. -/
theorem BranchOf.status_height
    (first : store.manifest.forkPoint.firstForkHeight.toNat = store.manifest.forkPoint.inheritedTipHeight.toNat + 1)
    (active : BranchOf store store.activeTip branch) (valid : ValidBranch lib store.toForkChainConfig branch) :
    ∃ status, store.status = .ok status ∧ status.transactionUpgradeId = store.transactionUpgradeId ∧
      status.inheritedTipHeight = store.manifest.forkPoint.inheritedTipHeight ∧
      status.tipHeight.toNat = store.manifest.forkPoint.inheritedTipHeight.toNat + branch.length := by
  cases branch with
  | nil => exact ⟨_, status_of_none active.start_eq, rfl, rfl, rfl⟩
  | cons top rest =>
    obtain ⟨tip, node⟩ := top
    have stored := Trail.stored_of_mem active List.mem_cons_self
    refine ⟨_, status_of_tip active.start_eq stored, rfl, rfl, ?_⟩
    have height := valid.height_eq
    rw [List.length_cons]
    simp only
    omega

variable (sound : SoundFork lib store) (peerSound : SoundFork lib peer)
  (config : store.toForkChainConfig = peer.toForkChainConfig)
  (first : peer.manifest.forkPoint.firstForkHeight.toNat = peer.manifest.forkPoint.inheritedTipHeight.toNat + 1)
  (active : BranchOf peer peer.activeTip branch)
include sound peerSound config first active

/-- A height at which the stores agree splits the peer's active branch at a block that the store has. -/
theorem agreed_split {height : ℕ} (above : peer.manifest.forkPoint.inheritedTipHeight.toNat < height)
    (bounded : height < 2 ^ 64) (agreed : Agreed store peer height) :
    ∃ newer hash node deeper, branch = newer ++ (hash, node) :: deeper ∧ hash ∈ storedHashes store ∧
      height = peer.manifest.forkPoint.inheritedTipHeight.toNat + (deeper.length + 1) := by
  obtain ⟨text, here, there⟩ := agreed
  have word : (BitVec.ofNat 64 height).toNat = height := by rw [BitVec.toNat_ofNat, Nat.mod_eq_of_lt bounded]
  have notInherited : BitVec.ofNat 64 height ≠ peer.manifest.forkPoint.inheritedTipHeight := by
    intro same
    rw [same] at word
    omega
  have manifests : store.manifest = peer.manifest := congrArg ForkChainConfig.manifest config
  rw [activeBlockHash, manifests, if_neg notInherited, Option.map_eq_some_iff] at here
  rw [activeBlockHash, if_neg notInherited, Option.map_eq_some_iff] at there
  obtain ⟨hash, listedHere, rfl⟩ := here
  obtain ⟨_, listedThere, same⟩ := there
  obtain rfl := displayHash_injective same
  obtain ⟨_, found, valid, index, -⟩ := peerSound.active
  obtain rfl := Trail.unique found active
  obtain ⟨own, ownFound, ownValid, ownIndex, -⟩ := sound.active
  rw [ownIndex, ownValid.heightIndex_eq_some] at listedHere
  rw [index, valid.heightIndex_eq_some] at listedThere
  obtain ⟨held, inOwn, -⟩ := listedHere
  obtain ⟨node, member, atHeight⟩ := listedThere
  obtain ⟨newer, deeper, split⟩ := List.append_of_mem member
  refine ⟨newer, _, node, deeper, split, ⟨held, Trail.stored_of_mem ownFound inOwn⟩, ?_⟩
  have depth := (valid.of_suffix (split ▸ List.suffix_append newer _)).height_eq
  rw [atHeight, word] at depth
  omega

/-- The bisection yields the part of the peer's active branch above a block that the store has. -/
theorem commonHeight_split (floor ceiling : ℕ) (bottom : floor = peer.manifest.forkPoint.inheritedTipHeight.toNat)
    (ordered : floor ≤ ceiling)
    (bounded : ceiling < 2 ^ 64) :
    ∃ (low : ℕ) (pending older : Branch), commonHeight store peer (ceiling - floor + 1) floor ceiling = .ok low ∧
      branch = pending.reverse ++ older ∧ low = floor + older.length ∧
      ∀ entry ∈ older.head?, entry.1 ∈ storedHashes store := by
  obtain ⟨low, found, above, below, agreed⟩ := commonHeight_ok store peer _ floor ceiling ordered (Nat.lt_succ_self _)
  by_cases atFloor : low = floor
  · exact ⟨low, branch.reverse, [], found, by simp, by simp [atFloor], by simp⟩
  · obtain ⟨newer, hash, node, deeper, split, known, height⟩ := agreed_split sound peerSound config first active
      (by omega) (by omega) (agreed.resolve_left atFloor)
    refine ⟨low, newer.reverse, (hash, node) :: deeper, found, by rw [split, List.reverse_reverse], ?_, ?_⟩
    · rw [List.length_cons]
      omega
    · rintro _ ⟨⟩
      exact known

end Common

/-! ## Waiting transactions -/

section Waiting

private theorem submitTransaction_refuses (transactionHex : Text) (known : store.status = .ok status)
    (replayed : store.branchState lib store.activeTip = .ok state) :
    Refuses (submitTransaction lib transactionHex) store := by
  apply Refuses.get_bind
  refine .settle_bind (.bind (.require _) fun _ _ => .bind (.require _) fun _ _ => .ok _) fun normalized _ => ?_
  refine .settle_bind (.bind (.okOr _ _) fun _ _ => .bind (.require _) fun _ _ => .bind (.okOr _ _) fun _ _ =>
    .bind (.require _) fun _ _ => .ok _) fun transaction _ => ?_
  dsimp only
  split_ifs
  · exact .pure _
  · refine .attempt_bind fun _ _ => ?_
    refine .settle_bind (.bind (.okOr _ _) fun _ _ => .bind (.require _) fun _ _ => .ok _) fun nextMempoolBytes _ => ?_
    rw [known]
    refine .settle_bind (.ok _) fun status _ => ?_
    refine .attempt_bind fun nextHeight _ => ?_
    refine .attempt_bind fun _ _ => ?_
    rw [replayed]
    refine .settle_bind (.ok _) fun state _ => ?_
    refine .attempt_bind fun _ _ => ?_
    refine .attempt_bind fun _ _ => ?_
    cases applied : store.validateAndApplyTransaction lib transaction nextHeight state with
    | error fault next =>
      intro raised after failed
      cases failed
      exact validateAndApplyTransaction_error applied
    | ok feeSats next =>
      intro raised after failed
      cases failed

/-- Relaying transactions returns and changes the waiting transactions only. -/
theorem relayTransactions_ok (known : store.status = .ok status)
    (replayed : store.branchState lib store.activeTip = .ok state) (texts : List Text) :
    ∃ after, relayTransactions lib texts store = .ok () after ∧ OnlyMempool store after := by
  induction texts generalizing store with
  | nil => exact ⟨store, rfl, .refl store⟩
  | cons text rest ih =>
    have frame : Frame OnlyMempool (submitTransaction lib text) store := submitTransaction_frame text store
    have next {middle : ForkChainStore} (only : OnlyMempool store middle) :
        ∃ after, relayTransactions lib rest middle = .ok () after ∧ OnlyMempool store after := by
      have replayedMiddle : middle.branchState lib middle.activeTip = .ok state := by
        obtain ⟨_, _, rfl⟩ := only
        exact replayed
      obtain ⟨after, relayed, later⟩ := ih (only.status_eq.trans known) replayedMiddle
      exact ⟨after, relayed, only.trans later⟩
    simp only [relayTransactions]
    cases submitted : submitTransaction lib text store with
    | ok acceptance middle => exact next (frame.of_ok submitted)
    | error fault middle =>
      obtain ⟨reason, rfl⟩ := submitTransaction_refuses text known replayed fault middle submitted
      exact next (frame.of_error submitted)

end Waiting

/-! ## Synchronizing -/

section Sync

variable {clock : ℕ → U64}

/-- Synchronizing with a peer returns, and the store then has the peer's tip. -/
theorem syncFromPeer_ok (free : BlocksApart lib family) (ready : PeerReady lib store) (peerReady : PeerReady lib peer)
    (within : Within family store) (peerWithin : Within family peer)
    (config : store.toForkChainConfig = peer.toForkChainConfig)
    (first : peer.manifest.forkPoint.firstForkHeight.toNat = peer.manifest.forkPoint.inheritedTipHeight.toNat + 1)
    (timely : ∀ block ∈ family, ∀ height, Timely (clock height) block) :
    ∃ after, syncFromPeer lib clock peer store = .ok () after ∧ CaughtUp lib family peer store after ∧
      ∀ tip ∈ peer.activeTip, tip ∈ storedHashes after := by
  obtain ⟨branch, active, valid, -⟩ := peerReady.sound.active
  obtain ⟨own, ownActive, ownValid, -⟩ := ready.sound.active
  have manifests : store.manifest = peer.manifest := congrArg ForkChainConfig.manifest config
  have upgrades : store.transactionUpgradeId = peer.transactionUpgradeId := by
    rw [transactionUpgradeId, transactionUpgradeId, congrArg ForkChainConfig.transactionUpgrade config]
  obtain ⟨remote, remoteStatus, remoteUpgrade, -, remoteHeight⟩ := active.status_height first valid
  obtain ⟨here, hereStatus, -, inherited, hereHeight⟩ := ownActive.status_height (manifests ▸ first) ownValid
  rw [manifests] at inherited hereHeight
  have remoteBound := remote.tipHeight.isLt
  obtain ⟨low, pending, older, bisected, split, lowHeight, parent⟩ := commonHeight_split ready.sound peerReady.sound
    config first active here.inheritedTipHeight.toNat (min here.tipHeight.toNat remote.tipHeight.toNat)
    (by rw [inherited]) (by rw [inherited]; omega) (by omega)
  rw [split] at active
  obtain ⟨middle, submitted, caught, top⟩ := submitHeights_ok free ready peerReady within peerWithin config timely
    pending active parent
  obtain ⟨current, found, validMiddle, -⟩ := caught.ready.sound.active
  obtain ⟨status, known⟩ := caught.ready.sound.status_ok
  obtain ⟨state, replayed, -⟩ := validMiddle.money (free.distinct caught.within found)
  obtain ⟨after, relayed, only⟩ := relayTransactions_ok known (found.branchState_eq.trans replayed)
    (peer.mempoolTransactions lib)
  refine ⟨after, ?_, caught.onlyMempool only, ?_⟩
  · have count : remote.tipHeight.toNat - low = pending.length := by
      rw [remoteHeight, lowHeight, inherited, split, List.length_append, List.length_reverse]
      omega
    have start : low + 1 = peer.manifest.forkPoint.firstForkHeight.toNat + older.length := by
      rw [lowHeight, inherited, first]
      omega
    have answered : peer.answerRequest store.manifest.activationId store.transactionUpgradeId = .ok () := by
      rw [answerRequest, manifests, upgrades, require_of_true rfl, require_of_true rfl]
      rfl
    have sameUpgrade : remote.transactionUpgradeId = store.transactionUpgradeId := remoteUpgrade.trans upgrades.symm
    rw [syncFromPeer, Routine.get_bind]
    simp only [answered, remoteStatus, hereStatus, require_of_true sameUpgrade, Routine.settle_ok, Routine.attempt_ok,
      pure_bind, bisected, count, start]
    rw [Routine.bind_of_ok submitted, relayed]
  · intro tip isTip
    have head := active.start_eq
    rw [isTip] at head
    obtain ⟨entry, headed, rfl⟩ := Option.map_eq_some_iff.mp head.symm
    obtain ⟨_, _, rfl⟩ := only
    exact top entry headed

end Sync

/-- A checked manifest starts the fork right above the inherited tip. -/
theorem firstForkHeight_of_prepare {config : ForkChainConfig}
    (prepared : prepare lib config.manifest config.transactionUpgrade = .ok config) :
    config.manifest.forkPoint.firstForkHeight.toNat = config.manifest.forkPoint.inheritedTipHeight.toNat + 1 := by
  simp only [prepare, except_bind_eq_ok, mapError_eq_ok] at prepared
  obtain ⟨_, validated, -⟩ := prepared
  simp only [ForkActivationManifest.validate, ForkActivationManifest.new, except_bind_eq_ok, require_eq_ok, okOr_eq_ok,
    exists_const] at validated
  obtain ⟨_, ⟨-, expected, sum, same, -⟩, -⟩ := validated
  rw [same, checkedAdd_eq_some.mp sum]
  rfl

/-- A store that has a peer's tip, and whose own tip another store got that holds no blocks beyond the
peer's and its own, has the tip of that other store. -/
theorem tips_eq {left right : ForkChainStore} (free : BlocksApart lib family) (leftReady : PeerReady lib left)
    (rightReady : PeerReady lib right)
    (peerSound : SoundFork lib peer) (leftWithin : Within family left) (rightWithin : Within family right)
    (peerWithin : Within family peer) (config : left.toForkChainConfig = right.toForkChainConfig)
    (peerConfig : left.toForkChainConfig = peer.toForkChainConfig)
    (leftTip : ∀ tip ∈ left.activeTip, tip ∈ storedHashes right)
    (peerTip : ∀ tip ∈ peer.activeTip, tip ∈ storedHashes left)
    (taken : storedHashes right ⊆ storedHashes peer ∪ storedHashes left) : left.activeTip = right.activeTip := by
  have leftRight {hash : Digest} (here : hash ∈ storedHashes left) (there : hash ∈ storedHashes right) :
      rank left hash = rank right hash :=
    leftReady.sound.rank_eq rightReady.sound config
      (free.agree leftReady.sound rightReady.sound leftWithin rightWithin) here there
  have leftPeer {hash : Digest} (here : hash ∈ storedHashes left) (there : hash ∈ storedHashes peer) :
      rank left hash = rank peer hash :=
    leftReady.sound.rank_eq peerSound peerConfig (free.agree leftReady.sound peerSound leftWithin peerWithin) here there
  have rightPeer {hash : Digest} (here : hash ∈ storedHashes right) (there : hash ∈ storedHashes peer) :
      rank right hash = rank peer hash :=
    rightReady.sound.rank_eq peerSound (config.symm.trans peerConfig)
      (free.agree rightReady.sound peerSound rightWithin peerWithin) here there
  refine IsHighest.unique (rank_injective right).injOn ?_ rightReady.sound.top
  have leftTop := leftReady.sound.top
  have peerTop := peerSound.top
  cases tip : left.activeTip with
  | none =>
    rw [tip] at leftTop
    have empty : storedHashes left = ∅ := leftTop
    have peerNone : peer.activeTip = none := by
      cases top : peer.activeTip with
      | none => rfl
      | some best =>
        have stored := peerTip best top
        rw [empty] at stored
        exact absurd stored (Set.notMem_empty best)
    have peerEmpty := peerTop.eq_none_iff.mp peerNone
    rw [empty, peerEmpty, Set.union_empty] at taken
    exact Set.subset_empty_iff.mp taken
  | some best =>
    rw [tip] at leftTop
    obtain ⟨bestLeft, highest⟩ := leftTop
    have bestRight := leftTip best tip
    refine ⟨bestRight, fun hash stored => ?_⟩
    rw [← leftRight bestLeft bestRight]
    rcases taken stored with inPeer | inLeft
    · cases top : peer.activeTip with
      | none =>
        rw [peerTop.eq_none_iff.mp top] at inPeer
        exact absurd inPeer (Set.notMem_empty hash)
      | some peerBest =>
        rw [top] at peerTop
        have taken := peerTip peerBest top
        calc rank right hash = rank peer hash := rightPeer stored inPeer
          _ ≤ rank peer peerBest := peerTop.2 hash inPeer
          _ = rank left peerBest := (leftPeer taken peerTop.1).symm
          _ ≤ rank left best := highest peerBest taken
    · rw [← leftRight inLeft stored]
      exact highest hash inLeft

/-- Two nodes opened with the same manifests, whose blocks are timely for both clocks, converge: after
the first one synchronized with the second and then the second with the first, no submission having
failed, both have the same tip and the same height index. -/
theorem peer_sync_converges (lib : ForkPrimitives) (config : ForkChainConfig)
    (prepared : prepare lib config.manifest config.transactionUpgrade = .ok config)
    (first second : List ForkOp) (left right : ForkChainStore)
    (firstRun : run? (ForkOp.step? lib) (emptyStore config) first = some left)
    (secondRun : run? (ForkOp.step? lib) (emptyStore config) second = some right)
    (free : BlocksApart lib (occurringBlocks left right)) (leftClock rightClock : ℕ → U64)
    (timely : ∀ block ∈ occurringBlocks left right, ∀ height,
      Timely (leftClock height) block ∧ Timely (rightClock height) block) :
    ∃ leftAfter rightAfter, syncFromPeer lib leftClock right left = .ok () leftAfter ∧
      syncFromPeer lib rightClock leftAfter right = .ok () rightAfter ∧
      leftAfter.activeTip = rightAfter.activeTip ∧ leftAfter.activeByHeight = rightAfter.activeByHeight := by
  have leftReady := (PeerReady.initial config).run firstRun
  have rightReady := (PeerReady.initial config).run secondRun
  have leftConfig : left.toForkChainConfig = config := run_config firstRun
  have rightConfig : right.toForkChainConfig = config := run_config secondRun
  have leftWithin : Within (occurringBlocks left right) left := fun hash node stored => ⟨hash, node, .inl stored, rfl⟩
  have rightWithin : Within (occurringBlocks left right) right := fun hash node stored => ⟨hash, node, .inr stored, rfl⟩
  have launch := firstForkHeight_of_prepare prepared
  have starts {store : ForkChainStore} (same : store.toForkChainConfig = config) :
      store.manifest.forkPoint.firstForkHeight.toNat = store.manifest.forkPoint.inheritedTipHeight.toNat + 1 := by
    rw [congrArg ForkChainConfig.manifest same]
    exact launch
  obtain ⟨leftAfter, leftSync, leftCaught, rightTip⟩ := syncFromPeer_ok free leftReady rightReady leftWithin rightWithin
    (leftConfig.trans rightConfig.symm) (starts rightConfig) fun block inside height => (timely block inside height).1
  have leftAfterConfig : leftAfter.toForkChainConfig = config := leftCaught.config.trans leftConfig
  obtain ⟨rightAfter, rightSync, rightCaught, leftTip⟩ := syncFromPeer_ok free rightReady leftCaught.ready rightWithin
    leftCaught.within (rightConfig.trans leftAfterConfig.symm) (starts leftAfterConfig)
    fun block inside height => (timely block inside height).2
  have rightAfterConfig : rightAfter.toForkChainConfig = config := rightCaught.config.trans rightConfig
  have configs : leftAfter.toForkChainConfig = rightAfter.toForkChainConfig :=
    leftAfterConfig.trans rightAfterConfig.symm
  have tips : leftAfter.activeTip = rightAfter.activeTip :=
    tips_eq free leftCaught.ready rightCaught.ready rightReady.sound leftCaught.within rightCaught.within rightWithin
      configs (leftAfterConfig.trans rightConfig.symm) leftTip rightTip rightCaught.taken
  refine ⟨leftAfter, rightAfter, leftSync, rightSync, tips, ?_⟩
  obtain ⟨branch, found, valid, index, -⟩ := leftCaught.ready.sound.active
  obtain ⟨other, found', valid', index', -⟩ := rightCaught.ready.sound.active
  rw [← tips] at found'
  have agree := free.agree leftCaught.ready.sound rightCaught.ready.sound leftCaught.within rightCaught.within
  rw [index, index', heightIndex_congr (map_coreOf_eq configs agree found found' valid valid')]

namespace ForkSample

def blocks : List Block := [blockA, blockB, blockC]

private theorem blocksApart (inside : family ⊆ { block | block ∈ blocks }) : BlocksApart ForkSample.library family := by
  have headers : ((blocks.map Block.header).map library.headerHash).Nodup := by decide
  have roots : ((blocks.map fun block => block.txdata.map (computeTxid library)).map library.merkleRoot).Nodup := by
    decide
  have txids :
      ((blocks.flatMap fun block => block.txdata.map Transaction.stripped).map library.strippedTxid).Nodup := by
    decide
  refine ⟨Set.InjOn.mono ?_ (List.inj_on_of_nodup_map headers), Set.InjOn.mono ?_ (List.inj_on_of_nodup_map roots),
    Set.InjOn.mono ?_ (List.inj_on_of_nodup_map txids)⟩
  · rintro _ ⟨block, member, rfl⟩
    exact List.mem_map.mpr ⟨block, inside member, rfl⟩
  · rintro _ ⟨block, member, rfl⟩
    exact List.mem_map.mpr ⟨block, inside member, rfl⟩
  · rintro _ ⟨block, member, transaction, listed, rfl⟩
    exact List.mem_flatMap.mpr ⟨block, inside member, List.mem_map_of_mem listed⟩

end ForkSample

open ForkSample in
theorem peer_sync_converges_sample : ∃ left right leftAfter rightAfter,
    run? (ForkOp.step? ForkSample.library) (emptyStore ForkSample.config) (submitted [hexB]) = some left ∧
    run? (ForkOp.step? ForkSample.library) (emptyStore ForkSample.config) (submitted [hexA, hexC]) = some right ∧
    left.activeTip = some hashB ∧ right.activeTip = some hashC ∧
    syncFromPeer ForkSample.library (fun _ => now) right left = .ok () leftAfter ∧
    syncFromPeer ForkSample.library (fun _ => now) leftAfter right = .ok () rightAfter ∧
    leftAfter.activeTip = rightAfter.activeTip ∧ leftAfter.activeByHeight = rightAfter.activeByHeight := by
  have computed : (run? (ForkOp.step? ForkSample.library) (emptyStore ForkSample.config)
        (submitted [hexB])).any (fun left =>
      (run? (ForkOp.step? ForkSample.library) (emptyStore ForkSample.config)
        (submitted [hexA, hexC])).any fun right =>
        decide (left.activeTip = some hashB ∧ right.activeTip = some hashC ∧
          ∀ entry ∈ left.blocks.toList ++ right.blocks.toList, entry.2.block ∈ ForkSample.blocks)) = true := by
    decide +kernel
  simp only [Option.any_eq_true, decide_eq_true_eq] at computed
  obtain ⟨left, firstRun, right, secondRun, leftTip, rightTip, listed⟩ := computed
  have inside : occurringBlocks left right ⊆ { block | block ∈ ForkSample.blocks } := by
    rintro _ ⟨hash, node, stored | stored, rfl⟩
    · exact listed (hash, node) (List.mem_append_left _ (ExtTreeMap.mem_toList_iff_getElem?_eq_some.mpr stored))
    · exact listed (hash, node) (List.mem_append_right _ (ExtTreeMap.mem_toList_iff_getElem?_eq_some.mpr stored))
  have times : ∀ block ∈ ForkSample.blocks, block.header.time.setWidth 64 ≤ (1783218100 : U64) := by decide
  have timely (block : Block) (member : block ∈ ForkSample.blocks) : Timely now block :=
    ⟨1783218100, by decide, times block member⟩
  obtain ⟨leftAfter, rightAfter, leftSync, rightSync, tips, indices⟩ := peer_sync_converges ForkSample.library
    ForkSample.config prepared _ _ left right firstRun secondRun (blocksApart inside)
    (fun _ => now) (fun _ => now)
    fun block member _ => ⟨timely block (inside member), timely block (inside member)⟩
  exact ⟨left, right, leftAfter, rightAfter, firstRun, secondRun, leftTip, rightTip, leftSync, rightSync, tips, indices⟩

end P2PoolBTC.Soundness
