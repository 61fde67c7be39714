import P2PoolBTC.Math.Run
import P2PoolBTC.Math.Highest
import P2PoolBTC.Soundness.ForkBranches

/-! # Fork choice

In every store reached by submissions the active tip is the stored block of the highest rank, the
height index lists its branch and the explorer index is the one of that branch. The rank of a block
follows from its branch, so the order in which the blocks arrived does not matter.
-/

namespace P2PoolBTC.Soundness

open Math Std Model.Core Model.Node ForkChainStore

variable {store after before : ForkChainStore} {hash : Digest} {node : BlockNode} {rest : Branch}
  {lib : ForkPrimitives} {right left : ForkChainStore}

/-- The work behind a stored block. -/
def workOf (store : ForkChainStore) (hash : Digest) : ℕ :=
  (store.lookup hash).elim 0 fun node => node.cumulativeWork.toNat

/-- More work ranks higher, and among equal work the smaller displayed hash. -/
def rank (store : ForkChainStore) (hash : Digest) : ℕ ×ₗ (List Char)ᵒᵈ :=
  toLex (workOf store hash, OrderDual.toDual (displayHash hash))

/-- The hashes of the stored blocks. -/
def storedHashes (store : ForkChainStore) : Set Digest := { hash | ∃ node, store.lookup hash = some node }

theorem rank_injective (store : ForkChainStore) : Function.Injective (rank store) := by
  intro left right equal
  have displayed := (Prod.mk.inj (toLex.injective equal)).2
  exact displayHash_injective (OrderDual.toDual.injective displayed)

variable {other : Digest}

theorem outranks_iff_rank_lt {tip : BlockNode} (stored : store.lookup hash = some node)
    (tipStored : store.lookup other = some tip) :
    Outranks node.cumulativeWork hash tip.cumulativeWork other ↔ rank store other < rank store hash := by
  rw [rank, rank, Prod.Lex.toLex_lt_toLex]
  simp only [workOf, stored, tipStored, Option.elim_some, OrderDual.toDual_lt_toDual]
  unfold Outranks
  rw [BitVec.lt_def, ← BitVec.toNat_inj, eq_comm]

/-- Every stored block stands on a valid branch. -/
def Rooted (lib : ForkPrimitives) (store : ForkChainStore) : Prop :=
  ∀ hash node, store.lookup hash = some node → ∃ rest, BranchOf store (some hash) ((hash, node) :: rest) ∧
    ValidBranch lib store.toForkChainConfig ((hash, node) :: rest)

namespace Rooted

variable (rooted : Rooted lib store) {block : Block} {blockHex : Text} {nowUnix : U64}
include rooted

/-- The branch that a validated block extends. -/
theorem attached (validated : store.validateBlock lib block blockHex nowUnix = .ok node) :
    ∃ rest, BranchOf store (store.attachment block) rest ∧
      ValidBranch lib store.toForkChainConfig rest := by
  by_cases inherited : block.header.prevBlockhash = store.inheritedTipHash
  · rw [ForkChainConfig.attachment, if_pos inherited]
    exact ⟨[], .stop, .nil⟩
  · simp only [validateBlock, except_bind_eq_ok, blockParent, if_neg inherited, okOr_eq_ok] at validated
    obtain ⟨-, -, -, -, -, -, -, -, -, -, -, -, parentLink, ⟨parent, stored, -⟩, -⟩ := validated
    rw [ForkChainConfig.attachment, if_neg inherited]
    obtain ⟨rest, found, valid⟩ := rooted _ parent stored
    exact ⟨_, found, valid⟩

/-- A validated block extends a valid branch of the store. -/
theorem validated (validated : store.validateBlock lib block blockHex nowUnix = .ok node) :
    node.block = block ∧ node.blockHex = blockHex ∧ ∃ rest,
      BranchOf store (store.attachment node.block) rest ∧
        ValidBranch lib store.toForkChainConfig ((blockHash lib block, node) :: rest) := by
  obtain ⟨rest, found, valid⟩ := rooted.attached validated
  obtain ⟨rfl, text, admitted⟩ := (validateBlock_eq_ok_iff found).mp validated
  exact ⟨rfl, text, rest, found, .cons rfl found.start_eq admitted valid⟩

end Rooted

/-- What holds of every store reached by submissions. -/
structure SoundFork (lib : ForkPrimitives) (store : ForkChainStore) : Prop where
  rooted : Rooted lib store
  ordered : ∀ key : StoredBlockKey, key ∈ store.storedBlockOrder ↔
    ∃ node, store.lookup key.hash = some node ∧ node.height = key.height
  top : IsHighest (rank store) (storedHashes store) store.activeTip
  active : ∃ branch, BranchOf store store.activeTip branch ∧
    ValidBranch lib store.toForkChainConfig branch ∧ store.activeByHeight = heightIndex branch ∧
      explorerIndex lib (branch.reverse.map activeOf) = .ok store.explorer

theorem lookup_empty (config : ForkChainConfig) (log : List UInt8) (hash : Digest) :
    lookup { config with blockLog := log } hash = none := by
  simp [lookup]

theorem SoundFork.initial (config : ForkChainConfig) (log : List UInt8) :
    SoundFork lib { config with blockLog := log } where
  rooted hash node stored := by
    rw [lookup_empty] at stored
    cases stored
  ordered key := by
    refine ⟨fun member => absurd member ExtTreeSet.not_mem_empty, ?_⟩
    rintro ⟨node, stored, -⟩
    rw [lookup_empty] at stored
    cases stored
  top := by
    simp only [IsHighest, storedHashes, lookup_empty, reduceCtorEq, exists_false]
    rfl
  active := ⟨[], .stop, .nil, rfl, rfl⟩

namespace SoundFork

variable (sound : SoundFork lib store)
include sound

theorem tip_stored : ∀ current ∈ store.activeTip, ∃ tip, store.lookup current = some tip := by
  intro current isTip
  have top := sound.top
  rw [isTip] at top
  exact top.1

end SoundFork

/-! ## Storing a block -/

theorem lookup_withBlock (store : ForkChainStore) (hash other : Digest) (node : BlockNode) :
    (withBlock lib hash node store).lookup other = if hash = other then some node else store.lookup other :=
  getElem?_insert_eq store.blocks hash other node

/-- The store with a new block as its tip, its branch as the height index and a rebuilt explorer. -/
def movedTip (lib : ForkPrimitives) (hash : Digest) (node : BlockNode) (rest : Branch) (explorer : ForkExplorerIndex)
    (store : ForkChainStore) : ForkChainStore :=
  { withBlock lib hash node store with
    activeTip := some hash
    activeByHeight := heightIndex ((hash, node) :: rest)
    explorer }

theorem lookup_movedTip {explorer : ForkExplorerIndex} :
    (movedTip lib hash node rest explorer store).lookup hash = some node := by
  change (withBlock lib hash node store).lookup hash = some node
  rw [lookup_withBlock, if_pos rfl]

/-- Storing a block moves the tip to it when it is preferred, and otherwise only indexes it. -/
def StoresBlock (lib : ForkPrimitives) (hash : Digest) (node : BlockNode) (rest : Branch)
    (store : ForkChainStore) : Prop :=
  (¬ Preferred hash node (withBlock lib hash node store) ∧
      storeBlock lib hash node store = .ok () (withBlock lib hash node store)) ∨
    Preferred hash node (withBlock lib hash node store) ∧
      storeBlock lib hash node store =
        match explored lib (withBlock lib hash node store) ((hash, node) :: rest) with
        | .ok explorer => .ok () (movedTip lib hash node rest explorer store)
        | .error fault => .error fault { withBlock lib hash node store with
            activeTip := some hash, activeByHeight := heightIndex ((hash, node) :: rest) }

section Storing

variable (unknown : store.lookup hash = none)
include unknown

theorem lookup_withBlock_of_stored {found : BlockNode} (stored : store.lookup other = some found) :
    (withBlock lib hash node store).lookup other = some found := by
  rw [lookup_withBlock, if_neg, stored]
  rintro rfl
  rw [unknown] at stored
  cases stored

theorem BranchOf.grown {tip : Option Digest} {branch : Branch} (found : BranchOf store tip branch) :
    BranchOf (withBlock lib hash node store) tip branch :=
  Trail.mono found fun _ _ stored => lookup_withBlock_of_stored unknown stored

private theorem SoundFork.fresh (sound : SoundFork lib store) :
    { height := node.height, hash } ∉ store.storedBlockOrder := by
  rw [sound.ordered]
  rintro ⟨other, stored, -⟩
  rw [unknown] at stored
  cases stored

variable (found : BranchOf store (store.attachment node.block) rest)
include found

theorem BranchOf.grown_new :
    BranchOf (withBlock lib hash node store) (some hash) ((hash, node) :: rest) :=
  .entry (by rw [lookup_withBlock, if_pos rfl]) (found.grown unknown)

theorem BranchOf.storeBlock_eq (fresh : { height := node.height, hash } ∉ store.storedBlockOrder)
    (tipStored : ∀ current ∈ store.activeTip, ∃ tip, store.lookup current = some tip) :
    StoresBlock lib hash node rest store := by
  have stored : (withBlock lib hash node store).lookup hash = some node := by
    rw [lookup_withBlock, if_pos rfl]
  have tipKept : ∀ current ∈ (withBlock lib hash node store).activeTip,
      ∃ tip, (withBlock lib hash node store).lookup current = some tip := by
    intro current isTip
    obtain ⟨tip, known⟩ := tipStored current isTip
    exact ⟨tip, lookup_withBlock_of_stored unknown known⟩
  rw [StoresBlock, Soundness.storeBlock_eq fresh]
  by_cases preferred : Preferred hash node (withBlock lib hash node store)
  · refine .inr ⟨preferred, ?_⟩
    have branch : BranchOf { withBlock lib hash node store with activeTip := some hash }
        (some hash) ((hash, node) :: rest) :=
      (found.grown_new unknown : BranchOf (withBlock lib hash node store) _ _)
    rw [considerActiveTip_of_preferred stored tipKept preferred, rebuildActiveIndex_eq branch]
    rfl
  · exact .inl ⟨preferred, considerActiveTip_of_not_preferred stored tipKept preferred⟩

theorem SoundFork.storeBlock_eq (sound : SoundFork lib store) : StoresBlock lib hash node rest store :=
  found.storeBlock_eq unknown (sound.fresh unknown) sound.tip_stored

end Storing

theorem Rooted.withBlock (rooted : Rooted lib store) (unknown : store.lookup hash = none)
    (found : BranchOf store (store.attachment node.block) rest)
    (valid : ValidBranch lib store.toForkChainConfig ((hash, node) :: rest)) :
    Rooted lib (withBlock lib hash node store) := by
  intro other held stored
  rw [lookup_withBlock] at stored
  split_ifs at stored with same
  · obtain rfl := Option.some.inj stored
    subst same
    exact ⟨rest, found.grown_new unknown, valid⟩
  · obtain ⟨deeper, branch, validBranch⟩ := rooted other held stored
    exact ⟨deeper, branch.grown unknown, validBranch⟩

private theorem rank_congr {other : ForkChainStore} (same : other.lookup hash = store.lookup hash) :
    rank other hash = rank store hash := by
  rw [rank, rank, workOf, workOf, same]

/-- Only waiting transactions, the log and other fields that the invariant does not read differ. -/
theorem SoundFork.congr {other : ForkChainStore} (sound : SoundFork lib store)
    (config : other.toForkChainConfig = store.toForkChainConfig) (blocks : other.blocks = store.blocks)
    (order : other.storedBlockOrder = store.storedBlockOrder) (tip : other.activeTip = store.activeTip)
    (index : other.activeByHeight = store.activeByHeight) (explorer : other.explorer = store.explorer) :
    SoundFork lib other := by
  obtain ⟨⟨_, _, _⟩, _, _, _, _, _, _, _, _, _⟩ := store
  obtain ⟨⟨_, _, _⟩, _, _, _, _, _, _, _, _, _⟩ := other
  cases config
  cases blocks
  cases order
  cases tip
  cases index
  cases explorer
  exact ⟨sound.rooted, sound.ordered, sound.top, sound.active⟩

section Growing

theorem storedHashes_withBlock :
    storedHashes (withBlock lib hash node store) = insert hash (storedHashes store) := by
  ext other
  simp only [storedHashes, Set.mem_ofPred_eq, lookup_withBlock, Set.mem_insert_iff]
  by_cases same : hash = other
  · simp [same]
  · simp [same, Ne.symm same]

private theorem rank_withBlock_of_stored (unknown : store.lookup hash = none) (stored : other ∈ storedHashes store) :
    rank (withBlock lib hash node store) other = rank store other := by
  obtain ⟨held, known⟩ := stored
  apply rank_congr
  rw [lookup_withBlock_of_stored unknown known, known]

namespace SoundFork

variable (sound : SoundFork lib store) (unknown : store.lookup hash = none)
include sound unknown

private theorem ordered_withBlock (key : StoredBlockKey) :
    key ∈ (withBlock lib hash node store).storedBlockOrder ↔
      ∃ held, (withBlock lib hash node store).lookup key.hash = some held ∧ held.height = key.height := by
  change key ∈ store.storedBlockOrder.insert _ ↔ _
  rw [ExtTreeSet.mem_insert, Std.compare_eq_iff_eq, sound.ordered, lookup_withBlock]
  by_cases same : hash = key.hash
  · rw [if_pos same, ← same, unknown]
    constructor
    · rintro (rfl | ⟨held, stored, -⟩)
      · exact ⟨node, rfl, rfl⟩
      · cases stored
    · rintro ⟨held, stored, height⟩
      obtain rfl := Option.some.inj stored
      obtain ⟨keyHeight, keyHash⟩ := key
      exact .inl ((StoredBlockKey.mk.injEq ..).mpr ⟨height, same⟩)
  · rw [if_neg same]
    constructor
    · rintro (rfl | stored)
      · exact absurd rfl same
      · exact stored
    · exact .inr

theorem top_grown : IsHighest (rank (withBlock lib hash node store)) (storedHashes store) store.activeTip :=
  sound.top.congr fun _ stored => rank_withBlock_of_stored unknown stored

theorem preferred_withBlock {current : Digest} (tip : store.activeTip = some current) :
    Preferred hash node (withBlock lib hash node store) ↔
      rank (withBlock lib hash node store) current < rank (withBlock lib hash node store) hash := by
  have top := sound.top
  rw [tip] at top
  obtain ⟨held, known⟩ := top.1
  have active : (withBlock lib hash node store).activeTip = some current := tip
  have stored : (withBlock lib hash node store).lookup current = some held :=
    lookup_withBlock_of_stored unknown known
  rw [preferred_iff active stored]
  exact outranks_iff_rank_lt (by rw [lookup_withBlock, if_pos rfl]) stored

private theorem top_of_preferred (preferred : Preferred hash node (withBlock lib hash node store)) :
    IsHighest (rank (withBlock lib hash node store)) (storedHashes (withBlock lib hash node store))
      (some hash) := by
  rw [storedHashes_withBlock]
  have before : IsHighest (rank (withBlock lib hash node store)) (storedHashes store) store.activeTip :=
    sound.top_grown unknown
  cases tip : store.activeTip with
  | none =>
    rw [tip] at before
    exact before.insert_first hash
  | some current =>
    rw [tip] at before
    exact before.insert_above ((sound.preferred_withBlock unknown tip).mp preferred)

private theorem top_of_not_preferred (notPreferred : ¬ Preferred hash node (withBlock lib hash node store)) :
    IsHighest (rank (withBlock lib hash node store)) (storedHashes (withBlock lib hash node store))
      store.activeTip := by
  rw [storedHashes_withBlock]
  have before : IsHighest (rank (withBlock lib hash node store)) (storedHashes store) store.activeTip :=
    sound.top_grown unknown
  cases tip : store.activeTip with
  | none =>
    refine absurd (fun current active => ?_) notPreferred
    cases tip.symm.trans active
  | some current =>
    rw [tip] at before
    exact before.insert_below (le_of_not_gt (mt (sound.preferred_withBlock unknown tip).mpr notPreferred))

variable (found : BranchOf store (store.attachment node.block) rest)
  (valid : ValidBranch lib store.toForkChainConfig ((hash, node) :: rest))
include found valid

theorem storing (storing : storeBlock lib hash node store = .ok () after) : SoundFork lib after := by
  have branches := sound.rooted.withBlock unknown found valid
  have ordered (key : StoredBlockKey) : key ∈ (withBlock lib hash node store).storedBlockOrder ↔ _ :=
    sound.ordered_withBlock unknown key
  rcases SoundFork.storeBlock_eq unknown found sound with ⟨notPreferred, equation⟩ | ⟨preferred, equation⟩
  · rw [equation] at storing
    cases storing
    obtain ⟨branch, current, validBranch, index, explorer⟩ := sound.active
    exact ⟨branches, ordered, sound.top_of_not_preferred unknown notPreferred,
      branch, current.grown unknown, validBranch, index, explorer⟩
  · rw [equation, explored_eq (found.grown_new unknown) valid] at storing
    cases rebuilt : explorerIndex lib (((hash, node) :: rest).reverse.map activeOf) with
    | error fault =>
      rw [rebuilt] at storing
      cases storing
    | ok explorer =>
      rw [rebuilt] at storing
      cases storing
      have branch : BranchOf (withBlock lib hash node store) (some hash) ((hash, node) :: rest) :=
        found.grown_new unknown
      exact ⟨branches, ordered, sound.top_of_preferred unknown preferred, _, branch, valid, rfl, rebuilt⟩

end SoundFork

end Growing

/-! ## Runs -/

/-- Calls that change a store. -/
inductive ForkOp where
  | block (blockHex : Text) (nowUnix : U64)
  | transaction (transactionHex : Text)

/-- The store after a call. A refused call is a step as well, but a call that stored a block must
have returned. -/
def ForkOp.step? (lib : ForkPrimitives) (store : ForkChainStore) : ForkOp → Option ForkChainStore
  | .block blockHex nowUnix =>
    match submitBlockAtTime lib blockHex nowUnix store with
    | .ok _ after => some after
    | .error _ after => if after.blocks.size = store.blocks.size then some after else none
  | .transaction transactionHex =>
    match submitTransaction lib transactionHex store with
    | .ok _ after => some after
    | .error _ after => some after

/-- The store that is opened on an empty log. -/
def emptyStore (config : ForkChainConfig) : ForkChainStore := { config with blockLog := [] }

variable {op : ForkOp}

/-- A step accepts a block or changes nothing but the waiting transactions. -/
theorem ForkOp.step?_returned (stepped : op.step? lib before = some after) :
    OnlyMempool before after ∨ ∃ blockHex nowUnix normalized block acceptance, op = .block blockHex nowUnix ∧
      Submits lib blockHex normalized block ∧ before.lookup (blockHash lib block) = none ∧
      acceptBlock lib block normalized nowUnix before = .ok acceptance after := by
  cases op with
  | block blockHex nowUnix =>
    simp only [ForkOp.step?] at stepped
    cases called : submitBlockAtTime lib blockHex nowUnix before with
    | ok acceptance final =>
      rw [called] at stepped
      obtain rfl := Option.some.inj stepped
      obtain ⟨normalized, block, submits, ⟨rfl, -⟩ | ⟨unknown, accepted⟩⟩ := submitBlockAtTime_returned called
      · exact .inl (.refl _)
      · exact .inr ⟨blockHex, nowUnix, normalized, block, acceptance, rfl, submits, unknown, accepted⟩
    | error fault final =>
      rw [called] at stepped
      simp only [Option.ite_none_right_eq_some] at stepped
      obtain ⟨size, same⟩ := stepped
      obtain rfl := Option.some.inj same
      rw [submitBlockAtTime_error called size]
      exact .inl (.refl _)
  | transaction transactionHex =>
    have frame : Frame OnlyMempool (submitTransaction lib transactionHex) before :=
      submitTransaction_frame transactionHex before
    simp only [ForkOp.step?] at stepped
    cases called : submitTransaction lib transactionHex before with
    | ok acceptance final =>
      rw [called] at stepped
      obtain rfl := Option.some.inj stepped
      exact .inl (frame.of_ok called)
    | error fault final =>
      rw [called] at stepped
      obtain rfl := Option.some.inj stepped
      exact .inl (frame.of_error called)

theorem ForkOp.step?_cases (stepped : op.step? lib before = some after) :
    OnlyMempool before after ∨ ∃ blockHex nowUnix normalized block, op = .block blockHex nowUnix ∧
      Submits lib blockHex normalized block ∧ Accepted lib block normalized nowUnix before after := by
  rcases ForkOp.step?_returned stepped with
    only | ⟨blockHex, nowUnix, normalized, block, _, same, submits, unknown, returned⟩
  · exact .inl only
  · exact .inr ⟨blockHex, nowUnix, normalized, block, same, submits, acceptBlock_ok unknown returned⟩

namespace SoundFork

theorem onlyMempool (sound : SoundFork lib before) (only : OnlyMempool before after) :
    SoundFork lib after := by
  obtain ⟨_, _, rfl⟩ := only
  exact sound.congr rfl rfl rfl rfl rfl rfl

theorem accepted (sound : SoundFork lib before) {block : Block} {normalized : Text} {nowUnix : U64}
    (accepted : Accepted lib block normalized nowUnix before after) : SoundFork lib after := by
  obtain ⟨unknown, node, stored, validated, -, storing, only⟩ := accepted
  obtain ⟨-, -, rest, found, valid⟩ := sound.rooted.validated validated
  have soundLogged : SoundFork lib (logged normalized before) := sound.congr rfl rfl rfl rfl rfl rfl
  exact (soundLogged.storing unknown found valid storing).onlyMempool only

private theorem step (sound : SoundFork lib before) (stepped : op.step? lib before = some after) :
    SoundFork lib after := by
  rcases ForkOp.step?_cases stepped with only | ⟨_, _, _, _, -, -, accepted⟩
  · exact sound.onlyMempool only
  · exact sound.accepted accepted

theorem run {ops : List ForkOp} (sound : SoundFork lib before)
    (run : run? (ForkOp.step? lib) before ops = some after) : SoundFork lib after :=
  run?_invariant (SoundFork lib) run sound fun _ _ _ _ held stepped => held.step stepped

end SoundFork

theorem Accepted.config {block : Block} {normalized : Text} {nowUnix : U64}
    (accepted : Accepted lib block normalized nowUnix before after) :
    after.toForkChainConfig = before.toForkChainConfig := by
  obtain ⟨-, node, stored, -, -, storing, only⟩ := accepted
  exact only.sameBlocks.1.trans (storeBlock_blocks (logged normalized before) (.inl ⟨_, storing⟩)).1

theorem run_config {ops : List ForkOp} (run : run? (ForkOp.step? lib) before ops = some after) :
    after.toForkChainConfig = before.toForkChainConfig := by
  refine run?_invariant (fun store => store.toForkChainConfig = before.toForkChainConfig) run rfl ?_
  intro middle op next _ same stepped
  rcases ForkOp.step?_cases stepped with only | ⟨_, _, _, _, -, -, accepted⟩
  · exact only.sameBlocks.1.trans same
  · exact accepted.config.trans same

/-! ## Work and heights of a branch -/

/-- The work of the target that a stored block was required to meet. -/
def requiredWork (lib : ForkPrimitives) (store : ForkChainStore) (node : BlockNode) : U256 :=
  match store.nextDifficulty lib.toForkCrypto (store.parentOf node) node.height node.block.header.time with
  | .ok difficulty => lib.targetToWork (lib.targetFromCompact difficulty.bits)
  | .error _ => 0

/-- The work behind a branch is the sum over its blocks. -/
theorem BranchOf.workOn_eq {tip : Option Digest} {branch : Branch} (found : BranchOf store tip branch)
    (valid : ValidBranch lib store.toForkChainConfig branch) :
    (∀ entry ∈ branch, ∃ difficulty, store.nextDifficulty lib.toForkCrypto (store.parentOf entry.2)
        entry.2.height entry.2.block.header.time = .ok difficulty) ∧
      workOn branch = (branch.map fun entry => requiredWork lib store entry.2).sum := by
  induction found with
  | stop => exact ⟨fun _ member => absurd member List.not_mem_nil, rfl⟩
  | @entry hash node rest stored above ih =>
    cases valid with
    | cons hashed linked admitted valid =>
      obtain ⟨known, sum⟩ := ih valid
      obtain ⟨bits, difficulty, -, work⟩ := admitted.difficulty
      rw [← BranchOf.nextDifficulty_eq above] at difficulty
      constructor
      · intro entry member
        rcases List.mem_cons.mp member with rfl | deeper
        · exact ⟨_, difficulty⟩
        · exact known entry deeper
      · rw [List.map_cons, List.sum_cons, ← sum]
        simp only [requiredWork, difficulty]
        rw [workOn, work, BitVec.add_comm]

private theorem exists_split_at {α : Type} {entries : List α} {position : ℕ} (inside : position < entries.length) :
    ∃ before entry after, entries = before ++ entry :: after ∧ before.length = position := by
  refine ⟨entries.take position, entries[position], entries.drop (position + 1), ?_, ?_⟩
  · rw [← List.drop_eq_getElem_cons inside, List.take_append_drop]
  · exact List.length_take_of_le inside.le

/-- Every height from the first fork height to the tip is taken by one block of the branch. -/
theorem ValidBranch.mem_heightIndex {config : ForkChainConfig} (valid : ValidBranch lib config ((hash, node) :: rest))
    (height : U64) :
    height ∈ heightIndex ((hash, node) :: rest) ↔
      config.manifest.forkPoint.firstForkHeight ≤ height ∧ height ≤ node.height := by
  rw [mem_iff_exists_getElem?]
  simp only [valid.heightIndex_eq_some, BitVec.le_def]
  have top := valid.height_eq
  constructor
  · rintro ⟨other, held, member, rfl⟩
    obtain ⟨newer, older, split⟩ := List.append_of_mem member
    have inner := (valid.of_suffix (split ▸ List.suffix_append newer _)).height_eq
    have length := congrArg List.length split
    rw [List.length_cons, List.length_append, List.length_cons] at length
    omega
  · rintro ⟨atLeast, atMost⟩
    have inside : node.height.toNat - height.toNat < ((hash, node) :: rest).length := by
      rw [List.length_cons]
      omega
    obtain ⟨newer, ⟨other, held⟩, older, split, position⟩ := exists_split_at inside
    have inner := (valid.of_suffix (split ▸ List.suffix_append newer _)).height_eq
    have length := congrArg List.length split
    rw [List.length_cons, List.length_append, List.length_cons, position] at length
    refine ⟨other, held, split ▸ List.mem_append_right _ List.mem_cons_self, BitVec.eq_of_toNat_eq ?_⟩
    omega

/-- Two stores agree on the blocks they both hold, up to witnesses. -/
def AgreeOnBlocks (left right : ForkChainStore) : Prop :=
  ∀ hash first second, left.lookup hash = some first → right.lookup hash = some second →
    first.block.header = second.block.header ∧
      first.block.txdata.map Transaction.stripped = second.block.txdata.map Transaction.stripped

/-- A block that two sound stores hold has the same height, work and phase in both. -/
theorem SoundFork.coreOf_eq (soundLeft : SoundFork lib left) (soundRight : SoundFork lib right)
    (config : left.toForkChainConfig = right.toForkChainConfig) (agree : AgreeOnBlocks left right)
    {first second : BlockNode} (storedLeft : left.lookup hash = some first)
    (storedRight : right.lookup hash = some second) : coreOf (hash, first) = coreOf (hash, second) := by
  obtain ⟨rest, found, valid⟩ := soundLeft.rooted hash first storedLeft
  obtain ⟨rest', found', valid'⟩ := soundRight.rooted hash second storedRight
  exact (List.cons.inj (map_coreOf_eq config agree found found' valid valid')).1

theorem SoundFork.rank_eq (soundLeft : SoundFork lib left) (soundRight : SoundFork lib right)
    (config : left.toForkChainConfig = right.toForkChainConfig) (agree : AgreeOnBlocks left right)
    (storedLeft : hash ∈ storedHashes left) (storedRight : hash ∈ storedHashes right) :
    rank left hash = rank right hash := by
  obtain ⟨first, knownLeft⟩ := storedLeft
  obtain ⟨second, knownRight⟩ := storedRight
  have work : first.cumulativeWork = second.cumulativeWork :=
    congrArg BlockCore.cumulativeWork (soundLeft.coreOf_eq soundRight config agree knownLeft knownRight)
  rw [rank, rank, workOf, workOf, knownLeft, knownRight, Option.elim_some, Option.elim_some, work]

/-! ## A sample chain

Three real blocks: two first fork blocks and a block on top of one of them that spends its coinbase. -/

namespace ForkSample

def bytesOf (digits value : ℕ) : List UInt8 := (hexDecode? (hexText digits value)).getD []

def digestOf (value : ℕ) : Digest := Digest.ofHex (hexText 64 value)

def inheritedTip : Digest := digestOf 0xaaaaaaaaaaaaaaaaaaaaaaaaaaaaaaaaaaaaaaaaaaaaaaaaaaaaaaaaaaaaaaaa

/-- A script that pays a Taproot key. -/
def payScript : List UInt8 := bytesOf 68 0x512013c366a0bd6d9b1a50eb5e32a13e70267ce0cf2c90575d465f8eff79840b3a50

/-- Bytes of a number, least significant first. -/
def littleBytes (count value : ℕ) : List UInt8 :=
  (List.range count).map fun index => UInt8.ofNat (value / 256 ^ index)

/-- A list whose length is less than 253, behind its length. -/
def counted {α : Type} (encode : α → List UInt8) (entries : List α) : List UInt8 :=
  UInt8.ofNat entries.length :: entries.flatMap encode

def serializeTransaction (transaction : Transaction) : List UInt8 :=
  let signed := transaction.input.any (·.witness ≠ [])
  littleBytes 4 transaction.version.toNat ++ (if signed then [0, 1] else []) ++
    counted (fun input => input.previousOutput.txid.bytes ++ littleBytes 4 input.previousOutput.vout.toNat ++
      counted ([·]) input.scriptSig ++ littleBytes 4 input.sequence.toNat) transaction.input ++
    counted (fun output => littleBytes 8 output.value.toNat ++ counted ([·]) output.scriptPubkey)
      transaction.output ++
    (if signed then transaction.input.flatMap fun input => counted (counted ([·])) input.witness else []) ++
    littleBytes 4 transaction.lockTime.toNat

def serializeBlock (block : Block) : List UInt8 :=
  littleBytes 4 block.header.version.toNat ++ block.header.prevBlockhash.bytes ++ block.header.merkleRoot.bytes ++
    littleBytes 4 block.header.time.toNat ++ littleBytes 4 block.header.bits.toNat ++
    littleBytes 4 block.header.nonce.toNat ++ counted serializeTransaction block.txdata

def coinbaseOf (scriptSig scriptPubkey : List UInt8) (value : U64) : Transaction :=
  { version := 1, lockTime := 0
    input := [{ previousOutput := OutPoint.null, scriptSig, sequence := 0xffffffff, witness := [] }]
    output := [{ value, scriptPubkey }] }

/-- A coinbase that commits to the witnesses of its block. -/
def committing (scriptSig : List UInt8) (value : U64) (commitment : ℕ) : Transaction :=
  { version := 1, lockTime := 0
    input := [{ previousOutput := OutPoint.null, scriptSig, sequence := 0xffffffff
                witness := [List.replicate 32 0] }]
    output := [{ value, scriptPubkey := payScript },
      { value := 0, scriptPubkey := bytesOf 12 0x6a24aa21a9ed ++ bytesOf 64 commitment }] }

def spendOf (txid : Digest) (signature : List UInt8) (value : U64) : Transaction :=
  { version := 2, lockTime := 0
    input := [{ previousOutput := ⟨txid, 0⟩, scriptSig := [], sequence := 0xffffffff, witness := [signature] }]
    output := [{ value, scriptPubkey := payScript }] }

def blockOf (prevBlockhash merkleRoot : Digest) (time nonce : U32) (txdata : List Transaction) : Block :=
  { header := { version := 0x20000000, prevBlockhash, merkleRoot, time, bits := 0x207fffff, nonce }, txdata }

def coinbaseA : Transaction := coinbaseOf [0x01, 0x65, 0x61] payScript 5000000000

def coinbaseB : Transaction := coinbaseOf [0x01, 0x65, 0x62] payScript 5000000000

def txidA : Digest := digestOf 0x51716f98e01ef19712870c57b705847546f9781db67be526ce0419012480f953

def txidB : Digest := digestOf 0x158ef1e75cc8f754a4e91c28a18a6323f1b6551159d16e0fc32fbfe424e1f6e8

def signature : List UInt8 :=
  bytesOf 64 0x58a0fc88a60638e0006ef15f4d096d5810f47b47c4d874ae0c273ccaad39ec02 ++
    bytesOf 64 0x42df2a7bda743de738d3c7e424930c2f8ab733549632ca1f18a423db4430fcfb

/-- Spends the coinbase of the first block and leaves a fee. -/
def spendA : Transaction := spendOf txidA signature 4999999000

def coinbaseC : Transaction := committing [0x01, 0x66, 0x63] 5000001000
  0x650213136a53a3c2f7a7df2afa7c63e9d4eac4375ec288d49e33a04d78994649

def txidC : Digest := digestOf 0xaf1346d87d9216082bdae90d4e65d0d7b9575b25262cb03bf3f31a1b2836b4b2

def txidSpendA : Digest := digestOf 0x75a4272d40729e78200a5a1c5e24a5b5de3d9a27a39a67510c4fe0dcd4cc8e05

def hashA : Digest := digestOf 0xb13660431311cb929cc535bcad98537c12bf6e7e6cd595edb146672b1f784b1a

def hashB : Digest := digestOf 0xf9d587294784124ff80b9eeb9e5ec642cdc8e1c426df70ff79b58db3d7bc5418

def hashC : Digest := digestOf 0xa59766ab50be2c78f5380e0b4d3f31bc1a8c5916b35246d6e42f2271fc360b7b

def blockA : Block := blockOf inheritedTip txidA 1783210200 0 [coinbaseA]

def blockB : Block := blockOf inheritedTip txidB 1783210260 1 [coinbaseB]

def blockC : Block :=
  blockOf hashA (digestOf 0x67e2547f334fc7d9e2182e3c1552acd9d3b037c2545644ad063c2ed6209617b0) 1783210800 0
    [coinbaseC, spendA]

def hexA : Text := hexEncode (serializeBlock blockA)

def hexB : Text := hexEncode (serializeBlock blockB)

def hexC : Text := hexEncode (serializeBlock blockC)

def sighash : Digest := digestOf 0xca092e4f4ad9250466debf56413b19bfee7bb6027ecef36fd0c3722cc4e9a9c1

def publicKey : Digest := digestOf 0x13c366a0bd6d9b1a50eb5e32a13e70267ce0cf2c90575d465f8eff79840b3a50

def activation : ForkActivationPayload :=
  { schemaVersion := 2
    config :=
      { chainName := "pohw-experiment-0".toList
        launchTimestampUtc := ⟨1783209600000000000⟩
        inheritedUtxoSpendingEnabled := false
        postForkPowLimitBits := 0x207fffff
        targetSpacingSeconds := 600
        difficultyAlgorithm := .bootstrapThenBitcoin2016V1
        bootstrapHandoffHashrateHps := 1000000000000000 }
    forkPoint :=
      { inheritedTipHeight := 100
        inheritedTipHash := List.replicate 64 'a'
        firstForkHeight := 101
        launchTimestampUtc := ⟨1783209600000000000⟩ }
    launchBlock := { height := 101, blockHash := List.replicate 64 'b', timestamp := ⟨1783209660000000000⟩ }
    replayProtectionRequired := true }

def activationId : Text := hexText 64 0xeaa1046d1f672b49edcb0fe31ae17545da98ea73405d65a81ac668bd6684a841

def upgrade : ForkTransactionUpgradePayload :=
  { schemaVersion := 1
    baseActivationId := activationId
    activationHeight := 102
    transactionConsensus := .segwitKeypathV1
    inheritedUtxoSpendingEnabled := false
    coinbaseMaturity := 1
    maxBlockTransactions := 1000
    maxTransactionWeightWu := 400000 }

def upgradeId : Text := hexText 64 0xc2b3280e373bbe8630bc224f1116cce59975e8e246f83c7af9524a00813dc203

def config : ForkChainConfig :=
  { manifest := { activation with activationId }
    transactionUpgrade := some { upgrade with upgradeId }
    inheritedTipHash := inheritedTip }

def library : ForkPrimitives := .ofTables {
  activations := [(activation, activationId)]
  upgrades := [(upgrade, upgradeId)]
  txids := [(coinbaseA.stripped, hashHex txidA), (coinbaseB.stripped, hashHex txidB),
    (coinbaseC.stripped, hashHex txidC), (spendA.stripped, hashHex txidSpendA)]
  headerHashes := [(blockA.header, hashHex hashA), (blockB.header, hashHex hashB), (blockC.header, hashHex hashC)]
  merkleRoots := [([txidA], hashHex txidA), ([txidB], hashHex txidB),
    ([txidC, txidSpendA], hashHex blockC.header.merkleRoot)]
  commitments := [blockA, blockB, blockC]
  blocks := [blockA, blockB, blockC].map fun block => (serializeBlock block, block)
  addresses := [(payScript, "bc1pz0pkdg9adkd3558ttce2z0nsye7wpnevjpt463jl3mlhnpqt8fgq8qs5jp".toList)]
  publicKeys := [publicKey.bytes]
  sighashes := [(spendA, hashHex sighash)]
  signatures := [(signature, sighash, publicKey)] }

/-- A clock reading shortly after the last block. -/
def now : U64 := 1783210900

/-- Submissions of the given texts. -/
def submitted (texts : List Text) : List ForkOp := texts.map fun blockHex => .block blockHex now

end ForkSample

/-! ## The theorem -/

/-- Two stores reached from nothing that hold the same blocks have the same tip, which is the stored
block with the most work and, among those, the smallest displayed hash, the same height index, which
maps the heights of the tip's branch to its blocks, and the same explorer index. The work of a block is
the sum of the work its branch was required to show. -/
theorem fork_choice_arrival_independent (lib : ForkPrimitives) (config : ForkChainConfig) (first second : List ForkOp)
    (left right : ForkChainStore)
    (firstRun : run? (ForkOp.step? lib) (emptyStore config) first = some left)
    (secondRun : run? (ForkOp.step? lib) (emptyStore config) second = some right)
    (sameBlocks : ∀ hash, (left.lookup hash).map BlockNode.block = (right.lookup hash).map BlockNode.block) :
    left.activeTip = right.activeTip ∧ left.activeByHeight = right.activeByHeight ∧
    left.explorer = right.explorer ∧
    (left.activeTip = none ↔ ∀ hash, left.lookup hash = none) ∧
    (∀ tip, left.activeTip = some tip → ∃ node, left.lookup tip = some node ∧
      (∀ hash other, left.lookup hash = some other → hash ≠ tip →
        other.cumulativeWork < node.cumulativeWork ∨
          other.cumulativeWork = node.cumulativeWork ∧ displayHash tip < displayHash hash) ∧
      ∃ branch, BranchOf left (some tip) branch ∧
        (∀ height hash, left.activeByHeight[height]? = some hash ↔
          ∃ ancestor, (hash, ancestor) ∈ branch ∧ ancestor.height = height) ∧
        ∀ height, height ∈ left.activeByHeight ↔
          config.manifest.forkPoint.firstForkHeight ≤ height ∧ height ≤ node.height) ∧
    ∀ hash node, left.lookup hash = some node → ∃ branch, BranchOf left (some hash) branch ∧
      (∀ entry ∈ branch, ∃ difficulty, left.nextDifficulty lib.toForkCrypto (left.parentOf entry.2)
        entry.2.height entry.2.block.header.time = .ok difficulty) ∧
      node.cumulativeWork = (branch.map fun entry => requiredWork lib left entry.2).sum := by
  have soundLeft := (SoundFork.initial config []).run firstRun
  have soundRight := (SoundFork.initial config []).run secondRun
  have configLeft := run_config firstRun
  have configs : left.toForkChainConfig = right.toForkChainConfig := configLeft.trans (run_config secondRun).symm
  have agree : AgreeOnBlocks left right := by
    intro hash first second storedLeft storedRight
    have same := sameBlocks hash
    rw [storedLeft, storedRight] at same
    have blocks : first.block = second.block := Option.some.inj same
    rw [blocks]
    exact ⟨rfl, rfl⟩
  have hashes : storedHashes left = storedHashes right := by
    ext hash
    have same := congrArg Option.isSome (sameBlocks hash)
    rw [Option.isSome_map, Option.isSome_map] at same
    simp only [storedHashes, Set.mem_ofPred_eq, ← Option.isSome_iff_exists, same]
  have topRight : IsHighest (rank left) (storedHashes left) right.activeTip := by
    rw [hashes]
    refine soundRight.top.congr fun hash stored => ?_
    exact soundLeft.rank_eq soundRight configs agree (hashes ▸ stored) stored
  have tips : left.activeTip = right.activeTip :=
    soundLeft.top.unique (rank_injective left).injOn topRight
  obtain ⟨branch, found, valid, index, explorer⟩ := soundLeft.active
  obtain ⟨other, found', valid', index', explorer'⟩ := soundRight.active
  rw [← tips] at found'
  have cores := map_coreOf_eq configs agree found found' valid valid'
  refine ⟨tips, ?_, ?_, ?_, ?_, ?_⟩
  · rw [index, index', heightIndex_congr cores]
  · rw [explorerIndex_congr cores, explorer'] at explorer
    exact (Except.ok.inj explorer).symm
  · rw [soundLeft.top.eq_none_iff, Set.eq_empty_iff_forall_notMem]
    simp only [storedHashes, Set.mem_ofPred_eq, not_exists, Option.eq_none_iff_forall_ne_some, ne_eq]
  · intro tip isTip
    have top := soundLeft.top
    rw [isTip] at top found
    obtain ⟨⟨node, stored⟩, highest⟩ := top
    refine ⟨node, stored, ?_, branch, found, ?_, ?_⟩
    · intro hash other known different
      have below := (highest hash ⟨other, known⟩).lt_of_ne fun same => different (rank_injective left same)
      rcases (outranks_iff_rank_lt stored known).mpr below with more | ⟨equal, smaller⟩
      · exact .inl more
      · exact .inr ⟨equal.symm, smaller⟩
    · intro height hash
      rw [index, valid.heightIndex_eq_some]
    · intro height
      cases found with
      | entry known above =>
        rw [stored] at known
        obtain rfl := Option.some.inj known
        rw [index, valid.mem_heightIndex, configLeft]
        rfl
  · intro hash node stored
    obtain ⟨rest, located, validRest⟩ := soundLeft.rooted hash node stored
    obtain ⟨required, sum⟩ := located.workOn_eq validRest
    exact ⟨_, located, required, sum⟩

open ForkSample in
theorem fork_choice_arrival_independent_sample : ∃ left right,
    run? (ForkOp.step? ForkSample.library) (emptyStore ForkSample.config) (submitted [hexA, hexB, hexC]) = some left ∧
    run? (ForkOp.step? ForkSample.library) (emptyStore ForkSample.config) (submitted [hexB, hexA, hexC]) = some right ∧
    left.activeTip = some hashC ∧ left.activeTip = right.activeTip ∧
    left.activeByHeight = right.activeByHeight ∧ left.explorer = right.explorer := by
  have computed : (run? (ForkOp.step? ForkSample.library) (emptyStore ForkSample.config)
        (submitted [hexA, hexB, hexC])).any (fun left =>
      (run? (ForkOp.step? ForkSample.library) (emptyStore ForkSample.config)
        (submitted [hexB, hexA, hexC])).any fun right =>
        decide (left.activeTip = some hashC ∧ left.blocks.toList = right.blocks.toList)) = true := by
    decide +kernel
  simp only [Option.any_eq_true, decide_eq_true_eq] at computed
  obtain ⟨left, firstRun, right, secondRun, tip, listed⟩ := computed
  have blocks : left.blocks = right.blocks := ExtTreeMap.toList_inj.mp listed
  obtain ⟨tips, index, explorer, -⟩ := fork_choice_arrival_independent ForkSample.library ForkSample.config _ _
    left right firstRun secondRun fun hash => by rw [lookup, lookup, blocks]
  exact ⟨left, right, firstRun, secondRun, tip, tips, index, explorer⟩

end P2PoolBTC.Soundness
