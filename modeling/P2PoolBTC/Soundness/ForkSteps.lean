import P2PoolBTC.Math.Frame
import P2PoolBTC.Soundness.ForkRules

/-! # What a submission does to the store

Storing a block inserts it, indexes it and moves the active tip when the block is preferred. Apart from
that a submission only changes the waiting transactions, and a submitted transaction changes nothing
else.
-/

namespace P2PoolBTC.Soundness

open Math Std Model.Core Model.Node ForkChainStore

variable {lib : ForkPrimitives} {second first third : ForkChainStore} {fault : Fault String}

/-- Only the waiting transactions differ. -/
def OnlyMempool (before after : ForkChainStore) : Prop :=
  ∃ mempool mempoolBytes, after = { before with mempool, mempoolBytes }

namespace OnlyMempool

theorem refl (store : ForkChainStore) : OnlyMempool store store := ⟨store.mempool, store.mempoolBytes, rfl⟩

theorem trans (one : OnlyMempool first second) (two : OnlyMempool second third) : OnlyMempool first third := by
  obtain ⟨_, _, rfl⟩ := one
  obtain ⟨mempool, mempoolBytes, rfl⟩ := two
  exact ⟨mempool, mempoolBytes, rfl⟩

end OnlyMempool

theorem keepValidTransactions_frame (nextHeight : U64) (pending : List (Digest × Transaction))
    (state : ForkBranchState) (before : ForkChainStore) :
    Frame OnlyMempool (keepValidTransactions lib nextHeight pending state) before := by
  induction pending generalizing state before with
  | nil => exact .pure OnlyMempool.refl _
  | cons entry rest ih =>
    obtain ⟨txid, transaction⟩ := entry
    unfold keepValidTransactions
    split_ifs
    · exact ih state before
    · apply Frame.get_bind
      cases before.validateAndApplyTransaction lib transaction nextHeight state with
      | error fault next =>
        cases fault with
        | error reason => exact ih next before
        | panicked message => exact .raise OnlyMempool.refl _
        | diverged => exact .raise OnlyMempool.refl _
      | ok fee next =>
        dsimp only
        cases checkedMempoolBytes before.mempoolBytes
            (BitVec.ofNat 64 (lib.serializeTransaction transaction).length) with
        | error fault => exact ih next before
        | ok mempoolBytes => exact .bind OnlyMempool.trans (.set ⟨_, _, rfl⟩) fun _ middle _ => ih next middle

theorem revalidateMempool_frame (before : ForkChainStore) :
    Frame OnlyMempool (revalidateMempool lib) before := by
  apply Frame.get_bind
  refine .settle_bind OnlyMempool.refl fun status _ => ?_
  refine .attempt_bind OnlyMempool.refl fun nextHeight _ => ?_
  refine .bind OnlyMempool.trans (.set ⟨∅, 0, rfl⟩) fun _ middle _ => ?_
  split_ifs
  · exact .settle_bind OnlyMempool.refl fun state _ => keepValidTransactions_frame _ _ _ _
  · exact .pure OnlyMempool.refl _

theorem submitTransaction_frame (transactionHex : Text) (before : ForkChainStore) :
    Frame OnlyMempool (submitTransaction lib transactionHex) before := by
  apply Frame.get_bind
  refine .settle_bind OnlyMempool.refl fun normalized _ => ?_
  refine .settle_bind OnlyMempool.refl fun transaction _ => ?_
  dsimp only
  split_ifs
  · exact .pure OnlyMempool.refl _
  · refine .attempt_bind OnlyMempool.refl fun _ _ => ?_
    refine .settle_bind OnlyMempool.refl fun nextMempoolBytes _ => ?_
    refine .settle_bind OnlyMempool.refl fun status _ => ?_
    refine .attempt_bind OnlyMempool.refl fun nextHeight _ => ?_
    refine .attempt_bind OnlyMempool.refl fun _ _ => ?_
    refine .settle_bind OnlyMempool.refl fun state _ => ?_
    refine .attempt_bind OnlyMempool.refl fun _ _ => ?_
    refine .attempt_bind OnlyMempool.refl fun _ _ => ?_
    cases before.validateAndApplyTransaction lib transaction nextHeight state with
    | error fault next => exact .raise OnlyMempool.refl _
    | ok feeSats next => exact .bind OnlyMempool.trans (.set ⟨_, _, rfl⟩) fun _ _ _ => .pure OnlyMempool.refl _

/-! ## Storing a block -/

/-- The explorer index of a branch whose blocks the store holds. -/
def explored (lib : ForkPrimitives) (store : ForkChainStore) (branch : Branch) : Outcome ForkExplorerIndex :=
  activeBlocks { store with activeByHeight := heightIndex branch } >>= explorerIndex lib

variable {store : ForkChainStore}

theorem rebuildActiveIndex_eq {branch : Branch} (found : BranchOf store store.activeTip branch) :
    rebuildActiveIndex lib store =
      match explored lib store branch with
      | .ok explorer => .ok () { store with activeByHeight := heightIndex branch, explorer }
      | .error fault => .error fault { store with activeByHeight := heightIndex branch } := by
  rw [rebuildActiveIndex, Routine.get_bind, found.walked, Routine.settle_ok, Routine.pure_bind_apply,
    Routine.set_bind, rebuildExplorerIndex, Routine.get_bind, explored]
  cases activeBlocks { store with activeByHeight := heightIndex branch } with
  | error fault => rfl
  | ok active =>
    rw [except_ok_bind, Routine.settle_ok, Routine.pure_bind_apply]
    cases explorerIndex lib active <;> rfl

/-- The store after a block was inserted and indexed, before the tip is considered. -/
def withBlock (lib : ForkPrimitives) (hash : Digest) (node : BlockNode) (store : ForkChainStore) :
    ForkChainStore :=
  { store with
    blocks := store.blocks.insert hash node
    storedBlockOrder := store.storedBlockOrder.insert { height := node.height, hash }
    transactionLocations := locateTransactions lib hash 0 node.block.txdata store.transactionLocations }

private theorem lookup_insert_self (store : ForkChainStore) (hash : Digest) (node : BlockNode) :
    lookup { store with blocks := store.blocks.insert hash node } hash = some node := by
  simp [lookup]

variable {hash : Digest} {node : BlockNode}

theorem storeBlock_eq (fresh : { height := node.height, hash } ∉ store.storedBlockOrder) :
    storeBlock lib hash node store = considerActiveTip lib hash (withBlock lib hash node store) := by
  have inserted : indexStoredBlock lib hash { store with blocks := store.blocks.insert hash node } =
      .ok () (withBlock lib hash node store) := by
    rw [indexStoredBlock, Routine.get_bind, lookup_insert_self, okOr_some, Routine.attempt_ok,
      Routine.pure_bind_apply, Routine.set_bind, if_neg fresh]
    rfl
  rw [storeBlock, Routine.modify_bind, Routine.bind_of_ok inserted]

/-- A block is preferred to the active tip. -/
def Preferred (hash : Digest) (node : BlockNode) (store : ForkChainStore) : Prop :=
  ∀ current ∈ store.activeTip, ∀ tip, store.lookup current = some tip →
    Outranks node.cumulativeWork hash tip.cumulativeWork current

theorem preferred_iff {current : Digest} {tip : BlockNode} (active : store.activeTip = some current)
    (found : store.lookup current = some tip) :
    Preferred hash node store ↔ Outranks node.cumulativeWork hash tip.cumulativeWork current := by
  simp only [Preferred, active, Option.mem_some_iff, forall_eq', found, Option.some.injEq]

section Tip

variable {store : ForkChainStore} {hash : Digest} {node : BlockNode}
  (stored : store.lookup hash = some node)
  (tipStored : ∀ current ∈ store.activeTip, ∃ tip, store.lookup current = some tip)
include stored tipStored

theorem considerActiveTip_of_preferred (preferred : Preferred hash node store) :
    considerActiveTip lib hash store = rebuildActiveIndex lib { store with activeTip := some hash } := by
  rw [considerActiveTip, Routine.get_bind, stored, okOr_some, Routine.settle_ok, Routine.pure_bind_apply]
  cases current : store.activeTip with
  | none => rfl
  | some currentHash =>
    obtain ⟨tip, tipFound⟩ := tipStored currentHash current
    have outranks := (preferred_iff current tipFound).mp preferred
    dsimp only
    rw [tipFound, okOr_some, Routine.settle_ok]
    simp only [pure_bind, decide_eq_true outranks, if_true, Routine.set_bind]

theorem considerActiveTip_of_not_preferred (notPreferred : ¬ Preferred hash node store) :
    considerActiveTip lib hash store = .ok () store := by
  rw [considerActiveTip, Routine.get_bind, stored, okOr_some, Routine.settle_ok, Routine.pure_bind_apply]
  cases current : store.activeTip with
  | none => exact absurd (by simp [Preferred, current]) notPreferred
  | some currentHash =>
    obtain ⟨tip, tipFound⟩ := tipStored currentHash current
    have below := mt (preferred_iff current tipFound).mpr notPreferred
    dsimp only
    rw [tipFound, okOr_some, Routine.settle_ok]
    simp only [pure_bind, decide_eq_false below, if_false, Routine.pure_apply, Bool.false_eq_true]

end Tip

/-! ## Submission -/

/-- The store with a block appended to its log. -/
def logged (blockHex : Text) (store : ForkChainStore) : ForkChainStore :=
  { store with blockLog := store.blockLog ++ (blockRecord store.toForkChainConfig blockHex).encode ++ [10] }

/-- The record of a block is short enough for one line of the log. -/
def FitsLine (config : ForkChainConfig) (blockHex : Text) : Prop :=
  (blockRecord config blockHex).encode.length ≤ maxBlockLogLineBytes

variable {blockHex : Text}

private theorem appendRecord_synced (fits : FitsLine store.toForkChainConfig blockHex) :
    appendRecord .synced blockHex store = .ok () (logged blockHex store) := by
  unfold FitsLine at fits
  rw [appendRecord, Routine.get_bind, require_of_true fits, Routine.attempt_ok, Routine.pure_bind_apply]
  rfl

theorem appendRecord_of_long (ending : AppendEnding) (long : ¬ FitsLine store.toForkChainConfig blockHex) :
    appendRecord ending blockHex store = .error (.error "fork block record exceeds size limit") store := by
  unfold FitsLine at long
  rw [appendRecord, Routine.get_bind, require_of_false long, Routine.attempt_error, Routine.fail_bind]

/-- Config and stored blocks are the same. -/
def SameBlocks (before after : ForkChainStore) : Prop :=
  after.toForkChainConfig = before.toForkChainConfig ∧ after.blocks = before.blocks

theorem SameBlocks.refl (store : ForkChainStore) : SameBlocks store store := ⟨rfl, rfl⟩

theorem SameBlocks.trans (one : SameBlocks first second) (two : SameBlocks second third) :
    SameBlocks first third := ⟨two.1.trans one.1, two.2.trans one.2⟩

variable {before after : ForkChainStore}

theorem OnlyMempool.sameBlocks (only : OnlyMempool before after) : SameBlocks before after := by
  obtain ⟨_, _, rfl⟩ := only
  exact .refl before

private theorem rebuildActiveIndex_frame (before : ForkChainStore) :
    Frame SameBlocks (rebuildActiveIndex lib) before := by
  apply Frame.get_bind
  refine .settle_bind SameBlocks.refl fun branch _ => ?_
  refine .bind SameBlocks.trans (.set ⟨rfl, rfl⟩) fun _ middle _ => ?_
  apply Frame.get_bind
  refine .settle_bind SameBlocks.refl fun active _ => ?_
  refine .settle_bind SameBlocks.refl fun explorer _ => ?_
  exact .set ⟨rfl, rfl⟩

private theorem considerActiveTip_frame (hash : Digest) (before : ForkChainStore) :
    Frame SameBlocks (considerActiveTip lib hash) before := by
  apply Frame.get_bind
  refine .settle_bind SameBlocks.refl fun candidate _ => ?_
  have moves : Frame SameBlocks (do
      set { before with activeTip := some hash }
      rebuildActiveIndex lib) before :=
    .bind SameBlocks.trans (.set ⟨rfl, rfl⟩) fun _ middle _ => rebuildActiveIndex_frame middle
  cases before.activeTip with
  | none => exact moves
  | some current =>
    refine .settle_bind SameBlocks.refl fun tip _ => ?_
    simp only [pure_bind]
    split_ifs
    · exact moves
    · exact .pure SameBlocks.refl _

theorem storeBlock_blocks (before : ForkChainStore)
    (left : (∃ value, storeBlock lib hash node before = .ok value after) ∨
      ∃ fault, storeBlock lib hash node before = .error fault after) :
    SameBlocks { before with blocks := before.blocks.insert hash node } after := by
  have frame : Frame SameBlocks (do
      indexStoredBlock lib hash
      considerActiveTip lib hash) { before with blocks := before.blocks.insert hash node } := by
    refine .bind SameBlocks.trans ?_ fun _ middle _ => considerActiveTip_frame hash middle
    apply Frame.get_bind
    refine .attempt_bind SameBlocks.refl fun _ _ => ?_
    refine .bind SameBlocks.trans (.set ⟨rfl, rfl⟩) fun _ middle _ => ?_
    split_ifs
    · exact .fail SameBlocks.refl _
    · exact .set ⟨rfl, rfl⟩
  exact frame after left

/-- What an accepted submission did. -/
structure Accepted (lib : ForkPrimitives) (block : Block) (normalized : Text) (nowUnix : U64)
    (before after : ForkChainStore) : Prop where
  unknown : before.lookup (blockHash lib block) = none
  effect : ∃ node stored, before.validateBlock lib block normalized nowUnix = .ok node ∧
    FitsLine before.toForkChainConfig normalized ∧
    storeBlock lib (blockHash lib block) node (logged normalized before) = .ok () stored ∧
    OnlyMempool stored after

/-- The end of an acceptance: the report is made and changes nothing. -/
def reportTip (hash : Digest) (height : U64) (previousTip : Option Digest) :
    Routine ForkChainStore String ForkBlockAcceptance := do
  let store ← get
  let status ← settle store.status
  return { accepted := true
           becameActiveTip := store.activeTip = some hash ∧ previousTip ≠ store.activeTip
           blockHash := displayHash hash, height
           tipHash := status.tipHash, tipHeight := status.tipHeight }

theorem reportTip_frame {Rel : ForkChainStore → ForkChainStore → Prop} (same : ∀ store, Rel store store) (hash : Digest)
    (height : U64) (previousTip : Option Digest) (before : ForkChainStore) :
    Frame Rel (reportTip hash height previousTip) before := by
  apply Frame.get_bind
  exact .settle_bind same fun status _ => .pure same _

theorem reportAcceptance_eq (hash : Digest) (height : U64) (previousTip : Option Digest) (before : ForkChainStore) :
    reportAcceptance lib hash height previousTip before = if previousTip ≠ before.activeTip
      then (revalidateMempool lib >>= fun _ => reportTip hash height previousTip) before
      else reportTip hash height previousTip before := by
  rw [reportAcceptance, Routine.get_bind]
  split_ifs <;> rfl

theorem reportAcceptance_frame (hash : Digest) (height : U64) (previousTip : Option Digest)
    (before : ForkChainStore) : Frame OnlyMempool (reportAcceptance lib hash height previousTip) before := by
  have report := reportTip_frame OnlyMempool.refl hash height previousTip
  intro after ended
  rw [reportAcceptance_eq] at ended
  split_ifs at ended
  · have frame : Frame OnlyMempool (revalidateMempool lib >>= fun _ => reportTip hash height previousTip) before :=
      .bind OnlyMempool.trans (revalidateMempool_frame before) fun _ middle _ => report middle
    exact frame after ended
  · exact report before after ended

variable {block : Block} {normalized : Text} {nowUnix : U64} {acceptance : ForkBlockAcceptance}

theorem acceptBlockEnding_of_valid (ending : AppendEnding)
    (validated : store.validateBlock lib block normalized nowUnix = .ok node) :
    acceptBlockEnding lib ending block normalized nowUnix store = (do
      appendRecord ending normalized
      storeBlock lib (blockHash lib block) node
      reportAcceptance lib (blockHash lib block) node.height store.activeTip) store := by
  rw [acceptBlockEnding, Routine.get_bind, validated, Routine.settle_ok, Routine.pure_bind_apply]

/-- A valid block is logged, stored and reported on. -/
theorem acceptBlock_of_valid (validated : store.validateBlock lib block normalized nowUnix = .ok node)
    (fits : FitsLine store.toForkChainConfig normalized) :
    acceptBlock lib block normalized nowUnix store = (do
      storeBlock lib (blockHash lib block) node
      reportAcceptance lib (blockHash lib block) node.height store.activeTip) (logged normalized store) := by
  rw [acceptBlock, acceptBlockEnding_of_valid _ validated, Routine.bind_of_ok (appendRecord_synced fits)]

/-- Any other block changes nothing. -/
theorem acceptBlock_valid_or_refused (lib : ForkPrimitives) (block : Block) (normalized : Text) (nowUnix : U64)
    (store : ForkChainStore) :
    (∃ node, store.validateBlock lib block normalized nowUnix = .ok node ∧
      FitsLine store.toForkChainConfig normalized) ∨
    ∃ fault, acceptBlock lib block normalized nowUnix store = .error fault store := by
  cases validated : store.validateBlock lib block normalized nowUnix with
  | error fault =>
    right
    rw [acceptBlock, acceptBlockEnding, Routine.get_bind, validated]
    exact ⟨fault, rfl⟩
  | ok node =>
    by_cases fits : FitsLine store.toForkChainConfig normalized
    · exact .inl ⟨node, rfl, fits⟩
    · rw [acceptBlock, acceptBlockEnding_of_valid _ validated,
        Routine.bind_of_error (appendRecord_of_long _ fits)]
      exact .inr ⟨_, rfl⟩

/-- Accepting a block validates it, logs it, stores it and reports on it. -/
theorem acceptBlock_eq_ok :
    acceptBlock lib block normalized nowUnix before = .ok acceptance after ↔
      ∃ node stored, before.validateBlock lib block normalized nowUnix = .ok node ∧
        FitsLine before.toForkChainConfig normalized ∧
        storeBlock lib (blockHash lib block) node (logged normalized before) = .ok () stored ∧
        reportAcceptance lib (blockHash lib block) node.height before.activeTip stored =
          .ok acceptance after := by
  constructor
  · intro accepted
    rcases acceptBlock_valid_or_refused lib block normalized nowUnix before with
      ⟨node, validated, fits⟩ | ⟨fault, refused⟩
    · rw [acceptBlock_of_valid validated fits] at accepted
      obtain ⟨_, stored, storing, reported⟩ := Routine.bind_eq_ok.mp accepted
      exact ⟨node, stored, validated, fits, storing, reported⟩
    · cases refused.symm.trans accepted
  · rintro ⟨node, stored, validated, fits, storing, reported⟩
    rw [acceptBlock_of_valid validated fits, Routine.bind_of_ok storing]
    exact reported

theorem acceptBlock_ok (unknown : before.lookup (blockHash lib block) = none)
    (accepted : acceptBlock lib block normalized nowUnix before = .ok acceptance after) :
    Accepted lib block normalized nowUnix before after := by
  obtain ⟨node, stored, validated, fits, storing, reported⟩ := acceptBlock_eq_ok.mp accepted
  exact ⟨unknown, node, stored, validated, fits, storing, (reportAcceptance_frame _ _ _ stored).of_ok reported⟩

private theorem acceptBlock_error (refused : acceptBlock lib block normalized nowUnix before = .error fault after) :
    after = before ∨ ∃ node, before.validateBlock lib block normalized nowUnix = .ok node ∧ SameBlocks { before with
      blocks := before.blocks.insert (blockHash lib block) node } after := by
  rcases acceptBlock_valid_or_refused lib block normalized nowUnix before with ⟨node, validated, fits⟩ | ⟨_, unchanged⟩
  · rw [acceptBlock_of_valid validated fits] at refused
    refine .inr ⟨node, validated, ?_⟩
    rcases Routine.bind_eq_error.mp refused with failed | ⟨_, stored, storing, reported⟩
    · exact storeBlock_blocks (logged normalized before) (.inr ⟨fault, failed⟩)
    · exact (storeBlock_blocks (logged normalized before) (.inl ⟨_, storing⟩)).trans
        ((reportAcceptance_frame _ _ _ stored).of_error reported).sameBlocks
  · exact .inl (EStateM.Result.error.inj (refused.symm.trans unchanged)).2

/-- The parts of a submitted text that a submission acts on. -/
def Submits (lib : ForkPrimitives) (blockHex normalized : Text) (block : Block) : Prop :=
  normalizeBlockHex blockHex = .ok normalized ∧ decodeBlock lib normalized = .ok block

theorem submitBlockAtTime_unknown (submits : Submits lib blockHex normalized block)
    (unknown : store.lookup (blockHash lib block) = none) :
    submitBlockAtTime lib blockHex nowUnix store = acceptBlock lib block normalized nowUnix store := by
  rw [submitBlockAtTime, submitBlockAtTimeEnding, Routine.get_bind]
  simp only [submits.1, Routine.settle_ok, pure_bind, submits.2, unknown, acceptBlock]

/-- A submission is refused before its block is looked up, names a block that is stored and changes nothing, or
accepts a new block. -/
theorem submitBlockAtTime_cases (blockHex : Text) (nowUnix : U64) (store : ForkChainStore) :
    (∃ fault, submitBlockAtTime lib blockHex nowUnix store = .error fault store) ∨
      ∃ normalized block, Submits lib blockHex normalized block ∧
        ((∃ existing, store.lookup (blockHash lib block) = some existing) ∧
            Frame Eq (submitBlockAtTime lib blockHex nowUnix) store ∨
          store.lookup (blockHash lib block) = none ∧ submitBlockAtTime lib blockHex nowUnix store =
            acceptBlock lib block normalized nowUnix store) := by
  cases normalizing : normalizeBlockHex blockHex with
  | error fault =>
    rw [submitBlockAtTime, submitBlockAtTimeEnding, Routine.get_bind, normalizing]
    exact .inl ⟨fault, rfl⟩
  | ok normalized =>
    cases decoding : decodeBlock lib normalized with
    | error fault =>
      rw [submitBlockAtTime, submitBlockAtTimeEnding, Routine.get_bind, normalizing, Routine.settle_ok,
        Routine.pure_bind_apply, decoding]
      exact .inl ⟨fault, rfl⟩
    | ok block =>
      refine .inr ⟨normalized, block, ⟨normalizing, decoding⟩, ?_⟩
      cases known : store.lookup (blockHash lib block) with
      | none => exact .inr ⟨rfl, submitBlockAtTime_unknown ⟨normalizing, decoding⟩ known⟩
      | some existing =>
        refine .inl ⟨⟨existing, rfl⟩, ?_⟩
        apply Frame.get_bind
        simp only [normalizing, Routine.settle_ok, pure_bind, decoding, known]
        exact .settle_bind (fun _ => rfl) fun status _ => .pure (fun _ => rfl) _

/-- A submission that returns has accepted a new block or changed nothing. -/
theorem submitBlockAtTime_returned (returned : submitBlockAtTime lib blockHex nowUnix before = .ok acceptance after) :
    ∃ normalized block, Submits lib blockHex normalized block ∧
      (after = before ∧ (∃ existing, before.lookup (blockHash lib block) = some existing) ∨
        before.lookup (blockHash lib block) = none ∧
          acceptBlock lib block normalized nowUnix before = .ok acceptance after) := by
  rcases submitBlockAtTime_cases blockHex nowUnix before with
    ⟨_, refused⟩ | ⟨normalized, block, submits, ⟨known, same⟩ | ⟨unknown, same⟩⟩
  · cases refused.symm.trans returned
  · exact ⟨normalized, block, submits, .inl ⟨(same.of_ok returned).symm, known⟩⟩
  · exact ⟨normalized, block, submits, .inr ⟨unknown, same.symm.trans returned⟩⟩

/-- A submission that fails without storing a block has changed nothing. -/
theorem submitBlockAtTime_error (refused : submitBlockAtTime lib blockHex nowUnix before = .error fault after)
    (size : after.blocks.size = before.blocks.size) : after = before := by
  rcases submitBlockAtTime_cases blockHex nowUnix before with
    ⟨_, failed⟩ | ⟨normalized, block, -, ⟨-, same⟩ | ⟨known, same⟩⟩
  · exact (EStateM.Result.error.inj (refused.symm.trans failed)).2
  · exact (same.of_error refused).symm
  · rcases acceptBlock_error (same.symm.trans refused) with same | ⟨node, -, -, stored⟩
    · exact same
    · exfalso
      have absent : blockHash lib block ∉ before.blocks := by
        rw [mem_iff_exists_getElem?]
        rintro ⟨existing, present⟩
        rw [lookup, present] at known
        cases known
      rw [stored, ExtTreeMap.size_insert, if_neg (by rwa [ExtTreeMap.contains_iff_mem])] at size
      omega

theorem status_of_tip (tip : store.activeTip = some hash) (stored : store.lookup hash = some node) :
    store.status = .ok {
      inheritedTipHeight := store.manifest.forkPoint.inheritedTipHeight, tipHeight := node.height
      tipHash := displayHash hash, transactionUpgradeId := store.transactionUpgradeId } := by
  simp only [status, tip, stored, okOr_some, except_ok_bind]
  rfl

theorem status_of_none (active : store.activeTip = none) :
    store.status = .ok {
      inheritedTipHeight := store.manifest.forkPoint.inheritedTipHeight
      tipHeight := store.manifest.forkPoint.inheritedTipHeight
      tipHash := displayHash store.inheritedTipHash
      transactionUpgradeId := store.transactionUpgradeId } := by
  simp only [status, active]
  rfl

end P2PoolBTC.Soundness
