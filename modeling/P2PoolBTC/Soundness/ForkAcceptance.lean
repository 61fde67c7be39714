import P2PoolBTC.Soundness.ForkMoney

/-! # When a submission returns

A submission returns exactly when its block is valid and fits the log, the explorer index of a new tip
can be built, and the waiting transactions can be revalidated. Revalidating reads the tip and the state
of its branch; whatever transactions wait, it drops those that fail and never faults.
-/

namespace P2PoolBTC.Soundness

open Math Std Model.Core Model.Node ForkChainStore

variable {lib : ForkPrimitives} {transaction : Transaction} {config : ForkChainConfig} {fault : Fault String}

/-! ## Checks return errors -/

variable {height : U64} {state : ForkBranchState}

section Checks

private theorem sumOutputs_errorsOnly (total : U64) (outputs : List TxOut) : ErrorsOnly (sumOutputs total outputs) := by
  induction outputs generalizing total with
  | nil => exact .ok _
  | cons output rest ih =>
    refine .bind (.require _) fun _ _ => ?_
    refine .bind (.okOr _ _) fun next _ => ?_
    exact .bind (.require _) fun _ _ => ih next

private theorem scanInputs_errorsOnly (upgrade : ForkTransactionUpgradeManifest) (height : U64)
    (utxos : ExtTreeMap OutPoint IndexedForkOutput) (scan : InputScan) (inputs : List TxIn) :
    ErrorsOnly (scanInputs upgrade height utxos scan inputs) := by
  induction inputs generalizing scan with
  | nil => exact .ok _
  | cons input rest ih =>
    refine .bind (.require _) fun _ _ => ?_
    refine .bind (.require _) fun _ _ => ?_
    refine .bind (.okOr _ _) fun previous _ => ?_
    refine .bind (.require _) fun _ _ => ?_
    refine .bind (.okOr _ _) fun inputTotal _ => ?_
    exact .bind (.require _) fun _ _ => ih _

private theorem checkInputSignature_errorsOnly (transaction : Transaction) (prevouts : List TxOut) (index : ℕ)
    (input : TxIn)
    (previous : TxOut) : ErrorsOnly (checkInputSignature lib transaction prevouts index input previous) := by
  unfold checkInputSignature
  split_ifs
  · refine .bind (.okOr _ _) fun _ _ => ?_
    refine .bind (.require _) fun _ _ => ?_
    refine .bind (.okOr _ _) fun _ _ => ?_
    refine .bind (.require _) fun _ _ => ?_
    refine .bind (.okOr _ _) fun _ _ => ?_
    exact .bind (.okOr _ _) fun _ _ => .require _
  · refine .bind (.require _) fun _ _ => ?_
    refine .bind (.okOr _ _) fun _ _ => ?_
    refine .bind (.okOr _ _) fun _ _ => ?_
    refine .bind (.require _) fun _ _ => ?_
    refine .bind (.okOr _ _) fun _ _ => ?_
    refine .bind (.okOr _ _) fun _ _ => ?_
    refine .bind (.require _) fun _ _ => ?_
    exact .bind (.okOr _ _) fun _ _ => .require _
  · exact .error _

private theorem checkInputSignatures_errorsOnly (transaction : Transaction) (prevouts : List TxOut) (index : ℕ)
    (inputs : List (TxIn × TxOut)) :
    ErrorsOnly (checkInputSignatures lib transaction prevouts index inputs) := by
  induction inputs generalizing index with
  | nil => exact .ok _
  | cons entry rest ih => exact .bind (checkInputSignature_errorsOnly _ _ _ _ _) fun _ _ => ih _

private theorem checkTransaction_errorsOnly (config : ForkChainConfig) (transaction : Transaction) (height : U64)
    (state : ForkBranchState) : ErrorsOnly (config.checkTransaction lib transaction height state) := by
  refine .bind (.okOr _ _) fun upgrade _ => ?_
  iterate 7 refine .bind (.require _) fun _ _ => ?_
  refine .bind (sumOutputs_errorsOnly _ _) fun _ _ => ?_
  refine .bind (scanInputs_errorsOnly _ _ _ _ _) fun _ _ => ?_
  refine .bind (.okOr _ _) fun _ _ => ?_
  refine .bind ?_ fun _ _ => .ok _
  exact .bind (.require _) fun _ _ => checkInputSignatures_errorsOnly _ _ _ _

private theorem addOutputsFrom_error {txid : Digest} {coinbase : Bool} {index : ℕ} {outputs : List TxOut}
    {after : ForkBranchState} (failed : addOutputsFrom txid height coinbase index outputs state = .error fault after) :
    ∃ reason, fault = .error reason := by
  induction outputs generalizing index state with
  | nil => cases failed
  | cons output rest ih =>
    rw [addOutputsFrom] at failed
    rcases Routine.bind_eq_error.mp failed with early | ⟨vout, middle, -, failed⟩
    · obtain ⟨reason, -, same, -⟩ := Routine.attempt_eq_error.mp early
      exact ⟨reason, same⟩
    · rw [Routine.get_bind, Routine.set_bind] at failed
      split_ifs at failed
      · cases failed
        exact ⟨_, rfl⟩
      · exact ih failed

private theorem scanInputs_distinct {upgrade : ForkTransactionUpgradeManifest}
    {utxos : ExtTreeMap OutPoint IndexedForkOutput}
    {inputs : List TxIn} {scan final : InputScan} (scanned : scanInputs upgrade height utxos scan inputs = .ok final) :
    (inputs.map TxIn.previousOutput).Nodup ∧
      ∀ outpoint ∈ inputs.map TxIn.previousOutput, outpoint ∉ scan.seenInputs := by
  induction inputs generalizing scan with
  | nil => exact ⟨List.nodup_nil, fun _ member => absurd member List.not_mem_nil⟩
  | cons input rest ih =>
    simp only [scanInputs, except_bind_eq_ok, require_eq_ok, okOr_eq_ok, exists_const] at scanned
    obtain ⟨-, unseen, previous, held, mature, inputTotal, sum, -, scanned⟩ := scanned
    obtain ⟨distinct, fresh⟩ := ih scanned
    rw [List.map_cons, List.nodup_cons]
    have later : ∀ outpoint ∈ rest.map TxIn.previousOutput,
        outpoint ≠ input.previousOutput ∧ outpoint ∉ scan.seenInputs := by
      intro outpoint member
      have absent := fresh outpoint member
      simp only [mem_treeSet_insert, not_or] at absent
      exact ⟨fun same => absent.1 same.symm, absent.2⟩
    refine ⟨⟨fun member => (later _ member).1 rfl, distinct⟩, ?_⟩
    intro outpoint member
    rcases List.mem_cons.mp member with rfl | listed
    · exact unseen
    · exact (later outpoint listed).2

/-- The inputs of a checked transaction can be removed. -/
theorem checkTransaction_takes {feeSats : U64}
    (checked : config.checkTransaction lib transaction height state = .ok feeSats) :
    ∃ rest, takeAll? state.utxos transaction.spends = some rest := by
  have whole := checked
  simp only [ForkChainConfig.checkTransaction, except_bind_eq_ok, require_eq_ok, okOr_eq_ok, exists_const] at checked
  obtain ⟨_, -, -, -, -, -, -, -, -, _, -, scan, scanned, -⟩ := checked
  obtain ⟨_, -, spend⟩ := checkTransaction_ok whole
  apply exists_takeAll? (scanInputs_distinct scanned).1
  intro outpoint member
  obtain ⟨previous, held, -⟩ := spend.held outpoint member
  exact ⟨previous, held⟩

theorem validateAndApplyTransaction_error {after : ForkBranchState}
    (failed : config.validateAndApplyTransaction lib transaction height state = .error fault after) :
    ∃ reason, fault = .error reason := by
  rw [ForkChainConfig.validateAndApplyTransaction, Routine.get_bind] at failed
  rcases Routine.settle_bind_eq_error.mp failed with ⟨stopped, -⟩ | ⟨fee, checked, failed⟩
  · exact checkTransaction_errorsOnly config transaction height state fault stopped
  · obtain ⟨rest, taken⟩ := checkTransaction_takes checked
    have removed (missing : OutPoint → Fault String) :
        removeInputs missing transaction.spends state = .ok () { state with utxos := rest } :=
      removeInputs_eq_ok.mpr ⟨rest, taken, rfl⟩
    rw [Routine.bind_of_ok (removed _), Routine.modify_bind] at failed
    rcases Routine.bind_eq_error.mp failed with stopped | ⟨_, _, -, returned⟩
    · exact addOutputsFrom_error stopped
    · cases returned

end Checks

/-! ## Revalidating the waiting transactions -/

theorem keepValidTransactions_ok (nextHeight : U64) (pending : List (Digest × Transaction)) (state : ForkBranchState)
    (store : ForkChainStore) :
    ∃ after, keepValidTransactions lib nextHeight pending state store = .ok () after := by
  induction pending generalizing state store with
  | nil => exact ⟨store, rfl⟩
  | cons entry rest ih =>
    obtain ⟨txid, transaction⟩ := entry
    rw [keepValidTransactions]
    split_ifs
    · exact ih state store
    · rw [Routine.get_bind]
      cases applied : store.validateAndApplyTransaction lib transaction nextHeight state with
      | error fault next =>
        obtain ⟨reason, rfl⟩ := validateAndApplyTransaction_error applied
        exact ih next store
      | ok fee next =>
        dsimp only
        cases checkedMempoolBytes store.mempoolBytes
            (BitVec.ofNat 64 (lib.serializeTransaction transaction).length) with
        | error fault => exact ih next store
        | ok mempoolBytes => exact ih next _

/-- The tip is below the largest height and the state of its branch, where transactions are allowed,
can be replayed. -/
def Revalidates (lib : ForkPrimitives) (store : ForkChainStore) : Prop :=
  ∃ status nextHeight, store.status = .ok status ∧ checkedAdd status.tipHeight 1 = some nextHeight ∧
    (store.transactionsActiveAt nextHeight = true → ∃ state, store.branchState lib store.activeTip = .ok state)

private theorem revalidateMempool_ok_iff {store : ForkChainStore} :
    (∃ after, revalidateMempool lib store = .ok () after) ↔ Revalidates lib store := by
  rw [revalidateMempool, Routine.get_bind]
  constructor
  · rintro ⟨after, returned⟩
    obtain ⟨status, known, returned⟩ := Routine.settle_bind_eq_ok.mp returned
    obtain ⟨nextHeight, next, returned⟩ := Routine.attempt_bind_eq_ok.mp returned
    refine ⟨status, nextHeight, known, okOr_eq_ok.mp next, fun active => ?_⟩
    rw [Routine.set_bind, if_pos active] at returned
    obtain ⟨state, replayed, -⟩ := Routine.settle_bind_eq_ok.mp returned
    exact ⟨state, replayed⟩
  · rintro ⟨status, nextHeight, known, next, active⟩
    rw [known, Routine.settle_ok, Routine.pure_bind_apply, next, okOr_some, Routine.attempt_ok,
      Routine.pure_bind_apply, Routine.set_bind]
    split_ifs with allowed
    · obtain ⟨state, replayed⟩ := active allowed
      rw [replayed, Routine.settle_ok, Routine.pure_bind_apply]
      exact keepValidTransactions_ok _ _ _ _
    · exact ⟨_, rfl⟩

/-- The store can report on a stored block: its tip is known, and when the tip has moved the waiting
transactions can be revalidated. -/
def Reports (lib : ForkPrimitives) (previousTip : Option Digest) (store : ForkChainStore) : Prop :=
  (∃ status, store.status = .ok status) ∧ (previousTip ≠ store.activeTip → Revalidates lib store)

variable {after : ForkChainStore}

theorem OnlyMempool.status_eq {before : ForkChainStore} (only : OnlyMempool before after) :
    after.status = before.status := by
  obtain ⟨_, _, rfl⟩ := only
  rfl

theorem reportAcceptance_ok_iff {hash : Digest} {previousTip : Option Digest} {store : ForkChainStore} :
    (∃ acceptance after, reportAcceptance lib hash height previousTip store = .ok acceptance after) ↔
      Reports lib previousTip store := by
  rw [reportAcceptance, Routine.get_bind]
  by_cases moved : previousTip ≠ store.activeTip
  · rw [if_pos moved]
    constructor
    · rintro ⟨acceptance, after, returned⟩
      obtain ⟨⟨⟩, middle, revalidated, returned⟩ := Routine.bind_eq_ok.mp returned
      have only : OnlyMempool store middle := (revalidateMempool_frame store).of_ok revalidated
      beta_reduce at returned
      rw [Routine.get_bind, only.status_eq] at returned
      obtain ⟨status, known, -⟩ := Routine.settle_bind_eq_ok.mp returned
      exact ⟨⟨status, known⟩, fun _ => revalidateMempool_ok_iff.mp ⟨middle, revalidated⟩⟩
    · rintro ⟨⟨status, known⟩, revalidates⟩
      obtain ⟨middle, revalidated⟩ := revalidateMempool_ok_iff.mpr (revalidates moved)
      have only : OnlyMempool store middle := (revalidateMempool_frame store).of_ok revalidated
      rw [Routine.bind_of_ok revalidated]
      beta_reduce
      rw [Routine.get_bind, only.status_eq, known]
      exact ⟨_, _, rfl⟩
  · rw [if_neg moved]
    constructor
    · rintro ⟨acceptance, after, returned⟩
      obtain ⟨status, known, -⟩ := Routine.settle_bind_eq_ok.mp returned
      exact ⟨⟨status, known⟩, fun different => absurd different moved⟩
    · rintro ⟨⟨status, known⟩, -⟩
      beta_reduce
      rw [Routine.get_bind, known]
      exact ⟨_, _, rfl⟩

/-! ## Stores with the same chain -/

/-- Only the waiting transactions and the log differ. -/
def SameChain (store other : ForkChainStore) : Prop :=
  ∃ mempool mempoolBytes blockLog, other = { store with mempool, mempoolBytes, blockLog }

namespace SameChain

variable {store other third : ForkChainStore}

theorem refl (store : ForkChainStore) : SameChain store store := ⟨_, _, _, rfl⟩

theorem symm (same : SameChain store other) : SameChain other store := by
  obtain ⟨_, _, _, rfl⟩ := same
  exact ⟨store.mempool, store.mempoolBytes, store.blockLog, rfl⟩

theorem trans (one : SameChain store other) (two : SameChain other third) : SameChain store third := by
  obtain ⟨_, _, _, rfl⟩ := one
  obtain ⟨mempool, mempoolBytes, blockLog, rfl⟩ := two
  exact ⟨mempool, mempoolBytes, blockLog, rfl⟩

theorem of_onlyMempool (only : OnlyMempool store other) : SameChain store other := by
  obtain ⟨mempool, mempoolBytes, rfl⟩ := only
  exact ⟨mempool, mempoolBytes, store.blockLog, rfl⟩

theorem logged (blockHex : Text) (store : ForkChainStore) : SameChain store (logged blockHex store) :=
  ⟨_, _, _, rfl⟩

section

variable (same : SameChain store other)
include same

theorem sound (sound : SoundFork lib store) : SoundFork lib other := by
  obtain ⟨_, _, _, rfl⟩ := same
  exact sound.congr rfl rfl rfl rfl rfl rfl

theorem validateBlock_eq (block : Block) (blockHex : Text) (nowUnix : U64) :
    other.validateBlock lib block blockHex nowUnix = store.validateBlock lib block blockHex nowUnix := by
  obtain ⟨_, _, _, rfl⟩ := same
  rfl

private theorem reports_iff (previousTip : Option Digest) :
    Reports lib previousTip other ↔ Reports lib previousTip store := by
  obtain ⟨_, _, _, rfl⟩ := same
  rfl

/-- Storing a block does not read the waiting transactions or the log, and keeps them. -/
theorem storeBlock_ok (sound : SoundFork lib store) {hash : Digest} {node : BlockNode} {rest : Branch}
    (unknown : store.lookup hash = none)
    (found : BranchOf store (store.attachment node.block) rest)
    (storing : storeBlock lib hash node store = .ok () after) :
    ∃ otherAfter, storeBlock lib hash node other = .ok () otherAfter ∧ SameChain after otherAfter ∧
      otherAfter.blockLog = other.blockLog := by
  have otherSound := same.sound sound
  obtain ⟨mempool, mempoolBytes, blockLog, rfl⟩ := same
  have otherUnknown : lookup { store with mempool, mempoolBytes, blockLog } hash = none := unknown
  have otherFound : BranchOf { store with mempool, mempoolBytes, blockLog }
    (store.attachment node.block) rest := found
  rcases SoundFork.storeBlock_eq unknown found sound with ⟨below, equation⟩ | ⟨above, equation⟩
  · rcases SoundFork.storeBlock_eq otherUnknown otherFound otherSound with ⟨-, otherEquation⟩ | ⟨preferred, -⟩
    · rw [equation] at storing
      cases storing
      exact ⟨_, otherEquation, ⟨_, _, _, rfl⟩, rfl⟩
    · exact absurd preferred below
  · rcases SoundFork.storeBlock_eq otherUnknown otherFound otherSound with ⟨notPreferred, -⟩ | ⟨-, otherEquation⟩
    · exact absurd above notPreferred
    · rw [equation] at storing
      have explorers : explored lib (withBlock lib hash node
          { store with mempool, mempoolBytes, blockLog }) ((hash, node) :: rest) =
        explored lib (withBlock lib hash node store) ((hash, node) :: rest) := rfl
      cases built : explored lib (withBlock lib hash node store) ((hash, node) :: rest) with
      | error fault =>
        rw [built] at storing
        cases storing
      | ok explorer =>
        rw [built] at storing explorers
        cases storing
        rw [explorers] at otherEquation
        exact ⟨_, otherEquation, ⟨_, _, _, rfl⟩, rfl⟩

/-- A block that one store accepts is accepted by every store with the same chain. -/
theorem acceptBlock_ok (sound : SoundFork lib store) {block : Block} {normalized : Text} {nowUnix : U64}
    {acceptance : ForkBlockAcceptance}
    (unknown : store.lookup (blockHash lib block) = none)
    (returned : acceptBlock lib block normalized nowUnix store = .ok acceptance after) :
    ∃ otherAcceptance otherAfter,
      acceptBlock lib block normalized nowUnix other = .ok otherAcceptance otherAfter ∧
        SameChain after otherAfter ∧ otherAfter.blockLog = (Soundness.logged normalized other).blockLog := by
  obtain ⟨node, stored, validated, fits, storing, reported⟩ := acceptBlock_eq_ok.mp returned
  obtain ⟨-, -, rest, found, -⟩ := sound.rooted.validated validated
  have logs : SameChain (Soundness.logged normalized store) (Soundness.logged normalized other) :=
    (logged normalized store).symm.trans (same.trans (logged normalized other))
  obtain ⟨otherStored, otherStoring, chain, log⟩ := logs.storeBlock_ok ((logged normalized store).sound sound) unknown
    found storing
  have tips : other.activeTip = store.activeTip := by
    obtain ⟨_, _, _, rfl⟩ := same
    rfl
  have configs : other.toForkChainConfig = store.toForkChainConfig := by
    obtain ⟨_, _, _, rfl⟩ := same
    rfl
  obtain ⟨otherAcceptance, otherAfter, otherReported⟩ := reportAcceptance_ok_iff.mpr
    ((chain.reports_iff store.activeTip).mpr (reportAcceptance_ok_iff.mp ⟨_, _, reported⟩))
  have only : OnlyMempool stored after := (reportAcceptance_frame _ _ _ stored).of_ok reported
  have otherOnly : OnlyMempool otherStored otherAfter := (reportAcceptance_frame _ _ _ otherStored).of_ok otherReported
  refine ⟨otherAcceptance, otherAfter, ?_,
    (of_onlyMempool only).symm.trans (chain.trans (of_onlyMempool otherOnly)), ?_⟩
  · rw [acceptBlock_eq_ok, same.validateBlock_eq, configs, tips]
    exact ⟨node, otherStored, validated, fits, otherStoring, otherReported⟩
  · obtain ⟨_, _, rfl⟩ := otherOnly
    exact log

end

end SameChain

end P2PoolBTC.Soundness
