import P2PoolBTC.Soundness.ForkIndexing
import P2PoolBTC.Soundness.ForkAcceptance

/-! # Calls that fail after they stored a block

A submission stores its block and moves the tip before it rebuilds the explorer index and revalidates
the waiting transactions, and either can fail. Neither does while the outputs of the branch total less
than a word can hold and its height is not the largest one.
-/

namespace P2PoolBTC.Soundness

open Math Std Model.Core Model.Node ForkChainStore

variable {lib : ForkPrimitives} {previousTip : Option Digest} {transaction : Transaction}

/-! ## Building the explorer index -/

/-- The value of the created outputs fits a word. -/
def TotalFits (entries : List (OutPoint × IndexedForkOutput)) : Prop :=
  (entries.map fun entry => entry.2.output.value.toNat).sum < 2 ^ 64

/-- What every address is paid fits a word. -/
def AddressesFit (lib : ForkPrimitives) (entries : List (OutPoint × IndexedForkOutput)) : Prop :=
  ∀ address, (entries.map fun entry => paidTo lib address entry.2).sum < 2 ^ 64

theorem TotalFits.addresses {entries : List (OutPoint × IndexedForkOutput)} (fit : TotalFits entries) :
    AddressesFit lib entries := by
  intro address
  refine Nat.lt_of_le_of_lt (List.sum_le_sum fun entry _ => ?_) fit
  unfold paidTo
  split_ifs
  · exact Nat.le_refl _
  · exact Nat.zero_le _

theorem AddressesFit.early (early late : List (OutPoint × IndexedForkOutput))
    (fit : AddressesFit lib (early ++ late)) : AddressesFit lib early := by
  intro address
  have whole := fit address
  rw [List.map_append, List.sum_append] at whole
  omega

section Funding

variable (height : U64) (txid : Digest) (coinbase : Bool)

private theorem fundOutput_performs {index : ℕ} (small : index < 2 ^ 32) (output : TxOut) :
    Performs (Funded lib) (AddressesFit lib) (fundOutput lib height txid coinbase index output)
      [(⟨txid, BitVec.ofNat 32 index⟩, { output, height, coinbase })] := by
  intro entries totals funded fit
  have returns : ∃ next, fundOutput lib height txid coinbase index output totals = .ok next := by
    simp only [fundOutput, u32FromNat?, if_pos small, okOr_some, except_ok_bind]
    cases paid : outputAddress lib output with
    | none => exact ⟨_, rfl⟩
    | some payee =>
      have bound := fit payee
      rw [List.map_append, List.sum_append, List.map_singleton, List.sum_singleton, ← funded.funded, paidTo,
        if_pos paid] at bound
      obtain ⟨total, sum, -⟩ :=
        exists_checkedAdd (accountOf totals.accumulators payee).fundedTotalSats output.value bound
      rw [accountOf] at sum
      simp only [fundAddress, sum, okOr_some, except_ok_bind]
      exact ⟨_, rfl⟩
  obtain ⟨next, returned⟩ := returns
  exact ⟨next, returned, fundOutput_adds height txid coinbase index output entries totals next funded returned⟩

private theorem fundOutputsFrom_performs {index : ℕ} {outputs : List TxOut} (small : index + outputs.length ≤ 2 ^ 32) :
    Performs (Funded lib) (AddressesFit lib) (fundOutputsFrom lib height txid coinbase index outputs)
      (outputEntries txid height coinbase index outputs) := by
  induction outputs generalizing index with
  | nil => exact .ok
  | cons output rest ih =>
    rw [List.length_cons] at small
    exact .bind AddressesFit.early (fundOutput_performs height txid coinbase (by omega) output) (ih (by omega))

end Funding

private theorem fundTransactions_performs (height : U64) {transactions : List Transaction}
    (small : ∀ transaction ∈ transactions, transaction.output.length ≤ 2 ^ 32) :
    Performs (Funded lib) (AddressesFit lib) (fundTransactions lib height transactions)
      ((transactions.map fun transaction => (height, transaction)).flatMap fun placed =>
        (transferOf lib placed).adds) := by
  induction transactions with
  | nil => exact .ok
  | cons transaction rest ih =>
    exact .bind AddressesFit.early (fundOutputsFrom_performs height _ _ (by simpa using small _ List.mem_cons_self))
      (ih fun other member => small other (List.mem_cons_of_mem _ member))

private theorem fundBlocks_performs {branch : Branch}
    (small : ∀ placed ∈ placedOn branch, placed.2.output.length ≤ 2 ^ 32) :
    Performs (Funded lib) (AddressesFit lib) (fundBlocks lib (branch.reverse.map activeOf))
      (entriesOn lib branch) := by
  induction branch with
  | nil => exact .ok
  | cons entry rest ih =>
    rw [placedOn_cons] at small
    rw [List.reverse_cons, List.map_append, fundBlocks_append, entriesOn, placedOn_cons, List.flatMap_append]
    refine .bind AddressesFit.early (ih fun placed member => small placed (List.mem_append_left _ member)) ?_
    have newest : Performs (Funded lib) (AddressesFit lib) _ _ :=
      .bind AddressesFit.early (fundTransactions_performs entry.2.height fun transaction member =>
        small (entry.2.height, transaction) (List.mem_append_right _ (List.mem_map_of_mem member))) .ok
    rwa [List.append_nil] at newest

/-- Previous outputs whose value fits a word can be added up. -/
theorem sumPreviousOutputs_ok (outputs : ExtTreeMap OutPoint IndexedForkOutput) (start : U64)
    (outpoints : List OutPoint) (fit : start.toNat + spentTotal outputs outpoints < 2 ^ 64) :
    ∃ total, sumPreviousOutputs outputs start outpoints = .ok total := by
  induction outpoints generalizing start with
  | nil => exact ⟨_, rfl⟩
  | cons outpoint rest ih =>
    rw [spentTotal, List.map_cons, List.sum_cons, ← spentTotal] at fit
    rw [sumPreviousOutputs]
    cases held : outputs[outpoint]? with
    | none => exact ⟨_, rfl⟩
    | some previous =>
      rw [held, Option.elim_some] at fit
      obtain ⟨next, sum, added⟩ := exists_checkedAdd start previous.output.value (by omega)
      simp only [sum, okOr_some, except_ok_bind]
      exact ih next (by omega)

variable {config : ForkChainConfig}

/-- A transaction that passed the checks spends less than a word can hold. -/
theorem checkTransaction_spends {height feeSats : U64} {state : ForkBranchState}
    (checked : config.checkTransaction lib transaction height state = .ok feeSats) :
    spentTotal state.utxos transaction.spends < 2 ^ 64 := by
  simp only [ForkChainConfig.checkTransaction, except_bind_eq_ok, require_eq_ok, okOr_eq_ok, exists_const] at checked
  obtain ⟨_, _, -, -, -, -, -, -, -, _, -, scan, scanned, -⟩ := checked
  obtain ⟨total, -⟩ := scanInputs_ok scanned
  have zero : ({} : InputScan).inputTotal.toNat = 0 := rfl
  have bound := scan.inputTotal.isLt
  rw [Transaction.spends]
  omega

/-- Each transaction of a new block was checked in a state that a part of the history led to. -/
theorem applyTransactions_checked {height feesSats total : U64} {pending : List Transaction} {history : List Placed}
    {state after : ForkBranchState}
    (applied : config.applyTransactions lib height feesSats pending state = .ok total after)
    (ledgered : Ledgered lib history state) :
    ∀ transaction ∈ pending, ∃ earlier before fee, Ledgered lib earlier before ∧
      earlier ⊆ history ++ pending.map (fun transaction => (height, transaction)) ∧
      config.checkTransaction lib transaction height before = .ok fee := by
  induction pending generalizing history state feesSats with
  | nil => simp
  | cons first rest ih =>
    obtain ⟨fee, middle, begun, applied⟩ := Routine.bind_eq_ok.mp applied
    obtain ⟨sum, -, applied⟩ := Routine.attempt_bind_eq_ok.mp applied
    obtain ⟨checked, -, replayed⟩ := validateAndApplyTransaction_ok begun
    rw [List.forall_mem_cons]
    refine ⟨⟨history, state, fee, ledgered, List.subset_append_left _ _, checked⟩, ?_⟩
    have later := ih applied (ledgered.step (replayed Digest.zero))
    rwa [List.append_assoc, List.singleton_append,
      ← List.map_cons (f := fun transaction => (height, transaction))] at later

section Amounts

variable {config : ForkChainConfig} {branch : Branch}

/-- Each spending transaction of a valid branch was checked in a state that a part of the branch led to. -/
theorem ValidBranch.checked (valid : ValidBranch lib config branch)
    (distinct : Set.InjOn lib.strippedTxid (strippedOn branch)) {placed : Placed} (member : placed ∈ placedOn branch)
    (spender : placed.2.isCoinbase = false) : ∃ earlier before fee, Ledgered lib earlier before ∧
      earlier ⊆ placedOn branch ∧ config.checkTransaction lib placed.2 placed.1 before = .ok fee := by
  induction valid with
  | nil => cases member
  | @cons hash node rest nowUnix hashed linked admitted valid ih =>
    have subset : strippedOn rest ⊆ strippedOn ([(hash, node)] ++ rest) := strippedOn_suffix
    rw [placedOn_cons] at member ⊢
    rcases List.mem_append.mp member with older | newest
    · obtain ⟨earlier, before, fee, ledgered, inside, checked⟩ := ih (distinct.mono subset) older
      exact ⟨earlier, before, fee, ledgered, List.Subset.trans inside (List.subset_append_left _ _), checked⟩
    · obtain ⟨transaction, listed, rfl⟩ := List.mem_map.mp newest
      obtain ⟨coinbase, others, feesSats, block, isCoinbase, fees, -, -⟩ := admitted.transactions
      have other : transaction ∈ others := by
        rw [block] at listed
        rcases List.mem_cons.mp listed with rfl | later
        · rw [isCoinbase] at spender
          cases spender
        · exact later
      rcases transactionsOn_ok fees with ⟨-, rfl, -⟩ | ⟨-, -, state, after, replayed, result⟩
      · cases other
      · obtain ⟨middle, first, rest⟩ := applyBlockTransactions_first Digest.zero isCoinbase result
        have checked := applyTransactions_checked rest ((Ledgered.branch replayed).step first) transaction other
        rwa [List.append_assoc, List.singleton_append,
          ← List.map_cons (f := fun transaction => (node.height, transaction)), ← block] at checked

variable {totals : ExplorerTotals} {state : ForkBranchState} (valid : ValidBranch lib config branch)
  (distinct : Set.InjOn lib.strippedTxid (strippedOn branch))
  (ledgered : Ledgered lib (placedOn branch) state)
  (funded : Funded lib (entriesOn lib branch) totals)
include valid distinct ledgered funded

/-- The amounts of every transaction of a valid branch can be computed. -/
theorem ValidBranch.amounts {entry : Digest × BlockNode} (inside : entry ∈ branch)
    (listed : transaction ∈ entry.2.block.txdata) :
    ∃ amounts, transactionAmounts transaction totals.outputs = .ok amounts := by
  cases spender : transaction.isCoinbase with
  | true =>
    obtain ⟨_, _, admitted⟩ := valid.admitted_of_mem inside
    exact admitted.coinbase_amounts listed spender _
  | false =>
    have member : (entry.2.height, transaction) ∈ placedOn branch := mem_placedOn.mpr ⟨entry, inside, rfl, listed⟩
    obtain ⟨earlier, before, fee, ledgeredBefore, part, checked⟩ := valid.checked distinct member spender
    obtain ⟨_, -, spend⟩ := checkTransaction_ok checked
    have unspent := Unspent.run ledgeredBefore.run ledgeredBefore.apart
    have known : ∀ outpoint ∈ transaction.spends, totals.outputs[outpoint]? = before.utxos[outpoint]? := by
      intro outpoint spends
      obtain ⟨previous, held, -⟩ := spend.held outpoint spends
      obtain ⟨⟨transfer, origin, created⟩, -⟩ := (unspent.held outpoint previous).mp held
      obtain ⟨placed, old, rfl⟩ := List.mem_map.mp origin
      rw [held, funded.output_eq ledgered (List.mem_flatMap.mpr ⟨placed, part old, created⟩)]
    have same : spentTotal totals.outputs transaction.spends = spentTotal before.utxos transaction.spends := by
      unfold spentTotal
      congr 1
      apply List.map_congr_left
      intro outpoint spends
      rw [known outpoint spends]
    have bound := checkTransaction_spends checked
    have balance := spend.balance
    simp only at bound balance
    obtain ⟨total, sum⟩ : ∃ total, checkedSum (transaction.output.map TxOut.value) = some total := by
      refine ⟨BitVec.ofNat 64 (outputTotal transaction.output), checkedSum_eq_some.mpr ?_⟩
      rw [BitVec.toNat_ofNat, Nat.mod_eq_of_lt (by omega), outputTotal, List.map_map]
      rfl
    obtain ⟨inputs, summed⟩ := sumPreviousOutputs_ok totals.outputs 0 transaction.spends
      (by rw [same]; simpa using bound)
    simp only [transactionAmounts, sum, okOr_some, except_ok_bind, spender, summed]
    exact ⟨_, rfl⟩

end Amounts

/-- The explorer index of a valid branch can be built while what every address is paid fits a word. -/
theorem ValidBranch.explorerIndex_ok {branch : Branch} (valid : ValidBranch lib config branch)
    (distinct : Set.InjOn lib.strippedTxid (strippedOn branch))
    (fit : AddressesFit lib (entriesOn lib branch)) :
    ∃ explorer, explorerIndex lib (branch.reverse.map activeOf) = .ok explorer := by
  obtain ⟨state, replayed, -⟩ := valid.money distinct
  have ledgered := Ledgered.branch replayed
  obtain ⟨totals, funding, funded⟩ := fundBlocks_performs ledgered.fits [] {} .initial fit
  rw [List.nil_append] at funded
  obtain ⟨spent, entries, spending, debited, listed⟩ := funded.spends_ok ledgered
  obtain ⟨recorded, recording⟩ : ∃ recorded,
      recordBlocks lib spent.outputs (branch.reverse.map activeOf) entries = .ok recorded := by
    refine recordBlocks_ok fun block member transaction inside => ?_
    obtain ⟨entry, reversed, rfl⟩ := List.mem_map.mp member
    rw [debited.outputs]
    exact valid.amounts distinct ledgered funded (List.mem_reverse.mp reversed) inside
  simp only [explorerIndex, funding, spending, listed, recording, except_ok_bind]
  exact ⟨_, rfl⟩

/-- When the explorer index of a branch can be built, so can the one of every branch below it. -/
theorem ValidBranch.explorerIndex_suffix {newer older : Branch} {explorer : ForkExplorerIndex}
    (valid : ValidBranch lib config (newer ++ older))
    (distinct : Set.InjOn lib.strippedTxid (strippedOn (newer ++ older)))
    (built : explorerIndex lib ((newer ++ older).reverse.map activeOf) = .ok explorer) :
    ∃ below, explorerIndex lib (older.reverse.map activeOf) = .ok below := by
  obtain ⟨totals, funding, -⟩ := except_bind_eq_ok.mp built
  have funded : Funded lib (entriesOn lib (newer ++ older)) totals :=
    fundBlocks_adds _ [] {} totals .initial funding
  have split : entriesOn lib (newer ++ older) = entriesOn lib older ++ entriesOn lib newer := by
    simp only [entriesOn, placedOn, List.reverse_append, List.flatMap_append]
  have fit : AddressesFit lib (entriesOn lib (newer ++ older)) := by
    intro address
    rw [← funded.funded]
    exact BitVec.isLt _
  rw [split] at fit
  exact (valid.of_suffix (List.suffix_append newer older)).explorerIndex_ok (distinct.mono strippedOn_suffix)
    (fit.early _ _)

/-! ## What a call leaves -/

/-- The state that a routine leaves, whether it returns or stops. -/
def leaves {σ ε α : Type} (routine : Routine σ ε α) (before : σ) : σ :=
  match routine before with
  | .ok _ after => after
  | .error _ after => after

theorem leaves_of_ok {σ ε α : Type} {routine : Routine σ ε α} {before after : σ} {value : α}
    (returned : routine before = .ok value after) : leaves routine before = after := by
  rw [leaves, returned]

theorem leaves_of_error {σ ε α : Type} {routine : Routine σ ε α} {before after : σ} {fault : Fault ε}
    (stopped : routine before = .error fault after) : leaves routine before = after := by
  rw [leaves, stopped]

theorem related_leaves {σ ε α : Type} {Rel : σ → σ → Prop} {routine : Routine σ ε α} {before : σ}
    (frame : Frame Rel routine before) : Rel before (leaves routine before) := by
  cases ended : routine before with
  | ok value after =>
    rw [leaves_of_ok ended]
    exact frame.of_ok ended
  | error fault after =>
    rw [leaves_of_error ended]
    exact frame.of_error ended

/-- A continuation that changes nothing leaves what the first routine left. -/
theorem leaves_bind {σ ε α β : Type} {first : Routine σ ε α} {next : α → Routine σ ε β} {before : σ}
    (unchanged : ∀ value middle, Frame Eq (next value) middle) :
    leaves (first >>= next) before = leaves first before := by
  cases ended : first before with
  | ok value middle =>
    rw [leaves_of_ok ended, related_leaves (unchanged value middle), leaves, leaves, Routine.bind_of_ok ended]
  | error fault middle => rw [leaves_of_error ended, leaves_of_error (Routine.bind_of_error ended)]

variable (lib)

/-- The store after a call, whether it returns or fails. -/
def ForkOp.call (store : ForkChainStore) : ForkOp → ForkChainStore
  | .block blockHex nowUnix => leaves (submitBlockAtTime lib blockHex nowUnix) store
  | .transaction transactionHex => leaves (submitTransaction lib transactionHex) store

/-- There is room for the newest block of a branch: its height is not the largest one, different transactions of
the branch have different identifiers, and the value of its outputs fits a word. -/
structure Roomy (node : BlockNode) (branch : Branch) : Prop where
  height : node.height.toNat + 1 < 2 ^ 64
  distinct : Set.InjOn lib.strippedTxid (strippedOn branch)
  total : TotalFits (entriesOn lib branch)

/-- There is room for the block that a call submits, if it is a valid one. -/
def ForkOp.HasRoom (store : ForkChainStore) : ForkOp → Prop
  | .block blockHex nowUnix => ∀ normalized block node rest, Submits lib blockHex normalized block →
      store.validateBlock lib block normalized nowUnix = .ok node →
      BranchOf store (store.attachment block) rest →
        Roomy lib node ((blockHash lib block, node) :: rest)
  | .transaction _ => True

/-- What a submission did to the chain. -/
inductive SubmissionEffect (before : ForkChainStore) : ForkChainStore → Prop
  | unchanged : SubmissionEffect before before
  | indexed {normalized : Text} {hash : Digest} {node : BlockNode} (unknown : before.lookup hash = none)
      (sound : SoundFork lib (withBlock lib hash node (logged normalized before))) :
      SubmissionEffect before (withBlock lib hash node (logged normalized before))
  | moved {normalized : Text} {hash : Digest} {node : BlockNode} {rest : Branch} {explorer : ForkExplorerIndex}
      (room : node.height.toNat + 1 < 2 ^ 64)
      (sound : SoundFork lib (movedTip lib hash node rest explorer (logged normalized before))) :
      SubmissionEffect before (leaves (revalidateMempool lib)
        (movedTip lib hash node rest explorer (logged normalized before)))

variable {lib} {nowUnix : U64}

section Submissions

variable {store : ForkChainStore} {hash : Digest} {height : U64}

private theorem leaves_reportAcceptance_of_same (same : previousTip = store.activeTip) :
    leaves (reportAcceptance lib hash height previousTip) store = store := by
  rw [leaves, reportAcceptance_eq, if_neg (not_not.mpr same), ← leaves]
  exact (related_leaves (reportTip_frame (fun _ => rfl) _ _ _ store)).symm

private theorem leaves_reportAcceptance_of_moved (moved : previousTip ≠ store.activeTip) :
    leaves (reportAcceptance lib hash height previousTip) store = leaves (revalidateMempool lib) store := by
  rw [leaves, reportAcceptance_eq, if_pos moved, ← leaves]
  exact leaves_bind fun _ => reportTip_frame (fun _ => rfl) _ _ _

/-- A new block is refused, or it is stored and whatever follows changes the waiting transactions only. -/
theorem leaves_acceptBlock (block : Block) (normalized : Text) (nowUnix : U64) (store : ForkChainStore) :
    leaves (acceptBlock lib block normalized nowUnix) store = store ∨
      ∃ node, store.validateBlock lib block normalized nowUnix = .ok node ∧
        OnlyMempool (leaves (storeBlock lib (blockHash lib block) node) (logged normalized store))
          (leaves (acceptBlock lib block normalized nowUnix) store) := by
  rcases acceptBlock_valid_or_refused lib block normalized nowUnix store with ⟨node, validated, fits⟩ | ⟨_, refused⟩
  · refine .inr ⟨node, validated, ?_⟩
    rw [leaves.eq_def (acceptBlock _ _ _ _), acceptBlock_of_valid validated fits, ← leaves]
    cases storing : storeBlock lib (blockHash lib block) node (logged normalized store) with
    | error fault final =>
      rw [leaves_of_error storing, leaves_of_error (Routine.bind_of_error storing)]
      exact .refl _
    | ok _ final =>
      rw [leaves_of_ok storing, leaves.eq_def (_ >>= _), Routine.bind_of_ok storing, ← leaves]
      exact related_leaves (reportAcceptance_frame _ _ _ final)
  · exact .inl (leaves_of_error refused)

/-- A submission changes nothing, or it does what accepting its new block does. -/
theorem leaves_submitBlockAtTime (blockHex : Text) (nowUnix : U64) (store : ForkChainStore) :
    leaves (submitBlockAtTime lib blockHex nowUnix) store = store ∨
      ∃ normalized block, Submits lib blockHex normalized block ∧
        store.lookup (blockHash lib block) = none ∧
        leaves (submitBlockAtTime lib blockHex nowUnix) store =
          leaves (acceptBlock lib block normalized nowUnix) store := by
  rcases submitBlockAtTime_cases blockHex nowUnix store with
    ⟨_, refused⟩ | ⟨normalized, block, submits, ⟨-, same⟩ | ⟨unknown, same⟩⟩
  · exact .inl (leaves_of_error refused)
  · exact .inl (related_leaves same).symm
  · exact .inr ⟨normalized, block, submits, unknown, by rw [leaves, same, ← leaves]⟩

variable (sound : SoundFork lib store)
include sound

private theorem acceptBlock_effect {block : Block} {normalized : Text}
    (unknown : store.lookup (blockHash lib block) = none)
    (room : ∀ node rest, store.validateBlock lib block normalized nowUnix = .ok node →
      BranchOf store (store.attachment block) rest →
        Roomy lib node ((blockHash lib block, node) :: rest)) :
    SubmissionEffect lib store (leaves (acceptBlock lib block normalized nowUnix) store) := by
  rcases acceptBlock_valid_or_refused lib block normalized nowUnix store with ⟨node, validated, fits⟩ | ⟨_, refused⟩
  · obtain ⟨rfl, -, rest, found, valid⟩ := sound.rooted.validated validated
    have soundLogged : SoundFork lib (logged normalized store) := sound.congr rfl rfl rfl rfl rfl rfl
    have unknownLogged : (logged normalized store).lookup (blockHash lib node.block) = none := unknown
    have attached : BranchOf (logged normalized store)
      ((logged normalized store).attachment node.block) rest := found
    rw [leaves, acceptBlock_of_valid validated fits, ← leaves]
    rcases SoundFork.storeBlock_eq unknownLogged attached soundLogged with ⟨-, storing⟩ | ⟨preferred, storing⟩
    · have kept := soundLogged.storing unknownLogged attached valid storing
      have same : store.activeTip =
          (withBlock lib (blockHash lib node.block) node (logged normalized store)).activeTip := rfl
      rw [leaves, Routine.bind_of_ok storing, ← leaves, leaves_reportAcceptance_of_same same]
      exact .indexed unknown kept
    · have roomy := room node rest validated found
      obtain ⟨explorer, built⟩ := valid.explorerIndex_ok roomy.distinct roomy.total.addresses
      rw [explored_eq (attached.grown_new unknownLogged) valid, built] at storing
      have kept := soundLogged.storing unknownLogged attached valid storing
      have different : store.activeTip ≠ some (blockHash lib node.block) := by
        intro same
        obtain ⟨tip, stored⟩ := sound.tip_stored _ same
        rw [unknown] at stored
        cases stored
      rw [leaves, Routine.bind_of_ok storing, ← leaves, leaves_reportAcceptance_of_moved different]
      exact .moved roomy.height kept
  · rw [leaves_of_error refused]
    exact .unchanged

/-- While there is room, a submission leaves the store as it was, stores a block below the tip, or moves the tip and
revalidates the waiting transactions, however it ends. -/
theorem submitBlockAtTime_effect {blockHex : Text} (room : (ForkOp.block blockHex nowUnix).HasRoom lib store) :
    SubmissionEffect lib store (leaves (submitBlockAtTime lib blockHex nowUnix) store) := by
  rcases leaves_submitBlockAtTime blockHex nowUnix store with
    same | ⟨normalized, block, submits, unknown, same⟩
  · rw [same]
    exact .unchanged
  · rw [same]
    exact acceptBlock_effect sound unknown fun node rest validated found =>
      room normalized block node rest submits validated found

end Submissions

/-! ## Stored blocks after any calls -/

/-- The store after some calls, whether they return or fail. -/
def afterCalls (lib : ForkPrimitives) (config : ForkChainConfig) (ops : List ForkOp) : ForkChainStore :=
  ops.foldl (ForkOp.call lib) (emptyStore config)

theorem afterCalls_concat (config : ForkChainConfig) (ops : List ForkOp) (op : ForkOp) :
    afterCalls lib config (ops ++ [op]) = op.call lib (afterCalls lib config ops) := by
  simp [afterCalls]

/-- Calls that return or are refused lead to the same store. -/
theorem afterCalls_of_run {ops : List ForkOp} {store : ForkChainStore}
    (reached : run? (ForkOp.step? lib) (emptyStore config) ops = some store) :
    afterCalls lib config ops = store := by
  induction ops using List.reverseRecOn generalizing store with
  | nil => exact Option.some.inj reached
  | append_singleton ops op ih =>
    obtain ⟨middle, early, stepped⟩ := run?_concat_eq_some.mp reached
    rw [afterCalls_concat, ih early]
    cases op with
    | transaction transactionHex =>
      rw [ForkOp.step?] at stepped
      rw [ForkOp.call, leaves]
      split at stepped <;> simp_all
    | block blockHex nowUnix =>
      rw [ForkOp.step?] at stepped
      rw [ForkOp.call, leaves]
      split at stepped <;> simp_all

/-- What a call did to the stored blocks: nothing, or it stored a block that it had validated. -/
def StoresAtMost (lib : ForkPrimitives) (before : ForkChainStore) (op : ForkOp) (after : ForkChainStore) : Prop :=
  SameBlocks before after ∨ ∃ blockHex nowUnix normalized block node, op = .block blockHex nowUnix ∧
    Submits lib blockHex normalized block ∧ before.lookup (blockHash lib block) = none ∧
    before.validateBlock lib block normalized nowUnix = .ok node ∧
    SameBlocks { before with blocks := before.blocks.insert (blockHash lib block) node } after

private theorem storesAtMost_submission (before : ForkChainStore) (blockHex : Text) (nowUnix : U64) :
    StoresAtMost lib before (.block blockHex nowUnix)
      (leaves (submitBlockAtTime lib blockHex nowUnix) before) := by
  rcases leaves_submitBlockAtTime blockHex nowUnix before with same | ⟨normalized, block, submits, unknown, same⟩
  · rw [same]
    exact .inl (.refl _)
  rcases leaves_acceptBlock block normalized nowUnix before with kept | ⟨node, validated, only⟩
  · rw [same, kept]
    exact .inl (.refl _)
  · rw [same]
    refine .inr ⟨blockHex, nowUnix, normalized, block, node, rfl, submits, unknown, validated,
      .trans ?_ only.sameBlocks⟩
    cases storing : storeBlock lib (blockHash lib block) node (logged normalized before) with
    | ok _ after =>
      rw [leaves_of_ok storing]
      exact storeBlock_blocks (logged normalized before) (.inl ⟨_, storing⟩)
    | error fault after =>
      rw [leaves_of_error storing]
      exact storeBlock_blocks (logged normalized before) (.inr ⟨_, storing⟩)

theorem storesAtMost_call (before : ForkChainStore) (op : ForkOp) :
    StoresAtMost lib before op (op.call lib before) := by
  cases op with
  | block blockHex nowUnix => exact storesAtMost_submission before blockHex nowUnix
  | transaction transactionHex =>
    have frame : Frame OnlyMempool (submitTransaction lib transactionHex) before :=
      submitTransaction_frame transactionHex before
    exact .inl (related_leaves frame).sameBlocks

theorem afterCalls_config (config : ForkChainConfig) (ops : List ForkOp) :
    (afterCalls lib config ops).toForkChainConfig = config := by
  induction ops using List.reverseRecOn with
  | nil => rfl
  | append_singleton ops op ih =>
    rw [afterCalls_concat]
    rcases storesAtMost_call (afterCalls lib config ops) op with same | ⟨_, _, _, _, _, -, -, -, -, same⟩
    · exact same.1.trans ih
    · exact same.1.trans ih

/-- A property of a store that only its stored blocks decide holds after all calls if storing a validated block
keeps it. -/
theorem afterCalls_invariant (config : ForkChainConfig) (holds : ForkChainStore → Prop)
    (start : holds (emptyStore config))
    (same : ∀ before after, SameBlocks before after → holds before → holds after) (ops : List ForkOp)
    (stores : ∀ before, ∀ op ∈ ops, ∀ blockHex nowUnix normalized block node, op = .block blockHex nowUnix →
      Submits lib blockHex normalized block → before.lookup (blockHash lib block) = none →
      before.validateBlock lib block normalized nowUnix = .ok node → holds before →
        holds { before with blocks := before.blocks.insert (blockHash lib block) node }) :
    holds (afterCalls lib config ops) := by
  induction ops using List.reverseRecOn with
  | nil => exact start
  | append_singleton ops op ih =>
    have held := ih fun before earlier member => stores before earlier (List.mem_append_left _ member)
    rw [afterCalls_concat]
    rcases storesAtMost_call (afterCalls lib config ops) op with
      only | ⟨blockHex, nowUnix, normalized, block, node, isBlock, submits, unknown, validated, only⟩
    · exact same _ _ only held
    · exact same _ _ only (stores _ op (List.mem_append_right _ List.mem_cons_self) blockHex nowUnix normalized block
        node isBlock submits unknown validated held)

namespace Rooted

theorem sameBlocks {before after : ForkChainStore} (same : SameBlocks before after)
    (rooted : Rooted lib before) : Rooted lib after := by
  obtain ⟨⟨_, _, _⟩, _, _, _, _, _, _, _, _, _⟩ := before
  obtain ⟨⟨_, _, _⟩, _, _, _, _, _, _, _, _, _⟩ := after
  obtain ⟨config, blocks⟩ := same
  cases config
  cases blocks
  exact rooted

theorem insert {store : ForkChainStore} (rooted : Rooted lib store) {block : Block} {blockHex : Text}
    {node : BlockNode} (unknown : store.lookup (blockHash lib block) = none)
    (validated : store.validateBlock lib block blockHex nowUnix = .ok node) :
    Rooted lib { store with blocks := store.blocks.insert (blockHash lib block) node } := by
  obtain ⟨rfl, -, rest, found, valid⟩ := rooted.validated validated
  exact (rooted.withBlock unknown found valid :)

theorem afterCalls (config : ForkChainConfig) (ops : List ForkOp) :
    Rooted lib (afterCalls lib config ops) := by
  refine afterCalls_invariant config (Rooted lib) ?_ (fun _ _ => sameBlocks) ops ?_
  · intro hash node stored
    rw [emptyStore, lookup_empty] at stored
    cases stored
  · intro before _ _ _ _ _ _ _ _ _ unknown validated rooted
    exact rooted.insert unknown validated

end Rooted

end P2PoolBTC.Soundness
