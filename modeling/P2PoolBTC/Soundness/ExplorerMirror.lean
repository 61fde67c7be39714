import P2PoolBTC.Soundness.ForkCalls

/-! # The explorer index and the state of the active branch

The index is built in passes over the whole branch, the branch state transaction by transaction. Both
describe the same outputs: those created and not spent. What an address is listed with adds up to what
it was paid and did not spend, and a transaction is listed once. An index is rebuilt whenever the tip
moves, so it belongs to the active branch unless that rebuild failed, which happens only when an address
was paid more than a word can hold.
-/

namespace P2PoolBTC.Soundness

open Math Std Model.Core Model.Node ForkChainStore

variable {lib : ForkPrimitives} {accounts : List (Text × ForkAddressAccumulator)}
  {entries : ExtTreeMap Text ForkAddressIndexEntry}

/-- What an explorer index has to do with the state of a branch. -/
structure Mirrors (lib : ForkPrimitives) (explorer : ForkExplorerIndex) (state : ForkBranchState) : Prop where
  unspent : ∀ (outpoint : OutPoint) (indexed : IndexedForkOutput),
    explorer.outputs[outpoint]? = some indexed ∧ outpoint ∉ explorer.spends ↔ state.utxos[outpoint]? = some indexed
  listed : ∀ (outpoint : OutPoint) (indexed : IndexedForkOutput) (address : Text),
    explorer.outputs[outpoint]? = some indexed → outputAddress lib indexed.output = some address →
    address ∈ explorer.addresses
  balance : ∀ (address : Text) (entry : ForkAddressIndexEntry), explorer.addresses[address]? = some entry →
    entry.summary.fundedTotalSats.toNat = entry.summary.spentTotalSats.toNat + entry.summary.balanceSats.toNat ∧
      (entry.utxos.map fun utxo => utxo.valueSats.toNat).sum = entry.summary.balanceSats.toNat
  once : ∀ (address : Text) (entry : ForkAddressIndexEntry), explorer.addresses[address]? = some entry →
    (entry.transactions.map ForkTransactionRef.txid).Nodup

/-! ## Entries of addresses -/

theorem getElem?_updateEntry (update : ForkAddressIndexEntry → ForkAddressIndexEntry)
    (addresses : ExtTreeMap Text ForkAddressIndexEntry) (address other : Text) :
    (updateEntry update addresses address)[other]? =
      if address = other then (addresses[other]?).map update else addresses[other]? := by
  rw [updateEntry]
  split_ifs with same
  · subst same
    cases found : addresses[address]? with
    | none => exact found
    | some entry => simp
  · cases addresses[address]? with
    | none => rfl
    | some entry => simp [getElem?_insert_eq, same]

private theorem getElem?_foldl_updateEntry (update : ForkAddressIndexEntry → ForkAddressIndexEntry)
    {related : List Text}
    (distinct : related.Nodup) (addresses : ExtTreeMap Text ForkAddressIndexEntry) (other : Text) :
    (related.foldl (updateEntry update) addresses)[other]? =
      if other ∈ related then (addresses[other]?).map update else addresses[other]? := by
  induction related generalizing addresses with
  | nil => simp
  | cons address rest ih =>
    obtain ⟨absent, distinct⟩ := List.nodup_cons.mp distinct
    rw [List.foldl_cons, ih distinct, getElem?_updateEntry]
    by_cases same : address = other
    · subst same
      simp [absent]
    · simp [same, Ne.symm same]

private theorem getElem?_addressEntries (distinct : (accounts.map Prod.fst).Nodup)
    (built : addressEntries accounts = .ok entries) (address : Text) (entry : ForkAddressIndexEntry) :
    entries[address]? = some entry ↔
      ∃ account, (address, account) ∈ accounts ∧ addressEntry address account = .ok entry := by
  induction accounts generalizing entries with
  | nil =>
    cases built
    simp
  | cons first rest ih =>
    obtain ⟨payee, account⟩ := first
    simp only [addressEntries, except_bind_eq_ok] at built
    obtain ⟨own, made, others, listed, returned⟩ := built
    cases returned
    rw [List.map_cons, List.nodup_cons] at distinct
    rw [getElem?_insert_eq]
    split_ifs with same
    · subst same
      constructor
      · rintro ⟨⟩
        exact ⟨account, List.mem_cons_self, made⟩
      · rintro ⟨other, member, found⟩
        rcases List.mem_cons.mp member with same | later
        · cases same
          rw [← Except.ok.inj (made.symm.trans found)]
        · exact absurd (List.mem_map_of_mem later) distinct.1
    · rw [ih distinct.2 listed]
      simp [Ne.symm same]

private theorem mem_addressEntries (built : addressEntries accounts = .ok entries) (address : Text) :
    address ∈ entries ↔ address ∈ accounts.map Prod.fst := by
  induction accounts generalizing entries with
  | nil =>
    cases built
    simp
  | cons first rest ih =>
    simp only [addressEntries, except_bind_eq_ok] at built
    obtain ⟨own, -, others, listed, returned⟩ := built
    cases returned
    rw [mem_treeMap_insert, ih listed, List.map_cons, List.mem_cons, eq_comm]

/-- A new entry lists nothing, and its balance is what the account was paid and did not spend. -/
theorem addressEntry_ok {address : Text} {account : ForkAddressAccumulator} {entry : ForkAddressIndexEntry}
    (made : addressEntry address account = .ok entry) :
    entry.transactions = [] ∧ entry.utxos = [] ∧ entry.summary.fundedTotalSats = account.fundedTotalSats ∧
      entry.summary.spentTotalSats = account.spentTotalSats ∧
      account.fundedTotalSats.toNat = account.spentTotalSats.toNat + entry.summary.balanceSats.toNat := by
  simp only [addressEntry, except_bind_eq_ok, okOr_eq_ok] at made
  obtain ⟨balance, difference, returned⟩ := made
  cases returned
  have left := checkedSub_eq_some.mp difference
  refine ⟨rfl, rfl, rfl, rfl, ?_⟩
  simp only
  omega

/-! ## Listed transactions -/

/-- Entries after transactions were listed: each address got some of the transactions, in their order. -/
def Lists (before after : ExtTreeMap Text ForkAddressIndexEntry) (txids : List Text) : Prop :=
  ∀ address : Text, ∃ references, after[address]? = (before[address]?).map (fun entry =>
      { entry with transactions := entry.transactions ++ references }) ∧
    (references.map ForkTransactionRef.txid).Sublist txids

theorem Lists.refl (entries : ExtTreeMap Text ForkAddressIndexEntry) (txids : List Text) :
    Lists entries entries txids := by
  intro address
  exact ⟨[], by simp, List.nil_sublist _⟩

theorem Lists.trans {first second third : ExtTreeMap Text ForkAddressIndexEntry} {early late : List Text}
    (one : Lists first second early) (two : Lists second third late) : Lists first third (early ++ late) := by
  intro address
  obtain ⟨before, begun, earlyPart⟩ := one address
  obtain ⟨after, ended, latePart⟩ := two address
  refine ⟨before ++ after, ?_, ?_⟩
  · rw [ended, begun, Option.map_map]
    simp [Function.comp_def]
  · rw [List.map_append]
    exact earlyPart.append latePart

section Listing

variable {outputs : ExtTreeMap OutPoint IndexedForkOutput} {before after : ExtTreeMap Text ForkAddressIndexEntry}

private theorem recordTransaction_lists {height : U64} {hash : Digest} {transaction : Transaction} {index : ℕ}
    (recorded : recordTransaction lib outputs height hash transaction index before = .ok after) :
    Lists before after [displayHash (computeTxid lib transaction)] := by
  rw [recordTransaction] at recorded
  split_ifs at recorded with unrelated
  · cases recorded
    exact .refl _ _
  · simp only [except_bind_eq_ok, transactionRef] at recorded
    obtain ⟨reference, ⟨amounts, -, made⟩, returned⟩ := recorded
    cases made
    cases returned
    intro address
    rw [getElem?_foldl_updateEntry _ (nodup_treeSet_toList _)]
    split_ifs
    · exact ⟨[_], rfl, List.Sublist.refl _⟩
    · exact ⟨[], by simp, List.nil_sublist _⟩

private theorem recordTransactions_lists {height : U64} {hash : Digest} {transactions : List Transaction} {index : ℕ}
    (recorded : recordTransactions lib outputs height hash index transactions before = .ok after) :
    Lists before after
      (transactions.map fun transaction => displayHash (computeTxid lib transaction)).reverse := by
  induction transactions generalizing index after with
  | nil =>
    cases recorded
    exact .refl _ _
  | cons transaction rest ih =>
    simp only [recordTransactions, except_bind_eq_ok] at recorded
    obtain ⟨later, others, first⟩ := recorded
    rw [List.map_cons, List.reverse_cons]
    exact (ih others).trans (recordTransaction_lists first)

private theorem recordBlocks_lists {active : List ActiveBlock}
    (recorded : recordBlocks lib outputs active before = .ok after) :
    Lists before after (active.flatMap fun block =>
      block.block.txdata.map fun transaction => displayHash (computeTxid lib transaction)).reverse := by
  induction active generalizing after with
  | nil =>
    cases recorded
    exact .refl _ _
  | cons block rest ih =>
    simp only [recordBlocks, except_bind_eq_ok] at recorded
    obtain ⟨later, others, first⟩ := recorded
    rw [List.flatMap_cons, List.reverse_append]
    exact (ih others).trans (recordTransactions_lists first)

end Listing

/-! ## Listed outputs -/

/-- Every address is listed with its unspent outputs. -/
theorem recordUtxos_sum (lib : ForkPrimitives) (spends : ExtTreeMap OutPoint ForkOutputSpend)
    (outputs : List (OutPoint × IndexedForkOutput)) (addresses : ExtTreeMap Text ForkAddressIndexEntry)
    (address : Text) :
    ∃ utxos : List ForkUtxo, (outputs.foldl (recordUtxo lib spends) addresses)[address]? =
        (addresses[address]?).map (fun entry : ForkAddressIndexEntry => { entry with utxos := entry.utxos ++ utxos }) ∧
      (utxos.map fun utxo => utxo.valueSats.toNat).sum =
        ((outputs.filter fun entry => entry.1 ∉ spends).map fun entry => paidTo lib address entry.2).sum := by
  induction outputs generalizing addresses with
  | nil => exact ⟨[], by simp, rfl⟩
  | cons output rest ih =>
    obtain ⟨utxos, found, total⟩ := ih (recordUtxo lib spends addresses output)
    rw [List.foldl_cons, found, recordUtxo]
    split_ifs with spent
    · exact ⟨utxos, rfl, by rw [total]; simp [spent]⟩
    · cases paid : outputAddress lib output.2.output with
      | none => exact ⟨utxos, rfl, by rw [total]; simp [spent, paidTo, paid]⟩
      | some payee =>
        simp only [getElem?_updateEntry]
        by_cases same : payee = address
        · rw [if_pos same, Option.map_map]
          refine ⟨_ :: utxos, by simp [Function.comp_def]; rfl, ?_⟩
          simp [spent, paidTo, paid, same, total]
        · exact ⟨utxos, by rw [if_neg same], by rw [total]; simp [spent, paidTo, paid, same]⟩

/-! ## The index of a valid branch -/

section Index

variable {branch : Branch} {state : ForkBranchState} {totals spent : ExplorerTotals}
  (ledgered : Ledgered lib (placedOn branch) state)
  (funded : Funded lib (entriesOn lib branch) totals)
  (debited : Debited lib totals (spendsOn lib branch) spent)
include ledgered funded debited

/-- The outputs that the passes did not mark as spent are those the branch leaves unspent. -/
theorem unspent_iff (outpoint : OutPoint) (indexed : IndexedForkOutput) :
    spent.outputs[outpoint]? = some indexed ∧ outpoint ∉ spent.spends ↔ state.utxos[outpoint]? = some indexed := by
  have unspent := Unspent.run ledgered.run ledgered.apart
  have created : spent.outputs[outpoint]? = some indexed ↔ (outpoint, indexed) ∈ entriesOn lib branch := by
    rw [debited.outputs, funded.outputs, getElem?_foldl_insert Prod.fst Prod.snd _ ledgered.nodup_entriesOn]
    simp
  rw [created, debited.marked, unspent.held, List.forall_mem_map]
  simp only [entriesOn, spendsOn, List.mem_flatMap, List.mem_map, exists_exists_and_eq_and, not_exists, not_and]

/-- What an address was paid is what it spent and what the branch leaves it. -/
theorem funded_eq (address : Text) :
    (accountOf spent.accumulators address).fundedTotalSats.toNat =
      (accountOf spent.accumulators address).spentTotalSats.toNat +
        mapTotal (paidTo lib address) state.utxos := by
  have sums := sum_takes_add_held ledgered.run ledgered.apart (takenFrom lib totals.outputs address)
  rw [List.flatMap_map, List.flatMap_map] at sums
  have paid : (entriesOn lib branch).map (fun entry => takenFrom lib totals.outputs address entry.1) =
      (entriesOn lib branch).map fun entry => paidTo lib address entry.2 := by
    apply List.map_congr_left
    rintro ⟨outpoint, indexed⟩ entry
    rw [takenFrom, funded.output_eq ledgered entry, Option.elim_some]
  have held : state.utxos.toList.map (fun entry => takenFrom lib totals.outputs address entry.1) =
      state.utxos.toList.map fun entry => paidTo lib address entry.2 := by
    apply List.map_congr_left
    rintro ⟨outpoint, indexed⟩ entry
    rw [ExtTreeMap.mem_toList_iff_getElem?_eq_some, ← unspent_iff ledgered funded debited, debited.outputs] at entry
    rw [takenFrom, entry.1, Option.elim_some]
  rw [debited.funded, funded.funded, debited.spent, ← paid, mapTotal, ← held]
  exact sums.symm

/-- The listed outputs of an address come to what the branch leaves it. -/
theorem listed_sum (address : Text) :
    ((spent.outputs.toList.filter fun entry => entry.1 ∉ spent.spends).map fun entry =>
      paidTo lib address entry.2).sum = mapTotal (paidTo lib address) state.utxos := by
  have same : (spent.outputs.toList.filter fun entry => entry.1 ∉ spent.spends).Perm state.utxos.toList := by
    rw [List.perm_ext_iff_of_nodup ((nodup_toList _).filter _) (nodup_toList _)]
    rintro ⟨outpoint, indexed⟩
    rw [List.mem_filter, ExtTreeMap.mem_toList_iff_getElem?_eq_some, ExtTreeMap.mem_toList_iff_getElem?_eq_some,
      decide_eq_true_eq]
    exact unspent_iff ledgered funded debited outpoint indexed
  exact (same.map _).sum_eq

end Index

/-- The index of a valid branch mirrors the state of the branch. -/
theorem ValidBranch.mirrors {config : ForkChainConfig} {branch : Branch} {explorer : ForkExplorerIndex}
    (valid : ValidBranch lib config branch)
    (distinct : Set.InjOn lib.strippedTxid (strippedOn branch))
    (built : explorerIndex lib (branch.reverse.map activeOf) = .ok explorer) :
    ∃ state, stateOn lib branch = .ok state ∧ Mirrors lib explorer state := by
  obtain ⟨state, replayed, -⟩ := valid.money distinct
  have ledgered := Ledgered.branch replayed
  simp only [explorerIndex, except_bind_eq_ok] at built
  obtain ⟨totals, funding, spent, spending, entries, listing, recorded, recording, returned⟩ := built
  cases returned
  have funded : Funded lib (entriesOn lib branch) totals :=
    fundBlocks_adds _ [] {} totals .initial funding
  obtain ⟨_, _, spendingAgain, debited, -⟩ := funded.spends_ok ledgered
  obtain rfl := Except.ok.inj (spending.symm.trans spendingAgain)
  have keys : (spent.accumulators.toList.map Prod.fst).Nodup := by
    rw [ExtTreeMap.map_fst_toList_eq_keys]
    exact ExtTreeMap.nodup_keys
  -- An entry of the index comes from an account, the transactions listed for it and its unspent outputs.
  have traced (address : Text) : ∃ references utxos,
      (sortUtxos (spent.outputs.toList.foldl (recordUtxo lib spent.spends) recorded))[address]? =
        (entries[address]?).map (fun entry => { entry with
          transactions := entry.transactions ++ references
          utxos := sortBy compareUtxos (entry.utxos ++ utxos) }) ∧
      (references.map ForkTransactionRef.txid).Nodup ∧
      (utxos.map fun utxo => utxo.valueSats.toNat).sum = mapTotal (paidTo lib address) state.utxos := by
    obtain ⟨references, listed, part⟩ := recordBlocks_lists recording address
    obtain ⟨utxos, found, total⟩ := recordUtxos_sum lib spent.spends spent.outputs.toList recorded address
    refine ⟨references, utxos, ?_, part.nodup ?_, total.trans (listed_sum ledgered funded debited address)⟩
    · rw [sortUtxos, ExtTreeMap.getElem?_map, found, listed, Option.map_map, Option.map_map]
      rfl
    · rw [List.nodup_reverse]
      have txids : ((branch.reverse.map activeOf).flatMap fun block => block.block.txdata.map fun transaction =>
          displayHash (computeTxid lib transaction)) =
            ((placedOn branch).map fun placed => computeTxid lib placed.2).map displayHash := by
        rw [List.flatMap_map]
        simp [placedOn, List.map_flatMap, activeOf, Function.comp_def]
      rw [txids]
      exact ledgered.distinct.map displayHash_injective
  -- Every entry starts from the account of its address.
  have started {address : Text} {entry : ForkAddressIndexEntry} (found : entries[address]? = some entry) :
      addressEntry address (accountOf spent.accumulators address) = .ok entry := by
    obtain ⟨account, member, made⟩ := (getElem?_addressEntries keys listing address entry).mp found
    rwa [accountOf, ExtTreeMap.mem_toList_iff_getElem?_eq_some.mp member, Option.getD_some]
  refine ⟨state, replayed, unspent_iff ledgered funded debited, ?_, ?_, ?_⟩
  · intro outpoint indexed address created paid
    rw [debited.outputs, funded.outputs, getElem?_foldl_insert Prod.fst Prod.snd _ ledgered.nodup_entriesOn] at created
    obtain ⟨entry, member, -, rfl⟩ : ∃ entry ∈ entriesOn lib branch, entry.1 = outpoint ∧ entry.2 = indexed := by
      simpa using created
    have known := debited.listed address (funded.listed entry member address paid)
    have opened : address ∈ entries := by
      rwa [mem_addressEntries listing, ExtTreeMap.map_fst_toList_eq_keys, ExtTreeMap.mem_keys]
    obtain ⟨start, found⟩ := mem_iff_exists_getElem?.mp opened
    obtain ⟨references, utxos, final, -⟩ := traced address
    rw [found] at final
    exact mem_iff_exists_getElem?.mpr ⟨_, final⟩
  · intro address entry found
    obtain ⟨references, utxos, final, -, total⟩ := traced address
    rw [final] at found
    obtain ⟨start, known, rfl⟩ := Option.map_eq_some_iff.mp found
    obtain ⟨-, none, paid, took, balance⟩ := addressEntry_ok (started known)
    have sums := funded_eq ledgered funded debited address
    simp only [none, List.nil_append]
    rw [((sortBy_perm compareUtxos utxos).map _).sum_eq, total, paid, took]
    omega
  · intro address entry found
    obtain ⟨references, utxos, final, once, -⟩ := traced address
    rw [final] at found
    obtain ⟨start, known, rfl⟩ := Option.map_eq_some_iff.mp found
    simp only [(addressEntry_ok (started known)).1, List.nil_append]
    exact once

/-! ## The index after any calls -/

/-- The active branch of a store is stored and valid, and its index is the stored one if it can be built. -/
structure TrackedFork (lib : ForkPrimitives) (store : ForkChainStore) : Prop where
  rooted : Rooted lib store
  ordered : ∀ key ∈ store.storedBlockOrder, ∃ node, store.lookup key.hash = some node
  active : ∃ branch, BranchOf store store.activeTip branch ∧
    ValidBranch lib store.toForkChainConfig branch ∧ store.activeByHeight = heightIndex branch ∧
      ∀ explorer, explorerIndex lib (branch.reverse.map activeOf) = .ok explorer → store.explorer = explorer

namespace TrackedFork

variable {store after : ForkChainStore} {hash : Digest} {node : BlockNode} {rest : Branch}

private theorem initial (config : ForkChainConfig) : TrackedFork lib (emptyStore config) := by
  have sound : SoundFork lib (emptyStore config) := .initial config []
  obtain ⟨branch, found, valid, index, built⟩ := sound.active
  refine ⟨sound.rooted, fun key member => absurd member ExtTreeSet.not_mem_empty, branch, found, valid, index, ?_⟩
  intro explorer rebuilt
  exact Except.ok.inj (built.symm.trans rebuilt)

section

variable (tracked : TrackedFork lib store)
include tracked

private theorem onlyMempool (only : OnlyMempool store after) : TrackedFork lib after := by
  obtain ⟨_, _, rfl⟩ := only
  exact ⟨tracked.rooted, tracked.ordered, tracked.active⟩

private theorem logged (blockHex : Text) : TrackedFork lib (logged blockHex store) :=
  ⟨tracked.rooted, tracked.ordered, tracked.active⟩

/-- Storing a valid block, whether the rebuild of the index returns or fails. -/
theorem storing (unknown : store.lookup hash = none)
    (found : BranchOf store (store.attachment node.block) rest)
    (valid : ValidBranch lib store.toForkChainConfig ((hash, node) :: rest)) :
    TrackedFork lib (leaves (storeBlock lib hash node) store) := by
  obtain ⟨branch, current, validBranch, index, built⟩ := tracked.active
  have rooted := tracked.rooted.withBlock unknown found valid
  have ordered : ∀ key ∈ (withBlock lib hash node store).storedBlockOrder,
      ∃ held, (withBlock lib hash node store).lookup key.hash = some held := by
    intro key member
    rw [lookup_withBlock]
    rcases mem_treeSet_insert.mp member with rfl | old
    · exact ⟨node, if_pos rfl⟩
    · split_ifs
      · exact ⟨node, rfl⟩
      · exact tracked.ordered key old
  have fresh : { height := node.height, hash } ∉ store.storedBlockOrder := by
    intro member
    obtain ⟨held, stored⟩ := tracked.ordered _ member
    cases unknown.symm.trans stored
  have tipStored : ∀ tip ∈ store.activeTip, ∃ held, store.lookup tip = some held := by
    intro tip isTip
    rw [Option.mem_def.mp isTip] at current
    cases current with
    | entry stored _ => exact ⟨_, stored⟩
  have grown : BranchOf (withBlock lib hash node store) (some hash) ((hash, node) :: rest) :=
    found.grown_new unknown
  rcases found.storeBlock_eq unknown fresh tipStored with ⟨-, equation⟩ | ⟨-, equation⟩
  · rw [leaves_of_ok equation]
    exact ⟨rooted, ordered, branch, current.grown unknown, validBranch, index, built⟩
  · rw [explored_eq grown valid] at equation
    cases rebuilt : explorerIndex lib (((hash, node) :: rest).reverse.map activeOf) with
    | ok explorer =>
      rw [rebuilt] at equation
      rw [leaves_of_ok equation]
      refine ⟨rooted, ordered, _, grown, valid, rfl, fun other again => ?_⟩
      exact Except.ok.inj (rebuilt.symm.trans again)
    | error fault =>
      rw [rebuilt] at equation
      rw [leaves_of_error equation]
      refine ⟨rooted, ordered, _, grown, valid, rfl, fun other again => ?_⟩
      cases rebuilt.symm.trans again

private theorem call (op : ForkOp) : TrackedFork lib (op.call lib store) := by
  cases op with
  | transaction transactionHex =>
    have frame : Frame OnlyMempool (submitTransaction lib transactionHex) store :=
      submitTransaction_frame transactionHex store
    exact tracked.onlyMempool (related_leaves frame)
  | block blockHex nowUnix =>
    rw [ForkOp.call]
    rcases leaves_submitBlockAtTime blockHex nowUnix store with same | ⟨normalized, block, -, unknown, same⟩
    · rwa [same]
    rcases leaves_acceptBlock block normalized nowUnix store with kept | ⟨node, validated, only⟩
    · rwa [same, kept]
    · rw [same]
      obtain ⟨rfl, -, rest, found, valid⟩ := tracked.rooted.validated validated
      exact ((tracked.logged normalized).storing unknown found valid).onlyMempool only

end

private theorem afterCalls (config : ForkChainConfig) (ops : List ForkOp) :
    TrackedFork lib (afterCalls lib config ops) := by
  induction ops using List.reverseRecOn with
  | nil => exact initial config
  | append_singleton ops op ih =>
    rw [afterCalls_concat]
    exact ih.call op

end TrackedFork

/-- In every store that returning or refused calls lead to, the index mirrors the state of the active branch. Whatever
calls led to a store, if what every address was paid on the active branch fits a word, the index can be rebuilt, is the
stored one and mirrors the state. -/
theorem explorer_mirrors_consensus (lib : ForkPrimitives) (config : ForkChainConfig) (ops : List ForkOp) :
    (∀ store, run? (ForkOp.step? lib) (emptyStore config) ops = some store →
      Set.InjOn lib.strippedTxid (storedTransactions store) →
      ∃ state, store.branchState lib store.activeTip = .ok state ∧ Mirrors lib store.explorer state) ∧
    ∀ store branch, store = afterCalls lib config ops → BranchOf store store.activeTip branch →
      Set.InjOn lib.strippedTxid (storedTransactions store) →
      AddressesFit lib (entriesOn lib branch) →
      rebuildExplorerIndex lib store = .ok () store ∧
        ∃ state, store.branchState lib store.activeTip = .ok state ∧ Mirrors lib store.explorer state := by
  constructor
  · intro store reached distinct
    obtain ⟨branch, found, valid, -, built⟩ := ((SoundFork.initial config []).run reached).active
    obtain ⟨state, replayed, mirrors⟩ := valid.mirrors (distinct.mono found.strippedOn_subset) built
    exact ⟨state, found.branchState_eq.trans replayed, mirrors⟩
  · intro store branch called current distinct fits
    have tracked : TrackedFork lib store := called ▸ .afterCalls config ops
    obtain ⟨other, found, valid, index, stored⟩ := tracked.active
    obtain rfl := Trail.unique found current
    have free := distinct.mono found.strippedOn_subset
    obtain ⟨explorer, built⟩ := valid.explorerIndex_ok free fits
    obtain rfl := stored explorer built
    obtain ⟨state, replayed, mirrors⟩ := valid.mirrors free built
    refine ⟨?_, state, found.branchState_eq.trans replayed, mirrors⟩
    have same : { store with activeByHeight := heightIndex other } = store := by rw [← index]
    have rebuilt := (explored_eq found valid).trans built
    rw [explored, same] at rebuilt
    obtain ⟨active, listed, indexed⟩ := except_bind_eq_ok.mp rebuilt
    rw [rebuildExplorerIndex, Routine.get_bind, listed, Routine.settle_ok, Routine.pure_bind_apply, indexed,
      Routine.settle_ok, Routine.pure_bind_apply]
    rfl

open ForkSample in
theorem explorer_mirrors_consensus_sample : ∃ store state,
    run? (ForkOp.step? ForkSample.library) (emptyStore ForkSample.config) (submitted [hexA, hexC]) = some store ∧
    store.activeTip = some hashC ∧
    rebuildExplorerIndex ForkSample.library store = .ok () store ∧
    store.branchState ForkSample.library store.activeTip = .ok state ∧
    Mirrors ForkSample.library store.explorer state := by
  obtain ⟨store, reached, tip, -, distinct, placed⟩ := spent
  obtain ⟨branch, current, -⟩ := ((SoundFork.initial ForkSample.config []).run reached).active
  have fits : TotalFits (entriesOn ForkSample.library branch) := by
    rw [← tip, current.walked] at placed
    rw [TotalFits, entriesOn, Option.some.inj placed]
    decide
  have mirrors := explorer_mirrors_consensus ForkSample.library ForkSample.config (submitted [hexA, hexC])
  obtain ⟨rebuilt, -⟩ := mirrors.2 store branch (afterCalls_of_run reached).symm current distinct fits.addresses
  obtain ⟨state, replayed, shown⟩ := mirrors.1 store reached distinct
  exact ⟨store, state, reached, tip, rebuilt, replayed, shown⟩

end P2PoolBTC.Soundness
