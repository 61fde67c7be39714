import P2PoolBTC.Soundness.ForkSteps

/-! # Valid branches

Every block of a valid branch is admitted on the blocks below it, so heights count up from the first
fork height and work adds up. A branch matters only through the headers and the transactions without
witnesses: two valid branches of the same blocks up to witnesses carry the same heights, work and
difficulty phases and the same unspent outputs.
-/

namespace P2PoolBTC.Soundness

open Math Std Model.Core Model.Node ForkChainStore

/-- A branch in which every block extends the one below it and is admitted on top of it. -/
inductive ValidBranch (lib : ForkPrimitives) (config : ForkChainConfig) : Branch → Prop
  | nil : ValidBranch lib config []
  | cons {hash : Digest} {node : BlockNode} {rest : Branch} {nowUnix : U64}
      (hashed : hash = blockHash lib node.block)
      (linked : config.attachment node.block = rest.head?.map Prod.fst)
      (admitted : Admitted lib config rest nowUnix node) (valid : ValidBranch lib config rest) :
      ValidBranch lib config ((hash, node) :: rest)

/-- What other blocks of a branch can depend on: everything but the witnesses and the block's text. -/
structure BlockCore where
  hash : Digest
  header : BlockHeader
  transactions : List Transaction
  height : U64
  cumulativeWork : U256
  difficultyPhase : DifficultyPhase

def coreOf (entry : Digest × BlockNode) : BlockCore :=
  { hash := entry.1
    header := entry.2.block.header
    transactions := entry.2.block.txdata.map Transaction.stripped
    height := entry.2.height
    cumulativeWork := entry.2.cumulativeWork
    difficultyPhase := entry.2.difficultyPhase }

variable {branch other : Branch} {lib : ForkPrimitives} {config : ForkChainConfig} {tip : Option Digest}
  {store : ForkChainStore}

theorem BranchOf.start_eq (found : BranchOf store tip branch) : tip = branch.head?.map Prod.fst := by
  cases found <;> rfl

variable {hash : Digest}

namespace ValidBranch

theorem of_suffix (valid : ValidBranch lib config branch) (suffix : other <:+ branch) :
    ValidBranch lib config other := by
  induction valid with
  | nil =>
    rw [List.suffix_nil.mp suffix]
    exact .nil
  | cons hashed linked admitted rest ih =>
    rcases List.suffix_cons_iff.mp suffix with rfl | inner
    · exact .cons hashed linked admitted rest
    · exact ih inner

/-- Heights count up from the first fork height. -/
theorem height_eq {node : BlockNode} {rest : Branch} (valid : ValidBranch lib config ((hash, node) :: rest)) :
    node.height.toNat = config.manifest.forkPoint.firstForkHeight.toNat + rest.length := by
  induction rest generalizing hash node with
  | nil =>
    cases valid with
    | cons _ _ admitted _ =>
      have height := admitted.height
      simp only [heightOn, Except.ok.injEq] at height
      rw [← height]
      rfl
  | cons below deeper ih =>
    obtain ⟨parentHash, parent⟩ := below
    cases valid with
    | cons _ _ admitted valid =>
      have height := admitted.height
      simp only [heightOn, okOr_eq_ok] at height
      have sum := checkedAdd_eq_some.mp height
      have one : (1 : U64).toNat = 1 := rfl
      have parentHeight := ih valid
      rw [List.length_cons]
      omega

variable (valid : ValidBranch lib config branch)
include valid

theorem pairwise_height : branch.Pairwise fun newer older => older.2.height.toNat < newer.2.height.toNat := by
  induction valid with
  | nil => exact .nil
  | @cons hash node rest nowUnix hashed linked admitted valid ih =>
    refine .cons ?_ ih
    rintro ⟨olderHash, older⟩ member
    obtain ⟨newer, deeper, rfl⟩ := List.append_of_mem member
    have top := height_eq (.cons hashed linked admitted valid)
    have inner := height_eq (valid.of_suffix (List.suffix_append newer _))
    rw [List.length_append, List.length_cons] at top
    simp only
    omega

theorem nodup_heights : (branch.map fun entry => entry.2.height).Nodup := by
  refine List.pairwise_map.mpr (valid.pairwise_height.imp ?_)
  intro newer older lower same
  rw [same] at lower
  omega

theorem heightIndex_eq_some {height : U64} :
    (heightIndex branch)[height]? = some hash ↔ ∃ node, (hash, node) ∈ branch ∧ node.height = height := by
  rw [heightIndex, getElem?_foldl_insert (fun entry : Digest × BlockNode => entry.2.height) Prod.fst branch
    valid.nodup_heights]
  simp [Prod.exists, and_comm, and_left_comm]

/-- The height index lists the blocks of a branch from the oldest on. -/
theorem heightIndex_toList :
    (heightIndex branch).toList = branch.reverse.map fun entry => (entry.2.height, entry.1) := by
  apply toList_eq_of_ordered
  · rw [List.pairwise_map, List.pairwise_reverse]
    exact valid.pairwise_height.imp compare_eq_lt.mpr
  · intro height hash
    rw [valid.heightIndex_eq_some]
    simp only [List.mem_map, List.mem_reverse, Prod.mk.injEq, Prod.exists]
    constructor
    · rintro ⟨node, member, rfl⟩
      exact ⟨hash, node, member, rfl, rfl⟩
    · rintro ⟨_, node, member, rfl, rfl⟩
      exact ⟨node, member, rfl⟩

end ValidBranch

/-- A block of a branch as the explorer reads it. -/
def activeOf (entry : Digest × BlockNode) : ActiveBlock :=
  { height := entry.2.height, hash := entry.1, block := entry.2.block }

/-- The explorer index of a stored branch is computed from its blocks, oldest first. -/
theorem explored_eq (found : BranchOf store tip branch) (valid : ValidBranch lib config branch) :
    explored lib store branch = explorerIndex lib (branch.reverse.map activeOf) := by
  have active : activeBlocks { store with activeByHeight := heightIndex branch } =
      .ok (branch.reverse.map activeOf) := by
    rw [activeBlocks, valid.heightIndex_toList, List.mapM_map]
    apply except_mapM_eq_ok
    intro entry member
    have stored := Trail.stored_of_mem found (List.mem_reverse.mp member)
    have looked : ForkChainStore.lookup { store with activeByHeight := heightIndex branch } entry.1 =
      some entry.2 := stored
    simp only [Function.comp, looked, okOr_some, except_ok_bind]
    rfl
  rw [explored, active, except_ok_bind]

/-! ## Branches up to witnesses -/

section Cores

@[simp] theorem stripped_stripped (transaction : Transaction) : transaction.stripped.stripped =
    transaction.stripped := by
  simp [Transaction.stripped, Function.comp_def]

@[simp] theorem computeTxid_stripped (transaction : Transaction) :
    computeTxid lib transaction.stripped = computeTxid lib transaction := by
  simp [computeTxid]

private theorem replayTransaction_stripped (hash : Digest) (height : U64) (transaction : Transaction) :
    replayTransaction lib hash height transaction.stripped =
      replayTransaction lib hash height transaction := by
  simp only [replayTransaction, addTransactionOutputs, computeTxid_stripped, Transaction.stripped_isCoinbase,
    Transaction.stripped_spends, Transaction.stripped_output]

private theorem replayTransactions_stripped (hash : Digest) (height : U64) (transactions : List Transaction) :
    replayTransactions lib hash height (transactions.map Transaction.stripped) =
      replayTransactions lib hash height transactions := by
  induction transactions with
  | nil => rfl
  | cons transaction rest ih => simp only [List.map_cons, replayTransactions, replayTransaction_stripped, ih]

/-- Replay a branch from its cores. -/
def replayCores (lib : ForkPrimitives) : List BlockCore → Routine ForkBranchState String Unit
  | [] => pure ()
  | core :: rest => do
    replayTransactions lib core.hash core.height core.transactions
    replayCores lib rest

private theorem replayBranch_eq_cores (branch : Branch) :
    replayBranch lib branch = replayCores lib (branch.map coreOf) := by
  induction branch with
  | nil => rfl
  | cons entry rest ih =>
    simp only [replayBranch, List.map_cons, replayCores, coreOf, replayTransactions_stripped, ih]

/-- An active block as its core shows it. -/
def activeCore (core : BlockCore) : ActiveBlock :=
  { height := core.height, hash := core.hash, block := { header := core.header, txdata := core.transactions } }

private theorem fundTransactions_stripped (height : U64) (transactions : List Transaction) (totals : ExplorerTotals) :
    fundTransactions lib height (transactions.map Transaction.stripped) totals =
      fundTransactions lib height transactions totals := by
  induction transactions generalizing totals with
  | nil => rfl
  | cons transaction rest ih =>
    simp only [List.map_cons, fundTransactions, computeTxid_stripped, Transaction.stripped_isCoinbase,
      Transaction.stripped_output, ih]

private theorem spendTransactions_stripped (height : U64) (transactions : List Transaction) (totals : ExplorerTotals) :
    spendTransactions lib height (transactions.map Transaction.stripped) totals =
      spendTransactions lib height transactions totals := by
  induction transactions generalizing totals with
  | nil => rfl
  | cons transaction rest ih =>
    simp only [List.map_cons, spendTransactions, computeTxid_stripped, Transaction.stripped_isCoinbase,
      Transaction.stripped_spends, ih]

private theorem recordTransaction_stripped (outputs : ExtTreeMap OutPoint IndexedForkOutput) (height : U64)
    (hash : Digest) (transaction : Transaction) (index : ℕ) (addresses : ExtTreeMap Text ForkAddressIndexEntry) :
    recordTransaction lib outputs height hash transaction.stripped index addresses =
      recordTransaction lib outputs height hash transaction index addresses := by
  have related : relatedAddresses lib outputs transaction.stripped =
      relatedAddresses lib outputs transaction := by
    simp only [relatedAddresses, Transaction.stripped_output, Transaction.stripped_spends]
  have amounts : transactionAmounts transaction.stripped outputs = transactionAmounts transaction outputs := by
    simp only [transactionAmounts, Transaction.stripped_output, Transaction.stripped_spends,
      Transaction.stripped_isCoinbase]
  rw [recordTransaction, recordTransaction, related, transactionRef, transactionRef, amounts, computeTxid_stripped,
    Transaction.stripped_isCoinbase]

private theorem recordTransactions_stripped (outputs : ExtTreeMap OutPoint IndexedForkOutput) (height : U64)
    (hash : Digest) (index : ℕ) (transactions : List Transaction) (addresses : ExtTreeMap Text ForkAddressIndexEntry) :
    recordTransactions lib outputs height hash index (transactions.map Transaction.stripped) addresses =
      recordTransactions lib outputs height hash index transactions addresses := by
  induction transactions generalizing index with
  | nil => rfl
  | cons transaction rest ih =>
    simp only [List.map_cons, recordTransactions, recordTransaction_stripped, ih]

private theorem fundBlocks_eq_cores (branch : Branch) (totals : ExplorerTotals) :
    fundBlocks lib (branch.map activeOf) totals =
      fundBlocks lib (branch.map fun entry => activeCore (coreOf entry)) totals := by
  induction branch generalizing totals with
  | nil => rfl
  | cons entry rest ih =>
    simp only [List.map_cons, fundBlocks, activeCore, coreOf, activeOf, fundTransactions_stripped] at ih ⊢
    simp only [ih]

private theorem spendBlocks_eq_cores (branch : Branch) (totals : ExplorerTotals) :
    spendBlocks lib (branch.map activeOf) totals =
      spendBlocks lib (branch.map fun entry => activeCore (coreOf entry)) totals := by
  induction branch generalizing totals with
  | nil => rfl
  | cons entry rest ih =>
    simp only [List.map_cons, spendBlocks, activeCore, coreOf, activeOf, spendTransactions_stripped] at ih ⊢
    simp only [ih]

private theorem recordBlocks_eq_cores (outputs : ExtTreeMap OutPoint IndexedForkOutput) (branch : Branch)
    (addresses : ExtTreeMap Text ForkAddressIndexEntry) :
    recordBlocks lib outputs (branch.map activeOf) addresses =
      recordBlocks lib outputs (branch.map fun entry => activeCore (coreOf entry)) addresses := by
  induction branch with
  | nil => rfl
  | cons entry rest ih =>
    simp only [List.map_cons, recordBlocks, activeCore, coreOf, activeOf, recordTransactions_stripped] at ih ⊢
    simp only [ih]

private theorem explorerIndex_eq_cores (branch : Branch) :
    explorerIndex lib (branch.map activeOf) =
      explorerIndex lib ((branch.map coreOf).map activeCore) := by
  rw [List.map_map]
  simp only [explorerIndex, fundBlocks_eq_cores, spendBlocks_eq_cores, recordBlocks_eq_cores, Function.comp_def]

variable (same : branch.map coreOf = other.map coreOf)
include same

theorem explorerIndex_congr : explorerIndex lib (branch.reverse.map activeOf) =
    explorerIndex lib (other.reverse.map activeOf) := by
  have cores : branch.reverse.map coreOf = other.reverse.map coreOf := by
    rw [List.map_reverse, List.map_reverse, same]
  rw [explorerIndex_eq_cores, explorerIndex_eq_cores, cores]

theorem stateOn_congr : stateOn lib branch = stateOn lib other := by
  rw [stateOn, stateOn, replayBranch_eq_cores, replayBranch_eq_cores, List.map_reverse, List.map_reverse, same]

private theorem transactionsOn_congr (coinbase : Transaction) (others : List Transaction) (height : U64) :
    transactionsOn lib config branch coinbase others height =
      transactionsOn lib config other coinbase others height := by
  rw [transactionsOn, transactionsOn, stateOn_congr same]

private theorem medianOn_congr : medianOn config branch = medianOn config other := by
  have times (entries : Branch) : (entries.take 10).map (fun entry => entry.2.block.header.time.setWidth 64) =
      ((entries.map coreOf).take 10).map fun core => core.header.time.setWidth 64 := by
    rw [← List.map_take, List.map_map]
    rfl
  rw [medianOn, medianOn, times branch, times other, same]

private theorem cores_cases : branch = [] ∧ other = [] ∨
    ∃ entry rest entry' rest', branch = entry :: rest ∧ other = entry' :: rest' ∧ coreOf entry = coreOf entry' := by
  cases branch <;> cases other <;> simp_all

private theorem heightOn_congr : heightOn config branch = heightOn config other := by
  obtain ⟨rfl, rfl⟩ | ⟨entry, rest, entry', rest', rfl, rfl, head⟩ := cores_cases same
  · rfl
  · have height : entry.2.height = entry'.2.height := congrArg BlockCore.height head
    rw [heightOn, heightOn, height]

private theorem workOn_congr : workOn branch = workOn other := by
  obtain ⟨rfl, rfl⟩ | ⟨entry, rest, entry', rest', rfl, rfl, head⟩ := cores_cases same
  · rfl
  · exact congrArg BlockCore.cumulativeWork head

theorem heightIndex_congr : heightIndex branch = heightIndex other := by
  have index (entries : Branch) : heightIndex entries =
      (entries.map coreOf).foldl (fun active core => active.insert core.height core.hash) ∅ := by
    rw [List.foldl_map]
    rfl
  rw [index, index, same]

private theorem difficultyOn_congr (height : U64) (time : U32) :
    difficultyOn lib config branch height time = difficultyOn lib config other height time := by
  obtain ⟨rfl, rfl⟩ | ⟨entry, rest, entry', rest', rfl, rfl, head⟩ := cores_cases same
  · rfl
  · have header : entry.2.block.header = entry'.2.block.header := congrArg BlockCore.header head
    have phase : entry.2.difficultyPhase = entry'.2.difficultyPhase := congrArg BlockCore.difficultyPhase head
    simp only [difficultyOn, ForkChainConfig.difficultyAfter, header, phase]

/-- Whether a block is admitted depends on the cores of the branch. -/
theorem Admitted.congr {nowUnix : U64} {node : BlockNode} (admitted : Admitted lib config branch nowUnix node) :
    Admitted lib config other nowUnix node := by
  obtain ⟨weight, merkle, commitment, version, height, difficulty, median, future, transactions⟩ := admitted
  rw [heightOn_congr same] at height
  rw [medianOn_congr same] at median
  simp only [difficultyOn_congr same, workOn_congr same] at difficulty
  simp only [transactionsOn_congr same] at transactions
  exact ⟨weight, merkle, commitment, version, height, difficulty, median, future, transactions⟩

end Cores

/-- The rules determine height, work and phase of a block from its header and its branch. -/
theorem Admitted.coreOf_eq {left right : BlockNode} {leftNow rightNow : U64}
    (same : branch.map coreOf = other.map coreOf) (first : Admitted lib config branch leftNow left)
    (second : Admitted lib config other rightNow right) (headers : left.block.header = right.block.header)
    (transactions : left.block.txdata.map Transaction.stripped = right.block.txdata.map Transaction.stripped) :
    coreOf (hash, left) = coreOf (hash, right) := by
  have moved := first.congr same
  have height : left.height = right.height := Except.ok.inj (moved.height.symm.trans second.height)
  obtain ⟨bits, difficulty, -, work⟩ := moved.difficulty
  obtain ⟨bits', difficulty', -, work'⟩ := second.difficulty
  rw [height, headers, difficulty'] at difficulty
  obtain ⟨rfl, phase⟩ := NextDifficulty.mk.inj (Except.ok.inj difficulty)
  exact (BlockCore.mk.injEq ..).mpr ⟨rfl, headers, transactions, height, work.trans work'.symm, phase.symm⟩

/-- Branches of the same tip in two stores that agree on blocks up to witnesses have the same cores. -/
theorem map_coreOf_eq {left right : ForkChainStore} (config : left.toForkChainConfig = right.toForkChainConfig)
    (agree : ∀ hash first second, left.lookup hash = some first → right.lookup hash = some second →
      first.block.header = second.block.header ∧
        first.block.txdata.map Transaction.stripped = second.block.txdata.map Transaction.stripped)
    (foundLeft : BranchOf left tip branch) (foundRight : BranchOf right tip other)
    (validLeft : ValidBranch lib left.toForkChainConfig branch)
    (validRight : ValidBranch lib right.toForkChainConfig other) : branch.map coreOf = other.map coreOf := by
  induction foundLeft generalizing other with
  | stop =>
    cases foundRight
    rfl
  | @entry hash first rest stored above ih =>
    cases foundRight with
    | @entry _ second rest' stored' above' =>
      obtain ⟨headers, transactions⟩ := agree hash first second stored stored'
      cases validLeft with
      | cons _ _ admitted validRest =>
        cases validRight with
        | cons _ _ admitted' validRest' =>
          have parents : right.parentOf second = left.parentOf first := by
            simp only [ForkChainConfig.parentOf, ForkChainConfig.attachment, headers, config]
          rw [parents] at above'
          rw [← config] at admitted'
          have deeper := ih above' validRest validRest'
          rw [List.map_cons, List.map_cons, admitted.coreOf_eq deeper admitted' headers transactions, deeper]

end P2PoolBTC.Soundness
