import P2PoolBTC.Model.Node.ForkChain

/-! # Block rules on a branch

Whether a block is valid depends on the blocks of its branch and on nothing else in the store. The
rules are stated here on a branch, newest block first, and the store's validation is shown to be the
rule on the branch of the block's parent.
-/

namespace P2PoolBTC.Soundness

open Math Std Model.Core Model.Node

/-- Blocks with their hashes, newest first. -/
abbrev Branch := List (Digest × BlockNode)

/-- The blocks from a stored block down to the first fork block. -/
def BranchOf (store : ForkChainStore) (tip : Option Digest) (branch : Branch) : Prop :=
  Trail store.lookup store.parentOf tip branch

section Rules

variable (lib : ForkPrimitives) (config : ForkChainConfig)

def heightOn (branch : Branch) : Outcome U64 :=
  match branch with
  | [] => .ok config.manifest.forkPoint.firstForkHeight
  | (_, parent) :: _ => okOr (checkedAdd parent.height 1) (.error "fork block height overflow")

def workOn (branch : Branch) : U256 :=
  match branch with
  | [] => 0
  | (_, parent) :: _ => parent.cumulativeWork

def difficultyOn (branch : Branch) (height : U64) (time : U32) : Outcome NextDifficulty :=
  match branch with
  | [] => .ok (config.launchDifficulty lib.toForkCrypto height time)
  | (_, parent) :: _ => config.difficultyAfter lib.toForkCrypto parent height time

def medianOn (branch : Branch) : Outcome U64 := do
  let anchor ← config.launchAnchor
  return medianTime (anchor :: (branch.take 10).map fun entry => entry.2.block.header.time.setWidth 64)

/-- The unspent outputs and transaction identifiers of a branch. -/
def stateOn (branch : Branch) : Outcome ForkBranchState :=
  match replayBranch lib branch.reverse {} with
  | .ok _ state => .ok state
  | .error fault _ => .error fault

def transactionsOn (branch : Branch) (coinbase : Transaction) (others : List Transaction) (height : U64) :
    Outcome U64 :=
  config.transactionFees lib (stateOn lib branch) coinbase others height

/-- What a block must satisfy on top of a branch. -/
structure Admitted (branch : Branch) (nowUnix : U64) (node : BlockNode) : Prop where
  weight : node.block.weight ≤ maxBlockWeight
  merkle : checkMerkleRoot lib node.block = true
  commitment : lib.checkWitnessCommitment node.block = true
  version : node.block.header.version = forkBlockVersion
  height : heightOn config branch = .ok node.height
  difficulty : ∃ bits, difficultyOn lib config branch node.height node.block.header.time =
      .ok { bits, phase := node.difficultyPhase } ∧
    ValidPow lib node.block.header (lib.targetFromCompact bits) ∧
    node.cumulativeWork = workOn branch + lib.targetToWork (lib.targetFromCompact bits)
  median : ∃ median, medianOn config branch = .ok median ∧ median < node.block.header.time.setWidth 64
  future : ∃ latest, checkedAdd nowUnix maxFutureBlockSeconds = some latest ∧
    node.block.header.time.setWidth 64 ≤ latest
  transactions : ∃ coinbase others feesSats, node.block.txdata = coinbase :: others ∧
    coinbase.isCoinbase = true ∧
    transactionsOn lib config branch coinbase others node.height = .ok feesSats ∧
    validateCoinbaseHeight coinbase node.height = .ok () ∧
    validateCoinbaseReward coinbase node.height feesSats = .ok ()

/-- The time of a block is within the future limit at a clock reading. -/
def Timely (nowUnix : U64) (block : Block) : Prop :=
  ∃ latest, checkedAdd nowUnix maxFutureBlockSeconds = some latest ∧ block.header.time.setWidth 64 ≤ latest

end Rules

/-- The clock matters only through the limit on future times. -/
theorem Admitted.at_time {lib : ForkPrimitives} {config : ForkChainConfig} {branch : Branch} {nowUnix other : U64}
    {node : BlockNode} (admitted : Admitted lib config branch nowUnix node) (timely : Timely other node.block) :
    Admitted lib config branch other node := by
  obtain ⟨weight, merkle, commitment, version, height, difficulty, median, -, transactions⟩ := admitted
  exact ⟨weight, merkle, commitment, version, height, difficulty, median, timely, transactions⟩

section Store

variable {lib : ForkPrimitives} {store : ForkChainStore} {branch : Branch} {tip : Option Digest}

namespace BranchOf

section

variable (found : BranchOf store tip branch)
include found

theorem walked (missing : String) : store.branch missing tip = .ok branch :=
  Trail.walk_eq found (Trail.length_le_size found)

theorem medianTimePast_eq : store.medianTimePast tip = medianOn store.toForkChainConfig branch := by
  rw [ForkChainStore.medianTimePast, medianOn, Trail.walkAtMost_eq found]
  rfl

theorem branchState_eq : store.branchState lib tip = stateOn lib branch := by
  rw [ForkChainStore.branchState, found.walked]
  rfl

private theorem validateBlockTransactions_eq (coinbase : Transaction) (others : List Transaction) (height : U64) :
    store.validateBlockTransactions lib coinbase others height tip =
      transactionsOn lib store.toForkChainConfig branch coinbase others height := by
  rewrite [ForkChainStore.validateBlockTransactions, transactionsOn, found.branchState_eq]
  rfl

theorem nextDifficulty_eq (height : U64) (time : U32) : store.nextDifficulty lib.toForkCrypto tip height time =
      difficultyOn lib store.toForkChainConfig branch height time := by
  cases found with
  | stop => rfl
  | entry stored above => simp only [ForkChainStore.nextDifficulty, stored, okOr_some, except_ok_bind, difficultyOn]

end

/-- Where a block attaches, in terms of the branch of its parent. -/
theorem blockParent_eq_ok {block : Block} (found : BranchOf store (store.attachment block) branch)
    {parent : BlockParent} :
    store.blockParent block.header.prevBlockhash = .ok parent ↔
      heightOn store.toForkChainConfig branch = .ok parent.height ∧ parent.work = workOn branch ∧
        parent.tip = store.attachment block := by
  obtain ⟨height, work, tip⟩ := parent
  unfold ForkChainStore.blockParent
  unfold ForkChainConfig.attachment at found ⊢
  split_ifs at found ⊢ with inherited
  · cases found
    simp only [heightOn, workOn, Except.ok.injEq, BlockParent.mk.injEq]
    constructor
    · rintro ⟨rfl, rfl, rfl⟩
      exact ⟨rfl, rfl, rfl⟩
    · rintro ⟨rfl, rfl, rfl⟩
      exact ⟨rfl, rfl, rfl⟩
  · cases found with
    | entry stored above =>
      simp only [stored, okOr_some, except_ok_bind, except_bind_eq_ok, okOr_eq_ok, heightOn, workOn]
      constructor
      · rintro ⟨next, sum, same⟩
        cases same
        exact ⟨sum, rfl, rfl⟩
      · rintro ⟨sum, rfl, rfl⟩
        exact ⟨height, sum, rfl⟩

end BranchOf

/-- The store accepts a block exactly when the rules admit it on the branch of its parent. -/
theorem validateBlock_eq_ok_iff {block : Block} {blockHex : Text} {nowUnix : U64} {node : BlockNode}
    (found : BranchOf store (store.attachment block) branch) :
    store.validateBlock lib block blockHex nowUnix = .ok node ↔
      node.block = block ∧ node.blockHex = blockHex ∧
        Admitted lib store.toForkChainConfig branch nowUnix node := by
  simp only [ForkChainStore.validateBlock, except_bind_eq_ok, require_eq_ok, okOr_eq_ok, exists_const,
    found.blockParent_eq_ok]
  constructor
  · rintro ⟨weight, coinbase, first, isCoinbase, merkle, commitment, version, parent,
      ⟨height, work, attached⟩, difficulty, required, pow, median, past, later, latest, bound, future,
      feesSats, fees, ⟨⟩, coinbaseHeight, ⟨⟩, reward, made⟩
    cases made
    rw [attached] at required past fees
    rw [found.nextDifficulty_eq] at required
    rw [found.medianTimePast_eq] at past
    rw [found.validateBlockTransactions_eq] at fees
    obtain ⟨others, whole⟩ : ∃ others, block.txdata = coinbase :: others := by
      cases listed : block.txdata with
      | nil => simp [listed] at first
      | cons head tail =>
        rw [listed, List.head?_cons] at first
        exact ⟨tail, by rw [Option.some.inj first]⟩
    rw [whole, List.tail_cons] at fees
    exact ⟨rfl, rfl, weight, merkle, commitment, version, height, ⟨_, required, pow, by rw [work]⟩,
      ⟨_, past, later⟩, ⟨_, bound, future⟩, coinbase, others, feesSats, whole, isCoinbase, fees,
      coinbaseHeight, reward⟩
  · rintro ⟨rfl, rfl, admitted⟩
    obtain ⟨bits, required, pow, work⟩ := admitted.difficulty
    obtain ⟨median, past, later⟩ := admitted.median
    obtain ⟨latest, bound, future⟩ := admitted.future
    obtain ⟨coinbase, others, feesSats, whole, isCoinbase, fees, coinbaseHeight, reward⟩ := admitted.transactions
    refine ⟨admitted.weight, coinbase, by rw [whole]; rfl, isCoinbase, admitted.merkle, admitted.commitment,
      admitted.version, ⟨node.height, workOn branch, store.attachment node.block⟩,
      ⟨admitted.height, rfl, rfl⟩, { bits, phase := node.difficultyPhase }, ?_, pow, median, ?_, later, latest, bound,
      future, feesSats, ?_, (), coinbaseHeight, (), reward, ?_⟩
    · rw [found.nextDifficulty_eq, required]
    · rw [found.medianTimePast_eq, past]
    · rw [found.validateBlockTransactions_eq, whole, List.tail_cons, fees]
    · rw [← work]
      rfl

end Store

end P2PoolBTC.Soundness
