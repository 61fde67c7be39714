import P2PoolBTC.Math.Unspent
import P2PoolBTC.Soundness.ForkBranches

/-! # The ledger of a branch

Replaying a branch applies its transactions as transfers between outputs. So the state of a branch
holds the outputs that its transactions created and did not spend, and the identifiers of its
transactions are distinct.
-/

namespace P2PoolBTC.Soundness

open Math Std Model.Core Model.Node ForkChainStore

/-- A transaction with the height of its block. -/
abbrev Placed := U64 × Transaction

/-- The entries of outputs from a position on. -/
def outputEntries (txid : Digest) (height : U64) (coinbase : Bool) (index : ℕ) (outputs : List TxOut) :
    List (OutPoint × IndexedForkOutput) :=
  (outputs.zipIdx index).map fun entry =>
    (⟨txid, BitVec.ofNat 32 entry.2⟩, { output := entry.1, height, coinbase })

/-- What a transaction does to the unspent outputs. -/
def transferOf (lib : ForkPrimitives) (placed : Placed) : Transfer OutPoint IndexedForkOutput :=
  { takes := if placed.2.isCoinbase then [] else placed.2.spends
    adds := outputEntries (computeTxid lib placed.2) placed.1 placed.2.isCoinbase 0 placed.2.output }

/-- The transactions of a branch, oldest first. -/
def placedOn (branch : Branch) : List Placed :=
  branch.reverse.flatMap fun entry => entry.2.block.txdata.map fun transaction => (entry.2.height, transaction)

theorem placedOn_cons (entry : Digest × BlockNode) (rest : Branch) :
    placedOn (entry :: rest) =
      placedOn rest ++ entry.2.block.txdata.map fun transaction => (entry.2.height, transaction) := by
  simp [placedOn]

theorem mem_placedOn {branch : Branch} {placed : Placed} :
    placed ∈ placedOn branch ↔ ∃ entry ∈ branch, placed.1 = entry.2.height ∧ placed.2 ∈ entry.2.block.txdata := by
  simp only [placedOn, List.mem_flatMap, List.mem_reverse, List.mem_map]
  constructor
  · rintro ⟨entry, member, transaction, listed, rfl⟩
    exact ⟨entry, member, rfl, listed⟩
  · rintro ⟨entry, member, height, listed⟩
    exact ⟨entry, member, placed.2, listed, Prod.ext height.symm rfl⟩

/-! ## Replay as transfers -/

variable {lib : ForkPrimitives} {state after : ForkBranchState} {height : U64} {outpoint : OutPoint}
  {hash : Digest} {indexed : IndexedForkOutput} {transaction : Transaction} {outputs : List TxOut}

section Replay

theorem mem_outputEntries {txid : Digest} {coinbase : Bool} (fits : outputs.length ≤ 2 ^ 32)
    (member : (outpoint, indexed) ∈ outputEntries txid height coinbase 0 outputs) :
    outpoint.txid = txid ∧ outputs[outpoint.vout.toNat]? = some indexed.output ∧ indexed.height = height ∧
      indexed.coinbase = coinbase := by
  simp only [outputEntries, List.mem_map, Prod.mk.injEq] at member
  obtain ⟨⟨output, position⟩, listed, rfl, rfl⟩ := member
  rw [List.mk_mem_zipIdx_iff_getElem?] at listed
  obtain ⟨inside, -⟩ := List.getElem?_eq_some_iff.mp listed
  have same : (BitVec.ofNat 32 position).toNat = position := by
    rw [BitVec.toNat_ofNat, Nat.mod_eq_of_lt (by omega)]
  exact ⟨rfl, by rw [same, listed], rfl, rfl⟩

theorem outputEntries_cons (txid : Digest) (height : U64) (coinbase : Bool) (index : ℕ) (output : TxOut)
    (rest : List TxOut) : outputEntries txid height coinbase index (output :: rest) =
      (⟨txid, BitVec.ofNat 32 index⟩, { output, height, coinbase }) ::
        outputEntries txid height coinbase (index + 1) rest := rfl

theorem addOutputsFrom_eq_ok {txid : Digest} {coinbase : Bool} {index : ℕ} :
    addOutputsFrom txid height coinbase index outputs state = .ok () after ↔
      (outputs ≠ [] → index + outputs.length ≤ 2 ^ 32) ∧
        ∃ utxos, addAll? state.utxos (outputEntries txid height coinbase index outputs) = some utxos ∧
          after = { state with utxos } := by
  induction outputs generalizing index state with
  | nil =>
    simp only [addOutputsFrom, Routine.pure_apply, ne_eq, not_true_eq_false, false_implies, true_and]
    constructor
    · intro same
      cases same
      exact ⟨_, rfl, rfl⟩
    · rintro ⟨utxos, same, rfl⟩
      obtain rfl := Option.some.inj same
      rfl
  | cons output rest ih =>
    rw [addOutputsFrom, outputEntries_cons]
    by_cases small : index < 2 ^ 32
    · simp only [u32FromNat?, if_pos small, okOr_some, Routine.attempt_ok, Routine.pure_bind_apply,
        Routine.get_bind, Routine.set_bind]
      rw [addAll?]
      cases held : state.utxos[(⟨txid, BitVec.ofNat 32 index⟩ : OutPoint)]? with
      | some previous => simp
      | none =>
        simp only [Option.isSome_none, Bool.false_eq_true, if_false, ih]
        have bound : (rest ≠ [] → index + 1 + rest.length ≤ 2 ^ 32) ↔
            (output :: rest ≠ [] → index + (output :: rest).length ≤ 2 ^ 32) := by
          rw [List.length_cons]
          cases rest with
          | nil => simpa using small
          | cons next deeper => simp [Nat.add_assoc, Nat.add_comm 1]
        rw [bound]
    · simp only [u32FromNat?, if_neg small, okOr_none, Routine.attempt_error, Routine.fail_bind, reduceCtorEq,
        false_iff, not_and]
      intro bound
      have whole := bound (List.cons_ne_nil _ _)
      rw [List.length_cons] at whole
      omega

theorem removeInputs_eq_ok {missing : OutPoint → Fault String} {outpoints : List OutPoint} {value : Unit} :
    removeInputs missing outpoints state = .ok value after ↔
      ∃ utxos, takeAll? state.utxos outpoints = some utxos ∧ after = { state with utxos } := by
  induction outpoints generalizing state with
  | nil =>
    constructor
    · intro same
      cases same
      exact ⟨_, rfl, rfl⟩
    · rintro ⟨utxos, same, rfl⟩
      obtain rfl := Option.some.inj same
      rfl
  | cons outpoint rest ih =>
    rw [removeInputs, Routine.get_bind, takeAll?]
    cases held : state.utxos[outpoint]? with
    | none => simp
    | some previous => simp only [Routine.set_bind, ih]

/-- Replaying a transaction needs a new identifier and applies the transfer of the transaction. -/
theorem replayTransaction_eq_ok :
    replayTransaction lib hash height transaction state = .ok () after ↔
      computeTxid lib transaction ∉ state.txids ∧ transaction.output.length ≤ 2 ^ 32 ∧
        ∃ utxos, (transferOf lib (height, transaction)).perform? state.utxos = some utxos ∧
          after = { utxos, txids := state.txids.insert (computeTxid lib transaction) } := by
  have bound : (transaction.output ≠ [] → 0 + transaction.output.length ≤ 2 ^ 32) ↔
      transaction.output.length ≤ 2 ^ 32 := by
    cases transaction.output <;> simp
  have removal (missing : OutPoint → Fault String) (next : Routine ForkBranchState String Unit) :
      (if transaction.isCoinbase then next else removeInputs missing transaction.spends >>= fun _ => next) =
        removeInputs missing (transferOf lib (height, transaction)).takes >>= fun _ => next := by
    rw [transferOf]
    split_ifs <;> rfl
  rw [replayTransaction, Routine.get_bind, Routine.set_bind]
  by_cases known : computeTxid lib transaction ∈ state.txids
  · simp [known]
  · rw [if_neg known]
    dsimp only
    rw [removal, Routine.bind_eq_ok]
    simp only [removeInputs_eq_ok, addTransactionOutputs, addOutputsFrom_eq_ok, bound, known, not_false_eq_true,
      true_and, Transfer.perform?_eq_some]
    constructor
    · rintro ⟨_, _, ⟨rest, taken, rfl⟩, fits, utxos, added, rfl⟩
      exact ⟨fits, utxos, ⟨rest, taken, added⟩, rfl⟩
    · rintro ⟨fits, utxos, ⟨rest, taken, added⟩, rfl⟩
      exact ⟨(), { utxos := rest, txids := _ }, ⟨rest, taken, rfl⟩, fits, utxos, added, rfl⟩

private theorem replayBranch_append (older newer : Branch) :
    replayBranch lib (older ++ newer) = (do replayBranch lib older; replayBranch lib newer) := by
  induction older with
  | nil => rfl
  | cons entry rest ih =>
    rw [List.cons_append, replayBranch, replayBranch, ih, bind_assoc]

private theorem stateOn_eq_ok {branch : Branch} :
    stateOn lib branch = .ok state ↔ replayBranch lib branch.reverse {} = .ok () state := by
  rw [stateOn]
  cases replayBranch lib branch.reverse {} <;> simp

/-- The state of a branch comes from the state below its newest block. -/
theorem stateOn_cons {node : BlockNode} {rest : Branch} :
    stateOn lib ((hash, node) :: rest) = .ok after ↔ ∃ state, stateOn lib rest = .ok state ∧
      replayTransactions lib hash node.height node.block.txdata state = .ok () after := by
  have single : replayBranch lib [(hash, node)] =
      replayTransactions lib hash node.height node.block.txdata := by
    change (replayTransactions lib hash node.height node.block.txdata >>= fun _ => pure ()) = _
    exact bind_pure _
  simp only [stateOn_eq_ok, List.reverse_cons, replayBranch_append, Routine.bind_eq_ok, single]
  constructor
  · rintro ⟨⟨⟩, state, older, newer⟩
    exact ⟨state, older, newer⟩
  · rintro ⟨state, older, newer⟩
    exact ⟨(), state, older, newer⟩

end Replay

/-! ## The state after a history -/

/-- The state holds the identifiers of the transactions so far and the outputs they left unspent. -/
structure Ledgered (lib : ForkPrimitives) (history : List Placed) (state : ForkBranchState) : Prop where
  distinct : (history.map fun placed => computeTxid lib placed.2).Nodup
  txids : ∀ txid, txid ∈ state.txids ↔ txid ∈ history.map fun placed => computeTxid lib placed.2
  fits : ∀ placed ∈ history, placed.2.output.length ≤ 2 ^ 32
  run : run? Transfer.perform? ∅ (history.map (transferOf lib)) = some state.utxos

/-- A placed transaction created the output that an outpoint names. -/
def Creates (lib : ForkPrimitives) (placed : Placed) (outpoint : OutPoint) (output : TxOut) : Prop :=
  computeTxid lib placed.2 = outpoint.txid ∧ placed.2.output[outpoint.vout.toNat]? = some output

/-- A placed transaction other than a coinbase spends an output. -/
def SpendsOutput (placed : Placed) (outpoint : OutPoint) : Prop :=
  placed.2.isCoinbase = false ∧ outpoint ∈ placed.2.spends

private theorem mem_takes {placed : Placed} :
    outpoint ∈ (transferOf lib placed).takes ↔ SpendsOutput placed outpoint := by
  unfold transferOf SpendsOutput
  cases placed.2.isCoinbase <;> simp

namespace Ledgered

variable {history : List Placed}

private theorem initial : Ledgered lib [] {} where
  distinct := List.nodup_nil
  txids txid := by simp
  fits := by simp
  run := rfl

theorem step (ledgered : Ledgered lib history state)
    (replayed : replayTransaction lib hash height transaction state = .ok () after) :
    Ledgered lib (history ++ [(height, transaction)]) after := by
  obtain ⟨new, fits, utxos, applied, rfl⟩ := replayTransaction_eq_ok.mp replayed
  rw [ledgered.txids] at new
  constructor
  · rw [List.map_append, List.map_singleton, List.nodup_append']
    refine ⟨ledgered.distinct, List.nodup_singleton _, ?_⟩
    rw [List.disjoint_singleton]
    exact new
  · intro txid
    rw [mem_treeSet_insert, ledgered.txids, List.map_append, List.mem_append, List.map_singleton, List.mem_singleton]
    tauto
  · intro placed member
    rcases List.mem_append.mp member with old | last
    · exact ledgered.fits placed old
    · rw [List.mem_singleton.mp last]
      exact fits
  · rw [List.map_append, List.map_singleton, run?_concat_eq_some]
    exact ⟨state.utxos, ledgered.run, applied⟩

private theorem transactions {pending : List Transaction} (ledgered : Ledgered lib history state)
    (replayed : replayTransactions lib hash height pending state = .ok () after) :
    Ledgered lib (history ++ pending.map fun transaction => (height, transaction)) after := by
  induction pending generalizing history state with
  | nil =>
    cases replayed
    simpa using ledgered
  | cons transaction rest ih =>
    obtain ⟨⟨⟩, middle, first, later⟩ := Routine.bind_eq_ok.mp replayed
    have whole := ih (ledgered.step first) later
    rwa [List.append_assoc, List.singleton_append] at whole

/-- The state of a branch is the ledger of its transactions. -/
theorem branch {branch : Branch} (replayed : stateOn lib branch = .ok state) :
    Ledgered lib (placedOn branch) state := by
  induction branch generalizing state with
  | nil =>
    cases replayed
    exact initial
  | cons entry rest ih =>
    obtain ⟨before, older, newest⟩ := stateOn_cons.mp replayed
    rw [placedOn_cons]
    exact (ih older).transactions newest

theorem apart (ledgered : Ledgered lib history state) : AddsApart (history.map (transferOf lib)) := by
  rw [AddsApart, List.pairwise_map]
  refine (List.pairwise_map.mp ledgered.distinct).imp_of_mem ?_
  intro earlier later inEarlier inLater different outpoint first second created again
  apply different
  exact (mem_outputEntries (ledgered.fits _ inEarlier) created).1.symm.trans
    (mem_outputEntries (ledgered.fits _ inLater) again).1

/-- An unspent output was created by a transaction of the history and is spent by none. -/
theorem origin (ledgered : Ledgered lib history state) (held : state.utxos[outpoint]? = some indexed) :
    (∃ placed ∈ history, Creates lib placed outpoint indexed.output ∧ indexed.height = placed.1 ∧
      indexed.coinbase = placed.2.isCoinbase) ∧ ∀ spender ∈ history, ¬ SpendsOutput spender outpoint := by
  have unspent : Unspent (history.map (transferOf lib)) state.utxos := .run ledgered.run ledgered.apart
  obtain ⟨⟨transfer, listed, entry⟩, untouched⟩ := (unspent.held outpoint indexed).mp held
  constructor
  · obtain ⟨placed, member, rfl⟩ := List.mem_map.mp listed
    obtain ⟨txid, output, height, coinbase⟩ := mem_outputEntries (ledgered.fits placed member) entry
    exact ⟨placed, member, ⟨txid.symm, output⟩, height, coinbase⟩
  · intro spender member spends
    exact untouched _ (List.mem_map_of_mem member) (mem_takes.mpr spends)

end Ledgered

end P2PoolBTC.Soundness
