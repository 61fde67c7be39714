import P2PoolBTC.Math.History
import P2PoolBTC.Soundness.ForkMoney

/-! # The passes of the explorer index

Building the explorer index fails only when a total overflows, a balance is negative or the amounts of
a transaction overflow. On a branch that replays, every spent output was created on the branch and is
spent once, so no address has spent more than it was paid.
-/

namespace P2PoolBTC.Soundness

open Math Std Model.Core Model.Node ForkChainStore

variable {lib : ForkPrimitives}

/-- The value that an output pays to an address. -/
def paidTo (lib : ForkPrimitives) (address : Text) (indexed : IndexedForkOutput) : ℕ :=
  if outputAddress lib indexed.output = some address then indexed.output.value.toNat else 0

/-- What the passes have collected about an address. -/
def accountOf (accumulators : ExtTreeMap Text ForkAddressAccumulator) (address : Text) : ForkAddressAccumulator :=
  (accumulators[address]?).getD {}

theorem accountOf_insert (accumulators : ExtTreeMap Text ForkAddressAccumulator) (address other : Text)
    (account : ForkAddressAccumulator) :
    accountOf (accumulators.insert address account) other =
      if address = other then account else accountOf accumulators other := by
  rw [accountOf, getElem?_insert_eq]
  split_ifs <;> rfl

/-! ## Outputs created -/

/-- The totals after outputs were created and none were spent. -/
structure Funded (lib : ForkPrimitives) (entries : List (OutPoint × IndexedForkOutput))
    (totals : ExplorerTotals) : Prop where
  outputs : totals.outputs = entries.foldl (fun outputs entry => outputs.insert entry.1 entry.2) ∅
  spends : totals.spends = ∅
  listed : ∀ entry ∈ entries, ∀ address, outputAddress lib entry.2.output = some address →
    address ∈ totals.accumulators
  funded : ∀ address, (accountOf totals.accumulators address).fundedTotalSats.toNat =
    (entries.map fun entry => paidTo lib address entry.2).sum
  spent : ∀ address, (accountOf totals.accumulators address).spentTotalSats = 0

theorem Funded.initial : Funded lib [] {} where
  outputs := rfl
  spends := rfl
  listed := by simp
  funded address := by simp [accountOf]
  spent address := by simp [accountOf]

section Funding

variable (height : U64) (txid : Digest) (coinbase : Bool)

theorem fundOutput_adds (index : ℕ) (output : TxOut) :
    Adds (Funded lib) (fundOutput lib height txid coinbase index output)
      [(⟨txid, BitVec.ofNat 32 index⟩, { output, height, coinbase })] := by
  intro entries totals next funded returned
  simp only [fundOutput, except_bind_eq_ok, okOr_eq_ok, u32FromNat?, Option.ite_none_right_eq_some] at returned
  obtain ⟨_, ⟨-, small⟩, returned⟩ := returned
  obtain rfl := Option.some.inj small
  have outputs : totals.outputs.insert ⟨txid, BitVec.ofNat 32 index⟩ { output, height, coinbase } =
      (entries ++ [((⟨txid, BitVec.ofNat 32 index⟩ : OutPoint),
        ({ output, height, coinbase } : IndexedForkOutput))]).foldl
        (fun outputs entry => outputs.insert entry.1 entry.2) ∅ := by
    rw [List.foldl_append, ← funded.outputs]
    rfl
  cases paid : outputAddress lib output with
  | none =>
    rw [paid] at returned
    cases returned
    refine ⟨outputs, funded.spends, fun entry member address pays => ?_, fun address => ?_, funded.spent⟩
    · rcases List.mem_append.mp member with old | new
      · exact funded.listed entry old address pays
      · obtain rfl := List.mem_singleton.mp new
        cases paid.symm.trans pays
    · have unpaid : paidTo lib address { output, height, coinbase } = 0 := by simp [paidTo, paid]
      rw [List.map_append, List.sum_append, List.map_singleton, unpaid, List.sum_singleton, ← funded.funded]
      rfl
  | some payee =>
    rw [paid] at returned
    simp only [fundAddress, except_bind_eq_ok, okOr_eq_ok] at returned
    obtain ⟨total, sum, made⟩ := returned
    cases made
    have added := checkedAdd_eq_some.mp sum
    refine ⟨outputs, funded.spends, fun entry member address pays => ?_, fun address => ?_, fun address => ?_⟩
    · rw [mem_treeMap_insert]
      rcases List.mem_append.mp member with old | new
      · exact .inr (funded.listed entry old address pays)
      · obtain rfl := List.mem_singleton.mp new
        exact .inl (Option.some.inj (paid.symm.trans pays))
    · rw [accountOf_insert, List.map_append, List.sum_append, List.map_singleton, List.sum_singleton,
        ← funded.funded, paidTo, paid]
      by_cases same : payee = address
      · subst same
        rw [if_pos rfl, if_pos rfl]
        exact added
      · simp [same]
    · rw [accountOf_insert]
      split_ifs with same
      · exact funded.spent payee
      · exact funded.spent address

private theorem fundOutputsFrom_adds (index : ℕ) (outputs : List TxOut) :
    Adds (Funded lib) (fundOutputsFrom lib height txid coinbase index outputs)
      (outputEntries txid height coinbase index outputs) := by
  induction outputs generalizing index with
  | nil => exact .ok
  | cons output rest ih => exact (fundOutput_adds height txid coinbase index output).bind (ih (index + 1))

end Funding

private theorem fundTransactions_adds (height : U64) (transactions : List Transaction) :
    Adds (Funded lib) (fundTransactions lib height transactions)
      ((transactions.map fun transaction => (height, transaction)).flatMap fun placed =>
        (transferOf lib placed).adds) := by
  induction transactions with
  | nil => exact .ok
  | cons transaction rest ih => exact (fundOutputsFrom_adds height _ _ 0 transaction.output).bind ih

theorem fundBlocks_append (older newer : List ActiveBlock) :
    fundBlocks lib (older ++ newer) = fun totals => fundBlocks lib older totals >>= fundBlocks lib newer := by
  induction older with
  | nil => rfl
  | cons active rest ih =>
    funext totals
    simp only [List.cons_append, fundBlocks, ih, bind_assoc]

/-- The entries that the transactions of a branch create. -/
def entriesOn (lib : ForkPrimitives) (branch : Branch) : List (OutPoint × IndexedForkOutput) :=
  (placedOn branch).flatMap fun placed => (transferOf lib placed).adds

theorem fundBlocks_adds (branch : Branch) :
    Adds (Funded lib) (fundBlocks lib (branch.reverse.map activeOf)) (entriesOn lib branch) := by
  induction branch with
  | nil => exact .ok
  | cons entry rest ih =>
    rw [List.reverse_cons, List.map_append, fundBlocks_append, entriesOn, placedOn_cons, List.flatMap_append]
    refine ih.bind ?_
    have newest : Adds (Funded lib) _ _ := (fundTransactions_adds entry.2.height entry.2.block.txdata).bind .ok
    rwa [List.append_nil] at newest

/-! ## Outputs spent -/

/-- The value that an address loses with an output. -/
def takenFrom (lib : ForkPrimitives) (outputs : ExtTreeMap OutPoint IndexedForkOutput) (address : Text)
    (outpoint : OutPoint) : ℕ :=
  (outputs[outpoint]?).elim 0 (paidTo lib address)

/-- The totals after outputs were spent. -/
structure Debited (lib : ForkPrimitives) (start : ExplorerTotals) (spends : List OutPoint)
    (totals : ExplorerTotals) : Prop where
  outputs : totals.outputs = start.outputs
  marked : ∀ outpoint, outpoint ∈ totals.spends ↔ outpoint ∈ spends
  listed : ∀ address ∈ start.accumulators, address ∈ totals.accumulators
  funded : ∀ address, (accountOf totals.accumulators address).fundedTotalSats =
    (accountOf start.accumulators address).fundedTotalSats
  spent : ∀ address, (accountOf totals.accumulators address).spentTotalSats.toNat =
    (spends.map (takenFrom lib start.outputs address)).sum

/-- No address loses more than a total can hold. -/
def SpendsFit (lib : ForkPrimitives) (outputs : ExtTreeMap OutPoint IndexedForkOutput)
    (spends : List OutPoint) : Prop :=
  ∀ address, (spends.map (takenFrom lib outputs address)).sum < 2 ^ 64

theorem SpendsFit.early {outputs : ExtTreeMap OutPoint IndexedForkOutput} (early late : List OutPoint)
    (fit : SpendsFit lib outputs (early ++ late)) : SpendsFit lib outputs early := by
  intro address
  have whole := fit address
  rw [List.map_append, List.sum_append] at whole
  omega

section Spending

variable {start : ExplorerTotals} (height : U64) (txid : Digest)

/-- Debiting an address changes its spent total only, as far as totals go. -/
theorem debitAddress_ok (totals : ExplorerTotals) {address : Text} {value total : U64}
    (sum : checkedAdd (accountOf totals.accumulators address).spentTotalSats value = some total) :
    ∃ account, debitAddress height txid address value totals =
        .ok { totals with accumulators := totals.accumulators.insert address account } ∧
      account.fundedTotalSats = (accountOf totals.accumulators address).fundedTotalSats ∧
      account.spentTotalSats = total := by
  rw [accountOf] at sum
  simp only [debitAddress, sum, okOr_some, except_ok_bind]
  exact ⟨_, rfl, rfl, rfl⟩

private theorem spendInput_performs (vin : ℕ) (outpoint : OutPoint) :
    Performs (Debited lib start) (SpendsFit lib start.outputs)
      (spendInput lib height txid vin outpoint) [outpoint] := by
  intro spends totals debited fit
  have total (address : Text) : ((spends ++ [outpoint]).map (takenFrom lib start.outputs address)).sum =
      (accountOf totals.accumulators address).spentTotalSats.toNat +
        takenFrom lib start.outputs address outpoint := by
    rw [List.map_append, List.sum_append, List.map_singleton, List.sum_singleton, debited.spent]
  have marked (spend : ForkOutputSpend) (other : OutPoint) :
      other ∈ totals.spends.insert outpoint spend ↔ other ∈ spends ++ [outpoint] := by
    rw [mem_treeMap_insert, debited.marked, List.mem_append, List.mem_singleton, or_comm, eq_comm]
  rw [spendInput, debited.outputs]
  cases found : (start.outputs[outpoint]?).bind (fun indexed =>
      (outputAddress lib indexed.output).map (·, indexed.output.value)) with
  | none =>
    have untaken (address : Text) : takenFrom lib start.outputs address outpoint = 0 := by
      rw [takenFrom]
      cases held : start.outputs[outpoint]? with
      | none => rfl
      | some indexed =>
        simp only [held, Option.bind_some, Option.map_eq_none_iff] at found
        simp [paidTo, found]
    refine ⟨_, rfl, rfl, marked _, debited.listed, debited.funded, fun address => ?_⟩
    rw [total, untaken]
    rfl
  | some payment =>
    obtain ⟨_, _⟩ := payment
    simp only [Option.bind_eq_some_iff, Option.map_eq_some_iff, Prod.mk.injEq] at found
    obtain ⟨indexed, held, payer, paid, rfl, rfl⟩ := found
    have taken (address : Text) : takenFrom lib start.outputs address outpoint =
        if payer = address then indexed.output.value.toNat else 0 := by
      rw [takenFrom, held, Option.elim_some, paidTo, paid]
      simp
    have bound := fit payer
    rw [total, taken, if_pos rfl] at bound
    obtain ⟨sum, fits, added⟩ := exists_checkedAdd _ _ bound
    obtain ⟨account, returned, funded, spent⟩ := debitAddress_ok height txid { totals with
      outputs := start.outputs
      spends := totals.spends.insert outpoint { txid := displayHash txid, vin, height } } fits
    refine ⟨_, returned, rfl, marked _, fun address member =>
      mem_treeMap_insert.mpr (.inr (debited.listed address member)),
      fun address => ?_, fun address => ?_⟩
    · rw [accountOf_insert]
      split_ifs with same
      · subst same
        exact funded.trans (debited.funded payer)
      · exact debited.funded address
    · rw [accountOf_insert, total, taken]
      split_ifs with same
      · subst same
        rw [spent, added]
      · rfl

private theorem spendInputsFrom_performs (vin : ℕ) (outpoints : List OutPoint) :
    Performs (Debited lib start) (SpendsFit lib start.outputs)
      (spendInputsFrom lib height txid vin outpoints) outpoints := by
  induction outpoints generalizing vin with
  | nil => exact .ok
  | cons outpoint rest ih => exact .bind SpendsFit.early (spendInput_performs height txid vin outpoint) (ih (vin + 1))

private theorem spendTransactions_performs (transactions : List Transaction) :
    Performs (Debited lib start) (SpendsFit lib start.outputs)
      (spendTransactions lib height transactions)
      ((transactions.map fun transaction => (height, transaction)).flatMap fun placed =>
        (transferOf lib placed).takes) := by
  induction transactions with
  | nil => exact .ok
  | cons transaction rest ih =>
    rw [List.map_cons, List.flatMap_cons]
    have takes : (transferOf lib (height, transaction)).takes =
      if transaction.isCoinbase then [] else transaction.spends := rfl
    by_cases coinbase : transaction.isCoinbase
    · have step : spendTransactions lib height (transaction :: rest) =
          spendTransactions lib height rest := by
        funext totals
        simp only [spendTransactions, if_pos coinbase, except_ok_bind]
      rw [step, takes, if_pos coinbase, List.nil_append]
      exact ih
    · have step : spendTransactions lib height (transaction :: rest) = fun totals =>
          spendInputsFrom lib height (computeTxid lib transaction) 0 transaction.spends totals >>=
            spendTransactions lib height rest := by
        funext totals
        simp only [spendTransactions, if_neg coinbase]
      rw [step, takes, if_neg coinbase]
      exact .bind SpendsFit.early (spendInputsFrom_performs height _ 0 transaction.spends) ih

end Spending

private theorem spendBlocks_append (older newer : List ActiveBlock) :
    spendBlocks lib (older ++ newer) = fun totals => spendBlocks lib older totals >>= spendBlocks lib newer := by
  induction older with
  | nil => rfl
  | cons active rest ih =>
    funext totals
    simp only [List.cons_append, spendBlocks, ih, bind_assoc]

/-- The outputs that the transactions of a branch spend. -/
def spendsOn (lib : ForkPrimitives) (branch : Branch) : List OutPoint :=
  (placedOn branch).flatMap fun placed => (transferOf lib placed).takes

private theorem spendBlocks_performs {start : ExplorerTotals} (branch : Branch) :
    Performs (Debited lib start) (SpendsFit lib start.outputs)
      (spendBlocks lib (branch.reverse.map activeOf)) (spendsOn lib branch) := by
  induction branch with
  | nil => exact .ok
  | cons entry rest ih =>
    rw [List.reverse_cons, List.map_append, spendBlocks_append, spendsOn, placedOn_cons, List.flatMap_append]
    refine .bind SpendsFit.early ih ?_
    have newest : Performs (Debited lib start) (SpendsFit lib start.outputs) _ _ :=
      .bind SpendsFit.early (spendTransactions_performs entry.2.height entry.2.block.txdata) .ok
    rwa [List.append_nil] at newest

/-! ## Address entries -/

private theorem addressEntries_ok {accounts : List (Text × ForkAddressAccumulator)}
    (solvent : ∀ entry ∈ accounts, entry.2.spentTotalSats.toNat ≤ entry.2.fundedTotalSats.toNat) :
    ∃ entries, addressEntries accounts = .ok entries := by
  induction accounts with
  | nil => exact ⟨∅, rfl⟩
  | cons account rest ih =>
    obtain ⟨address, accumulator⟩ := account
    obtain ⟨balance, difference, -⟩ := exists_checkedSub _ _ (solvent _ List.mem_cons_self)
    obtain ⟨entries, built⟩ := ih fun entry member => solvent entry (List.mem_cons_of_mem _ member)
    simp only at difference
    simp only [addressEntries, addressEntry, difference, okOr_some, except_ok_bind, built]
    exact ⟨_, rfl⟩

section Records

variable {outputs : ExtTreeMap OutPoint IndexedForkOutput} {addresses : ExtTreeMap Text ForkAddressIndexEntry}
  {height : U64} {hash : Digest}

private theorem recordTransaction_ok {index : ℕ} {transaction : Transaction}
    (known : ∃ amounts, transactionAmounts transaction outputs = .ok amounts) :
    ∃ recorded, recordTransaction lib outputs height hash transaction index addresses = .ok recorded := by
  obtain ⟨amounts, known⟩ := known
  rw [recordTransaction]
  split_ifs
  · exact ⟨_, rfl⟩
  · simp only [transactionRef, known, except_ok_bind]
    exact ⟨_, rfl⟩

private theorem recordTransactions_ok {transactions : List Transaction} (index : ℕ)
    (known : ∀ transaction ∈ transactions, ∃ amounts, transactionAmounts transaction outputs = .ok amounts) :
    ∃ recorded, recordTransactions lib outputs height hash index transactions addresses = .ok recorded := by
  induction transactions generalizing index with
  | nil => exact ⟨_, rfl⟩
  | cons transaction rest ih =>
    rw [List.forall_mem_cons] at known
    obtain ⟨later, others⟩ := ih (index + 1) known.2
    simp only [recordTransactions, others, except_ok_bind]
    exact recordTransaction_ok known.1

/-- Transactions whose amounts can be computed can be recorded. -/
theorem recordBlocks_ok {active : List ActiveBlock} (known : ∀ block ∈ active, ∀ transaction ∈ block.block.txdata,
      ∃ amounts, transactionAmounts transaction outputs = .ok amounts) :
    ∃ recorded, recordBlocks lib outputs active addresses = .ok recorded := by
  induction active with
  | nil => exact ⟨_, rfl⟩
  | cons block rest ih =>
    rw [List.forall_mem_cons] at known
    obtain ⟨later, others⟩ := ih known.2
    simp only [recordBlocks, others, except_ok_bind]
    exact recordTransactions_ok 0 known.1

end Records

/-! ## Branches that replay -/

section Totals

variable {branch : Branch} {state : ForkBranchState} {totals : ExplorerTotals}
  (ledgered : Ledgered lib (placedOn branch) state) (funded : Funded lib (entriesOn lib branch) totals)
include ledgered

theorem Ledgered.nodup_entriesOn : ((entriesOn lib branch).map Prod.fst).Nodup := by
  have distinct := nodup_adds ledgered.run ledgered.apart
  rwa [List.flatMap_map] at distinct

include funded

theorem Funded.output_eq {outpoint : OutPoint} {indexed : IndexedForkOutput}
    (entry : (outpoint, indexed) ∈ entriesOn lib branch) : totals.outputs[outpoint]? = some indexed := by
  rw [funded.outputs, getElem?_foldl_insert Prod.fst Prod.snd _ ledgered.nodup_entriesOn]
  exact .inl ⟨_, entry, rfl, rfl⟩

/-- No address has spent more than it was paid. -/
theorem Funded.covers (address : Text) :
    ((spendsOn lib branch).map (takenFrom lib totals.outputs address)).sum ≤
      (accountOf totals.accumulators address).fundedTotalSats.toNat := by
  have bound := sum_takes_le ledgered.run ledgered.apart (takenFrom lib totals.outputs address)
  rw [List.flatMap_map, List.flatMap_map] at bound
  refine bound.trans (Nat.le_of_eq ?_)
  rw [funded.funded]
  congr 1
  apply List.map_congr_left
  rintro ⟨outpoint, indexed⟩ entry
  rw [takenFrom, funded.output_eq ledgered entry, Option.elim_some]

/-- The outputs of a branch that replays can be marked as spent, and no balance is negative. -/
theorem Funded.spends_ok : ∃ spent entries, spendBlocks lib (branch.reverse.map activeOf) totals = .ok spent ∧
    Debited lib totals (spendsOn lib branch) spent ∧
    addressEntries spent.accumulators.toList = .ok entries := by
  have fit : SpendsFit lib totals.outputs ([] ++ spendsOn lib branch) := by
    intro address
    exact (funded.covers ledgered address).trans_lt (BitVec.isLt _)
  have start : Debited lib totals [] totals :=
    ⟨rfl, by simp [funded.spends], fun _ => id, fun _ => rfl, fun address => by rw [funded.spent]; rfl⟩
  obtain ⟨spent, returned, debited⟩ := spendBlocks_performs branch [] totals start fit
  have solvent : ∀ entry ∈ spent.accumulators.toList,
      entry.2.spentTotalSats.toNat ≤ entry.2.fundedTotalSats.toNat := by
    rintro ⟨address, account⟩ member
    have held : accountOf spent.accumulators address = account := by
      rw [accountOf, ExtTreeMap.mem_toList_iff_getElem?_eq_some.mp member, Option.getD_some]
    have covered := funded.covers ledgered address
    rw [← debited.funded, held] at covered
    have taken := debited.spent address
    rw [held, List.nil_append] at taken
    simp only
    omega
  obtain ⟨entries, built⟩ := addressEntries_ok solvent
  exact ⟨spent, entries, returned, debited, built⟩

end Totals

section Admitted

variable {config : ForkChainConfig} {rest : Branch} {node : BlockNode} {nowUnix : U64} {transaction : Transaction}

/-- Only the first transaction of a block is a coinbase, and its outputs can be added up. -/
theorem Admitted.coinbase_amounts (admitted : Admitted lib config rest nowUnix node)
    (listed : transaction ∈ node.block.txdata) (isCoinbase : transaction.isCoinbase = true)
    (outputs : ExtTreeMap OutPoint IndexedForkOutput) :
    ∃ amounts, transactionAmounts transaction outputs = .ok amounts := by
  obtain ⟨coinbase, others, feesSats, whole, -, fees, -, reward⟩ := admitted.transactions
  have spenders : ∀ other ∈ others, other.isCoinbase = false := by
    rcases transactionsOn_ok fees with ⟨-, rfl, -⟩ | ⟨-, spenders, -⟩
    · simp
    · exact spenders
  have first : transaction = coinbase := by
    rw [whole] at listed
    rcases List.mem_cons.mp listed with same | other
    · exact same
    · rw [spenders transaction other] at isCoinbase
      cases isCoinbase
  simp only [validateCoinbaseReward, except_bind_eq_ok] at reward
  obtain ⟨total, summed, -⟩ := reward
  have sum : checkedSum (transaction.output.map TxOut.value) = some total := by
    rw [checkedSum_eq_some, sumCoinbaseOutputs_total summed, outputTotal, first, List.map_map]
    simp [Function.comp_def]
  simp only [transactionAmounts, sum, okOr_some, except_ok_bind, if_pos isCoinbase]
  exact ⟨_, rfl⟩

theorem ValidBranch.admitted_of_mem {branch : Branch} (valid : ValidBranch lib config branch)
    {entry : Digest × BlockNode} (member : entry ∈ branch) :
    ∃ below moment, Admitted lib config below moment entry.2 := by
  induction valid with
  | nil => cases member
  | cons hashed linked admitted valid ih =>
    rcases List.mem_cons.mp member with rfl | deeper
    · exact ⟨_, _, admitted⟩
    · exact ih deeper

end Admitted

end P2PoolBTC.Soundness
