import P2PoolBTC.Soundness.ForkChoice
import P2PoolBTC.Soundness.ForkLedger

/-! # Money on a branch

A block that spends outputs is checked against the replayed state of its branch, and before the upgrade
activates a block holds a coinbase only, which its height keeps apart from every other coinbase. So
replaying the branch of a stored block never fails, every spent output was created earlier on the branch
and not spent before, and a branch holds no more value than its blocks may issue.
-/

namespace P2PoolBTC.Soundness

open Math Std Model.Core Model.Node ForkChainStore

/-- The value of outputs. -/
def outputTotal (outputs : List TxOut) : ℕ := (outputs.map fun output => output.value.toNat).sum

/-- The value of the unspent outputs of a branch. -/
def utxoTotal (state : ForkBranchState) : ℕ := mapTotal (fun indexed => indexed.output.value.toNat) state.utxos

/-- The value that the unspent outputs give to outpoints. -/
def spentTotal (utxos : ExtTreeMap OutPoint IndexedForkOutput) (outpoints : List OutPoint) : ℕ :=
  (outpoints.map fun outpoint => (utxos[outpoint]?).elim 0 fun indexed => indexed.output.value.toNat).sum

/-! ## Amounts -/

variable {state : ForkBranchState} {lib : ForkPrimitives} {total height feesSats feeSats : U64}
  {coinbase transaction : Transaction} {others : List Transaction} {upgrade : ForkTransactionUpgradeManifest}
  {outputs : List TxOut}

section Amounts

private theorem sumOutputs_total {start : U64} (summed : sumOutputs start outputs = .ok total) :
    total.toNat = start.toNat + outputTotal outputs := by
  induction outputs generalizing start with
  | nil =>
    cases summed
    simp [outputTotal]
  | cons output rest ih =>
    simp only [sumOutputs, except_bind_eq_ok, require_eq_ok, okOr_eq_ok, exists_const] at summed
    obtain ⟨-, next, sum, -, summed⟩ := summed
    have first := checkedAdd_eq_some.mp sum
    have others := ih summed
    rw [outputTotal, List.map_cons, List.sum_cons, ← outputTotal]
    omega

theorem sumCoinbaseOutputs_total {start : U64} (summed : sumCoinbaseOutputs start outputs = .ok total) :
    total.toNat = start.toNat + outputTotal outputs := by
  induction outputs generalizing start with
  | nil =>
    cases summed
    simp [outputTotal]
  | cons output rest ih =>
    simp only [sumCoinbaseOutputs, except_bind_eq_ok, require_eq_ok, okOr_eq_ok, exists_const] at summed
    obtain ⟨-, next, sum, summed⟩ := summed
    have first := checkedAdd_eq_some.mp sum
    have others := ih summed
    rw [outputTotal, List.map_cons, List.sum_cons, ← outputTotal]
    omega

/-- A coinbase pays no more than the subsidy of its height and the fees. -/
theorem validateCoinbaseReward_ok (valid : validateCoinbaseReward coinbase height feesSats = .ok ()) :
    outputTotal coinbase.output ≤ (blockSubsidySats height).toNat + feesSats.toNat := by
  simp only [validateCoinbaseReward, except_bind_eq_ok, require_eq_ok, okOr_eq_ok] at valid
  obtain ⟨total, summed, allowed, sum, within⟩ := valid
  have paid := sumCoinbaseOutputs_total summed
  have limit := checkedAdd_eq_some.mp sum
  rw [BitVec.le_def] at within
  have zero : (0 : U64).toNat = 0 := rfl
  omega

/-- Every scanned input names an unspent output, a coinbase among them being mature. -/
theorem scanInputs_ok {utxos : ExtTreeMap OutPoint IndexedForkOutput} {inputs : List TxIn} {scan final : InputScan}
    (scanned : scanInputs upgrade height utxos scan inputs = .ok final) :
    final.inputTotal.toNat = scan.inputTotal.toNat + spentTotal utxos (inputs.map TxIn.previousOutput) ∧
      ∀ outpoint ∈ inputs.map TxIn.previousOutput, ∃ previous : IndexedForkOutput, utxos[outpoint]? = some previous ∧
        (previous.coinbase = true → upgrade.coinbaseMaturity ≤ saturatingSub height previous.height) := by
  induction inputs generalizing scan with
  | nil =>
    cases scanned
    exact ⟨by simp [spentTotal], fun _ member => absurd member List.not_mem_nil⟩
  | cons input rest ih =>
    simp only [scanInputs, except_bind_eq_ok, require_eq_ok, okOr_eq_ok, exists_const] at scanned
    obtain ⟨-, -, previous, held, mature, inputTotal, sum, -, scanned⟩ := scanned
    obtain ⟨total, known⟩ := ih scanned
    have first := checkedAdd_eq_some.mp sum
    constructor
    · rw [List.map_cons, spentTotal, List.map_cons, List.sum_cons, ← spentTotal, held, Option.elim_some]
      simp only at total
      omega
    · intro outpoint member
      rcases List.mem_cons.mp member with rfl | later
      · refine ⟨previous, held, fun coinbase => ?_⟩
        rw [not_and, BitVec.not_lt] at mature
        exact mature coinbase
      · exact known outpoint later

/-- What the checks of a transaction establish. -/
structure CheckedSpend (lib : ForkPrimitives) (upgrade : ForkTransactionUpgradeManifest) (height : U64)
    (state : ForkBranchState) (transaction : Transaction) (feeSats : U64) : Prop where
  active : upgrade.activationHeight ≤ height
  spender : transaction.isCoinbase = false
  unseen : computeTxid lib transaction ∉ state.txids
  held : ∀ outpoint ∈ transaction.spends, ∃ previous : IndexedForkOutput, state.utxos[outpoint]? = some previous ∧
    (previous.coinbase = true → upgrade.coinbaseMaturity ≤ saturatingSub height previous.height)
  balance : spentTotal state.utxos transaction.spends = feeSats.toNat + outputTotal transaction.output

theorem checkTransaction_ok {config : ForkChainConfig}
    (checked : config.checkTransaction lib transaction height state = .ok feeSats) :
    ∃ upgrade, config.transactionUpgrade = some upgrade ∧
      CheckedSpend lib upgrade height state transaction feeSats := by
  simp only [ForkChainConfig.checkTransaction, except_bind_eq_ok, require_eq_ok, okOr_eq_ok, exists_const,
    Option.filter_eq_some_iff, decide_eq_true_eq] at checked
  obtain ⟨upgrade, ⟨configured, active⟩, spender, -, -, -, -, -, unseen, outputs, summed, scan, scanned, fee, sum,
    _, -, returned⟩ := checked
  obtain ⟨total, held⟩ := scanInputs_ok scanned
  have paid := sumOutputs_total summed
  have balance := checkedSub_eq_some.mp sum
  cases returned
  have zero : (0 : U64).toNat = 0 := rfl
  refine ⟨upgrade, configured, active, spender, unseen, held, ?_⟩
  simp only [Transaction.spends]
  rw [show ({} : InputScan).inputTotal = 0 from rfl] at total
  omega

private theorem outputTotal_entries (txid : Digest) (height : U64) (coinbase : Bool) (index : ℕ)
    (outputs : List TxOut) :
    ((outputEntries txid height coinbase index outputs).map fun entry => entry.2.output.value.toNat).sum =
      outputTotal outputs := by
  induction outputs generalizing index with
  | nil => rfl
  | cons output rest ih =>
    rw [outputEntries_cons, List.map_cons, List.sum_cons, ih, outputTotal, outputTotal, List.map_cons, List.sum_cons]

/-- A replayed transaction changes the value of the unspent outputs by its outputs and its inputs. -/
theorem replayTransaction_total {hash : Digest} {after : ForkBranchState}
    (replayed : replayTransaction lib hash height transaction state = .ok () after) :
    utxoTotal state + outputTotal transaction.output =
      utxoTotal after + spentTotal state.utxos (if transaction.isCoinbase then [] else transaction.spends) := by
  obtain ⟨-, -, utxos, applied, rfl⟩ := replayTransaction_eq_ok.mp replayed
  have balance := Transfer.mapTotal_perform? applied fun indexed => indexed.output.value.toNat
  rwa [show (transferOf lib (height, transaction)).adds = outputEntries _ _ _ 0 transaction.output from rfl,
    outputTotal_entries] at balance

end Amounts

/-! ## Lawful histories -/

/-- What a transaction other than a coinbase does after the transactions before it: it is not below the
activation height and spends distinct outputs, each created earlier and not spent before, a coinbase
output at no less than the depth of maturity. -/
structure LawfulSpend (lib : ForkPrimitives) (config : ForkChainConfig) (earlier : List Placed)
    (placed : Placed) : Prop where
  distinct : placed.2.spends.Nodup
  rules : ∃ upgrade, config.transactionUpgrade = some upgrade ∧ upgrade.activationHeight ≤ placed.1 ∧
    ∀ outpoint ∈ placed.2.spends,
      (∃ origin ∈ earlier, ∃ output, Creates lib origin outpoint output ∧
        (origin.2.isCoinbase = true → origin.1.toNat + upgrade.coinbaseMaturity.toNat ≤ placed.1.toNat)) ∧
      ∀ spender ∈ earlier, ¬ SpendsOutput spender outpoint

/-- Every transaction of the history other than a coinbase is lawful after those before it. -/
def LawfulHistory (lib : ForkPrimitives) (config : ForkChainConfig) (history : List Placed) : Prop :=
  ∀ earlier placed later, history = earlier ++ placed :: later → placed.2.isCoinbase = false →
    LawfulSpend lib config earlier placed

section Histories

variable {config : ForkChainConfig} {history : List Placed} {after : ForkBranchState}

private theorem LawfulHistory.nil : LawfulHistory lib config [] := by
  intro earlier placed later split
  simp at split

theorem LawfulHistory.snoc {placed : Placed} (lawful : LawfulHistory lib config history)
    (last : placed.2.isCoinbase = false → LawfulSpend lib config history placed) :
    LawfulHistory lib config (history ++ [placed]) := by
  intro earlier other later split
  rcases List.eq_nil_or_concat later with rfl | ⟨inner, final, rfl⟩
  · obtain ⟨rfl, same⟩ := List.append_inj' split rfl
    obtain rfl := (List.cons.inj same).1
    exact last
  · rw [List.concat_eq_append, ← List.cons_append, ← List.append_assoc] at split
    obtain ⟨rfl, -⟩ := List.append_inj' split rfl
    exact lawful earlier other inner rfl

/-- A checked transaction is lawful after the history that the state stands for. -/
theorem CheckedSpend.lawful {rest : ExtTreeMap OutPoint IndexedForkOutput}
    (checked : CheckedSpend lib upgrade height state transaction feeSats)
    (configured : config.transactionUpgrade = some upgrade) (ledgered : Ledgered lib history state)
    (low : ∀ placed ∈ history, placed.1.toNat ≤ height.toNat)
    (taken : takeAll? state.utxos transaction.spends = some rest) :
    LawfulSpend lib config history (height, transaction) := by
  refine ⟨(held_of_takeAll? taken).1, upgrade, configured, checked.active, ?_⟩
  intro outpoint member
  obtain ⟨previous, held, mature⟩ := checked.held outpoint member
  obtain ⟨⟨origin, earlier, creates, bornAt, coinbase⟩, untouched⟩ := ledgered.origin held
  refine ⟨⟨origin, earlier, previous.output, creates, ?_⟩, untouched⟩
  intro isCoinbase
  have depth := mature (coinbase.trans isCoinbase)
  have older := low origin earlier
  rw [BitVec.le_def, bornAt, saturatingSub] at depth
  obtain ⟨difference, subtracted, total⟩ := exists_checkedSub height origin.1 older
  rw [subtracted, Option.getD_some] at depth
  simp only
  omega

theorem validateAndApplyTransaction_ok
    (applied : config.validateAndApplyTransaction lib transaction height state = .ok feeSats after) :
    config.checkTransaction lib transaction height state = .ok feeSats ∧
      (∃ rest, takeAll? state.utxos transaction.spends = some rest) ∧
      ∀ hash, replayTransaction lib hash height transaction state = .ok () after := by
  rw [ForkChainConfig.validateAndApplyTransaction, Routine.get_bind] at applied
  obtain ⟨fee, checked, applied⟩ := Routine.settle_bind_eq_ok.mp applied
  obtain ⟨⟨⟩, middle, removed, applied⟩ := Routine.bind_eq_ok.mp applied
  obtain ⟨rest, taken, rfl⟩ := removeInputs_eq_ok.mp removed
  rw [Routine.modify_bind] at applied
  obtain ⟨⟨⟩, final, added, returned⟩ := Routine.bind_eq_ok.mp applied
  cases returned
  obtain ⟨fits, utxos, stored, rfl⟩ := addOutputsFrom_eq_ok.mp added
  obtain ⟨upgrade, -, spend⟩ := checkTransaction_ok checked
  refine ⟨checked, ⟨rest, taken⟩, fun hash => replayTransaction_eq_ok.mpr ⟨spend.unseen, ?_, utxos, ?_, rfl⟩⟩
  · by_cases empty : transaction.output = []
    · simp [empty]
    · simpa using fits empty
  · rw [Transfer.perform?_eq_some]
    refine ⟨rest, ?_, stored⟩
    simpa [transferOf, spend.spender] using taken

/-- Transactions of a new block are lawful, replaying them gives the same state, and what they leave
unspent and pay in fees is what was unspent before. -/
theorem applyTransactions_ok (hash : Digest) {pending : List Transaction}
    (applied : config.applyTransactions lib height feesSats pending state = .ok total after)
    (ledgered : Ledgered lib history state) (lawful : LawfulHistory lib config history)
    (low : ∀ placed ∈ history, placed.1.toNat ≤ height.toNat) :
    replayTransactions lib hash height pending state = .ok () after ∧
      LawfulHistory lib config (history ++ pending.map fun transaction => (height, transaction)) ∧
      utxoTotal after + total.toNat = utxoTotal state + feesSats.toNat := by
  induction pending generalizing history state feesSats with
  | nil =>
    cases applied
    exact ⟨rfl, by simpa using lawful, rfl⟩
  | cons transaction rest ih =>
    obtain ⟨fee, middle, first, applied⟩ := Routine.bind_eq_ok.mp applied
    obtain ⟨sum, added, applied⟩ := Routine.attempt_bind_eq_ok.mp applied
    obtain ⟨checked, ⟨left, taken⟩, replayed⟩ := validateAndApplyTransaction_ok first
    obtain ⟨upgrade, configured, spend⟩ := checkTransaction_ok checked
    have extended : LawfulHistory lib config (history ++ [(height, transaction)]) :=
      lawful.snoc fun _ => spend.lawful configured ledgered low taken
    obtain ⟨others, whole, value⟩ := ih applied (ledgered.step (replayed hash)) extended (by
      intro placed member
      rcases List.mem_append.mp member with old | last
      · exact low placed old
      · rw [List.mem_singleton.mp last])
    refine ⟨?_, ?_, ?_⟩
    · rw [replayTransactions, Routine.bind_of_ok (replayed hash)]
      exact others
    · rwa [List.append_assoc, List.singleton_append] at whole
    · have balance := replayTransaction_total (replayed hash)
      rw [spend.spender] at balance
      simp only [Bool.false_eq_true, if_false, spend.balance] at balance
      have fees := checkedAdd_eq_some.mp (okOr_eq_ok.mp added)
      omega

/-- The outputs of a transaction with a new identifier can be added, whatever was spent before. -/
theorem Ledgered.exists_added (height : U64) {outpoints : List OutPoint} {rest : ExtTreeMap OutPoint IndexedForkOutput}
    (ledgered : Ledgered lib history state) (unseen : computeTxid lib transaction ∉ state.txids)
    (fits : transaction.output.length ≤ 2 ^ 32) (taken : takeAll? state.utxos outpoints = some rest) :
    ∃ utxos, addAll? rest (transferOf lib (height, transaction)).adds = some utxos := by
  have keys : ((transferOf lib (height, transaction)).adds.map Prod.fst).Nodup := by
    have positions : (transferOf lib (height, transaction)).adds.map Prod.fst =
        (List.range' 0 transaction.output.length).map fun position =>
          (⟨computeTxid lib transaction, BitVec.ofNat 32 position⟩ : OutPoint) := by
      rw [← List.zipIdx_map_snd 0 transaction.output, transferOf, outputEntries, List.map_map, List.map_map]
      rfl
    rw [positions]
    refine List.Nodup.map_on ?_ List.nodup_range'
    intro left leftMember right rightMember same
    have words := congrArg BitVec.toNat (OutPoint.mk.inj same).2
    rw [List.mem_range'_1] at leftMember rightMember
    rwa [BitVec.toNat_ofNat, BitVec.toNat_ofNat, Nat.mod_eq_of_lt (by omega), Nat.mod_eq_of_lt (by omega)] at words
  apply exists_addAll? keys
  rintro ⟨outpoint, indexed⟩ member
  obtain ⟨txid, -⟩ := mem_outputEntries fits member
  rw [getElem?_takeAll? taken]
  split_ifs
  · rfl
  · by_contra present
    obtain ⟨held, known⟩ := Option.ne_none_iff_exists'.mp present
    obtain ⟨⟨origin, earlier, ⟨created, -⟩, -⟩, -⟩ := ledgered.origin known
    exact unseen ((ledgered.txids _).mpr (List.mem_map.mpr ⟨origin, earlier, created.trans txid⟩))

/-- A coinbase with a new identifier can be replayed. -/
theorem exists_replayed_coinbase (hash : Digest) (ledgered : Ledgered lib history state)
    (isCoinbase : coinbase.isCoinbase = true) (unseen : computeTxid lib coinbase ∉ state.txids)
    (fits : coinbase.output.length ≤ 2 ^ 32) :
    ∃ after, replayTransaction lib hash height coinbase state = .ok () after := by
  obtain ⟨utxos, added⟩ := ledgered.exists_added height unseen fits (rfl : takeAll? state.utxos [] = some state.utxos)
  refine ⟨_, replayTransaction_eq_ok.mpr ⟨unseen, fits, utxos, ?_, rfl⟩⟩
  rw [Transfer.perform?_eq_some]
  refine ⟨state.utxos, ?_, added⟩
  simp [transferOf, isCoinbase, takeAll?]

/-- A new block after the activation begins with the replay of its coinbase. -/
theorem applyBlockTransactions_first (hash : Digest) (isCoinbase : coinbase.isCoinbase = true)
    (applied : config.applyBlockTransactions lib height coinbase others state = .ok feesSats after) :
    ∃ middle, replayTransaction lib hash height coinbase state = .ok () middle ∧
      config.applyTransactions lib height 0 others middle = .ok feesSats after := by
  rw [ForkChainConfig.applyBlockTransactions, Routine.get_bind, Routine.set_bind] at applied
  split_ifs at applied with known
  · cases applied
  · obtain ⟨⟨⟩, middle, added, applied⟩ := Routine.bind_eq_ok.mp applied
    refine ⟨middle, ?_, applied⟩
    rw [replayTransaction, Routine.get_bind, Routine.set_bind, if_neg known, if_pos isCoinbase]
    exact added

/-- A new block after the activation is lawful, replaying it gives the same state, and it adds no more
than its coinbase pays beyond the fees. -/
theorem applyBlockTransactions_ok (hash : Digest) (isCoinbase : coinbase.isCoinbase = true)
    (applied : config.applyBlockTransactions lib height coinbase others state = .ok feesSats after)
    (ledgered : Ledgered lib history state) (lawful : LawfulHistory lib config history)
    (low : ∀ placed ∈ history, placed.1.toNat ≤ height.toNat) :
    replayTransactions lib hash height (coinbase :: others) state = .ok () after ∧
      LawfulHistory lib config
        (history ++ (coinbase :: others).map fun transaction => (height, transaction)) ∧
      utxoTotal after + feesSats.toNat = utxoTotal state + outputTotal coinbase.output := by
  obtain ⟨middle, first, applied⟩ := applyBlockTransactions_first hash isCoinbase applied
  have extended : LawfulHistory lib config (history ++ [(height, coinbase)]) := by
    refine lawful.snoc fun spender => ?_
    rw [isCoinbase] at spender
    cases spender
  obtain ⟨rest, whole, value⟩ := applyTransactions_ok hash applied (ledgered.step first) extended (by
    intro placed member
    rcases List.mem_append.mp member with old | last
    · exact low placed old
    · rw [List.mem_singleton.mp last])
  refine ⟨?_, ?_, ?_⟩
  · rw [replayTransactions, Routine.bind_of_ok first]
    exact rest
  · rwa [List.append_assoc, List.singleton_append] at whole
  · have balance := replayTransaction_total first
    rw [if_pos isCoinbase] at balance
    simp only [spentTotal, List.map_nil, List.sum_nil] at balance
    have zero : (0 : U64).toNat = 0 := rfl
    omega

end Histories

/-! ## Coinbases before the activation -/

private theorem littleEndian_append_zero (bytes : List UInt8) : littleEndian (bytes ++ [0]) = littleEndian bytes := by
  induction bytes with
  | nil => rfl
  | cons byte rest ih => rw [List.cons_append, littleEndian, littleEndian, ih]

private theorem littleEndian_minimalBytes {fuel value : ℕ} (fits : value < 256 ^ fuel) :
    littleEndian (minimalBytes fuel value) = value := by
  induction fuel generalizing value with
  | zero =>
    rw [Nat.pow_zero] at fits
    rw [minimalBytes, littleEndian]
    omega
  | succ fuel ih =>
    cases value with
    | zero => rfl
    | succ value =>
      have smaller : (value + 1) / 256 < 256 ^ fuel := by
        rw [Nat.pow_succ] at fits
        omega
      rw [minimalBytes, littleEndian, ih smaller, UInt8.toNat_ofNat']
      · omega
      · exact Nat.succ_ne_zero value

private theorem littleEndian_minimalScriptNumber (height : U64) :
    littleEndian (minimalScriptNumber height) = height.toNat := by
  have bytes : littleEndian (minimalBytes 8 height.toNat) = height.toNat :=
    littleEndian_minimalBytes (by have := height.isLt; omega)
  rw [minimalScriptNumber]
  split_ifs
  · rw [littleEndian_append_zero, bytes]
  · exact bytes

/-- A coinbase shows one height only, also without its witnesses. -/
theorem validateCoinbaseHeight_unique {left right : Transaction} {low high : U64}
    (leftValid : validateCoinbaseHeight left low = .ok ()) (rightValid : validateCoinbaseHeight right high = .ok ())
    (same : left.stripped = right.stripped) : low = high := by
  simp only [validateCoinbaseHeight, except_bind_eq_ok, require_eq_ok, okOr_eq_ok, exists_const,
    List.isPrefixOf_iff_prefix] at leftValid rightValid
  obtain ⟨first, leftHead, -, leftShort, leftPrefix⟩ := leftValid
  obtain ⟨second, rightHead, -, rightShort, rightPrefix⟩ := rightValid
  have scripts : first.scriptSig = second.scriptSig := by
    have heads := congrArg (fun transaction => transaction.input.head?.map TxIn.scriptSig) same
    simpa [Transaction.stripped, leftHead, rightHead] using heads
  rw [scripts] at leftPrefix
  have sizes : (minimalScriptNumber low).length = (minimalScriptNumber high).length := by
    obtain ⟨_, leftWhole⟩ := leftPrefix
    obtain ⟨_, rightWhole⟩ := rightPrefix
    have heads := (List.cons.inj (leftWhole.trans rightWhole.symm)).1
    have bytes := congrArg UInt8.toNat heads
    rw [UInt8.toNat_ofNat', UInt8.toNat_ofNat', Nat.mod_eq_of_lt (by omega), Nat.mod_eq_of_lt (by omega)] at bytes
    exact bytes
  have whole := (List.prefix_of_prefix_length_le leftPrefix rightPrefix (by simp [sizes])).eq_of_length
    (by simp [sizes])
  apply BitVec.eq_of_toNat_eq
  rw [← littleEndian_minimalScriptNumber, ← littleEndian_minimalScriptNumber, (List.cons.inj whole).2]

section Branches

variable {config : ForkChainConfig} {branch rest : Branch} {hash : Digest} {node : BlockNode} {nowUnix : U64}

/-- No transaction other than a coinbase is allowed at a height. -/
def Inactive (config : ForkChainConfig) (height : U64) : Prop :=
  ∀ upgrade, config.transactionUpgrade = some upgrade → ¬ upgrade.activationHeight ≤ height

private theorem Inactive.mono {low high : U64} (inactive : Inactive config high) (below : low.toNat ≤ high.toNat) :
    Inactive config low := by
  intro upgrade configured active
  apply inactive upgrade configured
  rw [BitVec.le_def] at active ⊢
  omega

/-- Below the activation height there is only the coinbase; from it on the other transactions are applied. -/
theorem transactionsOn_ok (returned : transactionsOn lib config branch coinbase others height = .ok feesSats) :
    (Inactive config height ∧ others = [] ∧ feesSats = 0) ∨
      ¬ Inactive config height ∧ (∀ other ∈ others, other.isCoinbase = false) ∧
        ∃ state after, stateOn lib branch = .ok state ∧
          config.applyBlockTransactions lib height coinbase others state = .ok feesSats after := by
  rw [transactionsOn, ForkChainConfig.transactionFees] at returned
  cases selected : config.transactionUpgrade.filter fun upgrade => upgrade.activationHeight ≤ height with
  | none =>
    simp only [selected, except_bind_eq_ok, require_eq_ok, exists_const] at returned
    obtain ⟨rfl, free⟩ := returned
    cases free
    refine .inl ⟨fun upgrade configured active => ?_, rfl, rfl⟩
    exact Option.filter_eq_none_iff.mp selected upgrade configured (decide_eq_true active)
  | some upgrade =>
    simp only [selected, except_bind_eq_ok, require_eq_ok, exists_const, List.any_eq_false,
      Bool.not_eq_true] at returned
    obtain ⟨-, spenders, state, replayed, applied⟩ := returned
    obtain ⟨configured, active⟩ := Option.filter_eq_some_iff.mp selected
    refine .inr ⟨fun inactive => inactive upgrade configured (of_decide_eq_true active), spenders, state, ?_⟩
    cases result : config.applyBlockTransactions lib height coinbase others state with
    | error fault final =>
      rw [result] at applied
      cases applied
    | ok total after =>
      rw [result] at applied
      cases applied
      exact ⟨after, replayed, rfl⟩

/-- A block below the activation height holds its coinbase only. -/
theorem Admitted.single (admitted : Admitted lib config rest nowUnix node) (inactive : Inactive config node.height) :
    ∃ coinbase, node.block.txdata = [coinbase] ∧ coinbase.isCoinbase = true ∧
      validateCoinbaseHeight coinbase node.height = .ok () ∧
      validateCoinbaseReward coinbase node.height 0 = .ok () := by
  obtain ⟨coinbase, others, feesSats, whole, isCoinbase, fees, height, reward⟩ := admitted.transactions
  rcases transactionsOn_ok fees with ⟨-, rfl, rfl⟩ | ⟨active, -⟩
  · exact ⟨coinbase, whole, isCoinbase, height, reward⟩
  · exact absurd inactive active

private theorem ValidBranch.coinbase_heights (valid : ValidBranch lib config branch) (inactive : Inactive config height)
    (low : ∀ entry ∈ branch, entry.2.height.toNat ≤ height.toNat) :
    ∀ placed ∈ placedOn branch, validateCoinbaseHeight placed.2 placed.1 = .ok () := by
  induction valid with
  | nil => exact fun _ member => absurd member List.not_mem_nil
  | @cons hash node rest nowUnix hashed linked admitted valid ih =>
    intro placed member
    rw [placedOn_cons, List.mem_append] at member
    rcases member with older | newest
    · exact ih (fun entry listed => low entry (List.mem_cons_of_mem _ listed)) placed older
    · obtain ⟨coinbase, whole, -, shown, -⟩ := admitted.single (inactive.mono (low _ List.mem_cons_self))
      simp only [whole, List.map_singleton, List.mem_singleton] at newest
      rwa [newest]

/-- The transactions of a branch without their witnesses. -/
def strippedOn (branch : Branch) : Set Transaction :=
  { stripped | ∃ placed ∈ placedOn branch, placed.2.stripped = stripped }

theorem strippedOn_suffix {newer older : Branch} : strippedOn older ⊆ strippedOn (newer ++ older) := by
  rintro stripped ⟨placed, member, same⟩
  refine ⟨placed, ?_, same⟩
  simp only [placedOn, List.reverse_append, List.flatMap_append, List.mem_append]
  exact .inl member

theorem ValidBranch.low (valid : ValidBranch lib config ((hash, node) :: rest)) :
    ∀ placed ∈ placedOn rest, placed.1.toNat < node.height.toNat := by
  intro placed member
  obtain ⟨entry, listed, height, -⟩ := mem_placedOn.mp member
  rw [height]
  exact (List.pairwise_cons.mp valid.pairwise_height).1 entry listed

/-- Below the activation height the coinbase of a new block has a new identifier. -/
theorem ValidBranch.coinbase_unseen (valid : ValidBranch lib config ((hash, node) :: rest))
    (inactive : Inactive config node.height)
    (distinct : Set.InjOn lib.strippedTxid (strippedOn ((hash, node) :: rest)))
    (whole : node.block.txdata = [coinbase]) (shown : validateCoinbaseHeight coinbase node.height = .ok ())
    (ledgered : Ledgered lib (placedOn rest) state) : computeTxid lib coinbase ∉ state.txids := by
  rw [ledgered.txids, List.mem_map]
  rintro ⟨placed, member, same⟩
  have below := valid.low placed member
  have older : ValidBranch lib config rest := valid.of_suffix (List.suffix_cons _ _)
  have heights := older.coinbase_heights inactive
    (fun entry listed => ((List.pairwise_cons.mp valid.pairwise_height).1 entry listed).le) placed member
  have stripped : placed.2.stripped = coinbase.stripped := by
    refine distinct ⟨placed, ?_, rfl⟩ ⟨(node.height, coinbase), ?_, rfl⟩ same
    · rw [placedOn_cons]
      exact List.mem_append_left _ member
    · rw [placedOn_cons, whole]
      exact List.mem_append_right _ List.mem_cons_self
  rw [validateCoinbaseHeight_unique heights shown stripped] at below
  exact absurd below (Nat.lt_irrefl _)

/-- What replaying the newest block of a branch gives. -/
def ReplaysLawfully (lib : ForkPrimitives) (config : ForkChainConfig) (hash : Digest) (node : BlockNode)
    (rest : Branch) (state : ForkBranchState) : Prop :=
  ∃ after, replayTransactions lib hash node.height node.block.txdata state = .ok () after ∧
    LawfulHistory lib config (placedOn ((hash, node) :: rest)) ∧
    utxoTotal after ≤ (blockSubsidySats node.height).toNat + utxoTotal state

section NewestBlock

variable (whole : ValidBranch lib config ((hash, node) :: rest))
  (admitted : Admitted lib config rest nowUnix node) (replayed : stateOn lib rest = .ok state)
  (lawful : LawfulHistory lib config (placedOn rest))
include whole admitted replayed lawful

private theorem replaysLawfully_of_inactive (inactive : Inactive config node.height)
    (distinct : Set.InjOn lib.strippedTxid (strippedOn ((hash, node) :: rest))) :
    ReplaysLawfully lib config hash node rest state := by
  have ledgered := Ledgered.branch replayed
  obtain ⟨coinbase, single, isCoinbase, shown, reward⟩ := admitted.single inactive
  have fits : coinbase.output.length ≤ 2 ^ 32 := by
    have member : coinbase ∈ node.block.txdata := by simp [single]
    have bound := Block.length_output_le_weight member
    have weight := admitted.weight
    unfold maxBlockWeight at weight
    omega
  obtain ⟨after, first⟩ := exists_replayed_coinbase hash ledgered isCoinbase
    (whole.coinbase_unseen inactive distinct single shown ledgered) fits
  refine ⟨after, ?_, ?_, ?_⟩
  · rw [single, replayTransactions, Routine.bind_of_ok first]
    rfl
  · rw [placedOn_cons, single]
    refine lawful.snoc fun spender => ?_
    rw [isCoinbase] at spender
    cases spender
  · have balance := replayTransaction_total first
    rw [if_pos isCoinbase] at balance
    simp only [spentTotal, List.map_nil, List.sum_nil] at balance
    have paid := validateCoinbaseReward_ok reward
    have zero : (0 : U64).toNat = 0 := rfl
    omega

private theorem replaysLawfully_of_active (active : ¬ Inactive config node.height) :
    ReplaysLawfully lib config hash node rest state := by
  obtain ⟨coinbase, others, feesSats, block, isCoinbase, fees, -, reward⟩ := admitted.transactions
  obtain ⟨-, -, _, after, again, result⟩ := (transactionsOn_ok fees).resolve_left fun inactive => active inactive.1
  obtain rfl := Except.ok.inj (replayed.symm.trans again)
  obtain ⟨replays, history, value⟩ := applyBlockTransactions_ok hash isCoinbase result (Ledgered.branch replayed)
    lawful fun placed member => (whole.low placed member).le
  have paid := validateCoinbaseReward_ok reward
  refine ⟨after, by rw [block, replays], ?_, by omega⟩
  rw [placedOn_cons, block]
  exact history

end NewestBlock

/-- The branch of a valid block replays, its transactions are lawful and it holds no more than its
blocks may issue. -/
theorem ValidBranch.money (valid : ValidBranch lib config branch)
    (distinct : Set.InjOn lib.strippedTxid (strippedOn branch)) :
    ∃ state, stateOn lib branch = .ok state ∧ LawfulHistory lib config (placedOn branch) ∧
      utxoTotal state ≤ (branch.map fun entry => (blockSubsidySats entry.2.height).toNat).sum := by
  induction valid with
  | nil => exact ⟨{}, rfl, .nil, by simp [utxoTotal]⟩
  | @cons hash node rest nowUnix hashed linked admitted valid ih =>
    have whole : ValidBranch lib config ((hash, node) :: rest) := .cons hashed linked admitted valid
    have subset : strippedOn rest ⊆ strippedOn ([(hash, node)] ++ rest) := strippedOn_suffix
    obtain ⟨state, replayed, lawful, total⟩ := ih (distinct.mono subset)
    have newest : ReplaysLawfully lib config hash node rest state := by
      by_cases inactive : Inactive config node.height
      · exact replaysLawfully_of_inactive whole admitted replayed lawful inactive distinct
      · exact replaysLawfully_of_active whole admitted replayed lawful inactive
    obtain ⟨after, replays, history, value⟩ := newest
    refine ⟨after, stateOn_cons.mpr ⟨state, replayed, replays⟩, history, ?_⟩
    rw [List.map_cons, List.sum_cons]
    exact value.trans (Nat.add_le_add_left total _)

end Branches

/-- The transactions of the stored blocks without their witnesses. -/
def storedTransactions (store : ForkChainStore) : Set Transaction :=
  { stripped | ∃ hash node, store.lookup hash = some node ∧ ∃ transaction ∈ node.block.txdata,
    transaction.stripped = stripped }

theorem BranchOf.strippedOn_subset {store : ForkChainStore} {tip : Option Digest} {branch : Branch}
    (found : BranchOf store tip branch) : strippedOn branch ⊆ storedTransactions store := by
  rintro stripped ⟨placed, member, same⟩
  obtain ⟨entry, listed, -, transaction⟩ := mem_placedOn.mp member
  exact ⟨entry.1, entry.2, Trail.stored_of_mem found listed, placed.2, transaction, same⟩

/-- A run that stores a spend of the first coinbase, with different identifiers throughout. -/
theorem ForkSample.spent : ∃ store,
    run? (ForkOp.step? library) (emptyStore config) (submitted [hexA, hexC]) = some store ∧
    store.activeTip = some hashC ∧ (store.lookup hashC).isSome = true ∧
    Set.InjOn library.strippedTxid (storedTransactions store) ∧
    (store.branch "" (some hashC)).toOption.map placedOn =
      some [(101, coinbaseA), (102, coinbaseC), (102, spendA)] := by
  let occurring := [coinbaseA.stripped, coinbaseC.stripped, spendA.stripped]
  have computed : (run? (ForkOp.step? library) (emptyStore config) (submitted [hexA, hexC])).any (fun store =>
      decide (store.activeTip = some hashC ∧ (store.lookup hashC).isSome = true ∧
        (∀ entry ∈ store.blocks.toList, ∀ transaction ∈ entry.2.block.txdata, transaction.stripped ∈ occurring) ∧
        (store.branch "" (some hashC)).toOption.map placedOn =
          some [(101, coinbaseA), (102, coinbaseC), (102, spendA)])) = true := by
    decide +kernel
  have identifiers : (occurring.map library.strippedTxid).Nodup := by decide
  simp only [Option.any_eq_true, decide_eq_true_eq] at computed
  obtain ⟨store, reached, tip, known, listed, placed⟩ := computed
  have inside : storedTransactions store ⊆ { transaction | transaction ∈ occurring } := by
    rintro _ ⟨hash, held, kept, transaction, member, rfl⟩
    exact listed _ (ExtTreeMap.mem_toList_iff_getElem?_eq_some.mpr kept) transaction member
  exact ⟨store, reached, tip, known, Set.InjOn.mono inside (List.inj_on_of_nodup_map identifiers), placed⟩

/-- In every reached store the branch of a stored block replays. No identifier occurs twice on it. Every
transaction other than a coinbase is at or above the activation height and spends distinct outputs that
were created earlier on the branch and not spent before, coinbase outputs only when mature. The value
of the unspent outputs is at most what the blocks of the branch may issue. -/
theorem reachable_branch_money_safe (lib : ForkPrimitives) (config : ForkChainConfig) (ops : List ForkOp)
    (store : ForkChainStore) (reached : run? (ForkOp.step? lib) (emptyStore config) ops = some store)
    (distinct : Set.InjOn lib.strippedTxid (storedTransactions store)) (hash : Digest) (node : BlockNode)
    (stored : store.lookup hash = some node) :
    ∃ branch state, BranchOf store (some hash) branch ∧ store.branchState lib (some hash) = .ok state ∧
      ((placedOn branch).map fun placed => computeTxid lib placed.2).Nodup ∧
      (∀ earlier placed later, placedOn branch = earlier ++ placed :: later → placed.2.isCoinbase = false →
        LawfulSpend lib config earlier placed) ∧
      utxoTotal state ≤ (branch.map fun entry => (blockSubsidySats entry.2.height).toNat).sum := by
  have sound := (SoundFork.initial config []).run reached
  obtain ⟨rest, found, valid⟩ := sound.rooted hash node stored
  obtain ⟨state, replayed, lawful, total⟩ := valid.money (distinct.mono found.strippedOn_subset)
  rw [run_config reached] at lawful
  exact ⟨_, state, found, by rw [found.branchState_eq, replayed], (Ledgered.branch replayed).distinct, lawful, total⟩

open ForkSample in
theorem reachable_branch_money_safe_sample : ∃ store branch state,
    run? (ForkOp.step? ForkSample.library) (emptyStore ForkSample.config) (submitted [hexA, hexC]) = some store ∧
    BranchOf store (some hashC) branch ∧
    store.branchState ForkSample.library (some hashC) = .ok state ∧
    LawfulSpend ForkSample.library ForkSample.config [(101, coinbaseA), (102, coinbaseC)] (102, spendA) ∧
    utxoTotal state ≤ (branch.map fun entry => (blockSubsidySats entry.2.height).toNat).sum := by
  obtain ⟨store, reached, -, known, distinct, placed⟩ := spent
  obtain ⟨node, stored⟩ := Option.isSome_iff_exists.mp known
  obtain ⟨branch, state, found, replayed, -, lawful, total⟩ := reachable_branch_money_safe ForkSample.library
    ForkSample.config _ store reached distinct _ node stored
  rw [found.walked] at placed
  exact ⟨store, branch, state, reached, found, replayed,
    lawful _ _ [] (Option.some.inj placed) (by decide), total⟩

/-- Blocks at different heights may issue no more than all halvings of the subsidy together. -/
theorem sum_subsidies_le {heights : List U64} (distinct : heights.Nodup) :
    (heights.map fun height => (blockSubsidySats height).toNat).sum ≤ 2099999997690000 := by
  let subsidy (height : ℕ) : ℕ := 5000000000 / 2 ^ (height / 210000)
  have late {halvings : ℕ} (many : 33 ≤ halvings) : 5000000000 / 2 ^ halvings = 0 :=
    Nat.div_eq_of_lt (Nat.lt_of_lt_of_le (by decide) (Nat.pow_le_pow_right two_pos many))
  have value (height : U64) : (blockSubsidySats height).toNat = subsidy height.toNat := by
    unfold blockSubsidySats
    dsimp only
    split_ifs with many
    · exact (late (by omega)).symm
    · rw [BitVec.toNat_ushiftRight, Nat.shiftRight_eq_div_pow]
      rfl
  -- One halving after the other: all heights of a period have the same subsidy.
  have periods (count : ℕ) : ∑ height ∈ Finset.range (210000 * count), subsidy height =
      210000 * ∑ halvings ∈ Finset.range count, 5000000000 / 2 ^ halvings := by
    induction count with
    | zero => rfl
    | succ count ih =>
      have same : ∀ height ∈ Finset.range 210000, subsidy (210000 * count + height) = 5000000000 / 2 ^ count := by
        intro height inside
        rw [Finset.mem_range] at inside
        have halvings : (210000 * count + height) / 210000 = count := by omega
        simp only [subsidy, halvings]
      rw [Nat.mul_succ, Finset.sum_range_add, ih, Finset.sum_congr rfl same, Finset.sum_const, Finset.card_range,
        smul_eq_mul, Finset.sum_range_succ, mul_add]
  calc (heights.map fun height => (blockSubsidySats height).toNat).sum
      = ∑ height ∈ (heights.map BitVec.toNat).toFinset, subsidy height := by
        rw [List.sum_toFinset _ (distinct.map BitVec.toNat_injective), List.map_map]
        simp [Function.comp_def, value]
    _ ≤ ∑ height ∈ Finset.range (210000 * 33), subsidy height := by
        refine Finset.sum_le_sum_of_ne_zero fun height _ paid => ?_
        rw [Finset.mem_range]
        by_contra above
        exact paid (late (by omega))
    _ = 2099999997690000 := by
        rw [periods]
        decide +kernel

/-- In every reached store the unspent outputs of a branch never hold more than the subsidies can ever issue. -/
theorem fork_supply_capped (lib : ForkPrimitives) (config : ForkChainConfig) (ops : List ForkOp)
    (store : ForkChainStore) (reached : run? (ForkOp.step? lib) (emptyStore config) ops = some store)
    (distinct : Set.InjOn lib.strippedTxid (storedTransactions store)) (hash : Digest)
    (known : (store.lookup hash).isSome = true) :
    ∃ state, store.branchState lib (some hash) = .ok state ∧ utxoTotal state ≤ 2099999997690000 := by
  obtain ⟨node, stored⟩ := Option.isSome_iff_exists.mp known
  obtain ⟨rest, found, valid⟩ := ((SoundFork.initial config []).run reached).rooted hash node stored
  obtain ⟨state, replayed, -, total⟩ := valid.money (distinct.mono found.strippedOn_subset)
  have capped := sum_subsidies_le valid.nodup_heights
  rw [List.map_map] at capped
  exact ⟨state, by rw [found.branchState_eq, replayed], total.trans capped⟩

theorem fork_supply_capped_sample : ∃ store state,
    run? (ForkOp.step? ForkSample.library) (emptyStore ForkSample.config)
      (ForkSample.submitted [ForkSample.hexA, ForkSample.hexC]) = some store ∧
    store.branchState ForkSample.library (some ForkSample.hashC) = .ok state ∧ utxoTotal state ≤ 2099999997690000 := by
  obtain ⟨store, reached, -, known, distinct, -⟩ := ForkSample.spent
  obtain ⟨state, replayed, total⟩ := fork_supply_capped _ _ _ store reached distinct _ known
  exact ⟨store, state, reached, replayed, total⟩

/-- Along every run no stored block is lost or changed, and the active tip moves to blocks of a higher rank only. -/
theorem fork_store_never_regresses (lib : ForkPrimitives) (config : ForkChainConfig) (early late : List ForkOp)
    (earlier later : ForkChainStore) (reached : run? (ForkOp.step? lib) (emptyStore config) early = some earlier)
    (continued : run? (ForkOp.step? lib) earlier late = some later) :
    (∀ hash node, earlier.lookup hash = some node → later.lookup hash = some node) ∧
    ∀ tip node, earlier.activeTip = some tip → earlier.lookup tip = some node → later.activeTip = some tip ∨
      ∃ next moved, later.activeTip = some next ∧ later.lookup next = some moved ∧
        Outranks moved.cumulativeWork next node.cumulativeWork tip := by
  have grown : ∀ hash node, earlier.lookup hash = some node → later.lookup hash = some node := by
    refine run?_invariant (fun store => ∀ hash node, earlier.lookup hash = some node → store.lookup hash = some node)
      continued (fun _ _ => id) fun before op after _ kept step hash node stored => ?_
    rcases ForkOp.step?_cases step with only | ⟨_, _, _, _, -, -, unknown, placed, _, -, -, storing, only⟩
    · rw [lookup, only.sameBlocks.2]
      exact kept hash node stored
    · rw [lookup, only.sameBlocks.2, (storeBlock_blocks _ (.inl ⟨_, storing⟩)).2]
      change (withBlock lib _ placed before).lookup hash = some node
      exact lookup_withBlock_of_stored unknown (kept hash node stored)
  refine ⟨grown, fun tip node active stored => ?_⟩
  -- The later tip is the highest of blocks among which the earlier tip still is.
  have highest := ((SoundFork.initial config []).run (run?_append_eq_some.mpr ⟨earlier, reached, continued⟩)).top
  have known := grown tip node stored
  cases top : later.activeTip with
  | none =>
    rw [top] at highest
    exact absurd (show tip ∈ storedHashes later from ⟨node, known⟩) (highest ▸ Set.notMem_empty tip)
  | some next =>
    rw [top] at highest
    obtain ⟨⟨moved, found⟩, above⟩ := highest
    rcases (above tip ⟨node, known⟩).lt_or_eq with less | equal
    · exact .inr ⟨next, moved, rfl, found, (outranks_iff_rank_lt found known).mpr less⟩
    · exact .inl (congrArg some (rank_injective later equal).symm)

open ForkSample in
theorem fork_store_never_regresses_sample : ∃ earlier later,
    run? (ForkOp.step? ForkSample.library) (emptyStore ForkSample.config) (submitted [hexA]) = some earlier ∧
    run? (ForkOp.step? ForkSample.library) earlier (submitted [hexC]) = some later ∧
    ∀ hash node, earlier.lookup hash = some node → later.lookup hash = some node := by
  obtain ⟨later, reached, -⟩ := spent
  have split : submitted [hexA, hexC] = submitted [hexA] ++ submitted [hexC] := rfl
  rw [split, run?_append_eq_some] at reached
  obtain ⟨earlier, first, second⟩ := reached
  exact ⟨earlier, later, first, second, (fork_store_never_regresses _ _ _ _ _ _ first second).1⟩

end P2PoolBTC.Soundness
