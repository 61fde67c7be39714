import P2PoolBTC.Math.CaseFolding
import P2PoolBTC.Model.Node.ForkBlockLog
import P2PoolBTC.Soundness.ForkCalls

/-! # Waiting transactions

Two waiting transactions never spend the same output, and neither spends an output of the other: the
other one would have to be on the active chain. So the order in which the waiting transactions are
revalidated does not matter, and each that stays is valid on its own.
-/

namespace P2PoolBTC.Soundness

open Math Std Model.Core Model.Node ForkChainStore

variable {state base : ForkBranchState} {height : U64} {pool : ExtTreeMap Digest Transaction} {store : ForkChainStore}
  {lib : ForkPrimitives}

/-! ## What a transaction reads and writes -/

section Transactions

variable {config : ForkChainConfig} {transaction : Transaction}

private theorem scanInputs_congr {upgrade : ForkTransactionUpgradeManifest}
    {utxos others : ExtTreeMap OutPoint IndexedForkOutput}
    {inputs : List TxIn} (scan : InputScan)
    (same : ∀ outpoint ∈ inputs.map TxIn.previousOutput, utxos[outpoint]? = others[outpoint]?) :
    scanInputs upgrade height utxos scan inputs = scanInputs upgrade height others scan inputs := by
  induction inputs generalizing scan with
  | nil => rfl
  | cons input rest ih =>
    rw [List.map_cons, List.forall_mem_cons] at same
    simp only [scanInputs, same.1, ih _ same.2]

/-- The checks read whether the identifier is taken and the outputs that the transaction spends. -/
theorem checkTransaction_congr {other : ForkBranchState}
    (txids : computeTxid lib transaction ∈ state.txids ↔ computeTxid lib transaction ∈ other.txids)
    (utxos : ∀ outpoint ∈ transaction.spends, state.utxos[outpoint]? = other.utxos[outpoint]?) :
    config.checkTransaction lib transaction height state =
      config.checkTransaction lib transaction height other := by
  simp only [ForkChainConfig.checkTransaction, txids, scanInputs_congr _ utxos]

/-- Only the outputs that a transaction spends or creates and its own identifier differ. -/
structure TouchesOnly (lib : ForkPrimitives) (transaction : Transaction) (before after : ForkBranchState) :
    Prop where
  utxos : ∀ outpoint ∉ transaction.spends, outpoint.txid ≠ computeTxid lib transaction →
    after.utxos[outpoint]? = before.utxos[outpoint]?
  txids : ∀ txid ≠ computeTxid lib transaction, txid ∈ after.txids ↔ txid ∈ before.txids

namespace TouchesOnly

theorem refl (state : ForkBranchState) : TouchesOnly lib transaction state state :=
  ⟨fun _ _ _ => rfl, fun _ _ => Iff.rfl⟩

theorem trans {first second third : ForkBranchState} (one : TouchesOnly lib transaction first second)
    (two : TouchesOnly lib transaction second third) : TouchesOnly lib transaction first third :=
  ⟨fun outpoint unspent uncreated => (two.utxos outpoint unspent uncreated).trans
    (one.utxos outpoint unspent uncreated),
    fun txid other => (two.txids txid other).trans (one.txids txid other)⟩

end TouchesOnly

private theorem removeInputs_touches (missing : OutPoint → Fault String) {outpoints : List OutPoint}
    (inside : ∀ outpoint ∈ outpoints, outpoint ∈ transaction.spends) (before : ForkBranchState) :
    Frame (TouchesOnly lib transaction) (removeInputs missing outpoints) before := by
  induction outpoints generalizing before with
  | nil => exact .pure TouchesOnly.refl _
  | cons outpoint rest ih =>
    rw [List.forall_mem_cons] at inside
    rw [removeInputs]
    apply Frame.get_bind
    cases before.utxos[outpoint]? with
    | none => exact .raise TouchesOnly.refl _
    | some previous =>
      refine .set_bind TouchesOnly.trans ⟨fun other unspent _ => ?_, fun _ _ => Iff.rfl⟩ (ih inside.2 _)
      rw [getElem?_erase_eq, if_neg]
      rintro rfl
      exact unspent inside.1

private theorem addOutputsFrom_touches (coinbase : Bool) (index : ℕ) (outputs : List TxOut) (before : ForkBranchState) :
    Frame (TouchesOnly lib transaction)
      (addOutputsFrom (computeTxid lib transaction) height coinbase index outputs) before := by
  induction outputs generalizing index before with
  | nil => exact .pure TouchesOnly.refl _
  | cons output rest ih =>
    rw [addOutputsFrom]
    refine .attempt_bind TouchesOnly.refl fun vout _ => ?_
    apply Frame.get_bind
    refine .set_bind TouchesOnly.trans ⟨fun other _ uncreated => ?_, fun _ _ => Iff.rfl⟩ ?_
    · rw [getElem?_insert_eq, if_neg]
      rintro rfl
      exact uncreated rfl
    · split_ifs
      · exact .fail TouchesOnly.refl _
      · exact ih _ _

private theorem validateAndApplyTransaction_touches (before : ForkBranchState) :
    Frame (TouchesOnly lib transaction) (config.validateAndApplyTransaction lib transaction height) before := by
  apply Frame.get_bind
  refine .settle_bind TouchesOnly.refl fun feeSats _ => ?_
  refine .bind TouchesOnly.trans (removeInputs_touches _ (fun _ member => member) before) fun _ middle _ => ?_
  refine .bind TouchesOnly.trans (.modify ⟨fun _ _ _ => rfl, fun txid other => ?_⟩) fun _ marked _ => ?_
  · simp only [mem_treeSet_insert]
    exact or_iff_right (Ne.symm other)
  · exact .bind TouchesOnly.trans (addOutputsFrom_touches _ _ _ _) fun _ _ _ => .pure TouchesOnly.refl _

/-- A transaction that was applied to one state can be applied to the state of a branch that the checks do not tell
apart from it. -/
theorem validateAndApplyTransaction_transfer {after : ForkBranchState} {history : List Placed} {feeSats : U64}
    (ledgered : Ledgered lib history base)
    (txids : computeTxid lib transaction ∈ state.txids ↔ computeTxid lib transaction ∈ base.txids)
    (utxos : ∀ outpoint ∈ transaction.spends, state.utxos[outpoint]? = base.utxos[outpoint]?)
    (applied : config.validateAndApplyTransaction lib transaction height state = .ok feeSats after) :
    ∃ final, config.validateAndApplyTransaction lib transaction height base = .ok feeSats final := by
  obtain ⟨checked, -, replays⟩ := validateAndApplyTransaction_ok applied
  obtain ⟨-, fits, -⟩ := replayTransaction_eq_ok.mp (replays (computeTxid lib transaction))
  rw [checkTransaction_congr txids utxos] at checked
  obtain ⟨upgrade, -, spend⟩ := checkTransaction_ok checked
  obtain ⟨rest, taken⟩ := checkTransaction_takes checked
  obtain ⟨utxos, added⟩ := ledgered.exists_added height spend.unseen fits taken
  have removed (missing : OutPoint → Fault String) :
      removeInputs missing transaction.spends base = .ok () { base with utxos := rest } :=
    removeInputs_eq_ok.mpr ⟨rest, taken, rfl⟩
  have outputs : addTransactionOutputs lib transaction height
      { utxos := rest, txids := base.txids.insert (computeTxid lib transaction) } =
        .ok () { utxos, txids := base.txids.insert (computeTxid lib transaction) } :=
    addOutputsFrom_eq_ok.mpr ⟨fun _ => by simpa using fits, utxos, added, rfl⟩
  refine ⟨{ utxos, txids := base.txids.insert (computeTxid lib transaction) }, ?_⟩
  rw [ForkChainConfig.validateAndApplyTransaction, Routine.get_bind, checked, Routine.settle_ok,
    Routine.pure_bind_apply, Routine.bind_of_ok (removed _), Routine.modify_bind, Routine.bind_of_ok outputs]
  rfl

end Transactions

/-! ## Pools of independent transactions -/

/-- The serialized size of a transaction. -/
def transactionSize (lib : ForkPrimitives) (transaction : Transaction) : ℕ :=
  (lib.serializeTransaction transaction).length

/-- Each transaction of a pool is valid on its own at a height and in the state of a branch, no two spend the same
output, and the byte count is the sum of the sizes and within the limit. -/
structure SoundPool (lib : ForkPrimitives) (config : ForkChainConfig) (height : U64) (base : ForkBranchState)
    (pool : ExtTreeMap Digest Transaction) (bytes : U64) : Prop where
  keyed : ∀ (txid : Digest) (transaction : Transaction), pool[txid]? = some transaction →
    computeTxid lib transaction = txid
  valid : ∀ (txid : Digest) (transaction : Transaction), pool[txid]? = some transaction → ∃ feeSats after,
    config.validateAndApplyTransaction lib transaction height base = .ok feeSats after
  apart : ∀ (txid other : Digest) (transaction otherTransaction : Transaction), pool[txid]? = some transaction →
    pool[other]? = some otherTransaction → txid ≠ other → transaction.spends.Disjoint otherTransaction.spends
  bytes_eq : bytes.toNat = mapTotal (transactionSize lib) pool
  bounded : bytes ≤ maxMempoolBytes

namespace SoundPool

variable {config : ForkChainConfig} {bytes : U64}

theorem empty : SoundPool lib config height base ∅ 0 where
  keyed txid transaction held := by simp at held
  valid txid transaction held := by simp at held
  apart txid other transaction otherTransaction held := by simp at held
  bytes_eq := by simp
  bounded := by decide

/-- A valid transaction that spends nothing another one spends can be added. -/
theorem insert {transaction : Transaction} {nextBytes feeSats : U64} {after : ForkBranchState}
    (sound : SoundPool lib config height base pool bytes)
    (fresh : computeTxid lib transaction ∉ pool)
    (valid : config.validateAndApplyTransaction lib transaction height base = .ok feeSats after)
    (apart : ∀ (other : Digest) (otherTransaction : Transaction), pool[other]? = some otherTransaction →
      transaction.spends.Disjoint otherTransaction.spends)
    (small : transactionSize lib transaction < 2 ^ 64)
    (counted : checkedMempoolBytes bytes (BitVec.ofNat 64 (transactionSize lib transaction)) = .ok nextBytes) :
    SoundPool lib config height base (pool.insert (computeTxid lib transaction) transaction) nextBytes := by
  simp only [checkedMempoolBytes, except_bind_eq_ok, okOr_eq_ok, require_eq_ok, exists_const] at counted
  obtain ⟨total, sum, within, same⟩ := counted
  cases same
  have absent : pool[computeTxid lib transaction]? = none := ExtTreeMap.getElem?_eq_none fresh
  constructor
  · intro txid listed held
    rw [getElem?_insert_eq] at held
    split_ifs at held with same
    · rw [← Option.some.inj held, same]
    · exact sound.keyed txid listed held
  · intro txid listed held
    rw [getElem?_insert_eq] at held
    split_ifs at held with same
    · rw [← Option.some.inj held]
      exact ⟨feeSats, after, valid⟩
    · exact sound.valid txid listed held
  · intro txid other listed otherListed held otherHeld different
    rw [getElem?_insert_eq] at held otherHeld
    split_ifs at held otherHeld with same otherSame otherSame
    · exact absurd (same.symm.trans otherSame) different
    · rw [← Option.some.inj held]
      exact apart other otherListed otherHeld
    · rw [← Option.some.inj otherHeld]
      exact (apart txid listed held).symm
    · exact sound.apart txid other listed otherListed held otherHeld different
  · have added := checkedAdd_eq_some.mp sum
    rw [mapTotal_insert_of_fresh _ _ absent, ← sound.bytes_eq, added, BitVec.toNat_ofNat, Nat.mod_eq_of_lt small]
  · exact within

end SoundPool

/-- Of two waiting transactions neither spends an output that the other one spends or creates. -/
def Independent (earlier later : Digest × Transaction) : Prop :=
  earlier.1 ≠ later.1 ∧ later.2.spends.Disjoint earlier.2.spends ∧
    ∀ outpoint ∈ later.2.spends, outpoint.txid ≠ earlier.1

/-- The transactions of a pool that is sound in the state of a branch are independent: what one spends is on the
branch, and the others are not. -/
theorem SoundPool.independent {config : ForkChainConfig} {bytes : U64} {history : List Placed}
    (sound : SoundPool lib config height base pool bytes) (ledgered : Ledgered lib history base) :
    pool.toList.Pairwise Independent := by
  have distinct : pool.toList.Pairwise fun earlier later => earlier.1 ≠ later.1 :=
    ExtTreeMap.distinct_keys_toList.imp fun different same => different (Std.compare_eq_iff_eq.mpr same)
  refine distinct.imp_of_mem ?_
  rintro ⟨txid, transaction⟩ ⟨other, otherTransaction⟩ listed otherListed different
  have held := ExtTreeMap.mem_toList_iff_getElem?_eq_some.mp listed
  have otherHeld := ExtTreeMap.mem_toList_iff_getElem?_eq_some.mp otherListed
  refine ⟨different, sound.apart other txid otherTransaction transaction otherHeld held (Ne.symm different), ?_⟩
  intro outpoint spent created
  obtain ⟨_, _, valid⟩ := sound.valid txid transaction held
  obtain ⟨_, _, otherValid⟩ := sound.valid other otherTransaction otherHeld
  obtain ⟨_, -, spend⟩ := checkTransaction_ok (validateAndApplyTransaction_ok valid).1
  obtain ⟨_, -, otherSpend⟩ := checkTransaction_ok (validateAndApplyTransaction_ok otherValid).1
  obtain ⟨previous, present, -⟩ := otherSpend.held outpoint spent
  obtain ⟨⟨origin, placed, ⟨named, -⟩, -⟩, -⟩ := ledgered.origin present
  apply spend.unseen
  rw [sound.keyed txid transaction held]
  exact (ledgered.txids _).mpr (List.mem_map.mpr ⟨origin, placed, named.trans created⟩)

/-! ## Revalidation -/

/-- A state agrees with the state of a branch on all that the transactions still to be revalidated read. -/
def ReadsSame (base : ForkBranchState) (pending : List (Digest × Transaction)) (state : ForkBranchState) : Prop :=
  ∀ entry ∈ pending, (entry.1 ∈ state.txids ↔ entry.1 ∈ base.txids) ∧
    ∀ outpoint ∈ entry.2.spends, state.utxos[outpoint]? = base.utxos[outpoint]?

private theorem ReadsSame.touched {after : ForkBranchState} {entry : Digest × Transaction}
    {rest : List (Digest × Transaction)}
    (same : ReadsSame base (entry :: rest) state) (independent : ∀ later ∈ rest, Independent entry later)
    (keyed : computeTxid lib entry.2 = entry.1) (touched : TouchesOnly lib entry.2 state after) :
    ReadsSame base rest after := by
  intro later member
  obtain ⟨different, apart, uncreated⟩ := independent later member
  obtain ⟨txids, utxos⟩ := same later (List.mem_cons_of_mem _ member)
  constructor
  · rw [touched.txids later.1 (by rw [keyed]; exact Ne.symm different), txids]
  · intro outpoint spent
    rw [touched.utxos outpoint (apart spent) (by rw [keyed]; exact uncreated outpoint spent), utxos outpoint spent]

variable {after : ForkChainStore}

section Revalidation

variable {config : ForkChainConfig} {history : List Placed}

/-- What is still to be revalidated fits the pool of what was kept. -/
structure Revalidating (lib : ForkPrimitives) (base : ForkBranchState) (pool : ExtTreeMap Digest Transaction)
    (pending : List (Digest × Transaction)) (state : ForkBranchState) : Prop where
  keyed : ∀ entry ∈ pending, computeTxid lib entry.2 = entry.1
  sized : ∀ entry ∈ pending, transactionSize lib entry.2 < 2 ^ 64
  independent : pending.Pairwise Independent
  reads : ReadsSame base pending state
  fresh : ∀ entry ∈ pending, entry.1 ∉ pool
  apart : ∀ entry ∈ pending, ∀ (other : Digest) (transaction : Transaction), pool[other]? = some transaction →
    entry.2.spends.Disjoint transaction.spends

namespace Revalidating

variable {entry : Digest × Transaction} {rest : List (Digest × Transaction)} {after : ForkBranchState}

/-- A transaction that was not kept, whatever it did to the state. -/
theorem skip (revalidating : Revalidating lib base pool (entry :: rest) state)
    (touched : TouchesOnly lib entry.2 state after) : Revalidating lib base pool rest after where
  keyed later member := revalidating.keyed later (List.mem_cons_of_mem _ member)
  sized later member := revalidating.sized later (List.mem_cons_of_mem _ member)
  independent := (List.pairwise_cons.mp revalidating.independent).2
  reads := revalidating.reads.touched (List.pairwise_cons.mp revalidating.independent).1
    (revalidating.keyed entry List.mem_cons_self) touched
  fresh later member := revalidating.fresh later (List.mem_cons_of_mem _ member)
  apart later member := revalidating.apart later (List.mem_cons_of_mem _ member)

private theorem keep (revalidating : Revalidating lib base pool (entry :: rest) state)
    (touched : TouchesOnly lib entry.2 state after) :
    Revalidating lib base (pool.insert entry.1 entry.2) rest after := by
  have skipped := revalidating.skip touched
  have independent := (List.pairwise_cons.mp revalidating.independent).1
  refine { skipped with fresh := ?_, apart := ?_ }
  · intro later member
    rw [mem_treeMap_insert]
    rintro (same | held)
    · exact (independent later member).1 same
    · exact skipped.fresh later member held
  · intro later member other transaction held
    rw [getElem?_insert_eq] at held
    split_ifs at held with same
    · rw [← Option.some.inj held]
      exact (independent later member).2.1
    · exact skipped.apart later member other transaction held

end Revalidating

/-- Keeping the valid ones of independent transactions leaves a sound pool. -/
theorem keepValidTransactions_sound (ledgered : Ledgered lib history base) {pending : List (Digest × Transaction)}
    (same : store.toForkChainConfig = config)
    (revalidating : Revalidating lib base store.mempool pending state)
    (sound : SoundPool lib config height base store.mempool store.mempoolBytes)
    (kept : keepValidTransactions lib height pending state store = .ok () after) :
    SoundPool lib config height base after.mempool after.mempoolBytes := by
  induction pending generalizing state store with
  | nil =>
    cases kept
    exact sound
  | cons entry rest ih =>
    obtain ⟨txid, transaction⟩ := entry
    have touches : Frame (TouchesOnly lib transaction)
      (store.validateAndApplyTransaction lib transaction height) state := validateAndApplyTransaction_touches state
    rw [keepValidTransactions] at kept
    split_ifs at kept with seen
    · exact ih same (revalidating.skip (.refl state)) sound kept
    · rw [Routine.get_bind] at kept
      cases applied : store.validateAndApplyTransaction lib transaction height state with
      | error fault next =>
        obtain ⟨reason, rfl⟩ := validateAndApplyTransaction_error applied
        rw [applied] at kept
        exact ih same (revalidating.skip (touches.of_error applied)) sound kept
      | ok fee next =>
        rw [applied] at kept
        dsimp only at kept
        have keyed := revalidating.keyed _ List.mem_cons_self
        simp only at keyed
        obtain ⟨txids, utxos⟩ := revalidating.reads _ List.mem_cons_self
        rw [← keyed] at txids
        obtain ⟨final, valid⟩ := validateAndApplyTransaction_transfer ledgered txids utxos applied
        cases counted : checkedMempoolBytes store.mempoolBytes
            (BitVec.ofNat 64 (lib.serializeTransaction transaction).length) with
        | error fault =>
          rw [counted] at kept
          exact ih same (revalidating.skip (touches.of_ok applied)) sound kept
        | ok bytes =>
          rw [counted] at kept
          have inserted := sound.insert (by rw [keyed]; exact revalidating.fresh _ List.mem_cons_self)
            (by rw [← same]; exact valid) (revalidating.apart _ List.mem_cons_self)
            (revalidating.sized _ List.mem_cons_self) counted
          rw [keyed] at inserted
          change keepValidTransactions lib height rest next
            { store with mempool := store.mempool.insert txid transaction, mempoolBytes := bytes } =
              .ok () after at kept
          refine ih ?_ ?_ ?_ kept
          · exact same
          · exact revalidating.keep (touches.of_ok applied)
          · exact inserted

end Revalidation

/-! ## Stores -/

/-- The height and the state at which waiting transactions are checked: one above the tip, on the active chain. -/
def ChecksAt (lib : ForkPrimitives) (store : ForkChainStore) (height : U64) (base : ForkBranchState) : Prop :=
  (∃ status, store.status = .ok status ∧ checkedAdd status.tipHeight 1 = some height) ∧
    store.branchState lib store.activeTip = .ok base

/-- Nothing waits, or the waiting transactions are a sound pool on the active chain. -/
def SoundMempool (lib : ForkPrimitives) (store : ForkChainStore) : Prop :=
  (store.mempool = ∅ ∧ store.mempoolBytes = 0) ∨ ∃ height base, ChecksAt lib store height base ∧
    SoundPool lib store.toForkChainConfig height base store.mempool store.mempoolBytes

theorem SoundFork.ledgered (sound : SoundFork lib store)
    (replayed : store.branchState lib store.activeTip = .ok base) : ∃ history, Ledgered lib history base := by
  obtain ⟨branch, found, -⟩ := sound.active
  rw [found.branchState_eq] at replayed
  exact ⟨_, Ledgered.branch replayed⟩

section Submitting

/-- Submitting a transaction changes nothing or adds it to the waiting ones. -/
inductive TransactionEffect (lib : ForkPrimitives) (before : ForkChainStore) : ForkChainStore → Prop
  | unchanged : TransactionEffect lib before before
  | added {transaction : Transaction} {height feeSats bytes : U64} {base after : ForkBranchState}
      (fresh : computeTxid lib transaction ∉ before.mempool)
      (checks : ChecksAt lib before height base)
      (apart : ∀ (other : Digest) (otherTransaction : Transaction), before.mempool[other]? = some otherTransaction →
        transaction.spends.Disjoint otherTransaction.spends)
      (valid : before.validateAndApplyTransaction lib transaction height base = .ok feeSats after)
      (small : transactionSize lib transaction < 2 ^ 64)
      (counted : checkedMempoolBytes before.mempoolBytes (BitVec.ofNat 64 (transactionSize lib transaction)) =
        .ok bytes) :
      TransactionEffect lib before { before with
        mempool := before.mempool.insert (computeTxid lib transaction) transaction, mempoolBytes := bytes }

/-- The size of a decoded transaction is half the length of its text. -/
theorem decodeTransaction_size {normalized : Text} {transaction : Transaction}
    (decoding : decodeTransaction lib normalized = .ok transaction) :
    byteLength normalized / 2 = transactionSize lib transaction ∧
      transactionSize lib transaction < 2 ^ 64 := by
  simp only [decodeTransaction, except_bind_eq_ok, okOr_eq_ok, require_eq_ok, exists_const] at decoding
  obtain ⟨bytes, decoded, within, _, -, canonical, same⟩ := decoding
  cases same
  have length := byteLength_of_hexDecode? decoded
  rw [transactionSize, canonical]
  unfold maxBlockBytes at within
  omega

private theorem submitTransaction_effect (transactionHex : Text) :
    TransactionEffect lib store (leaves (submitTransaction lib transactionHex) store) := by
  have frame : Frame (TransactionEffect lib) (submitTransaction lib transactionHex) store := by
    have refl (state : ForkChainStore) : TransactionEffect lib state state := .unchanged
    apply Frame.get_bind
    refine .settle_bind refl fun normalized _ => ?_
    refine .settle_bind refl fun transaction decoding => ?_
    dsimp only
    split_ifs with waiting
    · exact .pure refl _
    · refine .attempt_bind refl fun _ _ => ?_
      refine .settle_bind refl fun bytes counted => ?_
      refine .settle_bind refl fun status known => ?_
      refine .attempt_bind refl fun height next => ?_
      refine .attempt_bind refl fun _ _ => ?_
      refine .settle_bind refl fun base replayed => ?_
      refine .attempt_bind refl fun _ _ => ?_
      refine .attempt_bind refl fun _ disjoint => ?_
      cases applied : store.validateAndApplyTransaction lib transaction height base with
      | error fault _ => exact .raise refl _
      | ok feeSats after =>
        obtain ⟨size, small⟩ := decodeTransaction_size decoding
        rw [size] at counted
        refine .of_eq _ rfl (.added waiting ⟨⟨status, known, okOr_eq_ok.mp next⟩, replayed⟩ ?_ applied small counted)
        intro other otherTransaction held outpoint spent otherSpent
        have free := require_eq_ok.mp disjoint
        rw [List.any_eq_false] at free
        apply free outpoint spent
        rw [List.contains_iff_mem, List.mem_flatMap]
        exact ⟨otherTransaction, mem_values.mpr ⟨other, held⟩, otherSpent⟩
  exact related_leaves frame

private theorem SoundMempool.submitted (sound : SoundMempool lib store) (transactionHex : Text) :
    SoundMempool lib (leaves (submitTransaction lib transactionHex) store) := by
  generalize left : leaves (submitTransaction lib transactionHex) store = after
  have effect : TransactionEffect lib store (leaves (submitTransaction lib transactionHex) store) :=
    submitTransaction_effect transactionHex
  rw [left] at effect
  cases effect with
  | unchanged => exact sound
  | @added transaction height feeSats bytes base next fresh checks apart valid small counted =>
    refine .inr ⟨height, base, checks, SoundPool.insert ?_ fresh valid apart small counted⟩
    rcases sound with ⟨none, zero⟩ | ⟨otherHeight, otherBase, ⟨⟨status, known, above⟩, replayed⟩, pool⟩
    · rw [none, zero]
      exact .empty
    · obtain ⟨⟨status', known', above'⟩, replayed'⟩ := checks
      obtain rfl := Except.ok.inj (known.symm.trans known')
      obtain rfl := Option.some.inj (above.symm.trans above')
      obtain rfl := Except.ok.inj (replayed.symm.trans replayed')
      exact pool

end Submitting

section Moving

/-- Storing a block that does not become the tip changes nothing the waiting transactions are checked against. -/
theorem SoundMempool.indexed {normalized : Text} {hash : Digest} {node : BlockNode} (sound : SoundMempool lib store)
    (fork : SoundFork lib store) (unknown : store.lookup hash = none) :
    SoundMempool lib (withBlock lib hash node (logged normalized store)) := by
  rcases sound with none | ⟨height, base, ⟨⟨status, known, above⟩, replayed⟩, pool⟩
  · exact .inl none
  · obtain ⟨branch, found, -⟩ := fork.active
    have unknownLogged : (logged normalized store).lookup hash = none := unknown
    have foundLogged : BranchOf (logged normalized store) store.activeTip branch := found
    refine .inr ⟨height, base, ⟨⟨status, ?_, above⟩, ?_⟩, pool⟩
    · rw [← known]
      cases tip : store.activeTip with
      | none =>
        rw [status_of_none tip]
        exact status_of_none tip
      | some current =>
        obtain ⟨held, stored⟩ := fork.tip_stored current tip
        rw [status_of_tip tip stored]
        exact status_of_tip tip (lookup_withBlock_of_stored unknownLogged stored)
    · rw [found.branchState_eq] at replayed
      rw [← replayed]
      exact (foundLogged.grown unknownLogged).branchState_eq

/-- The waiting transactions of a sound mempool can be revalidated in the state of any branch. -/
theorem SoundMempool.revalidating (sound : SoundMempool lib store) (fork : SoundFork lib store)
    (base : ForkBranchState) : Revalidating lib base ∅ store.mempool.toList base := by
  have fresh (entry : Digest × Transaction) : entry.1 ∉ (∅ : ExtTreeMap Digest Transaction) := ExtTreeMap.not_mem_empty
  have apart (entry : Digest × Transaction) (other : Digest) (transaction : Transaction)
      (held : (∅ : ExtTreeMap Digest Transaction)[other]? = some transaction) :
      entry.2.spends.Disjoint transaction.spends := by simp at held
  rcases sound with ⟨none, -⟩ | ⟨height, held, ⟨-, replayed⟩, pool⟩
  · have nothing : (∅ : ExtTreeMap Digest Transaction).toList = [] := rfl
    rw [none, nothing]
    constructor <;> simp [ReadsSame]
  · obtain ⟨history, ledgered⟩ := fork.ledgered replayed
    refine ⟨?_, ?_, pool.independent ledgered, fun _ _ => ⟨Iff.rfl, fun _ _ => rfl⟩, fun entry _ => fresh entry,
      fun entry _ => apart entry⟩
    · intro entry member
      exact pool.keyed _ _ (ExtTreeMap.mem_toList_iff_getElem?_eq_some.mp member)
    · intro entry member
      have counted := le_mapTotal (transactionSize lib) (ExtTreeMap.mem_toList_iff_getElem?_eq_some.mp member)
      rw [← pool.bytes_eq] at counted
      exact Nat.lt_of_le_of_lt counted store.mempoolBytes.isLt

/-- Revalidation below the largest height leaves a sound mempool. -/
theorem soundMempool_revalidated (fork : SoundFork lib store)
    (revalidating : ∀ base, Revalidating lib base ∅ store.mempool.toList base) {status : ForkChainStatus}
    (known : store.status = .ok status) (next : checkedAdd status.tipHeight 1 = some height) :
    SoundMempool lib (leaves (revalidateMempool lib) store) := by
  have opened : revalidateMempool lib store = (do
      if store.transactionsActiveAt height then do
        let state ← settle (store.branchState lib store.activeTip)
        keepValidTransactions lib height store.mempool.toList state
      else pure () : Routine ForkChainStore String Unit) { store with mempool := ∅, mempoolBytes := 0 } := by
    rw [revalidateMempool, Routine.get_bind, known, Routine.settle_ok, Routine.pure_bind_apply, next, okOr_some,
      Routine.attempt_ok, Routine.pure_bind_apply, Routine.set_bind]
  rw [leaves, opened]
  split_ifs with active
  · cases replayed : store.branchState lib store.activeTip with
    | error fault => exact .inl ⟨rfl, rfl⟩
    | ok base =>
      rw [Routine.settle_ok, Routine.pure_bind_apply]
      obtain ⟨after, kept⟩ : ∃ after, keepValidTransactions lib height store.mempool.toList base
        { store with mempool := ∅, mempoolBytes := 0 } = .ok () after := keepValidTransactions_ok _ _ _ _
      rw [kept]
      obtain ⟨history, ledgered⟩ := fork.ledgered replayed
      have pool := keepValidTransactions_sound ledgered rfl (revalidating base) .empty kept
      obtain ⟨_, _, rfl⟩ : OnlyMempool { store with mempool := ∅, mempoolBytes := 0 } after :=
        (keepValidTransactions_frame _ _ _ _).of_ok kept
      exact .inr ⟨height, base, ⟨⟨status, known, next⟩, replayed⟩, pool⟩
  · exact .inl ⟨rfl, rfl⟩

end Moving

/-! ## Opened stores -/

/-- A sound store in which no transaction waits. -/
structure FreshFork (lib : ForkPrimitives) (store : ForkChainStore) : Prop where
  fork : SoundFork lib store
  mempool : store.mempool = ∅
  mempoolBytes : store.mempoolBytes = 0

private theorem FreshFork.stored {block : Block} {blockHex : Text} {nowUnix : U64} {node : BlockNode}
    (fresh : FreshFork lib store) (unknown : store.lookup (blockHash lib block) = none)
    (validated : store.validateBlock lib block blockHex nowUnix = .ok node)
    (storing : storeBlock lib (blockHash lib block) node store = .ok () after) :
    FreshFork lib after := by
  obtain ⟨-, -, rest, found, valid⟩ := fresh.fork.rooted.validated validated
  have kept : after.mempool = store.mempool ∧ after.mempoolBytes = store.mempoolBytes := by
    rcases SoundFork.storeBlock_eq unknown found fresh.fork with ⟨-, equation⟩ | ⟨-, equation⟩
    · rw [equation] at storing
      cases storing
      exact ⟨rfl, rfl⟩
    · rw [equation] at storing
      split at storing
      · cases storing
        exact ⟨rfl, rfl⟩
      · cases storing
  exact ⟨fresh.fork.storing unknown found valid storing, kept.1.trans fresh.mempool, kept.2.trans fresh.mempoolBytes⟩

private theorem FreshFork.replayRecord {index : ℕ} {record : ForkBlockRecord} (fresh : FreshFork lib store)
    (replayed : ForkChainStore.replayRecord lib index record store = .ok () after) :
    FreshFork lib after := by
  rw [ForkChainStore.replayRecord, Routine.get_bind] at replayed
  obtain ⟨_, -, replayed⟩ := Routine.attempt_bind_eq_ok.mp replayed
  obtain ⟨_, -, replayed⟩ := Routine.attempt_bind_eq_ok.mp replayed
  obtain ⟨normalized, -, replayed⟩ := Routine.settle_bind_eq_ok.mp replayed
  obtain ⟨block, -, replayed⟩ := Routine.settle_bind_eq_ok.mp replayed
  obtain ⟨_, unknown, replayed⟩ := Routine.attempt_bind_eq_ok.mp replayed
  obtain ⟨node, validated, storing⟩ := Routine.settle_bind_eq_ok.mp replayed
  exact fresh.stored (ExtTreeMap.getElem?_eq_none (require_eq_ok.mp unknown)) validated storing

private theorem FreshFork.replayLines {read : RecordReader} {fuel index : ℕ} {bytes : List UInt8}
    (fresh : FreshFork lib store)
    (replayed : ForkChainStore.replayLines lib read fuel index bytes store = .ok () after) :
    FreshFork lib after := by
  induction fuel generalizing index bytes store with
  | zero => cases replayed
  | succ fuel ih =>
    rw [ForkChainStore.replayLines] at replayed
    obtain ⟨next, -, replayed⟩ := Routine.settle_bind_eq_ok.mp replayed
    cases next with
    | none =>
      cases replayed
      exact fresh
    | some next =>
      obtain ⟨line, rest⟩ := next
      dsimp only at replayed
      split_ifs at replayed with blank
      · exact ih fresh replayed
      · cases parsed : read line with
        | error category =>
          rw [parsed] at replayed
          cases replayed
        | ok record =>
          rw [parsed] at replayed
          obtain ⟨⟨⟩, middle, first, following⟩ := Routine.bind_eq_ok.mp replayed
          exact ih (fresh.replayRecord first) following

/-- No transaction waits in a store that was opened, whatever its log holds. -/
theorem opened_fresh {read : RecordReader} {manifest : ForkActivationManifest}
    {upgrade : Option ForkTransactionUpgradeManifest} {log : List UInt8}
    (opened : openWithTransactionUpgrade lib read manifest upgrade log = .ok store) :
    FreshFork lib store := by
  obtain ⟨config, -, replayed⟩ := except_bind_eq_ok.mp opened
  cases ended : replayBlockLog lib read { config with blockLog := log } with
  | error fault after =>
    rw [ended] at replayed
    cases replayed
  | ok _ after =>
    rw [ended] at replayed
    cases replayed
    rw [replayBlockLog, Routine.get_bind] at ended
    obtain ⟨repaired, -, ended⟩ := Routine.settle_bind_eq_ok.mp ended
    rw [Routine.set_bind] at ended
    exact FreshFork.replayLines ⟨.initial config repaired, rfl, rfl⟩ ended

/-! ## Runs -/

/-- What the waiting transactions promise: each is valid on its own in a block above the tip and not confirmed, no
two spend the same output, the byte count is the sum of their sizes and within the limit, and nothing waits while
transactions are not allowed above the tip. -/
structure MempoolInvariant (lib : ForkPrimitives) (store : ForkChainStore) : Prop where
  valid : ∀ (txid : Digest) (transaction : Transaction), store.mempool[txid]? = some transaction →
    computeTxid lib transaction = txid ∧ ∃ height base feeSats after, ChecksAt lib store height base ∧
      store.validateAndApplyTransaction lib transaction height base = .ok feeSats after
  unconfirmed : ∀ txid ∈ store.mempool, ∀ branch, BranchOf store store.activeTip branch →
    ∀ entry ∈ branch, ∀ confirmed ∈ entry.2.block.txdata, computeTxid lib confirmed ≠ txid
  apart : ∀ (txid other : Digest) (transaction otherTransaction : Transaction),
    store.mempool[txid]? = some transaction → store.mempool[other]? = some otherTransaction → txid ≠ other →
      transaction.spends.Disjoint otherTransaction.spends
  bytes_eq : store.mempoolBytes.toNat = mapTotal (transactionSize lib) store.mempool
  bounded : store.mempoolBytes ≤ maxMempoolBytes
  inactive : ∀ status height, store.status = .ok status → checkedAdd status.tipHeight 1 = some height →
    store.transactionsActiveAt height = false → store.mempool = ∅

private theorem SoundMempool.invariant (sound : SoundMempool lib store) : MempoolInvariant lib store := by
  rcases sound with ⟨none, zero⟩ | ⟨height, base, checks, pool⟩
  · refine ⟨?_, ?_, ?_, ?_, ?_, fun _ _ _ _ _ => none⟩ <;> simp [none, zero, maxMempoolBytes]
  · have valid (txid : Digest) (transaction : Transaction) (held : store.mempool[txid]? = some transaction) :
        ∃ feeSats upgrade, store.transactionUpgrade = some upgrade ∧
          CheckedSpend lib upgrade height base transaction feeSats := by
      obtain ⟨feeSats, after, valid⟩ := pool.valid txid transaction held
      exact ⟨feeSats, checkTransaction_ok (validateAndApplyTransaction_ok valid).1⟩
    refine ⟨?_, ?_, pool.apart, pool.bytes_eq, pool.bounded, ?_⟩
    · intro txid transaction held
      obtain ⟨feeSats, after, valid⟩ := pool.valid txid transaction held
      exact ⟨pool.keyed txid transaction held, height, base, feeSats, after, checks, valid⟩
    · intro txid waiting branch found entry member confirmed listed same
      obtain ⟨transaction, held⟩ := Option.isSome_iff_exists.mp (ExtTreeMap.isSome_getElem?_iff_mem.mpr waiting)
      obtain ⟨_, _, -, spend⟩ := valid txid transaction held
      have replayed := checks.2
      rw [found.branchState_eq] at replayed
      apply spend.unseen
      rw [pool.keyed txid transaction held, (Ledgered.branch replayed).txids]
      exact List.mem_map.mpr ⟨(entry.2.height, confirmed), mem_placedOn.mpr ⟨entry, member, rfl, listed⟩, same⟩
    · intro status next known above notActive
      obtain ⟨⟨status', known', above'⟩, -⟩ := checks
      obtain rfl := Except.ok.inj (known.symm.trans known')
      obtain rfl := Option.some.inj (above.symm.trans above')
      refine ExtTreeMap.ext_getElem? fun txid => ?_
      cases held : store.mempool[txid]? with
      | none => simp
      | some transaction =>
        obtain ⟨_, upgrade, configured, spend⟩ := valid txid transaction held
        simp [ForkChainConfig.transactionsActiveAt, configured, spend.active] at notActive

/-- A call for which there is room keeps the store and its waiting transactions sound, however it ends. -/
theorem ForkOp.call_sound {op : ForkOp} (fork : SoundFork lib store) (sound : SoundMempool lib store)
    (room : op.HasRoom lib store) :
    SoundFork lib (op.call lib store) ∧ SoundMempool lib (op.call lib store) := by
  cases op with
  | transaction transactionHex =>
    have only : OnlyMempool store (leaves (submitTransaction lib transactionHex) store) :=
      related_leaves (submitTransaction_frame transactionHex store)
    exact ⟨fork.onlyMempool only, sound.submitted transactionHex⟩
  | block blockHex nowUnix =>
    have effect := submitBlockAtTime_effect fork room
    rw [ForkOp.call]
    generalize leaves (submitBlockAtTime lib blockHex nowUnix) store = after at effect
    cases effect with
    | unchanged => exact ⟨fork, sound⟩
    | indexed unknown grown => exact ⟨grown, sound.indexed fork unknown⟩
    | @moved normalized hash node rest explorer below moved =>
      refine ⟨moved.onlyMempool (related_leaves (revalidateMempool_frame _)), ?_⟩
      obtain ⟨height, next, -⟩ := exists_checkedAdd node.height (1 : U64) (by simpa using below)
      exact soundMempool_revalidated moved (sound.revalidating fork) (status_of_tip rfl lookup_movedTip) next

/-- However calls end, as long as there is room for the blocks they submit, the waiting transactions of a store that
was opened on any log keep their promise. -/
theorem mempool_invariant_of_room (lib : ForkPrimitives) (read : RecordReader) (manifest : ForkActivationManifest)
    (upgrade : Option ForkTransactionUpgradeManifest) (log : List UInt8) (start : ForkChainStore)
    (opened : openWithTransactionUpgrade lib read manifest upgrade log = .ok start) (ops : List ForkOp)
    (room : ∀ earlier op later, ops = earlier ++ op :: later →
      op.HasRoom lib (earlier.foldl (ForkOp.call lib) start)) :
    MempoolInvariant lib (ops.foldl (ForkOp.call lib) start) := by
  have fresh := opened_fresh opened
  have kept : SoundFork lib (ops.foldl (ForkOp.call lib) start) ∧
      SoundMempool lib (ops.foldl (ForkOp.call lib) start) := by
    induction ops using List.reverseRecOn with
    | nil => exact ⟨fresh.fork, .inl ⟨fresh.mempool, fresh.mempoolBytes⟩⟩
    | append_singleton ops op ih =>
      obtain ⟨fork, sound⟩ := ih fun earlier middle later split =>
        room earlier middle (later ++ [op]) (by rw [split, List.append_assoc, List.cons_append])
      rw [List.foldl_append, List.foldl_cons, List.foldl_nil]
      exact ForkOp.call_sound fork sound (room ops op [] rfl)
  exact kept.2.invariant

namespace ForkSample

def hexSpendA : Text := hexEncode (serializeTransaction spendA)

/-- The library functions with the encoding of the transaction as well. -/
def wallet : ForkPrimitives :=
  { library with
    deserializeTransaction := fun bytes => if serializeTransaction spendA = bytes then some spendA else none
    serializeTransaction }

private theorem wallet_opens : openWithTransactionUpgrade wallet (fun _ => .error .eof) ForkSample.config.manifest
    ForkSample.config.transactionUpgrade [] = .ok (emptyStore ForkSample.config) := by
  have prepared : (prepare wallet ForkSample.config.manifest ForkSample.config.transactionUpgrade).toOption =
      some ForkSample.config := by
    decide +kernel
  cases result : prepare wallet ForkSample.config.manifest ForkSample.config.transactionUpgrade with
  | error fault =>
    rw [result] at prepared
    cases prepared
  | ok config =>
    rw [result] at prepared
    rw [openWithTransactionUpgrade, result, Option.some.inj prepared]
    rfl

theorem first_hasRoom : (ForkOp.block hexA now).HasRoom wallet (emptyStore ForkSample.config) := by
  intro normalized block node rest submits validated found
  have none : rest = [] := by
    generalize (emptyStore ForkSample.config).attachment block = tip at found
    cases found with
    | stop => rfl
    | entry stored _ =>
      rw [emptyStore, lookup_empty] at stored
      cases stored
  have computed : Option.any (fun node : BlockNode => decide (node.height = 101 ∧ node.block = blockA))
      (Except.toOption (do
        let normalized ← normalizeBlockHex hexA
        let block ← decodeBlock wallet normalized
        (emptyStore ForkSample.config).validateBlock wallet block normalized now)) = true := by
    decide +kernel
  simp only [submits.1, submits.2, validated, except_ok_bind, Except.toOption, Option.any_some,
    decide_eq_true_eq] at computed
  obtain ⟨height, same⟩ := computed
  have placed : placedOn [(blockHash wallet block, node)] = [(101, coinbaseA)] := by
    rw [placedOn_cons, same, height]
    rfl
  rw [none]
  refine ⟨by rw [height]; decide, ?_, ?_⟩
  · rintro _ ⟨first, listed, rfl⟩ _ ⟨second, alsoListed, rfl⟩ -
    rw [placed, List.mem_singleton] at listed alsoListed
    rw [listed, alsoListed]
  · rw [TotalFits, entriesOn, placed]
    decide

end ForkSample

open ForkSample in
theorem mempool_invariant_of_room_sample : ∃ store,
    [ForkOp.block hexA now, .transaction hexSpendA].foldl
      (ForkOp.call wallet) (emptyStore ForkSample.config) = store ∧
    store.mempool[txidSpendA]? = some spendA ∧
    store.mempoolBytes.toNat = mapTotal (transactionSize wallet) store.mempool := by
  have waits : ([ForkOp.block hexA now, .transaction hexSpendA].foldl
      (ForkOp.call wallet) (emptyStore ForkSample.config)).mempool[txidSpendA]? = some spendA := by
    decide +kernel
  refine ⟨_, rfl, waits, (mempool_invariant_of_room wallet _ _ _ _ _ wallet_opens _ ?_).bytes_eq⟩
  intro earlier op later split
  cases earlier with
  | nil =>
    cases split
    exact first_hasRoom
  | cons first earlier =>
    cases earlier with
    | nil =>
      cases split
      trivial
    | cons second earlier =>
      have lengths := congrArg List.length split
      simp at lengths

/-! ## A chain that reaches the largest height

The fork starts three heights below the largest one. A block there pays a coinbase of no value, a
transaction that spends it waits, and a block at the largest height confirms that transaction. -/

namespace HighestFork

open ForkSample hiding activation activationId upgrade upgradeId config library

def lowCoinbase : Transaction :=
  coinbaseOf [0x09, 0xfe, 0xff, 0xff, 0xff, 0xff, 0xff, 0xff, 0xff, 0x00, 0x61] payScript 0

def lowTxid : Digest := digestOf 0xcaea79770d2d82935861dbe8488f47a135c5dfc86458f2d460bddf2b21c05880

def lowHash : Digest := digestOf 0x58abf53d8a9e92725ac3116249aa19e84f70b5367b8e0b798823ed4dd049857a

def lowBlock : Block := blockOf inheritedTip lowTxid 1783210200 0 [lowCoinbase]

def lowHex : Text := hexEncode (serializeBlock lowBlock)

def spendSignature : List UInt8 :=
  bytesOf 64 0xbfb1857dda2889d9f380f1b6931e76ac20386982cc1eb87300dd9483a3e3f6a1 ++
    bytesOf 64 0xd28e7528063ba78df1fd37a2484428d91a60cd1312f3b730e1b7dfb75bbe615e

def spendSighash : Digest := digestOf 0x55ab9a27cf33cddf90f8dda27d4298ddd305bd63bfe897d8472d9917ce1a4956

def spend : Transaction := spendOf lowTxid spendSignature 0

def spendTxid : Digest := digestOf 0x6dd025fc1f214a4f00ff1424baf402582c3914fc14144953b58337a7a3edba51

def spendHex : Text := hexEncode (serializeTransaction spend)

def highCoinbase : Transaction :=
  committing [0x09, 0xff, 0xff, 0xff, 0xff, 0xff, 0xff, 0xff, 0xff, 0x00, 0x63] 0
    0xe71430bfd2fe09189dfa993f2e3886217c03a2406d384d60f534f690c91fb52b

def highTxid : Digest := digestOf 0xf044a29cf554365fa2054a40aeddb8eddb25f21d16b224ccde4904bb34c2c95e

def highHash : Digest := digestOf 0x9eeeb0886b1a1b4b0311635ffdb07ac60256df29583d03e2cc94a0af1601881e

def highBlock : Block :=
  blockOf lowHash (digestOf 0xa075804ee4f93cc5121ebbb1c513cb3751c74909f2949b40f16afe048ec42b64) 1783210800 0
    [highCoinbase, spend]

def highHex : Text := hexEncode (serializeBlock highBlock)

def activation : ForkActivationPayload :=
  { ForkSample.activation with
    forkPoint := { ForkSample.activation.forkPoint with
      inheritedTipHeight := BitVec.ofNat 64 (2 ^ 64 - 3), firstForkHeight := BitVec.ofNat 64 (2 ^ 64 - 2) }
    launchBlock := { ForkSample.activation.launchBlock with height := BitVec.ofNat 64 (2 ^ 64 - 2) } }

def activationId : Text := hexText 64 0x9956975c43dbd443a4740aa614df0d6be6383a58355c6f28a94e3dd37cd4a7df

def upgrade : ForkTransactionUpgradePayload :=
  { ForkSample.upgrade with
    baseActivationId := activationId, activationHeight := BitVec.ofNat 64 (2 ^ 64 - 1) }

def upgradeId : Text := hexText 64 0xd8d272da1ec3867e44d274c42d3c41e9012479a6ba3af9b18bf4b6130290b66a

def config : ForkChainConfig :=
  { manifest := { activation with activationId }
    transactionUpgrade := some { upgrade with upgradeId }
    inheritedTipHash := inheritedTip }

def tables : ForkTables := {
  activations := [(activation, activationId)]
  upgrades := [(upgrade, upgradeId)]
  txids := [(lowCoinbase.stripped, hashHex lowTxid), (highCoinbase.stripped, hashHex highTxid),
    (spend.stripped, hashHex spendTxid)]
  headerHashes := [(lowBlock.header, hashHex lowHash), (highBlock.header, hashHex highHash)]
  merkleRoots := [([lowTxid], hashHex lowTxid), ([highTxid, spendTxid], hashHex highBlock.header.merkleRoot)]
  commitments := [lowBlock, highBlock]
  blocks := [lowBlock, highBlock].map fun block => (serializeBlock block, block)
  addresses := [(payScript, "bc1pz0pkdg9adkd3558ttce2z0nsye7wpnevjpt463jl3mlhnpqt8fgq8qs5jp".toList)]
  publicKeys := [publicKey.bytes]
  sighashes := [(spend, hashHex spendSighash)]
  signatures := [(spendSignature, spendSighash, publicKey)] }

def library : ForkPrimitives :=
  { ForkPrimitives.ofTables tables with
    deserializeTransaction := fun bytes => if serializeTransaction spend = bytes then some spend else none
    serializeTransaction }

/-- Store the first block, let the transaction wait, and submit the block that confirms it. -/
def ops : List ForkOp := [.block lowHex now, .transaction spendHex, .block highHex now]

/-- The store opened on an empty log. -/
def opened : Outcome ForkChainStore :=
  openWithTransactionUpgrade library (fun _ => .error .eof) config.manifest config.transactionUpgrade []

end HighestFork

/-- The submission at the largest height fails after the tip has moved, and the transaction it confirms waits on. -/
theorem confirmed_transaction_keeps_waiting : ∃ start store, HighestFork.opened = .ok start ∧
    HighestFork.ops.foldl (ForkOp.call HighestFork.library) start = store ∧
    store.activeTip = some HighestFork.highHash ∧
    (∃ node, store.lookup HighestFork.highHash = some node ∧ HighestFork.spend ∈ node.block.txdata) ∧
    store.mempool[computeTxid HighestFork.library HighestFork.spend]? = some HighestFork.spend ∧
    ¬ MempoolInvariant HighestFork.library store := by
  have computed : HighestFork.opened.toOption.any (fun start =>
      let store := HighestFork.ops.foldl (ForkOp.call HighestFork.library) start
      decide (store.activeTip = some HighestFork.highHash ∧
        (store.lookup HighestFork.highHash).any (fun node =>
          node.height = BitVec.allOnes 64 ∧ HighestFork.spend ∈ node.block.txdata) = true ∧
        store.mempool[computeTxid HighestFork.library HighestFork.spend]? = some HighestFork.spend)) = true := by
    decide +kernel
  cases opening : HighestFork.opened with
  | error fault =>
    rw [opening] at computed
    cases computed
  | ok start =>
    rw [opening] at computed
    simp only [Except.toOption, Option.any_some, decide_eq_true_eq, Option.any_eq_true] at computed
    obtain ⟨tip, ⟨node, stored, height, confirmed⟩, waiting⟩ := computed
    refine ⟨start, _, rfl, rfl, tip, ⟨node, stored, confirmed⟩, waiting, fun invariant => ?_⟩
    -- There is no height above the tip at which the waiting transaction could be valid.
    obtain ⟨-, _, _, _, _, ⟨⟨status, known, above⟩, -⟩, -⟩ := invariant.valid _ _ waiting
    rw [ForkChainStore.status, tip] at known
    simp only [stored, okOr_some, except_ok_bind] at known
    obtain rfl := Except.ok.inj known
    simp only [height] at above
    cases above

end P2PoolBTC.Soundness
