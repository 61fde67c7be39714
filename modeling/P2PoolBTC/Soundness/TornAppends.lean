import P2PoolBTC.Soundness.ForkConvergence
import P2PoolBTC.Soundness.Mempool

/-! # Failed submissions and the block log

A submission whose append fails leaves the memory of the store as it was, and a part of its record in
the log. The store does not repair the log before it is opened again: a later append continues the torn
line. As long as nothing is appended to a torn log, and no block whose record is in the log already, the
log can be opened and gives back every block whose submission returned.
-/

namespace P2PoolBTC.Soundness

open Math Std Model.Core Model.Node ForkChainStore

variable {blockHex normalized : Text} {store : ForkChainStore} {block : Block} {nowUnix : U64} {node : BlockNode}
  {session : Session} {lib : ForkPrimitives} {config : ForkChainConfig} {acceptance : ForkBlockAcceptance}

/-! ## What a submission can do -/

section Accepting

variable {rest : Branch}

/-- Where there is room for it, a valid block that is not stored yet is accepted. -/
theorem SoundFork.acceptBlock_of_roomy (sound : SoundFork lib store)
    (unknown : store.lookup (blockHash lib block) = none)
    (validated : store.validateBlock lib block normalized nowUnix = .ok node)
    (found : BranchOf store (store.attachment block) rest)
    (fits : FitsLine store.toForkChainConfig normalized)
    (roomy : Roomy lib node ((blockHash lib block, node) :: rest)) :
    ∃ acceptance after, acceptBlock lib block normalized nowUnix store = .ok acceptance after := by
  obtain ⟨rfl, -, other, attached, valid⟩ := sound.rooted.validated validated
  obtain rfl : other = rest := Trail.unique attached found
  obtain ⟨next, sum, -⟩ := exists_checkedAdd node.height (1 : U64) (by simpa using roomy.height)
  obtain ⟨state, replayed, -⟩ := valid.money roomy.distinct
  exact sound.acceptBlock_returns unknown validated found fits ⟨next, sum⟩ ⟨state, replayed⟩
    (valid.explorerIndex_ok roomy.distinct roomy.total.addresses)

/-- An append that stops leaves a part of the record in the log and changes nothing else. -/
def tornLog (store : ForkChainStore) (normalized : Text) (written : ℕ) : List UInt8 :=
  store.blockLog ++ (recordLine store.toForkChainConfig normalized ++ [newline]).take written

/-- A submission of a block that is valid and not stored yet. -/
structure Submittable (lib : ForkPrimitives) (store : ForkChainStore) (blockHex : Text) (nowUnix : U64)
    (normalized : Text) (block : Block) (node : BlockNode) : Prop where
  submits : Submits lib blockHex normalized block
  unknown : store.lookup (blockHash lib block) = none
  validated : store.validateBlock lib block normalized nowUnix = .ok node
  fits : FitsLine store.toForkChainConfig normalized

/-- What a submission does, whatever ending its append has. -/
inductive SubmissionOutcome (lib : ForkPrimitives) (store : ForkChainStore) (blockHex : Text) (nowUnix : U64) :
    AppendEnding → EStateM.Result (Fault String) ForkChainStore ForkBlockAcceptance → Prop
  | refused {ending : AppendEnding} (fault : Fault String) :
      SubmissionOutcome lib store blockHex nowUnix ending (.error fault store)
  | known {ending : AppendEnding} {normalized : Text} {block : Block} {existing : BlockNode}
      (acceptance : ForkBlockAcceptance) (submits : Submits lib blockHex normalized block)
      (stored : store.lookup (blockHash lib block) = some existing) :
      SubmissionOutcome lib store blockHex nowUnix ending (.ok acceptance store)
  | accepted {normalized : Text} {block : Block} {node : BlockNode} {acceptance : ForkBlockAcceptance}
      {after : ForkChainStore} (valid : Submittable lib store blockHex nowUnix normalized block node)
      (returned : acceptBlock lib block normalized nowUnix store = .ok acceptance after) :
      SubmissionOutcome lib store blockHex nowUnix .synced (.ok acceptance after)
  | torn {normalized : Text} {block : Block} {node : BlockNode} {written : ℕ} {reason : String}
      (valid : Submittable lib store blockHex nowUnix normalized block node) :
      SubmissionOutcome lib store blockHex nowUnix (.stopped written reason)
        (.error (.error reason) { store with blockLog := tornLog store normalized written })

private theorem appendRecord_stopped (fits : FitsLine store.toForkChainConfig normalized) (written : ℕ)
    (reason : String) :
    appendRecord (.stopped written reason) normalized store =
      .error (.error reason) { store with blockLog := tornLog store normalized written } := by
  unfold FitsLine at fits
  rw [appendRecord, Routine.get_bind, require_of_true fits, Routine.attempt_ok, Routine.pure_bind_apply]
  rfl

/-- While there is room, a submission that fails leaves everything but the log as it was. -/
theorem SoundFork.submission_outcome (sound : SoundFork lib store) (ending : AppendEnding)
    (room : (ForkOp.block blockHex nowUnix).HasRoom lib store) :
    SubmissionOutcome lib store blockHex nowUnix ending
      (submitBlockAtTimeEnding lib ending blockHex nowUnix store) := by
  rw [submitBlockAtTimeEnding, Routine.get_bind]
  cases normalizing : normalizeBlockHex blockHex with
  | error fault => exact .refused fault
  | ok normalized =>
    rw [Routine.settle_ok, Routine.pure_bind_apply]
    cases decoding : decodeBlock lib normalized with
    | error fault => exact .refused fault
    | ok block =>
      have submits : Submits lib blockHex normalized block := ⟨normalizing, decoding⟩
      rw [Routine.settle_ok, Routine.pure_bind_apply]
      cases known : store.lookup (blockHash lib block) with
      | some existing =>
        obtain ⟨status, reported⟩ := sound.status_ok
        dsimp only
        rw [reported, Routine.settle_ok, Routine.pure_bind_apply]
        exact .known _ submits known
      | none =>
        dsimp only
        cases validated : store.validateBlock lib block normalized nowUnix with
        | error fault =>
          rw [acceptBlockEnding, Routine.get_bind, validated]
          exact .refused fault
        | ok node =>
          rw [acceptBlockEnding_of_valid ending validated]
          by_cases fits : FitsLine store.toForkChainConfig normalized
          · have valid : Submittable lib store blockHex nowUnix normalized block node :=
              ⟨submits, known, validated, fits⟩
            cases ending with
            | synced =>
              obtain ⟨rest, found, -⟩ := sound.rooted.attached validated
              obtain ⟨acceptance, after, returned⟩ := sound.acceptBlock_of_roomy known validated found fits
                (room normalized block node rest submits validated found)
              have same : acceptBlockEnding lib .synced block normalized nowUnix store = .ok acceptance after :=
                returned
              rw [← acceptBlockEnding_of_valid _ validated, same]
              exact .accepted valid returned
            | stopped written reason =>
              rw [Routine.bind_of_error (appendRecord_stopped fits written reason)]
              exact .torn valid
          · rw [Routine.bind_of_error (appendRecord_of_long ending fits)]
            exact .refused _

end Accepting

/-! ## Sessions -/

/-- An open store, the blocks whose submission returned, and the blocks whose submission failed when their complete
record had been written. -/
structure Session where
  store : ForkChainStore
  confirmed : List Digest
  spilled : List Digest

/-- A session on an empty log. -/
def Session.initial (config : ForkChainConfig) : Session :=
  { store := emptyStore config, confirmed := [], spilled := [] }

variable (lib)

/-- The block that a text names, with the text in normal form. -/
def submittedBlock? (blockHex : Text) : Option (Text × Block) := do
  let normalized ← (normalizeBlockHex blockHex).toOption
  let block ← (decodeBlock lib normalized).toOption
  return (normalized, block)

/-- The hash of the block that a submission names. -/
def submittedHash (blockHex : Text) : List Digest :=
  (submittedBlock? lib blockHex).toList.map fun named => blockHash lib named.2

/-- The hash of the block whose complete record a failed submission wrote. -/
def spilledHash (blockHex : Text) (before after : ForkChainStore) : List Digest :=
  ((submittedBlock? lib blockHex).filter fun named =>
    (recordLine before.toForkChainConfig named.1).isPrefixOf (after.blockLog.drop before.blockLog.length)).toList.map
      fun named => blockHash lib named.2

/-- What happens to a data directory: submissions with the ending of their append, and reopening. -/
inductive SessionOp where
  | block (blockHex : Text) (nowUnix : U64) (ending : AppendEnding)
  | transaction (transactionHex : Text)
  | reopen

/-- A session after an operation. There is none after a reopening that fails. -/
def SessionOp.step? (read : RecordReader) (session : Session) : SessionOp → Option Session
  | .block blockHex nowUnix ending =>
    match submitBlockAtTimeEnding lib ending blockHex nowUnix session.store with
    | .ok _ after => some { session with
        store := after, confirmed := submittedHash lib blockHex ++ session.confirmed }
    | .error _ after => some { session with
        store := after, spilled := spilledHash lib blockHex session.store after ++ session.spilled }
  | .transaction transactionHex =>
    some { session with store := leaves (submitTransaction lib transactionHex) session.store }
  | .reopen =>
    (openWithTransactionUpgrade lib read session.store.manifest session.store.transactionUpgrade
      session.store.blockLog).toOption.map fun store => { session with store }

/-- The append writes something. -/
def Writes : AppendEnding → Prop
  | .synced => True
  | .stopped written _ => written ≠ 0

/-- The log is empty or ends with a newline. -/
def Finished (log : List UInt8) : Prop := ∀ last ∈ log.getLast?, last = newline

/-- A submission has room for its block. When it is about to write the record of a valid new block, the log ends with
a newline and no failed submission has written a record of that block before. -/
def SessionOp.Careful (session : Session) : SessionOp → Prop
  | .block blockHex nowUnix ending => (ForkOp.block blockHex nowUnix).HasRoom lib session.store ∧
      (Writes ending → ∀ normalized block node,
        Submittable lib session.store blockHex nowUnix normalized block node →
          Finished session.store.blockLog ∧ blockHash lib block ∉ session.spilled)
  | .transaction _ => True
  | .reopen => True

/-- Runs whose operations are all careful. -/
inductive CarefulRun (read : RecordReader) (config : ForkChainConfig) : List SessionOp → Session → Prop
  | nil : CarefulRun read config [] (.initial config)
  | concat {ops : List SessionOp} {op : SessionOp} {before after : Session}
      (earlier : CarefulRun read config ops before) (careful : op.Careful lib before)
      (stepped : op.step? lib read before = some after) :
      CarefulRun read config (ops ++ [op]) after

/-- The submissions of a run, in normal form. -/
def SubmittedIn (ops : List SessionOp) (entry : Submission) : Prop :=
  ∃ blockHex ending, .block blockHex entry.2 ending ∈ ops ∧ normalizeBlockHex blockHex = .ok entry.1

variable {lib}

theorem submittedBlock?_eq (submits : Submits lib blockHex normalized block) :
    submittedBlock? lib blockHex = some (normalized, block) := by
  simp [submittedBlock?, submits.1, submits.2, Except.toOption]

theorem submittedHash_eq (submits : Submits lib blockHex normalized block) :
    submittedHash lib blockHex = [blockHash lib block] := by
  simp [submittedHash, submittedBlock?_eq submits]

/-- A torn record is complete when its whole text has been written. -/
theorem spilledHash_torn (submits : Submits lib blockHex normalized block) (written : ℕ) :
    spilledHash lib blockHex store { store with blockLog := tornLog store normalized written } =
      if (recordLine store.toForkChainConfig normalized).length ≤ written then [blockHash lib block] else [] := by
  have complete : (recordLine store.toForkChainConfig normalized).isPrefixOf
      ((tornLog store normalized written).drop store.blockLog.length) =
        decide ((recordLine store.toForkChainConfig normalized).length ≤ written) := by
    rw [Bool.eq_iff_iff, List.isPrefixOf_iff_prefix, decide_eq_true_eq, tornLog, List.drop_left]
    constructor
    · intro inside
      have short := inside.length_le
      rw [List.length_take] at short
      omega
    · intro whole
      rw [List.take_append, List.take_of_length_le whole]
      exact List.prefix_append _ _
  simp only [spilledHash, submittedBlock?_eq submits, Option.filter_some, complete]
  by_cases whole : (recordLine store.toForkChainConfig normalized).length ≤ written <;> simp [whole]

/-- Where nothing was written, no record is complete. -/
theorem spilledHash_unchanged (blockHex : Text) (store : ForkChainStore) :
    spilledHash lib blockHex store store = [] := by
  have never (text : Text) : (recordLine store.toForkChainConfig text).isPrefixOf [] = false := by
    rw [← Bool.not_eq_true, List.isPrefixOf_iff_prefix, List.prefix_nil]
    exact recordLine_ne_nil _ text
  simp [spilledHash, List.drop_length, never]

/-! ## What the log keeps -/

/-- The log is a cut of the records of blocks that could be accepted one after another. The complete records include
those of all stored blocks. Blocks whose submission returned are stored, and each other block with a complete record
was spilled. -/
structure Archived (lib : ForkPrimitives) (config : ForkChainConfig) (session : Session) (recorded : List Submission)
    (complete : ℕ) (early : ForkChainStore) : Prop where
  sound : SoundFork lib session.store
  config_eq : session.store.toForkChainConfig = config
  chain : ∃ fresh, AcceptedRun lib config recorded fresh
  cutting : Cut newline ((recorded.map Prod.fst).map (recordLine config)) session.store.blockLog complete
  recovered : AcceptedRun lib config (recorded.take complete) early
  contained : ∀ hash node, session.store.lookup hash = some node → early.lookup hash = some node
  confirmed : ∀ hash ∈ session.confirmed, ∃ node, session.store.lookup hash = some node
  accounted : ∀ hash node, early.lookup hash = some node → hash ∈ session.confirmed ∨ hash ∈ session.spilled

private theorem AcceptedRun.unique {accepted : List Submission} {other : ForkChainStore}
    (first : AcceptedRun lib config accepted store) (second : AcceptedRun lib config accepted other) :
    store = other := Option.some.inj (first.run.symm.trans second.run)

variable {after : ForkChainStore}

theorem acceptBlock_lookup (validated : store.validateBlock lib block normalized nowUnix = .ok node)
    (returned : acceptBlock lib block normalized nowUnix store = .ok acceptance after) (hash : Digest) :
    after.lookup hash = if blockHash lib block = hash then some node else store.lookup hash := by
  obtain ⟨_, again, -, -, lookups, -⟩ := acceptBlock_blocks returned
  obtain rfl := Except.ok.inj (validated.symm.trans again)
  exact lookups hash

namespace Archived

variable {recorded : List Submission} {complete : ℕ} {early : ForkChainStore}

private theorem initial : Archived lib config (.initial config) [] 0 (emptyStore config) where
  sound := .initial config []
  config_eq := rfl
  chain := ⟨_, .nil⟩
  cutting := .whole [] []
  recovered := .nil
  contained _ _ stored := stored
  confirmed := by simp [Session.initial]
  accounted hash node stored := by
    rw [emptyStore, lookup_empty] at stored
    cases stored

section

variable (archived : Archived lib config session recorded complete early)
include archived

/-- Only the store's chain and log and the two lists matter. -/
theorem waiting (only : OnlyMempool session.store store) :
    Archived lib config { session with store } recorded complete early := by
  have sound := archived.sound.onlyMempool only
  obtain ⟨_, _, rfl⟩ := only
  exact { archived with sound }

/-- A stored block is submitted again. -/
theorem repeated {hashes : List Digest} (stored : ∀ hash ∈ hashes, ∃ node, session.store.lookup hash = some node) :
    Archived lib config { session with confirmed := hashes ++ session.confirmed } recorded complete early where
  sound := archived.sound
  config_eq := archived.config_eq
  chain := archived.chain
  cutting := archived.cutting
  recovered := archived.recovered
  contained := archived.contained
  confirmed hash member := (List.mem_append.mp member).elim (stored hash) (archived.confirmed hash)
  accounted hash node held := (archived.accounted hash node held).imp (List.mem_append_right hashes) id

/-- A finished log consists of the complete records. -/
theorem log_eq (finished : Finished session.store.blockLog) :
    session.store.blockLog = logOf config ((recorded.take complete).map Prod.fst) := by
  have whole := archived.cutting.eq_joinLines ?_ ?_ finished
  · rw [whole, logOf, List.map_take, List.map_take]
  · intro line member
    obtain ⟨text, -, rfl⟩ := List.mem_map.mp member
    exact newline_not_mem_recordLine config text
  · intro line member
    obtain ⟨text, -, rfl⟩ := List.mem_map.mp member
    exact recordLine_ne_nil config text

end

section Submitting

/-- A block that is new to the session and was not spilled could be accepted after the complete records. -/
theorem extends_chain (archived : Archived lib config session recorded complete early)
    (room : (ForkOp.block blockHex nowUnix).HasRoom lib session.store)
    (valid : Submittable lib session.store blockHex nowUnix normalized block node)
    (fresh : blockHash lib block ∉ session.spilled) :
    ∃ later, AcceptedRun lib config (recorded.take complete ++ [(normalized, nowUnix)]) later ∧
      ∀ hash, later.lookup hash = if blockHash lib block = hash then some node else early.lookup hash := by
  have same : early.toForkChainConfig = session.store.toForkChainConfig :=
    archived.recovered.config_eq.trans archived.config_eq.symm
  have unknown : early.lookup (blockHash lib block) = none := by
    cases held : early.lookup (blockHash lib block) with
    | none => rfl
    | some other =>
      rcases archived.accounted _ _ held with returned | spilled
      · obtain ⟨existing, stored⟩ := archived.confirmed _ returned
        rw [valid.unknown] at stored
        cases stored
      · exact absurd spilled fresh
  obtain ⟨rest, found, -⟩ := archived.sound.rooted.attached valid.validated
  have roomy := room normalized block node rest valid.submits valid.validated found
  have foundEarly : BranchOf early (early.attachment block) rest := by
    change Trail early.lookup early.toForkChainConfig.parentOf _ _
    rw [same]
    exact Trail.mono found archived.contained
  have validated : early.validateBlock lib block normalized nowUnix = .ok node := by
    rw [validateBlock_eq_ok_iff foundEarly, same]
    exact (validateBlock_eq_ok_iff found).mp valid.validated
  obtain ⟨acceptance, later, returned⟩ := archived.recovered.sound.acceptBlock_of_roomy unknown validated foundEarly
    (by rw [same]; exact valid.fits) roomy
  exact ⟨later, .concat archived.recovered ⟨normalizeBlockHex_idem valid.submits.1, valid.submits.2⟩ unknown returned,
    acceptBlock_lookup validated returned⟩

variable (archived : Archived lib config session recorded complete early)
  (room : (ForkOp.block blockHex nowUnix).HasRoom lib session.store)
  (valid : Submittable lib session.store blockHex nowUnix normalized block node)
  (finished : Finished session.store.blockLog) (fresh : blockHash lib block ∉ session.spilled)
include archived room valid finished fresh

/-- An accepted block is stored and its record is complete. -/
theorem accepting (returned : acceptBlock lib block normalized nowUnix session.store = .ok acceptance after) :
    ∃ later, Archived lib config
      { session with store := after, confirmed := submittedHash lib blockHex ++ session.confirmed }
      (recorded.take complete ++ [(normalized, nowUnix)]) (recorded.take complete ++ [(normalized, nowUnix)]).length
      later := by
  obtain ⟨later, chain, looked⟩ := archived.extends_chain room valid fresh
  have stored := acceptBlock_lookup valid.validated returned
  have accepted : Accepted lib block normalized nowUnix session.store after := acceptBlock_ok valid.unknown returned
  have log : after.blockLog = logOf config ((recorded.take complete ++ [(normalized, nowUnix)]).map Prod.fst) := by
    obtain ⟨_, _, again, -, log⟩ := (SameChain.refl session.store).acceptBlock_ok archived.sound valid.unknown returned
    rw [returned] at again
    cases again
    rw [log, logged, archived.log_eq finished, archived.config_eq, List.map_append, List.map_singleton, logOf, logOf,
      List.map_append, List.map_singleton, joinLines_concat]
    rfl
  refine ⟨later, archived.sound.accepted accepted, accepted.config.trans archived.config_eq, ⟨later, chain⟩, ?_, ?_, ?_,
    ?_, ?_⟩
  · rw [log, logOf]
    simpa only [List.length_map] using Cut.all newline
      (((recorded.take complete ++ [(normalized, nowUnix)]).map Prod.fst).map (recordLine config))
  · rwa [List.take_length]
  · intro hash held known
    rw [stored] at known
    rw [looked]
    split_ifs at known ⊢ with same
    · exact known
    · exact archived.contained hash held known
  · intro hash member
    rw [stored]
    split_ifs with same
    · exact ⟨node, rfl⟩
    · rw [submittedHash_eq valid.submits] at member
      rcases List.mem_append.mp member with new | old
      · exact absurd (List.mem_singleton.mp new).symm same
      · exact archived.confirmed hash old
  · intro hash held known
    rw [looked] at known
    split_ifs at known with same
    · left
      rw [submittedHash_eq valid.submits, same]
      exact List.mem_append_left _ (List.mem_singleton_self hash)
    · exact (archived.accounted hash held known).imp (List.mem_append_right _) id

/-- A torn append leaves a cut of the longer log. -/
theorem tearing (written : ℕ) : ∃ cut later, Archived lib config
      { session with
        store := { session.store with blockLog := tornLog session.store normalized written }
        spilled := spilledHash lib blockHex session.store
          { session.store with blockLog := tornLog session.store normalized written } ++ session.spilled }
      (recorded.take complete ++ [(normalized, nowUnix)]) cut later := by
  obtain ⟨later, chain, looked⟩ := archived.extends_chain room valid fresh
  have log : tornLog session.store normalized written =
      joinLines newline (((recorded.take complete).map Prod.fst).map (recordLine config)) ++
        (recordLine config normalized ++ [newline]).take written := by
    rw [tornLog, archived.log_eq finished, archived.config_eq, logOf]
  obtain ⟨cut, cutting, extent⟩ := exists_cut_append newline
    (((recorded.take complete).map Prod.fst).map (recordLine config)) (recordLine config normalized) written
  rw [← log] at cutting
  have sound : SoundFork lib { session.store with blockLog := tornLog session.store normalized written } :=
    archived.sound.congr rfl rfl rfl rfl rfl rfl
  have lines : ((recorded.take complete ++ [(normalized, nowUnix)]).map Prod.fst).map (recordLine config) =
      ((recorded.take complete).map Prod.fst).map (recordLine config) ++ [recordLine config normalized] := by
    simp
  rw [spilledHash_torn valid.submits, archived.config_eq]
  rcases extent with ⟨whole, rfl⟩ | ⟨part, rfl⟩
  · rw [if_pos whole]
    refine ⟨_, later, sound, archived.config_eq, ⟨later, chain⟩, by rw [lines]; exact cutting, ?_, ?_,
      archived.confirmed, ?_⟩
    · rwa [List.take_of_length_le (by simp)]
    · intro hash held (known : session.store.lookup hash = some held)
      rw [looked]
      split_ifs with same
      · rw [← same, valid.unknown] at known
        cases known
      · exact archived.contained hash held known
    · intro hash held known
      rw [looked] at known
      split_ifs at known with same
      · exact .inr (List.mem_append_left _ (List.mem_singleton.mpr same.symm))
      · exact (archived.accounted hash held known).imp id (List.mem_append_right _)
  · rw [if_neg (Nat.not_le.mpr part)]
    refine ⟨_, early, sound, archived.config_eq, ⟨later, chain⟩, by rw [lines]; exact cutting, ?_, archived.contained,
      archived.confirmed, archived.accounted⟩
    rw [List.take_left' (by simp)]
    exact archived.recovered

end Submitting

/-- The data directory can be opened and gives back what the complete records stored. -/
theorem opens {read : RecordReader} (archived : Archived lib config session recorded complete early)
    (prepared : prepare lib config.manifest config.transactionUpgrade = .ok config)
    (readsBack : ∀ entry ∈ recorded, ReadsBack read (blockRecord config entry.1)) :
    ∃ reopened, openWithTransactionUpgrade lib read config.manifest config.transactionUpgrade
      session.store.blockLog = .ok reopened ∧ OnlyMempool early reopened := by
  obtain ⟨fresh, chain⟩ := archived.chain
  obtain ⟨other, reopened, recovered, opened, only⟩ := chain.reopened prepared readsBack archived.cutting
  obtain rfl := recovered.unique archived.recovered
  exact ⟨reopened, opened, only⟩

private theorem reopening (archived : Archived lib config session recorded complete early)
    (only : OnlyMempool early store) :
    Archived lib config { session with store } (recorded.take complete) (recorded.take complete).length
      early := by
  have sound := archived.recovered.sound.onlyMempool only
  have log := archived.recovered.log_eq
  have same := archived.recovered.config_eq
  obtain ⟨_, _, rfl⟩ := only
  refine ⟨sound, same, ⟨early, archived.recovered⟩, ?_, ?_, fun _ _ stored => stored, ?_, archived.accounted⟩
  · change Cut newline _ early.blockLog _
    rw [log, logOf]
    simpa only [List.length_map] using Cut.all newline (((recorded.take complete).map Prod.fst).map (recordLine config))
  · rw [List.take_length]
    exact archived.recovered
  · intro hash returned
    obtain ⟨node, stored⟩ := archived.confirmed hash returned
    exact ⟨node, archived.contained hash node stored⟩

end Archived

section Runs

variable {read : RecordReader} {ops : List SessionOp}

/-- A careful submission keeps the log a cut of the records of acceptable blocks. -/
theorem Archived.submitted {recorded : List Submission} {complete : ℕ} {early : ForkChainStore}
    {ending : AppendEnding} {after : Session} (archived : Archived lib config session recorded complete early)
    (careful : (SessionOp.block blockHex nowUnix ending).Careful lib session)
    (stepped : (SessionOp.block blockHex nowUnix ending).step? lib read session = some after) :
    ∃ recorded' complete' early', Archived lib config after recorded' complete' early' ∧
      ∀ entry ∈ recorded', entry ∈ recorded ∨ entry.2 = nowUnix ∧ normalizeBlockHex blockHex = .ok entry.1 := by
  obtain ⟨room, writing⟩ := careful
  have outcome := archived.sound.submission_outcome ending room
  rw [SessionOp.step?] at stepped
  generalize submitBlockAtTimeEnding lib ending blockHex nowUnix session.store = result at outcome stepped
  have listed {normalized : Text} {block : Block} (submits : Submits lib blockHex normalized block) :
      ∀ entry ∈ recorded.take complete ++ [(normalized, nowUnix)],
        entry ∈ recorded ∨ entry.2 = nowUnix ∧ normalizeBlockHex blockHex = .ok entry.1 := by
    intro entry member
    rcases List.mem_append.mp member with old | new
    · exact .inl (List.mem_of_mem_take old)
    · rw [List.mem_singleton.mp new]
      exact .inr ⟨rfl, submits.1⟩
  cases outcome with
  | refused fault =>
    cases stepped
    rw [spilledHash_unchanged, List.nil_append]
    exact ⟨_, _, early, archived, fun _ => .inl⟩
  | @known _ normalized block existing acceptance submits stored =>
    cases stepped
    refine ⟨_, _, early, archived.repeated ?_, fun _ => .inl⟩
    rw [submittedHash_eq submits]
    intro hash member
    rw [List.mem_singleton.mp member]
    exact ⟨existing, stored⟩
  | accepted valid returned =>
    cases stepped
    obtain ⟨finished, fresh⟩ := writing trivial _ _ _ valid
    obtain ⟨later, kept⟩ := archived.accepting room valid finished fresh returned
    exact ⟨_, _, later, kept, listed valid.submits⟩
  | @torn normalized block node written reason valid =>
    cases stepped
    by_cases nothing : written = 0
    · have unchanged : tornLog session.store normalized written = session.store.blockLog := by
        rw [tornLog, nothing, List.take_zero, List.append_nil]
      rw [unchanged]
      change ∃ recorded' complete' early', Archived lib config { session with
        spilled := spilledHash lib blockHex session.store session.store ++ session.spilled }
          recorded' complete' early' ∧ _
      rw [spilledHash_unchanged, List.nil_append]
      exact ⟨_, _, early, archived, fun _ => .inl⟩
    · obtain ⟨finished, fresh⟩ := writing nothing _ _ _ valid
      obtain ⟨cut, later, kept⟩ := archived.tearing room valid finished fresh written
      exact ⟨_, _, later, kept, listed valid.submits⟩

private theorem SubmittedIn.earlier {op : SessionOp} {entry : Submission} (submitted : SubmittedIn ops entry) :
    SubmittedIn (ops ++ [op]) entry := by
  obtain ⟨blockHex, ending, member, normalizing⟩ := submitted
  exact ⟨blockHex, ending, List.mem_append_left _ member, normalizing⟩

/-- In a careful run the log stays a cut of the records of acceptable blocks. -/
theorem CarefulRun.archived (run : CarefulRun lib read config ops session)
    (prepared : prepare lib config.manifest config.transactionUpgrade = .ok config)
    (readsBack : ∀ entry, SubmittedIn ops entry → ReadsBack read (blockRecord config entry.1)) :
    ∃ recorded complete early, Archived lib config session recorded complete early ∧
      ∀ entry ∈ recorded, SubmittedIn ops entry := by
  induction run with
  | nil => exact ⟨[], 0, _, .initial, by simp⟩
  | @concat ops op before after run careful stepped ih =>
    obtain ⟨recorded, complete, early, archived, submitted⟩ := ih fun entry earlier => readsBack entry earlier.earlier
    cases op with
    | block blockHex nowUnix ending =>
      obtain ⟨recorded', complete', early', kept, listed⟩ := archived.submitted careful stepped
      refine ⟨recorded', complete', early', kept, fun entry member => ?_⟩
      rcases listed entry member with old | ⟨rfl, normalizing⟩
      · exact (submitted entry old).earlier
      · exact ⟨blockHex, ending, List.mem_append_right _ (List.mem_singleton_self _), normalizing⟩
    | transaction transactionHex =>
      cases stepped
      exact ⟨recorded, complete, early, archived.waiting (related_leaves (submitTransaction_frame transactionHex _)),
        fun entry member => (submitted entry member).earlier⟩
    | reopen =>
      obtain ⟨reopened, opened, only⟩ := archived.opens prepared fun entry member =>
        readsBack entry (submitted entry member).earlier
      rw [SessionOp.step?, archived.config_eq, opened] at stepped
      cases stepped
      exact ⟨_, _, early, archived.reopening only,
        fun entry member => (submitted entry (List.mem_of_mem_take member)).earlier⟩

end Runs

/-- In every careful run, a submission that fails leaves everything but the log as it was, and the data directory can
be opened. It then holds every block whose submission returned, and otherwise only blocks whose failed submission
wrote their complete record. -/
theorem failed_submissions_leave_log (lib : ForkPrimitives) (read : RecordReader) (config : ForkChainConfig)
    (prepared : prepare lib config.manifest config.transactionUpgrade = .ok config) (ops : List SessionOp)
    (session : Session) (run : CarefulRun lib read config ops session)
    (readsBack : ∀ entry, SubmittedIn ops entry → ReadsBack read (blockRecord config entry.1)) :
    (∀ blockHex nowUnix ending fault after, (ForkOp.block blockHex nowUnix).HasRoom lib session.store →
      submitBlockAtTimeEnding lib ending blockHex nowUnix session.store = .error fault after →
        ∃ blockLog, after = { session.store with blockLog }) ∧
    ∃ reopened, openWithTransactionUpgrade lib read session.store.manifest session.store.transactionUpgrade
        session.store.blockLog = .ok reopened ∧
      (∀ hash ∈ session.confirmed, hash ∈ reopened.blocks) ∧
      ∀ hash ∈ reopened.blocks, hash ∈ session.confirmed ∨ hash ∈ session.spilled := by
  obtain ⟨recorded, complete, early, archived, submitted⟩ := run.archived prepared readsBack
  constructor
  · intro blockHex nowUnix ending fault after room failed
    have outcome := archived.sound.submission_outcome ending room
    rw [failed] at outcome
    cases outcome with
    | refused => exact ⟨session.store.blockLog, rfl⟩
    | torn valid => exact ⟨_, rfl⟩
  · obtain ⟨reopened, opened, mempool, mempoolBytes, rfl⟩ := archived.opens prepared fun entry member =>
      readsBack entry (submitted entry member)
    refine ⟨_, by rw [archived.config_eq]; exact opened, ?_, ?_⟩
    · intro hash returned
      obtain ⟨node, stored⟩ := archived.confirmed hash returned
      exact mem_iff_exists_getElem?.mpr ⟨node, archived.contained hash node stored⟩
    · intro hash member
      obtain ⟨node, stored⟩ := mem_iff_exists_getElem?.mp member
      exact archived.accounted hash node stored

/-- Whether there is room depends on the stored blocks only. -/
theorem ForkOp.HasRoom.congr {op : ForkOp} {before : ForkChainStore} (same : SameBlocks before after)
    (room : op.HasRoom lib before) : op.HasRoom lib after := by
  cases op with
  | transaction => trivial
  | block blockHex nowUnix =>
    intro normalized block node rest submits validated found
    have foundBefore : BranchOf before (before.attachment block) rest := by
      rw [← same.1]
      change Trail before.lookup before.toForkChainConfig.parentOf _ _
      rw [← same.1]
      refine Trail.mono found fun hash held stored => ?_
      rwa [lookup, ← same.2]
    refine room normalized block node rest submits ?_ foundBefore
    rw [validateBlock_eq_ok_iff foundBefore, ← same.1]
    exact (validateBlock_eq_ok_iff found).mp validated

namespace ForkSample

/-- The append of a block stops after ten bytes. -/
def tearing : SessionOp := .block hexA now (.stopped 10 "failed to append fork block log")

def reader : RecordReader := readerOf [blockRecord ForkSample.config hexA]

theorem reader_readsBack {ops : List SessionOp} (only : ∀ blockHex nowUnix ending,
      .block blockHex nowUnix ending ∈ ops → blockHex = hexA) (entry : Submission) (submitted : SubmittedIn ops entry) :
    ReadsBack reader (blockRecord ForkSample.config entry.1) := by
  obtain ⟨blockHex, ending, member, normalizing⟩ := submitted
  rw [only _ _ _ member] at normalizing
  have normal : (normalizeBlockHex hexA).toOption = some hexA := by decide +kernel
  rw [normalizing] at normal
  rw [Option.some.inj normal]
  exact readerOf_readsBack (List.mem_singleton_self _) fun other known _ => List.mem_singleton.mp known

theorem wallet_prepared : prepare wallet ForkSample.config.manifest ForkSample.config.transactionUpgrade =
    .ok ForkSample.config := by
  have same : wallet.toForkCrypto = library.toForkCrypto := rfl
  rw [← prepared, prepare, prepare, same]

/-- The torn record is removed by reopening, and the block can be submitted again. -/
theorem torn_reopened : ∃ session, CarefulRun wallet reader ForkSample.config
    [tearing, .reopen, .block hexA now .synced] session ∧ hashA ∈ session.confirmed ∧ session.spilled = [] := by
  have computed : (run? (SessionOp.step? wallet reader) (.initial ForkSample.config) [tearing, .reopen]).any
      (fun reopened =>
        decide (reopened.store.blocks.size = 0 ∧ reopened.store.blockLog = [] ∧ reopened.spilled = []) &&
          (SessionOp.step? wallet reader reopened (.block hexA now .synced)).any fun session =>
            decide (hashA ∈ session.confirmed ∧ session.spilled = [])) = true := by
    decide +kernel
  simp only [Option.any_eq_true, Bool.and_eq_true, decide_eq_true_eq] at computed
  obtain ⟨reopened, early, ⟨empty, log, unspilled⟩, session, stepped, returned, none⟩ := computed
  obtain ⟨middle, tore, early⟩ := run?_cons_eq_some.mp early
  obtain ⟨_, opened, ⟨⟩⟩ := run?_cons_eq_some.mp early
  have torn : CarefulRun wallet reader ForkSample.config [tearing] middle := by
    refine .concat .nil ⟨first_hasRoom, fun _ _ _ _ _ => ⟨?_, List.not_mem_nil⟩⟩ tore
    intro last member
    cases member
  have again : CarefulRun wallet reader ForkSample.config [tearing, .reopen] reopened := .concat torn trivial opened
  obtain ⟨_, _, _, archived, -⟩ := again.archived wallet_prepared (reader_readsBack (by simp +contextual [tearing]))
  have same : SameBlocks (emptyStore ForkSample.config) reopened.store :=
    ⟨archived.config_eq, ExtTreeMap.eq_empty_iff_size_eq_zero.mpr empty⟩
  refine ⟨session, .concat again ⟨first_hasRoom.congr same, fun _ _ _ _ _ => ⟨?_, ?_⟩⟩ stepped, returned, none⟩
  · rw [log]
    intro last member
    cases member
  · rw [unspilled]
    exact List.not_mem_nil

end ForkSample

open ForkSample in
theorem failed_submissions_leave_log_sample : ∃ session reopened, CarefulRun wallet reader
      ForkSample.config [tearing, .reopen, .block hexA now .synced] session ∧
    openWithTransactionUpgrade wallet reader session.store.manifest
      session.store.transactionUpgrade session.store.blockLog = .ok reopened ∧ hashA ∈ reopened.blocks := by
  obtain ⟨session, run, returned, -⟩ := torn_reopened
  obtain ⟨-, reopened, opened, kept, -⟩ := failed_submissions_leave_log wallet reader
    ForkSample.config wallet_prepared _ session run (reader_readsBack (by grind [tearing]))
  exact ⟨session, reopened, run, opened, kept _ returned⟩

open ForkSample in
/-- A record that was torn and a record appended to it make one line that cannot be read, and a block whose
submission returned is lost. -/
theorem append_after_torn_record_unreadable : ∃ session, run? (SessionOp.step? wallet reader)
      (.initial ForkSample.config) [tearing, .block hexA now .synced] = some session ∧
    hashA ∈ session.confirmed ∧
    ∀ reopened, openWithTransactionUpgrade wallet reader session.store.manifest
      session.store.transactionUpgrade session.store.blockLog ≠ .ok reopened := by
  have computed : (run? (SessionOp.step? wallet reader) (.initial ForkSample.config)
      [tearing, .block hexA now .synced]).any (fun session =>
        decide (hashA ∈ session.confirmed) &&
          (openWithTransactionUpgrade wallet reader session.store.manifest
            session.store.transactionUpgrade session.store.blockLog).toOption.isNone) = true := by
    decide +kernel
  simp only [Option.any_eq_true, Bool.and_eq_true, decide_eq_true_eq] at computed
  obtain ⟨session, reached, returned, unreadable⟩ := computed
  refine ⟨session, reached, returned, fun reopened opened => ?_⟩
  rw [opened] at unreadable
  cases unreadable

end P2PoolBTC.Soundness
