import P2PoolBTC.Math.CaseFolding
import P2PoolBTC.Math.LineLog
import P2PoolBTC.Model.Node.ForkBlockLog
import P2PoolBTC.Soundness.ForkAcceptance

/-! # Recovery of the block log

Every accepted block leaves one line in the log. Wherever the log is cut, opening it drops the part of
an unfinished line or restores the missing delimiter, and replaying the lines that are left stores the
same blocks in the same order as when they were accepted.
-/

namespace P2PoolBTC.Soundness

open Math Std Model.Core Model.Node ForkChainStore

variable {read : RecordReader} {accepted : List Submission} {store after : ForkChainStore}
  {lib : ForkPrimitives} {config : ForkChainConfig}

/-! ## Lines of the log -/

/-- The line that stores a block. -/
def recordLine (config : ForkChainConfig) (blockHex : Text) : List UInt8 := (blockRecord config blockHex).encode

/-- The log of blocks in the order of their acceptance. -/
def logOf (config : ForkChainConfig) (texts : List Text) : List UInt8 :=
  joinLines newline (texts.map (recordLine config))

private theorem newline_mem_utf8Bytes {text : Text} (member : newline ∈ utf8Bytes text) : '\n' ∈ text := by
  obtain ⟨char, listed, byte⟩ := List.mem_flatMap.mp member
  suffices same : char = '\n' by rwa [← same]
  have value : char.val.toNat = 10 := by
    unfold String.utf8EncodeChar at byte
    simp only [newline] at byte
    split_ifs at byte with one two three <;>
      simp only [List.mem_cons, List.not_mem_nil, or_false, ← UInt8.toNat_inj, UInt8.toNat_ofNat', UInt8.reduceToNat]
        at byte <;> omega
  exact Char.ext (UInt32.toNat_inj.mp value)

private theorem newline_not_mem_jsonEscape (char : Char) : '\n' ∉ jsonEscape char := by
  have digits : '\n' ∉ hexText 4 char.toNat := by
    have digit : ∀ value < 16, hexDigit value ≠ '\n' := by decide
    intro member
    obtain ⟨index, -, same⟩ := List.mem_map.mp member
    exact digit _ (Nat.mod_lt _ (by decide)) same
  unfold jsonEscape
  split_ifs with quote slash backspace tab line form carriage control
  all_goals try decide
  · rw [List.mem_append, not_or]
    exact ⟨by decide, digits⟩
  · rw [List.mem_singleton]
    rintro rfl
    exact line rfl

private theorem newline_not_mem_jsonString (text : Text) : '\n' ∉ jsonString text := by
  simp only [jsonString, List.mem_cons, List.mem_append, List.mem_flatMap, List.not_mem_nil, or_false, not_or,
    not_exists, not_and]
  exact ⟨⟨by decide, fun char _ => newline_not_mem_jsonEscape char⟩, by decide⟩

theorem newline_not_mem_recordLine (config : ForkChainConfig) (blockHex : Text) :
    newline ∉ recordLine config blockHex := by
  intro member
  have listed := newline_mem_utf8Bytes member
  simp only [blockRecord, List.mem_append, newline_not_mem_jsonString, or_false] at listed
  revert listed
  decide

theorem recordLine_ne_nil (config : ForkChainConfig) (blockHex : Text) : recordLine config blockHex ≠ [] := by
  intro empty
  have bytes := List.flatMap_eq_nil_iff.mp empty '\x7b' (by simp)
  revert bytes
  decide

/-! ## Repairing the end -/

theorem lastNewline?_eq_none {chunk : List UInt8} (absent : newline ∉ chunk) : lastNewline? chunk = none := by
  rw [lastNewline?, Option.map_eq_none_iff, List.findIdx?_eq_none_iff]
  intro byte member
  rw [decide_eq_false_iff_not]
  rintro rfl
  exact absent (List.mem_reverse.mp member)

private theorem lastNewline?_eq_some {front back : List UInt8} (absent : newline ∉ back) :
    lastNewline? (front ++ newline :: back) = some front.length := by
  have found : (front ++ newline :: back).reverse.findIdx? (· = newline) = some back.length := by
    rw [List.reverse_append, List.reverse_cons, List.append_assoc, List.findIdx?_append,
      Option.map_eq_none_iff.mp (lastNewline?_eq_none absent)]
    simp [List.findIdx?_cons]
  rw [lastNewline?, found, Option.map_some, List.length_append, List.length_cons]
  congr 1
  omega

/-- The scan for the last line stops after the last newline, whatever the chunks are. -/
theorem lastLineStart_eq {complete tail : List UInt8} (ended : complete = [] ∨ ∃ front, complete = front ++ [newline])
    (absent : newline ∉ tail) {fuel searchEnd : ℕ} (after : complete.length ≤ searchEnd)
    (inside : searchEnd ≤ (complete ++ tail).length) (enough : searchEnd ≤ fuel) :
    lastLineStart (complete ++ tail) fuel searchEnd = .ok complete.length := by
  induction fuel generalizing searchEnd with
  | zero =>
    obtain rfl := Nat.le_zero.mp enough
    rw [Nat.le_zero.mp after]
    rfl
  | succ fuel ih =>
    cases searchEnd with
    | zero =>
      rw [Nat.le_zero.mp after]
      rfl
    | succ last =>
      have positive : 0 < scanChunkBytes := by
        unfold scanChunkBytes
        omega
      rw [lastLineStart]
      swap
      · exact Nat.succ_ne_zero last
      generalize scanChunkBytes = size at positive ⊢
      obtain ⟨start, start_eq⟩ : ∃ start, start = last + 1 - size := ⟨_, rfl⟩
      simp only [← start_eq]
      by_cases beyond : complete.length ≤ start
      · -- The whole chunk lies in the last line.
        have none : newline ∉ ((complete ++ tail).drop start).take (last + 1 - start) := by
          intro member
          rw [List.drop_append, List.drop_of_length_le beyond, List.nil_append] at member
          exact absent (List.mem_of_mem_drop (List.mem_of_mem_take member))
        simp only [lastNewline?_eq_none none]
        exact ih beyond (by omega) (by omega)
      · obtain ⟨front, rfl⟩ : ∃ front, complete = front ++ [newline] := by
          rcases ended with rfl | split
          · simp at beyond
          · exact split
        rw [List.length_append, List.length_singleton] at after beyond
        have split : ((front ++ [newline] ++ tail).drop start).take (last + 1 - start) =
            front.drop start ++ newline :: tail.take (last - front.length) := by
          rw [List.append_assoc, List.drop_append_of_le_length (by omega), List.take_append,
            List.take_of_length_le (by rw [List.length_drop]; omega), List.length_drop, List.singleton_append,
            show last + 1 - start - (front.length - start) = last - front.length + 1 by omega, List.take_succ_cons]
        have without : newline ∉ tail.take (last - front.length) := fun member => absent (List.mem_of_mem_take member)
        simp only [split, lastNewline?_eq_some without, List.length_drop, List.length_append, List.length_singleton]
        congr 1
        omega

/-- The reader returns an encoded record and reports an unexpected end on every part of it. -/
def ReadsBack (read : RecordReader) (record : ForkBlockRecord) : Prop :=
  read record.encode = .ok record ∧
    ∀ part, part <+: record.encode → part ≠ [] → part ≠ record.encode → read part = .error .eof

/-- What the repair and the replay rely on for a logged block. -/
structure Readable (read : RecordReader) (config : ForkChainConfig) (blockHex : Text) : Prop where
  fits : FitsLine config blockHex
  readsBack : ReadsBack read (blockRecord config blockHex)

section Repair

/-- A log that does not end with a newline is scanned for its last line. -/
theorem repair_unfinished {done : List (List UInt8)} {tail : List UInt8} (some : tail ≠ []) (absent : newline ∉ tail) :
    repairTruncatedBlockLogTail read (joinLines newline done ++ tail) =
      if maxBlockLogLineBytes < tail.length then .ok (joinLines newline done ++ tail) else
        match read tail with
        | .ok _ => .ok (joinLines newline done ++ tail ++ [newline])
        | .error .eof => .ok (joinLines newline done)
        | .error .other => .ok (joinLines newline done ++ tail) := by
  have ended : joinLines newline done = [] ∨ ∃ front, joinLines newline done = front ++ [newline] := by
    rcases List.eq_nil_or_concat done with rfl | ⟨inner, line, rfl⟩
    · exact .inl rfl
    · exact .inr ⟨_, by rw [List.concat_eq_append, joinLines_concat]⟩
  have start := lastLineStart_eq ended absent (List.IsPrefix.length_le ⟨tail, rfl⟩)
    (Nat.le_refl (joinLines newline done ++ tail).length) (Nat.le_refl _)
  have final : tail.getLast some ≠ newline := fun same => absent (same ▸ List.getLast_mem some)
  rw [repairTruncatedBlockLogTail, List.getLast?_append, List.getLast?_eq_some_getLast some, Option.some_or]
  dsimp only
  rewrite [if_neg final, start, except_ok_bind, List.drop_left, List.take_left]
  rfl

/-- The repaired log consists of the complete lines. -/
theorem repair_cut {texts : List Text} {cut : List UInt8} {complete : ℕ}
    (cutting : Cut newline (texts.map (recordLine config)) cut complete)
    (readable : ∀ text ∈ texts, Readable read config text) :
    repairTruncatedBlockLogTail read cut = .ok (logOf config (texts.take complete)) := by
  rw [logOf, List.map_take]
  generalize lines_eq : texts.map (recordLine config) = lines at cutting ⊢
  cases cutting with
  | whole done rest =>
    rw [List.take_left]
    rcases List.eq_nil_or_concat done with rfl | ⟨inner, line, rfl⟩
    · rfl
    · rw [List.concat_eq_append, joinLines_concat, repairTruncatedBlockLogTail, List.getLast?_concat]
      exact if_pos rfl
  | undelimited done line rest =>
    obtain ⟨text, member, rfl⟩ : ∃ text ∈ texts, recordLine config text = line :=
      List.mem_map.mp (lines_eq ▸ by simp)
    obtain ⟨fits, reads, -⟩ := readable text member
    have short : (recordLine config text).length ≤ maxBlockLogLineBytes := fits
    rw [repair_unfinished (recordLine_ne_nil _ _) (newline_not_mem_recordLine _ _), if_neg (Nat.not_lt.mpr short),
      show read (recordLine config text) = _ from reads, ← joinLines_concat]
    simp [List.take_append, List.take_of_length_le (Nat.le_succ _)]
  | torn done line rest tail some part proper =>
    obtain ⟨text, member, rfl⟩ : ∃ text ∈ texts, recordLine config text = line :=
      List.mem_map.mp (lines_eq ▸ by simp)
    obtain ⟨fits, -, parts⟩ := readable text member
    have short : tail.length ≤ maxBlockLogLineBytes := Nat.le_trans part.length_le fits
    rw [repair_unfinished some fun inside => newline_not_mem_recordLine _ _ (part.subset inside),
      if_neg (Nat.not_lt.mpr short), parts tail part some proper, List.take_left]

end Repair

/-! ## Replaying the lines -/

/-- Replay records one after another. -/
def replayRecords (lib : ForkPrimitives) : ℕ → List ForkBlockRecord → Routine ForkChainStore String Unit
  | _, [] => pure ()
  | index, record :: rest => do
    replayRecord lib (index + 1) record
    replayRecords lib (index + 1) rest

private theorem replayRecords_concat (index : ℕ) (records : List ForkBlockRecord) (record : ForkBlockRecord) :
    replayRecords lib index (records ++ [record]) = (do
      replayRecords lib index records
      replayRecord lib (index + records.length + 1) record) := by
  induction records generalizing index with
  | nil => exact bind_pure _
  | cons first rest ih =>
    rw [List.cons_append, replayRecords, replayRecords, ih, bind_assoc, List.length_cons,
      show index + 1 + rest.length = index + (rest.length + 1) by omega]

/-- Reading a log of readable lines replays their records. -/
theorem replayLines_eq {texts : List Text} (readable : ∀ text ∈ texts, Readable read config text) {fuel : ℕ}
    (enough : texts.length < fuel) (index : ℕ) :
    replayLines lib read fuel index (logOf config texts) =
      replayRecords lib index (texts.map (blockRecord config)) := by
  induction texts generalizing fuel index with
  | nil =>
    cases fuel with
    | zero => exact absurd enough (Nat.not_lt_zero _)
    | succ fuel => rfl
  | cons text rest ih =>
    cases fuel with
    | zero => exact absurd enough (Nat.not_lt_zero _)
    | succ fuel =>
      obtain ⟨fits, reads, -⟩ := readable text List.mem_cons_self
      have bytes : logOf config (text :: rest) = recordLine config text ++ newline :: logOf config rest := by
        rw [logOf, List.map_cons, joinLines_cons, logOf]
      have line : (logOf config (text :: rest)).takeWhile (· ≠ newline) = recordLine config text := by
        rw [bytes, List.takeWhile_append_of_pos]
        · simp
        · intro byte member
          rw [decide_eq_true_eq]
          rintro rfl
          exact newline_not_mem_recordLine _ _ member
      have bounded : readBoundedLine maxBlockLogLineBytes (logOf config (text :: rest)) =
          .ok (some (recordLine config text, logOf config rest)) := by
        rw [readBoundedLine, if_neg (by simp [bytes]), line]
        have short : (recordLine config text).length ≤ maxBlockLogLineBytes := fits
        dsimp only
        rw [require_of_true short, except_ok_bind, bytes, ← List.drop_drop, List.drop_left, List.drop_succ_cons,
          List.drop_zero]
        rfl
      rw [replayLines, bounded, Routine.settle_ok, pure_bind]
      simp only [if_neg (recordLine_ne_nil config text), show read (recordLine config text) = _ from reads]
      rw [ih (fun later member => readable later (List.mem_cons_of_mem _ member))
        (by rw [List.length_cons] at enough; omega)]
      rfl

/-! ## Chains of acceptances -/

/-- A submitted block text with the clock's reading. -/
abbrev Submission := Text × U64

/-- The calls that submit blocks. -/
def submissions (accepted : List Submission) : List ForkOp := accepted.map fun entry => .block entry.1 entry.2

/-- Blocks accepted one after another by a store that starts empty. -/
inductive AcceptedRun (lib : ForkPrimitives) (config : ForkChainConfig) : List Submission → ForkChainStore → Prop
  | nil : AcceptedRun lib config [] (emptyStore config)
  | concat {accepted : List Submission} {store after : ForkChainStore} {normalized : Text} {nowUnix : U64}
      {block : Block} {acceptance : ForkBlockAcceptance} (earlier : AcceptedRun lib config accepted store)
      (submits : Submits lib normalized normalized block)
      (unknown : store.lookup (blockHash lib block) = none)
      (returned : acceptBlock lib block normalized nowUnix store = .ok acceptance after) :
      AcceptedRun lib config (accepted ++ [(normalized, nowUnix)]) after

namespace AcceptedRun

variable (chain : AcceptedRun lib config accepted store)
include chain

theorem run : run? (ForkOp.step? lib) (emptyStore config) (submissions accepted) = some store := by
  induction chain with
  | nil => rfl
  | concat earlier submits unknown returned ih =>
    rw [submissions, List.map_append, List.map_singleton, run?_concat_eq_some]
    refine ⟨_, ih, ?_⟩
    rw [ForkOp.step?, submitBlockAtTime_unknown submits unknown, returned]

theorem config_eq : store.toForkChainConfig = config :=
  run_config chain.run

theorem sound : SoundFork lib store :=
  (SoundFork.initial config []).run chain.run

theorem log_eq : store.blockLog = logOf config (accepted.map Prod.fst) := by
  induction chain with
  | nil => rfl
  | @concat accepted store after normalized nowUnix block acceptance earlier submits unknown returned ih =>
    obtain ⟨_, _, again, -, log⟩ := (SameChain.refl store).acceptBlock_ok earlier.sound unknown returned
    rw [returned] at again
    cases again
    rw [log, logged, earlier.config_eq, ih, List.map_append, List.map_singleton, logOf, logOf, List.map_append,
      List.map_singleton, joinLines_concat]
    rfl

private theorem fits : ∀ entry ∈ accepted, FitsLine config entry.1 := by
  induction chain with
  | nil => exact fun _ member => absurd member List.not_mem_nil
  | concat earlier submits unknown returned ih =>
    intro entry member
    rcases List.mem_append.mp member with old | last
    · exact ih entry old
    · obtain ⟨_, _, -, fits, -⟩ := acceptBlock_eq_ok.mp returned
      rw [earlier.config_eq] at fits
      rwa [List.mem_singleton.mp last]

private theorem take (count : ℕ) : ∃ early, AcceptedRun lib config (accepted.take count) early := by
  induction chain with
  | nil => exact ⟨_, by rw [List.take_nil]; exact .nil⟩
  | @concat accepted store after normalized nowUnix block acceptance earlier submits unknown returned ih =>
    by_cases inside : count ≤ accepted.length
    · rw [List.take_append_of_le_length inside]
      exact ih
    · rw [List.take_of_length_le (by rw [List.length_append, List.length_singleton]; omega)]
      exact ⟨after, .concat earlier submits unknown returned⟩

end AcceptedRun

/-- A block that was valid at some clock reading is valid at the reading that replaying uses. -/
theorem Admitted.at_replay {branch : Branch} {nowUnix : U64} {node : BlockNode}
    (admitted : Admitted lib config branch nowUnix node) :
    Admitted lib config branch (BitVec.allOnes 64 - maxFutureBlockSeconds) node := by
  refine admitted.at_time ⟨BitVec.allOnes 64, by decide, ?_⟩
  rw [BitVec.le_def, BitVec.toNat_allOnes]
  omega

section Replaying

variable {other : ForkChainStore} {normalized : Text} {nowUnix : U64} {block : Block}
  {acceptance : ForkBlockAcceptance}

/-- Replaying the record of an accepted block stores it again. -/
theorem replayRecord_ok (earlier : AcceptedRun lib config accepted store) (same : SameChain store other)
    (submits : Submits lib normalized normalized block)
    (unknown : store.lookup (blockHash lib block) = none)
    (returned : acceptBlock lib block normalized nowUnix store = .ok acceptance after) (index : ℕ) :
    ∃ otherAfter, replayRecord lib index (blockRecord config normalized) other = .ok () otherAfter ∧
      SameChain after otherAfter ∧ otherAfter.blockLog = other.blockLog := by
  obtain ⟨node, stored, validated, -, storing, reported⟩ := acceptBlock_eq_ok.mp returned
  obtain ⟨isBlock, -, rest, found, -⟩ := earlier.sound.rooted.validated validated
  have only : OnlyMempool stored after := (reportAcceptance_frame _ _ _ stored).of_ok reported
  have soundLogged := (SameChain.logged normalized store).sound earlier.sound
  obtain ⟨otherAfter, otherStoring, chain, log⟩ := ((SameChain.logged normalized store).symm.trans same).storeBlock_ok
    soundLogged unknown found storing
  refine ⟨otherAfter, ?_, (SameChain.of_onlyMempool only).symm.trans chain, log⟩
  rw [isBlock] at found
  have late : other.validateBlock lib block normalized (BitVec.allOnes 64 - maxFutureBlockSeconds) =
      .ok node := by
    obtain ⟨_, text, admitted⟩ := (validateBlock_eq_ok_iff found).mp validated
    rw [same.validateBlock_eq]
    exact (validateBlock_eq_ok_iff found).mpr ⟨isBlock, text, admitted.at_replay⟩
  have absent : blockHash lib block ∉ other.blocks := by
    obtain ⟨_, _, _, rfl⟩ := same
    rw [mem_iff_exists_getElem?]
    rintro ⟨held, present⟩
    rw [lookup, present] at unknown
    cases unknown
  have activation : (blockRecord config normalized).activationId = other.manifest.activationId := by
    obtain ⟨_, _, _, rfl⟩ := same
    rw [← earlier.config_eq]
    rfl
  have version : (blockRecord config normalized).schemaVersion = forkBlockRecordSchemaVersion := rfl
  have text : (blockRecord config normalized).blockHex = normalized := rfl
  rw [replayRecord, Routine.get_bind]
  simp only [require_of_true version, require_of_true activation, text, submits.1, submits.2, require_of_true absent,
    late, Routine.attempt_ok, Routine.settle_ok, pure_bind, otherStoring]

/-- Replaying the records of a chain gives the store that accepted them. -/
theorem AcceptedRun.replayed (chain : AcceptedRun lib config accepted store)
    (same : SameChain (emptyStore config) other) :
    ∃ otherAfter, replayRecords lib 0 ((accepted.map Prod.fst).map (blockRecord config)) other =
        .ok () otherAfter ∧ SameChain store otherAfter ∧ otherAfter.blockLog = other.blockLog := by
  induction chain with
  | nil => exact ⟨other, rfl, same, rfl⟩
  | concat earlier submits unknown returned ih =>
    obtain ⟨middle, replayed, chain, log⟩ := ih
    obtain ⟨final, last, whole, kept⟩ := replayRecord_ok earlier chain submits unknown returned _
    refine ⟨final, ?_, whole, kept.trans log⟩
    rw [List.map_append, List.map_append, List.map_singleton, List.map_singleton, replayRecords_concat,
      Routine.bind_of_ok replayed]
    exact last

end Replaying

/-! ## Crashes and reopening -/

/-- Opening a cut log gives the store that accepted the complete lines. -/
theorem AcceptedRun.reopened {cut : List UInt8} {complete : ℕ} (chain : AcceptedRun lib config accepted store)
    (prepared : prepare lib config.manifest config.transactionUpgrade = .ok config)
    (readsBack : ∀ entry ∈ accepted, ReadsBack read (blockRecord config entry.1))
    (cutting : Cut newline ((accepted.map Prod.fst).map (recordLine config)) cut complete) :
    ∃ early reopened, AcceptedRun lib config (accepted.take complete) early ∧
      openWithTransactionUpgrade lib read config.manifest config.transactionUpgrade cut = .ok reopened ∧
      OnlyMempool early reopened := by
  have readable : ∀ text ∈ accepted.map Prod.fst, Readable read config text := by
    intro text member
    obtain ⟨entry, listed, rfl⟩ := List.mem_map.mp member
    exact ⟨chain.fits entry listed, readsBack entry listed⟩
  have readableTaken : ∀ text ∈ (accepted.take complete).map Prod.fst, Readable read config text := by
    intro text member
    rw [List.map_take] at member
    exact readable text (List.mem_of_mem_take member)
  obtain ⟨early, earlyChain⟩ := chain.take complete
  have repaired := repair_cut cutting readable
  rw [← List.map_take] at repaired
  let start : ForkChainStore :=
    { config with blockLog := logOf config ((accepted.take complete).map Prod.fst) }
  have same : SameChain (emptyStore config) start := ⟨∅, 0, _, rfl⟩
  obtain ⟨final, replayed, whole, log⟩ := earlyChain.replayed same
  have enough : ((accepted.take complete).map Prod.fst).length <
      (logOf config ((accepted.take complete).map Prod.fst)).length + 1 := by
    have bound := length_le_joinLines newline (((accepted.take complete).map Prod.fst).map (recordLine config))
    rw [List.length_map] at bound
    exact Nat.lt_succ_of_le bound
  have opened : replayBlockLog lib read { config with blockLog := cut } = .ok () final := by
    rw [replayBlockLog, Routine.get_bind, repaired, Routine.settle_ok, Routine.pure_bind_apply, Routine.set_bind,
      replayLines_eq readableTaken enough]
    exact replayed
  refine ⟨early, final, earlyChain, ?_, ?_⟩
  · rw [openWithTransactionUpgrade, prepared, except_ok_bind, opened]
  · obtain ⟨mempool, mempoolBytes, blockLog, rfl⟩ := whole
    obtain rfl : blockLog = early.blockLog := log.trans earlyChain.log_eq.symm
    exact ⟨mempool, mempoolBytes, rfl⟩

theorem normalizeBlockHex_idem {blockHex normalized : Text}
    (normalizing : normalizeBlockHex blockHex = .ok normalized) :
    normalizeBlockHex normalized = .ok normalized := by
  simp only [normalizeBlockHex, except_bind_eq_ok, require_eq_ok, exists_const] at normalizing ⊢
  obtain ⟨⟨filled, even, short⟩, digits, lowered⟩ := normalizing
  cases lowered
  rw [byteLength_toAsciiLowercase, all_isAsciiHexDigit_toAsciiLowercase, toAsciiLowercase_idem]
  exact ⟨⟨fun empty => filled (toAsciiLowercase_eq_nil.mp empty), even, short⟩, digits, rfl⟩

/-- What can happen to a store and its log: a call, or a crash that leaves a part of the log, after
which the store is opened on it again with the same manifests. -/
inductive RecoveryOp where
  | call (op : ForkOp)
  | reopen (length : ℕ)

def RecoveryOp.step? (lib : ForkPrimitives) (read : RecordReader) (store : ForkChainStore) :
    RecoveryOp → Option ForkChainStore
  | .call op => op.step? lib store
  | .reopen length => (openWithTransactionUpgrade lib read store.manifest store.transactionUpgrade
      (store.blockLog.take length)).toOption

/-- The submissions of a run, in normal form. -/
def Submitted (ops : List RecoveryOp) (entry : Submission) : Prop :=
  ∃ blockHex, .call (.block blockHex entry.2) ∈ ops ∧ normalizeBlockHex blockHex = .ok entry.1

/-- A store holds what a chain of acceptances stored and logged. -/
def Holds (lib : ForkPrimitives) (config : ForkChainConfig) (accepted : List Submission)
    (store : ForkChainStore) : Prop :=
  ∃ fresh, AcceptedRun lib config accepted fresh ∧ OnlyMempool fresh store

namespace Holds

section

variable (holds : Holds lib config accepted store)
include holds

private theorem config_eq : store.toForkChainConfig = config := by
  obtain ⟨fresh, chain, _, _, rfl⟩ := holds
  exact chain.config_eq

theorem log_eq : store.blockLog = logOf config (accepted.map Prod.fst) := by
  obtain ⟨fresh, chain, _, _, rfl⟩ := holds
  exact chain.log_eq

/-- A call extends the chain by the block it accepts, if any. -/
theorem call {op : ForkOp} (stepped : op.step? lib store = some after) :
    Holds lib config accepted after ∨ ∃ blockHex normalized nowUnix, op = .block blockHex nowUnix ∧
      normalizeBlockHex blockHex = .ok normalized ∧
      Holds lib config (accepted ++ [(normalized, nowUnix)]) after := by
  obtain ⟨fresh, chain, only⟩ := holds
  rcases ForkOp.step?_returned stepped with
    rest | ⟨blockHex, nowUnix, normalized, block, _, rfl, submits, unknown, returned⟩
  · exact .inl ⟨fresh, chain, only.trans rest⟩
  · right
    refine ⟨blockHex, normalized, nowUnix, rfl, submits.1, ?_⟩
    have same : SameChain store fresh := (SameChain.of_onlyMempool only).symm
    have sound : SoundFork lib store := same.symm.sound chain.sound
    have freshUnknown : fresh.lookup (blockHash lib block) = none := by
      obtain ⟨_, _, rfl⟩ := only
      exact unknown
    obtain ⟨_, freshAfter, freshReturned, chainAfter, freshLog⟩ := same.acceptBlock_ok sound unknown returned
    obtain ⟨_, _, again, -, log⟩ := (SameChain.refl store).acceptBlock_ok sound unknown returned
    rw [returned] at again
    cases again
    refine ⟨freshAfter, .concat chain ⟨normalizeBlockHex_idem submits.1, submits.2⟩ freshUnknown freshReturned, ?_⟩
    have logs : after.blockLog = freshAfter.blockLog := by
      obtain ⟨_, _, rfl⟩ := only
      rw [log, freshLog]
      rfl
    obtain ⟨mempool, mempoolBytes, blockLog, rfl⟩ := chainAfter
    obtain rfl : after.blockLog = blockLog := logs
    exact ⟨after.mempool, after.mempoolBytes, rfl⟩

/-- Wherever the log is cut, it can be opened again and gives what its complete lines stored. -/
theorem reopened (prepared : prepare lib config.manifest config.transactionUpgrade = .ok config)
    (readsBack : ∀ entry ∈ accepted, ReadsBack read (blockRecord config entry.1)) (length : ℕ) :
    ∃ complete early reopened, complete ≤ accepted.length ∧
      (∀ count ≤ accepted.length, count ≤ complete ↔
        (logOf config ((accepted.take count).map Prod.fst)).dropLast <+: store.blockLog.take length) ∧
      AcceptedRun lib config (accepted.take complete) early ∧
      openWithTransactionUpgrade lib read config.manifest config.transactionUpgrade
        (store.blockLog.take length) = .ok reopened ∧
      OnlyMempool early reopened := by
  rw [holds.log_eq]
  obtain ⟨fresh, chain, -⟩ := holds
  obtain ⟨complete, cutting⟩ := exists_cut newline ((accepted.map Prod.fst).map (recordLine config)) length
  have filled : ∀ line ∈ (accepted.map Prod.fst).map (recordLine config), line ≠ [] := by
    intro line member
    obtain ⟨text, -, rfl⟩ := List.mem_map.mp member
    exact recordLine_ne_nil config text
  obtain ⟨early, reopened, earlyChain, opened, only⟩ := chain.reopened prepared readsBack cutting
  refine ⟨complete, early, reopened, ?_, ?_, earlyChain, opened, only⟩
  · simpa using cutting.isPrefix.2
  · intro count bound
    rw [cutting.le_complete_iff filled (by simpa using bound), logOf, List.map_take, List.map_take]
    rfl

end

end Holds

/-- A run of calls and crashes keeps the log and the store in step. -/
theorem RecoveryOp.run {ops : List RecoveryOp}
    (prepared : prepare lib config.manifest config.transactionUpgrade = .ok config)
    (readsBack : ∀ entry, Submitted ops entry → ReadsBack read (blockRecord config entry.1))
    (reached : run? (RecoveryOp.step? lib read) (emptyStore config) ops = some store) :
    ∃ accepted, (∀ entry ∈ accepted, Submitted ops entry) ∧ Holds lib config accepted store := by
  refine run?_invariant (fun store => ∃ accepted, (∀ entry ∈ accepted, Submitted ops entry) ∧
    Holds lib config accepted store) reached ⟨[], by simp, _, .nil, .refl _⟩ ?_
  rintro before op after member ⟨accepted, submitted, holds⟩ stepped
  cases op with
  | call op =>
    rcases holds.call stepped with same | ⟨blockHex, normalized, nowUnix, rfl, normalizing, extended⟩
    · exact ⟨accepted, submitted, same⟩
    · refine ⟨_, ?_, extended⟩
      intro entry listed
      rcases List.mem_append.mp listed with old | last
      · exact submitted entry old
      · rw [List.mem_singleton.mp last]
        exact ⟨blockHex, member, normalizing⟩
  | reopen length =>
    obtain ⟨complete, early, reopened, -, -, chain, opened, only⟩ := holds.reopened prepared
      (fun entry listed => readsBack entry (submitted entry listed)) length
    rw [RecoveryOp.step?, holds.config_eq, opened] at stepped
    obtain rfl := Option.some.inj stepped
    exact ⟨accepted.take complete, fun entry listed => submitted entry (List.mem_of_mem_take listed), early,
      chain, only⟩

/-- In every run of calls and crashes the log consists of the records of the accepted blocks. Wherever it
is cut, the store can be opened on what is left and holds exactly what accepting the blocks gives whose
records lie completely within the cut, with or without the last newline, and again logs those records. -/
theorem block_log_recovers (lib : ForkPrimitives) (read : RecordReader) (config : ForkChainConfig)
    (prepared : prepare lib config.manifest config.transactionUpgrade = .ok config) (ops : List RecoveryOp)
    (store : ForkChainStore) (reached : run? (RecoveryOp.step? lib read) (emptyStore config) ops = some store)
    (readsBack : ∀ entry, Submitted ops entry → ReadsBack read (blockRecord config entry.1)) :
    ∃ accepted fresh, (∀ entry ∈ accepted, Submitted ops entry) ∧
      run? (ForkOp.step? lib) (emptyStore config) (submissions accepted) = some fresh ∧
      OnlyMempool fresh store ∧ store.blockLog = logOf config (accepted.map Prod.fst) ∧
      ∀ length, ∃ complete early reopened, complete ≤ accepted.length ∧
        (∀ count ≤ accepted.length, count ≤ complete ↔
          (logOf config ((accepted.take count).map Prod.fst)).dropLast <+: store.blockLog.take length) ∧
        run? (ForkOp.step? lib) (emptyStore config) (submissions (accepted.take complete)) = some early ∧
        openWithTransactionUpgrade lib read config.manifest config.transactionUpgrade
          (store.blockLog.take length) = .ok reopened ∧
        reopened.blocks = early.blocks ∧ reopened.activeTip = early.activeTip ∧
        reopened.activeByHeight = early.activeByHeight ∧ reopened.storedBlockOrder = early.storedBlockOrder ∧
        reopened.explorer = early.explorer ∧
        reopened.blockLog = logOf config ((accepted.take complete).map Prod.fst) := by
  obtain ⟨accepted, submitted, holds⟩ := RecoveryOp.run prepared readsBack reached
  have reopens := holds.reopened prepared (fun entry listed => readsBack entry (submitted entry listed))
  have log := holds.log_eq
  obtain ⟨fresh, chain, only⟩ := holds
  refine ⟨accepted, fresh, submitted, chain.run, only, log, fun length => ?_⟩
  obtain ⟨complete, early, reopened, bound, counted, earlyChain, opened, same⟩ := reopens length
  refine ⟨complete, early, reopened, bound, counted, earlyChain.run, opened, ?_⟩
  obtain ⟨_, _, rfl⟩ := same
  exact ⟨rfl, rfl, rfl, rfl, rfl, earlyChain.log_eq⟩

/-- A reader that knows the given records. -/
def readerOf (records : List ForkBlockRecord) : RecordReader := fun bytes =>
  match records.find? fun record => record.encode = bytes with
  | some record => .ok record
  | none => if records.any fun record => bytes.isPrefixOf record.encode then .error .eof else .error .other

/-- Looking up an entry by a key that no other entry shares. -/
theorem find?_of_key {α β : Type} [DecidableEq β] (key : α → β) {entries : List α} {entry : α} (known : entry ∈ entries)
    (apart : ∀ other ∈ entries, key other = key entry → other = entry) :
    entries.find? (fun other => key other = key entry) = some entry := by
  cases found : entries.find? (fun other => key other = key entry) with
  | none =>
    have unequal := List.find?_eq_none.mp found entry known
    simp at unequal
  | some other =>
    have same := List.find?_some found
    rw [decide_eq_true_eq] at same
    rw [apart other (List.mem_of_find?_eq_some found) same]

theorem readerOf_readsBack {records : List ForkBlockRecord} {record : ForkBlockRecord} (known : record ∈ records)
    (apart : ∀ other ∈ records, other.encode <+: record.encode → other = record) :
    ReadsBack (readerOf records) record := by
  constructor
  · have found := find?_of_key ForkBlockRecord.encode known fun other member same =>
      apart other member (by rw [same])
    rw [readerOf, found]
  · intro part inside _ proper
    have none : records.find? (fun other => other.encode = part) = none := by
      rw [List.find?_eq_none]
      intro other member same
      rw [decide_eq_true_eq] at same
      subst same
      exact proper (congrArg ForkBlockRecord.encode (apart other member inside))
    rw [readerOf, none]
    exact if_pos (List.any_eq_true.mpr ⟨record, known, List.isPrefixOf_iff_prefix.mpr inside⟩)

namespace ForkSample

/-- Two blocks are accepted, a crash tears the record of the second one, and it is submitted again. -/
def crashing : List RecoveryOp :=
  [.call (.block hexA now), .call (.block hexC now), .reopen 700, .call (.block hexC now)]

def records : List ForkBlockRecord := [blockRecord ForkSample.config hexA, blockRecord ForkSample.config hexC]

private theorem readsBack (entry : Submission) (submitted : Submitted crashing entry) :
    ReadsBack (readerOf records) (blockRecord ForkSample.config entry.1) := by
  obtain ⟨apart, normal⟩ : (∀ left ∈ records, ∀ right ∈ records, left.encode <+: right.encode → left = right) ∧
      (normalizeBlockHex hexA).toOption = some hexA ∧ (normalizeBlockHex hexC).toOption = some hexC := by
    decide +kernel
  obtain ⟨blockHex, member, normalizing⟩ := submitted
  have listed : blockRecord ForkSample.config entry.1 ∈ records := by
    have texts : blockHex = hexA ∨ blockHex = hexC := by
      simp only [crashing, List.mem_cons, RecoveryOp.call.injEq, ForkOp.block.injEq, reduceCtorEq, List.not_mem_nil,
        or_false, false_or] at member
      exact member.imp And.left fun later => later.elim And.left And.left
    have same : entry.1 = hexA ∨ entry.1 = hexC := by
      rcases texts with rfl | rfl
      · simp only [normalizing, Except.toOption, Option.some.injEq] at normal
        exact .inl normal.1
      · simp only [normalizing, Except.toOption, Option.some.injEq] at normal
        exact .inr normal.2
    rw [records, List.mem_pair]
    exact same.imp (congrArg _) (congrArg _)
  exact readerOf_readsBack listed fun other known => apart other known _ listed

theorem prepared : prepare library ForkSample.config.manifest ForkSample.config.transactionUpgrade =
    .ok ForkSample.config := by
  have opened : (prepare library ForkSample.config.manifest ForkSample.config.transactionUpgrade).toOption =
      some ForkSample.config := by
    decide +kernel
  cases result : prepare library ForkSample.config.manifest ForkSample.config.transactionUpgrade with
  | error fault =>
    rw [result] at opened
    cases opened
  | ok config =>
    rw [result] at opened
    rw [Option.some.inj opened]

end ForkSample

open ForkSample in
theorem block_log_recovers_sample : ∃ (store : ForkChainStore) (accepted : List Submission),
    run? (RecoveryOp.step? ForkSample.library (readerOf records)) (emptyStore ForkSample.config)
      crashing = some store ∧
    store.activeTip = some hashC ∧ store.blockLog = logOf ForkSample.config (accepted.map Prod.fst) ∧
    ∀ length, ∃ reopened, openWithTransactionUpgrade ForkSample.library (readerOf records)
      ForkSample.config.manifest ForkSample.config.transactionUpgrade (store.blockLog.take length) = .ok reopened := by
  have computed : (run? (RecoveryOp.step? ForkSample.library (readerOf records))
      (emptyStore ForkSample.config) crashing).any (fun store =>
        decide (store.activeTip = some hashC)) = true := by
    decide +kernel
  simp only [Option.any_eq_true, decide_eq_true_eq] at computed
  obtain ⟨store, reached, tip⟩ := computed
  obtain ⟨accepted, _, -, -, -, log, reopens⟩ := block_log_recovers ForkSample.library (readerOf records)
    ForkSample.config prepared crashing store reached readsBack
  refine ⟨store, accepted, reached, tip, log, fun length => ?_⟩
  obtain ⟨_, _, reopened, -, -, -, opened, -⟩ := reopens length
  exact ⟨reopened, opened⟩

end P2PoolBTC.Soundness
