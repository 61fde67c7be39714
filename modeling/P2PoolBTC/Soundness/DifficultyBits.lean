import P2PoolBTC.Model.Node.ForkTemplates
import P2PoolBTC.Soundness.Difficulty

/-! # Difficulty bits

A target with a zero last byte in its mantissa has a second compact encoding. Block validation compares
expanded targets and takes either one, while the templates and the work-template check name one of them.
As long as every submitted block carries canonical bits, the bits of a stored block are the prescribed
ones, and for its children all three agree.
-/

namespace P2PoolBTC.Soundness

open Math Std Model.Core Model.Node ForkChainStore

variable {difficulty : NextDifficulty}

/-- The bits are the ones that encoding their target gives. -/
def CanonicalBits (crypto : ForkCrypto) (bits : U32) : Prop :=
  crypto.targetToCompactLossy (crypto.targetFromCompact bits) = bits

instance (crypto : ForkCrypto) (bits : U32) : Decidable (CanonicalBits crypto bits) :=
  inferInstanceAs (Decidable (_ = _))

/-- A block that a call submits has canonical bits. -/
def ForkOp.SubmitsCanonical (lib : ForkPrimitives) : ForkOp → Prop
  | .block blockHex _ => ∀ normalized block, Submits lib blockHex normalized block →
      CanonicalBits lib.toForkCrypto block.header.bits
  | .transaction _ => True

section Canonical

variable {lib : ForkPrimitives} {config : ForkChainConfig}

private theorem CanonicalBits.eq_of_target {crypto : ForkCrypto} {left right : U32} (first : CanonicalBits crypto left)
    (second : CanonicalBits crypto right) (same : crypto.targetFromCompact left = crypto.targetFromCompact right) :
    left = right := by
  rw [← first, same, second]

variable (rounding : TargetRounding lib.toForkCrypto)
  (schedule : ValidSchedule lib.toForkCrypto config.manifest.config)
include rounding schedule

/-- A block with canonical bits prescribes canonical bits to its children. -/
theorem canonical_difficultyAfter {parent : BlockNode} {height : U64} {time : U32}
    (canonical : CanonicalBits lib.toForkCrypto parent.block.header.bits)
    (prescribed : config.difficultyAfter lib.toForkCrypto parent height time = .ok difficulty) :
    CanonicalBits lib.toForkCrypto difficulty.bits := by
  have spacing := schedule.timespan
  unfold ForkChainConfig.difficultyAfter at prescribed
  cases phase : parent.difficultyPhase with
  | bootstrap =>
    rw [phase] at prescribed
    obtain ⟨_, computed, made⟩ := except_bind_eq_ok.mp prescribed
    obtain ⟨exact_, rfl, -⟩ := nextWorkRequired_ok (by omega) computed
    rw [← Except.ok.inj made]
    exact rounding.canonical exact_
  | bitcoin epochStartHeight epochStartTime =>
    rw [phase] at prescribed
    simp only [except_bind_eq_ok, okOr_eq_ok] at prescribed
    obtain ⟨offset, -, prescribed⟩ := prescribed
    split_ifs at prescribed with inside
    · rw [← Except.ok.inj prescribed]
      exact canonical
    · simp only [except_bind_eq_ok, require_eq_ok, okOr_eq_ok, exists_const] at prescribed
      obtain ⟨-, timespan, epoch, bits, computed, made⟩ := prescribed
      have length := checkedMul_eq_some.mp epoch
      rw [show bitcoinDifficultyAdjustmentInterval.toNat = 2016 from rfl] at length
      obtain ⟨exact_, rfl, -⟩ := nextWorkRequired_ok (by omega) computed
      rw [← Except.ok.inj made]
      exact rounding.canonical exact_

/-- On a branch with canonical bits the prescribed bits are canonical. -/
theorem canonical_difficultyOn {branch : Branch} {height : U64} {time : U32}
    (canonical : ∀ entry ∈ branch, CanonicalBits lib.toForkCrypto entry.2.block.header.bits)
    (prescribed : difficultyOn lib config branch height time = .ok difficulty) :
    CanonicalBits lib.toForkCrypto difficulty.bits := by
  cases branch with
  | nil =>
    rw [← Except.ok.inj prescribed]
    exact schedule.canonical
  | cons parent older =>
    exact canonical_difficultyAfter rounding schedule (canonical parent List.mem_cons_self) prescribed

end Canonical

/-- After calls that submit canonical bits every stored block has canonical bits. -/
theorem canonical_of_stored {lib : ForkPrimitives} {config : ForkChainConfig} {ops : List ForkOp}
    (submitted : ∀ op ∈ ops, op.SubmitsCanonical lib) : ∀ hash node,
      (afterCalls lib config ops).lookup hash = some node →
        CanonicalBits lib.toForkCrypto node.block.header.bits := by
  suffices held : Rooted lib (afterCalls lib config ops) ∧ ∀ hash node,
      (afterCalls lib config ops).lookup hash = some node →
        CanonicalBits lib.toForkCrypto node.block.header.bits from held.2
  refine afterCalls_invariant config (fun store => Rooted lib store ∧ ∀ hash node, store.lookup hash = some node →
    CanonicalBits lib.toForkCrypto node.block.header.bits) ?_ ?_ ops ?_
  · refine ⟨Rooted.afterCalls config [], fun hash node stored => ?_⟩
    rw [emptyStore, lookup_empty] at stored
    cases stored
  · rintro before after same ⟨rooted, canonical⟩
    refine ⟨rooted.sameBlocks same, fun hash node stored => canonical hash node ?_⟩
    rw [lookup] at stored ⊢
    rwa [← same.2]
  · rintro before op member blockHex nowUnix normalized block node rfl submits unknown validated ⟨rooted, canonical⟩
    refine ⟨rooted.insert unknown validated, fun hash held stored => ?_⟩
    obtain ⟨rfl, -⟩ := rooted.validated validated
    have looked := getElem?_insert_eq before.blocks (blockHash lib node.block) hash node
    rw [lookup] at stored
    rw [show ({ before with blocks := before.blocks.insert (blockHash lib node.block) node } : ForkChainStore).blocks =
      before.blocks.insert (blockHash lib node.block) node from rfl, looked] at stored
    split_ifs at stored with own
    · obtain rfl := Option.some.inj stored
      exact submitted _ member normalized node.block submits
    · exact canonical hash held stored

/-! ## What a mining template is made of -/

private theorem miningTemplate_eq_ok {lib : TemplatePrimitives} {store : ForkChainStore} {nowUnix : U64}
    {template : BitcoinMiningJobTemplate} : store.miningTemplate lib nowUnix = .ok template ↔
      ∃ status, store.status = .ok status ∧ ∃ height, checkedAdd status.tipHeight 1 = some height ∧
      ∃ median, store.medianTimePast store.activeTip = .ok median ∧ ∃ minimum, checkedAdd median 1 = some minimum ∧
      ∃ curtime, u32FromNat? (max nowUnix.toNat minimum.toNat) = some curtime ∧
      ∃ difficulty, store.nextDifficulty lib.toForkCrypto store.activeTip height curtime = .ok difficulty ∧
      ∃ chosen, store.templateTransactions lib.toForkPrimitives height = .ok chosen ∧
      ∃ value, checkedAdd (blockSubsidySats height) chosen.2 = some value ∧
      ∃ commitment, defaultWitnessCommitment lib chosen.1 = .ok commitment ∧
      template = {
        version := forkBlockVersion
        previousBlockHash := status.tipHash
        curtime
        bits := bitsText difficulty.bits
        height
        coinbaseValueSats := value
        transactionHashes := chosen.1.map fun transaction =>
          displayHash (computeTxid lib.toForkPrimitives transaction)
        transactions := chosen.1.map fun transaction =>
          { txid := displayHash (computeTxid lib.toForkPrimitives transaction)
            dataHex := hexEncode (lib.serializeTransaction transaction) }
        defaultWitnessCommitment := commitment } := by
  simp only [miningTemplate, except_bind_eq_ok, okOr_eq_ok, pure, Except.pure, Except.ok.injEq,
    eq_comm (a := template)]

/-! ## A second encoding

Three real blocks. The bits prescribed to the third one end in a zero byte, and it carries the other encoding. -/

namespace CoinbaseChain

def recoded : List Mined := outlier.take 1 ++ [
  ⟨1783210660, 0x20622221, 2, 0x98c6b1d03fd00e9f87fb6c7170dd09203472797e553a5dfdc236833491a3a262,
    0xbdedb6ffcd4ea39f2ecdb3659fe0077c97ac81e8255535c1c2d1f0809af09540⟩,
  ⟨1783211130, 0x21004cdf, 4, 0x86226e458147aecb03941c34ad32cdbfa3dda5c7dfc9ae5b69d27249b13bd8bc,
    0x826869988cb243d64a40be6a560357f57e76c9076c35b96b267437f4a1a84d29⟩]

def recodedStore : ForkChainStore := afterCalls (library recoded) config (submissions recoded 1783211200)

def recodedTip : Digest := ForkSample.digestOf 0x826869988cb243d64a40be6a560357f57e76c9076c35b96b267437f4a1a84d29

/-- The recorded library decodes only blocks of the chain. -/
theorem mem_blocks_of_submits {chain : List Mined} {blockHex normalized : Text} {block : Block}
    (submits : Submits (library chain) blockHex normalized block) : block ∈ blocks chain := by
  have decoded := submits.2
  simp only [decodeBlock, except_bind_eq_ok, okOr_eq_ok, require_eq_ok] at decoded
  obtain ⟨bytes, -, -, -, found, parsed, -, -, same⟩ := decoded
  obtain rfl := Except.ok.inj same
  have listed : (bytes, found) ∈ (blocks chain).map fun block => (ForkSample.serializeBlock block, block) := by
    obtain ⟨before, after, split, -⟩ := List.lookup_eq_some_iff.mp parsed
    change (blocks chain).map (fun block => (ForkSample.serializeBlock block, block)) = _ at split
    rw [split]
    exact List.mem_append_right _ List.mem_cons_self
  obtain ⟨member, inside, pair⟩ := List.mem_map.mp listed
  rwa [← (Prod.mk.inj pair).2]

private theorem submitsCanonical_outlier :
    ∀ op ∈ submissions outlier 1783217300, op.SubmitsCanonical (library outlier) := by
  have canonical : ∀ block ∈ blocks outlier, CanonicalBits (library outlier).toForkCrypto block.header.bits := by
    decide +kernel
  intro op member
  obtain ⟨submitted, inside, rfl⟩ := List.mem_map.mp member
  exact fun normalized block submits => canonical block (mem_blocks_of_submits submits)

/-- The library with the functions of templates, which no transaction of the chain needs. -/
def templating : TemplatePrimitives :=
  { library outlier with computeWtxid := fun _ => Digest.zero, sha256d := fun _ => Digest.zero }

end CoinbaseChain

/-! ## The theorem -/

/-- Validation attaches a block with this header to a stored block. -/
def ChildOf (config : ForkChainConfig) (hash : Digest) (header : BlockHeader) : Prop :=
  header.prevBlockhash = hash ∧ header.prevBlockhash ≠ config.inheritedTipHash

/-- After calls that submit blocks with canonical bits, every stored block carries exactly the prescribed bits, and what
a stored block prescribes to its children at a time is what the mining template offers, what the check of work templates
requires and the only canonical bits that block validation takes. -/
theorem difficulty_bits_unique (crypto : Crypto) (lib : TemplatePrimitives) (config : ForkChainConfig)
    (rounding : TargetRounding lib.toForkCrypto)
    (validated : config.manifest.validate lib.toForkCrypto = .ok ()) (ops : List ForkOp)
    (submitted : ∀ op ∈ ops, op.SubmitsCanonical lib.toForkPrimitives) (store : ForkChainStore)
    (reached : store = afterCalls lib.toForkPrimitives config ops) :
    (∀ hash node, store.lookup hash = some node → ∃ difficulty,
      store.nextDifficulty lib.toForkCrypto (store.parentOf node) node.height node.block.header.time =
        .ok difficulty ∧ node.block.header.bits = difficulty.bits) ∧
    ∀ hash node height time, store.lookup hash = some node → checkedAdd node.height 1 = some height → ∃ difficulty,
      store.nextDifficulty lib.toForkCrypto (some hash) height time = .ok difficulty ∧
      (∀ nowUnix template, store.activeTip = some hash → store.miningTemplate lib nowUnix = .ok template →
        template.curtime = time → template.bits = bitsText difficulty.bits) ∧
      (∀ template nowUnix validation header,
        store.validateWorkTemplate crypto lib.toForkPrimitives template nowUnix = .ok validation →
        decodeHeaderPrefix template.headerPrefixHex = .ok header → ChildOf config hash header → header.time = time →
          header.bits = difficulty.bits) ∧
      (∀ header : BlockHeader, CanonicalBits lib.toForkCrypto header.bits →
        (ValidPow lib.toForkPrimitives header (lib.targetFromCompact difficulty.bits) ↔
          header.bits = difficulty.bits ∧ littleEndian (lib.headerHash header).bytes ≤
            (lib.targetFromCompact difficulty.bits).toNat)) ∧
      ∀ block blockHex nowUnix child, ChildOf config hash block.header → block.header.time = time →
        CanonicalBits lib.toForkCrypto block.header.bits →
        store.validateBlock lib.toForkPrimitives block blockHex nowUnix = .ok child →
          block.header.bits = difficulty.bits := by
  have configured : store.toForkChainConfig = config := reached ▸ afterCalls_config config ops
  have schedule := validSchedule_of_validate validated
  have rooted : Rooted lib.toForkPrimitives store := reached ▸ Rooted.afterCalls config ops
  have canonical : ∀ hash node, store.lookup hash = some node →
      CanonicalBits lib.toForkCrypto node.block.header.bits := reached ▸ canonical_of_stored submitted
  constructor
  · intro hash node stored
    obtain ⟨rest, found, valid⟩ := rooted hash node stored
    cases found with
    | entry known above =>
      obtain ⟨bits, prescribed, target⟩ := valid.difficulty_eq
      rw [configured] at prescribed
      refine ⟨_, by rw [BranchOf.nextDifficulty_eq above, configured]; exact prescribed, ?_⟩
      have rest_canonical := canonical_difficultyOn rounding schedule
        (fun entry member => canonical entry.1 entry.2 (Trail.stored_of_mem above member)) prescribed
      exact (canonical hash node stored).eq_of_target rest_canonical target
  · intro hash node height time stored next
    obtain ⟨rest, found, valid⟩ := rooted hash node stored
    rw [configured] at valid
    have sum := checkedAdd_eq_some.mp next
    obtain ⟨difficulty, prescribed⟩ := exists_difficultyAfter schedule sum
      (fun _ _ phase => valid.epoch_held schedule phase) time
    have looked : store.nextDifficulty lib.toForkCrypto (some hash) height time = .ok difficulty := by
      rw [nextDifficulty, stored, okOr_some, except_ok_bind, configured, prescribed]
    have required := canonical_difficultyAfter rounding schedule (canonical hash node stored) prescribed
    have same_bits {bits : U32} (own : CanonicalBits lib.toForkCrypto bits)
        (target : lib.targetFromCompact bits = lib.targetFromCompact difficulty.bits) :
        bits = difficulty.bits := own.eq_of_target required target
    refine ⟨difficulty, looked, ?_, ?_, ?_, ?_⟩
    · rintro nowUnix template tip offered rfl
      obtain ⟨reported, status, height', sum', median, -, minimum, -, curtime, -, computed, same, chosen, -, value, -,
        commitment, -, rfl⟩ := miningTemplate_eq_ok.mp offered
      rw [status_of_tip tip stored] at status
      obtain rfl := Except.ok.inj status
      obtain rfl := Option.some.inj (next.symm.trans sum')
      rw [tip, looked] at same
      rw [Except.ok.inj same]
    · rintro template nowUnix validation header checked decoded ⟨rfl, forked⟩ rfl
      simp only [validateWorkTemplate, decoded, except_ok_bind, except_bind_eq_ok, require_eq_ok, exists_const,
        workTemplateParent, configured, if_neg forked, stored, okOr_some, next] at checked
      obtain ⟨-, -, -, attached, ⟨-, same⟩, computed, prescribed', equal, -⟩ := checked
      cases same
      rw [looked] at prescribed'
      rw [equal, Except.ok.inj prescribed']
    · intro header own
      constructor
      · rintro ⟨target, small⟩
        exact ⟨same_bits own target, small⟩
      · rintro ⟨equal, small⟩
        exact ⟨by rw [equal], small⟩
    · rintro block blockHex nowUnix child ⟨rfl, forked⟩ rfl own accepted
      obtain ⟨rfl, -, older, attached, extended⟩ := rooted.validated accepted
      rw [ForkChainConfig.attachment, configured, if_neg forked] at attached
      obtain rfl := Trail.unique attached found
      obtain ⟨bits, prescribed', target⟩ := extended.difficulty_eq
      have counted : child.height = height := BitVec.eq_of_toNat_eq (by
        have upper := extended.height_eq
        have lower := (extended.of_suffix (List.suffix_cons _ _)).height_eq
        rw [List.length_cons] at upper
        have one : (1 : U64).toNat = 1 := rfl
        omega)
      rw [configured, counted] at prescribed'
      obtain rfl := Except.ok.inj (prescribed.symm.trans prescribed')
      exact same_bits own target

open CoinbaseChain in
theorem difficulty_bits_unique_sample : ∃ node difficulty,
    CoinbaseChain.store.lookup (hashAt 11) = some node ∧
    CoinbaseChain.store.nextDifficulty (CoinbaseChain.library outlier).toForkCrypto
      (CoinbaseChain.store.parentOf node) node.height node.block.header.time = .ok difficulty ∧
    node.block.header.bits = difficulty.bits := by
  obtain ⟨-, stored, -⟩ := store_computed
  obtain ⟨node, known⟩ := Option.isSome_iff_exists.mp stored
  obtain ⟨unique, -⟩ := difficulty_bits_unique (.ofTables {}) templating CoinbaseChain.config
    (targetRounding_ofTables _) (by decide +kernel) _ submitsCanonical_outlier CoinbaseChain.store rfl
  obtain ⟨difficulty, prescribed, equal⟩ := unique _ node known
  exact ⟨node, difficulty, known, prescribed, equal⟩

open CoinbaseChain in
/-- The third block is stored with other bits than the ones prescribed to it. -/
theorem difficulty_bits_recoded :
    CoinbaseChain.config.manifest.validate (CoinbaseChain.library recoded).toForkCrypto = .ok () ∧
    ∃ node, recodedStore.lookup recodedTip = some node ∧
      node.block.header.bits = 0x21004cdf ∧
      recodedStore.nextDifficulty (CoinbaseChain.library recoded).toForkCrypto
        (recodedStore.parentOf node) node.height node.block.header.time =
          .ok { bits := 0x204cdf00, phase := .bootstrap } := by
  have computed : (recodedStore.lookup recodedTip).any (fun node => decide (
      node.block.header.bits = 0x21004cdf ∧
      recodedStore.nextDifficulty (CoinbaseChain.library recoded).toForkCrypto
        (recodedStore.parentOf node) node.height node.block.header.time =
          .ok { bits := 0x204cdf00, phase := .bootstrap })) = true := by
    decide +kernel
  simp only [Option.any_eq_true, decide_eq_true_eq] at computed
  exact ⟨by decide +kernel, computed⟩

end P2PoolBTC.Soundness
