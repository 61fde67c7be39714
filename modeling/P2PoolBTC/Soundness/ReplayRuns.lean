import P2PoolBTC.Soundness.CheckpointFinality

/-! # Runs of the replay state

A replay state changes only through the calls listed here. Whatever their order, every state reached
by calls that return has a sound share tree and a chain of final checkpoints.
-/

namespace P2PoolBTC.Soundness

open Math Model.Core Std SharechainReplayState

/-- The calls that change a replay state. -/
inductive ReplayOp where
  | acceptBitcoinWorkTemplatePrefix (headerPrefixHex : Text)
  | acceptBitcoinWorkTemplate (template : BitcoinWorkTemplate)
  | applyMessage (message : SharechainMessage)
  | applyConfirmedPayoutSchedule (schedule : PayoutSchedule) (accounts : List ParticipantAccount)
      (rewardSats : Sats) (directLimit : U64) (minDirectPayoutSats : Sats)
  | replaceClaimLedger (claimLedger : ClaimLedger)

/-- The state after a routine that returns. -/
def stateAfter? {σ ε α : Type} (routine : Routine σ ε α) (before : σ) : Option σ :=
  match routine before with
  | .ok _ after => some after
  | .error _ _ => none

theorem stateAfter?_eq_some {σ ε α : Type} {routine : Routine σ ε α} {before after : σ} :
    stateAfter? routine before = some after ↔ ∃ value, routine before = .ok value after := by
  unfold stateAfter?
  cases routine before <;> simp

/-- One call, when it returns. -/
def ReplayOp.step? (crypto : Crypto) (state : SharechainReplayState) : ReplayOp → Option SharechainReplayState
  | .acceptBitcoinWorkTemplatePrefix headerPrefixHex =>
    stateAfter? (SharechainReplayState.acceptBitcoinWorkTemplatePrefix crypto headerPrefixHex) state
  | .acceptBitcoinWorkTemplate template =>
    stateAfter? (SharechainReplayState.acceptBitcoinWorkTemplate crypto template) state
  | .applyMessage message => stateAfter? (SharechainReplayState.applyMessage crypto message) state
  | .applyConfirmedPayoutSchedule schedule accounts rewardSats directLimit minDirectPayoutSats =>
    stateAfter? (SharechainReplayState.applyConfirmedPayoutSchedule crypto schedule accounts rewardSats
      directLimit minDirectPayoutSats) state
  | .replaceClaimLedger claimLedger => stateAfter? (SharechainReplayState.replaceClaimLedger claimLedger) state

/-- The shares of a list of calls. -/
def sharesOf (ops : List ReplayOp) : Set Share := { mined | .applyMessage (.share mined) ∈ ops }

section Calls

variable {crypto : Crypto} {mined : Set Share} {state after : SharechainReplayState}

/-- One call touches the share tree through a message, or not at all. -/
inductive Stepped (crypto : Crypto) (state after : SharechainReplayState) : ReplayOp → Prop
  | message {message : SharechainMessage} {middle : SharechainReplayState}
      (fresh : message.messageHash crypto ∉ state.appliedMessageHashes)
      (handled : Handled crypto state message middle) (marks : after = marked crypto message middle) :
      Stepped crypto state after (.applyMessage message)
  | ignored {message : SharechainMessage} (known : message.messageHash crypto ∈ state.appliedMessageHashes)
      (same : after = state) : Stepped crypto state after (.applyMessage message)
  | accepted {op : ReplayOp} (prefixes : ExtTreeMap Text Text) (ledger : ClaimLedger)
      (other : ∀ message, op ≠ .applyMessage message)
      (effect : after = { state with
        acceptedBitcoinWorkTemplatePrefixes := prefixes
        claimLedger := ledger }) : Stepped crypto state after op

/-- A prefix that was accepted after a check. -/
theorem acceptPrefix_ok {α : Type} {check : Except SharechainReplayError α} {templateHash : α → Text}
    {headerPrefixHex hash : Text}
    (returned : (do acceptPrefix (templateHash (← attempt check)) headerPrefixHex) state = .ok hash after) :
    ∃ prefixes, after = { state with acceptedBitcoinWorkTemplatePrefixes := prefixes } := by
  simp only [acceptPrefix, Routine.get_bind, Routine.modify_bind, Routine.bind_eq_ok, Routine.attempt_eq_ok] at returned
  obtain ⟨_, _, ⟨-, rfl⟩, _, _, ⟨-, rfl⟩, returned⟩ := returned
  cases returned
  exact ⟨_, rfl⟩

theorem ReplayOp.stepped {op : ReplayOp} (step : op.step? crypto state = some after) :
    Stepped crypto state after op := by
  cases op with
  | acceptBitcoinWorkTemplatePrefix headerPrefixHex =>
    obtain ⟨hash, returned⟩ := stateAfter?_eq_some.mp step
    obtain ⟨prefixes, rfl⟩ := acceptPrefix_ok returned
    exact .accepted prefixes state.claimLedger (by simp) rfl
  | acceptBitcoinWorkTemplate template =>
    obtain ⟨hash, returned⟩ := stateAfter?_eq_some.mp step
    obtain ⟨prefixes, rfl⟩ := acceptPrefix_ok returned
    exact .accepted prefixes state.claimLedger (by simp) rfl
  | applyMessage message =>
    obtain ⟨outcome, returned⟩ := stateAfter?_eq_some.mp step
    rcases applyMessage_ok returned with ⟨known, -, same⟩ | ⟨fresh, -, middle, handled, marks⟩
    · exact .ignored known same
    · exact .message fresh handled marks
  | applyConfirmedPayoutSchedule schedule accounts rewardSats directLimit minDirectPayoutSats =>
    obtain ⟨done, returned⟩ := stateAfter?_eq_some.mp step
    simp only [SharechainReplayState.applyConfirmedPayoutSchedule, Routine.get_bind, Routine.bind_eq_ok,
      Routine.attempt_eq_ok] at returned
    obtain ⟨_, _, ⟨-, rfl⟩, returned⟩ := returned
    obtain ⟨ledger, -, rfl⟩ := Routine.focus_eq_ok.mp returned
    exact .accepted state.acceptedBitcoinWorkTemplatePrefixes ledger (by simp) rfl
  | replaceClaimLedger claimLedger =>
    obtain rfl := Option.some.inj step
    exact .accepted state.acceptedBitcoinWorkTemplatePrefixes claimLedger (by simp) rfl

/-- What holds of the share tree of every reachable state. -/
structure SoundState (crypto : Crypto) (mined : Set Share) (state : SharechainReplayState) : Prop where
  tree : SoundTree crypto mined state.toShareTree
  chain : CheckpointChain state.toShareTree

/-- What later states keep of a share tree. -/
structure Extends (before after : ShareTree) : Prop where
  checkpoints : ∀ (round : U32) (checkpoint : SharechainCheckpointAnchorV1),
    before.sharechainCheckpoints[round]? = some checkpoint →
      after.sharechainCheckpoints[round]? = some checkpoint
  parents : ∀ child parent, parentOf before.shares child = some parent →
    parentOf after.shares child = some parent

theorem Extends.refl (tree : ShareTree) : Extends tree tree := ⟨fun _ _ stored => stored, fun _ _ link => link⟩

private theorem Extends.trans {first second third : ShareTree} (early : Extends first second)
    (late : Extends second third) : Extends first third where
  checkpoints round checkpoint stored := late.checkpoints round checkpoint (early.checkpoints _ _ stored)
  parents child parent link := late.parents child parent (early.parents child parent link)

private theorem Inserted.extends {share : Share} {before later : ShareTree}
    (inserted : Inserted crypto share before later) (admits : Admits crypto before share) : Extends before later where
  checkpoints round checkpoint stored := by
    rw [inserted.checkpoints_eq]
    exact stored
  parents child parent link := by
    obtain ⟨node, stored, -⟩ := stored_of_parentOf link
    rw [parentOf_congr inserted.skeleton_eq, admitted, parentOf_withShare,
      if_neg (ne_of_stored admits.fresh stored)]
    exact link

/-- A handled message keeps the tree sound and everything final. -/
theorem Handled.sound {message : SharechainMessage} (handled : Handled crypto state message after)
    (sound : SoundState crypto mined state) (acyclic : AcyclicShares crypto mined)
    (member : ∀ share, message = .share share → share ∈ mined) :
    SoundState crypto mined after ∧ Extends state.toShareTree after.toShareTree := by
  have unchanged : SoundState crypto mined state ∧ Extends state.toShareTree state.toShareTree :=
    ⟨sound, .refl _⟩
  cases handled with
  | registrationKept => exact unchanged
  | registered => exact ⟨⟨sound.tree, sound.chain⟩, .refl _⟩
  | templated => exact ⟨⟨sound.tree, sound.chain⟩, .refl _⟩
  | @shared share tree _ applied =>
    rcases applyShare_ok sound.tree acyclic (member share rfl) applied with ⟨admits, soundLater, inserted, -⟩ | ⟨rfl, -⟩
    · have grows := inserted.extends admits
      exact ⟨⟨soundLater, sound.chain.mono sound.tree.scored soundLater.scored inserted.checkpoints_eq
        grows.parents inserted.keeps⟩, grows⟩
    · exact unchanged
  | checkpointKept => exact unchanged
  | @checkpointed checkpoint tree accepted rebuilt =>
    obtain ⟨soundTree, only⟩ := accepted.sound sound.tree rebuilt
    have lower : IsAsciiLowercase checkpoint.normalized.shareTipHash := isAsciiLowercase_toAsciiLowercase _
    have chain := accepted.chain lower sound.chain sound.tree.scored
    refine ⟨⟨soundTree, ?_⟩, ?_⟩
    · exact chain.mono sound.tree.scored soundTree.scored (by rw [only])
        (by rw [only.shares_eq]; exact fun _ _ link => link)
        (by rw [only.shares_eq]; exact fun _ _ resolved => resolved)
    · refine ⟨fun round stored present => ?_, ?_⟩
      · rw [only, getElem?_insert_eq, if_neg]
        · exact present
        · rintro rfl
          rw [accepted.fresh] at present
          cases present
      · rw [only.shares_eq]
        exact fun _ _ link => link
  | voted => exact ⟨⟨sound.tree, sound.chain⟩, .refl _⟩
  | proposalKept => exact unchanged
  | proposed => exact ⟨⟨sound.tree, sound.chain⟩, .refl _⟩
  | requestKept => exact unchanged
  | requested => exact ⟨⟨sound.tree, sound.chain⟩, .refl _⟩
  | batchKept => exact unchanged
  | batched => exact ⟨⟨sound.tree, sound.chain⟩, .refl _⟩
  | committed => exact unchanged

/-- A call that returns keeps the tree sound and everything final. -/
theorem SoundState.step {op : ReplayOp} (sound : SoundState crypto mined state)
    (acyclic : AcyclicShares crypto mined) (member : ∀ share, op = .applyMessage (.share share) → share ∈ mined)
    (step : op.step? crypto state = some after) :
    SoundState crypto mined after ∧ Extends state.toShareTree after.toShareTree := by
  cases ReplayOp.stepped step with
  | ignored _ same =>
    subst same
    exact ⟨sound, .refl _⟩
  | @message message middle fresh handled marks =>
    subst marks
    obtain ⟨soundMiddle, grows⟩ := handled.sound sound acyclic (fun share same => member share (by rw [same]))
    exact ⟨⟨soundMiddle.tree, soundMiddle.chain⟩, grows⟩
  | accepted prefixes ledger other effect =>
    subst effect
    exact ⟨⟨sound.tree, sound.chain⟩, .refl _⟩

theorem SoundState.initial (crypto : Crypto) (mined : Set Share) : SoundState crypto mined {} :=
  ⟨SoundTree.initial crypto mined, CheckpointChain.initial⟩

section Runs

variable {ops : List ReplayOp} {start : SharechainReplayState}

theorem SoundState.run (sound : SoundState crypto mined start) (acyclic : AcyclicShares crypto mined)
    (within : sharesOf ops ⊆ mined) (reached : run? (ReplayOp.step? crypto) start ops = some state) :
    SoundState crypto mined state ∧ Extends start.toShareTree state.toShareTree := by
  have step : ∀ before op after, op ∈ ops → SoundState crypto mined before →
      ReplayOp.step? crypto before op = some after →
        SoundState crypto mined after ∧ Extends before.toShareTree after.toShareTree :=
    fun before op after listed held taken =>
      held.step acyclic (fun share same => within (same ▸ listed : .applyMessage (.share share) ∈ ops)) taken
  constructor
  · exact run?_invariant _ reached sound fun before op after listed held taken =>
      (step before op after listed held taken).1
  · refine run?_relates (SoundState crypto mined) (fun before after => Extends before.toShareTree after.toShareTree)
      reached sound (fun state => .refl _) ?_ step
    intro first second third early late
    exact early.trans late

theorem soundState_of_run (acyclic : AcyclicShares crypto (sharesOf ops))
    (reached : run? (ReplayOp.step? crypto) {} ops = some state) : SoundState crypto (sharesOf ops) state :=
  ((SoundState.initial crypto _).run acyclic subset_rfl reached).1

end Runs

end Calls

namespace Sample

/-! A small chain, with hashes and signatures as the primitives compute them: one registered miner,
two templates with one header, a root share, two children of it, and a checkpoint. -/

def miningKey : Text :=
  hexText 64 0x531fe6068134503d2723133227c867ac8fa6c83c537e9a44c3c5bdbdcb1fe337

def ownerKey : Text :=
  hexText 64 0x989c0b76cb563971fdc9bef31ec06c3560f3249d6ee9e5d83c57625596e05f6f

def idenaAddress : Text :=
  '0' :: 'x' :: hexText 40 0xd09ad14080d4b257a819a4f579b8485be88f086c

def contractAddress : Text :=
  '0' :: 'x' :: hexText 40 0x2222222222222222222222222222222222222222

def experimentId : Text :=
  "pohw-experiment".toList

/-- A registration in the contract of the experiment. -/
def registeredAt (registrationSequence : U32) (registrationBlock : U64) (registrationTimestamp : ℤ)
    (registrationCommitment : Text) : MinerRegistryAnchorV1 :=
  { contractAddress
    experimentId
    registrationSequence
    registrationBlock
    registrationEpoch := 1
    registrationTimestamp
    registrationCommitment }

def registrationOf (minerId : String) (idenaAddress : Text) (payoutScript : ℕ)
    (claimOwnerPubkeyHex miningPubkeyHex : Text) (registryAnchor : MinerRegistryAnchorV1)
    (idenaSignatureHex miningSignatureHex : Text) : MinerRegistration :=
  { version := 2
    minerId := minerId.toList
    idenaAddress
    btcPayoutScriptHex := hexText 44 payoutScript
    claimOwnerPubkeyHex
    miningPubkeyHex
    registryAnchor
    idenaSignatureHex
    miningSignatureHex }

def registryAnchor : MinerRegistryAnchorV1 := registeredAt 1 100 1700000000
  (hexText 64 0x697652b6498e820c3360899298b6d0c90d4f165e172443fd3f17a6044bef5657)

def registration : MinerRegistration :=
  registrationOf "alice" idenaAddress 0x00141111111111111111111111111111111111111111
    ownerKey miningKey registryAnchor
    (hexText 64 0xc278c75f79cfe56a2f3075bd1f34ffbcd0bed0e1c4ee47a02d6e9f3a1c588aa3 ++
      hexText 64 0x076ad93e01ebdf1cafd84702181e61d87296ffa3bec51dc3d8bc585bcd57ced3 ++ hexText 2 0x01)
    (hexText 64 0x97c9a308e882354f4d23bc4ac7900938dd6ee358981fdc8f92e6d1e566fb82a3 ++
      hexText 64 0xbce3d1e477eafa252d56e058d9343908624ef7aae314419b355efd3780a3404c)

def headerPrefix : Text :=
  hexText 64 0x0000002033333333333333333333333333333333333333333333333333333333 ++
    hexText 64 0x3333333344444444444444444444444444444444444444444444444444444444 ++
    hexText 24 0x4444444400f15365ffff7f20

/-- Two templates that differ in their time only, and so share their hash. -/
def templateAt (createdAtUnix : ℤ) (miningSignatureHex : Text) : BitcoinWorkTemplate :=
  { version := 1
    minerId := "alice".toList
    headerPrefixHex := headerPrefix
    templateHash := hexText 64 0x4ecaec504b5d5ceac573e6400d9ae9820903d89bab65b5232679d9792b6556d3
    assignedShareTarget := none
    idenaAnchor := none
    idenaAnchorPolicyHash := none
    createdAtUnix
    miningSignatureHex }

def template : BitcoinWorkTemplate := templateAt 1700000001
  (hexText 64 0x0b99804eaa900fae57e202bbec37e7623a7eecf5f715e543494fe7e6cf606062 ++
    hexText 64 0x6958563e206d64ce0dd9646daafe93c76d873997c79d4928f25c74a4da2c234c)

def laterTemplate : BitcoinWorkTemplate := templateAt 1700000002
  (hexText 64 0x4965ac395c7408c7e8653066a9b2336a331ccf45d3f6a059d906fcaefa2ef83c ++
    hexText 64 0xd2f4b4134c804601cb324db649c0272bf7b5372b8c9c42c8cf3f446dd713d012)

def shareAt (nonceHex workHash parentShareHash miningSignatureHex : Text) : Share :=
  { minerId := "alice".toList
    bitcoinHeaderHex := headerPrefix ++ nonceHex
    bitcoinTemplateHash := template.templateHash
    nonceHex
    workHash
    target := hexText 64 (0x7fffff * 2 ^ 232)
    idenaSnapshotId := "2024-01-01".toList
    idenaSnapshotProofRoot := hexEncode (List.replicate 32 0x55)
    hashrateScoreDelta := 1
    parentShareHash
    workBinding := none
    miningSignatureHex }

def rootShareHash : Text := hexText 64 0x52aa1369622416373d80c827bfe3ad09dc110ab124ad4070435a31b40a9d49cb

def rootShare : Share := shareAt (hexText 8 0x01000000)
  (hexText 64 0x4ebcdcc21445818e11387f3886006501c9d5844cd0818f14fc7512bd95997048) zeroShareParentHash
  (hexText 64 0x73100e127e27673b3d979c4287a9f7120c1e187f926539742167947e537b56f2 ++
    hexText 64 0x525cb3ec33589a53813e9db8c2bba0261cb797707a8f6eaaefeb4916a5f6030d)

def childShareHash : Text := hexText 64 0x57925f6addd75bc0dd671db6c4aaed60f68e8237fb40c022be287992e2877dfd

def childShare : Share := shareAt (hexText 8 0x02000000)
  (hexText 64 0x5ef1f35a9a1c30b0084597ae08cba085c1965468c3fe930bf29860dc10804fe6) rootShareHash
  (hexText 64 0xf98cd4cb352a01f71b04cb13abbfefc69196d0f6cadb4ece31f1bee6f0740c3d ++
    hexText 64 0x34968d54085f5c0503573d16865304efad750368ae6bcdb8df5312e21a252ae7)

def forkShareHash : Text := hexText 64 0xb05cc90806536e95ae4303685ea3e7ca19fd031b1b8309bd751d07845561cb62

def forkShare : Share := shareAt (hexText 8 0x04000000)
  (hexText 64 0x2fc965b5bb2de8c8003e8b95139d7a4d0d1f73eed94b551e57604de0277fde79) rootShareHash
  (hexText 64 0x0bddf22c52f4d62cdb99065434f5b69eb5eb204e9b90893df1590bccde351a7e ++
    hexText 64 0x0a0b8953b41c752695094c9b88edc3f154845362d98646254718e000c1ca774b)

def checkpoint : SharechainCheckpointAnchorV1 :=
  { contractAddress
    experimentId
    round := 1
    shareTipHash := childShareHash
    shareHeight := 2
    cumulativeScore := "2".toList
    parentCheckpointTip := zeroShareParentHash
    finalizationBlock := 200
    finalizationBlockHash :=
      '0' :: 'x' :: hexEncode (List.replicate 32 0x66)
    finalizationEpoch := 1
    finalizationTimestamp := 1700000100
    supportCount := 1
    registeredCount := 1
    registeredMiners := ["alice".toList]
    supporters := ["alice".toList] }

/-- The values on a registration: the signed text is hashed twice, and its signature recovers the identity's key. -/
def withRegistration (registration : MinerRegistration) (digest messageHash once twice parity : ℕ) (identityKey : Text)
    (keyHash : ℕ) (tables : CryptoTables) : CryptoTables :=
  let digest := hexText 64 digest
  .withSigned (.minerRegistration registration.signingPayload) (.minerRegistration registration)
    registration.miningSignatureHex registration.miningPubkeyHex digest (hexText 64 messageHash)
    { tables with
      sha256Tagged := (.minerRegistryCommitment (registration.registryCommitmentPayload experimentId),
        registration.registryAnchor.elim [] MinerRegistryAnchorV1.registrationCommitment) :: tables.sha256Tagged
      keccak256 := [
        (hexEncode (utf8Bytes ("signin-pohw1-miner-registration-".toList ++ digest)), hexText 64 once),
        (hexText 64 once, hexText 64 twice),
        (identityKey, hexText 24 keyHash ++ registration.idenaAddress.drop 2)] ++ tables.keccak256
      publicKeys := registration.miningPubkeyHex :: registration.claimOwnerPubkeyHex :: tables.publicKeys
      recoveries := (registration.idenaSignatureHex.take 128, parity, hexText 64 twice, hexText 2 4 ++ identityKey) ::
        tables.recoveries }

def withTemplate (template : BitcoinWorkTemplate) (digest messageHash : ℕ) : CryptoTables → CryptoTables :=
  .withSigned (.bitcoinWorkTemplate template.signingPayload) (.bitcoinWorkTemplate template)
    template.miningSignatureHex miningKey (hexText 64 digest) (hexText 64 messageHash)

def withShare (share : Share) (digest : ℕ) (shareHash : Text) (tables : CryptoTables) : CryptoTables :=
  .withSigned (.share share.signingPayload) (.share share) share.miningSignatureHex miningKey (hexText 64 digest)
    shareHash
    { tables with
      sha256d := (share.bitcoinHeaderHex, hexEncode (Digest.ofHex share.workHash).bytes.reverse) :: tables.sha256d }

def identityKey : Text :=
  hexText 64 0x62c0a046dacce86ddd0343c6d3c7c79c2208ba0d9c9cf24a6d046d21d21f90f7 ++
    hexText 64 0x6d83f6a6ff2df8664ec7b804ab1362cc95403e4374d1819e0840bd8a8817800d

/-- The values of the primitives on the sample chain. -/
def tables : CryptoTables :=
  withRegistration registration
    0x80c7192a725b011fa1842cb84accc7b4018ee6b989b31f40d3df894325153f9b
    0x3925efdb18ca474f4c0ce249bfee609687f09c33b8e8818686b270138b3c4df7
    0xddca03a4d16aa2dc0229891cc7557be95f16169a05e82377457717886341b963
    0x8dded7387cf24fb07ad0e6250960dc04880e0b8ab541d2114ddf0b2f6b80453d 1 identityKey 0x0ac0cd74a44c6bb4ff0a671e <|
  withTemplate template
    0x6aa2bfdf7bffd7c825794cd3270b136ce68bb778dd698d80379c21bd7ba79d41
    0x1d6e1f0da8d337498dd7529c18c1f2d4bcb4b3fdd7281d0bfa13f1742e0d5860 <|
  withTemplate laterTemplate
    0xe408c6f993764917a26f00ccf57df73fce29b9a0ea82cbffd8d91d7ba79cf2a5
    0x60d1580e0b25cff0349b08d8a54ac09bddb5dc54d811a5cfaefbd9b0cbcf1958 <|
  withShare rootShare 0x42f2cc5558baf82c01c187429819a2fdaeb721537b679fbdd4b627f042ae8def rootShareHash <|
  withShare childShare 0x9fc1d0c42086db21442e617b8a93f62b27a163ce30f891ff3beb685bc6a0babf childShareHash <|
  withShare forkShare 0x8e8d1a179d0a3891b18fd3f99df7ad61b8335a7cfe64266972dfbef964bd6296 forkShareHash
    { sha256Tagged := [
        (.btcTemplate ((hexDecode? headerPrefix).getD []), template.templateHash),
        (.sharechainMessage (.sharechainCheckpoint checkpoint),
          hexText 64 0xf58deed36cd3b07e7b144911cd0aeb6cad09d30b033140b49db02dbca92942e5)] }

def crypto : Crypto := .ofTables tables

/-- The child arrives before its parent; a checkpoint then finalizes it against the fork. -/
def ops : List ReplayOp :=
  [.acceptBitcoinWorkTemplate template, .applyMessage (.minerRegistration registration),
    .applyMessage (.bitcoinWorkTemplate template), .applyMessage (.share childShare),
    .applyMessage (.share rootShare), .applyMessage (.sharechainCheckpoint checkpoint),
    .applyMessage (.share forkShare)]

theorem reached : (run? (ReplayOp.step? crypto) {} ops).isSome = true := by decide +kernel

theorem acyclic : AcyclicShares crypto (sharesOf ops) := by
  apply AcyclicShares.of_rank fun hash =>
    if hash = zeroShareParentHash then 0 else if hash = rootShareHash then 1 else 2
  intro share mined
  have listed : share = childShare ∨ share = rootShare ∨ share = forkShare := by
    simpa [sharesOf, ops] using mined
  rcases listed with rfl | rfl | rfl <;> decide +kernel

end Sample

/-- In every reachable state the indices describe the stored shares exactly: the children of each
hash, the only root, and a one-to-one credit of work hashes. A share is resolved exactly when all
its ancestors are stored, with the score and the height of its path to the root. -/
theorem reachable_share_index_exact (crypto : Crypto) (ops : List ReplayOp) (state : SharechainReplayState)
    (acyclic : AcyclicShares crypto (sharesOf ops))
    (reached : run? (ReplayOp.step? crypto) {} ops = some state) :
    (∀ parent hash, hash ∈ state.childrenOf parent ↔
      ∃ node, state.shares[hash]? = some node ∧ node.parentShareHash = parent) ∧
    (∀ (hash other : Text) (node otherNode : ShareNode), state.shares[hash]? = some node →
      state.shares[other]? = some otherNode → node.parentShareHash = zeroShareParentHash →
      otherNode.parentShareHash = zeroShareParentHash → hash = other) ∧
    (∀ (work hash : Text), state.shareHashByWorkHash[work]? = some hash ↔
      ∃ node, state.shares[hash]? = some node ∧ toAsciiLowercase node.share.workHash = work) ∧
    (∀ (hash other : Text) (node otherNode : ShareNode), state.shares[hash]? = some node →
      state.shares[other]? = some otherNode →
      toAsciiLowercase node.share.workHash = toAsciiLowercase otherNode.share.workHash → hash = other) ∧
    (∀ (hash : Text) (node : ShareNode), state.shares[hash]? = some node →
      (node.cumulativeScore.isSome = true ↔ ∃ path, ShareLineage state.shares hash path) ∧
      (∀ score path, node.cumulativeScore = some score → ShareLineage state.shares hash path →
        score.toNat = pathScore state.shares path ∧ node.height.toNat = path.length)) := by
  have sound := (soundState_of_run acyclic reached).tree
  refine ⟨?_, ?_, sound.works, ?_, ?_⟩
  · intro parent hash
    rw [sound.children]
    exact ⟨stored_of_parentOf, fun ⟨node, stored, same⟩ => same ▸ parentOf_of_stored stored⟩
  · intro hash other node otherNode stored otherStored top otherTop
    exact sound.oneRoot hash other (top ▸ parentOf_of_stored stored) (otherTop ▸ parentOf_of_stored otherStored)
  · intro hash other node otherNode stored otherStored same
    have first := (sound.works _ hash).mpr ⟨node, stored, rfl⟩
    have second := (sound.works _ other).mpr ⟨otherNode, otherStored, rfl⟩
    rw [same, second] at first
    exact (Option.some.inj first).symm
  · intro hash node stored
    refine ⟨⟨fun resolved => ?_, fun ⟨path, lineage⟩ => ?_⟩, fun score path cumulative lineage => ?_⟩
    · obtain ⟨score, cumulative⟩ := Option.isSome_iff_exists.mp resolved
      obtain ⟨path, lineage, -⟩ := sound.scored hash node score stored cumulative
      exact ⟨path, lineage⟩
    · obtain ⟨score, other, present, cumulative⟩ := sound.complete hash path lineage
      obtain rfl := Option.some.inj (stored.symm.trans present)
      rw [cumulative]
      rfl
    · obtain ⟨path', lineage', total, length⟩ := sound.scored hash node score stored cumulative
      obtain rfl := lineage.unique lineage'
      exact ⟨total, length⟩

theorem reachable_share_index_exact_sample : ∃ state,
    run? (ReplayOp.step? Sample.crypto) {} Sample.ops = some state ∧
    ∀ parent hash, hash ∈ state.childrenOf parent ↔
      ∃ node, state.shares[hash]? = some node ∧ node.parentShareHash = parent := by
  obtain ⟨state, run⟩ := Option.isSome_iff_exists.mp Sample.reached
  exact ⟨state, run, (reachable_share_index_exact Sample.crypto Sample.ops state Sample.acyclic run).1⟩

/-- In every reachable state the best tip is the heaviest resolved share, the smaller hash on a tie,
until a checkpoint is stored, and the tip of the latest checkpoint from then on. The active shares
are the path of the tip, and the scores are the sums over it. -/
theorem reachable_active_branch_exact (crypto : Crypto) (ops : List ReplayOp) (state : SharechainReplayState)
    (acyclic : AcyclicShares crypto (sharesOf ops))
    (reached : run? (ReplayOp.step? crypto) {} ops = some state) :
    ((∀ round : U32, state.sharechainCheckpoints[round]? = none) →
      (state.bestShareTip = none ↔
        ∀ (hash : Text) (node : ShareNode), state.shares[hash]? = some node → node.cumulativeScore = none) ∧
      ∀ tip, state.bestShareTip = some tip → ∃ node score, state.shares[tip]? = some node ∧
        node.cumulativeScore = some score ∧
        ∀ (other : Text) (otherNode : ShareNode) (otherScore : Score), state.shares[other]? = some otherNode →
          otherNode.cumulativeScore = some otherScore → other ≠ tip →
          otherScore < score ∨ otherScore = score ∧ compare tip other = .lt) ∧
    (∀ (round : U32) (checkpoint : SharechainCheckpointAnchorV1),
      state.sharechainCheckpoints[round]? = some checkpoint →
      (∀ other ∈ state.sharechainCheckpoints, other ≤ round) →
      state.bestShareTip = some checkpoint.shareTipHash) ∧
    (∃ path, TipPath state.shares state.bestShareTip path ∧
      (∀ hash, hash ∈ state.activeShareHashes ↔ hash ∈ path) ∧
      (∀ (miner : Text) (score : Score), state.hashrateScores[miner]? = some score ↔
        (∃ hash ∈ path, minerOf state.shares hash = some miner) ∧
          score.toNat = minerScore state.shares path miner)) ∧
    (∀ (tip : Text) (node : ShareNode), state.bestShareTip = some tip → state.shares[tip]? = some node →
      node.cumulativeScore = some state.activeShareScoreTotal) := by
  have sound := (soundState_of_run acyclic reached).tree
  have active := sound.active
  refine ⟨fun unfinalized => ?_, fun round checkpoint stored largest => ?_, ?_, ?_⟩
  · have none : state.latestCheckpoint? = none := latestCheckpoint?_eq_none.mpr unfinalized
    refine ⟨⟨fun waiting hash node stored => ?_, fun unresolved => ?_⟩, fun tip chosen => ?_⟩
    · have empty := active.waits none waiting
      cases cumulative : node.cumulativeScore with
      | none => rfl
      | some score =>
        have resolved : hash ∈ { hash | Resolved state.shares hash } := ⟨score, node, stored, cumulative⟩
        rw [empty] at resolved
        exact absurd resolved (Set.notMem_empty hash)
    · cases chosen : state.bestShareTip with
      | none => rfl
      | some tip =>
        obtain ⟨score, node, stored, cumulative⟩ := active.resolved tip chosen
        rw [unresolved tip node stored] at cumulative
        cases cumulative
    · obtain ⟨score, node, stored, cumulative⟩ := active.resolved tip chosen
      refine ⟨node, score, stored, cumulative, fun other otherNode otherScore present otherCumulative different => ?_⟩
      have resolved : ResolvedWith state.shares other otherScore := ⟨otherNode, present, otherCumulative⟩
      have ahead := active.leads none tip score chosen ⟨node, stored, cumulative⟩ other
        ⟨otherScore, resolved⟩ otherScore resolved different
      rcases outranks_iff.mp ahead with heavier | ⟨same, smaller⟩
      · exact .inl heavier
      · exact .inr ⟨same.symm, smaller⟩
  · exact active.finalized (round, checkpoint) (latestCheckpoint?_eq_some.mpr ⟨stored, largest⟩)
  · obtain ⟨path, tipPath, branch⟩ := active.branch
    exact ⟨path, tipPath, branch.hashes, branch.scores⟩
  · intro tip node chosen stored
    obtain ⟨path, tipPath, branch⟩ := active.branch
    obtain ⟨score, other, present, cumulative⟩ := active.resolved tip chosen
    obtain rfl := Option.some.inj (stored.symm.trans present)
    obtain ⟨path', lineage, total, -⟩ := sound.scored tip node score stored cumulative
    rw [chosen] at tipPath
    cases tipPath with
    | some tipLineage =>
      obtain rfl := tipLineage.unique lineage
      rw [cumulative]
      exact congrArg some (BitVec.eq_of_toNat_eq (total.trans branch.total.symm))

theorem reachable_active_branch_exact_sample : ∃ state,
    run? (ReplayOp.step? Sample.crypto) {} Sample.ops = some state ∧
    ∀ (tip : Text) (node : ShareNode), state.bestShareTip = some tip → state.shares[tip]? = some node →
      node.cumulativeScore = some state.activeShareScoreTotal := by
  obtain ⟨state, run⟩ := Option.isSome_iff_exists.mp Sample.reached
  exact ⟨state, run,
    (reachable_active_branch_exact Sample.crypto Sample.ops state Sample.acyclic run).2.2.2⟩

/-- In every reachable state the checkpoints are one chain, and nothing later changes it: a stored
checkpoint is kept by every later state, with its whole path on the active branch. -/
theorem reachable_checkpoints_final (crypto : Crypto) (early late : List ReplayOp)
    (earlier state : SharechainReplayState) (acyclic : AcyclicShares crypto (sharesOf (early ++ late)))
    (reached : run? (ReplayOp.step? crypto) {} early = some earlier)
    (continued : run? (ReplayOp.step? crypto) earlier late = some state) :
    CheckpointChain earlier.toShareTree ∧
    (∀ (round : U32) (checkpoint : SharechainCheckpointAnchorV1),
      earlier.sharechainCheckpoints[round]? = some checkpoint →
      state.sharechainCheckpoints[round]? = some checkpoint ∧
      ∃ path, ShareLineage earlier.shares checkpoint.shareTipHash path ∧
        ShareLineage state.shares checkpoint.shareTipHash path ∧
        ∀ hash ∈ path, hash ∈ state.activeShareHashes) := by
  obtain ⟨sound, -⟩ := (SoundState.initial crypto _).run acyclic (fun share => List.mem_append_left late) reached
  obtain ⟨soundLater, grows⟩ := sound.run acyclic (fun share => List.mem_append_right early) continued
  refine ⟨sound.chain, fun round checkpoint stored => ?_⟩
  have kept := grows.checkpoints round checkpoint stored
  obtain ⟨⟨node, score, tip, cumulative, -⟩, -⟩ := sound.chain.tips round checkpoint stored
  obtain ⟨path, lineage, -⟩ := sound.tree.scored _ node score tip cumulative
  have lineageLater := lineage.mono grows.parents
  exact ⟨kept, path, lineage, lineageLater, soundLater.chain.final soundLater.tree kept lineageLater⟩

theorem reachable_checkpoints_final_sample : ∃ earlier state,
    run? (ReplayOp.step? Sample.crypto) {} (Sample.ops.take 6) = some earlier ∧
    run? (ReplayOp.step? Sample.crypto) earlier (Sample.ops.drop 6) = some state ∧
    ∀ (round : U32) (checkpoint : SharechainCheckpointAnchorV1),
      earlier.sharechainCheckpoints[round]? = some checkpoint →
      state.sharechainCheckpoints[round]? = some checkpoint := by
  obtain ⟨state, run⟩ := Option.isSome_iff_exists.mp Sample.reached
  obtain ⟨earlier, early, late⟩ := run?_append_eq_some.mp
    (show run? _ {} (Sample.ops.take 6 ++ Sample.ops.drop 6) = some state from run)
  exact ⟨earlier, state, early, late, fun round checkpoint stored => ((reachable_checkpoints_final Sample.crypto
    (Sample.ops.take 6) (Sample.ops.drop 6) earlier state Sample.acyclic early late).2 round checkpoint stored).1⟩

end P2PoolBTC.Soundness
