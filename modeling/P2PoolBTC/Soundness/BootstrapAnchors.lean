import P2PoolBTC.Soundness.Registrations

/-! # Anchors during the bootstrap

While the header version of a template keeps the bootstrap limits, a share is accepted only with an
Idena block anchor that its miner has not used before and that lies above the anchor of its parent.
Templates are never replaced by other ones, so what the validator saw of the stored shares holds of
them in every later state.
-/

namespace P2PoolBTC.Soundness

open Math Model.Core Std SharechainReplayState

variable {message : SharechainMessage} {entry : Share × Text}

/-- One call of a node that is bound to a policy: messages are checked against it first. -/
def ReplayOp.policyStep? (crypto : Crypto) (policy : IdenaAnchorPolicyV2) (state : SharechainReplayState)
    (op : ReplayOp) : Option SharechainReplayState :=
  match op with
  | .applyMessage message =>
    match state.validateIdenaAnchorPolicy crypto message policy with
    | .ok _ => op.step? crypto state
    | .error _ => none
  | _ => op.step? crypto state

/-- The header version of the template keeps the limits of the policy. -/
def KeepsLimits (crypto : Crypto) (policy : IdenaAnchorPolicyV2) (template : BitcoinWorkTemplate) : Prop :=
  ∃ version, template.bitcoinHeaderVersion crypto = .ok version ∧ policy.bootstrapLimitsActive version = true

/-- The stored template of a share. -/
def templateFor (state : SharechainReplayState) (share : Share) : Option BitcoinWorkTemplate :=
  state.bitcoinWorkTemplates[toAsciiLowercase share.bitcoinTemplateHash]?

section Law

variable (crypto : Crypto) (policy : IdenaAnchorPolicyV2)

/-- What holds of the anchors of all stored shares. -/
structure BootstrapLaw (state : SharechainReplayState) : Prop where
  anchored : ∀ hash entry, skeleton state.shares hash = some entry →
    ∃ template anchor, templateFor state entry.1 = some template ∧ template.idenaAnchor = some anchor
  distinct : ∀ hash other entry otherEntry template otherTemplate, skeleton state.shares hash = some entry →
    skeleton state.shares other = some otherEntry → EqIgnoreAsciiCase entry.1.minerId otherEntry.1.minerId →
    templateFor state entry.1 = some template → templateFor state otherEntry.1 = some otherTemplate →
    KeepsLimits crypto policy template → KeepsLimits crypto policy otherTemplate →
    template.idenaAnchor = otherTemplate.idenaAnchor → hash = other
  parents : ∀ hash entry template anchor, skeleton state.shares hash = some entry → entry.2 ≠ zeroShareParentHash →
    templateFor state entry.1 = some template → KeepsLimits crypto policy template →
    template.idenaAnchor = some anchor → ∃ parent parentTemplate parentAnchor,
      skeleton state.shares entry.2 = some parent ∧ templateFor state parent.1 = some parentTemplate ∧
      parentTemplate.idenaAnchor = some parentAnchor ∧ parentAnchor.height < anchor.height

/-- What the policy has checked of a share before it is applied. -/
structure AnchorChecked (state : SharechainReplayState) (mined : Share) (template : BitcoinWorkTemplate)
    (anchor : IdenaBlockAnchorV1) : Prop where
  found : templateFor state mined = some template
  anchored : template.idenaAnchor = some anchor
  registered : ∃ registration registryAnchor,
    state.registrations[toAsciiLowercase mined.minerId]? = some registration ∧
    registration.registryAnchor = some registryAnchor ∧ registryAnchor.registrationBlock ≤ anchor.height
  fresh : KeepsLimits crypto policy template → ∀ hash entry otherTemplate, skeleton state.shares hash = some entry →
    EqIgnoreAsciiCase entry.1.minerId mined.minerId → templateFor state entry.1 = some otherTemplate →
    otherTemplate.idenaAnchor ≠ some anchor
  above : KeepsLimits crypto policy template → toAsciiLowercase mined.parentShareHash ≠ zeroShareParentHash →
    ∃ parent parentTemplate, skeleton state.shares (toAsciiLowercase mined.parentShareHash) = some parent ∧
      templateFor state parent.1 = some parentTemplate ∧
      ∀ parentAnchor, parentTemplate.idenaAnchor = some parentAnchor → parentAnchor.height < anchor.height

end Law

variable {hash : Text}

section Checks

variable {crypto : Crypto} {policy : IdenaAnchorPolicyV2} {state after : SharechainReplayState} {mined : Share}

private theorem validateAnchoredShare_ok (valid : state.validateAnchoredShare crypto mined policy = .ok ()) :
    ∃ template anchor, AnchorChecked crypto policy state mined template anchor := by
  simp only [validateAnchoredShare, registrationOf, templateOf, acceptedRegistryAnchor, except_bind_eq_ok, okOr_eq_ok,
    mapError_eq_ok, require_eq_ok] at valid
  obtain ⟨registration, registered, registryAnchor, ⟨anchorRead, required, _, _, same⟩, template, found, anchor, read,
    _, after, _, _, version, versionRead, limits⟩ := valid
  cases same
  simp only [MinerRegistration.requireRegistryAnchor, except_bind_eq_ok, okOr_eq_ok] at required
  simp only [BitcoinWorkTemplate.requireIdenaAnchor, except_bind_eq_ok, okOr_eq_ok] at read
  obtain ⟨_, _, anchorStored⟩ := required
  obtain ⟨_, _, _, _, anchored⟩ := read
  have active : KeepsLimits crypto policy template → policy.bootstrapLimitsActive version = true := by
    rintro ⟨other, otherRead, kept⟩
    cases versionRead.symm.trans otherRead
    exact kept
  refine ⟨template, anchor, found, anchored, ⟨registration, _, registered, anchorStored, after⟩, fun kept => ?_,
    fun kept nonzero => ?_⟩
  · rw [if_pos (active kept)] at limits
    simp only [except_bind_eq_ok, require_eq_ok] at limits
    obtain ⟨_, unused, _⟩ := limits
    intro hash entry otherTemplate stored same otherFound reused
    obtain ⟨node, nodeStored, rfl⟩ := Option.map_eq_some_iff.mp stored
    apply unused
    rw [List.any_eq_true]
    refine ⟨node, mem_values.mpr ⟨hash, nodeStored⟩, ?_⟩
    unfold templateFor at otherFound
    unfold EqIgnoreAsciiCase at same
    simp [reusesAnchor, EqIgnoreAsciiCase, same, otherFound, reused]
  · rw [if_pos (active kept)] at limits
    simp only [except_bind_eq_ok, require_eq_ok] at limits
    obtain ⟨_, _, parents⟩ := limits
    unfold validateParentAnchor at parents
    rw [if_neg nonzero] at parents
    simp only [except_bind_eq_ok, okOr_eq_ok, require_eq_ok] at parents
    obtain ⟨parent, parentStored, parentTemplate, parentFound, above⟩ := parents
    refine ⟨(parent.share, parent.parentShareHash), parentTemplate, by simp [skeleton, parentStored], parentFound, ?_⟩
    intro parentAnchor present
    simpa [present] using above

/-- Later templates contain the earlier ones. -/
def TemplatesExtend (before after : SharechainReplayState) : Prop :=
  ∀ (hash : Text) (template : BitcoinWorkTemplate), before.bitcoinWorkTemplates[hash]? = some template →
    after.bitcoinWorkTemplates[hash]? = some template

private theorem BootstrapLaw.initial (crypto : Crypto) (policy : IdenaAnchorPolicyV2) :
    BootstrapLaw crypto policy {} := by
  have empty (hash : Text) : skeleton (∅ : ExtTreeMap Text ShareNode) hash = none := by simp [skeleton]
  constructor
  · intro hash entry stored
    cases (empty hash).symm.trans stored
  · intro hash other entry otherEntry template otherTemplate stored
    cases (empty hash).symm.trans stored
  · intro hash entry template anchor stored
    cases (empty hash).symm.trans stored

/-- The templates of stored shares stay what they are. -/
theorem BootstrapLaw.templateFor_eq (law : BootstrapLaw crypto policy state) (extension : TemplatesExtend state after)
    (stored : skeleton state.shares hash = some entry) : templateFor after entry.1 = templateFor state entry.1 := by
  obtain ⟨template, -, found, -⟩ := law.anchored hash entry stored
  exact (extension _ _ found).trans found.symm

theorem BootstrapLaw.kept (law : BootstrapLaw crypto policy state) (extension : TemplatesExtend state after)
    (shares : skeleton after.shares = skeleton state.shares) : BootstrapLaw crypto policy after := by
  constructor
  · intro hash entry stored
    rw [shares] at stored
    rw [law.templateFor_eq extension stored]
    exact law.anchored hash entry stored
  · intro hash other entry otherEntry template otherTemplate stored otherStored same found otherFound
    rw [shares] at stored otherStored
    rw [law.templateFor_eq extension stored] at found
    rw [law.templateFor_eq extension otherStored] at otherFound
    exact law.distinct hash other entry otherEntry template otherTemplate stored otherStored same found otherFound
  · intro hash entry template anchor stored nonzero found keeps anchored
    rw [shares] at stored
    rw [law.templateFor_eq extension stored] at found
    obtain ⟨parent, parentTemplate, parentAnchor, parentStored, parentFound, rest⟩ :=
      law.parents hash entry template anchor stored nonzero found keeps anchored
    refine ⟨parent, parentTemplate, parentAnchor, by rw [shares, parentStored], ?_, rest⟩
    rw [law.templateFor_eq extension parentStored, parentFound]

/-- A share that passed the checks is added. -/
theorem BootstrapLaw.added {template : BitcoinWorkTemplate} {anchor : IdenaBlockAnchorV1}
    (law : BootstrapLaw crypto policy state) (checked : AnchorChecked crypto policy state mined template anchor)
    (templates : after.bitcoinWorkTemplates = state.bitcoinWorkTemplates) (unused : state.shares[hash]? = none)
    (records : ∀ other, skeleton after.shares other = if hash = other then
      some (mined.normalized, toAsciiLowercase mined.normalized.parentShareHash) else skeleton state.shares other) :
    BootstrapLaw crypto policy after := by
  have same (share : Share) : templateFor after share = templateFor state share := by rw [templateFor, templates]; rfl
  have own : templateFor state mined.normalized = some template := by
    rw [← checked.found]
    simp [templateFor, Share.normalized]
  have older {other : Text} {entry : Share × Text} (stored : skeleton state.shares other = some entry) :
      skeleton after.shares other = some entry := by
    rw [records, if_neg, stored]
    rintro rfl
    simp [skeleton, unused] at stored
  -- a stored share is the one that was added or an older one
  have split {other : Text} {entry : Share × Text} (stored : skeleton after.shares other = some entry) :
      hash = other ∧ entry = (mined.normalized, toAsciiLowercase mined.normalized.parentShareHash) ∨
        skeleton state.shares other = some entry := by
    rw [records] at stored
    split_ifs at stored with here
    · exact .inl ⟨here, (Option.some.inj stored).symm⟩
    · exact .inr stored
  have fresh {other : Text} {entry : Share × Text} {otherTemplate : BitcoinWorkTemplate}
      (keeps : KeepsLimits crypto policy template) (stored : skeleton state.shares other = some entry)
      (miner : EqIgnoreAsciiCase entry.1.minerId mined.normalized.minerId)
      (found : templateFor state entry.1 = some otherTemplate) : otherTemplate.idenaAnchor ≠ template.idenaAnchor := by
    rw [checked.anchored]
    refine checked.fresh keeps other entry otherTemplate stored ?_ found
    simpa [EqIgnoreAsciiCase, Share.normalized] using miner
  constructor
  · intro other entry stored
    rw [same]
    rcases split stored with ⟨-, rfl⟩ | old
    · exact ⟨template, anchor, own, checked.anchored⟩
    · exact law.anchored other entry old
  · intro first second entry otherEntry firstTemplate secondTemplate stored otherStored miner found otherFound keeps
      otherKeeps anchors
    rw [same] at found otherFound
    rcases split stored with ⟨rfl, rfl⟩ | old <;> rcases split otherStored with ⟨rfl, rfl⟩ | otherOld
    · rfl
    · cases own.symm.trans found
      exact absurd anchors.symm (fresh keeps otherOld miner.symm otherFound)
    · cases own.symm.trans otherFound
      exact absurd anchors (fresh otherKeeps old miner found)
    · exact law.distinct first second entry otherEntry firstTemplate secondTemplate old otherOld miner found otherFound
        keeps otherKeeps anchors
  · intro other entry entryTemplate entryAnchor stored nonzero found keeps anchored
    rw [same] at found
    rcases split stored with ⟨rfl, rfl⟩ | old
    · cases own.symm.trans found
      cases checked.anchored.symm.trans anchored
      simp only [Share.normalized, toAsciiLowercase_idem] at nonzero ⊢
      obtain ⟨parent, parentTemplate, parentStored, parentFound, above⟩ := checked.above keeps nonzero
      obtain ⟨_, parentAnchor, again, parentAnchored⟩ := law.anchored _ parent parentStored
      cases parentFound.symm.trans again
      exact ⟨parent, parentTemplate, parentAnchor, older parentStored, by rw [same, parentFound], parentAnchored,
        above parentAnchor parentAnchored⟩
    · obtain ⟨parent, parentTemplate, parentAnchor, parentStored, parentFound, rest⟩ :=
        law.parents other entry entryTemplate entryAnchor old nonzero found keeps anchored
      exact ⟨parent, parentTemplate, parentAnchor, older parentStored, by rw [same, parentFound], rest⟩

/-- What one call does to the stored shares and templates: it adds at most one share, which passed the checks. -/
structure PolicyStepped (crypto : Crypto) (policy : IdenaAnchorPolicyV2) (op : ReplayOp)
    (state after : SharechainReplayState) : Prop where
  templates : TemplatesExtend state after
  law : BootstrapLaw crypto policy state → BootstrapLaw crypto policy after
  origin : ∀ hash entry, skeleton after.shares hash = some entry → skeleton state.shares hash = some entry ∨
    ∃ mined template anchor, op = .applyMessage (.share mined) ∧ entry.1 = mined.normalized ∧
      state.shares[hash]? = none ∧ AnchorChecked crypto policy state mined template anchor

namespace PolicyStepped

variable {op : ReplayOp}

theorem of_same (templates : TemplatesExtend state after) (shares : skeleton after.shares = skeleton state.shares) :
    PolicyStepped crypto policy op state after :=
  ⟨templates, fun law => law.kept templates shares, fun hash entry stored => .inl (by rw [← shares, stored])⟩

private theorem of_added {tree : ShareTree} (valid : state.validateAnchoredShare crypto mined policy = .ok ())
    (added : ShareAdded crypto mined state.toShareTree tree) :
    PolicyStepped crypto policy (.applyMessage (.share mined)) state { state with toShareTree := tree } := by
  obtain ⟨template, anchor, checked⟩ := validateAnchoredShare_ok valid
  rcases added.records with same | ⟨unused, records⟩
  · exact .of_same (fun _ _ stored => stored) same
  · refine ⟨fun _ _ stored => stored, fun law => law.added checked rfl unused records, fun hash entry stored => ?_⟩
    dsimp only at stored
    rw [records] at stored
    split_ifs at stored with here
    · obtain rfl := Option.some.inj stored
      exact .inr ⟨mined, template, anchor, rfl, rfl, here ▸ unused, checked⟩
    · exact .inl stored

/-- Marking a message changes neither shares nor templates. -/
theorem mark (stepped : PolicyStepped crypto policy op state after) :
    PolicyStepped crypto policy op state (marked crypto message after) :=
  ⟨stepped.templates, fun law => (stepped.law law).kept (fun _ _ stored => stored) rfl, stepped.origin⟩

private theorem of_handled (valid : state.validateIdenaAnchorPolicy crypto message policy = .ok ())
    (handled : Handled crypto state message after) :
    PolicyStepped crypto policy (.applyMessage message) state after := by
  cases handled with
  | @templated template _ same =>
    refine .of_same (fun hash stored present => ?_) rfl
    dsimp only
    rw [getElem?_insert_eq]
    split_ifs with here
    · subst here
      rw [same stored present]
    · exact present
  | @shared mined tree _ applied =>
    simp only [validateIdenaAnchorPolicy, except_bind_eq_ok] at valid
    obtain ⟨_, _, anchored⟩ := valid
    exact .of_added anchored ((applyShare_adds crypto mined _).of_ok applied)
  | @checkpointed checkpoint tree _ rebuilt =>
    exact .of_same (fun _ _ stored => stored)
      (TreeKept.of_branch ((rebuildActiveBranch_branch _ _).of_ok rebuilt)).records
  | _ => exact .of_same (fun _ _ stored => stored) rfl

theorem of_step (step : op.policyStep? crypto policy state = some after) :
    PolicyStepped crypto policy op state after := by
  have taken : op.step? crypto state = some after ∧ ∀ message, op = .applyMessage message →
      state.validateIdenaAnchorPolicy crypto message policy = .ok () := by
    unfold ReplayOp.policyStep? at step
    split at step
    · next message =>
      split at step
      · next valid =>
        refine ⟨step, fun other same => ?_⟩
        cases same
        exact valid
      · cases step
    · next other =>
      exact ⟨step, fun message same => absurd same (other message)⟩
  obtain ⟨taken, valid⟩ := taken
  cases ReplayOp.stepped taken with
  | ignored _ same =>
    subst same
    exact .of_same (fun _ _ stored => stored) rfl
  | accepted prefixes ledger _ effect =>
    subst effect
    exact .of_same (fun _ _ stored => stored) rfl
  | message _ handled marks =>
    subst marks
    exact (of_handled (valid _ rfl) handled).mark

end PolicyStepped

private theorem bootstrapLaw_of_run {ops : List ReplayOp}
    (reached : run? (ReplayOp.policyStep? crypto policy) {} ops = some state) : BootstrapLaw crypto policy state :=
  run?_invariant _ reached (.initial crypto policy) fun _ _ _ _ held taken => (PolicyStepped.of_step taken).law held

/-- Every stored share was added by a message of the run, in a state where the policy had checked it. -/
theorem shareOrigin_of_run {ops : List ReplayOp}
    (reached : run? (ReplayOp.policyStep? crypto policy) {} ops = some state)
    (stored : skeleton state.shares hash = some entry) :
    ∃ early late mined before template anchor, ops = early ++ .applyMessage (.share mined) :: late ∧
      run? (ReplayOp.policyStep? crypto policy) {} early = some before ∧ entry.1 = mined.normalized ∧
      before.shares[hash]? = none ∧ AnchorChecked crypto policy before mined template anchor ∧
      TemplatesExtend before state := by
  -- the last call added the share, or the share was stored before it
  induction ops using List.reverseRecOn generalizing state with
  | nil =>
    cases reached
    simp [skeleton] at stored
  | append_singleton ops op ih =>
    obtain ⟨middle, early, last⟩ := run?_concat_eq_some.mp reached
    have stepped := PolicyStepped.of_step last
    rcases stepped.origin hash entry stored with old | ⟨mined, template, anchor, rfl, same, unused, checked⟩
    · obtain ⟨first, late, mined, before, template, anchor, rfl, start, same, unused, checked, extension⟩ :=
        ih early old
      refine ⟨first, late ++ [op], mined, before, template, anchor, by simp, start, same, unused, checked, ?_⟩
      exact fun key value present => stepped.templates key value (extension key value present)
    · exact ⟨ops, [], mined, middle, template, anchor, rfl, early, same, unused, checked, stepped.templates⟩

end Checks

namespace AnchoredSample

/-! The sample miner under a policy: two anchored templates and a share for each of them, with hashes and signatures as
the primitives compute them. -/

open Sample

def policy : IdenaAnchorPolicyV2 :=
  { schemaVersion := 2
    experimentId
    registryContractAddress := contractAddress
    registryDeploymentTxHash := '0' :: 'x' :: hexEncode (List.replicate 32 0x71)
    registryDeploymentPayloadSha256 := hexEncode (List.replicate 32 0x72)
    registryContractCodeHash := hexEncode (List.replicate 32 0x73)
    registryContractWasmSha256 := hexEncode (List.replicate 32 0x74)
    registryEcosystemCid := "bafkreicxbxjy3rn26misu7eduqqo2om2rzm4l7f4dacxqnmijnz6h3hvce".toList
    minimumRegistrationBurnAtoms := "1000".toList
    activationIdenaHeight := 50
    finalityConfirmations := 6
    maxAnchorAgeBlocks := 100
    handoffVersionBit := 5 }

def policyHash : Text := hexText 64 0x75f13bc342c093a993fa75c48d09245b40eb0bfc0f124a50b1e4e372f5679b7e

def anchorAt (height : U64) (hash : Text) : IdenaBlockAnchorV1 := { height, hash := '0' :: 'x' :: hash }

def templateWith (anchor : IdenaBlockAnchorV1) (templateHash : Text) (createdAtUnix : ℤ) (miningSignatureHex : Text) :
    BitcoinWorkTemplate :=
  { version := 3
    minerId := "alice".toList
    headerPrefixHex := headerPrefix
    templateHash
    assignedShareTarget := some (hexText 64 (0x7fffff * 2 ^ 232))
    idenaAnchor := some anchor
    idenaAnchorPolicyHash := some policyHash
    createdAtUnix
    miningSignatureHex }

def rootTemplate : BitcoinWorkTemplate := templateWith
  (anchorAt 150 (hexEncode (List.replicate 32 0x96)))
  (hexText 64 0x2c4efbf2d192694d22b0084509e53cf44d0549bb9b0d7bb31c673bd85494b6aa) 1700000001
  (hexText 64 0x8b002df9d7457fc7770cafc69d944cb1fd1aabf0ae5c15b5d3e6eeb1a20d1a71 ++
    hexText 64 0x362edf3fe9d1e9f799a1846e7297ea9ae89b7de5caaea8c888f160198262aa2c)

def childTemplate : BitcoinWorkTemplate := templateWith
  (anchorAt 160 (hexEncode (List.replicate 32 0xa0)))
  (hexText 64 0x731f3798f0839ea3c235739698d7b6f3ea55198192bfe7926414c7396bc55727) 1700000002
  (hexText 64 0x4ac820b56482bc4ac2d0bdc3b7d7f90ceb7ffedaaadbe0031194510e98a880c3 ++
    hexText 64 0xfebaf48e7ddefda9f0a7babd722e65bcf0f7aa7c439679bf06a0104c9abaed84)

def rootShareHash : Text := hexText 64 0xeecfc76da4b22c9b8fb90b548deb967523353d02f162f7392ce6c014b455df44

def rootShare : Share :=
  { Sample.rootShare with
    bitcoinTemplateHash := rootTemplate.templateHash
    miningSignatureHex := hexText 64 0x91487527ff14866cc5e5165106b704176547adb9de3f3669f2aff598597f3e13 ++
      hexText 64 0xd714b50a2d6054f025834b3128df03539ceafb7880f405158180d573178e3d16 }

def childShare : Share :=
  { Sample.childShare with
    parentShareHash := rootShareHash
    bitcoinTemplateHash := childTemplate.templateHash
    miningSignatureHex := hexText 64 0x0588cb05355e9190e0f5574b5cfcc9cda41b652f968ca8a48784c048c82ac273 ++
      hexText 64 0xd8c8f149d4bbc1cadd9544a0091b4b401dd41b042b7e894687c4a2a6b0dcf617 }

/-- What the hash of an anchored template covers. -/
def hashPayload (anchor : IdenaBlockAnchorV1) : IdenaAnchoredBitcoinWorkTemplateHashPayload :=
  { version := 3
    headerPrefixHex := headerPrefix
    assignedShareTarget := hexText 64 (0x7fffff * 2 ^ 232)
    idenaAnchor := anchor
    idenaAnchorPolicyHash := policyHash }

def tables : CryptoTables :=
  withTemplate rootTemplate
    0x6ac7fbbd453c73f03d5ef7d6eb5a8dfc0f80db3711b7f5539ea9b98b099bac4f
    0x38e839a7163f8605cee40227ec5ed90300ba67738ba9f20d9cedfc29479b210f <|
  withTemplate childTemplate
    0xc346f00cd26a0f546e0b679b67594e093a42d925092780c0856c1a77f1c50ba7
    0x64d82976e30c08d9ddb6a7b7144794cf1253aa9488031515647c9a2a7318a773 <|
  withShare rootShare 0xe986dd6f9eb46349a958d57033e997874c86d27b46cc546f463a8ba52bfb3805 rootShareHash <|
  withShare childShare 0x4e3ffad936fc8bcc5fe237bedcf3fca8e0bc8ccd32978ed360a6333d36286576
    (hexText 64 0x17acb9b0d527bba192750b47c8a0aee78b3662ea20f5f806657184d684f27d72)
    { Sample.tables with
      sha256Tagged := [
        (.idenaAnchorPolicy policy, policyHash),
        (.idenaAnchoredBtcTemplate (hashPayload (anchorAt 150 (hexEncode (List.replicate 32 0x96)))),
          rootTemplate.templateHash),
        (.idenaAnchoredBtcTemplate (hashPayload (anchorAt 160 (hexEncode (List.replicate 32 0xa0)))),
          childTemplate.templateHash)] ++ Sample.tables.sha256Tagged }

def crypto : Crypto := { Crypto.ofTables tables with isCanonicalCidV1 := fun cid => cid == policy.registryEcosystemCid }

def ops : List ReplayOp :=
  [.acceptBitcoinWorkTemplate rootTemplate, .acceptBitcoinWorkTemplate childTemplate,
    .applyMessage (.minerRegistration registration), .applyMessage (.bitcoinWorkTemplate rootTemplate),
    .applyMessage (.bitcoinWorkTemplate childTemplate), .applyMessage (.share rootShare),
    .applyMessage (.share childShare)]

private theorem reached : (run? (ReplayOp.policyStep? crypto policy) {} ops).isSome = true := by decide +kernel

end AnchoredSample

/-- In every state that a node bound to one policy reaches, consider the shares whose template keeps the bootstrap
limits. No two of them by one miner have the same anchor, and each one with a parent has it stored, under a lower
anchor. When any stored share was accepted, its miner's registration was not later than its anchor. -/
theorem bootstrap_anchor_law (crypto : Crypto) (policy : IdenaAnchorPolicyV2) (ops : List ReplayOp)
    (state : SharechainReplayState) (reached : run? (ReplayOp.policyStep? crypto policy) {} ops = some state) :
    (∀ (hash other : Text) (node otherNode : ShareNode) (template otherTemplate : BitcoinWorkTemplate),
      state.shares[hash]? = some node → state.shares[other]? = some otherNode →
      EqIgnoreAsciiCase node.share.minerId otherNode.share.minerId →
      templateFor state node.share = some template → templateFor state otherNode.share = some otherTemplate →
      KeepsLimits crypto policy template → KeepsLimits crypto policy otherTemplate →
      template.idenaAnchor = otherTemplate.idenaAnchor → hash = other) ∧
    (∀ (hash : Text) (node : ShareNode), state.shares[hash]? = some node →
      ∃ template anchor, templateFor state node.share = some template ∧ template.idenaAnchor = some anchor ∧
        (KeepsLimits crypto policy template → node.parentShareHash ≠ zeroShareParentHash →
          ∃ parent parentTemplate parentAnchor, state.shares[node.parentShareHash]? = some parent ∧
            templateFor state parent.share = some parentTemplate ∧ parentTemplate.idenaAnchor = some parentAnchor ∧
            parentAnchor.height < anchor.height) ∧
        ∃ early late mined before registration registryAnchor, ops = early ++ .applyMessage (.share mined) :: late ∧
          node.share = mined.normalized ∧ run? (ReplayOp.policyStep? crypto policy) {} early = some before ∧
          before.shares[hash]? = none ∧
          before.registrations[toAsciiLowercase node.share.minerId]? = some registration ∧
          registration.registryAnchor = some registryAnchor ∧ registryAnchor.registrationBlock ≤ anchor.height) := by
  have law := bootstrapLaw_of_run reached
  have record {hash : Text} {node : ShareNode} (stored : state.shares[hash]? = some node) :
      skeleton state.shares hash = some (node.share, node.parentShareHash) := by simp [skeleton, stored]
  refine ⟨?_, fun hash node stored => ?_⟩
  · intro hash other node otherNode template otherTemplate stored otherStored
    exact law.distinct hash other _ _ template otherTemplate (record stored) (record otherStored)
  · obtain ⟨template, anchor, found, anchored⟩ := law.anchored hash _ (record stored)
    refine ⟨template, anchor, found, anchored, fun keeps nonzero => ?_, ?_⟩
    · obtain ⟨parent, parentTemplate, parentAnchor, parentStored, parentFound, rest⟩ :=
        law.parents hash _ template anchor (record stored) nonzero found keeps anchored
      obtain ⟨parentNode, present, rfl⟩ := Option.map_eq_some_iff.mp parentStored
      exact ⟨parentNode, parentTemplate, parentAnchor, present, parentFound, rest⟩
    · obtain ⟨early, late, mined, before, seen, seenAnchor, split, start, same, unused, checked, extension⟩ :=
        shareOrigin_of_run reached (record stored)
      obtain ⟨registration, registryAnchor, registered, present, block⟩ := checked.registered
      change node.share = mined.normalized at same
      have again : templateFor state node.share = some seen := by
        rw [same, ← extension _ _ checked.found]
        simp [templateFor, Share.normalized]
      cases found.symm.trans again
      cases anchored.symm.trans checked.anchored
      refine ⟨early, late, mined, before, registration, registryAnchor, split, same, start, unused, ?_, present, block⟩
      rw [same, ← registered]
      simp [Share.normalized]

open AnchoredSample in
theorem bootstrap_anchor_law_sample : ∃ state,
    run? (ReplayOp.policyStep? AnchoredSample.crypto policy) {} AnchoredSample.ops = some state ∧
    ∀ (hash other : Text) (node otherNode : ShareNode) (template otherTemplate : BitcoinWorkTemplate),
      state.shares[hash]? = some node → state.shares[other]? = some otherNode →
      EqIgnoreAsciiCase node.share.minerId otherNode.share.minerId →
      templateFor state node.share = some template → templateFor state otherNode.share = some otherTemplate →
      KeepsLimits AnchoredSample.crypto policy template →
      KeepsLimits AnchoredSample.crypto policy otherTemplate →
      template.idenaAnchor = otherTemplate.idenaAnchor → hash = other := by
  obtain ⟨state, run⟩ := Option.isSome_iff_exists.mp reached
  exact ⟨state, run, (bootstrap_anchor_law AnchoredSample.crypto policy AnchoredSample.ops state run).1⟩

end P2PoolBTC.Soundness
