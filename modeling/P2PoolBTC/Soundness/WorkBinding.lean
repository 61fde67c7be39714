import P2PoolBTC.Math.CaseFolding
import P2PoolBTC.Soundness.BootstrapAnchors

/-! # Share work bound to its header

The coinbase of a bound share has one output with the protocol marker, and that output is the hash
of the share's terms. Two accepted shares with one coinbase therefore have one set of terms, and a
header with a Merkle branch leaves no choice of the coinbase's outputs.
-/

namespace P2PoolBTC.Soundness

open Math Model.Core

variable {crypto : Crypto} {secondRoot firstRoot : List UInt8}

/-! ## What a binding commits to -/

/-- The terms a share was mined for, in lower case. -/
structure WorkTerms where
  minerId : Text
  assignedShareTarget : Text
  parentShareHash : Text
  idenaSnapshotId : Text
  idenaSnapshotProofRoot : Text
  idenaAnchor : Option IdenaBlockAnchorV1
  idenaAnchorPolicyHash : Option Text
  bindingPolicyHash : Option Text

/-- The terms as the share, its template and its binding state them. -/
def workTerms (share : Share) (template : BitcoinWorkTemplate) : WorkTerms where
  minerId := toAsciiLowercase share.minerId
  assignedShareTarget := toAsciiLowercase share.target
  parentShareHash := toAsciiLowercase share.parentShareHash
  idenaSnapshotId := toAsciiLowercase share.idenaSnapshotId
  idenaSnapshotProofRoot := toAsciiLowercase share.idenaSnapshotProofRoot
  idenaAnchor := template.idenaAnchor.map IdenaBlockAnchorV1.normalized
  idenaAnchorPolicyHash := template.idenaAnchorPolicyHash.map toAsciiLowercase
  bindingPolicyHash := share.workBinding.map fun binding => toAsciiLowercase binding.policyHash

/-- What the commitment hash of a binding covers. -/
def committedPayload (binding : ShareWorkBindingV1) : ShareWorkCommitmentPayloadV1 :=
  { schemaVersion := binding.normalized.schemaVersion
    policyHash := binding.normalized.policyHash
    minerId := binding.normalized.minerId
    assignedShareTarget := binding.normalized.assignedShareTarget
    parentShareHash := binding.normalized.parentShareHash
    idenaSnapshotId := binding.normalized.idenaSnapshotId
    idenaSnapshotProofRoot := binding.normalized.idenaSnapshotProofRoot
    idenaAnchor := binding.normalized.idenaAnchor
    idenaAnchorPolicyHash := binding.normalized.idenaAnchorPolicyHash }

/-- The terms a commitment states. -/
def committedTerms (payload : ShareWorkCommitmentPayloadV1) : WorkTerms where
  minerId := payload.minerId
  assignedShareTarget := payload.assignedShareTarget
  parentShareHash := payload.parentShareHash
  idenaSnapshotId := payload.idenaSnapshotId
  idenaSnapshotProofRoot := payload.idenaSnapshotProofRoot
  idenaAnchor := some payload.idenaAnchor
  idenaAnchorPolicyHash := some payload.idenaAnchorPolicyHash
  bindingPolicyHash := some payload.policyHash

/-- The output script that carries a commitment. -/
def commitmentScript (digest : Digest) : List UInt8 :=
  0x6a :: UInt8.ofNat (shareWorkOpReturnPrefix ++ digest.bytes).length :: (shareWorkOpReturnPrefix ++ digest.bytes)

private theorem commitmentScript_injective : Function.Injective commitmentScript := by
  intro left right same
  have bytes := (List.append_right_inj _).mp (List.cons.inj (List.cons.inj same).2).2
  cases left
  cases right
  cases bytes
  rfl

private theorem opReturnScriptPubkey_ok {binding : ShareWorkBindingV1} {script : List UInt8}
    (built : binding.opReturnScriptPubkey crypto = .ok script) :
    script = commitmentScript (crypto.sha256Tagged (.shareWorkCommitment (committedPayload binding))) := by
  simp only [ShareWorkBindingV1.opReturnScriptPubkey, ShareWorkBindingV1.commitmentHash, except_bind_eq_ok] at built
  obtain ⟨digest, ⟨-, -, hashed⟩, same⟩ := built
  cases hashed
  cases same
  rfl

/-! ## Accepted shares -/

/-- The coinbase that a share shows under the Merkle root of its header. -/
structure ProvenCoinbase (crypto : Crypto) (share : Share) (merkleRoot : List UInt8) (coinbase : CoinbaseTransaction) :
    Prop where
  header : ∃ header, hexDecode? share.bitcoinHeaderHex = some header ∧ (header.drop 36).take 32 = merkleRoot
  shown : ∃ binding, share.workBinding = some binding ∧ hexDecode? binding.coinbaseTxHex = some coinbase.serialized ∧
    crypto.deserializeTransaction coinbase.serialized = .ok coinbase ∧
    climbCoinbaseBranches crypto coinbase.txid.bytes binding.coinbaseMerkleBranches = .ok merkleRoot

variable {merkleRoot : List UInt8}

private theorem ProvenCoinbase.unique {share : Share} {merkleRoot' : List UInt8}
    {coinbase coinbase' : CoinbaseTransaction}
    (first : ProvenCoinbase crypto share merkleRoot coinbase)
    (second : ProvenCoinbase crypto share merkleRoot' coinbase') : coinbase = coinbase' := by
  obtain ⟨binding, present, decoded, read, -⟩ := first.shown
  obtain ⟨binding', present', decoded', read', -⟩ := second.shown
  obtain rfl := Option.some.inj (present.symm.trans present')
  have bytes := Option.some.inj (decoded.symm.trans decoded')
  rw [bytes] at read
  exact Except.ok.inj (read.symm.trans read')

theorem decodeExactHex_ok {field : String} {value : Text} {count : ℕ} {bytes : List UInt8}
    (decoded : decodeExactHex crypto field value count = .ok bytes) : hexDecode? value = some bytes := by
  simp only [decodeExactHex, except_bind_eq_ok, okOr_eq_ok] at decoded
  obtain ⟨-, -, decoded⟩ := decoded
  exact decoded

/-- What an accepted share shows: its terms are those of a commitment, and the commitment is the only marked output
of its coinbase. -/
structure BoundWork (crypto : Crypto) (share : Share) (template : BitcoinWorkTemplate) (binding : ShareWorkBindingV1)
    (merkleRoot : List UInt8) (coinbase : CoinbaseTransaction) : Prop where
  present : share.workBinding = some binding
  terms : workTerms share template = committedTerms (committedPayload binding)
  proven : ProvenCoinbase crypto share merkleRoot coinbase
  marked : coinbase.outputScripts.filter isShareWorkCommitmentScript =
    [commitmentScript (crypto.sha256Tagged (.shareWorkCommitment (committedPayload binding)))]

private theorem verifyHeaderCommitment_ok {binding : ShareWorkBindingV1} {share : Share}
    (present : share.workBinding = some binding)
    (verified : binding.verifyHeaderCommitment crypto share.bitcoinHeaderHex = .ok ()) :
    ∃ merkleRoot coinbase, ProvenCoinbase crypto share merkleRoot coinbase ∧
      coinbase.outputScripts.filter isShareWorkCommitmentScript =
        [commitmentScript (crypto.sha256Tagged (.shareWorkCommitment (committedPayload binding)))] := by
  simp only [ShareWorkBindingV1.verifyHeaderCommitment, except_bind_eq_ok, require_eq_ok, okOr_eq_ok,
    mapError_eq_ok] at verified
  obtain ⟨-, -, header, decoded, -, -, -, -, bytes, unhexed, coinbase, read, -, ⟨-, canonical⟩, script, built, -,
    single, -, output, merkle, climbed, same⟩ := verified
  subst canonical
  subst same
  refine ⟨_, coinbase, ⟨⟨header, decodeExactHex_ok decoded, rfl⟩, binding, present, unhexed, read, climbed⟩, ?_⟩
  obtain ⟨only, listed⟩ := List.length_eq_one_iff.mp single
  rw [listed] at output ⊢
  rw [Option.some.inj output, opReturnScriptPubkey_ok built]

private theorem verifyRequiredWorkBinding_ok {share : Share} {template : BitcoinWorkTemplate}
    {policy : ShareWorkBindingPolicyV1} (accepted : share.verifyRequiredWorkBinding crypto template policy = .ok ()) :
    ∃ binding merkleRoot coinbase, BoundWork crypto share template binding merkleRoot coinbase := by
  simp only [Share.verifyRequiredWorkBinding, except_bind_eq_ok, okOr_eq_ok, mapError_eq_ok] at accepted
  obtain ⟨_, verified, binding, present, -⟩ := accepted
  simp only [Share.verifyPresentWorkBindingForTemplate, Share.verifyPresentWorkBindingFields, present,
    except_bind_eq_ok, require_eq_ok, okOr_eq_ok, mapError_eq_ok] at verified
  obtain ⟨_, ⟨-, -, -, miner, -, target, -, parent, -, snapshot, -, root, header⟩, anchor, anchored, -, same, hash,
    hashed, policies⟩ := verified
  obtain ⟨merkleRoot, coinbase, proven, marked⟩ := verifyHeaderCommitment_ok present header
  refine ⟨binding, merkleRoot, coinbase, present, ?_, proven, marked⟩
  unfold EqIgnoreAsciiCase at miner target parent snapshot root policies
  simp only [workTerms, committedTerms, committedPayload, ShareWorkBindingV1.normalized, present, anchored, hashed,
    same, Option.map_some, miner, target, parent, snapshot, root, policies]

/-! ## Shares with one coinbase -/

/-- The commitments of two shares. -/
def commitmentsOf (first second : Share) : Set HashPreimage :=
  { preimage | ∃ binding, (first.workBinding = some binding ∨ second.workBinding = some binding) ∧
    preimage = .shareWorkCommitment (committedPayload binding) }

variable {first second : Share} {firstCoinbase secondCoinbase : CoinbaseTransaction}

/-- Coinbases with the same outputs stand for the same terms. -/
theorem BoundWork.terms_eq {firstTemplate secondTemplate : BitcoinWorkTemplate}
    {firstBinding secondBinding : ShareWorkBindingV1}
    (collisionFree : CollisionFree crypto (commitmentsOf first second))
    (left : BoundWork crypto first firstTemplate firstBinding firstRoot firstCoinbase)
    (right : BoundWork crypto second secondTemplate secondBinding secondRoot secondCoinbase)
    (outputs : firstCoinbase.outputScripts = secondCoinbase.outputScripts) :
    workTerms first firstTemplate = workTerms second secondTemplate := by
  have scripts := left.marked
  rw [outputs, right.marked] at scripts
  have digests := commitmentScript_injective (List.cons.inj scripts).1
  have payloads := collisionFree ⟨secondBinding, .inr right.present, rfl⟩ ⟨firstBinding, .inl left.present, rfl⟩ digests
  rw [left.terms, right.terms, HashPreimage.shareWorkCommitment.inj payloads]

/-- The pairs hashed on the way up the Merkle branch. -/
def branchPairs (crypto : Crypto) : List UInt8 → List Text → List (List UInt8)
  | _, [] => []
  | merkle, branch :: rest =>
    let pair := merkle ++ (hexDecode? branch).getD []
    pair :: branchPairs crypto (crypto.sha256d pair).bytes rest

/-- Two entries that climb to one root past the same siblings are one entry. -/
theorem climbCoinbaseBranches_injective {first second : List UInt8} {branches others : List Text}
    (siblings : branches.map hexDecode? = others.map hexDecode?) (distinct : Set.InjOn crypto.sha256d
      { pair | pair ∈ branchPairs crypto first branches ∨ pair ∈ branchPairs crypto second others })
    (left : climbCoinbaseBranches crypto first branches = .ok merkleRoot)
    (right : climbCoinbaseBranches crypto second others = .ok merkleRoot) : first = second := by
  induction branches generalizing first second others with
  | nil =>
    obtain rfl : others = [] := by simpa using siblings.symm
    exact (Except.ok.inj left).trans (Except.ok.inj right).symm
  | cons branch rest ih =>
    obtain ⟨other, otherRest, rfl⟩ : ∃ other otherRest, others = other :: otherRest := by
      cases others with
      | nil => simp at siblings
      | cons other otherRest => exact ⟨other, otherRest, rfl⟩
    obtain ⟨sibling, siblings⟩ := List.cons.inj siblings
    simp only [climbCoinbaseBranches, except_bind_eq_ok] at left right
    obtain ⟨bytes, decoded, left⟩ := left
    obtain ⟨otherBytes, otherDecoded, right⟩ := right
    have read := decodeExactHex_ok decoded
    have otherRead := decodeExactHex_ok otherDecoded
    obtain rfl : bytes = otherBytes := Option.some.inj (read.symm.trans (sibling.trans otherRead))
    simp only [branchPairs, read, otherRead, Option.getD_some, List.mem_cons] at distinct
    have parents := ih siblings (distinct.mono fun pair member => member.imp .inr .inr) left right
    have digests : crypto.sha256d (first ++ bytes) = crypto.sha256d (second ++ bytes) := by
      cases leftDigest : crypto.sha256d (first ++ bytes)
      cases rightDigest : crypto.sha256d (second ++ bytes)
      rw [leftDigest, rightDigest] at parents
      cases parents
      rfl
    exact List.append_cancel_right (distinct (.inl (.inl rfl)) (.inr (.inl rfl)) digests)

/-- One header, one coinbase and one Merkle branch, up to the case of letters. -/
def SameWork (first second : Share) : Prop :=
  EqIgnoreAsciiCase first.bitcoinHeaderHex second.bitcoinHeaderHex ∧
  ∃ binding other, first.workBinding = some binding ∧ second.workBinding = some other ∧
    EqIgnoreAsciiCase binding.coinbaseTxHex other.coinbaseTxHex ∧
    binding.coinbaseMerkleBranches.map toAsciiLowercase = other.coinbaseMerkleBranches.map toAsciiLowercase

/-- The siblings a share shows, as bytes. -/
def siblingsOf (share : Share) : Option (List (Option (List UInt8))) :=
  share.workBinding.map fun binding => binding.coinbaseMerkleBranches.map hexDecode?

/-- The pairs a share's Merkle proof hashes. -/
def proofPairs (crypto : Crypto) (share : Share) (coinbase : CoinbaseTransaction) : Set (List UInt8) :=
  { pair | ∃ binding, share.workBinding = some binding ∧
    pair ∈ branchPairs crypto coinbase.txid.bytes binding.coinbaseMerkleBranches }

private theorem SameWork.coinbase_eq (same : SameWork first second)
    (left : ProvenCoinbase crypto first firstRoot firstCoinbase)
    (right : ProvenCoinbase crypto second secondRoot secondCoinbase) : firstCoinbase = secondCoinbase := by
  obtain ⟨-, binding, other, present, otherPresent, texts, -⟩ := same
  obtain ⟨leftBinding, leftPresent, leftDecoded, leftRead, -⟩ := left.shown
  obtain ⟨rightBinding, rightPresent, rightDecoded, rightRead, -⟩ := right.shown
  obtain rfl := Option.some.inj (present.symm.trans leftPresent)
  obtain rfl := Option.some.inj (otherPresent.symm.trans rightPresent)
  have bytes := Option.some.inj (leftDecoded.symm.trans (texts.hexDecode?_eq.trans rightDecoded))
  rw [bytes] at leftRead
  exact Except.ok.inj (leftRead.symm.trans rightRead)

/-- Past the same siblings one root has one coinbase identifier. -/
theorem ProvenCoinbase.txid_eq (left : ProvenCoinbase crypto first merkleRoot firstCoinbase)
    (right : ProvenCoinbase crypto second merkleRoot secondCoinbase) (siblings : siblingsOf first = siblingsOf second)
    (distinct : Set.InjOn crypto.sha256d
      (proofPairs crypto first firstCoinbase ∪ proofPairs crypto second secondCoinbase)) :
    firstCoinbase.txid = secondCoinbase.txid := by
  obtain ⟨binding, present, -, -, climbed⟩ := left.shown
  obtain ⟨other, otherPresent, -, -, otherClimbed⟩ := right.shown
  rw [siblingsOf, siblingsOf, present, otherPresent] at siblings
  have bytes := climbCoinbaseBranches_injective (Option.some.inj siblings) (distinct.mono fun pair member =>
    member.imp (fun inside => ⟨binding, present, inside⟩) fun inside => ⟨other, otherPresent, inside⟩)
      climbed otherClimbed
  cases leftTxid : firstCoinbase.txid
  cases rightTxid : secondCoinbase.txid
  rw [leftTxid, rightTxid] at bytes
  cases bytes
  rfl

/-- The terms of an accepted share are determined by the coinbase it proves under the Merkle root of its header, and
so agree for two accepted shares of one work. Without collisions among the Merkle pairs the root and the siblings
leave no choice of the coinbase, up to the witness data that its identifier does not cover. -/
theorem share_work_bound_to_header (crypto : Crypto) (first second : Share)
    (firstTemplate secondTemplate : BitcoinWorkTemplate) (firstPolicy secondPolicy : ShareWorkBindingPolicyV1)
    (collisionFree : CollisionFree crypto (commitmentsOf first second))
    (firstAccepted : first.verifyRequiredWorkBinding crypto firstTemplate firstPolicy = .ok ())
    (secondAccepted : second.verifyRequiredWorkBinding crypto secondTemplate secondPolicy = .ok ()) :
    (∃ merkleRoot coinbase, ProvenCoinbase crypto first merkleRoot coinbase) ∧
    (∀ merkleRoot coinbase, ProvenCoinbase crypto first merkleRoot coinbase →
      ProvenCoinbase crypto second merkleRoot coinbase →
        workTerms first firstTemplate = workTerms second secondTemplate) ∧
    (SameWork first second → workTerms first firstTemplate = workTerms second secondTemplate) ∧
    (∀ merkleRoot coinbase other, ProvenCoinbase crypto first merkleRoot coinbase →
      ProvenCoinbase crypto second merkleRoot other → siblingsOf first = siblingsOf second →
      Set.InjOn crypto.sha256d (proofPairs crypto first coinbase ∪ proofPairs crypto second other) →
      (coinbase.txid = other.txid → coinbase.outputScripts = other.outputScripts) →
        workTerms first firstTemplate = workTerms second secondTemplate) := by
  obtain ⟨binding, root, coinbase, left⟩ := verifyRequiredWorkBinding_ok firstAccepted
  obtain ⟨otherBinding, otherRoot, other, right⟩ := verifyRequiredWorkBinding_ok secondAccepted
  refine ⟨⟨root, coinbase, left.proven⟩, ?_, ?_, ?_⟩
  · intro merkleRoot shared ours theirs
    obtain rfl := left.proven.unique ours
    obtain rfl := right.proven.unique theirs
    exact left.terms_eq collisionFree right rfl
  · intro same
    exact left.terms_eq collisionFree right (congrArg _ (same.coinbase_eq left.proven right.proven))
  · intro merkleRoot ours theirs oursProven theirsProven siblings distinct decoding
    obtain rfl := left.proven.unique oursProven
    obtain rfl := right.proven.unique theirsProven
    exact left.terms_eq collisionFree right (decoding (oursProven.txid_eq theirsProven siblings distinct))

namespace BoundSample

/-! The root share of the anchored sample with a binding, and the same work spelled in upper case. The hashes are as
the primitives compute them. -/

open Sample hiding rootShare
open AnchoredSample

def bindingPolicy : ShareWorkBindingPolicyV1 :=
  { schemaVersion := 1
    experimentId
    forkActivationId := hexEncode (List.replicate 32 0x81)
    sharechainNetworkId := hexEncode (List.replicate 32 0x82)
    requireBindingFromGenesis := true }

def bindingPolicyHash : Text := hexText 64 0x4cec32d67fefeb5310cd9054ae38f3aa13d795ccbbac34134264eadcb00cfffb

def coinbaseTxHex : Text :=
  hexText 64 0x0100000001000000000000000000000000000000000000000000000000000000 ++
    hexText 64 0x0000000000ffffffff03510101ffffffff0200f2052a01000000160014111111 ++
    hexText 64 0x11111111111111111111111111111111110000000000000000276a2550325357 ++
    hexText 64 0x3160e5012e46190cfcc1f6931ce13f8e4651720d0d2bfb051b39556ee3d559cd ++
    hexText 10 0xc500000000

def commitmentHex : Text := hexText 64 0x60e5012e46190cfcc1f6931ce13f8e4651720d0d2bfb051b39556ee3d559cdc5

def txidHex : Text := hexText 64 0xce751588d7973ca46e6fa4e4d8c145f45151b337d2f323995839907a29b10730

def siblingHex : Text := hexEncode (List.replicate 32 0x91)

def coinbase : CoinbaseTransaction :=
  { isCoinbase := true
    serialized := (hexDecode? coinbaseTxHex).getD []
    outputScripts := [(hexDecode? (hexText 44 0x00141111111111111111111111111111111111111111)).getD [],
      commitmentScript (Digest.ofHex commitmentHex)]
    txid := Digest.ofHex txidHex }

def binding : ShareWorkBindingV1 :=
  { schemaVersion := 1
    policyHash := bindingPolicyHash
    minerId := "alice".toList
    assignedShareTarget := hexText 64 (0x7fffff * 2 ^ 232)
    parentShareHash := zeroShareParentHash
    idenaSnapshotId := rootShare.idenaSnapshotId
    idenaSnapshotProofRoot := rootShare.idenaSnapshotProofRoot
    idenaAnchor := anchorAt 150 (hexEncode (List.replicate 32 0x96))
    idenaAnchorPolicyHash := policyHash
    coinbaseTxHex
    coinbaseMerkleBranches := [siblingHex] }

def share : Share :=
  { rootShare with
    bitcoinHeaderHex :=
      hexText 64 0x0000002033333333333333333333333333333333333333333333333333333333 ++
        hexText 64 0x3333333394121ea0127606017d0fb706dba5b24c2d2103abd9b34345cc838509 ++
        hexText 32 0x1fad636300f15365ffff7f2001000000
    workBinding := some binding }

def respelled : Share :=
  { share with
    minerId := toAsciiUppercase share.minerId
    target := toAsciiUppercase share.target
    workBinding := some { binding with coinbaseTxHex := toAsciiUppercase coinbaseTxHex } }

def lib : Crypto :=
  { Crypto.ofTables {
      sha256Tagged := [(.shareWorkPolicy bindingPolicy, bindingPolicyHash),
        (.shareWorkCommitment (committedPayload binding), commitmentHex)]
      sha256d := [(txidHex ++ siblingHex,
        hexText 64 0x94121ea0127606017d0fb706dba5b24c2d2103abd9b34345cc8385091fad6363)] } with
    deserializeTransaction := fun bytes =>
      if bytes = coinbase.serialized then .ok coinbase else .error "unexpected end of file" }

private theorem accepted : share.verifyRequiredWorkBinding lib rootTemplate bindingPolicy = .ok () := by
  decide +kernel

private theorem respelled_accepted : respelled.verifyRequiredWorkBinding lib rootTemplate bindingPolicy = .ok () := by
  decide +kernel

/-- Both spellings commit to one payload. -/
theorem collisionFree : CollisionFree lib (commitmentsOf share respelled) := by
  have single : ∀ preimage ∈ commitmentsOf share respelled, preimage =
      .shareWorkCommitment (committedPayload binding) := by
    rintro _ ⟨listed, present | present, rfl⟩ <;> obtain rfl := Option.some.inj present <;> rfl
  intro left leftMember right rightMember _
  rw [single left leftMember, single right rightMember]

private theorem sameWork : SameWork share respelled :=
  ⟨rfl, binding, _, rfl, rfl, by decide +kernel, rfl⟩

end BoundSample

open AnchoredSample in
theorem share_work_bound_to_header_sample :
    BoundSample.share.verifyRequiredWorkBinding BoundSample.lib rootTemplate
      BoundSample.bindingPolicy = .ok () ∧
    workTerms BoundSample.share rootTemplate = workTerms BoundSample.respelled rootTemplate :=
  ⟨BoundSample.accepted, (share_work_bound_to_header BoundSample.lib BoundSample.share BoundSample.respelled
    rootTemplate rootTemplate BoundSample.bindingPolicy BoundSample.bindingPolicy
    BoundSample.collisionFree BoundSample.accepted BoundSample.respelled_accepted).2.2.1 BoundSample.sameWork⟩

end P2PoolBTC.Soundness
