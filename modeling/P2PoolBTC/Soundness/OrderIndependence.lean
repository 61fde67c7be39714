import P2PoolBTC.Soundness.ReplayRuns
import P2PoolBTC.Soundness.ReservationOrder

/-! # Replaying messages in another order

What a list of messages does to the accounting state is described by the set of their normal forms:
which registration wins, which shares, checkpoints, votes, proposals, requests and batches are
stored, and what was reserved. Two orders in which every message is accepted leave the same
description, and the description determines everything the accounting root commits to.
-/

namespace P2PoolBTC.Soundness

open Math Model.Core Std SharechainReplayState

variable {mined : Set Share} {sent news : Set SharechainMessage} {start state : SharechainReplayState}

section Components

variable (crypto : Crypto) (sent : Set SharechainMessage) (start : SharechainReplayState)
  (news : Set SharechainMessage) (state : SharechainReplayState)

/-- A registration a miner had or sent. -/
def Candidate (minerId : Text) (registration : MinerRegistration) : Prop :=
  start.registrations[minerId]? = some registration ∨
    .minerRegistration registration ∈ news ∧ registration.minerId = minerId

/-- Registry anchors are ranked by their sequence; a registration without one comes first. -/
def registryRank (registration : MinerRegistration) : ℕ :=
  registration.registryAnchor.elim 0 fun anchor => anchor.registrationSequence.toNat + 1

/-- Every miner with a candidate is registered with the one of the highest rank. -/
structure RegistrationsReplayed : Prop where
  highest : ∀ (minerId : Text) (registration : MinerRegistration),
    state.registrations[minerId]? = some registration → Candidate start news minerId registration ∧
      ∀ other, Candidate start news minerId other →
        other = registration ∨ registryRank other < registryRank registration
  present : ∀ minerId registration, Candidate start news minerId registration → minerId ∈ state.registrations

/-- The tree holds the shares it had and those that were sent. -/
def SharesReplayed : Prop :=
  ∀ hash entry, skeleton state.shares hash = some entry ↔ skeleton start.shares hash = some entry ∨
    ∃ share, .share share ∈ news ∧ share.shareHash crypto = hash ∧ (share, share.parentShareHash) = entry

/-- Each key counts the voters it had and those that voted for it. -/
structure VotesReplayed : Prop where
  keys : ∀ key, key ∈ state.snapshotVotes ↔ key ∈ start.snapshotVotes ∨
    ∃ vote, .snapshotVote vote ∈ news ∧ voteKey vote = key
  voters : ∀ (key : SnapshotVoteKey) (voter : Text), voter ∈ state.snapshotVotes[key]?.getD ∅ ↔
    voter ∈ start.snapshotVotes[key]?.getD ∅ ∨
      ∃ vote, .snapshotVote vote ∈ news ∧ voteKey vote = key ∧ vote.voterMinerId = voter

/-- A schedule that was sent and whose root is its own. -/
def Proposed (schedule : PayoutSchedule) : Prop :=
  .payoutSchedule schedule ∈ sent ∧ schedule.payoutRoot = schedule.expectedPayoutRoot crypto

/-- What the root of a schedule is the hash of. -/
def payoutMaterial (schedule : PayoutSchedule) : PayoutRootMaterial :=
  { directOutputs := schedule.directOutputs
    vaultAllocations := schedule.vaultAllocations
    vaultOutputSats := schedule.vaultOutputSats }

/-- The preimages whose digests tell the sent messages apart. -/
def replayPreimages : Set HashPreimage :=
  { preimage | ∃ message ∈ sent, preimage = .sharechainMessage message.normalized } ∪
    { preimage | ∃ schedule, .payoutSchedule schedule ∈ sent ∧
      preimage = .merklePayoutLeaf (payoutMaterial schedule) }

/-- Proposals are stored as they were sent, so their normal forms do not determine them alone. -/
structure ProposalsReplayed : Prop where
  kept : ∀ (root : Text) (schedule : PayoutSchedule), start.proposedPayoutSchedules[root]? = some schedule →
    state.proposedPayoutSchedules[root]? = some schedule
  stored : ∀ (root : Text) (schedule : PayoutSchedule), state.proposedPayoutSchedules[root]? = some schedule →
    start.proposedPayoutSchedules[root]? = some schedule ∨
      .payoutSchedule schedule.normalizedForHash ∈ news ∧ Proposed crypto sent schedule ∧
        toAsciiLowercase schedule.payoutRoot = root
  complete : ∀ proposal, .payoutSchedule proposal ∈ news → ∃ schedule, Proposed crypto sent schedule ∧
    schedule.normalizedForHash = proposal ∧
      state.proposedPayoutSchedules[toAsciiLowercase proposal.payoutRoot]? = some schedule

/-- The new batches were reserved one after the other. -/
def LedgerReplayed : Prop :=
  ∃ batches : List WithdrawalBatch, batches.Nodup ∧
    (∀ batch, batch ∈ batches ↔
      .withdrawalBatch batch ∈ news ∧ start.withdrawalBatches[batch.batchHash crypto]? = none) ∧
    (∀ batch ∈ batches, ∀ output ∈ batch.outputs, ∃ request,
      state.withdrawalRequests[output.requestId]? = some request) ∧
    ReservedAll start.claimLedger
      (batches.flatMap fun batch => reservationsOf state.withdrawalRequests batch.outputs) state.claimLedger

/-- What the accounting state owes to the messages whose normal forms are given. -/
structure Replayed : Prop where
  applied : ∀ hash, hash ∈ state.appliedMessageHashes ↔ hash ∈ start.appliedMessageHashes ∨
    ∃ message ∈ news, message.messageHash crypto = hash
  registrations : RegistrationsReplayed start news state
  shares : SharesReplayed crypto start news state
  checkpoints : FilledWith SharechainCheckpointAnchorV1.round start.sharechainCheckpoints
    state.sharechainCheckpoints { checkpoint | .sharechainCheckpoint checkpoint ∈ news }
  votes : VotesReplayed start news state
  proposals : ProposalsReplayed crypto sent start news state
  requests : FilledWith WithdrawalRequest.requestId start.withdrawalRequests state.withdrawalRequests
    { request | .withdrawalRequest request ∈ news }
  batches : FilledWith (WithdrawalBatch.batchHash crypto) start.withdrawalBatches state.withdrawalBatches
    { batch | .withdrawalBatch batch ∈ news }
  ledger : LedgerReplayed crypto start news state

end Components

variable {registration : MinerRegistration} {schedule : PayoutSchedule}

section Determination

variable {crypto : Crypto} {left right : SharechainReplayState}

private theorem RegistrationsReplayed.agree (one : RegistrationsReplayed start news left)
    (two : RegistrationsReplayed start news right) {minerId : Text}
    (stored : left.registrations[minerId]? = some registration) :
    right.registrations[minerId]? = some registration := by
  obtain ⟨candidate, best⟩ := one.highest minerId registration stored
  obtain ⟨other, stored'⟩ := mem_iff_exists_getElem?.mp (two.present minerId registration candidate)
  obtain ⟨candidate', best'⟩ := two.highest minerId other stored'
  rcases best other candidate' with rfl | lower
  · exact stored'
  · rcases best' registration candidate with rfl | lower'
    · exact stored'
    · omega

private theorem RegistrationsReplayed.unique (one : RegistrationsReplayed start news left)
    (two : RegistrationsReplayed start news right) : left.registrations = right.registrations := by
  apply ext_entries
  intro minerId registration
  exact ⟨one.agree two, two.agree one⟩

private theorem SharesReplayed.unique (one : SharesReplayed crypto start news left)
    (two : SharesReplayed crypto start news right) : skeleton left.shares = skeleton right.shares := by
  funext hash
  apply Option.ext
  intro entry
  rw [one, two]

private theorem VotesReplayed.unique (one : VotesReplayed start news left) (two : VotesReplayed start news right) :
    left.snapshotVotes = right.snapshotVotes := by
  apply ExtTreeMap.ext_getElem?
  intro key
  have members : key ∈ left.snapshotVotes ↔ key ∈ right.snapshotVotes := by
    rw [one.keys, two.keys]
  have voters : left.snapshotVotes[key]?.getD ∅ = right.snapshotVotes[key]?.getD ∅ := by
    apply ExtTreeSet.ext_mem
    intro voter
    rw [one.voters, two.voters]
  rw [mem_iff_exists_getElem?, mem_iff_exists_getElem?] at members
  cases first : left.snapshotVotes[key]? <;> cases second : right.snapshotVotes[key]? <;>
    simp_all

/-- The root of a schedule determines it. -/
theorem Proposed.eq_of_normalizedForHash {other : PayoutSchedule}
    (collisionFree : CollisionFree crypto (replayPreimages sent)) (first : Proposed crypto sent schedule)
    (second : Proposed crypto sent other) (same : schedule.normalizedForHash = other.normalizedForHash) :
    schedule = other := by
  obtain ⟨member, root⟩ := first
  obtain ⟨member', root'⟩ := second
  have roots : schedule.payoutRoot = other.payoutRoot := by
    have lower : toAsciiLowercase schedule.payoutRoot = toAsciiLowercase other.payoutRoot :=
      congrArg PayoutSchedule.payoutRoot same
    rw [root, root'] at lower ⊢
    simpa only [PayoutSchedule.expectedPayoutRoot, merkleRoot_singleton, toAsciiLowercase_taggedHashHex] using lower
  have digests : taggedHashHex crypto (.merklePayoutLeaf (payoutMaterial schedule)) =
      taggedHashHex crypto (.merklePayoutLeaf (payoutMaterial other)) := root.symm.trans (roots.trans root')
  have materials := collisionFree.eq_of_taggedHashHex (.inr ⟨schedule, member, rfl⟩)
    (.inr ⟨other, member', rfl⟩) digests
  obtain ⟨direct, vault, sats⟩ := PayoutRootMaterial.mk.inj (HashPreimage.merklePayoutLeaf.inj materials)
  cases schedule
  cases other
  exact PayoutSchedule.mk.injEq .. ▸ ⟨direct, vault, sats, roots⟩

private theorem ProposalsReplayed.agree (collisionFree : CollisionFree crypto (replayPreimages sent))
    (one : ProposalsReplayed crypto sent start news left) (two : ProposalsReplayed crypto sent start news right)
    {root : Text} (stored : left.proposedPayoutSchedules[root]? = some schedule) :
    right.proposedPayoutSchedules[root]? = some schedule := by
  rcases one.stored root schedule stored with before | ⟨listed, proposed, rfl⟩
  · exact two.kept root schedule before
  · obtain ⟨other, proposed', same, stored'⟩ := two.complete _ listed
    obtain rfl := Proposed.eq_of_normalizedForHash collisionFree proposed' proposed same
    simpa [PayoutSchedule.normalizedForHash] using stored'

private theorem ProposalsReplayed.unique (collisionFree : CollisionFree crypto (replayPreimages sent))
    (one : ProposalsReplayed crypto sent start news left) (two : ProposalsReplayed crypto sent start news right) :
    left.proposedPayoutSchedules = right.proposedPayoutSchedules := by
  apply ext_entries
  intro root schedule
  exact ⟨one.agree collisionFree two, two.agree collisionFree one⟩

private theorem LedgerReplayed.unique (one : LedgerReplayed crypto start news left)
    (two : LedgerReplayed crypto start news right) (requests : left.withdrawalRequests = right.withdrawalRequests) :
    left.claimLedger = right.claimLedger := by
  obtain ⟨batches, distinct, members, -, reserved⟩ := one
  obtain ⟨batches', distinct', members', -, reserved'⟩ := two
  have permuted : batches.Perm batches' := (List.perm_ext_iff_of_nodup distinct distinct').mpr fun batch => by
    rw [members, members']
  rw [requests] at reserved
  exact reserved.eq_of_perm reserved' (permuted.flatMap_right _)

end Determination

section Trees

variable {crypto : Crypto} {left right : ShareTree}
variable (one : SoundTree crypto mined left) (two : SoundTree crypto mined right)
  (same : skeleton left.shares = skeleton right.shares)
include one two same

/-- Sound trees with the same links resolve the same shares with the same scores. -/
theorem SoundTree.resolvedWith_of_skeleton {hash : Text} {score : Score}
    (resolved : ResolvedWith left.shares hash score) : ResolvedWith right.shares hash score := by
  obtain ⟨path, lineage, total⟩ := one.scored.lineage resolved
  rw [ShareLineage, parentOf_congr same] at lineage
  rw [pathScore_congr same] at total
  obtain ⟨other, node, stored, cumulative⟩ := two.complete hash path lineage
  obtain ⟨path', lineage', total', -⟩ := two.scored hash node other stored cumulative
  obtain rfl := lineage.unique lineage'
  obtain rfl : other = score := BitVec.eq_of_toNat_eq (total'.trans total.symm)
  exact ⟨node, stored, cumulative⟩

private theorem SoundTree.tip_eq (checkpoints : left.sharechainCheckpoints = right.sharechainCheckpoints) :
    left.bestShareTip = right.bestShareTip := by
  have latest : left.latestCheckpoint? = right.latestCheckpoint? := by
    rw [ShareTree.latestCheckpoint?, checkpoints]
    rfl
  cases final : right.latestCheckpoint? with
  | some checkpoint => rw [two.active.finalized checkpoint final, one.active.finalized checkpoint (latest.trans final)]
  | none =>
    have moved : HeaviestTip right.shares left.bestShareTip := (one.active.heaviest (latest.trans final)).congr
      fun hash score => ⟨two.resolvedWith_of_skeleton one same.symm, one.resolvedWith_of_skeleton two same⟩
    exact moved.unique (two.active.heaviest final)

/-- Sound trees with the same links and checkpoints have the same active branch. -/
theorem SoundTree.active_eq (checkpoints : left.sharechainCheckpoints = right.sharechainCheckpoints) :
    left.bestShareTip = right.bestShareTip ∧ left.activeShareHashes = right.activeShareHashes ∧
      left.activeShareScoreTotal = right.activeShareScoreTotal ∧ left.hashrateScores = right.hashrateScores := by
  have tips := one.tip_eq two same checkpoints
  obtain ⟨path, tipPath, branch⟩ := one.active.branch
  obtain ⟨path', tipPath', branch'⟩ := two.active.branch
  rw [tips] at tipPath
  obtain rfl := (tipPath.congr same.symm).unique tipPath'
  refine ⟨tips, ?_, ?_, ?_⟩
  · apply ExtTreeSet.ext_mem
    intro hash
    rw [branch.hashes, branch'.hashes]
  · apply BitVec.eq_of_toNat_eq
    rw [branch.total, branch'.total, pathScore_congr same]
  · apply ext_entries
    intro miner score
    rw [branch.scores, branch'.scores, minerOf_congr same, minerScore_congr same]

end Trees

variable {share : Share} {before tree : ShareTree}

section Steps

variable {crypto : Crypto} {message : SharechainMessage} {after : SharechainReplayState}

section Kinds

variable {K V : Type} [Ord K] [TransOrd K] {key : V → K} {kind : V → SharechainMessage} {first store : ExtTreeMap K V}
  {added : V}

private theorem exists_insert (injective : Function.Injective kind) {P : V → Prop} :
    (∃ value, kind value ∈ insert (kind added) news ∧ P value) ↔ P added ∨ ∃ value, kind value ∈ news ∧ P value := by
  simp only [Set.mem_insert_iff, injective.eq_iff, or_and_right, exists_or, exists_eq_left]

private theorem setOf_insert_self (injective : Function.Injective kind) :
    { value | kind value ∈ insert (kind added) news } = insert added { value | kind value ∈ news } := by
  ext value
  simp [injective.eq_iff]

/-- A message of another kind adds nothing. -/
private theorem filled_other (filled : FilledWith key first store { value | kind value ∈ news })
    (other : ∀ value, kind value ≠ message) :
    FilledWith key first store { value | kind value ∈ insert message news } := by
  simpa [other] using filled

private theorem filled_keep (injective : Function.Injective kind)
    (filled : FilledWith key first store { value | kind value ∈ news }) (stored : store[key added]? = some added) :
    FilledWith key first store { value | kind value ∈ insert (kind added) news } := by
  rw [setOf_insert_self injective]
  exact filled.keep stored

private theorem filled_added [LawfulEqOrd K] (injective : Function.Injective kind)
    (filled : FilledWith key first store { value | kind value ∈ news }) (fresh : store[key added]? = none) :
    FilledWith key first (store.insert (key added) added) { value | kind value ∈ insert (kind added) news } := by
  rw [setOf_insert_self injective]
  exact filled.added fresh

end Kinds

/-- A verified registration is stored in its normal form. -/
theorem RegistrationVerified.stored_eq (verified : RegistrationVerified crypto registration) :
    registration.stored = registration.normalized := by
  have anchored : registration.registryAnchor.map MinerRegistryAnchorV1.normalized = registration.registryAnchor := by
    cases present : registration.registryAnchor with
    | none => rfl
    | some anchor => rw [Option.map_some, verified.anchor_normalized present]
  simp only [MinerRegistration.stored, MinerRegistration.normalized, anchored]

private theorem registryRank_lt_of_upgrade {existing candidate : MinerRegistration}
    (upgrade : isValidRegistryRegistrationUpgrade existing candidate = true) :
    registryRank existing < registryRank candidate := by
  unfold isValidRegistryRegistrationUpgrade at upgrade
  split_ifs at upgrade
  cases later : candidate.registryAnchor with
  | none => simp [later] at upgrade
  | some anchor =>
    cases earlier : existing.registryAnchor with
    | none => simp [registryRank, later, earlier]
    | some before =>
      simp only [later, earlier, decide_eq_true_eq] at upgrade
      have increases := BitVec.lt_def.mp upgrade.2.2
      simp only [registryRank, later, earlier, Option.elim_some]
      omega

theorem candidate_insert {other : MinerRegistration} {minerId : Text} :
    Candidate start (insert (.minerRegistration registration) news) minerId other ↔
      Candidate start news minerId other ∨ other = registration ∧ registration.minerId = minerId := by
  simp only [Candidate, Set.mem_insert_iff, SharechainMessage.minerRegistration.injEq]
  constructor
  · rintro (before | ⟨rfl | listed, same⟩)
    · exact .inl (.inl before)
    · exact .inr ⟨rfl, same⟩
    · exact .inl (.inr ⟨listed, same⟩)
  · rintro ((before | ⟨listed, same⟩) | ⟨rfl, same⟩)
    · exact .inl before
    · exact .inr ⟨.inr listed, same⟩
    · exact .inr ⟨.inl rfl, same⟩

private theorem RegistrationsReplayed.keep (replayed : RegistrationsReplayed start news state)
    (stored : state.registrations[registration.minerId]? = some registration) :
    RegistrationsReplayed start (insert (.minerRegistration registration) news) state := by
  have same : Candidate start (insert (.minerRegistration registration) news) = Candidate start news := by
    funext minerId other
    rw [eq_iff_iff, candidate_insert]
    refine or_iff_left_of_imp ?_
    rintro ⟨rfl, rfl⟩
    exact (replayed.highest _ _ stored).1
  exact ⟨by rw [same]; exact replayed.highest, by rw [same]; exact replayed.present⟩

/-- A registration that outranks the stored one becomes the highest. -/
theorem RegistrationsReplayed.replaced (replayed : RegistrationsReplayed start news state)
    (outranks : ∀ existing, state.registrations[registration.minerId]? = some existing →
      registryRank existing < registryRank registration) :
    RegistrationsReplayed start (insert (.minerRegistration registration) news) { state with
      registrations := state.registrations.insert registration.minerId registration } := by
  constructor
  · intro minerId stored present
    rw [getElem?_insert_eq] at present
    split_ifs at present with own
    · subst own
      obtain rfl := Option.some.inj present
      refine ⟨candidate_insert.mpr (.inr ⟨rfl, rfl⟩), fun other candidate => ?_⟩
      rcases candidate_insert.mp candidate with before | ⟨rfl, -⟩
      · right
        obtain ⟨existing, found⟩ := mem_iff_exists_getElem?.mp (replayed.present _ other before)
        have higher := outranks existing found
        rcases (replayed.highest _ existing found).2 other before with rfl | lower
        · exact higher
        · exact lower.trans higher
      · exact .inl rfl
    · obtain ⟨candidate, best⟩ := replayed.highest minerId stored present
      refine ⟨candidate_insert.mpr (.inl candidate), fun other candidate => ?_⟩
      rcases candidate_insert.mp candidate with before | ⟨rfl, same⟩
      · exact best other before
      · exact absurd same own
  · intro minerId other candidate
    rw [mem_treeMap_insert]
    rcases candidate_insert.mp candidate with before | ⟨rfl, same⟩
    · exact .inr (replayed.present minerId other before)
    · exact .inl same

private theorem RegistrationsReplayed.handled (replayed : RegistrationsReplayed start news state)
    (handled : Handled crypto state message after) :
    RegistrationsReplayed start (insert message.normalized news) after := by
  have unrelated : (∀ registration, .minerRegistration registration ≠ message.normalized) →
      after.registrations = state.registrations →
      RegistrationsReplayed start (insert message.normalized news) after := by
    intro other same
    have candidates : Candidate start (insert message.normalized news) = Candidate start news := by
      funext minerId registration
      simp [Candidate, other registration]
    exact ⟨by rw [candidates, same]; exact replayed.highest, by rw [candidates, same]; exact replayed.present⟩
  cases handled with
  | registrationKept verified stored =>
    rw [verified.stored_eq] at stored
    exact replayed.keep stored
  | registered verified upgrade =>
    rw [verified.stored_eq] at upgrade ⊢
    exact replayed.replaced fun existing stored => registryRank_lt_of_upgrade (upgrade existing stored)
  | _ => exact unrelated (by simp [SharechainMessage.normalized]) rfl

section Applied

variable (sound : SoundTree crypto mined before) (acyclic : AcyclicShares crypto mined) (member : share ∈ mined)
  (applied : ShareTree.applyShare crypto share before = .ok () tree)
include sound acyclic member applied

/-- An accepted share was not in the tree, or was there as it is. -/
theorem skeleton_before_applyShare {entry : Share × Text}
    (found : skeleton before.shares (share.shareHash crypto) = some entry) :
    entry = (share.normalized, share.normalized.parentShareHash) := by
  rcases applyShare_ok sound acyclic member applied with ⟨admits, -⟩ | ⟨-, node, stored, same⟩
  · rw [skeleton, admits.fresh] at found
    cases found
  · obtain ⟨other, -, normal, parent, -⟩ := sound.keyed _ node stored
    have parents : node.parentShareHash = share.normalized.parentShareHash := by
      rw [parent, ← same, normal]
      rfl
    rw [skeleton, stored, Option.map_some, same, parents] at found
    exact (Option.some.inj found).symm

/-- An accepted share is in the tree afterwards. -/
theorem skeleton_applyShare (hash : Text) : skeleton tree.shares hash = if share.shareHash crypto = hash
      then some (share.normalized, share.normalized.parentShareHash) else skeleton before.shares hash := by
  rcases applyShare_ok sound acyclic member applied with ⟨-, -, inserted, -⟩ | ⟨rfl, node, stored, -⟩
  · rw [inserted.skeleton_eq, admitted, skeleton_withShare]
    rfl
  · split_ifs with own
    · subst own
      have found : skeleton tree.shares (share.shareHash crypto) = some (node.share, node.parentShareHash) := by
        rw [skeleton, stored, Option.map_some]
      rw [found, skeleton_before_applyShare sound acyclic member applied found]
    · rfl

private theorem checkpoints_applyShare : tree.sharechainCheckpoints = before.sharechainCheckpoints := by
  rcases applyShare_ok sound acyclic member applied with ⟨-, -, inserted, -⟩ | ⟨rfl, -⟩
  · exact inserted.checkpoints_eq
  · rfl

end Applied

/-- Accepting a share adds its normal form to the shares of the tree. -/
theorem SharesReplayed.shared (replayed : SharesReplayed crypto start news state)
    (sound : SoundState crypto mined state) (acyclic : AcyclicShares crypto mined) (member : share ∈ mined)
    (applied : ShareTree.applyShare crypto share state.toShareTree = .ok () tree) :
    SharesReplayed crypto start (insert (.share share.normalized) news) { state with toShareTree := tree } := by
  intro hash entry
  rw [skeleton_applyShare sound.tree acyclic member applied, exists_insert fun _ _ => SharechainMessage.share.inj]
  split_ifs with own
  · subst own
    constructor
    · intro same
      exact .inr (.inl ⟨shareHash_normalized crypto share, Option.some.inj same⟩)
    · rintro (before | ⟨-, rfl⟩ | listed)
      · rw [skeleton_before_applyShare sound.tree acyclic member applied ((replayed _ entry).mpr (.inl before))]
      · rfl
      · rw [skeleton_before_applyShare sound.tree acyclic member applied ((replayed _ _).mpr (.inr listed))]
  · rw [replayed, shareHash_normalized]
    simp only [own, false_and, false_or]

private theorem SharesReplayed.handled (replayed : SharesReplayed crypto start news state)
    (sound : SoundState crypto mined state) (acyclic : AcyclicShares crypto mined)
    (member : ∀ share, message = .share share → share ∈ mined) (handled : Handled crypto state message after) :
    SharesReplayed crypto start (insert message.normalized news) after := by
  have unrelated : (∀ share, .share share ≠ message.normalized) → after.shares = state.shares →
      SharesReplayed crypto start (insert message.normalized news) after := by
    intro other same hash entry
    rw [same, replayed]
    simp [other]
  cases handled with
  | shared valid applied => exact replayed.shared sound acyclic (member _ rfl) applied
  | checkpointed accepted rebuilt =>
    exact unrelated (by simp [SharechainMessage.normalized]) (accepted.sound sound.tree rebuilt).2.shares_eq
  | _ => exact unrelated (by simp [SharechainMessage.normalized]) rfl

/-- Storing an accepted checkpoint, or meeting it again, fills the checkpoints with it. -/
theorem checkpoints_handled
    (filled : FilledWith SharechainCheckpointAnchorV1.round start.sharechainCheckpoints
      state.sharechainCheckpoints { checkpoint | .sharechainCheckpoint checkpoint ∈ news })
    (sound : SoundState crypto mined state) (acyclic : AcyclicShares crypto mined)
    (member : ∀ share, message = .share share → share ∈ mined) (handled : Handled crypto state message after) :
    FilledWith SharechainCheckpointAnchorV1.round start.sharechainCheckpoints after.sharechainCheckpoints
      { checkpoint | .sharechainCheckpoint checkpoint ∈ insert message.normalized news } := by
  have injective : Function.Injective SharechainMessage.sharechainCheckpoint := fun _ _ => by simp
  cases handled with
  | shared valid applied =>
    rw [checkpoints_applyShare sound.tree acyclic (member _ rfl) applied]
    exact filled_other filled (by simp [SharechainMessage.normalized])
  | checkpointKept stored => exact filled_keep injective filled stored
  | checkpointed accepted rebuilt =>
    obtain ⟨-, only⟩ := accepted.sound sound.tree rebuilt
    rw [only]
    exact filled_added injective filled accepted.fresh
  | _ => exact filled_other filled (by simp [SharechainMessage.normalized])

private theorem VotesReplayed.handled (replayed : VotesReplayed start news state)
    (handled : Handled crypto state message after) :
    VotesReplayed start (insert message.normalized news) after := by
  have unrelated : (∀ vote, .snapshotVote vote ≠ message.normalized) →
      after.snapshotVotes = state.snapshotVotes →
      VotesReplayed start (insert message.normalized news) after := by
    intro other same
    refine ⟨fun key => ?_, fun key voter => ?_⟩
    · rw [same, replayed.keys]
      simp [other]
    · rw [same, replayed.voters]
      simp [other]
  cases handled with
  | @voted vote _ _ _ =>
    have key_eq : voteKey vote.normalized = voteKey vote := by
      simp [voteKey, SnapshotVote.normalized]
    have injective : Function.Injective SharechainMessage.snapshotVote := fun _ _ => by simp
    constructor
    · intro key
      rw [SharechainMessage.normalized, mem_treeMap_insert, replayed.keys, exists_insert injective, key_eq,
        or_left_comm]
    · intro key voter
      have before := replayed.voters key voter
      rw [SharechainMessage.normalized, exists_insert injective, key_eq, getElem?_insert_eq]
      split_ifs with own
      · subst own
        rw [Option.getD_some, mem_treeSet_insert, before, or_left_comm]
        simp only [true_and]
        rfl
      · rw [before]
        simp only [own, false_and, false_or]
  | _ => exact unrelated (by simp [SharechainMessage.normalized]) rfl

/-- A schedule whose bindings are valid carries its own root. -/
theorem payoutRoot_of_bindings (valid : state.validatePayoutScheduleBindings crypto schedule = .ok ()) :
    schedule.payoutRoot = schedule.expectedPayoutRoot crypto := by
  simp only [validatePayoutScheduleBindings, except_bind_eq_ok, mapError_eq_ok, PayoutSchedule.validate,
    require_eq_ok] at valid
  obtain ⟨_, ⟨_, root, -⟩, -⟩ := valid
  exact root

/-- A proposal that is stored as it was sent is complete for its normal form. -/
theorem ProposalsReplayed.proposed (replayed : ProposalsReplayed crypto sent start news state)
    (proposed : Proposed crypto sent schedule)
    (kept : Retains state.proposedPayoutSchedules after.proposedPayoutSchedules)
    (source : ∀ (root : Text) (other : PayoutSchedule), after.proposedPayoutSchedules[root]? = some other →
      state.proposedPayoutSchedules[root]? = some other ∨
        other = schedule ∧ toAsciiLowercase schedule.payoutRoot = root)
    (stored : after.proposedPayoutSchedules[toAsciiLowercase schedule.payoutRoot]? = some schedule) :
    ProposalsReplayed crypto sent start (insert (.payoutSchedule schedule.normalizedForHash) news) after := by
  refine ⟨fun root other before => kept root other (replayed.kept root other before), fun root other found => ?_,
    fun proposal listed => ?_⟩
  · rcases source root other found with before | ⟨rfl, same⟩
    · rcases replayed.stored root other before with had | ⟨listed, rest⟩
      · exact .inl had
      · exact .inr ⟨.inr listed, rest⟩
    · exact .inr ⟨.inl rfl, proposed, same⟩
  · rcases listed with same | listed
    · obtain rfl := SharechainMessage.payoutSchedule.inj same
      refine ⟨schedule, proposed, rfl, ?_⟩
      simpa [PayoutSchedule.normalizedForHash] using stored
    · obtain ⟨other, proposed, same, found⟩ := replayed.complete proposal listed
      exact ⟨other, proposed, same, kept _ other found⟩

private theorem ProposalsReplayed.handled (replayed : ProposalsReplayed crypto sent start news state)
    (listed : message ∈ sent) (handled : Handled crypto state message after) :
    ProposalsReplayed crypto sent start (insert message.normalized news) after := by
  have unrelated : (∀ schedule, .payoutSchedule schedule ≠ message.normalized) →
      after.proposedPayoutSchedules = state.proposedPayoutSchedules →
      ProposalsReplayed crypto sent start (insert message.normalized news) after := by
    intro other same
    refine ⟨by rw [same]; exact replayed.kept, ?_, ?_⟩
    · rw [same]
      simpa [other] using replayed.stored
    · rw [same]
      simpa [other] using replayed.complete
  cases handled with
  | proposalKept valid stored =>
    exact replayed.proposed ⟨listed, payoutRoot_of_bindings valid⟩ (.refl _)
      (fun _ _ found => .inl found) stored
  | @proposed schedule valid fresh =>
    refine replayed.proposed ⟨listed, payoutRoot_of_bindings valid⟩ (retains_insert fresh) ?_
      ExtTreeMap.getElem?_insert_self
    intro root other found
    rw [getElem?_insert_eq] at found
    split_ifs at found with same
    · exact .inr ⟨(Option.some.inj found).symm, same⟩
    · exact .inl found
  | _ => exact unrelated (by simp [SharechainMessage.normalized]) rfl

private theorem requests_handled
    (filled : FilledWith WithdrawalRequest.requestId start.withdrawalRequests state.withdrawalRequests
      { request | .withdrawalRequest request ∈ news }) (handled : Handled crypto state message after) :
    FilledWith WithdrawalRequest.requestId start.withdrawalRequests after.withdrawalRequests
      { request | .withdrawalRequest request ∈ insert message.normalized news } := by
  have injective : Function.Injective SharechainMessage.withdrawalRequest := fun _ _ => by simp
  cases handled with
  | requestKept stored => exact filled_keep injective filled stored
  | requested valid covered fresh => exact filled_added injective filled fresh
  | _ => exact filled_other filled (by simp [SharechainMessage.normalized])

private theorem batches_handled
    (filled : FilledWith (WithdrawalBatch.batchHash crypto) start.withdrawalBatches state.withdrawalBatches
      { batch | .withdrawalBatch batch ∈ news }) (handled : Handled crypto state message after) :
    FilledWith (WithdrawalBatch.batchHash crypto) start.withdrawalBatches after.withdrawalBatches
      { batch | .withdrawalBatch batch ∈ insert message.normalized news } := by
  have injective : Function.Injective SharechainMessage.withdrawalBatch := fun _ _ => by simp
  cases handled with
  | batchKept stored => exact filled_keep injective filled stored
  | batched fresh expected reserved => exact filled_added injective filled fresh
  | _ => exact filled_other filled (by simp [SharechainMessage.normalized])

/-- A ledger that was not touched is described by the same batches when requests are only added. -/
theorem LedgerReplayed.grown {more : Set SharechainMessage} (replayed : LedgerReplayed crypto start news state)
    (same : after.claimLedger = state.claimLedger)
    (grows : Retains state.withdrawalRequests after.withdrawalRequests)
    (batches : ∀ batch, start.withdrawalBatches[batch.batchHash crypto]? = none →
      (.withdrawalBatch batch ∈ more ↔ .withdrawalBatch batch ∈ news)) :
    LedgerReplayed crypto start more after := by
  obtain ⟨list, distinct, members, known, reserved⟩ := replayed
  refine ⟨list, distinct, fun batch => ?_, fun batch member output inside => ?_, ?_⟩
  · rw [members]
    exact and_congr_left fun absent => (batches batch absent).symm
  · obtain ⟨request, stored⟩ := known batch member output inside
    exact ⟨request, grows _ request stored⟩
  · have reservations : (list.flatMap fun batch => reservationsOf after.withdrawalRequests batch.outputs) =
        list.flatMap fun batch => reservationsOf state.withdrawalRequests batch.outputs :=
      List.flatMap_congr fun batch member => reservationsOf_congr (known batch member) grows
    rw [same, reservations]
    exact reserved

/-- Reserving a new batch appends it to the batches the ledger is described by. -/
theorem LedgerReplayed.batched {batch : WithdrawalBatch} {ledger : ClaimLedger}
    (replayed : LedgerReplayed crypto start news state)
    (filled : FilledWith (WithdrawalBatch.batchHash crypto) start.withdrawalBatches state.withdrawalBatches
      { batch | .withdrawalBatch batch ∈ news })
    (fresh : state.withdrawalBatches[batch.batchHash crypto]? = none)
    (reserved : state.reserveOutputs crypto 0 batch.outputs state.claimLedger = .ok () ledger) :
    LedgerReplayed crypto start (insert (.withdrawalBatch batch) news) { state with
      claimLedger := ledger
      withdrawalBatches := state.withdrawalBatches.insert (batch.batchHash crypto) batch } := by
  obtain ⟨list, distinct, members, known, all⟩ := replayed
  obtain ⟨outputs, found⟩ := reserveOutputs_ok reserved
  have absent : start.withdrawalBatches[batch.batchHash crypto]? = none := by
    rw [Option.eq_none_iff_forall_ne_some]
    intro other stored
    rw [(filled _ other).mpr (.inl stored)] at fresh
    cases fresh
  have unlisted : batch ∉ list := by
    intro member
    rw [(filled _ batch).mpr (.inr ⟨((members batch).mp member).1, rfl⟩)] at fresh
    cases fresh
  refine ⟨list ++ [batch], ?_, fun other => ?_, fun other member => ?_, ?_⟩
  · exact List.nodup_append.mpr ⟨distinct, List.nodup_singleton _, by
      rintro left inside right outside rfl
      exact unlisted (List.mem_singleton.mp outside ▸ inside)⟩
  · rw [List.mem_append, members, List.mem_singleton, Set.mem_insert_iff, SharechainMessage.withdrawalBatch.injEq]
    constructor
    · rintro (⟨listed, none⟩ | rfl)
      · exact ⟨.inr listed, none⟩
      · exact ⟨.inl rfl, absent⟩
    · rintro ⟨rfl | listed, none⟩
      · exact .inr rfl
      · exact .inl ⟨listed, none⟩
  · rcases List.mem_append.mp member with inside | last
    · exact known other inside
    · rw [List.mem_singleton.mp last]
      exact found
  · rw [List.flatMap_append, List.flatMap_singleton]
    exact ReservedAll.append.mpr ⟨_, all, outputs⟩

private theorem LedgerReplayed.handled (replayed : LedgerReplayed crypto start news state)
    (filled : FilledWith (WithdrawalBatch.batchHash crypto) start.withdrawalBatches state.withdrawalBatches
      { batch | .withdrawalBatch batch ∈ news }) (handled : Handled crypto state message after) :
    LedgerReplayed crypto start (insert message.normalized news) after := by
  have unrelated : (∀ batch, .withdrawalBatch batch ≠ message.normalized) →
      after.claimLedger = state.claimLedger → after.withdrawalRequests = state.withdrawalRequests →
      LedgerReplayed crypto start (insert message.normalized news) after := by
    intro other same requests
    exact replayed.grown same (by rw [requests]; exact .refl _) (fun batch _ => by simp [other])
  cases handled with
  | requested valid covered fresh =>
    exact replayed.grown rfl (retains_insert fresh) (fun batch _ => by simp [SharechainMessage.normalized])
  | @batchKept batch stored =>
    refine replayed.grown rfl (.refl _) fun other absent => ?_
    rw [SharechainMessage.normalized, Set.mem_insert_iff, SharechainMessage.withdrawalBatch.injEq]
    refine or_iff_right_of_imp ?_
    rintro rfl
    rcases (filled _ _).mp stored with before | ⟨listed, -⟩
    · rw [absent] at before
      cases before
    · exact listed
  | batched fresh expected reserved => exact replayed.batched filled fresh reserved
  | _ => exact unrelated (by simp [SharechainMessage.normalized]) rfl rfl

theorem Handled.appliedMessageHashes_eq (handled : Handled crypto state message after) :
    after.appliedMessageHashes = state.appliedMessageHashes := by
  cases handled <;> rfl

/-- Handling a message and marking it adds its normal form to the description. -/
theorem Replayed.handled (replayed : Replayed crypto sent start news state) (sound : SoundState crypto mined state)
    (acyclic : AcyclicShares crypto mined) (member : ∀ share, message = .share share → share ∈ mined)
    (listed : message ∈ sent) (handled : Handled crypto state message after) :
    Replayed crypto sent start (insert message.normalized news) (marked crypto message after) := by
  have registrations := replayed.registrations.handled handled
  have votes := replayed.votes.handled handled
  have proposals := replayed.proposals.handled listed handled
  have shares := replayed.shares.handled sound acyclic member handled
  have checkpoints := checkpoints_handled replayed.checkpoints sound acyclic member handled
  have requests := requests_handled replayed.requests handled
  have batches := batches_handled replayed.batches handled
  have ledger := replayed.ledger.handled replayed.batches handled
  refine ⟨fun hash => ?_, ⟨registrations.highest, registrations.present⟩, shares, checkpoints,
    ⟨votes.keys, votes.voters⟩, ⟨proposals.kept, proposals.stored, proposals.complete⟩, requests, batches, ledger⟩
  rw [marked, mem_treeSet_insert, handled.appliedMessageHashes_eq, replayed.applied]
  simp only [Set.mem_insert_iff, exists_eq_or_imp, messageHash_normalized]
  exact ⟨fun either => by tauto, fun either => by tauto⟩

private theorem Replayed.initial (crypto : Crypto) (sent : Set SharechainMessage) (start : SharechainReplayState) :
    Replayed crypto sent start ∅ start where
  applied hash := by simp
  registrations := by
    refine ⟨fun minerId registration stored => ⟨.inl stored, fun other candidate => .inl ?_⟩,
      fun minerId registration candidate => ?_⟩
    · rcases candidate with had | ⟨listed, -⟩
      · exact Option.some.inj (had.symm.trans stored)
      · exact absurd listed (Set.notMem_empty _)
    · rcases candidate with had | ⟨listed, -⟩
      · exact mem_iff_exists_getElem?.mpr ⟨_, had⟩
      · exact absurd listed (Set.notMem_empty _)
  shares hash entry := by simp
  checkpoints := .refl _ _
  votes := ⟨fun key => by simp, fun key voter => by simp⟩
  proposals := ⟨fun _ _ stored => stored, fun _ _ stored => .inl stored,
    fun proposal listed => absurd listed (Set.notMem_empty _)⟩
  requests := .refl _ _
  batches := .refl _ _
  ledger := ⟨[], List.nodup_nil, by simp, by simp, rfl⟩

end Steps

section Runs

variable {crypto : Crypto} {messages : List SharechainMessage}

/-- The normal forms of the messages that a state has not applied yet. -/
def newsOf (crypto : Crypto) (start : SharechainReplayState) (messages : List SharechainMessage) :
    Set SharechainMessage :=
  { news | ∃ message ∈ messages, message.messageHash crypto ∉ start.appliedMessageHashes ∧
    message.normalized = news }

private theorem newsOf_concat_of_mem {message : SharechainMessage}
    (known : message.messageHash crypto ∈ start.appliedMessageHashes ∨
      message.normalized ∈ newsOf crypto start messages) :
    newsOf crypto start (messages ++ [message]) = newsOf crypto start messages := by
  ext news
  simp only [newsOf, List.mem_append, List.mem_singleton, Set.mem_ofPred_eq]
  constructor
  · rintro ⟨other, inside | rfl, fresh, rfl⟩
    · exact ⟨other, inside, fresh, rfl⟩
    · rcases known with applied | listed
      · exact absurd applied fresh
      · exact listed
  · rintro ⟨other, inside, rest⟩
    exact ⟨other, .inl inside, rest⟩

private theorem newsOf_concat_of_fresh {message : SharechainMessage}
    (fresh : message.messageHash crypto ∉ start.appliedMessageHashes) :
    newsOf crypto start (messages ++ [message]) = insert message.normalized (newsOf crypto start messages) := by
  ext news
  simp only [newsOf, List.mem_append, List.mem_singleton, Set.mem_ofPred_eq, Set.mem_insert_iff]
  constructor
  · rintro ⟨other, inside | rfl, rest⟩
    · exact .inr ⟨other, inside, rest⟩
    · exact .inl rest.2.symm
  · rintro (rfl | ⟨other, inside, rest⟩)
    · exact ⟨message, .inr rfl, fresh, rfl⟩
    · exact ⟨other, .inl inside, rest⟩

private theorem newsOf_perm {others : List SharechainMessage} (permuted : messages.Perm others) :
    newsOf crypto start messages = newsOf crypto start others := by
  ext news
  simp only [newsOf, permuted.mem_iff]

/-- Every accepted list of messages leaves the state its normal forms describe. -/
theorem replayed_of_run (collisionFree : CollisionFree crypto (replayPreimages sent))
    (sound : SoundState crypto mined start) (acyclic : AcyclicShares crypto mined)
    (shares : ∀ share, .share share ∈ sent → share ∈ mined) (within : ∀ message ∈ messages, message ∈ sent)
    (reached : run? (ReplayOp.step? crypto) start (messages.map .applyMessage) = some state) :
    Replayed crypto sent start (newsOf crypto start messages) state ∧ SoundState crypto mined state := by
  -- The description grows at the end of the list, so the induction is from the right.
  induction messages using List.reverseRecOn generalizing state with
  | nil =>
    obtain rfl := Option.some.inj reached
    have none : newsOf crypto start [] = ∅ := by
      simp [newsOf]
    rw [none]
    exact ⟨.initial crypto sent start, sound⟩
  | append_singleton early message ih =>
    rw [List.map_append, List.map_singleton, run?_concat_eq_some] at reached
    obtain ⟨middle, before, step⟩ := reached
    have listed : message ∈ sent := within message (by simp)
    obtain ⟨replayed, soundMiddle⟩ := ih (fun other inside => within other (List.mem_append_left _ inside)) before
    have member : ∀ share, message = .share share → share ∈ mined := fun share same => shares share (same ▸ listed)
    have soundAfter :=
      (soundMiddle.step acyclic (fun share same => member share (ReplayOp.applyMessage.inj same)) step).1
    refine ⟨?_, soundAfter⟩
    cases ReplayOp.stepped step with
    | ignored known same =>
      subst same
      rw [newsOf_concat_of_mem]
      · exact replayed
      · rcases (replayed.applied _).mp known with applied | ⟨news, inside, same⟩
        · exact .inl applied
        · right
          obtain ⟨other, earlier, fresh, rfl⟩ := inside
          rw [messageHash_normalized] at same
          have equal := collisionFree.eq_of_taggedHashHex
            (.inl ⟨other, within other (List.mem_append_left _ earlier), rfl⟩) (.inl ⟨message, listed, rfl⟩) same
          exact ⟨other, earlier, fresh, HashPreimage.sharechainMessage.inj equal⟩
    | message fresh handled marks =>
      subst marks
      have unapplied : message.messageHash crypto ∉ start.appliedMessageHashes :=
        fun applied => fresh ((replayed.applied _).mpr (.inl applied))
      rw [newsOf_concat_of_fresh unapplied]
      exact replayed.handled soundMiddle acyclic member listed handled
    | accepted prefixes ledger other effect => exact absurd rfl (other message)

end Runs

/-- Two orders of the same messages in which every message is accepted, from the same reachable
state, leave the same accounting state: the active branch, the registrations, checkpoints, votes,
proposals, withdrawals and the ledger are equal, and so are the roots that commit to them. -/
theorem replay_order_independent (crypto : Crypto) (history : List ReplayOp) (start : SharechainReplayState)
    (first second : List SharechainMessage) (left right : SharechainReplayState)
    (reached : run? (ReplayOp.step? crypto) {} history = some start) (permuted : first.Perm second)
    (collisionFree : CollisionFree crypto (replayPreimages { message | message ∈ first }))
    (acyclic : AcyclicShares crypto (sharesOf (history ++ first.map .applyMessage)))
    (firstRun : run? (ReplayOp.step? crypto) start (first.map .applyMessage) = some left)
    (secondRun : run? (ReplayOp.step? crypto) start (second.map .applyMessage) = some right) :
    left.accountingStateRoot crypto = right.accountingStateRoot crypto ∧
    left.bestShareTip = right.bestShareTip ∧ left.activeShareHashes = right.activeShareHashes ∧
    left.activeShareScoreTotal = right.activeShareScoreTotal ∧ left.hashrateScores = right.hashrateScores ∧
    left.registrations = right.registrations ∧ left.sharechainCheckpoints = right.sharechainCheckpoints ∧
    left.snapshotVotes = right.snapshotVotes ∧ left.proposedPayoutSchedules = right.proposedPayoutSchedules ∧
    left.withdrawalRequests = right.withdrawalRequests ∧ left.withdrawalBatches = right.withdrawalBatches ∧
    left.claimLedger = right.claimLedger := by
  obtain ⟨sound, -⟩ := (SoundState.initial crypto _).run acyclic
    (fun share => List.mem_append_left (first.map ReplayOp.applyMessage)) reached
  have shares : ∀ share, .share share ∈ { message | message ∈ first } →
      share ∈ sharesOf (history ++ first.map .applyMessage) := by
    intro share listed
    have mapped : ReplayOp.applyMessage (.share share) ∈ first.map ReplayOp.applyMessage :=
      List.mem_map.mpr ⟨_, listed, rfl⟩
    exact List.mem_append_right history mapped
  obtain ⟨one, soundLeft⟩ := replayed_of_run collisionFree sound acyclic shares (fun _ listed => listed) firstRun
  obtain ⟨two, soundRight⟩ := replayed_of_run collisionFree sound acyclic shares
    (fun _ listed => permuted.mem_iff.mpr listed) secondRun
  rw [← newsOf_perm permuted] at two
  have checkpoints := one.checkpoints.unique two.checkpoints
  obtain ⟨tips, actives, totals, scores⟩ :=
    soundLeft.tree.active_eq soundRight.tree (one.shares.unique two.shares) checkpoints
  have registrations := one.registrations.unique two.registrations
  have votes := one.votes.unique two.votes
  have proposals := one.proposals.unique collisionFree two.proposals
  have requests := one.requests.unique two.requests
  have batches := one.batches.unique two.batches
  have ledgers := one.ledger.unique two.ledger requests
  have materials : left.accountingMaterial = right.accountingMaterial := by
    refine (AccountingStateRootMaterial.mk.injEq ..).mpr ⟨rfl, tips, congrArg _ actives, totals, scores,
      congrArg _ registrations, checkpoints, ?_, proposals, congrArg _ requests, batches, ledgers⟩
    rw [votes]
  exact ⟨congrArg (fun material => taggedHashHex crypto (.accountingState material)) materials, tips, actives,
    totals, scores, registrations, checkpoints, votes, proposals, requests, batches, ledgers⟩

namespace Sample

/-- The messages of a root share and its child. -/
def family : List SharechainMessage := [.share rootShare, .share childShare]

private theorem family_collisionFree : CollisionFree crypto (replayPreimages { message | message ∈ family }) := by
  have apart : crypto.sha256Tagged (.sharechainMessage (SharechainMessage.share rootShare).normalized) ≠
      crypto.sha256Tagged (.sharechainMessage (SharechainMessage.share childShare).normalized) := by
    decide +kernel
  have listed : ∀ preimage ∈ replayPreimages { message | message ∈ family },
      preimage = .sharechainMessage (SharechainMessage.share rootShare).normalized ∨
        preimage = .sharechainMessage (SharechainMessage.share childShare).normalized := by
    rintro preimage (⟨message, inside, rfl⟩ | ⟨schedule, inside, -⟩)
    · rcases List.mem_pair.mp inside with rfl | rfl
      · exact .inl rfl
      · exact .inr rfl
    · rcases List.mem_pair.mp inside with same | same <;> cases same
  intro left leftListed right rightListed same
  rcases listed left leftListed with rfl | rfl <;> rcases listed right rightListed with rfl | rfl
  · rfl
  · exact absurd same apart
  · exact absurd same.symm apart
  · rfl

private theorem family_acyclic : AcyclicShares crypto (sharesOf (ops.take 3 ++ family.map .applyMessage)) := by
  apply acyclic.mono
  intro share mined
  have listed : share = rootShare ∨ share = childShare := by
    simpa [sharesOf, ops, family] using mined
  rcases listed with rfl | rfl <;> simp [sharesOf, ops]

end Sample

theorem replay_order_independent_sample : ∃ start left right,
    run? (ReplayOp.step? Sample.crypto) {} (Sample.ops.take 3) = some start ∧
    run? (ReplayOp.step? Sample.crypto) start (Sample.family.map .applyMessage) = some left ∧
    run? (ReplayOp.step? Sample.crypto) start (Sample.family.reverse.map .applyMessage) = some right ∧
    left.accountingStateRoot Sample.crypto = right.accountingStateRoot Sample.crypto := by
  have reached : (run? (ReplayOp.step? Sample.crypto) {} (Sample.ops.take 3)).any (fun start =>
      (run? (ReplayOp.step? Sample.crypto) start (Sample.family.map .applyMessage)).isSome &&
        (run? (ReplayOp.step? Sample.crypto) start (Sample.family.reverse.map .applyMessage)).isSome) = true := by
    decide +kernel
  simp only [Option.any_eq_true, Bool.and_eq_true, Option.isSome_iff_exists] at reached
  obtain ⟨start, before, ⟨left, firstRun⟩, right, secondRun⟩ := reached
  exact ⟨start, left, right, before, firstRun, secondRun, (replay_order_independent Sample.crypto
    (Sample.ops.take 3) start Sample.family Sample.family.reverse left right before
    (List.reverse_perm _).symm Sample.family_collisionFree Sample.family_acyclic firstRun secondRun).1⟩

variable {crypto : Crypto} {ops : List ReplayOp}

/-- The marks are exactly the hashes of the delivered messages. -/
theorem mem_applied_of_run (reached : run? (ReplayOp.step? crypto) {} ops = some state) (hash : Text) :
    hash ∈ state.appliedMessageHashes ↔ ∃ message, .applyMessage message ∈ ops ∧ message.messageHash crypto = hash := by
  induction ops using List.reverseRecOn generalizing state hash with
  | nil =>
    obtain rfl := Option.some.inj reached
    simp
  | append_singleton early op ih =>
    obtain ⟨before, run, step⟩ := run?_concat_eq_some.mp reached
    cases ReplayOp.stepped step with
    | message _ handled marks =>
      rw [marks, marked, mem_treeSet_insert, handled.appliedMessageHashes_eq, ih run]
      simp [or_and_right, exists_or, or_comm, eq_comm]
    | ignored known same =>
      obtain ⟨message, delivered, marks⟩ := (ih run _).mp known
      rw [same, ih run]
      grind
    | accepted prefixes ledger other effect =>
      rw [effect]
      grind

/-- Delivering a message again, in any case and after anything else, changes neither whether the rest of a run is
accepted nor the state it leaves. -/
theorem redelivery_absorbed (crypto : Crypto) (early late : List ReplayOp) (message again : SharechainMessage)
    (delivered : .applyMessage message ∈ early) (same : again.normalized = message.normalized) :
    run? (ReplayOp.step? crypto) {} (early ++ .applyMessage again :: late) =
      run? (ReplayOp.step? crypto) {} (early ++ late) := by
  simp only [run?, List.foldlM_append]
  cases run : List.foldlM (ReplayOp.step? crypto) {} early with
  | none => rfl
  | some state =>
    have known := (mem_applied_of_run run (again.messageHash crypto)).mpr
      ⟨message, delivered, by rw [← messageHash_normalized, ← same, messageHash_normalized]⟩
    have absorbed : ReplayOp.step? crypto state (.applyMessage again) = some state := by
      simp [ReplayOp.step?, stateAfter?, applyMessage, known]
    simp [absorbed]

/-- The first share with its miner in upper case. -/
def Sample.shouted : Share := { Sample.rootShare with minerId := "ALICE".toList }

theorem redelivery_absorbed_rootShare : Sample.shouted ≠ Sample.rootShare ∧ ∃ state,
    run? (ReplayOp.step? Sample.crypto) {} (Sample.ops.take 5 ++ .applyMessage (.share Sample.shouted) ::
      Sample.ops.drop 5) = some state ∧ run? (ReplayOp.step? Sample.crypto) {} Sample.ops = some state := by
  obtain ⟨state, run⟩ := Option.isSome_iff_exists.mp Sample.reached
  have absorbed := redelivery_absorbed Sample.crypto (Sample.ops.take 5) (Sample.ops.drop 5) (.share Sample.rootShare)
    (.share Sample.shouted) (by simp [Sample.ops]) rfl
  exact ⟨by decide, state, absorbed.trans run, run⟩

end P2PoolBTC.Soundness
