import P2PoolBTC.Math.CaseFolding
import P2PoolBTC.Math.Run
import P2PoolBTC.Model.Node.PeerAuth

/-! # Replays of authenticated peer requests

Calls read the clock when they start and wait for the lock of the nonce cache. The cache is pruned with
the reading of whichever call holds the lock. As long as the lock is taken in the order of the readings,
a nonce is only forgotten when no later call can accept its timestamp; a call that was overtaken can
accept a request a second time.
-/

namespace P2PoolBTC.Soundness

open Math Std Model.Core Model.Node

variable {μ : Type} {hmac : PayloadHmac μ} {capability : List UInt8} {replay : ForkPeerReplayState}

/-! ## Calls on one replay state -/

/-- A call that has read the clock and has not taken the lock yet. -/
structure PeerCall (μ : Type) where
  request : ForkWireRequest μ
  nowUnix : U64
deriving DecidableEq

/-- The clock, the calls in flight, the nonce cache, the requests accepted so far and the latest reading
that took the lock. -/
structure PeerAuthSystem (μ : Type) where
  clock : U64
  waiting : List (PeerCall μ) := []
  replay : ForkPeerReplayState := {}
  accepted : List (ForkWireRequest μ) := []
  lastReading : U64 := 0

inductive PeerEvent (μ : Type) where
  | advance (clock : U64)
  | start (request : ForkWireRequest μ)
  | finish (index : ℕ)
deriving DecidableEq

/-- One event. The clock never goes back, a call starts with the current reading, and any waiting call may
be the next to go through; calls that fail a check never take the lock. -/
def PeerAuthSystem.step (hmac : PayloadHmac μ) (capability : List UInt8) (system : PeerAuthSystem μ) :
    PeerEvent μ → Option (PeerAuthSystem μ)
  | .advance clock => if system.clock ≤ clock then some { system with clock := clock } else none
  | .start request => some { system with waiting := system.waiting ++ [⟨request, system.clock⟩] }
  | .finish index => do
    let call ← system.waiting[index]?
    let rest := { system with waiting := system.waiting.eraseIdx index }
    match checkPeerRequestAuth hmac call.request capability call.nowUnix with
    | .error _ => some rest
    | .ok _ =>
      let rest := { rest with lastReading := call.nowUnix }
      match verifyPeerRequestAuth hmac call.request capability call.nowUnix system.replay with
      | .ok _ replay => some { rest with replay := replay, accepted := call.request :: system.accepted }
      | .error _ replay => some { rest with replay := replay }

/-- A call that takes the lock has read the clock no earlier than the last one that took it. -/
def PeerAuthSystem.InOrder (hmac : PayloadHmac μ) (capability : List UInt8) (system : PeerAuthSystem μ) :
    PeerEvent μ → Prop
  | .finish index => ∀ call ∈ system.waiting[index]?,
    (checkPeerRequestAuth hmac call.request capability call.nowUnix).toOption.isSome = true →
      system.lastReading ≤ call.nowUnix
  | _ => True

instance (system : PeerAuthSystem μ) : (event : PeerEvent μ) → Decidable (system.InOrder hmac capability event)
  | .advance _ => inferInstanceAs (Decidable True)
  | .start _ => inferInstanceAs (Decidable True)
  | .finish _ => inferInstanceAs (Decidable (∀ _ ∈ _, _))

/-- One event that keeps the order of the readings. -/
def PeerAuthSystem.stepInOrder (hmac : PayloadHmac μ) (capability : List UInt8) (system : PeerAuthSystem μ)
    (event : PeerEvent μ) : Option (PeerAuthSystem μ) :=
  if system.InOrder hmac capability event then system.step hmac capability event else none

/-! ## One verification -/

private theorem constantTimeBytesEq_iff {left right : List UInt8} :
    constantTimeBytesEq left right = true ↔ left = right := by
  have folded : ∀ (pairs : List (UInt8 × UInt8)) (start : UInt8),
      pairs.foldl (fun difference pair => difference ||| (pair.1 ^^^ pair.2)) start = 0 ↔
        start = 0 ∧ ∀ pair ∈ pairs, pair.1 = pair.2 := by
    intro pairs
    induction pairs with
    | nil => simp
    | cons pair rest ih =>
      intro start
      rw [List.foldl_cons, ih, UInt8.or_eq_zero_iff, UInt8.xor_eq_zero_iff, List.forall_mem_cons, and_assoc]
  unfold constantTimeBytesEq
  split
  · next differ => exact ⟨fun impossible => absurd impossible (by decide), fun same => absurd (congrArg _ same) differ⟩
  · next sizes =>
    rw [beq_iff_eq, folded, ← List.forall₂_eq_eq_eq, List.forall₂_iff_zip]
    exact ⟨fun same => ⟨not_not.mp sizes, fun member => same.2 _ member⟩,
      fun same => ⟨rfl, fun _ member => same.2 member⟩⟩

variable {nowUnix : U64}

/-- What the checks before the lock establish. -/
theorem checkPeerRequestAuth_eq_ok {request : ForkWireRequest μ} {auth : ForkWireAuth}
    (checked : checkPeerRequestAuth hmac request capability nowUnix = .ok auth) :
    request.auth = some auth ∧ absDiff nowUnix auth.timestampUnix ≤ forkP2pAuthWindowSeconds ∧
      hexDecode? auth.macHex = some (hmac capability (request.authPayload auth.timestampUnix auth.nonceHex)).bytes := by
  simp only [checkPeerRequestAuth, except_bind_eq_ok, okOr_eq_ok, require_eq_ok, exists_const, constantTimeBytesEq_iff,
    peerRequestMac, hashHex, hexDecode?_hexEncode, Option.some.injEq] at checked
  obtain ⟨found, present, near, _, _, _, _, _, provided, decoded, _, rfl, rfl, made⟩ := checked
  cases made
  exact ⟨present, near, decoded⟩

/-- The cache after pruning with a reading. -/
def pruned (nowUnix : U64) (replay : ForkPeerReplayState) : ExtTreeMap Text U64 :=
  replay.nonces.filter fun _ timestamp => absDiff nowUnix timestamp ≤ forkP2pAuthWindowSeconds

private theorem getElem?_pruned {timestamp : U64} {nonce : Text} :
    (pruned nowUnix replay)[nonce]? = some timestamp ↔
      replay.nonces[nonce]? = some timestamp ∧ absDiff nowUnix timestamp ≤ forkP2pAuthWindowSeconds := by
  simp [pruned, Option.filter_eq_some_iff]

/-- Under the lock the cache is pruned, and it gets the nonce exactly when the call is accepted. -/
theorem recordNonce_cases (nowUnix : U64) (auth : ForkWireAuth) (before : ForkPeerReplayState) :
    (∃ fault, recordNonce nowUnix auth before = .error fault { before with nonces := pruned nowUnix before }) ∨
      recordNonce nowUnix auth before = .ok () { before with
          nonces := (pruned nowUnix before).insert auth.nonceHex auth.timestampUnix } ∧
        (pruned nowUnix before)[auth.nonceHex]? = none ∧ (pruned nowUnix before).size < maxP2pAuthNonces := by
  have unfolded : recordNonce nowUnix auth before = (do
      attempt (require (auth.nonceHex ∉ pruned nowUnix before) "fork peer authentication nonce was already used")
      attempt (require ((pruned nowUnix before).size < maxP2pAuthNonces)
        "fork peer authentication replay cache capacity exceeded")
      set ({ before with nonces := (pruned nowUnix before).insert auth.nonceHex auth.timestampUnix } :
        ForkPeerReplayState) : Routine ForkPeerReplayState String Unit)
      { before with nonces := pruned nowUnix before } := rfl
  rw [unfolded]
  by_cases known : auth.nonceHex ∈ pruned nowUnix before
  · left
    rw [require, if_neg (not_not.mpr known)]
    exact ⟨_, rfl⟩
  · rw [require_of_true known, Routine.attempt_ok, Routine.pure_bind_apply]
    by_cases room : (pruned nowUnix before).size < maxP2pAuthNonces
    · right
      rw [require_of_true room]
      exact ⟨rfl, ExtTreeMap.getElem?_eq_none known, room⟩
    · left
      rw [require, if_neg room]
      exact ⟨_, rfl⟩

/-! ## One event -/

/-- What an event can do to the cache and to the accepted requests. -/
inductive PeerOutcome (hmac : PayloadHmac μ) (capability : List UInt8) (before after : PeerAuthSystem μ) : Prop where
  | unchanged (replay : after.replay = before.replay) (accepted : after.accepted = before.accepted)
      (reading : after.lastReading = before.lastReading)
  | refused (nowUnix : U64) (replay : after.replay.nonces = pruned nowUnix before.replay)
      (accepted : after.accepted = before.accepted) (reading : after.lastReading = nowUnix)
  | recorded (request : ForkWireRequest μ) (nowUnix : U64) (auth : ForkWireAuth)
      (checked : checkPeerRequestAuth hmac request capability nowUnix = .ok auth)
      (fresh : (pruned nowUnix before.replay)[auth.nonceHex]? = none)
      (room : (pruned nowUnix before.replay).size < maxP2pAuthNonces)
      (replay : after.replay.nonces = (pruned nowUnix before.replay).insert auth.nonceHex auth.timestampUnix)
      (accepted : after.accepted = request :: before.accepted) (reading : after.lastReading = nowUnix)

variable {before after : PeerAuthSystem μ}

private theorem step_outcome {event : PeerEvent μ} (stepped : before.step hmac capability event = some after) :
    PeerOutcome hmac capability before after ∧
      (before.InOrder hmac capability event → before.lastReading ≤ after.lastReading) := by
  cases event with
  | advance clock =>
    simp only [PeerAuthSystem.step, Option.ite_none_right_eq_some, Option.some.injEq] at stepped
    obtain ⟨_, rfl⟩ := stepped
    exact ⟨.unchanged rfl rfl rfl, fun _ => BitVec.le_refl _⟩
  | start request =>
    cases stepped
    exact ⟨.unchanged rfl rfl rfl, fun _ => BitVec.le_refl _⟩
  | finish index =>
    simp only [PeerAuthSystem.step, Option.bind_eq_bind, Option.bind_eq_some_iff] at stepped
    obtain ⟨call, waiting, stepped⟩ := stepped
    cases checked : checkPeerRequestAuth hmac call.request capability call.nowUnix with
    | error fault =>
      rw [checked] at stepped
      cases stepped
      exact ⟨.unchanged rfl rfl rfl, fun _ => BitVec.le_refl _⟩
    | ok auth =>
      have verified : verifyPeerRequestAuth hmac call.request capability call.nowUnix before.replay =
          recordNonce call.nowUnix auth before.replay := by
        rw [verifyPeerRequestAuth, checked, Routine.settle_ok, Routine.pure_bind_apply]
      have ordered (inOrder : before.InOrder hmac capability (.finish index)) : before.lastReading ≤ call.nowUnix :=
        inOrder call waiting (by rw [checked]; rfl)
      rw [checked, verified] at stepped
      rcases recordNonce_cases call.nowUnix auth before.replay with
        ⟨fault, refused⟩ | ⟨recorded, fresh, room⟩
      · rw [refused] at stepped
        cases stepped
        exact ⟨.refused call.nowUnix rfl rfl rfl, ordered⟩
      · rw [recorded] at stepped
        cases stepped
        exact ⟨.recorded call.request call.nowUnix auth checked fresh room rfl rfl rfl, ordered⟩

/-! ## Whole runs -/

/-- What a replay is recognised by. -/
def requestKey (request : ForkWireRequest μ) : Option (U64 × Text) :=
  request.auth.map fun auth => (auth.timestampUnix, auth.nonceHex)

/-- The cache is bounded and every accepted request carries the tag of its own payload. -/
structure TagsChecked (hmac : PayloadHmac μ) (capability : List UInt8) (system : PeerAuthSystem μ) : Prop where
  bounded : system.replay.nonces.size ≤ maxP2pAuthNonces
  tagged : ∀ request ∈ system.accepted, ∃ auth, request.auth = some auth ∧
    hexDecode? auth.macHex = some (hmac capability (request.authPayload auth.timestampUnix auth.nonceHex)).bytes

private theorem size_pruned_le (nowUnix : U64) (replay : ForkPeerReplayState) :
    (pruned nowUnix replay).size ≤ replay.nonces.size := ExtTreeMap.size_filter_le_size

private theorem TagsChecked.step (held : TagsChecked hmac capability before)
    (outcome : PeerOutcome hmac capability before after) : TagsChecked hmac capability after := by
  cases outcome with
  | unchanged replay accepted reading =>
    constructor
    · rw [replay]
      exact held.bounded
    · rw [accepted]
      exact held.tagged
  | refused nowUnix replay accepted reading =>
    constructor
    · rw [replay]
      exact (size_pruned_le _ _).trans held.bounded
    · rw [accepted]
      exact held.tagged
  | recorded request nowUnix auth checked fresh room replay accepted reading =>
    constructor
    · rw [replay]
      exact ExtTreeMap.size_insert_le.trans room
    · obtain ⟨present, _, decoded⟩ := checkPeerRequestAuth_eq_ok checked
      rw [accepted]
      exact List.forall_mem_cons.mpr ⟨⟨auth, present, decoded⟩, held.tagged⟩

/-- Every accepted request is still remembered, or its timestamp is out of the window for good. -/
structure NoncesKept (system : PeerAuthSystem μ) : Prop where
  remembered : ∀ request ∈ system.accepted, ∃ auth, request.auth = some auth ∧
    auth.timestampUnix.toNat ≤ system.lastReading.toNat + forkP2pAuthWindowSeconds ∧
      (system.replay.nonces[auth.nonceHex]? = some auth.timestampUnix ∨
        auth.timestampUnix.toNat + forkP2pAuthWindowSeconds < system.lastReading.toNat)
  distinct : (system.accepted.map requestKey).Nodup

/-- Pruning with a later reading forgets only what is out of the window for good. -/
theorem remembered_pruned {nonce : Text} {timestamp last : U64}
    (early : timestamp.toNat ≤ last.toNat + forkP2pAuthWindowSeconds)
    (kept : replay.nonces[nonce]? = some timestamp ∨ timestamp.toNat + forkP2pAuthWindowSeconds < last.toNat)
    (ordered : last ≤ nowUnix) :
    (pruned nowUnix replay)[nonce]? = some timestamp ∨ timestamp.toNat + forkP2pAuthWindowSeconds < nowUnix.toNat := by
  have later := BitVec.le_def.mp ordered
  rcases kept with stored | out
  · by_cases near : absDiff nowUnix timestamp ≤ forkP2pAuthWindowSeconds
    · exact .inl (getElem?_pruned.mpr ⟨stored, near⟩)
    · right
      unfold absDiff at near
      omega
  · right
    omega

private theorem NoncesKept.step (held : NoncesKept before) (outcome : PeerOutcome hmac capability before after)
    (ordered : before.lastReading ≤ after.lastReading) : NoncesKept after := by
  cases outcome with
  | unchanged replay accepted reading =>
    constructor
    · rw [replay, accepted, reading]
      exact held.remembered
    · rw [accepted]
      exact held.distinct
  | refused nowUnix replay accepted reading =>
    rw [reading] at ordered
    have later := BitVec.le_def.mp ordered
    constructor
    · rw [replay, accepted, reading]
      intro request listed
      obtain ⟨auth, present, early, kept⟩ := held.remembered request listed
      exact ⟨auth, present, by omega, remembered_pruned early kept ordered⟩
    · rw [accepted]
      exact held.distinct
  | recorded request nowUnix auth checked fresh room replay accepted reading =>
    rw [reading] at ordered
    have later := BitVec.le_def.mp ordered
    obtain ⟨present, near, _⟩ := checkPeerRequestAuth_eq_ok checked
    unfold absDiff at near
    constructor
    · rw [replay, accepted, reading]
      refine List.forall_mem_cons.mpr ⟨⟨auth, present, by omega, .inl ExtTreeMap.getElem?_insert_self⟩, ?_⟩
      intro other listed
      obtain ⟨otherAuth, otherPresent, early, kept⟩ := held.remembered other listed
      refine ⟨otherAuth, otherPresent, by omega, ?_⟩
      rcases remembered_pruned early kept ordered with stored | out
      · -- The recorded nonce was not in the cache, so it is another one.
        left
        rw [getElem?_insert_eq, if_neg]
        · exact stored
        · intro same
          rw [← same, fresh] at stored
          cases stored
      · exact .inr out
    · rw [accepted, List.map_cons, List.nodup_cons]
      refine ⟨?_, held.distinct⟩
      intro repeated
      obtain ⟨other, listed, same⟩ := List.mem_map.mp repeated
      obtain ⟨otherAuth, otherPresent, early, kept⟩ := held.remembered other listed
      rw [requestKey, requestKey, present, otherPresent, Option.map_some, Option.map_some, Option.some.injEq,
        Prod.mk.injEq] at same
      rcases remembered_pruned early kept ordered with stored | out
      · rw [same.2, fresh] at stored
        cases stored
      · rw [same.1] at out
        omega

/-- What two requests have in common when one is accepted under the tag made for the other. -/
structure SameTagged (request made : ForkWireRequest μ) (auth madeAuth : ForkWireAuth) : Prop where
  protocolVersion : request.protocolVersion = made.protocolVersion
  activationId : request.activationId = made.activationId
  transactionUpgradeId : request.transactionUpgradeId = made.transactionUpgradeId
  timestampUnix : auth.timestampUnix = madeAuth.timestampUnix
  nonceHex : auth.nonceHex = madeAuth.nonceHex
  method : request.method = made.method

private theorem TagsChecked.sameTagged {system : PeerAuthSystem μ} (held : TagsChecked hmac capability system)
    {request made : ForkWireRequest μ} {auth : ForkWireAuth} {currentUnixTime : U64} {nonce : List UInt8}
    (listed : request ∈ system.accepted) (present : request.auth = some auth)
    (tag : auth.macHex = (createPeerRequestAuth hmac made capability currentUnixTime nonce).macHex)
    (injective : Set.InjOn (hmac capability)
      {request.authPayload auth.timestampUnix auth.nonceHex, made.authPayload currentUnixTime (hexEncode nonce)}) :
    SameTagged request made auth (createPeerRequestAuth hmac made capability currentUnixTime nonce) := by
  obtain ⟨found, same, decoded⟩ := held.tagged request listed
  obtain rfl : found = auth := Option.some.inj (same.symm.trans present)
  rw [tag, createPeerRequestAuth, peerRequestMac, hashHex, hexDecode?_hexEncode, Option.some.injEq] at decoded
  have payloads := injective (Set.mem_insert_of_mem _ rfl) (Set.mem_insert _ _)
    (hashHex_injective (congrArg hexEncode decoded))
  simp only [ForkWireRequest.authPayload, ForkWireAuthPayload.mk.injEq] at payloads
  obtain ⟨version, activation, upgrade, timestamp, nonces, method⟩ := payloads
  exact ⟨version.symm, activation.symm, upgrade.symm, timestamp.symm, nonces.symm, method.symm⟩

/-! ## A sample of two requests -/

namespace OvertakenCall

structure SubmitTransaction where
  transactionHex : Text
deriving DecidableEq

def secret : List UInt8 := List.replicate 32 0x41

def requestOf (timestampUnix : U64) (byte transaction mac : String) : ForkWireRequest SubmitTransaction :=
  { protocolVersion := 3
    activationId := (List.replicate 32 "aa".toList).flatten
    transactionUpgradeId := none
    auth := some
      { timestampUnix := timestampUnix
        nonceHex := (List.replicate 16 byte.toList).flatten
        macHex := mac.toList }
    method := ⟨transaction.toList⟩ }

def first : ForkWireRequest SubmitTransaction :=
  requestOf 1700000000 "11" "00" "27b37f4665536bcba2b25f941ba7c0ef8c3845f96d9405716841733ec9370519"

def second : ForkWireRequest SubmitTransaction :=
  requestOf 1700000121 "22" "01" "45e2c55837913cd1f858ba0236433f712cc8b9334d5e1e442e9ad5b489624942"

/-- The recorded tags of the two payloads. -/
def tags : PayloadHmac SubmitTransaction := fun _ payload =>
  Digest.ofHex (((([first, second].find? fun request => request.auth.any fun auth =>
    request.authPayload auth.timestampUnix auth.nonceHex == payload).bind (·.auth)).map (·.macHex)).getD [])

/-- The second delivery of the first request reads the clock in its last second, and another call with the
next reading takes the lock before it. -/
def overtaken : List (PeerEvent SubmitTransaction) :=
  [.start first, .finish 0, .advance 1700000120, .start first, .advance 1700000121, .start second, .finish 1, .finish 0]

/-- The same calls with the lock taken in the order of the readings. -/
def queued : List (PeerEvent SubmitTransaction) :=
  [.start first, .finish 0, .advance 1700000120, .start first, .advance 1700000121, .start second, .finish 0, .finish 0]

end OvertakenCall

/-- When calls take the lock in the order of their clock readings, no request is accepted twice. In any
order the cache stays bounded and a request accepted under a tag is the one the tag was made for. -/
theorem peer_requests_accepted_once (hmac : PayloadHmac μ) (capability : List UInt8) (clock : U64) :
    (∀ events final, run? (PeerAuthSystem.stepInOrder hmac capability) { clock := clock } events = some final →
      (final.accepted.map requestKey).Nodup) ∧
    ∀ events final, run? (PeerAuthSystem.step hmac capability) { clock := clock } events = some final →
      final.replay.nonces.size ≤ maxP2pAuthNonces ∧
        ∀ request ∈ final.accepted, ∀ made auth currentUnixTime nonce, request.auth = some auth →
          auth.macHex = (createPeerRequestAuth hmac made capability currentUnixTime nonce).macHex →
          Set.InjOn (hmac capability)
            {request.authPayload auth.timestampUnix auth.nonceHex, made.authPayload currentUnixTime (hexEncode nonce)} →
          SameTagged request made auth (createPeerRequestAuth hmac made capability currentUnixTime nonce) := by
  constructor
  · intro events final reached
    refine (run?_invariant NoncesKept reached ⟨fun _ none => absurd none List.not_mem_nil, List.nodup_nil⟩ ?_).distinct
    intro before event after _ held stepped
    simp only [PeerAuthSystem.stepInOrder, Option.ite_none_right_eq_some] at stepped
    obtain ⟨outcome, ordered⟩ := step_outcome stepped.2
    exact held.step outcome (ordered stepped.1)
  · intro events final reached
    have held : TagsChecked hmac capability final := by
      refine run?_invariant (TagsChecked hmac capability) reached
        ⟨Nat.zero_le _, fun _ none => absurd none List.not_mem_nil⟩ ?_
      intro before event after _ held stepped
      exact held.step (step_outcome stepped).1
    exact ⟨held.bounded, fun request listed made auth currentUnixTime nonce present tag injective =>
      held.sameTagged listed present tag injective⟩

open OvertakenCall in
theorem peer_requests_accepted_once_queued :
    ∃ final, run? (PeerAuthSystem.stepInOrder tags secret) { clock := 1700000000 } queued = some final ∧
      final.accepted = [second, first] ∧ (final.accepted.map requestKey).Nodup := by
  have computed : (run? (PeerAuthSystem.stepInOrder tags secret) { clock := 1700000000 } queued).map
      (·.accepted) = some [second, first] := by decide +kernel
  obtain ⟨final, reached, accepted⟩ := Option.map_eq_some_iff.mp computed
  exact ⟨final, reached, accepted, (peer_requests_accepted_once tags secret 1700000000).1 queued final reached⟩

open OvertakenCall in
theorem peer_request_accepted_twice :
    ∃ final, run? (PeerAuthSystem.step tags secret) { clock := 1700000000 } overtaken = some final ∧
      final.accepted = [first, second, first] ∧ ¬ (final.accepted.map requestKey).Nodup := by
  have computed : (run? (PeerAuthSystem.step tags secret) { clock := 1700000000 } overtaken).map
      (·.accepted) = some [first, second, first] := by decide +kernel
  obtain ⟨final, reached, accepted⟩ := Option.map_eq_some_iff.mp computed
  refine ⟨final, reached, accepted, ?_⟩
  rw [accepted]
  decide

end P2PoolBTC.Soundness
