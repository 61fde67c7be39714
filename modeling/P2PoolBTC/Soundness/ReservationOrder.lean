import P2PoolBTC.Model.Core.ReplayState

/-! # Reservations in different orders

A sequence of reservations that all pass leaves a ledger that depends only on which reservations
were made: what each owner spent, the pending withdrawals, and the largest nonce of each owner.
-/

namespace P2PoolBTC.Soundness

open Math Model.Core Std

/-- A request and the fee it is reserved with. -/
abbrev Reservation := WithdrawalRequest × Sats

/-- The owner a request is charged to. -/
def ownerOf (request : WithdrawalRequest) : Text := toAsciiLowercase request.claimOwnerId

/-- The satoshis one owner requests. -/
abbrev requestedBy (owner : Text) (requests : List WithdrawalRequest) : ℕ :=
  sumFor ownerOf (fun request => request.amountSats.toNat) owner requests

/-- The owner a reservation is charged to. -/
def Reservation.owner (reservation : Reservation) : Text := ownerOf reservation.1

/-- Every reservation passes in turn, and leads from one ledger to the other. -/
def ReservedAll : ClaimLedger → List Reservation → ClaimLedger → Prop
  | start, [], final => final = start
  | start, reservation :: rest, final =>
    ClaimLedger.ReservationChecked start reservation.1 reservation.2 ∧
      ReservedAll (start.reserved reservation.1 reservation.2) rest final

variable {owner : Text} {last : U64} {outputs : List WithdrawalOutput}

namespace ReservedAll

variable {start final other : ClaimLedger} {reservations early late : List Reservation}

theorem append : ReservedAll start (early ++ late) final ↔
    ∃ middle, ReservedAll start early middle ∧ ReservedAll middle late final := by
  induction early generalizing start with
  | nil => simp [ReservedAll]
  | cons reservation rest ih =>
    simp only [List.cons_append, ReservedAll, ih]
    constructor
    · rintro ⟨checked, middle, first, second⟩
      exact ⟨middle, ⟨checked, first⟩, second⟩
    · rintro ⟨middle, ⟨checked, first⟩, second⟩
      exact ⟨checked, middle, first, second⟩

variable (all : ReservedAll start reservations final)
include all

private theorem balance (owner : Text) :
    (final.balances.getD owner 0).toNat + requestedBy owner (reservations.map Prod.fst) =
      (start.balances.getD owner 0).toNat := by
  unfold requestedBy
  induction reservations generalizing start with
  | nil =>
    obtain rfl : final = start := all
    simp [sumFor]
  | cons reservation rest ih =>
    obtain ⟨checked, all⟩ := all
    have remaining := ih all
    have funded := checked.funded
    rw [List.map_cons, sumFor_cons]
    simp only [ClaimLedger.reserved, ExtTreeMap.getD_eq_getD_getElem?, getElem?_insert_eq] at remaining funded ⊢
    by_cases own : ownerOf reservation.1 = owner
    · have key : toAsciiLowercase reservation.1.claimOwnerId = owner := own
      rw [key] at remaining funded
      rw [if_pos rfl, Option.getD_some, BitVec.toNat_sub_of_le (BitVec.le_def.mpr funded)] at remaining
      rw [if_pos own]
      omega
    · have key : toAsciiLowercase reservation.1.claimOwnerId ≠ owner := own
      rw [if_neg key] at remaining
      rw [if_neg own]
      omega

private theorem mem_balances (owner : Text) : owner ∈ final.balances ↔
      owner ∈ start.balances ∨ ∃ reservation ∈ reservations, reservation.owner = owner := by
  induction reservations generalizing start with
  | nil =>
    obtain rfl : final = start := all
    simp
  | cons reservation rest ih =>
    rw [ih all.2, ClaimLedger.reserved, mem_treeMap_insert, List.exists_mem_cons_iff]
    exact ⟨by tauto, by tauto⟩

theorem pending (requestId : Text) (entry : PendingWithdrawal) : final.pendingWithdrawals[requestId]? = some entry ↔
      start.pendingWithdrawals[requestId]? = some entry ∨
        ∃ reservation ∈ reservations, reservation.1.requestId = requestId ∧
          ClaimLedger.pendingOf reservation.1 reservation.2 = entry := by
  induction reservations generalizing start with
  | nil =>
    obtain rfl : final = start := all
    simp
  | cons reservation rest ih =>
    obtain ⟨checked, all⟩ := all
    rw [ih all, ClaimLedger.reserved, getElem?_insert_eq, List.exists_mem_cons_iff]
    split_ifs with same
    · rw [← same, checked.fresh]
      simp [same]
    · simp [same]

/-- Nothing that is reserved was pending before. -/
theorem fresh {reservation : Reservation}
    (member : reservation ∈ reservations) : start.pendingWithdrawals[reservation.1.requestId]? = none := by
  induction reservations generalizing start with
  | nil => nomatch member
  | cons first rest ih =>
    obtain ⟨checked, all⟩ := all
    rcases List.mem_cons.mp member with rfl | later
    · exact checked.fresh
    · have absent := ih all later
      rw [ClaimLedger.reserved, getElem?_insert_eq] at absent
      split_ifs at absent
      exact absent

theorem nonce_of_absent (absent : ∀ reservation ∈ reservations, reservation.owner ≠ owner) :
    final.lastWithdrawalNonceByOwner[owner]? = start.lastWithdrawalNonceByOwner[owner]? := by
  induction reservations generalizing start with
  | nil =>
    obtain rfl : final = start := all
    rfl
  | cons reservation rest ih =>
    rw [ih all.2 fun other later => absent other (List.mem_cons_of_mem _ later)]
    simp only [ClaimLedger.reserved, getElem?_insert_eq]
    exact if_neg (absent reservation List.mem_cons_self)

private theorem nonce_grows (recorded : start.lastWithdrawalNonceByOwner[owner]? = some last) :
    ∃ next, final.lastWithdrawalNonceByOwner[owner]? = some next ∧ last.toNat ≤ next.toNat := by
  induction reservations generalizing start last with
  | nil =>
    obtain rfl : final = start := all
    exact ⟨last, recorded, le_rfl⟩
  | cons reservation rest ih =>
    obtain ⟨checked, all⟩ := all
    by_cases own : toAsciiLowercase reservation.1.claimOwnerId = owner
    · have larger := checked.nonce_lt last (own ▸ recorded)
      have moved : (start.reserved reservation.1 reservation.2).lastWithdrawalNonceByOwner[owner]? =
          some reservation.1.nonce := by
        simp only [ClaimLedger.reserved, getElem?_insert_eq, if_pos own]
      obtain ⟨next, found, bound⟩ := ih all moved
      exact ⟨next, found, larger.le.trans bound⟩
    · exact ih all (by simpa only [ClaimLedger.reserved, getElem?_insert_eq, if_neg own] using recorded)

/-- The recorded nonce is at least every nonce the owner reserved with. -/
theorem nonce_ge {reservation : Reservation} (member : reservation ∈ reservations) :
    ∃ last, final.lastWithdrawalNonceByOwner[reservation.owner]? = some last ∧
      reservation.1.nonce.toNat ≤ last.toNat := by
  induction reservations generalizing start with
  | nil => cases member
  | cons first rest ih =>
    rcases List.mem_cons.mp member with rfl | later
    · exact nonce_grows all.2 (by simp [ClaimLedger.reserved, Reservation.owner, ownerOf])
    · exact ih all.2 later

/-- The recorded nonce is one of those the owner reserved with. -/
theorem exists_nonce (reserves : ∃ reservation ∈ reservations, reservation.owner = owner)
    (recorded : final.lastWithdrawalNonceByOwner[owner]? = some last) :
    ∃ reservation ∈ reservations, reservation.owner = owner ∧ reservation.1.nonce = last := by
  induction reservations generalizing start with
  | nil =>
    obtain ⟨_, member, -⟩ := reserves
    cases member
  | cons first rest ih =>
    by_cases later : ∃ reservation ∈ rest, reservation.owner = owner
    · obtain ⟨reservation, member, own, same⟩ := ih all.2 later
      exact ⟨reservation, List.mem_cons_of_mem _ member, own, same⟩
    · push Not at later
      rw [nonce_of_absent all.2 later] at recorded
      obtain ⟨reservation, member, own⟩ := reserves
      rcases List.mem_cons.mp member with rfl | inside
      · refine ⟨reservation, List.mem_cons_self, own, ?_⟩
        have key : toAsciiLowercase reservation.1.claimOwnerId = owner := own
        simpa only [ClaimLedger.reserved, getElem?_insert_eq, if_pos key, Option.some.injEq] using recorded
      · exact absurd own (later reservation inside)

private theorem nonce_le_of_perm {others : List Reservation}
    (also : ReservedAll start others other) (permuted : reservations.Perm others)
    (reserves : ∃ reservation ∈ reservations, reservation.owner = owner) {next : U64}
    (recorded : final.lastWithdrawalNonceByOwner[owner]? = some last)
    (recorded' : other.lastWithdrawalNonceByOwner[owner]? = some next) : last.toNat ≤ next.toNat := by
  obtain ⟨top, member, own, rfl⟩ := exists_nonce all reserves recorded
  obtain ⟨last, found, bound⟩ := nonce_ge also (permuted.mem_iff.mp member)
  rw [own, recorded'] at found
  exact Option.some.inj found ▸ bound

/-- Two orders of the same reservations lead to the same ledger. -/
theorem eq_of_perm {others : List Reservation}
    (also : ReservedAll start others other) (permuted : reservations.Perm others) : final = other := by
  have balances : final.balances = other.balances := by
    apply ExtTreeMap.ext_getElem?
    intro owner
    have spent : requestedBy owner (reservations.map Prod.fst) = requestedBy owner (others.map Prod.fst) :=
      (((permuted.map _).filter _).map _).sum_eq
    have left := balance all owner
    have right := balance also owner
    have members : owner ∈ final.balances ↔ owner ∈ other.balances := by
      rw [mem_balances all, mem_balances also]
      simp only [permuted.mem_iff]
    rw [ExtTreeMap.mem_iff_isSome_getElem?, ExtTreeMap.mem_iff_isSome_getElem?] at members
    simp only [ExtTreeMap.getD_eq_getD_getElem?] at left right
    cases one : final.balances[owner]? <;> cases two : other.balances[owner]? <;>
      simp [one, two] at members left right ⊢
    exact BitVec.eq_of_toNat_eq (by omega)
  have pendings : final.pendingWithdrawals = other.pendingWithdrawals := by
    apply ext_entries
    intro requestId entry
    rw [pending all, pending also]
    simp only [permuted.mem_iff]
  have nonces : final.lastWithdrawalNonceByOwner = other.lastWithdrawalNonceByOwner := by
    apply ExtTreeMap.ext_getElem?
    intro owner
    by_cases reserves : ∃ reservation ∈ reservations, reservation.owner = owner
    · have reserves' : ∃ reservation ∈ others, reservation.owner = owner := by
        simpa only [permuted.mem_iff] using reserves
      obtain ⟨reservation, member, rfl⟩ := reserves
      obtain ⟨last, recorded, -⟩ := nonce_ge all member
      obtain ⟨next, recorded', -⟩ := nonce_ge also (permuted.mem_iff.mp member)
      have below := nonce_le_of_perm all also permuted ⟨reservation, member, rfl⟩ recorded recorded'
      have above := nonce_le_of_perm also all permuted.symm reserves' recorded' recorded
      rw [recorded, recorded', BitVec.eq_of_toNat_eq (Nat.le_antisymm below above)]
    · push Not at reserves
      rw [nonce_of_absent all reserves, nonce_of_absent also fun reservation member =>
        reserves reservation (permuted.mem_iff.mpr member)]
  cases final
  cases other
  simp_all

end ReservedAll

/-- The reservations of a batch's outputs, with the stored requests they pay. -/
def reservationsOf (requests : ExtTreeMap Text WithdrawalRequest) (outputs : List WithdrawalOutput) :
    List Reservation :=
  outputs.filterMap fun output => requests[output.requestId]?.map fun request => (request, output.feeSats)

theorem reservationsOf_congr {requests more : ExtTreeMap Text WithdrawalRequest}
    (known : ∀ output ∈ outputs, ∃ request, requests[output.requestId]? = some request)
    (grows : Retains requests more) : reservationsOf more outputs = reservationsOf requests outputs := by
  apply List.filterMap_congr
  intro output member
  obtain ⟨request, stored⟩ := known output member
  rw [stored, grows _ _ stored]

/-- Outputs that were all reserved name stored requests, and every reservation passed. -/
theorem reserveOutputs_ok {crypto : Crypto} {state : SharechainReplayState} {currentHeight : U64}
    {ledger final : ClaimLedger} {done : Unit}
    (returned : state.reserveOutputs crypto currentHeight outputs ledger = .ok done final) :
    ReservedAll ledger (reservationsOf state.withdrawalRequests outputs) final ∧
      ∀ output ∈ outputs, ∃ request, state.withdrawalRequests[output.requestId]? = some request := by
  induction outputs generalizing ledger with
  | nil =>
    cases returned
    exact ⟨rfl, by simp⟩
  | cons output rest ih =>
    simp only [SharechainReplayState.reserveOutputs, Routine.bind_eq_ok, Routine.attempt_eq_ok,
      SharechainReplayState.requestOf, okOr_eq_ok, Routine.focus_eq_ok] at returned
    obtain ⟨request, _, ⟨stored, rfl⟩, _, _, ⟨-, rfl⟩, pending, _, ⟨reserved, accepted, rfl⟩, _, _, ⟨-, rfl⟩,
      returned⟩ := returned
    obtain ⟨valid, -, rfl⟩ := ClaimLedger.reserveWithdrawal_ok.mp accepted
    obtain ⟨all, known⟩ := ih returned
    constructor
    · simp only [reservationsOf, List.filterMap_cons, stored, Option.map_some]
      exact ⟨ClaimLedger.reservationChecked_of_validate valid, all⟩
    · intro other member
      rcases List.mem_cons.mp member with rfl | later
      · exact ⟨request, stored⟩
      · exact known other later

end P2PoolBTC.Soundness
