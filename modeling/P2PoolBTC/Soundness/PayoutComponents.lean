import P2PoolBTC.Math.Apportion
import P2PoolBTC.Model.Core.Payout

/-! # Components of a payout

The first loop of a component gives every account its exact share rounded down, which leaves at most one satoshi per
account, and the second loop gives one satoshi to each of the largest remainders. Together they spend the pool exactly
and split it fairly.
-/

namespace P2PoolBTC.Soundness

open Math Model.Core Std

/-- The satoshis of a list of amounts. -/
def totalSats (amounts : List Sats) : ℕ := (amounts.map BitVec.toNat).sum

/-- The exact sum of a list of scores. -/
def totalScores (scores : List Score) : ℕ := (scores.map BitVec.toNat).sum

section Loops

variable {totalScore : Score} {score : ParticipantAccount → Score}

/-- The floors of the exact shares of some accounts. -/
def wholeShares (pool : Sats) (totalScore : Score) (scores : List Score) : List ℕ :=
  floorShares pool.toNat totalScore.toNat (scores.map BitVec.toNat)

theorem toNat_widened (pool : Sats) : (pool.setWidth 128).toNat = pool.toNat :=
  BitVec.toNat_setWidth_of_le (by decide)

/-- The truncated quotient is the floor of the exact share. -/
theorem whole_toNat (pool : Sats) {numerator accountScore : Score}
    (bounded : accountScore.toNat ≤ totalScore.toNat)
    (product : numerator.toNat = accountScore.toNat * (pool.setWidth 128).toNat) :
    ((numerator / totalScore).setWidth 64).toNat = accountScore.toNat * pool.toNat / totalScore.toNat := by
  have share : accountScore.toNat * pool.toNat / totalScore.toNat ≤ pool.toNat := by
    apply Nat.div_le_of_le_mul
    exact Nat.mul_le_mul_right _ bounded
  have poolBound := pool.isLt
  rw [BitVec.toNat_setWidth, BitVec.toNat_udiv, product, toNat_widened, Nat.mod_eq_of_lt (by omega)]

/-- The first loop returns, or some product of a score and the pool overflows. -/
theorem addWholeShares_spec (pool : Sats) (index : ℕ) (allocated : Sats) (paired : List (ParticipantAccount × Sats))
    (bounded : ∀ entry ∈ paired, (score entry.1).toNat ≤ totalScore.toNat)
    (deltaRoom : totalSats (paired.map Prod.snd) +
      (wholeShares pool totalScore (paired.map fun entry => score entry.1)).sum < 2 ^ 64)
    (allocatedRoom : allocated.toNat +
      (wholeShares pool totalScore (paired.map fun entry => score entry.1)).sum < 2 ^ 64) :
    (∃ result, addWholeShares pool totalScore score index allocated paired = .ok result) ∨
    (addWholeShares pool totalScore score index allocated paired = .error .scoreMultiplicationOverflow ∧
      ∃ entry ∈ paired, 2 ^ 128 ≤ (score entry.1).toNat * pool.toNat) := by
  induction paired generalizing index allocated with
  | nil => exact .inl ⟨_, rfl⟩
  | cons head rest ih =>
    obtain ⟨account, delta⟩ := head
    cases multiplied : checkedMul (score account) (pool.setWidth 128) with
    | none =>
      have overflow := checkedMul_eq_none.mp multiplied
      rw [toNat_widened] at overflow
      refine .inr ⟨?_, (account, delta), List.mem_cons_self, overflow⟩
      simp only [addWholeShares, multiplied, okOr_none, except_error_bind]
    | some numerator =>
      have accountBound : (score account).toNat ≤ totalScore.toNat := bounded (account, delta) List.mem_cons_self
      have whole := whole_toNat pool accountBound (checkedMul_eq_some.mp multiplied)
      simp only [totalSats, wholeShares, floorShares, List.map_cons, List.sum_cons] at deltaRoom allocatedRoom
      obtain ⟨increased, added, -⟩ := exists_checkedAdd delta ((numerator / totalScore).setWidth 64) (by omega)
      obtain ⟨handedOut, spent, value⟩ := exists_checkedAdd allocated ((numerator / totalScore).setWidth 64) (by omega)
      simp only [addWholeShares, multiplied, added, spent, okOr_some, except_ok_bind]
      rcases ih (index + 1) handedOut (fun entry member => bounded entry (List.mem_cons_of_mem _ member))
        (by simp only [totalSats, wholeShares, floorShares]; omega)
        (by simp only [wholeShares, floorShares]; omega) with
        ⟨result, returned⟩ | ⟨stopped, entry, member, overflow⟩
      · rw [returned]
        exact .inl ⟨_, rfl⟩
      · rw [stopped]
        exact .inr ⟨rfl, entry, List.mem_cons_of_mem _ member, overflow⟩

/-- What the first loop leaves when it returns. -/
theorem addWholeShares_exact {pool : Sats} {index : ℕ} {allocated total : Sats} {deltas : List Sats}
    {paired : List (ParticipantAccount × Sats)} {remainders : List Remainder}
    (bounded : ∀ entry ∈ paired, (score entry.1).toNat ≤ totalScore.toNat)
    (returned : addWholeShares pool totalScore score index allocated paired = .ok (deltas, total, remainders)) :
    deltas.map BitVec.toNat = (paired.map fun entry =>
      entry.2.toNat + (score entry.1).toNat * pool.toNat / totalScore.toNat) ∧
    total.toNat = allocated.toNat + (wholeShares pool totalScore (paired.map fun entry => score entry.1)).sum ∧
    (remainders.map fun entry => (entry.index, entry.remainder.toNat, entry.minerId)) =
      (paired.zipIdx index).map fun entry =>
        (entry.2, (score entry.1.1).toNat * pool.toNat % totalScore.toNat, entry.1.1.minerId) := by
  induction paired generalizing index allocated deltas remainders with
  | nil =>
    cases returned
    exact ⟨rfl, rfl, rfl⟩
  | cons head rest ih =>
    obtain ⟨account, delta⟩ := head
    simp only [addWholeShares, except_bind_eq_ok, okOr_eq_ok] at returned
    obtain ⟨numerator, multiplied, increased, added, handedOut, spent, ⟨later, last, others⟩, tail, ended⟩ := returned
    cases ended
    have product := checkedMul_eq_some.mp multiplied
    have whole := whole_toNat pool (bounded (account, delta) List.mem_cons_self) product
    obtain ⟨sums, total, ranked⟩ := ih (fun entry member => bounded entry (List.mem_cons_of_mem _ member)) tail
    rw [toNat_widened] at product
    refine ⟨?_, ?_, ?_⟩
    · rw [List.map_cons, List.map_cons, sums, checkedAdd_eq_some.mp added, whole]
    · rw [total, checkedAdd_eq_some.mp spent, whole, Nat.add_assoc]
      rfl
    · rw [List.map_cons, ranked, List.zipIdx_cons, List.map_cons, BitVec.toNat_umod, product]

/-- The second loop hands out everything that is left when there are enough entries, one satoshi to each of the
first. -/
theorem distributeLeft_spec (entries : List Remainder) (left : Sats) (deltas : List Sats)
    (distinct : (entries.map Remainder.index).Nodup) (inside : ∀ entry ∈ entries, entry.index < deltas.length)
    (enough : left.toNat ≤ entries.length) (room : totalSats deltas + left.toNat < 2 ^ 64) :
    ∃ final, distributeLeft entries left deltas = .ok final ∧ final.length = deltas.length ∧
      totalSats final = totalSats deltas + left.toNat ∧
      ∀ (position : ℕ) (delta : Sats), deltas[position]? = some delta →
        ∃ increased, final[position]? = some increased ∧ increased.toNat = delta.toNat +
          if position ∈ (entries.map Remainder.index).take left.toNat then 1 else 0 := by
  induction entries generalizing left deltas with
  | nil =>
    have none : left.toNat = 0 := by simpa using enough
    exact ⟨deltas, rfl, rfl, by omega, fun position delta found => ⟨delta, found, by simp⟩⟩
  | cons entry rest ih =>
    unfold distributeLeft
    split_ifs with finished
    · subst finished
      exact ⟨deltas, rfl, rfl, by simp, fun position delta found => ⟨delta, found, by simp⟩⟩
    · have positive : left.toNat ≠ 0 := fun zero => finished (BitVec.eq_of_toNat_eq (by simpa using zero))
      have one : (1 : Sats).toNat = 1 := rfl
      have smaller : (left - 1).toNat = left.toNat - 1 := BitVec.toNat_sub_of_le (BitVec.le_def.mpr (by omega))
      obtain ⟨fresh, others⟩ := List.nodup_cons.mp distinct
      have here := inside entry List.mem_cons_self
      have present : deltas[entry.index]? = some (deltas.getD entry.index 0) := by
        rw [List.getD_eq_getElem?_getD, List.getElem?_eq_getElem here]
        rfl
      have share : (deltas.getD entry.index 0).toNat ≤ totalSats deltas :=
        List.single_le_sum (fun _ _ => Nat.zero_le _) _ (List.mem_map_of_mem (List.mem_of_getElem? present))
      obtain ⟨increased, added, value⟩ := exists_checkedAdd (deltas.getD entry.index 0) 1 (by omega)
      have replaced := sum_map_set BitVec.toNat deltas entry.index (deltas.getD entry.index 0) increased present
      have sum : totalSats (deltas.set entry.index increased) = totalSats deltas + 1 := by
        unfold totalSats
        omega
      rw [List.length_cons] at enough
      obtain ⟨final, returned, length, spent, given⟩ := ih (left - 1) (deltas.set entry.index increased) others
        (fun other member => by
          rw [List.length_set]
          exact inside other (List.mem_cons_of_mem _ member))
        (by omega) (by omega)
      rw [smaller] at given
      have front : ((entry :: rest).map Remainder.index).take left.toNat =
          entry.index :: (rest.map Remainder.index).take (left.toNat - 1) := by
        rw [← Nat.succ_pred_eq_of_ne_zero positive, List.map_cons, List.take_succ_cons, Nat.succ_eq_add_one,
          Nat.add_sub_cancel]
      rw [added, okOr_some, except_ok_bind, front]
      refine ⟨final, returned, by rw [length, List.length_set], by omega, fun position delta found => ?_⟩
      by_cases same : entry.index = position
      · subst same
        obtain ⟨last, stored, final⟩ := given entry.index increased (by rw [List.getElem?_set_self here])
        have skipped : entry.index ∉ (rest.map Remainder.index).take (left.toNat - 1) :=
          fun listed => fresh (List.mem_of_mem_take listed)
        rw [if_neg skipped, value, Option.some.inj (present.symm.trans found), one] at final
        exact ⟨last, stored, by rw [if_pos List.mem_cons_self, final, Nat.add_zero]⟩
      · obtain ⟨last, stored, final⟩ := given position delta (by rw [List.getElem?_set_ne same, found])
        refine ⟨last, stored, ?_⟩
        rw [final]
        simp only [List.mem_cons, Ne.symm same, false_or]

end Loops

/-! ## Pools -/

/-- The order of miners with equal remainders. -/
def MinerAtMost (first second : Text) : Prop := (compare first second).isLE = true

/-- What the accounts put forward for a pool: their miners and their scores. -/
def poolClaims (accounts : List ParticipantAccount) (score : ParticipantAccount → Score) : List (Text × ℕ) :=
  accounts.map fun account => (account.minerId, (score account).toNat)

private theorem poolClaims_total (accounts : List ParticipantAccount) (score : ParticipantAccount → Score) :
    ((poolClaims accounts score).map Prod.snd).sum = totalScores (accounts.map score) := by
  simp [poolClaims, totalScores, Function.comp_def]

private theorem compareRemainders_isLE {first second : Remainder}
    (ordered : (compareRemainders first second).isLE = true) :
    second.remainder.toNat < first.remainder.toNat ∨
      second.remainder.toNat = first.remainder.toNat ∧ MinerAtMost first.minerId second.minerId := by
  unfold compareRemainders compareLex at ordered
  dsimp only at ordered
  cases outcome : compare second.remainder first.remainder with
  | lt => exact .inl (compare_eq_lt.mp outcome)
  | eq =>
    rw [outcome] at ordered
    exact .inr ⟨congrArg BitVec.toNat (compare_eq_iff_eq.mp outcome), ordered⟩
  | gt =>
    rw [outcome] at ordered
    cases ordered

instance : TransCmp compareRemainders :=
  have := transCmp_reverse compare Remainder.remainder
  inferInstanceAs (TransCmp (compareLex _ _))

private theorem fairSplit_empty (claims : List (Text × ℕ)) :
    FairSplit MinerAtMost 0 claims (List.replicate claims.length 0) := by
  have shares {entry : (Text × ℕ) × ℕ} (listed : entry ∈ claims.zip (List.replicate claims.length 0)) : entry.2 = 0 :=
    (List.mem_replicate.mp (List.of_mem_zip listed).2).2
  constructor
  · simp
  · simp
  · simp [floorShare]
  · intro entry listed
    rw [shares listed]
    omega
  · intro entry listed more
    rw [shares listed] at more
    omega
  · intro entry listed other _ more
    rw [shares listed] at more
    omega

section Collected

variable {accounts : List ParticipantAccount} {deltas : List Sats} {pool : Sats} {totalScore : Score}
  {score : ParticipantAccount → Score} {remainders : List Remainder}
  (total : totalScore.toNat = ((poolClaims accounts score).map Prod.snd).sum)
  (collected : (remainders.map fun entry => (entry.index, entry.remainder.toNat, entry.minerId)) =
    ((accounts.zip deltas).zipIdx 0).map fun entry =>
      (entry.2, (score entry.1.1).toNat * pool.toNat % totalScore.toNat, entry.1.1.minerId))
include total collected

/-- The remainders that the first loop collects, read at the positions of the accounts. -/
theorem remainder_at {entry : Remainder} (listed : entry ∈ remainders) {claim : Text × ℕ}
    (found : (poolClaims accounts score)[entry.index]? = some claim) :
    entry.remainder.toNat = shareRemainder pool.toNat (poolClaims accounts score) claim.2 ∧
      entry.minerId = claim.1 := by
  have image : (entry.index, entry.remainder.toNat, entry.minerId) ∈
      remainders.map fun entry => (entry.index, entry.remainder.toNat, entry.minerId) := List.mem_map_of_mem listed
  rw [collected, List.mem_map] at image
  obtain ⟨⟨⟨account, delta⟩, position⟩, stored, same⟩ := image
  simp only [Prod.mk.injEq] at same
  obtain ⟨rfl, remainder, minerId⟩ := same
  rw [List.mk_mem_zipIdx_iff_getElem?, List.getElem?_zip_eq_some] at stored
  rw [poolClaims, List.getElem?_map, stored.1, Option.map_some, Option.some.injEq] at found
  subst found
  exact ⟨by rw [← remainder, shareRemainder, total], minerId.symm⟩

/-- The positions of the sorted remainders, with the larger remainder first and equal ones by miner. -/
theorem ranked_pairwise : ((sortBy compareRemainders remainders).map Remainder.index).Pairwise fun first second =>
    ∀ claim other, (poolClaims accounts score)[first]? = some claim →
      (poolClaims accounts score)[second]? = some other →
      shareRemainder pool.toNat (poolClaims accounts score) other.2 <
          shareRemainder pool.toNat (poolClaims accounts score) claim.2 ∨
        shareRemainder pool.toNat (poolClaims accounts score) other.2 =
            shareRemainder pool.toNat (poolClaims accounts score) claim.2 ∧ MinerAtMost claim.1 other.1 := by
  rw [List.pairwise_map]
  refine (sortBy_pairwise compareRemainders remainders).imp_of_mem
    fun {first second} firstListed secondListed ordered => ?_
  intro claim other claimFound otherFound
  obtain ⟨remainder, minerId⟩ := remainder_at total collected ((mem_sortBy _).mp firstListed) claimFound
  obtain ⟨otherRemainder, otherMinerId⟩ := remainder_at total collected ((mem_sortBy _).mp secondListed) otherFound
  rw [← remainder, ← otherRemainder, ← minerId, ← otherMinerId]
  exact compareRemainders_isLE ordered

/-- Exact shares rounded down and one satoshi for each of the first of the ranked accounts split the pool fairly. -/
theorem spread_fair {increased final : List Sats} {left : ℕ} (aligned : deltas.length = accounts.length)
    (positive : 0 < totalScore.toNat)
    (floors : increased.map BitVec.toNat = ((accounts.zip deltas).map fun entry =>
      entry.2.toNat + (score entry.1).toNat * pool.toNat / totalScore.toNat))
    (exact : (wholeShares pool totalScore (accounts.map score)).sum + left = pool.toNat)
    (permuted : ((sortBy compareRemainders remainders).map Remainder.index).Perm (List.range accounts.length))
    (conserved : totalSats final = totalSats deltas + pool.toNat) (finalLength : final.length = increased.length)
    (given : ∀ (position : ℕ) (delta : Sats), increased[position]? = some delta →
      ∃ last, final[position]? = some last ∧ last.toNat = delta.toNat +
        if position ∈ ((sortBy compareRemainders remainders).map Remainder.index).take left then 1 else 0) :
    ∃ shares, FairSplit MinerAtMost pool.toNat (poolClaims accounts score) shares ∧
      final.map BitVec.toNat = List.zipWith (· + ·) (deltas.map BitVec.toNat) shares := by
  have count : (poolClaims accounts score).length = accounts.length := by simp [poolClaims]
  have length : increased.length = accounts.length := by
    have same := congrArg List.length floors
    rwa [List.length_map, List.length_map, List.length_zip, aligned, Nat.min_self] at same
  have ordered := ranked_pairwise total collected
  set ranked := (sortBy compareRemainders remainders).map Remainder.index
  let shares := (poolClaims accounts score).zipIdx.map fun entry =>
    floorShare pool.toNat (poolClaims accounts score) entry.1.2 + if entry.2 ∈ ranked.take left then 1 else 0
  have sharesLength : shares.length = accounts.length := by simp [shares, count]
  have pointwise : final.map BitVec.toNat = List.zipWith (· + ·) (deltas.map BitVec.toNat) shares := by
    apply List.ext_getElem
    · simp only [List.length_map, List.length_zipWith, sharesLength, finalLength, length, aligned, Nat.min_self]
    · intro position inside _
      rw [List.length_map, finalLength] at inside
      obtain ⟨last, stored, value⟩ := given position increased[position] (List.getElem?_eq_getElem inside)
      obtain ⟨_, same⟩ := List.getElem?_eq_some_iff.mp stored
      have floor : increased[position].toNat = deltas[position].toNat +
          (score accounts[position]).toNat * pool.toNat / totalScore.toNat := by
        have paired : (accounts.zip deltas)[position]? = some (accounts[position], deltas[position]) :=
          List.getElem?_zip_eq_some.mpr ⟨List.getElem?_eq_getElem _, List.getElem?_eq_getElem _⟩
        have read := congrArg (fun entries => entries[position]?) floors
        simpa only [List.getElem?_map, List.getElem?_eq_getElem inside, paired, Option.map_some,
          Option.some.injEq] using read
      rw [List.getElem_map, same, value, floor, total]
      simp [shares, poolClaims, floorShare, Nat.add_assoc]
  rw [← count] at permuted
  have shared : ∀ position claim, (poolClaims accounts score)[position]? = some claim → shares[position]? =
      some (floorShare pool.toNat (poolClaims accounts score) claim.2 +
        if position ∈ ranked.take left then 1 else 0) := by
    intro position claim found
    simp only [shares, List.getElem?_map, List.getElem?_zipIdx, found, Option.map_some, Nat.zero_add]
  refine ⟨shares, fairSplit_of_ranking (total ▸ positive) permuted ordered ?_ (by rw [sharesLength, count]) ?_ shared,
    pointwise⟩
  · refine Eq.trans ?_ exact
    simp [poolClaims, floorShare, wholeShares, floorShares, total, Function.comp_def]
  · have sums := congrArg List.sum pointwise
    rw [← List.sum_add_sum_eq_sum_zipWith_of_length_eq _ _ (by rw [List.length_map, sharesLength, aligned])] at sums
    exact Nat.add_left_cancel (sums.symm.trans conserved)

end Collected

/-- Why a component can refuse its accounts. -/
inductive ComponentFailure (scores : List Score) (pool : Sats) (component : String) : PayoutError → Prop where
  | scoreOverflow (overflow : 2 ^ 128 ≤ totalScores scores) :
      ComponentFailure scores pool component .scoreOverflow
  | scoreMultiplicationOverflow (factor : Score) (member : factor ∈ scores)
      (overflow : 2 ^ 128 ≤ factor.toNat * pool.toNat) :
      ComponentFailure scores pool component .scoreMultiplicationOverflow
  | zeroScorePool (nonempty : pool ≠ 0) (zero : totalScores scores = 0) :
      ComponentFailure scores pool component (.zeroScorePool component)

/-- A component adds a fair split of its pool to the deltas, or fails for one of three reasons. -/
theorem addComponent_spec (accounts : List ParticipantAccount) (deltas : List Sats) (pool : Sats)
    (component : String) (score : ParticipantAccount → Score) (aligned : deltas.length = accounts.length)
    (room : totalSats deltas + pool.toNat < 2 ^ 64) :
    (∃ final shares, addComponent accounts deltas pool component score = .ok final ∧
      FairSplit MinerAtMost pool.toNat (poolClaims accounts score) shares ∧
      final.map BitVec.toNat = List.zipWith (· + ·) (deltas.map BitVec.toNat) shares) ∨
    (∃ reason, addComponent accounts deltas pool component score = .error reason ∧
      ComponentFailure (accounts.map score) pool component reason) := by
  unfold addComponent
  split_ifs with empty
  · subst empty
    refine .inl ⟨deltas, _, rfl, fairSplit_empty _, ?_⟩
    apply List.ext_getElem <;> simp [poolClaims, aligned]
  cases summed : checkedSum (accounts.map score) with
  | none =>
    right
    refine ⟨.scoreOverflow, ?_, .scoreOverflow (checkedSum_eq_none.mp summed)⟩
    simp only [sumScores, summed, okOr_none, except_error_bind]
  | some totalScore =>
    have total : totalScore.toNat = totalScores (accounts.map score) := checkedSum_eq_some.mp summed
    by_cases zero : totalScore = 0
    · right
      refine ⟨.zeroScorePool component, ?_, .zeroScorePool empty (by rw [← total, zero]; rfl)⟩
      simp only [sumScores, summed, okOr_some, except_ok_bind, zero, ne_eq, not_true_eq_false,
        require_of_false, not_false_eq_true, except_error_bind]
    · have positive : 0 < totalScore.toNat :=
        Nat.pos_of_ne_zero fun none => zero (BitVec.eq_of_toNat_eq (by simpa using none))
      have scores : ((accounts.zip deltas).map fun entry => score entry.1) = accounts.map score := by
        rw [← List.map_fst_zip aligned.ge, List.map_map, List.map_fst_zip aligned.ge]
        rfl
      have amounts : (accounts.zip deltas).map Prod.snd = deltas := List.map_snd_zip aligned.le
      have paired : (accounts.zip deltas).length = accounts.length := by
        rw [List.length_zip, aligned, Nat.min_self]
      have weights : ((accounts.map score).map BitVec.toNat).sum = totalScore.toNat := total.symm
      have spent : (wholeShares pool totalScore (accounts.map score)).sum ≤ pool.toNat := by
        have bound := sum_floorShares_le pool.toNat ((accounts.map score).map BitVec.toNat) (by omega)
        rwa [weights] at bound
      have leftover : pool.toNat ≤
          (wholeShares pool totalScore (accounts.map score)).sum + accounts.length := by
        have bound := pool_le_sum_floorShares_add_length pool.toNat
          ((accounts.map score).map BitVec.toNat) (by omega)
        rwa [weights, List.length_map, List.length_map] at bound
      have bounded : ∀ entry ∈ accounts.zip deltas, (score entry.1).toNat ≤ totalScore.toNat := by
        rintro ⟨account, delta⟩ member
        rw [← weights]
        apply List.single_le_sum (fun _ _ => Nat.zero_le _)
        exact List.mem_map_of_mem (List.mem_map_of_mem (List.of_mem_zip member).1)
      simp only [sumScores, summed, okOr_some, except_ok_bind, require_of_true zero]
      rcases addWholeShares_spec pool 0 0 (accounts.zip deltas) bounded
        (by rw [amounts, scores]; omega) (by rw [scores]; simpa using by omega) with
        ⟨⟨increased, allocated, remainders⟩, first⟩ | ⟨stopped, entry, member, overflow⟩
      · left
        obtain ⟨floors, allocatedTotal, collected⟩ := addWholeShares_exact bounded first
        have indices : remainders.map Remainder.index = List.range accounts.length := by
          have same := congrArg (List.map Prod.fst) collected
          rw [List.map_map, List.map_map] at same
          rw [← paired, List.range_eq_range', ← List.zipIdx_map_snd]
          exact same
        have permuted : ((sortBy compareRemainders remainders).map Remainder.index).Perm
            (List.range accounts.length) := by
          rw [← indices]
          exact (sortBy_perm _ _).map _
        have length : increased.length = accounts.length := by
          have same := congrArg List.length floors
          rwa [List.length_map, List.length_map, paired] at same
        have sum : totalSats increased = totalSats deltas + (wholeShares pool totalScore (accounts.map score)).sum := by
          rw [totalSats, floors, List.sum_map_add, totalSats, ← scores]
          nth_rewrite 3 [← amounts]
          simp only [wholeShares, floorShares, List.map_map, Function.comp_def]
        rw [scores] at allocatedTotal
        have zeroNat : (0 : Sats).toNat = 0 := rfl
        have entries : (sortBy compareRemainders remainders).length = accounts.length := by
          simpa using permuted.length_eq
        obtain ⟨left, rest, difference⟩ := exists_checkedSub pool allocated (by omega)
        obtain ⟨final, second, finalLength, finalSum, given⟩ := distributeLeft_spec
          (sortBy compareRemainders remainders) left increased (permuted.nodup_iff.mpr List.nodup_range)
          (fun entry member => by
            rw [length, ← List.mem_range, ← permuted.mem_iff]
            exact List.mem_map_of_mem member)
          (by omega) (by omega)
        obtain ⟨shares, fair, pointwise⟩ := spread_fair (total.trans (poolClaims_total accounts score).symm) collected
          aligned positive floors (by omega) permuted (by omega) finalLength given
        refine ⟨final, shares, ?_, fair, pointwise⟩
        simp only [first, except_ok_bind, rest, okOr_some]
        exact second
      · right
        refine ⟨.scoreMultiplicationOverflow, ?_,
          .scoreMultiplicationOverflow (score entry.1) ?_ overflow⟩
        · simp only [stopped, except_error_bind]
        · exact List.mem_map_of_mem (List.of_mem_zip member).1

/-! ## Rewards -/

/-- Rewards are the shares of both pools, which the two components add one after the other. -/
def SplitRewards (accounts : List ParticipantAccount) (rewardSats : Sats) (deltas : List Sats) : Prop :=
  ∃ (earned : List Sats) (idena : List ℕ),
    addComponent accounts (List.replicate accounts.length 0) (rewardSats / 2) "hashrate"
      ParticipantAccount.hashrateScore = .ok earned ∧
    addComponent accounts earned (rewardSats - rewardSats / 2) "idena" ParticipantAccount.idenaScore = .ok deltas ∧
    deltas.map BitVec.toNat = List.zipWith (· + ·) (earned.map BitVec.toNat) idena ∧
    FairSplit MinerAtMost (rewardSats.toNat / 2) (poolClaims accounts ParticipantAccount.hashrateScore)
      (earned.map BitVec.toNat) ∧
    FairSplit MinerAtMost (rewardSats.toNat - rewardSats.toNat / 2) (poolClaims accounts ParticipantAccount.idenaScore)
      idena

theorem SplitRewards.spent {accounts : List ParticipantAccount} {rewardSats : Sats} {deltas : List Sats}
    (split : SplitRewards accounts rewardSats deltas) :
    deltas.length = accounts.length ∧ totalSats deltas = rewardSats.toNat := by
  obtain ⟨earned, idena, -, -, sums, hashrateFair, idenaFair⟩ := split
  have lengths : (earned.map BitVec.toNat).length = idena.length := by
    rw [hashrateFair.aligned, idenaFair.aligned, poolClaims, poolClaims, List.length_map, List.length_map]
  constructor
  · rw [← List.length_map BitVec.toNat, sums, List.length_zipWith, lengths, Nat.min_self, idenaFair.aligned, poolClaims,
      List.length_map]
  · rw [totalSats, sums, ← List.sum_add_sum_eq_sum_zipWith_of_length_eq _ _ lengths, hashrateFair.spent,
      idenaFair.spent]
    omega

/-- Both pools together are the reward. -/
theorem rewardDeltas_spec (accounts : List ParticipantAccount) (rewardSats : Sats) :
    (∃ deltas, rewardDeltas accounts rewardSats = .ok deltas ∧ SplitRewards accounts rewardSats deltas) ∨
    (∃ reason, rewardDeltas accounts rewardSats = .error reason ∧
      (ComponentFailure (accounts.map ParticipantAccount.hashrateScore) (rewardSats / 2) "hashrate" reason ∨
        ComponentFailure (accounts.map ParticipantAccount.idenaScore) (rewardSats - rewardSats / 2)
          "idena" reason)) := by
  have half : (rewardSats / 2).toNat = rewardSats.toNat / 2 := BitVec.toNat_udiv
  have rest : (rewardSats - rewardSats / 2).toNat = rewardSats.toNat - rewardSats.toNat / 2 := by
    rw [BitVec.toNat_sub_of_le (by rw [BitVec.le_def]; omega), half]
  have bound := rewardSats.isLt
  have start : totalSats (List.replicate accounts.length 0) = 0 := by simp [totalSats]
  unfold rewardDeltas
  rcases addComponent_spec accounts (List.replicate accounts.length 0) (rewardSats / 2) "hashrate"
    ParticipantAccount.hashrateScore (by simp) (by omega) with
    ⟨earned, hashrate, first, hashrateFair, earnedShares⟩ | ⟨reason, first, failure⟩
  · have aligned : hashrate.length = accounts.length := by simpa [poolClaims] using hashrateFair.aligned
    have zeros : List.zipWith (· + ·) ((List.replicate accounts.length (0 : Sats)).map BitVec.toNat) hashrate =
        hashrate := by
      rw [List.map_replicate, ← aligned]
      apply List.ext_getElem <;> simp
    rw [zeros] at earnedShares
    rw [← earnedShares, half] at hashrateFair
    have spent : totalSats earned = rewardSats.toNat / 2 := hashrateFair.spent
    rcases addComponent_spec accounts earned (rewardSats - rewardSats / 2) "idena"
      ParticipantAccount.idenaScore (by rw [← aligned, ← earnedShares, List.length_map]) (by omega) with
      ⟨deltas, idena, second, idenaFair, shares⟩ | ⟨reason, second, failure⟩
    · rw [rest] at idenaFair
      refine .inl ⟨deltas, ?_, earned, idena, first, second, shares, hashrateFair, idenaFair⟩
      simp only [first, except_ok_bind, second]
    · right
      refine ⟨reason, ?_, .inr failure⟩
      simp only [first, except_ok_bind, second]
  · right
    refine ⟨reason, ?_, .inl failure⟩
    simp only [first, except_error_bind]

theorem rewardDeltas_components {accounts : List ParticipantAccount} {rewardSats : Sats} {deltas : List Sats}
    (returned : rewardDeltas accounts rewardSats = .ok deltas) : SplitRewards accounts rewardSats deltas := by
  rcases rewardDeltas_spec accounts rewardSats with ⟨same, again, split⟩ | ⟨reason, stopped, -⟩
  · cases returned.symm.trans again
    exact split
  · cases returned.symm.trans stopped

end P2PoolBTC.Soundness
