import Mathlib

/-! # Largest-remainder apportionment

Splitting a pool over weights by the floors of the exact shares leaves fewer units than there
are weights, so handing one unit to each of the first so many entries spends the pool exactly.
-/

namespace P2PoolBTC.Math

/-- The floors of the exact shares of a pool. -/
def floorShares (pool total : ℕ) (weights : List ℕ) : List ℕ :=
  weights.map fun weight => weight * pool / total

theorem total_mul_sum_floorShares (pool total : ℕ) (weights : List ℕ) :
    total * (floorShares pool total weights).sum +
      (weights.map fun weight => weight * pool % total).sum = weights.sum * pool := by
  induction weights with
  | nil => simp [floorShares]
  | cons weight rest ih =>
    have share := Nat.div_add_mod (weight * pool) total
    simp only [floorShares, List.map_cons, List.sum_cons, Nat.mul_add, Nat.add_mul] at ih ⊢
    omega

theorem sum_floorShares_le (pool : ℕ) (weights : List ℕ) (positive : 0 < weights.sum) :
    (floorShares pool weights.sum weights).sum ≤ pool := by
  have exact := total_mul_sum_floorShares pool weights.sum weights
  apply Nat.le_of_mul_le_mul_left _ positive
  omega

/-- What the floors leave is at most one unit per weight. -/
theorem pool_le_sum_floorShares_add_length (pool : ℕ) (weights : List ℕ) (positive : 0 < weights.sum) :
    pool ≤ (floorShares pool weights.sum weights).sum + weights.length := by
  have exact := total_mul_sum_floorShares pool weights.sum weights
  have remainders : (weights.map fun weight => weight * pool % weights.sum).sum ≤
      weights.length * weights.sum := by
    have bound := List.sum_le_card_nsmul (weights.map fun weight => weight * pool % weights.sum) weights.sum
    simp only [List.length_map, smul_eq_mul] at bound
    apply bound
    intro remainder member
    obtain ⟨weight, -, rfl⟩ := List.mem_map.mp member
    exact (Nat.mod_lt _ positive).le
  apply Nat.le_of_mul_le_mul_left _ positive
  calc
    weights.sum * pool
      = weights.sum * (floorShares pool weights.sum weights).sum +
          (weights.map fun weight => weight * pool % weights.sum).sum := exact.symm
    _ ≤ weights.sum * (floorShares pool weights.sum weights).sum + weights.length * weights.sum :=
        Nat.add_le_add_left remainders _
    _ = weights.sum * ((floorShares pool weights.sum weights).sum + weights.length) := by ring

/-- Replacing one entry changes the sum by the difference of the entries. -/
theorem sum_map_set {α : Type} (measure : α → ℕ) (entries : List α) (index : ℕ) (old new : α)
    (present : entries[index]? = some old) :
    ((entries.set index new).map measure).sum + measure old =
      (entries.map measure).sum + measure new := by
  induction entries generalizing index with
  | nil => simp at present
  | cons entry rest ih =>
    cases index with
    | zero =>
      obtain rfl := Option.some.inj present
      simp only [List.set_cons_zero, List.map_cons, List.sum_cons]
      omega
    | succ index =>
      have tail := ih index present
      simp only [List.set_cons_succ, List.map_cons, List.sum_cons]
      omega

/-! ## Who gets the units that are left -/

variable {left : ℕ}

section Ranking

variable {α : Type} {measure : α → ℕ}

/-- Units that are left over, each worth more than any entry, go to entries of positive measure when the
entries are ranked by decreasing measure. -/
theorem pos_of_mem_take_ranked {ranked : List α} {total : ℕ}
    (descending : ranked.Pairwise fun first second => measure second ≤ measure first)
    (bounded : ∀ entry ∈ ranked, measure entry < total) (exact : left * total = (ranked.map measure).sum) {entry : α}
    (member : entry ∈ ranked.take left) : 0 < measure entry := by
  obtain ⟨position, early, rfl⟩ := List.mem_take_iff_getElem.mp member
  have inside : position < ranked.length := by omega
  by_contra nothing
  -- everything from here on has measure zero, so too few entries carry the whole sum
  have front : ((ranked.take position).map measure).sum ≤ position * total := by
    have bound := List.sum_le_card_nsmul ((ranked.take position).map measure) total fun value listed => by
      obtain ⟨entry, taken, rfl⟩ := List.mem_map.mp listed
      exact (bounded entry (List.mem_of_mem_take taken)).le
    rwa [List.length_map, List.length_take, Nat.min_eq_left inside.le, smul_eq_mul] at bound
  have back : ((ranked.drop position).map measure).sum = 0 := by
    rw [List.drop_eq_getElem_cons inside]
    rw [← List.take_append_drop position ranked, List.pairwise_append, List.drop_eq_getElem_cons inside,
      List.pairwise_cons] at descending
    apply List.sum_eq_zero
    intro value listed
    obtain ⟨later, dropped, rfl⟩ := List.mem_map.mp listed
    rcases List.mem_cons.mp dropped with rfl | behind
    · omega
    · have below := descending.2.1.1 later behind
      omega
  have split : (ranked.map measure).sum = ((ranked.take position).map measure).sum +
      ((ranked.drop position).map measure).sum := by
    rw [← List.sum_append, ← List.map_append, List.take_append_drop]
  have worth : (position + 1) * total ≤ left * total := Nat.mul_le_mul_right _ (by omega)
  have positive : 0 < total := by
    have bound := bounded _ (List.getElem_mem inside)
    omega
  rw [Nat.add_mul] at worth
  omega

/-- An entry outside the taken front does not come before one inside it. -/
theorem rel_of_mem_take_of_not_mem {Before : α → α → Prop} {ranked : List α} (sorted : ranked.Pairwise Before)
    {inside outside : α} (taken : inside ∈ ranked.take left) (listed : outside ∈ ranked)
    (dropped : outside ∉ ranked.take left) : Before inside outside := by
  rw [← List.take_append_drop left ranked, List.pairwise_append] at sorted
  refine sorted.2.2 inside taken outside ?_
  rw [← List.take_append_drop left ranked, List.mem_append] at listed
  exact listed.resolve_left dropped

/-- The entries of a list whose keys are among the keys of some of them are these entries, when keys are distinct. -/
theorem filter_key_mem_perm {κ : Type} [BEq κ] [LawfulBEq κ] {key : α → κ} {entries chosen : List α}
    (distinct : (entries.map key).Nodup) (among : chosen.Subperm entries) :
    (entries.filter fun entry => key entry ∈ chosen.map key).Perm chosen := by
  have nodup := List.Nodup.of_map key distinct
  have chosenNodup : chosen.Nodup := by
    obtain ⟨part, permuted, inside⟩ := among
    exact permuted.nodup_iff.mp (nodup.sublist inside)
  refine (List.perm_ext_iff_of_nodup (nodup.filter _) chosenNodup).mpr fun entry => ?_
  simp only [List.mem_filter, decide_eq_true_eq, List.mem_map]
  constructor
  · rintro ⟨listed, other, taken, same⟩
    cases List.inj_on_of_nodup_map distinct (among.subset taken) listed same
    exact taken
  · exact fun taken => ⟨among.subset taken, entry, taken, rfl⟩

end Ranking

/-! ## Fair splits -/

section FairSplit

variable {κ : Type}

/-- The exact share of a weight, rounded down. -/
def floorShare (pool : ℕ) (claims : List (κ × ℕ)) (weight : ℕ) : ℕ := weight * pool / (claims.map Prod.snd).sum

/-- What rounding down takes from a weight. -/
def shareRemainder (pool : ℕ) (claims : List (κ × ℕ)) (weight : ℕ) : ℕ := weight * pool % (claims.map Prod.snd).sum

/-- What some of the claims weigh together. -/
def partWeight (keep : κ → Bool) (claims : List (κ × ℕ)) : ℕ :=
  ((claims.filter fun claim => keep claim.1).map Prod.snd).sum

/-- What some of the claims are given together. -/
def partShare (keep : κ → Bool) (claims : List (κ × ℕ)) (shares : List ℕ) : ℕ :=
  (((claims.zip shares).filter fun entry => keep entry.1.1).map Prod.snd).sum

theorem partWeight_add_partWeight_not (keep : κ → Bool) (claims : List (κ × ℕ)) :
    partWeight keep claims + partWeight (fun key => !keep key) claims = (claims.map Prod.snd).sum := by
  simpa [partWeight] using
    List.sum_map_filter_add_sum_map_filter_not (fun claim => keep claim.1 = true) Prod.snd claims

/-- A pool split by weights: shares are exact shares rounded down, or that and one unit, and the units go to the
largest remainders, with equal remainders in the order of their keys. -/
structure FairSplit (AtMost : κ → κ → Prop) (pool : ℕ) (claims : List (κ × ℕ)) (shares : List ℕ) : Prop where
  aligned : shares.length = claims.length
  spent : shares.sum = pool
  lower : ∀ entry ∈ claims.zip shares, floorShare pool claims entry.1.2 ≤ entry.2
  upper : ∀ entry ∈ claims.zip shares, entry.2 ≤ floorShare pool claims entry.1.2 + 1
  extra : ∀ entry ∈ claims.zip shares, floorShare pool claims entry.1.2 < entry.2 →
    0 < shareRemainder pool claims entry.1.2
  order : ∀ entry ∈ claims.zip shares, ∀ other ∈ claims.zip shares, floorShare pool claims entry.1.2 < entry.2 →
    other.2 ≤ floorShare pool claims other.1.2 →
    shareRemainder pool claims other.1.2 < shareRemainder pool claims entry.1.2 ∨
      shareRemainder pool claims other.1.2 = shareRemainder pool claims entry.1.2 ∧ AtMost entry.1.1 other.1.1

namespace FairSplit

variable {AtMost : κ → κ → Prop} {pool : ℕ} {claims : List (κ × ℕ)} {shares : List ℕ}
  (fair : FairSplit AtMost pool claims shares)
include fair

/-- Without weight there is no share. -/
theorem zero_weight {entry : (κ × ℕ) × ℕ} (listed : entry ∈ claims.zip shares) (nothing : entry.1.2 = 0) :
    entry.2 = 0 := by
  have upper := fair.upper entry listed
  have floor : floorShare pool claims entry.1.2 = 0 := by simp [floorShare, nothing]
  have remainder : shareRemainder pool claims entry.1.2 = 0 := by simp [shareRemainder, nothing]
  by_contra positive
  have extra := fair.extra entry listed (by omega)
  omega

/-- A larger weight never has the smaller share. -/
theorem monotone {larger smaller : (κ × ℕ) × ℕ} (listed : larger ∈ claims.zip shares)
    (otherListed : smaller ∈ claims.zip shares) (heavier : smaller.1.2 < larger.1.2) : smaller.2 ≤ larger.2 := by
  have floors : floorShare pool claims smaller.1.2 ≤ floorShare pool claims larger.1.2 :=
    Nat.div_le_div_right (Nat.mul_le_mul_right pool heavier.le)
  have lower := fair.lower larger listed
  have upper := fair.upper smaller otherListed
  by_contra less
  -- the smaller weight has the extra unit and the floors agree, so its remainder would have to be the larger one
  have positive := fair.extra smaller otherListed (by omega)
  have ranked := fair.order smaller otherListed larger listed (by omega) (by omega)
  have same : floorShare pool claims smaller.1.2 = floorShare pool claims larger.1.2 := by omega
  unfold floorShare at same
  unfold shareRemainder at positive ranked
  have nonempty : 0 < pool := Nat.pos_of_ne_zero fun empty => by simp [empty] at positive
  have products : smaller.1.2 * pool < larger.1.2 * pool := Nat.mul_lt_mul_of_pos_right heavier nonempty
  have exactLarger := Nat.div_add_mod (larger.1.2 * pool) (claims.map Prod.snd).sum
  have exactSmaller := Nat.div_add_mod (smaller.1.2 * pool) (claims.map Prod.snd).sum
  rw [same] at exactSmaller
  omega

/-! A part of the claims gets its exact share up to one unit for each of them. -/

variable (keep : κ → Bool)

theorem map_fst_part :
    ((claims.zip shares).filter fun entry => keep entry.1.1).map Prod.fst =
      claims.filter fun claim => keep claim.1 := by
  have claimed : (claims.zip shares).map Prod.fst = claims := List.map_fst_zip fair.aligned.ge
  conv_rhs => rw [← claimed, List.filter_map]
  rfl

private theorem partShare_le : (claims.map Prod.snd).sum * partShare keep claims shares ≤
    partWeight keep claims * pool + (claims.map Prod.snd).sum * claims.countP fun claim => keep claim.1 := by
  have each : ∀ entry ∈ (claims.zip shares).filter fun entry => keep entry.1.1,
      (claims.map Prod.snd).sum * entry.2 ≤ entry.1.2 * pool + (claims.map Prod.snd).sum := by
    intro entry member
    have upper := fair.upper entry (List.mem_filter.mp member).1
    calc (claims.map Prod.snd).sum * entry.2
        ≤ (claims.map Prod.snd).sum * (floorShare pool claims entry.1.2 + 1) := Nat.mul_le_mul_left _ upper
      _ = (claims.map Prod.snd).sum * floorShare pool claims entry.1.2 + (claims.map Prod.snd).sum := Nat.mul_succ _ _
      _ ≤ entry.1.2 * pool + (claims.map Prod.snd).sum := Nat.add_le_add_right (Nat.mul_div_le _ _) _
  have sums := List.sum_le_sum each
  rw [partWeight, List.countP_eq_length_filter, ← fair.map_fst_part keep, partShare]
  simpa [List.sum_map_mul_left, List.sum_map_mul_right, List.sum_map_add, Function.comp_def, Nat.mul_comm] using sums

private theorem le_partShare (positive : 0 < (claims.map Prod.snd).sum) : partWeight keep claims * pool ≤
    (claims.map Prod.snd).sum * partShare keep claims shares +
      (claims.map Prod.snd).sum * claims.countP fun claim => keep claim.1 := by
  have each : ∀ entry ∈ (claims.zip shares).filter fun entry => keep entry.1.1,
      entry.1.2 * pool ≤ (claims.map Prod.snd).sum * entry.2 + (claims.map Prod.snd).sum := by
    intro entry member
    have lower := fair.lower entry (List.mem_filter.mp member).1
    calc entry.1.2 * pool
        ≤ (claims.map Prod.snd).sum * (floorShare pool claims entry.1.2 + 1) := (Nat.lt_mul_div_succ _ positive).le
      _ ≤ (claims.map Prod.snd).sum * (entry.2 + 1) := Nat.mul_le_mul_left _ (Nat.succ_le_succ lower)
      _ = (claims.map Prod.snd).sum * entry.2 + (claims.map Prod.snd).sum := Nat.mul_succ _ _
  have sums := List.sum_le_sum each
  rw [partWeight, List.countP_eq_length_filter, ← fair.map_fst_part keep, partShare]
  simpa [List.sum_map_mul_left, List.sum_map_mul_right, List.sum_map_add, Function.comp_def, Nat.mul_comm] using sums

theorem partShare_eq_zero (nothing : partWeight keep claims = 0) : partShare keep claims shares = 0 := by
  apply List.sum_eq_zero
  intro share member
  obtain ⟨entry, listed, rfl⟩ := List.mem_map.mp member
  obtain ⟨zipped, kept⟩ := List.mem_filter.mp listed
  apply fair.zero_weight zipped
  apply List.sum_eq_zero_iff.mp nothing
  exact List.mem_map_of_mem (List.mem_filter.mpr ⟨(List.of_mem_zip zipped).1, kept⟩)

theorem partShare_add_partShare_not :
    partShare keep claims shares + partShare (fun key => !keep key) claims shares = pool := by
  have split := List.sum_map_filter_add_sum_map_filter_not
    (fun entry : (κ × ℕ) × ℕ => keep entry.1.1 = true) Prod.snd (claims.zip shares)
  rw [List.map_snd_zip fair.aligned.le, fair.spent] at split
  simpa [partShare] using split

theorem partShare_eq_pool (nothing : partWeight (fun key => !keep key) claims = 0) :
    partShare keep claims shares = pool := by
  rw [← fair.partShare_add_partShare_not keep, fair.partShare_eq_zero _ nothing, Nat.add_zero]

/-- Between two splits of one pool, a part gains the difference of its exact shares up to one unit for each claim. -/
theorem partShare_gain {AtMost' : κ → κ → Prop} {others : List (κ × ℕ)} {shares' : List ℕ} (keep' : κ → Bool)
    (fair' : FairSplit AtMost' pool others shares') (positive : 0 < (others.map Prod.snd).sum) :
    (claims.map Prod.snd).sum * (others.map Prod.snd).sum * partShare keep claims shares +
        partWeight keep' others * pool * (claims.map Prod.snd).sum ≤
      (claims.map Prod.snd).sum * (others.map Prod.snd).sum * partShare keep' others shares' +
        partWeight keep claims * pool * (others.map Prod.snd).sum +
        ((claims.countP fun claim => keep claim.1) + others.countP fun claim => keep' claim.1) *
          ((claims.map Prod.snd).sum * (others.map Prod.snd).sum) := by
  have first := Nat.mul_le_mul_left (others.map Prod.snd).sum (fair.partShare_le keep)
  have second := Nat.mul_le_mul_left (claims.map Prod.snd).sum (fair'.le_partShare keep' positive)
  linarith only [first, second]

/-- A pool that is not empty is split by claims with weight. -/
theorem pool_eq_zero (nothing : (claims.map Prod.snd).sum = 0) : pool = 0 := by
  have weights := partWeight_add_partWeight_not (fun _ => true) claims
  rw [← fair.partShare_eq_pool (fun _ => true) (by omega), fair.partShare_eq_zero (fun _ => true) (by omega)]

end FairSplit

/-- Ranking the positions of the claims by remainder and key, and giving one unit to each of the first positions,
splits fairly. -/
theorem fairSplit_of_ranking {AtMost : κ → κ → Prop} {pool : ℕ} {claims : List (κ × ℕ)} {shares ranked : List ℕ}
    (positive : 0 < (claims.map Prod.snd).sum) (permuted : ranked.Perm (List.range claims.length))
    (sorted : ranked.Pairwise fun first second => ∀ claim other, claims[first]? = some claim →
      claims[second]? = some other → shareRemainder pool claims other.2 < shareRemainder pool claims claim.2 ∨
        shareRemainder pool claims other.2 = shareRemainder pool claims claim.2 ∧ AtMost claim.1 other.1)
    (exact : (claims.map fun claim => floorShare pool claims claim.2).sum + left = pool)
    (aligned : shares.length = claims.length) (spent : shares.sum = pool)
    (given : ∀ position claim, claims[position]? = some claim →
      shares[position]? = some (floorShare pool claims claim.2 + if position ∈ ranked.take left then 1 else 0)) :
    FairSplit AtMost pool claims shares := by
  let measure (position : ℕ) : ℕ := (claims[position]?).elim 0 fun claim => shareRemainder pool claims claim.2
  have measured {position : ℕ} {claim : κ × ℕ} (listed : claims[position]? = some claim) :
      measure position = shareRemainder pool claims claim.2 := by simp [measure, listed]
  have located {entry : (κ × ℕ) × ℕ} (listed : entry ∈ claims.zip shares) :
      ∃ position, claims[position]? = some entry.1 ∧
        entry.2 = floorShare pool claims entry.1.2 + if position ∈ ranked.take left then 1 else 0 := by
    obtain ⟨position, found⟩ := List.mem_iff_getElem?.mp listed
    obtain ⟨claim, share⟩ := List.getElem?_zip_eq_some.mp found
    exact ⟨position, claim, Option.some.inj (share.symm.trans (given position entry.1 claim))⟩
  have ranks {position : ℕ} {claim : κ × ℕ} (listed : claims[position]? = some claim) : position ∈ ranked := by
    rw [permuted.mem_iff, List.mem_range]
    exact (List.getElem?_eq_some_iff.mp listed).1
  have stored {position : ℕ} (listed : position ∈ ranked) : ∃ claim, claims[position]? = some claim := by
    rw [permuted.mem_iff, List.mem_range] at listed
    exact ⟨_, List.getElem?_eq_getElem listed⟩
  have sum : left * (claims.map Prod.snd).sum = (ranked.map measure).sum := by
    have listed : (ranked.map measure).sum = (claims.map fun claim => shareRemainder pool claims claim.2).sum := by
      rw [(permuted.map measure).sum_eq]
      congr 1
      apply List.ext_getElem?
      intro position
      rcases lt_or_ge position claims.length with inside | outside
      · simp [measure, inside]
      · simp [outside]
    have balance := total_mul_sum_floorShares pool (claims.map Prod.snd).sum (claims.map Prod.snd)
    rw [floorShares, List.map_map, List.map_map] at balance
    change _ * (claims.map fun claim => floorShare pool claims claim.2).sum +
      (claims.map fun claim => shareRemainder pool claims claim.2).sum = _ at balance
    have spread : (claims.map Prod.snd).sum * pool = (claims.map Prod.snd).sum *
        (claims.map fun claim => floorShare pool claims claim.2).sum + (claims.map Prod.snd).sum * left := by
      rw [← Nat.mul_add, exact]
    rw [listed, Nat.mul_comm]
    omega
  have descending : ranked.Pairwise fun first second => measure second ≤ measure first :=
    sorted.imp_of_mem fun {first second} firstListed secondListed ordered => by
      obtain ⟨one, oneFound⟩ := stored firstListed
      obtain ⟨two, twoFound⟩ := stored secondListed
      rw [measured oneFound, measured twoFound]
      rcases ordered one two oneFound twoFound with less | ⟨same, -⟩ <;> omega
  have bounded : ∀ position ∈ ranked, measure position < (claims.map Prod.snd).sum := by
    intro position listed
    obtain ⟨claim, found⟩ := stored listed
    rw [measured found]
    exact Nat.mod_lt _ positive
  constructor
  · exact aligned
  · exact spent
  · intro entry listed
    obtain ⟨position, -, share⟩ := located listed
    omega
  · intro entry listed
    obtain ⟨position, -, share⟩ := located listed
    split_ifs at share <;> omega
  · intro entry listed more
    obtain ⟨position, claim, share⟩ := located listed
    have taken : position ∈ ranked.take left := by
      by_contra dropped
      rw [if_neg dropped] at share
      omega
    rw [← measured claim]
    exact pos_of_mem_take_ranked descending bounded sum taken
  · intro entry listed other otherListed more fewer
    obtain ⟨first, claim, share⟩ := located listed
    obtain ⟨second, otherClaim, rest⟩ := located otherListed
    have taken : first ∈ ranked.take left := by
      by_contra dropped
      rw [if_neg dropped] at share
      omega
    have dropped : second ∉ ranked.take left := by
      intro taken
      rw [if_pos taken] at rest
      omega
    exact rel_of_mem_take_of_not_mem sorted taken (ranks otherClaim) dropped entry.1 other.1 claim otherClaim

end FairSplit

end P2PoolBTC.Math
