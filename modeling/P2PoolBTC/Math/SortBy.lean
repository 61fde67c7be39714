import Mathlib

/-! # Stable sorting by a comparison

The stable sort of a list by a three-way comparison. When the comparison separates the entries
of a list, the sorted list depends only on which entries there are.
-/

namespace P2PoolBTC.Math

open Std

section SortBy

variable {α β : Type} (cmp : α → α → Ordering)

/-- Entries in comparison order; equal entries keep their order. -/
def sortBy (entries : List α) : List α :=
  entries.insertionSort fun left right => (cmp left right).isLE

theorem sortBy_perm (entries : List α) : (sortBy cmp entries).Perm entries :=
  List.perm_insertionSort _ entries

@[simp] theorem mem_sortBy {entry : α} {entries : List α} : entry ∈ sortBy cmp entries ↔ entry ∈ entries :=
  List.mem_insertionSort _

@[simp] theorem length_sortBy (entries : List α) : (sortBy cmp entries).length = entries.length :=
  List.length_insertionSort _ entries

/-- Comparing images in the opposite order. -/
theorem transCmp_reverse [TransCmp cmp] (key : β → α) :
    TransCmp fun left right => cmp (key right) (key left) := by
  have opposite : TransCmp fun left right => cmp right left := TransCmp.opposite
  exact { eq_swap := opposite.eq_swap, isLE_trans := opposite.isLE_trans }

variable [TransCmp cmp]

theorem sortBy_pairwise (entries : List α) :
    (sortBy cmp entries).Pairwise fun left right => (cmp left right).isLE = true := by
  have total : Std.Total fun left right : α => (cmp left right).isLE = true := by
    constructor
    intro left right
    cases outcome : cmp left right with
    | lt | eq => exact .inl rfl
    | gt =>
      right
      rw [OrientedCmp.lt_of_gt outcome]
      rfl
  have transitive : IsTrans α fun left right => (cmp left right).isLE = true :=
    ⟨fun _ _ _ => TransCmp.isLE_trans⟩
  exact List.pairwise_insertionSort _ entries

@[simp] theorem sortBy_sortBy (entries : List α) : sortBy cmp (sortBy cmp entries) = sortBy cmp entries :=
  (sortBy_pairwise cmp entries).insertionSort_eq

/-- Sorting forgets the order of entries that the comparison separates. -/
theorem sortBy_eq_of_perm {left right : List α} (permuted : left.Perm right)
    (separated : ∀ a ∈ left, ∀ b ∈ left, cmp a b = .eq → a = b) : sortBy cmp left = sortBy cmp right := by
  refine List.Perm.eq_of_pairwise ?_ (sortBy_pairwise cmp left) (sortBy_pairwise cmp right)
    ((sortBy_perm cmp left).trans (permuted.trans (sortBy_perm cmp right).symm))
  intro a b first second forward backward
  apply separated a ((mem_sortBy cmp).mp first) b (permuted.mem_iff.mpr ((mem_sortBy cmp).mp second))
  exact OrientedCmp.isLE_antisymm forward backward

/-- In a sorted list of separated entries, positions compare as entries do. -/
theorem compare_getElem_sortBy {entries : List α} (separated : ∀ a ∈ entries, ∀ b ∈ entries, cmp a b = .eq → a = b)
    (distinct : entries.Nodup) {i j : ℕ} (first : i < (sortBy cmp entries).length)
    (second : j < (sortBy cmp entries).length) :
    cmp (sortBy cmp entries)[i] (sortBy cmp entries)[j] = compare i j := by
  have nodup : (sortBy cmp entries).Nodup := (sortBy_perm cmp entries).nodup_iff.mpr distinct
  have ascending : ∀ {i j : ℕ} (first : i < (sortBy cmp entries).length) (second : j < (sortBy cmp entries).length),
      i < j → cmp (sortBy cmp entries)[i] (sortBy cmp entries)[j] = .lt := by
    intro i j first second before
    have least := List.pairwise_iff_getElem.mp (sortBy_pairwise cmp entries) i j first second before
    cases outcome : cmp (sortBy cmp entries)[i] (sortBy cmp entries)[j] with
    | lt => rfl
    | eq =>
      have same := separated _ ((mem_sortBy cmp).mp (List.getElem_mem first)) _
        ((mem_sortBy cmp).mp (List.getElem_mem second)) outcome
      have position := (nodup.getElem_inj_iff).mp same
      omega
    | gt =>
      rw [outcome] at least
      cases least
  rcases Nat.lt_trichotomy i j with before | rfl | after
  · rw [ascending first second before, Nat.compare_eq_lt.mpr before]
  · rw [Nat.compare_eq_eq.mpr rfl]
    exact ReflCmp.compare_self
  · rw [OrientedCmp.gt_of_lt (ascending second first after), Nat.compare_eq_gt.mpr after]

/-- Two lists with the same keys are sorted to the same keys exactly when they order their keys alike. -/
theorem map_sortBy_eq_iff {key : α → β} {left right : List α} (permuted : (left.map key).Perm (right.map key))
    (distinct : (left.map key).Nodup) (leftSeparated : ∀ a ∈ left, ∀ b ∈ left, cmp a b = .eq → a = b)
    (rightSeparated : ∀ a ∈ right, ∀ b ∈ right, cmp a b = .eq → a = b) :
    (sortBy cmp left).map key = (sortBy cmp right).map key ↔
      ∀ a ∈ left, ∀ b ∈ left, ∀ c ∈ right, ∀ d ∈ right, key a = key c → key b = key d → cmp a b = cmp c d := by
  have rightDistinct : (right.map key).Nodup := permuted.nodup_iff.mp distinct
  constructor
  · intro same a aMember b bMember c cMember d dMember first second
    -- Equal keys stand at equal positions of the two sorted lists.
    have keys : ((sortBy cmp left).map key).Nodup := ((sortBy_perm cmp left).map key).nodup_iff.mpr distinct
    have position : ∀ {x z : α}, x ∈ left → z ∈ right → key x = key z →
        ∃ (i : ℕ) (inLeft : i < (sortBy cmp left).length) (inRight : i < (sortBy cmp right).length),
          (sortBy cmp left)[i] = x ∧ (sortBy cmp right)[i] = z := by
      intro x z xMember zMember equal
      obtain ⟨i, inLeft, rfl⟩ := List.mem_iff_getElem.mp ((mem_sortBy cmp).mpr xMember)
      obtain ⟨j, inRight, rfl⟩ := List.mem_iff_getElem.mp ((mem_sortBy cmp).mpr zMember)
      have firstKey : i < ((sortBy cmp left).map key).length := by rwa [List.length_map]
      have secondKey : j < ((sortBy cmp left).map key).length := by rwa [same, List.length_map]
      have atKeys : ((sortBy cmp left).map key)[i] = ((sortBy cmp left).map key)[j] := by
        calc ((sortBy cmp left).map key)[i] = key (sortBy cmp left)[i] := List.getElem_map _
          _ = key (sortBy cmp right)[j] := equal
          _ = ((sortBy cmp left).map key)[j] := by simp only [same, List.getElem_map]
      obtain rfl : i = j := keys.getElem_inj_iff.mp atKeys
      exact ⟨i, inLeft, inRight, rfl, rfl⟩
    obtain ⟨i, iLeft, iRight, rfl, rfl⟩ := position aMember cMember first
    obtain ⟨j, jLeft, jRight, rfl, rfl⟩ := position bMember dMember second
    rw [compare_getElem_sortBy cmp leftSeparated distinct.of_map iLeft jLeft,
      compare_getElem_sortBy cmp rightSeparated rightDistinct.of_map iRight jRight]
  · intro agree
    -- Both lists of keys are ordered by how the entries on the left compare.
    refine @List.Perm.eq_of_pairwise β
      (fun x y => ∃ a ∈ left, ∃ b ∈ left, key a = x ∧ key b = y ∧ (cmp a b).isLE = true) _ _ ?_ ?_ ?_
      (((sortBy_perm cmp left).map key).trans (permuted.trans ((sortBy_perm cmp right).map key).symm))
    · rintro x y - - ⟨a, aMember, b, bMember, rfl, rfl, forward⟩ ⟨b', bMember', a', aMember', sameB, sameA, backward⟩
      obtain rfl := List.inj_on_of_nodup_map distinct bMember' bMember sameB
      obtain rfl := List.inj_on_of_nodup_map distinct aMember' aMember sameA
      exact congrArg key (leftSeparated _ aMember _ bMember (OrientedCmp.isLE_antisymm forward backward))
    · rw [List.pairwise_map]
      refine (sortBy_pairwise cmp left).imp_of_mem ?_
      intro a b aMember bMember least
      exact ⟨a, (mem_sortBy cmp).mp aMember, b, (mem_sortBy cmp).mp bMember, rfl, rfl, least⟩
    · rw [List.pairwise_map]
      refine (sortBy_pairwise cmp right).imp_of_mem ?_
      intro c d cMember dMember least
      rw [mem_sortBy] at cMember dMember
      obtain ⟨a, aMember, first⟩ := List.mem_map.mp (permuted.mem_iff.mpr (List.mem_map_of_mem cMember))
      obtain ⟨b, bMember, second⟩ := List.mem_map.mp (permuted.mem_iff.mpr (List.mem_map_of_mem dMember))
      exact ⟨a, aMember, b, bMember, first, second,
        (agree a aMember b bMember c cMember d dMember first second) ▸ least⟩

/-! ## Order statistics -/

/-- In an ascending list the entry at a position reaches a bound when few enough entries stay below the bound. -/
theorem le_rank_getElem_iff {rank : α → ℕ} {sorted : List α}
    (ascending : sorted.Pairwise fun left right => rank left ≤ rank right) {position : ℕ}
    (inside : position < sorted.length) (bound : ℕ) :
    bound ≤ rank sorted[position] ↔ (sorted.countP fun entry => rank entry < bound) ≤ position := by
  induction sorted generalizing position with
  | nil => exact absurd inside (Nat.not_lt_zero _)
  | cons first rest ih =>
    rw [List.pairwise_cons] at ascending
    have above : ¬ rank first < bound → (rest.countP fun entry => rank entry < bound) = 0 := by
      intro reached
      rw [List.countP_eq_zero]
      intro entry member
      have least := ascending.1 entry member
      simp only [decide_eq_true_eq]
      omega
    rw [List.countP_cons]
    simp only [decide_eq_true_eq]
    cases position with
    | zero =>
      rw [List.getElem_cons_zero]
      split_ifs with below <;> omega
    | succ position =>
      have inner := ih ascending.2 (Nat.lt_of_succ_lt_succ inside)
      rw [List.getElem_cons_succ, inner]
      split_ifs with below <;> omega

/-- The entry at a position of the sorted list reaches a bound when few enough entries stay below the bound. -/
theorem le_rank_getElem_sortBy {rank : α → ℕ}
    (ranked : ∀ left right, (cmp left right).isLE = true → rank left ≤ rank right) {entries : List α} {position : ℕ}
    (inside : position < (sortBy cmp entries).length) (bound : ℕ) :
    bound ≤ rank (sortBy cmp entries)[position] ↔ (entries.countP fun entry => rank entry < bound) ≤ position := by
  rw [← (sortBy_perm cmp entries).countP_eq]
  exact le_rank_getElem_iff ((sortBy_pairwise cmp entries).imp (ranked _ _)) inside bound

end SortBy

end P2PoolBTC.Math
