import Mathlib

/-! # The top member of a growing set

A key into a linear order ranks the members of a set. The top member is the one with the largest key.
Comparing each new member with the current top keeps the top, whatever the order of arrival.
-/

namespace P2PoolBTC.Math

variable {α β : Type*} [LinearOrder β] {key other : α → β} {members : Set α} {top : Option α}

/-- The member with the largest key, or none when there is no member. -/
def IsHighest (key : α → β) (members : Set α) : Option α → Prop
  | none => members = ∅
  | some best => best ∈ members ∧ ∀ member ∈ members, key member ≤ key best

namespace IsHighest

theorem eq_none_iff (highest : IsHighest key members top) : top = none ↔ members = ∅ := by
  cases top with
  | none => exact ⟨fun _ => highest, fun _ => rfl⟩
  | some best =>
    simp only [reduceCtorEq, false_iff]
    intro empty
    have member := highest.1
    rw [empty] at member
    exact member

theorem unique {second : Option α} (injective : Set.InjOn key members) (highest : IsHighest key members top)
    (also : IsHighest key members second) : top = second := by
  cases top with
  | none => exact (also.eq_none_iff.mpr (highest.eq_none_iff.mp rfl)).symm
  | some best =>
    cases second with
    | none => exact highest.eq_none_iff.mpr (also.eq_none_iff.mp rfl)
    | some rival =>
      have equal := le_antisymm (also.2 best highest.1) (highest.2 rival also.1)
      rw [injective highest.1 also.1 equal]

theorem congr (highest : IsHighest key members top) (agree : ∀ member ∈ members, other member = key member) :
    IsHighest other members top := by
  cases top with
  | none => exact highest
  | some best =>
    refine ⟨highest.1, ?_⟩
    intro member inside
    rw [agree member inside, agree best highest.1]
    exact highest.2 member inside

theorem insert_first (highest : IsHighest key members none) (fresh : α) :
    IsHighest key (insert fresh members) (some fresh) := by
  have empty : members = ∅ := highest
  subst empty
  simp [IsHighest]

theorem insert_above {best fresh : α} (highest : IsHighest key members (some best)) (above : key best < key fresh) :
    IsHighest key (insert fresh members) (some fresh) := by
  refine ⟨Set.mem_insert _ _, ?_⟩
  rintro member (rfl | inside)
  · exact le_rfl
  · exact (highest.2 member inside).trans above.le

theorem insert_below {best fresh : α} (highest : IsHighest key members (some best)) (below : key fresh ≤ key best) :
    IsHighest key (insert fresh members) (some best) := by
  refine ⟨Set.mem_insert_of_mem _ highest.1, ?_⟩
  rintro member (rfl | inside)
  · exact below
  · exact highest.2 member inside

end IsHighest

end P2PoolBTC.Math
