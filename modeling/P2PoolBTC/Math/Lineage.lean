import Mathlib

/-! # Lineages in a forest of parent links

A partial map sends each known node to its parent; an origin that no path enters marks the roots.
The lineage of a node is the list of nodes from it up to its root. A node has at most one lineage,
no lineage visits a node twice, and adding nodes keeps every lineage there was.
-/

namespace P2PoolBTC.Math

variable {α : Type*} {parentOf larger : α → Option α} {origin node other : α} {path : List α}

/-- The nodes from a node up to its root, both included. -/
inductive Lineage (parentOf : α → Option α) (origin : α) : α → List α → Prop
  | root {node : α} (link : parentOf node = some origin) : Lineage parentOf origin node [node]
  | child {node parent : α} {path : List α} (link : parentOf node = some parent)
      (inner : parent ≠ origin) (above : Lineage parentOf origin parent path) :
      Lineage parentOf origin node (node :: path)

namespace Lineage

variable (lineage : Lineage parentOf origin node path)
include lineage

theorem self_mem : node ∈ path := by
  cases lineage <;> simp

theorem length_pos : 0 < path.length := by
  cases lineage <;> simp

theorem unique {second : List α} (also : Lineage parentOf origin node second) : path = second := by
  induction lineage generalizing second with
  | root link =>
    cases also with
    | root _ => rfl
    | child link' inner _ =>
      rw [link] at link'
      exact absurd (Option.some.inj link').symm inner
  | child link inner above ih =>
    cases also with
    | root link' =>
      rw [link] at link'
      exact absurd (Option.some.inj link') inner
    | child link' _ above' =>
      rw [link] at link'
      obtain rfl := Option.some.inj link'
      rw [ih above']

/-- Every node of a lineage has the rest of it as its own lineage. -/
theorem exists_suffix (member : other ∈ path) : ∃ rest, Lineage parentOf origin other rest ∧ rest <:+ path := by
  induction lineage with
  | root link =>
    rw [List.mem_singleton] at member
    subst member
    exact ⟨_, .root link, List.suffix_rfl⟩
  | child link inner above ih =>
    rcases List.mem_cons.mp member with rfl | later
    · exact ⟨_, .child link inner above, List.suffix_rfl⟩
    · obtain ⟨rest, found, suffix⟩ := ih later
      exact ⟨rest, found, suffix.trans (List.suffix_cons _ _)⟩

theorem subset_of_mem {rest : List α} (member : other ∈ path)
    (above : Lineage parentOf origin other rest) : rest ⊆ path := by
  obtain ⟨suffix, found, isSuffix⟩ := lineage.exists_suffix member
  rw [above.unique found]
  exact isSuffix.subset

theorem nodup : path.Nodup := by
  induction lineage with
  | root link => exact List.nodup_singleton _
  | @child node parent path link inner above ih =>
    refine List.nodup_cons.mpr ⟨?_, ih⟩
    intro repeated
    obtain ⟨rest, found, suffix⟩ := above.exists_suffix repeated
    have whole := (Lineage.child link inner above).unique found
    have bound := suffix.length_le
    rw [← whole, List.length_cons] at bound
    omega

theorem exists_parent (member : other ∈ path) : ∃ parent, parentOf other = some parent := by
  obtain ⟨rest, found, -⟩ := lineage.exists_suffix member
  cases found with
  | root link => exact ⟨_, link⟩
  | child link _ _ => exact ⟨_, link⟩

/-- The parent of a node with a lineage is the origin or has a lineage itself. -/
theorem parent_cases {parent : α} (link : parentOf node = some parent) :
    (parent = origin ∧ path = [node]) ∨
      ∃ rest, parent ≠ origin ∧ Lineage parentOf origin parent rest ∧ path = node :: rest := by
  cases lineage with
  | root known =>
    rw [known] at link
    exact .inl ⟨(Option.some.inj link).symm, rfl⟩
  | child known inner above =>
    rw [known] at link
    obtain rfl := Option.some.inj link
    exact .inr ⟨_, inner, above, rfl⟩

theorem congr (agree : ∀ member ∈ path, larger member = parentOf member) : Lineage larger origin node path := by
  induction lineage with
  | root link => exact .root ((agree _ List.mem_cons_self).trans link)
  | child link inner above ih =>
    refine .child ((agree _ List.mem_cons_self).trans link) inner (ih ?_)
    exact fun member later => agree member (List.mem_cons_of_mem _ later)

theorem mono (grows : ∀ child parent, parentOf child = some parent → larger child = some parent) :
    Lineage larger origin node path := by
  apply lineage.congr
  intro member inside
  obtain ⟨parent, link⟩ := lineage.exists_parent inside
  rw [link, grows member parent link]

/-- A lineage is a chain of parent links that starts at the origin. -/
theorem transGen : Relation.TransGen (fun parent child => parentOf child = some parent) origin node := by
  induction lineage with
  | root link => exact .single link
  | child link _ _ ih => exact .tail ih link

end Lineage

end P2PoolBTC.Math
