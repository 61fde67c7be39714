import Mathlib

/-! # Hash trees over a list

Each level joins neighbours, and a last entry without a neighbour is joined with itself. The path of a
position lists its neighbours up to the root. Joining an entry with its path gives the root, and when
joining is injective nothing else of the same length does. Then a level of different entries is
determined by the levels above it.
-/

namespace P2PoolBTC.Math

theorem map_injOn {α β : Type*} {apply : α → β} {members : Set α} (injective : Set.InjOn apply members)
    {left right : List α} (leftInside : ∀ entry ∈ left, entry ∈ members)
    (rightInside : ∀ entry ∈ right, entry ∈ members) (same : left.map apply = right.map apply) : left = right := by
  induction left generalizing right with
  | nil => exact (List.map_eq_nil_iff.mp same.symm).symm
  | cons first rest ih =>
    cases right with
    | nil => cases same
    | cons other later =>
      obtain ⟨heads, tails⟩ := List.cons.inj same
      rw [List.forall_mem_cons] at leftInside rightInside
      rw [injective leftInside.1 rightInside.1 heads, ih leftInside.2 rightInside.2 tails]

namespace MerkleTree

variable {α : Type} (node : α → α → α)

/-- The next level of a tree. -/
def parents : List α → List α
  | [] => []
  | [last] => [node last last]
  | left :: right :: rest => node left right :: parents rest

/-- Go up, at most so many levels, until one entry is left. -/
def collapse : ℕ → List α → List α
  | 0, level => level
  | fuel + 1, level => if 1 < level.length then collapse fuel (parents node level) else level

/-- The entry a position is joined with: its neighbour, or itself at an odd end. -/
def neighbour (level : List α) (position : ℕ) : Option α :=
  if position % 2 = 0 then level[position + 1]? <|> level[position]? else level[position - 1]?

/-- The parent of an entry and its neighbour, the left one first. -/
def join (position : ℕ) (hash sibling : α) : α :=
  if position % 2 = 0 then node hash sibling else node sibling hash

/-- The level so many steps up. -/
def ascend (depth : ℕ) (level : List α) : List α := (parents node)^[depth] level

/-- The neighbours a position meets on its way up, from the bottom. -/
def path : ℕ → List α → ℕ → List α
  | 0, _, _ => []
  | depth + 1, level, position =>
    (neighbour level position).toList ++ path depth (parents node level) (position / 2)

/-- The neighbours that the first entry meets on its way to the root, from the entries after it. -/
def spine : ℕ → List α → List α
  | 0, _ => []
  | _ + 1, [] => []
  | fuel + 1, sibling :: rest => sibling :: spine fuel (parents node rest)

/-- Join an entry with the given siblings, from the bottom up. -/
def climb : ℕ → α → List α → α
  | _, hash, [] => hash
  | position, hash, sibling :: rest => climb (position / 2) (join node position hash sibling) rest

/-! ## One level -/

theorem length_parents (level : List α) : (parents node level).length = (level.length + 1) / 2 := by
  induction level using parents.induct with
  | case1 => simp [parents]
  | case2 last => simp [parents]
  | case3 left right rest ih =>
    simp only [parents, List.length_cons, ih]
    omega

@[simp] theorem neighbour_cons_cons (left right : α) (rest : List α) (position : ℕ) :
    neighbour (left :: right :: rest) (position + 2) = neighbour rest position := by
  have parity : (position + 2) % 2 = position % 2 := by omega
  rw [neighbour, neighbour, parity]
  split
  · rfl
  · have low : position + 2 - 1 = position - 1 + 2 := by omega
    rw [low]
    rfl

variable {level : List α} {position : ℕ} {hash : α}

/-- Every entry has a neighbour, and their join is the entry above. -/
theorem getElem?_parents (found : level[position]? = some hash) :
    ∃ sibling, neighbour level position = some sibling ∧
      (parents node level)[position / 2]? = some (join node position hash sibling) := by
  induction level using parents.induct generalizing position with
  | case1 => simp at found
  | case2 last =>
    match position, found with
    | 0, found =>
      cases found
      exact ⟨hash, rfl, rfl⟩
    | position + 1, found => simp at found
  | case3 left right rest ih =>
    match position, found with
    | 0, found =>
      cases found
      exact ⟨right, rfl, rfl⟩
    | 1, found =>
      cases found
      exact ⟨left, rfl, rfl⟩
    | position + 2, found =>
      obtain ⟨sibling, near, above⟩ := ih (by simpa using found)
      have half : (position + 2) / 2 = position / 2 + 1 := by omega
      have parity : (position + 2) % 2 = position % 2 := by omega
      refine ⟨sibling, by rw [neighbour_cons_cons, near], ?_⟩
      rw [half, parents, List.getElem?_cons_succ, above, join, join, parity]

/-! ## Whole trees -/

theorem ascend_succ (depth : ℕ) (level : List α) :
    ascend node (depth + 1) level = ascend node depth (parents node level) := rfl

theorem ascend_succ_top (depth : ℕ) (level : List α) :
    ascend node (depth + 1) level = parents node (ascend node depth level) :=
  Function.iterate_succ_apply' _ _ _

theorem size_half {number : ℕ} (positive : 0 < number) : Nat.size number = Nat.size (number / 2) + 1 := by
  have bit : Nat.bit number.bodd number.div2 = number := Nat.bit_bodd_div2 number
  rw [← Nat.div2_val]
  conv_lhs => rw [← bit]
  exact Nat.size_bit (by omega)

/-- Whatever the first entry is, joining it with the neighbours collected from the other entries gives the root. -/
theorem collapse_cons {fuel : ℕ} {rest : List α} (enough : rest.length ≤ fuel) (first : α) :
    collapse node fuel (first :: rest) = [climb node 0 first (spine node fuel rest)] := by
  induction fuel generalizing first rest with
  | zero =>
    obtain rfl := List.length_eq_zero_iff.mp (Nat.le_zero.mp enough)
    rfl
  | succ fuel ih =>
    cases rest with
    | nil => rfl
    | cons sibling more =>
      have halved := length_parents node more
      rw [List.length_cons] at enough
      rw [collapse, if_pos (by simp), parents, ih (by omega)]
      rfl

/-- So many levels suffice for fewer entries than their power of two. -/
theorem length_spine_le_iff {fuel : ℕ} {rest : List α} (enough : rest.length ≤ fuel) (depth : ℕ) :
    (spine node fuel rest).length ≤ depth ↔ rest.length < 2 ^ depth := by
  induction fuel generalizing rest depth with
  | zero =>
    obtain rfl := List.length_eq_zero_iff.mp (Nat.le_zero.mp enough)
    simp [spine]
  | succ fuel ih =>
    cases rest with
    | nil => simp [spine]
    | cons sibling more =>
      have halved := length_parents node more
      rw [List.length_cons] at enough
      cases depth with
      | zero => simp [spine]
      | succ depth =>
        rw [spine, List.length_cons, List.length_cons, Nat.succ_le_succ_iff, ih (by omega), pow_succ]
        omega

/-- Nodes joined on the way up, with their neighbours. -/
def joined : ℕ → List α → List (α × α)
  | 0, _ => []
  | depth + 1, level => pairs level ++ joined depth (parents node level)
where
  pairs : List α → List (α × α)
    | [] => []
    | [last] => [(last, last)]
    | left :: right :: rest => (left, right) :: pairs rest

theorem parents_eq_map (level : List α) :
    parents node level = (joined.pairs level).map fun pair => node pair.1 pair.2 := by
  induction level using parents.induct with
  | case1 => rfl
  | case2 last => rfl
  | case3 left right rest ih => rw [parents, ih, joined.pairs, List.map_cons]

private theorem map_fst_pairs_sublist (level : List α) : ((joined.pairs level).map Prod.fst).Sublist level := by
  induction level using parents.induct with
  | case1 => exact .slnil
  | case2 last => exact .refl _
  | case3 left right rest ih => exact (ih.cons right).cons_cons left

/-- Nodes joined by a climb. -/
def climbed : ℕ → α → List α → List (α × α)
  | _, _, [] => []
  | position, hash, sibling :: rest =>
    (if position % 2 = 0 then (hash, sibling) else (sibling, hash)) ::
      climbed (position / 2) (join node position hash sibling) rest

theorem path_succ_top (depth : ℕ) (level : List α) (position : ℕ) :
    path node (depth + 1) level position =
      path node depth level position ++
        (neighbour (ascend node depth level) (position / 2 ^ depth)).toList := by
  induction depth generalizing level position with
  | zero => simp [path, ascend]
  | succ depth ih =>
    have halves : position / 2 / 2 ^ depth = position / 2 ^ (depth + 1) := by
      rw [Nat.div_div_eq_div_mul, pow_succ']
    rw [path, ih, path, List.append_assoc, ascend_succ, halves]

variable {depth : ℕ}

/-- An entry joined with its own path gives the entry above it. -/
theorem getElem?_ascend (found : level[position]? = some hash) :
    (ascend node depth level)[position / 2 ^ depth]? =
      some (climb node position hash (path node depth level position)) := by
  induction depth generalizing level position hash with
  | zero => simpa [ascend, path, climb] using found
  | succ depth ih =>
    obtain ⟨sibling, near, above⟩ := getElem?_parents node found
    have halves : position / 2 ^ (depth + 1) = position / 2 / 2 ^ depth := by
      rw [Nat.div_div_eq_div_mul, pow_succ']
    rw [ascend_succ, halves, ih above, path, near]
    rfl

theorem length_path (found : level[position]? = some hash) : (path node depth level position).length = depth := by
  induction depth generalizing level position hash with
  | zero => rfl
  | succ depth ih =>
    obtain ⟨sibling, near, above⟩ := getElem?_parents node found
    rw [path, near, List.length_append, ih above, Option.toList_some, List.length_singleton, add_comm]

/-- The pair an entry is joined in. -/
theorem mem_pairs {sibling : α} (found : level[position]? = some hash)
    (near : neighbour level position = some sibling) :
    (if position % 2 = 0 then (hash, sibling) else (sibling, hash)) ∈ joined.pairs level := by
  induction level using parents.induct generalizing position with
  | case1 => simp at found
  | case2 last =>
    match position, found with
    | 0, found =>
      cases found
      cases near
      exact List.mem_singleton_self _
    | position + 1, found => simp at found
  | case3 left right rest ih =>
    match position, found with
    | 0, found =>
      cases found
      cases near
      exact List.mem_cons_self
    | 1, found =>
      cases found
      cases near
      exact List.mem_cons_self
    | position + 2, found =>
      have parity : (position + 2) % 2 = position % 2 := by omega
      rw [parity]
      apply List.mem_cons_of_mem
      rw [neighbour_cons_cons] at near
      exact ih (by simpa using found) near

/-- When no two joined pairs share a parent, whatever climbs to an entry above is the entry below it
with its own path. -/
theorem eq_of_climb {other : α} {siblings : List α} (found : level[position]? = some hash)
    (depths : siblings.length = depth) (injective : Set.InjOn (fun pair : α × α => node pair.1 pair.2)
      {pair | pair ∈ joined node depth level ++ climbed node position other siblings})
    (reaches : (ascend node depth level)[position / 2 ^ depth]? = some (climb node position other siblings)) :
    other = hash ∧ siblings = path node depth level position := by
  induction depth generalizing level position hash other siblings with
  | zero =>
    obtain rfl := List.length_eq_zero_iff.mp depths
    have same : level[position]? = some other := by simpa [ascend, climb] using reaches
    exact ⟨Option.some.inj (same.symm.trans found), rfl⟩
  | succ depth ih =>
    obtain ⟨given, rest, rfl⟩ := List.exists_cons_of_length_eq_add_one depths
    obtain ⟨sibling, near, above⟩ := getElem?_parents node found
    have halves : position / 2 ^ (depth + 1) = position / 2 / 2 ^ depth := by
      rw [Nat.div_div_eq_div_mul, pow_succ']
    rw [ascend_succ, halves, climb] at reaches
    -- The levels above agree first; the pair below is then the only one with that parent.
    have upper := ih above (by simpa using depths) (injective.mono (by
      intro pair member
      simp only [joined, climbed, Set.mem_ofPred_eq, List.mem_append, List.mem_cons] at member ⊢
      tauto)) reaches
    have ours : (if position % 2 = 0 then (hash, sibling) else (sibling, hash)) ∈
        joined node (depth + 1) level ++ climbed node position other (given :: rest) :=
      List.mem_append_left _ (List.mem_append_left _ (mem_pairs found near))
    have theirs : (if position % 2 = 0 then (other, given) else (given, other)) ∈
        joined node (depth + 1) level ++ climbed node position other (given :: rest) :=
      List.mem_append_right _ List.mem_cons_self
    have equal := injective theirs ours (by
      have same := upper.1
      unfold join at same
      split at same <;> simp [*])
    rw [path, near, upper.2]
    split at equal <;> cases equal <;> exact ⟨rfl, rfl⟩

/-! ## Trees with equal roots -/

/-- Levels of different entries are joined in different pairs: a pair of equal entries is an odd end. -/
theorem eq_of_pairs {left right : List α} (leftDistinct : left.Nodup) (rightDistinct : right.Nodup)
    (same : joined.pairs left = joined.pairs right) : left = right := by
  induction left using parents.induct generalizing right with
  | case1 =>
    match right with
    | [] => rfl
    | [_] | _ :: _ :: _ => cases same
  | case2 last =>
    match right with
    | [] => cases same
    | [other] =>
      cases same
      rfl
    | first :: second :: rest =>
      obtain ⟨heads, -⟩ := List.cons.inj same
      cases heads
      simp at rightDistinct
  | case3 first second rest ih =>
    match right with
    | [] => cases same
    | [other] =>
      obtain ⟨heads, -⟩ := List.cons.inj same
      cases heads
      simp at leftDistinct
    | first' :: second' :: rest' =>
      obtain ⟨heads, tails⟩ := List.cons.inj same
      cases heads
      rw [ih (leftDistinct.sublist (by simp)) (rightDistinct.sublist (by simp)) tails]

theorem joined_add (low high : ℕ) (level : List α) :
    joined node (low + high) level = joined node low level ++ joined node high (ascend node low level) := by
  induction low generalizing level with
  | zero => rw [Nat.zero_add, joined, List.nil_append, ascend, Function.iterate_zero_apply]
  | succ low ih => rw [Nat.succ_add, joined, joined, ih, List.append_assoc, ascend_succ]

/-- The entries above the lowest level are parents. -/
theorem exists_joined {entry : α} (member : entry ∈ ascend node (depth + 1) level) :
    ∃ pair ∈ joined node (depth + 1) level, node pair.1 pair.2 = entry := by
  rw [ascend_succ_top, parents_eq_map, List.mem_map] at member
  obtain ⟨pair, listed, parent⟩ := member
  refine ⟨pair, ?_, parent⟩
  rw [joined_add, joined, joined, List.append_nil]
  exact List.mem_append_right _ listed

theorem nodup_ascend (distinct : level.Nodup) (injective : Set.InjOn (fun pair : α × α => node pair.1 pair.2)
    {pair | pair ∈ joined node depth level}) : (ascend node depth level).Nodup := by
  induction depth generalizing level with
  | zero => exact distinct
  | succ depth ih =>
    rw [ascend_succ]
    refine ih ?_ (injective.mono fun pair listed => List.mem_append_right _ listed)
    rw [parents_eq_map]
    refine .map_on (fun pair listed other otherListed => injective (List.mem_append_left _ listed)
      (List.mem_append_left _ otherListed)) ?_
    exact .of_map Prod.fst (distinct.sublist (map_fst_pairs_sublist level))

/-- When no two joined pairs share a parent, levels of different entries that agree so many steps up are the same. -/
theorem eq_of_ascend {left right : List α} (leftDistinct : left.Nodup) (rightDistinct : right.Nodup)
    (injective : Set.InjOn (fun pair : α × α => node pair.1 pair.2)
      {pair | pair ∈ joined node depth left ++ joined node depth right})
    (same : ascend node depth left = ascend node depth right) : left = right := by
  induction depth with
  | zero => exact same
  | succ depth ih =>
    -- The entries of the level below are different too, and what they are joined in is determined by their parents.
    have within (level : List α) (either : level = left ∨ level = right) :
        {pair | pair ∈ joined node depth level} ∪ {pair | pair ∈ joined.pairs (ascend node depth level)} ⊆
          {pair | pair ∈ joined node (depth + 1) left ++ joined node (depth + 1) right} := by
      intro pair listed
      have inside : pair ∈ joined node (depth + 1) level := by
        rw [joined_add, joined, joined, List.append_nil]
        exact List.mem_append.mpr listed
      rcases either with rfl | rfl
      · exact List.mem_append_left _ inside
      · exact List.mem_append_right _ inside
    have low : Set.InjOn (fun pair : α × α => node pair.1 pair.2)
        {pair | pair ∈ joined node depth left ++ joined node depth right} := by
      refine injective.mono fun pair listed => ?_
      rcases List.mem_append.mp listed with first | second
      · exact within left (.inl rfl) (.inl first)
      · exact within right (.inr rfl) (.inl second)
    apply ih low
    rw [ascend_succ_top, ascend_succ_top, parents_eq_map, parents_eq_map] at same
    refine eq_of_pairs (nodup_ascend node leftDistinct (low.mono fun pair => List.mem_append_left _))
      (nodup_ascend node rightDistinct (low.mono fun pair => List.mem_append_right _)) ?_
    exact map_injOn injective (fun pair listed => within left (.inl rfl) (.inr listed))
      (fun pair listed => within right (.inr rfl) (.inr listed)) same

end MerkleTree

end P2PoolBTC.Math
