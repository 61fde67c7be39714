import Mathlib

/-! # Ordered maps and sets

Membership in extensional tree maps and sets with lawful keys, and the total of a measure over the
values of a map: how it changes when an entry is inserted or erased. Every conservation argument
over a keyed store reduces to these equations.
-/

namespace P2PoolBTC.Math

open Std

variable {K V : Type} [Ord K] [TransOrd K] [LawfulEqOrd K]

theorem getElem?_insert_eq [DecidableEq K] (store : ExtTreeMap K V) (key other : K) (value : V) :
    (store.insert key value)[other]? = if key = other then some value else store[other]? := by
  rw [ExtTreeMap.getElem?_insert]
  simp only [Std.compare_eq_iff_eq]

theorem getElem?_erase_eq [DecidableEq K] (store : ExtTreeMap K V) (key other : K) :
    (store.erase key)[other]? = if key = other then none else store[other]? := by
  rw [ExtTreeMap.getElem?_erase]
  simp only [Std.compare_eq_iff_eq]

variable {store : ExtTreeMap K V} {key : K} {value : V}

theorem mem_treeMap_insert {other : K} : other ∈ store.insert key value ↔ key = other ∨ other ∈ store := by
  rw [ExtTreeMap.mem_insert, Std.compare_eq_iff_eq]

omit [LawfulEqOrd K] in
theorem mem_iff_exists_getElem? : key ∈ store ↔ ∃ value, store[key]? = some value := by
  rw [ExtTreeMap.mem_iff_isSome_getElem?, Option.isSome_iff_exists]

/-- A map has every entry of an earlier one. -/
def Retains (earlier later : ExtTreeMap K V) : Prop :=
  ∀ (key : K) (value : V), earlier[key]? = some value → later[key]? = some value

omit [LawfulEqOrd K] in
theorem Retains.refl (store : ExtTreeMap K V) : Retains store store := fun _ _ stored => stored

theorem retains_insert [DecidableEq K] (fresh : store[key]? = none) : Retains store (store.insert key value) := by
  intro other held stored
  rw [getElem?_insert_eq, if_neg, stored]
  rintro rfl
  rw [fresh] at stored
  cases stored

theorem ext_entries {other : ExtTreeMap K V}
    (same : ∀ (key : K) (value : V), store[key]? = some value ↔ other[key]? = some value) : store = other :=
  ExtTreeMap.ext_getElem? fun key => Option.ext fun value => same key value

omit [LawfulEqOrd K] in
theorem values_eq_map_toList (store : ExtTreeMap K V) : store.values = store.toList.map Prod.snd := by
  obtain ⟨inner⟩ := store
  obtain ⟨inner⟩ := inner
  induction inner using Quotient.ind with
  | _ tree =>
  change DTreeMap.Internal.Impl.values tree.inner = (DTreeMap.Internal.Impl.Const.toList tree.inner).map Prod.snd
  rw [DTreeMap.Internal.Impl.values, DTreeMap.Internal.Impl.Const.foldr_eq_foldr_toList]
  induction DTreeMap.Internal.Impl.Const.toList tree.inner with
  | nil => rfl
  | cons entry rest ih => rw [List.foldr_cons, ih, List.map_cons]

theorem mem_values : value ∈ store.values ↔ ∃ key : K, store[key]? = some value := by
  simp only [values_eq_map_toList, List.mem_map, Prod.exists, exists_eq_right,
    ExtTreeMap.mem_toList_iff_getElem?_eq_some]

theorem insert_insert_self (store : ExtTreeMap K V) (key : K) (first second : V) :
    (store.insert key first).insert key second = store.insert key second := by
  classical
  apply ExtTreeMap.ext_getElem?
  intro other
  simp only [getElem?_insert_eq]
  split_ifs <;> rfl

/-- Distinct keys of a map are no more than its size. -/
theorem length_le_size {keys : List K} (distinct : keys.Nodup) (stored : ∀ key ∈ keys, key ∈ store) :
    keys.length ≤ store.size := by
  rw [← ExtTreeMap.length_keys]
  apply List.Subperm.length_le
  apply List.subperm_of_subset distinct
  exact fun key member => ExtTreeMap.mem_keys.mpr (stored key member)

@[simp] theorem mem_treeSet_insert {set : ExtTreeSet K} {other : K} :
    other ∈ set.insert key ↔ key = other ∨ other ∈ set := by
  rw [ExtTreeSet.mem_insert, Std.compare_eq_iff_eq]

@[simp] theorem mem_treeSet_ofList [DecidableEq K] {keys : List K} : key ∈ ExtTreeSet.ofList keys ↔ key ∈ keys := by
  rw [ExtTreeSet.mem_ofList, List.contains_iff_mem]

theorem nodup_treeSet_toList (set : ExtTreeSet K) : set.toList.Nodup := by
  refine List.Pairwise.imp ?_ ExtTreeSet.distinct_toList
  intro left right different equal
  exact different (Std.compare_eq_iff_eq.mpr equal)

/-- The entry of the largest key. -/
def lastKeyValue? (store : ExtTreeMap K V) : Option (K × V) := store.toList.getLast?

theorem lastKeyValue?_eq_none : lastKeyValue? store = none ↔ ∀ key : K, store[key]? = none := by
  rw [lastKeyValue?, List.getLast?_eq_none_iff, ExtTreeMap.toList_eq_nil_iff]
  constructor
  · rintro rfl key
    simp
  · intro absent
    apply ExtTreeMap.ext_getElem?
    intro key
    simp [absent key]

private theorem lastKeyValue?_spec {entry : K × V} (last : lastKeyValue? store = some entry) :
    store[entry.1]? = some entry.2 ∧ ∀ key ∈ store, (compare key entry.1).isLE = true := by
  obtain ⟨before, split⟩ := List.getLast?_eq_some_iff.mp last
  have ordered := split ▸ ExtTreeMap.ordered_keys_toList (t := store)
  obtain ⟨-, -, smaller⟩ := List.pairwise_append.mp ordered
  constructor
  · rw [← ExtTreeMap.mem_toList_iff_getElem?_eq_some, split]
    simp
  · intro key member
    obtain ⟨value, stored⟩ := mem_iff_exists_getElem?.mp member
    rw [← ExtTreeMap.mem_toList_iff_getElem?_eq_some, split, List.mem_append, List.mem_singleton] at stored
    rcases stored with earlier | rfl
    · rw [smaller _ earlier entry (List.mem_singleton_self _)]
      rfl
    · exact ReflCmp.isLE_rfl

theorem lastKeyValue?_eq_some {entry : K × V} :
    lastKeyValue? store = some entry ↔
      store[entry.1]? = some entry.2 ∧ ∀ key ∈ store, (compare key entry.1).isLE = true := by
  refine ⟨lastKeyValue?_spec, ?_⟩
  rintro ⟨stored, largest⟩
  cases last : lastKeyValue? store with
  | none =>
    rw [lastKeyValue?_eq_none.mp last] at stored
    cases stored
  | some other =>
    obtain ⟨stored', largest'⟩ := lastKeyValue?_spec last
    have below := largest other.1 (mem_iff_exists_getElem?.mpr ⟨_, stored'⟩)
    have above := largest' entry.1 (mem_iff_exists_getElem?.mpr ⟨_, stored⟩)
    have same : other.1 = entry.1 := Std.compare_eq_iff_eq.mp (OrientedCmp.isLE_antisymm below above)
    rw [same, stored] at stored'
    exact congrArg some (Prod.ext same (Option.some.inj stored').symm)

/-- A store that was filled from another one with the values of a set, each under its own key. -/
def FilledWith (key : V → K) (start store : ExtTreeMap K V) (values : Set V) : Prop :=
  ∀ (slot : K) (value : V), store[slot]? = some value ↔ start[slot]? = some value ∨ value ∈ values ∧ key value = slot

namespace FilledWith

variable {key : V → K} {start store other : ExtTreeMap K V} {values : Set V} {value : V}

omit [LawfulEqOrd K] in
theorem refl (key : V → K) (start : ExtTreeMap K V) : FilledWith key start start ∅ := by
  intro slot value
  simp

theorem added (filled : FilledWith key start store values) (fresh : store[key value]? = none) :
    FilledWith key start (store.insert (key value) value) (insert value values) := by
  classical
  intro slot held
  rw [getElem?_insert_eq]
  split_ifs with same
  · subst same
    have absent : ¬ (start[key value]? = some held ∨ held ∈ values ∧ key held = key value) := by
      rw [← filled, fresh]
      simp
    simp only [Set.mem_insert_iff, Option.some.injEq]
    constructor
    · rintro rfl
      exact .inr ⟨.inl rfl, rfl⟩
    · rintro (before | ⟨rfl | before, same⟩)
      · exact absurd (.inl before) absent
      · rfl
      · exact absurd (.inr ⟨before, same⟩) absent
  · rw [filled, Set.mem_insert_iff]
    constructor
    · rintro (before | ⟨member, keyed⟩)
      · exact .inl before
      · exact .inr ⟨.inr member, keyed⟩
    · rintro (before | ⟨rfl | member, keyed⟩)
      · exact .inl before
      · exact absurd keyed same
      · exact .inr ⟨member, keyed⟩

omit [LawfulEqOrd K] in
theorem keep (filled : FilledWith key start store values) (stored : store[key value]? = some value) :
    FilledWith key start store (insert value values) := by
  intro slot held
  rw [filled, Set.mem_insert_iff]
  constructor
  · rintro (before | ⟨member, keyed⟩)
    · exact .inl before
    · exact .inr ⟨.inr member, keyed⟩
  · rintro (before | ⟨rfl | member, rfl⟩)
    · exact .inl before
    · exact (filled _ _).mp stored
    · exact .inr ⟨member, rfl⟩

theorem unique (filled : FilledWith key start store values) (also : FilledWith key start other values) :
    store = other := by
  apply ext_entries
  intro slot value
  rw [filled, also]

end FilledWith

/-- A map lists its entries in the order of their keys. -/
theorem toList_eq_of_ordered {entries : List (K × V)}
    (ordered : entries.Pairwise fun left right => compare left.1 right.1 = .lt)
    (same : ∀ (key : K) (value : V), store[key]? = some value ↔ (key, value) ∈ entries) : store.toList = entries := by
  have irreflexive (entry : K × V) : compare entry.1 entry.1 ≠ .lt := by
    have self : compare entry.1 entry.1 = .eq := Std.compare_eq_iff_eq.mpr rfl
    rw [self]
    decide
  have distinct : entries.Nodup := by
    refine ordered.imp ?_
    rintro left right less rfl
    exact irreflexive left less
  have perm : store.toList.Perm entries := by
    refine (List.perm_ext_iff_of_nodup ?_ distinct).mpr ?_
    · apply List.Nodup.of_map Prod.fst
      rw [ExtTreeMap.map_fst_toList_eq_keys]
      exact ExtTreeMap.nodup_keys
    · rintro ⟨key, value⟩
      rw [ExtTreeMap.mem_toList_iff_getElem?_eq_some, same]
  refine perm.eq_of_pairwise ?_ ExtTreeMap.ordered_keys_toList ordered
  intro left right _ _ less more
  have contradictory := OrientedCmp.gt_iff_lt.mpr less
  rw [more] at contradictory
  cases contradictory

theorem getElem?_foldl_insert {α : Type} (key : α → K) (value : α → V) (entries : List α)
    (distinct : (entries.map key).Nodup) (start : ExtTreeMap K V) (slot : K) (held : V) :
    (entries.foldl (fun store entry => store.insert (key entry) (value entry)) start)[slot]? = some held ↔
      (∃ entry ∈ entries, key entry = slot ∧ value entry = held) ∨
        slot ∉ entries.map key ∧ start[slot]? = some held := by
  classical
  induction entries generalizing start with
  | nil => simp
  | cons entry rest ih =>
    obtain ⟨fresh, distinctRest⟩ := List.nodup_cons.mp distinct
    rw [List.foldl_cons, ih distinctRest, getElem?_insert_eq]
    by_cases same : key entry = slot
    · subst same
      simp only [List.map_cons, List.mem_cons, not_true_eq_false, false_and, or_false, if_true,
        Option.some.injEq, fresh, not_false_eq_true, true_and]
      constructor
      · rintro (⟨other, member, equal, -⟩ | rfl)
        · exact absurd (List.mem_map.mpr ⟨other, member, equal⟩) fresh
        · exact ⟨entry, .inl rfl, rfl, rfl⟩
      · rintro ⟨other, rfl | member, equal, rfl⟩
        · exact .inr rfl
        · exact .inl ⟨other, member, equal, rfl⟩
    · simp only [same, List.map_cons, List.mem_cons, if_false, not_or, Ne.symm same, not_false_eq_true, true_and]
      constructor
      · rintro (⟨other, member, equal⟩ | kept)
        · exact .inl ⟨other, .inr member, equal⟩
        · exact .inr kept
      · rintro (⟨other, rfl | member, equal, held⟩ | kept)
        · exact absurd equal same
        · exact .inl ⟨other, member, equal, held⟩
        · exact .inr kept

theorem insert_of_stored (stored : store[key]? = some value) : store.insert key value = store := by
  classical
  apply ExtTreeMap.ext_getElem?
  intro other
  rw [getElem?_insert_eq]
  split_ifs with here
  · rw [← here, stored]
  · rfl

/-- The sum of a measure over all values of a map. -/
def mapTotal (measure : V → ℕ) (store : ExtTreeMap K V) : ℕ :=
  (store.toList.map fun entry => measure entry.2).sum

omit [LawfulEqOrd K] in
theorem nodup_toList (store : ExtTreeMap K V) : store.toList.Nodup := by
  apply List.Nodup.of_map Prod.fst
  rw [ExtTreeMap.map_fst_toList_eq_keys]
  exact ExtTreeMap.nodup_keys

omit [LawfulEqOrd K] in
@[simp] theorem mapTotal_empty (measure : V → ℕ) : mapTotal measure (∅ : ExtTreeMap K V) = 0 := by
  have entries : (∅ : ExtTreeMap K V).toList = [] := ExtTreeMap.toList_eq_nil_iff.mpr rfl
  simp [mapTotal, entries]

/-- A map is one of its entries together with the map that lacks it. -/
theorem toList_perm_cons_erase (present : store[key]? = some value) :
    store.toList.Perm ((key, value) :: (store.erase key).toList) := by
  have absent : (key, value) ∉ (store.erase key).toList := by
    rw [ExtTreeMap.mem_toList_iff_getElem?_eq_some, ExtTreeMap.getElem?_erase_self]
    simp
  refine (List.perm_ext_iff_of_nodup (nodup_toList store)
    (List.nodup_cons.mpr ⟨absent, nodup_toList _⟩)).mpr ?_
  classical
  rintro ⟨other, held⟩
  rw [List.mem_cons, ExtTreeMap.mem_toList_iff_getElem?_eq_some,
    ExtTreeMap.mem_toList_iff_getElem?_eq_some, getElem?_erase_eq]
  split_ifs with same
  · subst same
    simp [present, eq_comm]
  · simp [Ne.symm same]

theorem values_insert_perm (value : V) (fresh : store[key]? = none) :
    (store.insert key value).values.Perm (value :: store.values) := by
  have rest : (store.insert key value).erase key = store := by
    apply ExtTreeMap.ext_getElem?
    intro other
    simp only [ExtTreeMap.getElem?_erase, ExtTreeMap.getElem?_insert]
    split_ifs with same
    · rw [← LawfulEqCmp.eq_of_compare same, fresh]
    · rfl
  have split := (toList_perm_cons_erase
    (ExtTreeMap.getElem?_insert_self : (store.insert key value)[key]? = some value)).map Prod.snd
  rwa [rest, List.map_cons, ← values_eq_map_toList, ← values_eq_map_toList] at split

theorem mapTotal_eq_erase (measure : V → ℕ) (store : ExtTreeMap K V) (key : K) :
    mapTotal measure store = (store[key]?).elim 0 measure + mapTotal measure (store.erase key) := by
  cases present : store[key]? with
  | none =>
    have erased : store.erase key = store := by
      classical
      apply ExtTreeMap.ext_getElem?
      intro other
      rw [getElem?_erase_eq]
      split_ifs with same
      · rw [← same, present]
      · rfl
    simp [erased]
  | some value =>
    have split := ((toList_perm_cons_erase present).map fun entry => measure entry.2).sum_eq
    simpa [mapTotal] using split

theorem mapTotal_insert (measure : V → ℕ) (store : ExtTreeMap K V) (key : K) (value : V) :
    mapTotal measure (store.insert key value) + (store[key]?).elim 0 measure =
      mapTotal measure store + measure value := by
  have rest : (store.insert key value).erase key = store.erase key := by
    apply ExtTreeMap.ext_getElem?
    intro other
    simp only [ExtTreeMap.getElem?_erase, ExtTreeMap.getElem?_insert]
    split_ifs <;> rfl
  rw [mapTotal_eq_erase measure (store.insert key value) key, mapTotal_eq_erase measure store key, rest,
    ExtTreeMap.getElem?_insert_self, Option.elim_some]
  omega

theorem mapTotal_insert_of_fresh (measure : V → ℕ) (value : V) (fresh : store[key]? = none) :
    mapTotal measure (store.insert key value) = mapTotal measure store + measure value := by
  have change := mapTotal_insert measure store key value
  simpa [fresh] using change

theorem le_mapTotal (measure : V → ℕ) (present : store[key]? = some value) :
    measure value ≤ mapTotal measure store := by
  rw [mapTotal_eq_erase measure store key, present, Option.elim_some]
  omega

end P2PoolBTC.Math
