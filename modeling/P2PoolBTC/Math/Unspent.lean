import P2PoolBTC.Math.Run
import P2PoolBTC.Math.TreeMap

/-! # Ledgers of unspent entries

A transfer takes entries out of a store and adds entries under keys that the store lacks. When no key
is ever added twice, the store after a history of transfers holds exactly what was added and not taken,
so every transfer takes what an earlier one added and none before it took.
-/

namespace P2PoolBTC.Math

open Std

variable {K V : Type} [Ord K] [TransOrd K] {store after : ExtTreeMap K V}

/-- Take out the given keys in order; each must be held when its turn comes. -/
def takeAll? (store : ExtTreeMap K V) : List K → Option (ExtTreeMap K V)
  | [] => some store
  | key :: rest =>
    match store[key]? with
    | none => none
    | some _ => takeAll? (store.erase key) rest

/-- Add the given entries in order; the key of each must be free when its turn comes. -/
def addAll? (store : ExtTreeMap K V) : List (K × V) → Option (ExtTreeMap K V)
  | [] => some store
  | (key, value) :: rest =>
    match store[key]? with
    | some _ => none
    | none => addAll? (store.insert key value) rest

variable {key : K}

section TakeAll

theorem takeAll?_cons_eq_some {rest : List K} :
    takeAll? store (key :: rest) = some after ↔
      (∃ value, store[key]? = some value) ∧ takeAll? (store.erase key) rest = some after := by
  rw [takeAll?]
  cases store[key]? <;> simp

variable [LawfulEqOrd K] [DecidableEq K] {keys : List K}

theorem exists_takeAll? (distinct : keys.Nodup) (held : ∀ key ∈ keys, ∃ value, store[key]? = some value) :
    ∃ after, takeAll? store keys = some after := by
  induction keys generalizing store with
  | nil => exact ⟨store, rfl⟩
  | cons first rest ih =>
    rw [List.nodup_cons] at distinct
    have heldRest : ∀ key ∈ rest, ∃ value, (store.erase first)[key]? = some value := by
      intro key member
      rw [getElem?_erase_eq, if_neg]
      · exact held key (List.mem_cons_of_mem _ member)
      · rintro rfl
        exact distinct.1 member
    obtain ⟨after, taken⟩ := ih distinct.2 heldRest
    exact ⟨after, takeAll?_cons_eq_some.mpr ⟨held first List.mem_cons_self, taken⟩⟩

variable (taken : takeAll? store keys = some after)
include taken

theorem getElem?_takeAll? (key : K) : after[key]? = if key ∈ keys then none else store[key]? := by
  induction keys generalizing store with
  | nil =>
    obtain rfl := Option.some.inj taken
    simp
  | cons first rest ih =>
    obtain ⟨-, taken⟩ := takeAll?_cons_eq_some.mp taken
    rw [ih taken, getElem?_erase_eq]
    by_cases same : first = key
    · simp [same]
    · simp [same, Ne.symm same]

theorem held_of_takeAll? : keys.Nodup ∧ ∀ key ∈ keys, ∃ value, store[key]? = some value := by
  induction keys generalizing store with
  | nil => exact ⟨List.nodup_nil, fun _ member => absurd member List.not_mem_nil⟩
  | cons first rest ih =>
    obtain ⟨held, taken⟩ := takeAll?_cons_eq_some.mp taken
    obtain ⟨distinct, heldRest⟩ := ih taken
    have kept : ∀ key ∈ rest, first ≠ key ∧ ∃ value, store[key]? = some value := by
      intro key member
      obtain ⟨value, present⟩ := heldRest key member
      rw [getElem?_erase_eq] at present
      split_ifs at present with same
      exact ⟨same, value, present⟩
    refine ⟨List.nodup_cons.mpr ⟨fun member => (kept first member).1 rfl, distinct⟩, ?_⟩
    intro key member
    rcases List.mem_cons.mp member with rfl | later
    · exact held
    · exact (kept key later).2

private theorem mapTotal_takeAll? (measure : V → ℕ) :
    mapTotal measure store = mapTotal measure after + (keys.map fun key => (store[key]?).elim 0 measure).sum := by
  have distinct := (held_of_takeAll? taken).1
  induction keys generalizing store with
  | nil =>
    obtain rfl := Option.some.inj taken
    simp
  | cons first rest ih =>
    obtain ⟨-, taken⟩ := takeAll?_cons_eq_some.mp taken
    obtain ⟨absent, distinct⟩ := List.nodup_cons.mp distinct
    have unchanged : (rest.map fun key => ((store.erase first)[key]?).elim 0 measure) =
        rest.map fun key => (store[key]?).elim 0 measure := by
      apply List.map_congr_left
      intro key member
      rw [getElem?_erase_eq, if_neg]
      rintro rfl
      exact absent member
    rw [mapTotal_eq_erase measure store first, ih taken distinct, unchanged, List.map_cons, List.sum_cons]
    omega

end TakeAll

section AddAll

theorem addAll?_cons_eq_some {value : V} {rest : List (K × V)} :
    addAll? store ((key, value) :: rest) = some after ↔
      store[key]? = none ∧ addAll? (store.insert key value) rest = some after := by
  rw [addAll?]
  cases store[key]? <;> simp

variable [LawfulEqOrd K] [DecidableEq K] {entries : List (K × V)}

theorem exists_addAll? (distinct : (entries.map Prod.fst).Nodup) (free : ∀ entry ∈ entries, store[entry.1]? = none) :
    ∃ after, addAll? store entries = some after := by
  induction entries generalizing store with
  | nil => exact ⟨store, rfl⟩
  | cons entry rest ih =>
    obtain ⟨key, value⟩ := entry
    rw [List.map_cons, List.nodup_cons] at distinct
    have freeRest : ∀ other ∈ rest, (store.insert key value)[other.1]? = none := by
      intro other member
      rw [getElem?_insert_eq, if_neg, free other (List.mem_cons_of_mem _ member)]
      intro same
      exact distinct.1 (List.mem_map.mpr ⟨other, member, same.symm⟩)
    obtain ⟨after, added⟩ := ih distinct.2 freeRest
    exact ⟨after, addAll?_cons_eq_some.mpr ⟨free _ List.mem_cons_self, added⟩⟩

variable (added : addAll? store entries = some after)
include added

private theorem free_of_addAll? : (entries.map Prod.fst).Nodup ∧ ∀ entry ∈ entries, store[entry.1]? = none := by
  induction entries generalizing store with
  | nil => exact ⟨List.nodup_nil, fun _ member => absurd member List.not_mem_nil⟩
  | cons entry rest ih =>
    obtain ⟨key, value⟩ := entry
    obtain ⟨free, added⟩ := addAll?_cons_eq_some.mp added
    obtain ⟨distinct, freeRest⟩ := ih added
    have apart : ∀ entry ∈ rest, key ≠ entry.1 ∧ store[entry.1]? = none := by
      intro entry member
      have absent := freeRest entry member
      rw [getElem?_insert_eq] at absent
      split_ifs at absent with same
      exact ⟨same, absent⟩
    rw [List.map_cons, List.nodup_cons]
    refine ⟨⟨?_, distinct⟩, ?_⟩
    · intro member
      obtain ⟨entry, listed, same⟩ := List.mem_map.mp member
      exact (apart entry listed).1 same.symm
    · intro entry member
      rcases List.mem_cons.mp member with rfl | later
      · exact free
      · exact (apart entry later).2

private theorem getElem?_addAll? {value : V} :
    after[key]? = some value ↔ (key, value) ∈ entries ∨ store[key]? = some value := by
  induction entries generalizing store with
  | nil =>
    obtain rfl := Option.some.inj added
    simp
  | cons entry rest ih =>
    obtain ⟨first, held⟩ := entry
    obtain ⟨free, added⟩ := addAll?_cons_eq_some.mp added
    rw [ih added, getElem?_insert_eq, List.mem_cons, Prod.mk.injEq]
    split_ifs with same
    · subst same
      simp only [free, true_and, Option.some.injEq, reduceCtorEq, or_false]
      rw [or_comm, eq_comm]
    · simp [Ne.symm same]

omit [DecidableEq K] in
private theorem mapTotal_addAll? (measure : V → ℕ) :
    mapTotal measure after = mapTotal measure store + (entries.map fun entry => measure entry.2).sum := by
  induction entries generalizing store with
  | nil =>
    obtain rfl := Option.some.inj added
    simp
  | cons entry rest ih =>
    obtain ⟨key, value⟩ := entry
    obtain ⟨free, added⟩ := addAll?_cons_eq_some.mp added
    rw [ih added, mapTotal_insert_of_fresh measure value free, List.map_cons, List.sum_cons, Nat.add_assoc]

end AddAll

/-! ## Histories -/

/-- The keys that a transfer takes and the entries that it adds. -/
structure Transfer (K V : Type) where
  takes : List K
  adds : List (K × V)

def Transfer.perform? (store : ExtTreeMap K V) (transfer : Transfer K V) : Option (ExtTreeMap K V) :=
  (takeAll? store transfer.takes).bind fun rest => addAll? rest transfer.adds

theorem Transfer.perform?_eq_some {transfer : Transfer K V} :
    transfer.perform? store = some after ↔
      ∃ rest, takeAll? store transfer.takes = some rest ∧ addAll? rest transfer.adds = some after :=
  Option.bind_eq_some_iff

/-- What a transfer takes and what it adds balance the change of the store. -/
theorem Transfer.mapTotal_perform? [LawfulEqOrd K] [DecidableEq K] {transfer : Transfer K V}
    (applied : transfer.perform? store = some after) (measure : V → ℕ) :
    mapTotal measure store + (transfer.adds.map fun entry => measure entry.2).sum =
      mapTotal measure after + (transfer.takes.map fun key => (store[key]?).elim 0 measure).sum := by
  obtain ⟨rest, taken, added⟩ := perform?_eq_some.mp applied
  rw [mapTotal_takeAll? taken measure, mapTotal_addAll? added measure]
  omega

/-- The store holds what the history added and did not take, and the history took only what it added. -/
structure Unspent (history : List (Transfer K V)) (store : ExtTreeMap K V) : Prop where
  held : ∀ key value, store[key]? = some value ↔
    (∃ origin ∈ history, (key, value) ∈ origin.adds) ∧ ∀ spender ∈ history, key ∉ spender.takes
  origin : ∀ spender ∈ history, ∀ key ∈ spender.takes, ∃ origin ∈ history, ∃ value, (key, value) ∈ origin.adds

/-- No key is added by two transfers of the history. -/
def AddsApart (history : List (Transfer K V)) : Prop :=
  history.Pairwise fun earlier later => ∀ key first second, (key, first) ∈ earlier.adds → (key, second) ∉ later.adds

section Histories

variable {history : List (Transfer K V)} {transfer : Transfer K V}

private theorem Unspent.initial : Unspent [] (∅ : ExtTreeMap K V) where
  held key value := by simp
  origin := by simp

variable [LawfulEqOrd K] [DecidableEq K]

/-- A transfer whose keys were never added before keeps the description of the store. -/
theorem Unspent.step (unspent : Unspent history store) (applied : transfer.perform? store = some after)
    (fresh : ∀ key value, (key, value) ∈ transfer.adds → ∀ origin ∈ history, ∀ other, (key, other) ∉ origin.adds) :
    Unspent (history ++ [transfer]) after := by
  obtain ⟨rest, taken, added⟩ := Transfer.perform?_eq_some.mp applied
  have heldBefore := (held_of_takeAll? taken).2
  have originBefore : ∀ key ∈ transfer.takes, ∃ origin ∈ history, ∃ value, (key, value) ∈ origin.adds := by
    intro key member
    obtain ⟨value, present⟩ := heldBefore key member
    obtain ⟨⟨origin, listed, entry⟩, -⟩ := (unspent.held key value).mp present
    exact ⟨origin, listed, value, entry⟩
  have originOf : ∀ spender ∈ history ++ [transfer], ∀ key ∈ spender.takes,
      ∃ origin ∈ history, ∃ value, (key, value) ∈ origin.adds := by
    intro spender member key takes
    rcases List.mem_append.mp member with old | new
    · exact unspent.origin spender old key takes
    · obtain rfl := List.mem_singleton.mp new
      exact originBefore key takes
  constructor
  · intro key value
    rw [getElem?_addAll? added, getElem?_takeAll? taken]
    constructor
    · rintro (new | old)
      · refine ⟨⟨transfer, by simp, new⟩, ?_⟩
        intro spender member takes
        obtain ⟨origin, listed, other, entry⟩ := originOf spender member key takes
        exact fresh key value new origin listed other entry
      · split_ifs at old with takes
        obtain ⟨⟨origin, listed, entry⟩, untouched⟩ := (unspent.held key value).mp old
        refine ⟨⟨origin, by simp [listed], entry⟩, ?_⟩
        intro spender member
        rcases List.mem_append.mp member with earlier | new
        · exact untouched spender earlier
        · rwa [List.mem_singleton.mp new]
    · rintro ⟨⟨origin, member, entry⟩, untouched⟩
      rcases List.mem_append.mp member with old | new
      · right
        rw [if_neg (untouched transfer (by simp)), unspent.held]
        exact ⟨⟨origin, old, entry⟩, fun spender listed => untouched spender (by simp [listed])⟩
      · left
        rwa [← List.mem_singleton.mp new]
  · intro spender member key takes
    obtain ⟨origin, listed, value, entry⟩ := originOf spender member key takes
    exact ⟨origin, by simp [listed], value, entry⟩

variable (performed : run? Transfer.perform? ∅ history = some store) (apart : AddsApart history)
include performed apart

theorem Unspent.run : Unspent history store := by
  induction history using List.reverseRecOn generalizing store with
  | nil =>
    obtain rfl := Option.some.inj performed
    exact .initial
  | append_singleton earlier transfer ih =>
    obtain ⟨middle, early, applied⟩ := run?_concat_eq_some.mp performed
    obtain ⟨apartEarly, -, across⟩ := List.pairwise_append.mp apart
    refine (ih early apartEarly).step applied ?_
    intro key value entry origin listed other earlierEntry
    exact across origin listed transfer (List.mem_singleton_self _) key other value earlierEntry entry

/-- Every transfer adds distinct keys, and no two transfers share one. -/
theorem nodup_adds : ((history.flatMap Transfer.adds).map Prod.fst).Nodup := by
  induction history using List.reverseRecOn generalizing store with
  | nil => exact List.nodup_nil
  | append_singleton earlier transfer ih =>
    obtain ⟨middle, early, applied⟩ := run?_concat_eq_some.mp performed
    obtain ⟨apartEarly, -, across⟩ := List.pairwise_append.mp apart
    obtain ⟨rest, -, added⟩ := Transfer.perform?_eq_some.mp applied
    rw [List.flatMap_append, List.flatMap_singleton, List.map_append, List.nodup_append']
    refine ⟨ih early apartEarly, (free_of_addAll? added).1, ?_⟩
    intro key before after
    obtain ⟨⟨_, first⟩, entry, rfl⟩ := List.mem_map.mp before
    obtain ⟨⟨_, second⟩, again, rfl⟩ := List.mem_map.mp after
    obtain ⟨origin, listed, entry⟩ := List.mem_flatMap.mp entry
    exact across origin listed transfer (List.mem_singleton_self _) _ first second entry again

private theorem nodup_takes : (history.flatMap Transfer.takes).Nodup := by
  induction history using List.reverseRecOn generalizing store with
  | nil => exact List.nodup_nil
  | append_singleton earlier transfer ih =>
    obtain ⟨middle, early, applied⟩ := run?_concat_eq_some.mp performed
    have apartEarly := (List.pairwise_append.mp apart).1
    obtain ⟨rest, taken, -⟩ := Transfer.perform?_eq_some.mp applied
    obtain ⟨distinct, held⟩ := held_of_takeAll? taken
    rw [List.flatMap_append, List.flatMap_singleton, List.nodup_append']
    refine ⟨ih early apartEarly, distinct, ?_⟩
    intro key before again
    obtain ⟨value, present⟩ := held key again
    obtain ⟨spender, listed, takes⟩ := List.mem_flatMap.mp before
    exact (((Unspent.run early apartEarly).held key value).mp present).2 spender listed takes

/-- Whatever is measured of the keys, those taken and those still held come to those added. -/
theorem sum_takes_add_held (measure : K → ℕ) :
    ((history.flatMap Transfer.takes).map measure).sum + (store.toList.map fun entry => measure entry.1).sum =
      ((history.flatMap Transfer.adds).map fun entry => measure entry.1).sum := by
  have unspent := Unspent.run performed apart
  have addsDistinct := nodup_adds performed apart
  have takesDistinct := nodup_takes performed apart
  have both : ((history.flatMap Transfer.takes) ++ store.toList.map Prod.fst).Perm
      ((history.flatMap Transfer.adds).map Prod.fst) := by
    have keys : (store.toList.map Prod.fst).Nodup := by
      rw [ExtTreeMap.map_fst_toList_eq_keys]
      exact ExtTreeMap.nodup_keys
    have held (key : K) : key ∈ store.toList.map Prod.fst ↔
        (∃ value, ∃ origin ∈ history, (key, value) ∈ origin.adds) ∧ ∀ spender ∈ history, key ∉ spender.takes := by
      simp only [List.mem_map, Prod.exists, exists_and_right, exists_eq_right,
        ExtTreeMap.mem_toList_iff_getElem?_eq_some, unspent.held]
    have whole : (history.flatMap Transfer.takes ++ store.toList.map Prod.fst).Nodup := by
      rw [List.nodup_append']
      refine ⟨takesDistinct, keys, fun key taken kept => ?_⟩
      obtain ⟨spender, listed, takes⟩ := List.mem_flatMap.mp taken
      exact ((held key).mp kept).2 spender listed takes
    rw [List.perm_ext_iff_of_nodup whole addsDistinct]
    intro key
    rw [List.mem_append, held]
    simp only [List.mem_flatMap, List.mem_map, Prod.exists, exists_and_right, exists_eq_right]
    constructor
    · rintro (⟨spender, listed, takes⟩ | ⟨added, -⟩)
      · obtain ⟨origin, added, value, entry⟩ := unspent.origin spender listed key takes
        exact ⟨value, origin, added, entry⟩
      · exact added
    · intro added
      by_cases taken : ∃ spender ∈ history, key ∈ spender.takes
      · exact .inl taken
      · push Not at taken
        exact .inr ⟨added, taken⟩
  have sums := (both.map measure).sum_eq
  rwa [List.map_append, List.sum_append, List.map_map, List.map_map] at sums

theorem sum_takes_le (measure : K → ℕ) :
    ((history.flatMap Transfer.takes).map measure).sum ≤
      ((history.flatMap Transfer.adds).map fun entry => measure entry.1).sum :=
  Nat.le.intro (sum_takes_add_held performed apart measure)

end Histories

end P2PoolBTC.Math
