import P2PoolBTC.Math.Fault
import P2PoolBTC.Math.TreeMap

/-! # Trails of linked entries

A store maps keys to values and every value names the key of the next entry, or none. The trail of a
key is the list of entries met from it on. A key has at most one trail, no trail meets a key twice,
and a loop that follows the links with enough fuel returns exactly the trail.
-/

namespace P2PoolBTC.Math

open Std

variable {K V ε : Type} {get larger : K → Option V} {next : V → Option K} {start : Option K}
  {trail other : List (K × V)}

/-- The entries met from a key until a value names no further key. -/
inductive Trail (get : K → Option V) (next : V → Option K) : Option K → List (K × V) → Prop
  | stop : Trail get next none []
  | entry {key : K} {value : V} {rest : List (K × V)} (stored : get key = some value)
      (above : Trail get next (next value) rest) : Trail get next (some key) ((key, value) :: rest)

namespace Trail

theorem unique (first : Trail get next start trail) (second : Trail get next start other) : trail = other := by
  induction first generalizing other with
  | stop =>
    cases second
    rfl
  | entry stored above ih =>
    cases second with
    | entry stored' above' =>
      rw [stored] at stored'
      obtain rfl := Option.some.inj stored'
      rw [ih above']

theorem stored_of_mem (followed : Trail get next start trail) {entry : K × V} (member : entry ∈ trail) :
    get entry.1 = some entry.2 := by
  induction followed with
  | stop => cases member
  | entry stored above ih =>
    rcases List.mem_cons.mp member with rfl | later
    · exact stored
    · exact ih later

/-- From any entry on, the rest of a trail is the trail of that entry. -/
theorem exists_suffix (followed : Trail get next start trail) {entry : K × V} (member : entry ∈ trail) :
    ∃ rest, Trail get next (some entry.1) (entry :: rest) ∧ entry :: rest <:+ trail := by
  induction followed with
  | stop => cases member
  | entry stored above ih =>
    rcases List.mem_cons.mp member with rfl | later
    · exact ⟨_, .entry stored above, List.suffix_rfl⟩
    · obtain ⟨rest, found, suffix⟩ := ih later
      exact ⟨rest, found, suffix.trans (List.suffix_cons _ _)⟩

/-- What is left of a trail after its first entries is a trail. -/
theorem of_append {newer older : List (K × V)} (followed : Trail get next start (newer ++ older)) :
    ∃ middle, Trail get next middle older := by
  induction newer generalizing start with
  | nil => exact ⟨start, followed⟩
  | cons entry rest ih =>
    cases followed with
    | entry stored above => exact ih above

private theorem nodup_keys (followed : Trail get next start trail) : (trail.map Prod.fst).Nodup := by
  induction followed with
  | stop => exact List.nodup_nil
  | @entry key value rest stored above ih =>
    rw [List.map_cons, List.nodup_cons]
    refine ⟨?_, ih⟩
    intro repeated
    obtain ⟨met, member, rfl⟩ := List.mem_map.mp repeated
    obtain ⟨tail, found, suffix⟩ := above.exists_suffix member
    have whole := (Trail.entry stored above).unique found
    have bound := suffix.length_le
    rw [← whole, List.length_cons] at bound
    omega

theorem mono (followed : Trail get next start trail)
    (grows : ∀ key value, get key = some value → larger key = some value) : Trail larger next start trail := by
  induction followed with
  | stop => exact .stop
  | entry stored above ih => exact .entry (grows _ _ stored) ih

end Trail

/-- Follow the links for at most `fuel` entries. -/
def walk (get : K → Option V) (next : V → Option K) (missing : K → ε) (stuck : ε) :
    ℕ → Option K → Except ε (List (K × V))
  | _, none => .ok []
  | 0, some _ => .error stuck
  | fuel + 1, some key => do
    let value ← okOr (get key) (missing key)
    let rest ← walk get next missing stuck fuel (next value)
    return (key, value) :: rest

/-- Follow the links for a fixed number of entries, or to the end of the trail. -/
def walkAtMost (get : K → Option V) (next : V → Option K) (missing : K → ε) :
    ℕ → Option K → Except ε (List (K × V))
  | 0, _ => .ok []
  | _ + 1, none => .ok []
  | count + 1, some key => do
    let value ← okOr (get key) (missing key)
    let rest ← walkAtMost get next missing count (next value)
    return (key, value) :: rest

theorem Trail.walk_eq {missing : K → ε} {stuck : ε} (followed : Trail get next start trail) :
    ∀ {fuel : ℕ}, trail.length ≤ fuel → walk get next missing stuck fuel start = .ok trail := by
  induction followed with
  | stop =>
    intro fuel _
    cases fuel <;> rfl
  | entry stored above ih =>
    intro fuel enough
    cases fuel with
    | zero => simp at enough
    | succ fuel =>
      rw [walk, stored, okOr_some, except_ok_bind, ih (by simpa using enough)]
      rfl

theorem Trail.walkAtMost_eq {missing : K → ε} (followed : Trail get next start trail) :
    ∀ count : ℕ, walkAtMost get next missing count start = .ok (trail.take count) := by
  induction followed with
  | stop =>
    intro count
    cases count <;> rfl
  | entry stored above ih =>
    intro count
    cases count with
    | zero => rfl
    | succ count =>
      rw [walkAtMost, stored, okOr_some, except_ok_bind, ih count]
      rfl

theorem Trail.length_le_size [Ord K] [TransOrd K] [LawfulEqOrd K] {store : ExtTreeMap K V}
    (followed : Trail (fun key => store[key]?) next start trail) : trail.length ≤ store.size := by
  have bound : (trail.map Prod.fst).length ≤ store.size := by
    apply Math.length_le_size followed.nodup_keys
    intro key listed
    obtain ⟨entry, member, rfl⟩ := List.mem_map.mp listed
    exact mem_iff_exists_getElem?.mpr ⟨_, followed.stored_of_mem member⟩
  simpa using bound

end P2PoolBTC.Math
