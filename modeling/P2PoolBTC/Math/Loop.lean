import Mathlib.Data.List.Basic

/-! # Loops that may fail

A loop runs a check on each of its entries and stops at the first entry that fails. The rules say what
holds after a loop that returned.
-/

namespace P2PoolBTC.Math

variable {σ ι δ ε : Type*} {body : σ → ι → Except ε σ}

theorem forM_eq_ok {check : ι → Except ε Unit} {entries : List ι} :
    entries.forM check = .ok () ↔ ∀ entry ∈ entries, check entry = .ok () := by
  induction entries with
  | nil => simp [pure, Except.pure]
  | cons entry rest ih =>
    rw [List.forall_mem_cons, ← ih]
    change (check entry >>= fun _ => rest.forM check) = .ok () ↔ _
    cases check entry with
    | error reason => simp [bind, Except.bind]
    | ok done => simp [bind, Except.bind]

section Distinct

variable {κ : Type*} [DecidableEq κ] (key : ι → κ) (repeated : ι → ε) (check : ι → Except ε Unit)

/-- Run a check on every entry, and refuse an entry whose key was seen before. -/
def distinctForM : List κ → List ι → Except ε Unit
  | _, [] => .ok ()
  | seen, entry :: rest =>
    if key entry ∈ seen then .error (repeated entry)
    else do
      check entry
      distinctForM (key entry :: seen) rest

theorem distinctForM_eq_ok {seen : List κ} {entries : List ι} :
    distinctForM key repeated check seen entries = .ok () ↔
      (∀ entry ∈ entries, check entry = .ok ()) ∧ (entries.map key).Nodup ∧ ∀ entry ∈ entries, key entry ∉ seen := by
  induction entries generalizing seen with
  | nil => simp [distinctForM]
  | cons entry rest ih =>
    unfold distinctForM
    by_cases present : key entry ∈ seen
    · simp [present]
    · cases outcome : check entry with
      | error reason => simp [present, outcome, bind, Except.bind]
      | ok done =>
        rw [if_neg present]
        change distinctForM key repeated check (key entry :: seen) rest = .ok () ↔ _
        rw [ih, List.forall_mem_cons, List.forall_mem_cons, List.map_cons, List.nodup_cons]
        simp only [List.mem_cons, not_or, List.mem_map, not_exists, not_and]
        constructor
        · rintro ⟨checks, distinct, fresh⟩
          exact ⟨⟨outcome, checks⟩, ⟨fun other member => (fresh other member).1, distinct⟩, present,
            fun other member => (fresh other member).2⟩
        · rintro ⟨⟨-, checks⟩, ⟨apart, distinct⟩, -, fresh⟩
          exact ⟨checks, distinct, fun other member => ⟨apart other member, fresh other member⟩⟩

end Distinct

end P2PoolBTC.Math
