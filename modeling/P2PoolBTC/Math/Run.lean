import Mathlib

/-! # Runs of a partial transition function

A run folds a partial step over a list of events and stops at the first event that is refused.
The rules here package the two inductions every safety argument needs: an invariant kept by each
accepted step holds after the run, and a transitive relation kept by each accepted step relates
the start of the run to its end.
-/

namespace P2PoolBTC.Math

variable {σ ε : Type*} {step : σ → ε → Option σ}

/-- Fold a partial step over a list of events. -/
def run? (step : σ → ε → Option σ) (start : σ) (events : List ε) : Option σ :=
  events.foldlM step start

@[simp] theorem run?_nil (start : σ) : run? step start [] = some start := rfl

private theorem run?_cons (start : σ) (event : ε) (rest : List ε) :
    run? step start (event :: rest) = (step start event).bind fun next => run? step next rest := rfl

variable {start last : σ}

theorem run?_cons_eq_some {event : ε} {rest : List ε} :
    run? step start (event :: rest) = some last ↔
      ∃ next, step start event = some next ∧ run? step next rest = some last := by
  rw [run?_cons, Option.bind_eq_some_iff]

theorem run?_append_eq_some {early late : List ε} :
    run? step start (early ++ late) = some last ↔
      ∃ middle, run? step start early = some middle ∧ run? step middle late = some last := by
  simp only [run?, List.foldlM_append, Option.bind_eq_bind, Option.bind_eq_some_iff]

theorem run?_concat_eq_some {early : List ε} {event : ε} :
    run? step start (early ++ [event]) = some last ↔
      ∃ middle, run? step start early = some middle ∧ step middle event = some last := by
  simp [run?_append_eq_some, run?_cons_eq_some]

/-- An invariant kept by the accepted events of a run holds at its end. -/
theorem run?_invariant (Invariant : σ → Prop) {events : List ε} (run : run? step start events = some last)
    (initially : Invariant start) (kept : ∀ before event after, event ∈ events → Invariant before →
      step before event = some after → Invariant after) : Invariant last := by
  induction events generalizing start with
  | nil =>
    obtain rfl := Option.some.inj run
    exact initially
  | cons event rest ih =>
    obtain ⟨next, accepted, tail⟩ := run?_cons_eq_some.mp run
    apply ih tail (kept start event next (List.mem_cons_self ..) initially accepted)
    intro before later after member
    exact kept before later after (List.mem_cons_of_mem _ member)

/-- A reflexive and transitive relation kept by accepted events relates the ends of a run. -/
theorem run?_relates (Invariant : σ → Prop) (Relation : σ → σ → Prop) {events : List ε}
    (run : run? step start events = some last) (initially : Invariant start) (refl : ∀ state, Relation state state)
    (trans : ∀ first second third, Relation first second → Relation second third → Relation first third)
    (kept : ∀ before event after, event ∈ events → Invariant before →
      step before event = some after → Invariant after ∧ Relation before after) : Relation start last := by
  have reached : Invariant last ∧ Relation start last :=
    run?_invariant (fun state => Invariant state ∧ Relation start state) run
      ⟨initially, refl start⟩ fun before event after member held accepted => by
        obtain ⟨next, related⟩ := kept before event after member held.1 accepted
        exact ⟨next, trans start before after held.2 related⟩
  exact reached.2

end P2PoolBTC.Math
