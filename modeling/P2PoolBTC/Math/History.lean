import P2PoolBTC.Math.Fault

/-! # Passes that add to a history

A pass over some input changes a state step by step while the state stands for the events so far. What
the steps add is composed along the pass: a pass that returns has added the events of its steps, and a
pass whose steps return on every allowed history returns on it.
-/

namespace P2PoolBTC.Math

variable {σ ε φ : Type} {Stands : List ε → σ → Prop} {Allowed : List ε → Prop}
  {first second : σ → Except φ σ} {early late : List ε}

/-- A step that returns has added the events to the history. -/
def Adds (Stands : List ε → σ → Prop) (step : σ → Except φ σ) (events : List ε) : Prop :=
  ∀ history state next, Stands history state → step state = .ok next → Stands (history ++ events) next

/-- A step returns and adds the events when that gives an allowed history. -/
def Performs (Stands : List ε → σ → Prop) (Allowed : List ε → Prop) (step : σ → Except φ σ) (events : List ε) : Prop :=
  ∀ history state, Stands history state → Allowed (history ++ events) →
    ∃ next, step state = .ok next ∧ Stands (history ++ events) next

namespace Adds

theorem ok : Adds Stands (fun state => (.ok state : Except φ σ)) [] := by
  rintro history state _ stands ⟨⟩
  rwa [List.append_nil]

theorem bind (one : Adds Stands first early) (two : Adds Stands second late) :
    Adds Stands (fun state => first state >>= second) (early ++ late) := by
  intro history state next stands returned
  obtain ⟨middle, begun, ended⟩ := except_bind_eq_ok.mp returned
  rw [← List.append_assoc]
  exact two _ middle next (one history state middle stands begun) ended

end Adds

namespace Performs

theorem ok : Performs Stands Allowed (fun state => (.ok state : Except φ σ)) [] := by
  intro history state stands _
  exact ⟨state, rfl, by rwa [List.append_nil]⟩

/-- Steps compose when every earlier part of an allowed history is allowed. -/
theorem bind (closed : ∀ earlier later, Allowed (earlier ++ later) → Allowed earlier)
    (one : Performs Stands Allowed first early) (two : Performs Stands Allowed second late) :
    Performs Stands Allowed (fun state => first state >>= second) (early ++ late) := by
  intro history state stands allowed
  rw [← List.append_assoc] at allowed ⊢
  obtain ⟨middle, begun, reached⟩ := one history state stands (closed _ _ allowed)
  obtain ⟨next, ended, whole⟩ := two _ middle reached allowed
  exact ⟨next, except_bind_eq_ok.mpr ⟨middle, begun, ended⟩, whole⟩

end Performs

end P2PoolBTC.Math
