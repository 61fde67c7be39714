import P2PoolBTC.Math.Fault

/-! # Frames of routines

What a routine can change, whether it returns or stops: every state it leaves is related to the state
it started from. The rules follow the structure of a routine.
-/

namespace P2PoolBTC.Math

variable {σ ε α β : Type} {Rel : σ → σ → Prop} {before : σ}

variable {first : Except (Fault ε) α}

namespace Routine

variable {next : α → Routine σ ε β} {result : β} {fault : Fault ε} {after : σ}

theorem settle_bind_eq_ok :
    (settle first >>= next) before = .ok result after ↔
      ∃ value, first = .ok value ∧ next value before = .ok result after := by
  cases first <;> simp [settle, bind_eq_ok]

theorem settle_bind_eq_error :
    (settle first >>= next) before = .error fault after ↔
      first = .error fault ∧ before = after ∨
        ∃ value, first = .ok value ∧ next value before = .error fault after := by
  cases first <;> simp [settle, bind_eq_error]

theorem attempt_bind_eq_ok {first : Except ε α} :
    (attempt first >>= next) before = .ok result after ↔
      ∃ value, first = .ok value ∧ next value before = .ok result after := by
  cases first <;> simp

end Routine

/-- Every state that the routine leaves is related to the one it starts from. -/
def Frame (Rel : σ → σ → Prop) (routine : Routine σ ε α) (before : σ) : Prop :=
  ∀ after, ((∃ value, routine before = .ok value after) ∨ ∃ fault, routine before = .error fault after) →
    Rel before after

variable {routine : Routine σ ε α} {after : σ} {next : α → Routine σ ε β}

namespace Frame

theorem of_ok (frame : Frame Rel routine before) {value : α} (returned : routine before = .ok value after) :
    Rel before after := frame after (.inl ⟨value, returned⟩)

theorem of_error (frame : Frame Rel routine before) {fault : Fault ε} (stopped : routine before = .error fault after) :
    Rel before after := frame after (.inr ⟨fault, stopped⟩)

theorem bind {first : Routine σ ε α} (trans : ∀ {one two three}, Rel one two → Rel two three → Rel one three)
    (frame : Frame Rel first before)
    (rest : ∀ value middle, first before = .ok value middle → Frame Rel (next value) middle) :
    Frame Rel (first >>= next) before := by
  rintro after (⟨value, returned⟩ | ⟨fault, stopped⟩)
  · obtain ⟨early, middle, firstReturned, later⟩ := Routine.bind_eq_ok.mp returned
    exact trans (frame.of_ok firstReturned) ((rest early middle firstReturned).of_ok later)
  · rcases Routine.bind_eq_error.mp stopped with early | ⟨value, middle, firstReturned, later⟩
    · exact frame.of_error early
    · exact trans (frame.of_ok firstReturned) ((rest value middle firstReturned).of_error later)

section Unchanged

variable (refl : ∀ state, Rel state state)
include refl

theorem pure (value : α) : Frame Rel (pure value : Routine σ ε α) before := by
  rintro after (⟨_, returned⟩ | ⟨_, stopped⟩)
  · cases returned
    exact refl _
  · cases stopped

theorem raise (fault : Fault ε) : Frame Rel (raise fault : Routine σ ε α) before := by
  rintro after (⟨_, returned⟩ | ⟨_, stopped⟩)
  · cases returned
  · cases stopped
    exact refl _

theorem fail (reason : ε) : Frame Rel (fail reason : Routine σ ε α) before := raise refl (.error reason)

theorem settle_bind {result : Except (Fault ε) α} (rest : ∀ value, result = .ok value → Frame Rel (next value) before) :
    Frame Rel (Math.settle result >>= next) before := by
  cases result with
  | ok value => exact rest value rfl
  | error fault => exact raise refl fault

theorem attempt (result : Except ε α) : Frame Rel (Math.attempt result : Routine σ ε α) before := by
  cases result with
  | ok value => exact pure refl value
  | error reason => exact fail refl reason

theorem attempt_bind {result : Except ε α} (rest : ∀ value, result = .ok value → Frame Rel (next value) before) :
    Frame Rel (Math.attempt result >>= next) before := by
  cases result with
  | ok value => exact rest value rfl
  | error reason => exact fail refl reason

end Unchanged

theorem set {next : σ} (related : Rel before next) : Frame Rel (set next : Routine σ ε PUnit) before := by
  rintro after (⟨_, returned⟩ | ⟨_, stopped⟩)
  · cases returned
    exact related
  · cases stopped

theorem modify {update : σ → σ} (related : Rel before (update before)) :
    Frame Rel (modify update : Routine σ ε PUnit) before := by
  rintro after (⟨_, returned⟩ | ⟨_, stopped⟩)
  · cases returned
    exact related
  · cases stopped

theorem get_bind {next : σ → Routine σ ε α} (rest : Frame Rel (next before) before) :
    Frame Rel (get >>= next) before := rest

theorem of_eq (value : α) (returned : routine before = .ok value after) (related : Rel before after) :
    Frame Rel routine before := by
  rintro last (⟨_, other⟩ | ⟨_, stopped⟩)
  · cases returned.symm.trans other
    exact related
  · cases returned.symm.trans stopped

theorem mono {Wider : σ → σ → Prop} (frame : Frame Rel routine before)
    (wider : ∀ after, Rel before after → Wider before after) : Frame Wider routine before :=
  fun after ended => wider after (frame after ended)

theorem set_bind {next : σ} {rest : PUnit → Routine σ ε β}
    (trans : ∀ {one two three}, Rel one two → Rel two three → Rel one three) (related : Rel before next)
    (later : Frame Rel (rest ⟨⟩) next) : Frame Rel (MonadStateOf.set next >>= rest) before :=
  fun after ended => trans related (later after ended)

end Frame

/-! ## Returned errors -/

/-- The computation returns a value or an error and does not fault otherwise. -/
def ErrorsOnly (result : Except (Fault ε) α) : Prop :=
  ∀ fault, result = .error fault → ∃ reason, fault = .error reason

namespace ErrorsOnly

theorem ok (value : α) : ErrorsOnly (.ok value : Except (Fault ε) α) := by
  intro fault failed
  cases failed

theorem error (reason : ε) : ErrorsOnly (.error (.error reason) : Except (Fault ε) α) := by
  intro fault failed
  cases failed
  exact ⟨reason, rfl⟩

theorem require {condition : Prop} [Decidable condition] (reason : ε) :
    ErrorsOnly (Math.require condition (.error reason)) := by
  unfold Math.require
  split_ifs
  · exact ok ()
  · exact error reason

theorem okOr (value : Option α) (reason : ε) : ErrorsOnly (Math.okOr value (.error reason)) := by
  cases value with
  | none => exact error reason
  | some present => exact ok present

theorem bind {next : α → Except (Fault ε) β} (early : ErrorsOnly first)
    (late : ∀ value, first = .ok value → ErrorsOnly (next value)) : ErrorsOnly (first >>= next) := by
  intro fault failed
  rcases except_bind_eq_error.mp failed with stopped | ⟨value, returned, stopped⟩
  · exact early fault stopped
  · exact late value returned fault stopped

end ErrorsOnly

/-- A routine that fails from a state fails with an error and does not fault otherwise. -/
def Refuses (routine : Routine σ ε α) (before : σ) : Prop :=
  ∀ fault after, routine before = .error fault after → ∃ reason, fault = .error reason

namespace Refuses

variable {before : σ}

theorem pure (value : α) : Refuses (pure value : Routine σ ε α) before := by
  intro fault after failed
  cases failed

theorem get_bind {next : σ → Routine σ ε α} (rest : Refuses (next before) before) :
    Refuses (get >>= next) before := rest

theorem settle_bind {result : Except (Fault ε) α} (early : ErrorsOnly result)
    (late : ∀ value, result = .ok value → Refuses (next value) before) : Refuses (settle result >>= next) before := by
  intro fault after failed
  rcases Routine.settle_bind_eq_error.mp failed with ⟨stopped, -⟩ | ⟨value, returned, failed⟩
  · exact early fault stopped
  · exact late value returned fault after failed

theorem attempt_bind {result : Except ε α} (late : ∀ value, result = .ok value → Refuses (next value) before) :
    Refuses (attempt result >>= next) before := by
  intro fault after failed
  rcases Routine.bind_eq_error.mp failed with stopped | ⟨value, middle, returned, failed⟩
  · obtain ⟨reason, -, same, -⟩ := Routine.attempt_eq_error.mp stopped
    exact ⟨reason, same⟩
  · obtain ⟨gave, rfl⟩ := Routine.attempt_eq_ok.mp returned
    exact late value gave fault after failed

end Refuses

end P2PoolBTC.Math
