import Mathlib

/-! # Stateful routines that can fail part-way

A routine threads a state and may stop with a returned error, a panic, or an exhausted loop
bound. A stopped routine keeps every update made before it stopped, so a statement that an
error leaves the state unchanged is a real obligation and not a consequence of the encoding.
-/

namespace P2PoolBTC.Math

/-- The ways a routine can stop before it returns. -/
inductive Fault (ε : Type) where
  | error (reason : ε)
  | panicked (message : String)
  | diverged
deriving DecidableEq

/-- A routine over states `σ` with error type `ε`. -/
abbrev Routine (σ ε : Type) := EStateM (Fault ε) σ

variable {σ ε α β : Type}

/-- Stop with a returned error. -/
def fail (reason : ε) : Routine σ ε α := fun state => .error (.error reason) state

/-- Stop with a panic. -/
def panicWith (message : String) : Routine σ ε α := fun state => .error (.panicked message) state

/-- Stop because a bounded loop was not finished within its bound. -/
def outOfFuel : Routine σ ε α := fun state => .error .diverged state

/-- Stop with a given fault. -/
def raise (fault : Fault ε) : Routine σ ε α := fun state => .error fault state

/-- Run a pure computation that can return an error or panic. -/
def settle : Except (Fault ε) α → Routine σ ε α
  | .ok value => pure value
  | .error fault => raise fault

/-- Run a pure fallible computation. -/
def attempt : Except ε α → Routine σ ε α
  | .ok value => pure value
  | .error reason => fail reason

/-- A pure check that returns an error when its condition is not met. -/
def require (condition : Prop) [Decidable condition] (reason : ε) : Except ε Unit :=
  if condition then .ok () else .error reason

/-- The same fault with its reason wrapped. -/
def Fault.map {δ : Type} (wrap : δ → ε) : Fault δ → Fault ε
  | .error reason => .error (wrap reason)
  | .panicked message => .panicked message
  | .diverged => .diverged

/-- Run a routine on one component of the state. What it wrote before it stopped is kept. -/
def focus {τ δ : Type} (view : σ → τ) (update : τ → σ → σ) (wrap : δ → ε) (routine : Routine τ δ α) :
    Routine σ ε α := fun state =>
  match routine (view state) with
  | .ok value component => .ok value (update component state)
  | .error fault component => .error (fault.map wrap) (update component state)

/-- Run a routine on a private copy and return what the copy became. -/
def onCopy {τ : Type} (copy : τ) (routine : Routine τ ε α) : Routine σ ε τ := fun state =>
  match routine copy with
  | .ok _ final => .ok final state
  | .error fault _ => .error fault state

/-- The value of an optional result, or an error. -/
def okOr (value : Option α) (reason : ε) : Except ε α :=
  match value with
  | some present => .ok present
  | none => .error reason

variable {reason : ε}

@[simp] theorem require_eq_ok {condition : Prop} [Decidable condition] {value : Unit} :
    require condition reason = .ok value ↔ condition := by
  unfold require
  split_ifs with holds <;> simp [holds]

@[simp] theorem okOr_eq_ok {value : Option α} {present : α} :
    okOr value reason = .ok present ↔ value = some present := by
  cases value <;> simp [okOr]

@[simp] theorem okOr_some (present : α) (reason : ε) : okOr (some present) reason = .ok present := rfl

@[simp] theorem okOr_none (reason : ε) : okOr (none : Option α) reason = .error reason := rfl

theorem require_of_true {condition : Prop} [Decidable condition] (holds : condition) (reason : ε) :
    require condition reason = .ok () := if_pos holds

theorem require_of_false {condition : Prop} [Decidable condition] (fails : ¬ condition) (reason : ε) :
    require condition reason = .error reason := if_neg fails

@[simp] theorem except_ok_bind (value : α) (next : α → Except ε β) :
    ((.ok value : Except ε α) >>= next) = next value := rfl

@[simp] theorem except_error_bind (reason : ε) (next : α → Except ε β) :
    ((.error reason : Except ε α) >>= next) = .error reason := rfl

@[simp] theorem except_bind_eq_ok {first : Except ε α} {next : α → Except ε β} {result : β} :
    (first >>= next) = .ok result ↔ ∃ value, first = .ok value ∧ next value = .ok result := by
  cases first <;> simp [bind, Except.bind]

variable {value : α}

@[simp] theorem mapError_eq_ok {δ : Type} {result : Except δ α} {wrap : δ → ε} :
    result.mapError wrap = .ok value ↔ result = .ok value := by
  cases result <;> simp [Except.mapError]

theorem except_bind_eq_error {first : Except ε α} {next : α → Except ε β} :
    (first >>= next) = .error reason ↔
      first = .error reason ∨ ∃ value, first = .ok value ∧ next value = .error reason := by
  cases first <;> simp [bind, Except.bind]

variable {step : α → Except ε β} {entries : List α}

theorem except_mapM_eq_ok {result : α → β} (returns : ∀ entry ∈ entries, step entry = .ok (result entry)) :
    entries.mapM step = .ok (entries.map result) := by
  induction entries with
  | nil => rfl
  | cons entry rest ih =>
    rw [List.mapM_cons, returns entry List.mem_cons_self, except_ok_bind,
      ih fun later member => returns later (List.mem_cons_of_mem _ member), except_ok_bind]
    rfl

theorem except_mapM_eq_ok_iff {results : List β} :
    entries.mapM step = .ok results ↔ List.Forall₂ (fun entry result => step entry = .ok result) entries results := by
  induction entries generalizing results with
  | nil =>
    rw [List.mapM_nil, List.forall₂_nil_left_iff]
    exact ⟨fun equal => (Except.ok.inj equal).symm, fun equal => congrArg _ equal.symm⟩
  | cons entry rest ih =>
    rw [List.mapM_cons, List.forall₂_cons_left_iff]
    simp only [except_bind_eq_ok, ih]
    constructor
    · rintro ⟨result, first, later, others, ended⟩
      cases ended
      exact ⟨result, later, first, others, rfl⟩
    · rintro ⟨result, later, first, others, rfl⟩
      exact ⟨result, first, later, others, rfl⟩

theorem eq_map_of_mapM_eq_ok {result : α → β} {values : List β}
    (returns : ∀ entry value, step entry = .ok value → value = result entry)
    (returned : entries.mapM step = .ok values) : values = entries.map result := by
  induction except_mapM_eq_ok_iff.mp returned with
  | nil => rfl
  | cons first rest ih =>
    rw [List.map_cons, returns _ _ first]
    exact congrArg _ (ih (except_mapM_eq_ok_iff.mpr rest))

theorem toOption_eq_some {outcome : Except ε α} : outcome.toOption = some value ↔ outcome = .ok value := by
  cases outcome <;> simp [Except.toOption]

theorem forall₂_mem_right {Related : α → β → Prop} {lefts : List α} {rights : List β}
    (related : List.Forall₂ Related lefts rights) {right : β} (member : right ∈ rights) :
    ∃ left ∈ lefts, Related left right := by
  induction related with
  | nil => cases member
  | cons first _ ih =>
    rcases List.mem_cons.mp member with rfl | later
    · exact ⟨_, List.mem_cons_self, first⟩
    · obtain ⟨left, listed, holds⟩ := ih later
      exact ⟨left, List.mem_cons_of_mem _ listed, holds⟩

variable {first : Routine σ ε α} {next : α → Routine σ ε β} {result : Except ε α} {before after : σ} {fault : Fault ε}

namespace Routine

theorem bind_eq_ok {result : β} :
    (first >>= next) before = .ok result after ↔
      ∃ value middle, first before = .ok value middle ∧ next value middle = .ok result after := by
  change EStateM.bind first next before = _ ↔ _
  unfold EStateM.bind
  cases first before <;> simp

/-- A sequence stops in its first part, or in its second part after the first returned. -/
theorem bind_eq_error :
    (first >>= next) before = .error fault after ↔
      first before = .error fault after ∨
        ∃ value middle, first before = .ok value middle ∧
          next value middle = .error fault after := by
  change EStateM.bind first next before = _ ↔ _
  unfold EStateM.bind
  cases first before <;> simp

theorem bind_of_ok {middle : σ} (returned : first before = .ok value middle) :
    (first >>= next) before = next value middle := by
  change EStateM.bind first next before = _
  unfold EStateM.bind
  rw [returned]

theorem bind_of_error {middle : σ} (stopped : first before = .error fault middle) :
    (first >>= next) before = .error fault middle := by
  change EStateM.bind first next before = _
  unfold EStateM.bind
  rw [stopped]

@[simp] theorem pure_apply (value : α) (state : σ) :
    (pure value : Routine σ ε α) state = .ok value state := rfl

@[simp] theorem get_apply (state : σ) : (get : Routine σ ε σ) state = .ok state state := rfl

@[simp] theorem set_apply (next state : σ) : (set next : Routine σ ε PUnit) state = .ok ⟨⟩ next := rfl

@[simp] theorem modify_apply (update : σ → σ) (state : σ) :
    (modify update : Routine σ ε PUnit) state = .ok ⟨⟩ (update state) := rfl

@[simp] theorem get_bind (next : σ → Routine σ ε β) (state : σ) :
    ((get : Routine σ ε σ) >>= next) state = next state state := rfl

@[simp] theorem set_bind (replacement : σ) (next : PUnit → Routine σ ε β) (state : σ) :
    ((set replacement : Routine σ ε PUnit) >>= next) state = next ⟨⟩ replacement := rfl

@[simp] theorem modify_bind (update : σ → σ) (next : PUnit → Routine σ ε β) (state : σ) :
    ((modify update : Routine σ ε PUnit) >>= next) state = next ⟨⟩ (update state) := rfl

@[simp] theorem pure_bind_apply (value : α) (next : α → Routine σ ε β) (state : σ) :
    ((pure value : Routine σ ε α) >>= next) state = next value state := rfl

@[simp] theorem fail_bind (reason : ε) (next : α → Routine σ ε β) (state : σ) :
    ((fail reason : Routine σ ε α) >>= next) state = .error (.error reason) state := rfl

@[simp] theorem fail_apply (reason : ε) (state : σ) :
    (fail reason : Routine σ ε α) state = .error (.error reason) state := rfl

@[simp] theorem raise_apply (fault : Fault ε) (state : σ) :
    (raise fault : Routine σ ε α) state = .error fault state := rfl

@[simp] theorem settle_ok (value : α) : (settle (.ok value) : Routine σ ε α) = pure value := rfl

@[simp] theorem attempt_ok (value : α) : (attempt (.ok value) : Routine σ ε α) = pure value := rfl

@[simp] theorem attempt_error (reason : ε) :
    (attempt (.error reason) : Routine σ ε α) = fail reason := rfl

theorem attempt_eq_ok :
    (attempt result : Routine σ ε α) before = .ok value after ↔
      result = .ok value ∧ before = after := by
  cases result <;> simp

theorem attempt_eq_error :
    (attempt result : Routine σ ε α) before = .error fault after ↔
      ∃ reason, result = .error reason ∧ fault = .error reason ∧ before = after := by
  cases result with
  | ok value => simp
  | error reason => simp [eq_comm]

/-- A sequence that starts with a pure computation returning a value continues with it. -/
theorem attempt_bind_of_ok (returned : result = .ok value) (state : σ) :
    (attempt result >>= next) state = next value state := by
  subst returned
  rfl

section Focus

variable {τ δ : Type} {view : σ → τ} {update : τ → σ → σ} {wrap : δ → ε} {routine : Routine τ δ α}

theorem focus_eq_ok :
    (focus view update wrap routine : Routine σ ε α) before = .ok value after ↔
      ∃ component, routine (view before) = .ok value component ∧ update component before = after := by
  unfold focus
  cases routine (view before) <;> simp

theorem focus_eq_error :
    (focus view update wrap routine : Routine σ ε α) before = .error fault after ↔
      ∃ inner component, routine (view before) = .error inner component ∧ inner.map wrap = fault ∧
        update component before = after := by
  unfold focus
  cases routine (view before) <;> simp [and_assoc]

end Focus

theorem onCopy_eq_ok {τ : Type} {copy final : τ} {routine : Routine τ ε α} :
    (onCopy copy routine : Routine σ ε τ) before = .ok final after ↔
      (∃ value, routine copy = .ok value final) ∧ before = after := by
  unfold onCopy
  cases routine copy <;> simp

theorem onCopy_eq_error {τ : Type} {copy : τ} {routine : Routine τ ε α} :
    (onCopy copy routine : Routine σ ε τ) before = .error fault after ↔
      (∃ final, routine copy = .error fault final) ∧ before = after := by
  unfold onCopy
  cases routine copy <;> simp

/-- The routine leaves a state as it was when it fails in it. -/
def FailsClean (routine : Routine σ ε α) (state : σ) : Prop :=
  ∀ fault after, routine state = .error fault after → after = state

namespace FailsClean

variable {state : σ}

theorem attempt (result : Except ε α) : FailsClean (Math.attempt result) state := by
  intro fault after failed
  obtain ⟨_, -, -, same⟩ := attempt_eq_error.mp failed
  exact same.symm

theorem attempt_bind (rest : ∀ value, result = .ok value → FailsClean (next value) state) :
    FailsClean (Math.attempt result >>= next) state := by
  intro fault after failed
  rcases bind_eq_error.mp failed with early | ⟨value, middle, passed, late⟩
  · exact attempt result fault after early
  · obtain ⟨returned, rfl⟩ := attempt_eq_ok.mp passed
    exact rest value returned fault after late

theorem get_bind {next : σ → Routine σ ε α} (rest : FailsClean (next state) state) :
    FailsClean (get >>= next) state := by
  intro fault after failed
  rw [Routine.get_bind] at failed
  exact rest fault after failed

theorem of_ok {routine : Routine σ ε α} (returned : routine state = .ok value after) : FailsClean routine state := by
  intro fault final failed
  rw [returned] at failed
  cases failed

theorem outOfFuel : FailsClean (outOfFuel : Routine σ ε α) state := by
  intro fault after failed
  cases failed
  rfl

end FailsClean

end Routine

end P2PoolBTC.Math
