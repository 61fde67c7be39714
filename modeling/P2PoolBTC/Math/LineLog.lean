import Mathlib

/-! # Logs of delimited lines

A log joins lines, each followed by a delimiter. Cutting a log at any position leaves whole lines, or
whole lines and a complete line without its delimiter, or whole lines and a part of the next one.
-/

namespace P2PoolBTC.Math

variable {α : Type*} {delimiter : α} {lines done rest : List (List α)} {line cut : List α}

/-- Lines joined into one sequence, each followed by the delimiter. -/
def joinLines (delimiter : α) (lines : List (List α)) : List α := lines.flatMap (· ++ [delimiter])

@[simp] theorem joinLines_nil : joinLines delimiter [] = [] := rfl

theorem joinLines_cons (line : List α) (rest : List (List α)) :
    joinLines delimiter (line :: rest) = line ++ delimiter :: joinLines delimiter rest := by
  simp [joinLines]

theorem joinLines_append (done rest : List (List α)) :
    joinLines delimiter (done ++ rest) = joinLines delimiter done ++ joinLines delimiter rest := by
  simp [joinLines]

theorem joinLines_concat (done : List (List α)) (line : List α) :
    joinLines delimiter (done ++ [line]) = joinLines delimiter done ++ line ++ [delimiter] := by
  simp [joinLines_append, joinLines_cons]

theorem length_le_joinLines (delimiter : α) (lines : List (List α)) :
    lines.length ≤ (joinLines delimiter lines).length := by
  induction lines with
  | nil => exact Nat.le_refl 0
  | cons line rest ih =>
    rw [joinLines_cons, List.length_cons, List.length_append, List.length_cons]
    omega

/-- What is left of a log that was cut, and how many of its lines are left complete. -/
inductive Cut (delimiter : α) : List (List α) → List α → ℕ → Prop
  | whole (done rest : List (List α)) : Cut delimiter (done ++ rest) (joinLines delimiter done) done.length
  | undelimited (done : List (List α)) (line : List α) (rest : List (List α)) :
      Cut delimiter (done ++ line :: rest) (joinLines delimiter done ++ line) (done.length + 1)
  | torn (done : List (List α)) (line : List α) (rest : List (List α)) (tail : List α) (some : tail ≠ [])
      (part : tail <+: line) (proper : tail ≠ line) :
      Cut delimiter (done ++ line :: rest) (joinLines delimiter done ++ tail) done.length

theorem Cut.all (delimiter : α) (lines : List (List α)) :
    Cut delimiter lines (joinLines delimiter lines) lines.length := by
  have whole : Cut delimiter (lines ++ []) (joinLines delimiter lines) lines.length := .whole lines []
  rwa [List.append_nil] at whole

variable {complete : ℕ}

/-- Adding a whole line in front of a cut log. -/
theorem Cut.cons (line : List α) (inner : Cut delimiter lines cut complete) :
    Cut delimiter (line :: lines) (line ++ delimiter :: cut) (complete + 1) := by
  cases inner with
  | whole done rest =>
    have outer : Cut delimiter (line :: done ++ rest) (joinLines delimiter (line :: done)) _ := .whole _ _
    rwa [joinLines_cons] at outer
  | undelimited done next rest =>
    have outer : Cut delimiter (line :: done ++ next :: rest) (joinLines delimiter (line :: done) ++ next) _ :=
      .undelimited _ _ _
    rwa [joinLines_cons, List.append_assoc, List.cons_append] at outer
  | torn done next rest tail some part proper =>
    have outer : Cut delimiter (line :: done ++ next :: rest) (joinLines delimiter (line :: done) ++ tail) _ :=
      .torn _ _ _ _ some part proper
    rwa [joinLines_cons, List.append_assoc, List.cons_append] at outer

/-- Every cut of a log has one of the three forms. -/
theorem exists_cut (delimiter : α) (lines : List (List α)) (length : ℕ) :
    ∃ complete, Cut delimiter lines ((joinLines delimiter lines).take length) complete := by
  induction lines generalizing length with
  | nil =>
    rw [joinLines_nil, List.take_nil]
    exact ⟨0, .whole [] []⟩
  | cons line rest ih =>
    rw [joinLines_cons, List.take_append]
    rcases Nat.lt_trichotomy length line.length with short | exact_ | long
    · rw [show length - line.length = 0 by omega, List.take_zero, List.append_nil]
      by_cases empty : line.take length = []
      · rw [empty]
        exact ⟨0, .whole [] (line :: rest)⟩
      · refine ⟨0, .torn [] line rest _ empty (List.take_prefix _ _) ?_⟩
        intro same
        have lengths := congrArg List.length same
        rw [List.length_take] at lengths
        omega
    · subst exact_
      rw [Nat.sub_self, List.take_zero, List.append_nil, List.take_length]
      exact ⟨1, .undelimited [] line rest⟩
    · obtain ⟨beyond, rfl⟩ : ∃ beyond, length = line.length + 1 + beyond := ⟨length - line.length - 1, by omega⟩
      obtain ⟨complete, inner⟩ := ih beyond
      rw [List.take_of_length_le (by omega), show line.length + 1 + beyond - line.length = beyond + 1 by omega,
        List.take_succ_cons]
      exact ⟨complete + 1, inner.cons line⟩

/-- Writing a part of one more line after a log cuts the longer log. Its last line is complete when its whole text
is written. -/
theorem exists_cut_append (delimiter : α) (done : List (List α)) (line : List α) (written : ℕ) :
    ∃ complete, Cut delimiter (done ++ [line])
        (joinLines delimiter done ++ (line ++ [delimiter]).take written) complete ∧
      (line.length ≤ written ∧ complete = done.length + 1 ∨ written < line.length ∧ complete = done.length) := by
  rcases Nat.lt_trichotomy written line.length with short | rfl | long
  · refine ⟨done.length, ?_, .inr ⟨short, rfl⟩⟩
    rw [List.take_append_of_le_length short.le]
    cases written with
    | zero =>
      rw [List.take_zero, List.append_nil]
      exact .whole done [line]
    | succ written =>
      have length := List.length_take_of_le short.le
      refine .torn done line [] _ ?_ (List.take_prefix _ _) ?_
      · intro empty
        rw [empty] at length
        cases length
      · intro same
        rw [same] at length
        omega
  · refine ⟨done.length + 1, ?_, .inl ⟨Nat.le_refl _, rfl⟩⟩
    rw [List.take_left]
    exact .undelimited done line []
  · refine ⟨done.length + 1, ?_, .inl ⟨long.le, rfl⟩⟩
    rw [List.take_of_length_le (by simpa using long), ← List.append_assoc, ← joinLines_concat]
    have whole := Cut.all delimiter (done ++ [line])
    rwa [List.length_append] at whole

/-- A cut log that ends with a delimiter consists of whole lines. -/
theorem Cut.eq_joinLines (cutting : Cut delimiter lines cut complete) (plain : ∀ line ∈ lines, delimiter ∉ line)
    (filled : ∀ line ∈ lines, line ≠ []) (finished : ∀ last ∈ cut.getLast?, last = delimiter) :
    cut = joinLines delimiter (lines.take complete) := by
  -- Neither a complete line nor a part of one ends with a delimiter.
  have unfinished : ∀ front tail : List α, tail ≠ [] → delimiter ∉ tail →
      ¬ ∀ last ∈ (front ++ tail).getLast?, last = delimiter := by
    intro front tail some absent ended
    rw [List.getLast?_append, List.getLast?_eq_some_getLast some, Option.some_or] at ended
    exact absent (ended _ rfl ▸ List.getLast_mem some)
  cases cutting with
  | whole done rest => rw [List.take_left]
  | undelimited done line rest =>
    exact absurd finished (unfinished _ _ (filled line (by simp)) (plain line (by simp)))
  | torn done line rest tail some part proper =>
    exact absurd finished (unfinished _ _ some fun inside => plain line (by simp) (part.subset inside))

private theorem length_joinLines_take_le (delimiter : α) (lines : List (List α)) (count : ℕ) :
    (joinLines delimiter (lines.take count)).length ≤ (joinLines delimiter lines).length := by
  conv_rhs => rw [← List.take_append_drop count lines, joinLines_append, List.length_append]
  omega

/-- Taking a line beyond some lines takes its text and its delimiter. -/
theorem length_joinLines_take_gt (delimiter : α) (line : List α) (rest : List (List α)) {count : ℕ}
    (beyond : done.length < count) :
    (joinLines delimiter done).length + line.length + 1 ≤
      (joinLines delimiter ((done ++ line :: rest).take count)).length := by
  rw [List.take_append, joinLines_append, List.length_append, List.take_of_length_le beyond.le,
    show count - done.length = count - done.length - 1 + 1 by omega, List.take_succ_cons, joinLines_cons,
    List.length_append, List.length_cons]
  omega

theorem Cut.isPrefix (cutting : Cut delimiter lines cut complete) :
    cut <+: joinLines delimiter lines ∧ complete ≤ lines.length := by
  cases cutting with
  | whole done rest => simp [joinLines_append]
  | undelimited done line rest => simp [joinLines_append, joinLines_cons]
  | torn done line rest tail some part proper =>
    obtain ⟨missing, rfl⟩ := part
    simp [joinLines_append, joinLines_cons]

/-- The complete lines are those whose text, delimiter or not, lies within the cut. -/
theorem Cut.le_complete_iff {count : ℕ} (cutting : Cut delimiter lines cut complete)
    (filled : ∀ line ∈ lines, line ≠ []) (bound : count ≤ lines.length) :
    count ≤ complete ↔ (joinLines delimiter (lines.take count)).dropLast <+: cut := by
  have taken : (joinLines delimiter (lines.take count)).dropLast <+: joinLines delimiter lines := by
    refine (List.dropLast_prefix _).trans ⟨joinLines delimiter (lines.drop count), ?_⟩
    rw [← joinLines_append, List.take_append_drop]
  have lengths : (joinLines delimiter (lines.take count)).dropLast <+: cut ↔
      (joinLines delimiter (lines.take count)).length - 1 ≤ cut.length := by
    rw [← List.length_dropLast]
    exact ⟨List.IsPrefix.length_le, List.prefix_of_prefix_length_le taken cutting.isPrefix.1⟩
  rw [lengths]
  cases cutting with
  | whole done rest =>
    constructor
    · intro within
      rw [List.take_append_of_le_length within]
      have shorter := length_joinLines_take_le delimiter done count
      omega
    · intro fits
      by_contra beyond
      cases rest with
      | nil =>
        rw [List.append_nil] at bound
        exact beyond bound
      | cons line rest =>
        have longer := length_joinLines_take_gt delimiter line rest (lt_of_not_ge beyond)
        have text := List.length_pos_of_ne_nil (filled line (by simp))
        omega
  | undelimited done line rest =>
    rw [List.length_append]
    constructor
    · intro within
      have shorter := length_joinLines_take_le delimiter (done ++ [line]) count
      rw [joinLines_concat, List.length_append, List.length_append, List.length_singleton] at shorter
      rw [← List.singleton_append, ← List.append_assoc, List.take_append_of_le_length (by simpa using within)]
      omega
    · intro fits
      by_contra beyond
      cases rest with
      | nil =>
        rw [List.length_append, List.length_singleton] at bound
        exact beyond bound
      | cons next rest =>
        have further : (done ++ [line]).length < count := by
          rw [List.length_append, List.length_singleton]
          omega
        have longer := length_joinLines_take_gt delimiter next rest further
        rw [joinLines_concat, List.length_append, List.length_append, List.length_singleton, List.append_assoc,
          List.singleton_append] at longer
        omega
  | torn done line rest tail some part proper =>
    rw [List.length_append]
    have shorter : tail.length < line.length :=
      part.length_le.lt_of_ne fun same => proper (part.eq_of_length same)
    constructor
    · intro within
      rw [List.take_append_of_le_length within]
      have bounded := length_joinLines_take_le delimiter done count
      omega
    · intro fits
      by_contra beyond
      have longer := length_joinLines_take_gt delimiter line rest (lt_of_not_ge beyond)
      omega

end P2PoolBTC.Math
