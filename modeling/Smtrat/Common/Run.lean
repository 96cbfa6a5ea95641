import Mathlib

/-!
# Runs

A component that is driven from outside is a partial function of its state and an action: an
action that its callers must not take in a state has no result there.  A run takes a sequence of
actions, and what every step preserves holds at its end.
-/

namespace Run

variable {σ α : Type*}

/-- The state after a sequence of actions, if each of them is possible. -/
def run (step : σ → α → Option σ) : σ → List α → Option σ
  | s, [] => some s
  | s, a :: as => (step s a).bind fun s' => run step s' as

variable {step : σ → α → Option σ}

variable {s s' : σ} {as : List α}

theorem run_cons {a : α} :
    run step s (a :: as) = some s' ↔ ∃ s₁, step s a = some s₁ ∧ run step s₁ as = some s' := by
  rw [run, Option.bind_eq_some_iff]

theorem run_append {bs : List α} :
    run step s (as ++ bs) = some s' ↔ ∃ s₁, run step s as = some s₁ ∧ run step s₁ bs = some s' := by
  induction as generalizing s with
  | nil => simp [run]
  | cons a as ih =>
    simp only [List.cons_append, run_cons, ih]
    constructor
    · rintro ⟨s₁, h₁, s₂, h₂, h⟩
      exact ⟨s₂, ⟨s₁, h₁, h₂⟩, h⟩
    · rintro ⟨s₂, ⟨s₁, h₁, h₂⟩, h⟩
      exact ⟨s₁, h₁, s₂, h₂, h⟩

/-- What every step preserves is preserved by every run. -/
theorem run_invariant {P : σ → Prop} (hstep : ∀ s a s', P s → step s a = some s' → P s')
    (hs : P s) (h : run step s as = some s') : P s' := by
  induction as generalizing s with
  | nil =>
    cases h
    exact hs
  | cons a as ih =>
    obtain ⟨s₁, hs₁, h⟩ := run_cons.mp h
    exact ih (hstep s a s₁ hs hs₁) h

/-! ## Restricted runs -/

section Guarded

variable (guard : σ → α → Prop) [∀ s a, Decidable (guard s a)]

/-- The steps that meet a condition on the state and the action. -/
def guarded (step : σ → α → Option σ) (s : σ) (a : α) : Option σ :=
  if guard s a then step s a else none

variable {guard}

theorem guarded_eq_some {a : α} :
    guarded guard step s a = some s' ↔ guard s a ∧ step s a = some s' := by
  by_cases h : guard s a
  · rw [guarded, if_pos h]
    exact (and_iff_right h).symm
  · simp [guarded, h]

/-- A restricted run is a run. -/
theorem run_of_guarded (h : run (guarded guard step) s as = some s') : run step s as = some s' := by
  induction as generalizing s with
  | nil => exact h
  | cons a as ih =>
    obtain ⟨s₁, hs₁, h⟩ := run_cons.mp h
    exact run_cons.mpr ⟨s₁, (guarded_eq_some.mp hs₁).2, ih h⟩

/-- What every step that meets the condition preserves. -/
theorem guarded_invariant {P : σ → Prop}
    (hstep : ∀ s a s', P s → guard s a → step s a = some s' → P s')
    (hs : P s) (h : run (guarded guard step) s as = some s') : P s' := by
  refine run_invariant (fun s a s' hs ha => ?_) hs h
  obtain ⟨hguard, ha⟩ := guarded_eq_some.mp ha
  exact hstep s a s' hs hguard ha

end Guarded

end Run
