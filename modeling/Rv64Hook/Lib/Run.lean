import Mathlib

/-! Runs of a deterministic machine inside a region of its states. -/
namespace Machine

variable {σ : Type*}

/-- `step` leads from the first state to the second, and every state it is applied to lies in
the region; the last state may lie outside. -/
inductive RunsWithin (step : σ → σ) (region : σ → Prop) : σ → σ → Prop
  | refl (s : σ) : RunsWithin step region s s
  | head {s t : σ} (hs : region s) (h : RunsWithin step region (step s) t) :
      RunsWithin step region s t

namespace RunsWithin

variable {step : σ → σ} {region : σ → Prop} {s t u : σ}

theorem trans (h : RunsWithin step region s t) (h' : RunsWithin step region t u) :
    RunsWithin step region s u := by
  induction h with
  | refl => exact h'
  | head hs _ ih => exact head hs (ih h')

theorem single (hs : region s) (h : step s = t) : RunsWithin step region s t :=
  head hs (h ▸ refl _)

/-- A run that starts outside the region goes nowhere. -/
theorem eq_of_outside (h : RunsWithin step region s t) (hs : ¬ region s) : s = t := by
  cases h with
  | refl => rfl
  | head hr _ => exact absurd hr hs

/-- Two runs from one state lie on one path. -/
theorem linear (h : RunsWithin step region s t) (h' : RunsWithin step region s u) :
    RunsWithin step region t u ∨ RunsWithin step region u t := by
  induction h with
  | refl => exact Or.inl h'
  | head hs h ih =>
    cases h' with
    | refl => exact Or.inr (head hs h)
    | head _ h' => exact ih h'

/-- An invariant of the steps made inside the region holds at the end of a run. -/
theorem invariant (h : RunsWithin step region s t) {P : σ → Prop}
    (hstep : ∀ v, region v → P v → P (step v)) (hs : P s) : P t := by
  induction h with
  | refl => exact hs
  | head hr _ ih => exact ih (hstep _ hr hs)

end RunsWithin
end Machine
