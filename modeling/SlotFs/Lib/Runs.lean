import Mathlib

/-!
# Runs of a step relation

A run is Mathlib's reflexive transitive closure of the step relation. An
invariant of every step is an invariant of every run.
-/

namespace Runs

variable {σ : Type*} {step : σ → σ → Prop}

abbrev Run (step : σ → σ → Prop) : σ → σ → Prop := Relation.ReflTransGen step

theorem Run.invariant {I : σ → Prop} (keeps : ∀ {s t}, I s → step s t → I t) {s t : σ}
    (run : Run step s t) (start : I s) : I t := by
  induction run with
  | refl => exact start
  | tail _ last ih => exact keeps ih last

end Runs
