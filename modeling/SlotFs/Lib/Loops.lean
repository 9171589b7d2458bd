import Mathlib

/-!
# Loops that may not end

The body of a loop is a function that says of a state what one turn makes of it. A loop
that ends has a finite number of turns; a turn that changes nothing is made for ever.
-/

namespace Loops

inductive Pass (σ : Type*)
  | stop (s : σ)
  | again (s : σ)
  | crash

variable {σ : Type*} {turn : σ → Pass σ} {s t : σ}

/-- The loop comes from `s` to its end in `t`. -/
inductive Halts (turn : σ → Pass σ) : σ → σ → Prop
  | stop {s t : σ} (last : turn s = .stop t) : Halts turn s t
  | again {s s1 t : σ} (first : turn s = .again s1) (rest : Halts turn s1 t) : Halts turn s t

/-- A turn that leaves the state as it is. -/
theorem not_halts_of_same (same : turn s = .again s) : ¬ Halts turn s t := by
  intro halts
  induction halts with
  | stop last => cases same.symm.trans last
  | again first _ ih =>
    cases same.symm.trans first
    exact ih same

/-- Some turns bring the loop from `s` to `t`. -/
abbrev Leads (turn : σ → Pass σ) : σ → σ → Prop := Relation.ReflTransGen fun s t => turn s = .again t

def Crashes (turn : σ → Pass σ) (s : σ) : Prop := ∃ t, Leads turn s t ∧ turn t = .crash

theorem Leads.halts (leads : Leads turn s t) {u : σ} (last : turn t = .stop u) : Halts turn s u := by
  induction leads using Relation.ReflTransGen.head_induction_on with
  | refl => exact .stop last
  | head first _ ih => exact .again first ih

theorem Crashes.after (crashes : Crashes turn t) (leads : Leads turn s t) : Crashes turn s := by
  obtain ⟨u, rest, crash⟩ := crashes
  exact ⟨u, leads.trans rest, crash⟩

end Loops
