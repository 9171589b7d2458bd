import Mathlib

/-!
# Regions of memory

A region is a half-open interval of addresses. Regions are stacked when each one begins where
the one before it ends; such regions do not meet.
-/

structure Region where
  start : Nat
  length : Nat
deriving DecidableEq

namespace Region

def stop (r : Region) : Nat := r.start + r.length

/-- No address is in both. -/
def Apart (r s : Region) : Prop := r.stop ≤ s.start ∨ s.stop ≤ r.start

/-- The regions fill the addresses from `a` up to `b`, one behind the other. -/
def Stacked : Nat → List Region → Nat → Prop
  | a, [], b => a = b
  | a, r :: rest, b => r.start = a ∧ Stacked r.stop rest b

variable {a b : Nat} {rs : List Region}

section
variable (h : Stacked a rs b)
include h

theorem Stacked.le : a ≤ b := by
  induction rs generalizing a with
  | nil => exact Nat.le_of_eq h
  | cons r rest ih => exact h.1 ▸ Nat.le_trans (Nat.le_add_right r.start r.length) (ih h.2)

theorem Stacked.within {r : Region} (mem : r ∈ rs) : a ≤ r.start ∧ r.stop ≤ b := by
  induction rs generalizing a with
  | nil => cases mem
  | cons s rest ih =>
    have first : a ≤ s.stop := h.1 ▸ Nat.le_add_right s.start s.length
    rcases List.mem_cons.mp mem with rfl | later
    · exact ⟨Nat.le_of_eq h.1.symm, h.2.le⟩
    · exact ⟨Nat.le_trans first (ih h.2 later).1, (ih h.2 later).2⟩

theorem Stacked.apart : rs.Pairwise Apart := by
  induction rs generalizing a with
  | nil => exact .nil
  | cons r rest ih => exact .cons (fun s mem => .inl (h.2.within mem).1) (ih h.2)

end

theorem stacked_append {rs' : List Region} : Stacked a (rs ++ rs') b ↔ ∃ c, Stacked a rs c ∧ Stacked c rs' b := by
  induction rs generalizing a with
  | nil =>
    constructor
    · intro h
      exact ⟨a, rfl, h⟩
    · rintro ⟨_, rfl, h⟩
      exact h
  | cons r rest ih =>
    rw [List.cons_append, Stacked, ih]
    constructor
    · rintro ⟨here, c, front, back⟩
      exact ⟨c, ⟨here, front⟩, back⟩
    · rintro ⟨c, ⟨here, front⟩, back⟩
      exact ⟨here, c, front, back⟩

end Region
