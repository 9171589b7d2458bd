import Mathlib

/-!
# Tables of slots

A table has an entry or nothing in each of its first `n` slots. Filling a free slot adds one
entry, wherever it is.
-/

namespace Slots
open Function List

variable {α : Type} {f g : Nat → Option α} {a : α} {i n : Nat}

def entries (f : Nat → Option α) : Nat → List α
  | 0 => []
  | n + 1 => (f n).toList ++ entries f n

theorem mem_entries : a ∈ entries f n ↔ ∃ i < n, f i = some a := by
  induction n with
  | zero => simp [entries]
  | succ n ih =>
    rw [entries, mem_append, ih, Option.mem_toList]
    constructor
    · rintro (here | ⟨i, lt, eq⟩)
      · exact ⟨n, Nat.lt_succ_self n, here⟩
      · exact ⟨i, Nat.lt_succ_of_lt lt, eq⟩
    rintro ⟨i, lt, eq⟩
    rcases Nat.lt_succ_iff_lt_or_eq.mp lt with before | rfl
    · exact .inr ⟨i, before, eq⟩
    · exact .inl eq

theorem entries_congr (same : ∀ i < n, f i = g i) : entries f n = entries g n := by
  induction n with
  | zero => rfl
  | succ n ih => rw [entries, entries, same n (Nat.lt_succ_self n), ih fun i lt => same i (Nat.lt_succ_of_lt lt)]

theorem entries_put (free : f i = none) (lt : i < n) :
    (entries (update f i (some a)) n).Perm (a :: entries f n) := by
  induction n with
  | zero => cases lt
  | succ n ih =>
    rw [entries, entries]
    rcases Nat.lt_succ_iff_lt_or_eq.mp lt with before | rfl
    · rw [update_of_ne (Nat.ne_of_gt before)]
      exact ((ih before).append_left _).trans perm_middle
    have others : entries (update f i (some a)) i = entries f i :=
      entries_congr fun j lt => update_of_ne (Nat.ne_of_lt lt) ..
    rw [update_self, others, free]
    rfl

theorem slot_unique {j : Nat} (once : (entries f n).Nodup) (hi : i < n) (hj : j < n) (eqi : f i = some a)
    (eqj : f j = some a) : i = j := by
  induction n with
  | zero => cases hi
  | succ n ih =>
    rw [entries, nodup_append] at once
    obtain ⟨_, rest, apart⟩ := once
    have alone : ∀ k < n, f k = some a → f n ≠ some a := by
      intro k lt eqk eqn
      have last : a ∈ (f n).toList := by simp [eqn]
      exact apart a last a (mem_entries.mpr ⟨k, lt, eqk⟩) rfl
    rcases Nat.lt_succ_iff_lt_or_eq.mp hi with beforei | rfl
    · rcases Nat.lt_succ_iff_lt_or_eq.mp hj with beforej | rfl
      · exact ih rest beforei beforej
      · exact absurd eqj (alone i beforei eqi)
    · rcases Nat.lt_succ_iff_lt_or_eq.mp hj with beforej | rfl
      · exact absurd eqi (alone j beforej eqj)
      · rfl

theorem length_entries : (entries f n).length = Nat.count (fun i => (f i).isSome) n := by
  induction n with
  | zero => rfl
  | succ n ih =>
    rw [entries, length_append, ih, Nat.count_succ]
    cases f n with
    | none => simp
    | some a => simp [Nat.add_comm]

end Slots
