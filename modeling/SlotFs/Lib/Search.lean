import Mathlib

/-!
# Linear searches and counts over an initial segment

`scan hit size offset` is the loop `for (i = offset; i < size; i++)` that stops
at the first hit and falls through to `size`. The counting lemmas say how
`Nat.count` follows an update of its predicate at one place or on an interval.
-/

namespace Search

variable {hit : Nat → Bool} {j offset size : Nat}

/-- `n` more rounds of the loop, from position `i`. -/
def scanFrom (hit : Nat → Bool) (size : Nat) : Nat → Nat → Nat
  | 0, _ => size
  | n + 1, i => if hit i then i else scanFrom hit size n (i + 1)

def scan (hit : Nat → Bool) (size offset : Nat) : Nat :=
  scanFrom hit size (size - offset) offset

theorem scanFrom_cases (hit : Nat → Bool) (size n i : Nat) (hn : i + n = size) :
    (i ≤ scanFrom hit size n i ∧ scanFrom hit size n i < size ∧
      hit (scanFrom hit size n i) = true ∧
      ∀ j, i ≤ j → j < scanFrom hit size n i → hit j = false) ∨
    (scanFrom hit size n i = size ∧ ∀ j, i ≤ j → j < size → hit j = false) := by
  induction n generalizing i with
  | zero => exact Or.inr ⟨rfl, fun j hj hs => by omega⟩
  | succ n ih =>
    simp only [scanFrom]
    cases hi : hit i with
    | true => exact Or.inl ⟨by simp, by simp; omega, by simpa using hi, by simp; omega⟩
    | false =>
      simp only [Bool.false_eq_true, ↓reduceIte]
      have extend : ∀ e, (∀ j, i + 1 ≤ j → j < e → hit j = false) →
          ∀ j, i ≤ j → j < e → hit j = false := by
        intro e h j hj he
        by_cases eq : j = i
        · subst eq; exact hi
        · exact h j (by omega) he
      rcases ih (i + 1) (by omega) with ⟨lo, hlt, hh, hf⟩ | ⟨he, hf⟩
      · exact Or.inl ⟨by omega, hlt, hh, extend _ hf⟩
      · exact Or.inr ⟨he, extend _ hf⟩

theorem scanFrom_congr {hit' : Nat → Bool} (same : ∀ i < size, hit i = hit' i) {n i : Nat} (hn : i + n = size) :
    scanFrom hit size n i = scanFrom hit' size n i := by
  induction n generalizing i with
  | zero => rfl
  | succ n ih => rw [scanFrom, scanFrom, same i (by omega), ih (by omega)]

theorem scan_congr {hit' : Nat → Bool} (same : ∀ i < size, hit i = hit' i) : scan hit size 0 = scan hit' size 0 :=
  scanFrom_congr same (by omega)

/-- What the loop returns: the least hit of `[offset, size)`, or `size` when
there is none. -/
theorem scan_cases (hit : Nat → Bool) (h : offset ≤ size) :
    (offset ≤ scan hit size offset ∧ scan hit size offset < size ∧
      hit (scan hit size offset) = true ∧
      ∀ j, offset ≤ j → j < scan hit size offset → hit j = false) ∨
    (scan hit size offset = size ∧ ∀ j, offset ≤ j → j < size → hit j = false) :=
  scanFrom_cases hit size (size - offset) offset (by omega)

theorem scan_le (hit : Nat → Bool) (h : offset ≤ size) : scan hit size offset ≤ size := by
  rcases scan_cases hit h with ⟨_, hlt, _⟩ | ⟨he, _⟩ <;> omega

theorem offset_le_scan (hit : Nat → Bool) (h : offset ≤ size) : offset ≤ scan hit size offset := by
  rcases scan_cases hit h with ⟨lo, _⟩ | ⟨he, _⟩ <;> omega

theorem scan_lt_of_hit (hit : Nat → Bool) (lo : offset ≤ j) (hj : j < size) (hh : hit j = true) :
    scan hit size offset ≤ j ∧ hit (scan hit size offset) = true := by
  rcases scan_cases hit (by omega : offset ≤ size) with ⟨_, _, found, before⟩ | ⟨_, none⟩
  · refine ⟨?_, found⟩
    by_contra hn
    have := before j lo (by omega)
    cases hh.symm.trans this
  · have := none j lo hj
    cases hh.symm.trans this

/-- The loop stops at the first hit. -/
theorem scan_eq_first (hit : Nat → Bool) (lo : offset ≤ j) (hj : j < size) (hh : hit j = true)
    (before : ∀ i, offset ≤ i → i < j → hit i = false) : scan hit size offset = j := by
  obtain ⟨le, found⟩ := scan_lt_of_hit hit lo hj hh
  have first := offset_le_scan hit (by omega : offset ≤ size)
  by_contra other
  cases (before _ first (by omega)).symm.trans found

theorem scan_eq_size (hit : Nat → Bool) (h : offset ≤ size) (none : ∀ j, offset ≤ j → j < size → hit j = false) :
    scan hit size offset = size := by
  rcases scan_cases hit h with ⟨lo, hlt, found, _⟩ | ⟨he, _⟩
  · cases (none _ lo hlt).symm.trans found
  · exact he

theorem hit_of_scan_lt (lt : scan hit size 0 < size) : hit (scan hit size 0) = true := by
  rcases scan_cases hit (Nat.zero_le size) with ⟨_, _, found, _⟩ | ⟨eq, _⟩
  · exact found
  · exact absurd eq (Nat.ne_of_lt lt)

theorem no_hit_of_scan (all : ¬ scan hit size 0 < size) (lt : j < size) : hit j = false := by
  rcases scan_cases hit (Nat.zero_le size) with ⟨_, early, _⟩ | ⟨_, none⟩
  · exact absurd early all
  · exact none j (Nat.zero_le j) lt

section Count
variable (p q : Nat → Prop) [DecidablePred p] [DecidablePred q]

theorem count_congr {n : Nat} (h : ∀ i < n, (p i ↔ q i)) : Nat.count p n = Nat.count q n :=
  Nat.le_antisymm (Nat.count_mono_left fun i hi => (h i hi).mp)
    (Nat.count_mono_left fun i hi => (h i hi).mpr)

/-- Taking an interval of `c` places out of `p` lowers the count by `c`. -/
theorem count_remove {n a c : Nat} (hac : a + c ≤ n) (inside : ∀ i, a ≤ i → i < a + c → p i)
    (hq : ∀ i < n, (q i ↔ p i ∧ ¬ (a ≤ i ∧ i < a + c))) : Nat.count p n = Nat.count q n + c := by
  induction n generalizing c with
  | zero =>
    have : c = 0 := by omega
    simp [this]
  | succ n ih =>
    rw [Nat.count_succ, Nat.count_succ]
    have hqn := hq n (by omega)
    by_cases hin : a ≤ n ∧ n < a + c
    · have hp := inside n hin.1 hin.2
      have hc : a + (c - 1) ≤ n := by omega
      have step := ih hc (fun i hi hlt => inside i hi (by omega)) (by
        intro i hi
        rw [hq i (by omega)]
        constructor <;> rintro ⟨h1, h2⟩ <;> exact ⟨h1, by omega⟩)
      have hnq : ¬ q n := fun h => (hqn.mp h).2 hin
      simp only [hp, hnq, if_true, if_false]
      omega
    have hle : a + c ≤ n ∨ c = 0 := by omega
    have hpq : q n ↔ p n := hqn.trans (and_iff_left hin)
    have step : Nat.count p n = Nat.count q n + c := by
      rcases hle with hle | rfl
      · exact ih hle inside (fun i hi => hq i (by omega))
      refine (count_congr p q fun i hi => ?_)
      rw [hq i (by omega)]
      constructor
      · exact fun h => ⟨h, by omega⟩
      · exact fun h => h.1
    simp only [hpq]
    omega

end Count

end Search
