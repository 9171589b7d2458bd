import Mathlib

/-!
# Reference counts of a partial map

A partial map sends keys to owners. A ledger keeps for each live owner the number
of keys it owns, and lists the owners that own none. The lemmas say how the
ledger follows when one key is erased, when an owner without keys is retired, and
when a set of free keys is given to a new owner. A count that is a sum follows a
change of one of its terms.
-/

namespace Ledger
open Function List

variable {κ ι : Type*}
variable {i : ι} {k : κ} {m : κ → Option ι} {ref' : ι → Int} {s : Finset κ}

def keysOf (m : κ → Option ι) (i : ι) : Set κ := {k | m k = some i}

section
variable [DecidableEq κ]

def erase (m : κ → Option ι) (k : κ) : κ → Option ι := update m k none

def fill (m : κ → Option ι) (s : Finset κ) (i : ι) : κ → Option ι :=
  fun k => if k ∈ s then some i else m k

theorem erase_eq_some {j : κ} : erase m k j = some i ↔ j ≠ k ∧ m j = some i := by
  by_cases e : j = k <;> simp [erase, e]

theorem keysOf_erase (m : κ → Option ι) (k : κ) (i : ι) : keysOf (erase m k) i = keysOf m i \ {k} := by
  ext j
  simp only [keysOf, Set.mem_ofPred_eq, erase_eq_some, Set.mem_sdiff, Set.mem_singleton_iff]
  exact and_comm

theorem fill_eq_some {j : ι} : fill m s i k = some j ↔ (k ∈ s ∧ i = j) ∨ (k ∉ s ∧ m k = some j) := by
  by_cases h : k ∈ s <;> simp [fill, h]

end

/-- `ref` counts the keys of every live owner, and `idle` lists the live owners
without keys, each once. -/
structure Balanced (m : κ → Option ι) (live : Set ι) (ref : ι → Int) (idle : List ι) : Prop where
  owned : ∀ k i, m k = some i → i ∈ live
  finite : ∀ i, (keysOf m i).Finite
  counts : ∀ i ∈ live, ref i = (keysOf m i).ncard
  once : idle.Nodup
  idles : ∀ i, i ∈ idle ↔ i ∈ live ∧ ref i = 0

section
variable {m : κ → Option ι} {live : Set ι} {ref : ι → Int} {idle : List ι}

section
variable (h : Balanced m live ref idle)
include h

theorem Balanced.pos (hk : m k = some i) : 0 < ref i := by
  rw [h.counts i (h.owned k i hk)]
  exact_mod_cast (Set.ncard_pos (h.finite i)).mpr ⟨k, hk⟩

theorem Balanced.free_of_idle (hi : i ∈ idle) (k : κ) : m k ≠ some i := by
  intro hk
  have pos := h.pos hk
  have zero := ((h.idles i).mp hi).2
  omega

/-- Only the counts of live owners matter. -/
theorem Balanced.congr (same : ∀ i ∈ live, ref' i = ref i) : Balanced m live ref' idle where
  owned := h.owned
  finite := h.finite
  counts := fun i hi => (same i hi).trans (h.counts i hi)
  once := h.once
  idles := fun i => by
    rw [h.idles]
    exact and_congr_right fun hi => by rw [same i hi]

/-- Erasing a key takes one off its owner, who becomes idle with the last one. -/
theorem Balanced.erase [DecidableEq κ] [DecidableEq ι] (hk : m k = some i) :
    Balanced (erase m k) live (update ref i (ref i - 1))
      (if ref i - 1 = 0 then idle ++ [i] else idle) := by
  have hi := h.owned k i hk
  have busy : i ∉ idle := fun hm => h.free_of_idle hm k hk
  have others {j : ι} (hj : j ≠ i) : keysOf (Ledger.erase m k) j = keysOf m j := by
    rw [keysOf_erase]
    apply Set.sdiff_singleton_eq_self
    intro hm
    exact hj (Option.some.inj (hm.symm.trans hk))
  have own : ((keysOf (Ledger.erase m k) i).ncard : Int) = ref i - 1 := by
    have := Set.ncard_sdiff_singleton_add_one (show k ∈ keysOf m i from hk) (h.finite i)
    rw [keysOf_erase, h.counts i hi]
    omega
  constructor
  · intro j o hm
    exact h.owned j o (erase_eq_some.mp hm).2
  · intro j
    rw [keysOf_erase]
    exact (h.finite j).sdiff
  · intro j hj
    by_cases e : j = i
    · subst e
      rw [update_self, own]
    · rw [update_of_ne e, others e, h.counts j hj]
  · split
    · exact nodup_append.mpr ⟨h.once, nodup_singleton i, by
        intro a ha b hb
        rw [mem_singleton.mp hb]
        rintro rfl
        exact busy ha⟩
    · exact h.once
  intro j
  by_cases e : j = i
  · subst e
    rw [update_self]
    split <;> rename_i zero
    · simp [hi, zero]
    · exact ⟨fun hm => absurd hm busy, fun hm => absurd hm.2 zero⟩
  rw [update_of_ne e, ← h.idles]
  split
  · simp [e]
  · rfl

end

theorem Balanced.retire (h : Balanced m live ref (i :: idle)) : Balanced m (live \ {i}) ref idle := by
  have once := nodup_cons.mp h.once
  constructor
  · intro k j hk
    refine ⟨h.owned k j hk, ?_⟩
    rintro rfl
    exact h.free_of_idle (mem_cons_self ..) k hk
  · exact h.finite
  · exact fun j hj => h.counts j hj.1
  · exact once.2
  intro j
  have hj := h.idles j
  by_cases e : j = i
  · subst e
    simp [once.1]
  · simpa [e] using hj

/-- A new owner takes a nonempty set of free keys. -/
theorem Balanced.fill [DecidableEq κ] (h : Balanced m live ref idle) (new : i ∉ live) (nonempty : s.Nonempty)
    (free : ∀ k ∈ s, m k = none) (same : ∀ j ∈ live, ref' j = ref j) (own : ref' i = s.card) :
    Balanced (fill m s i) (insert i live) ref' idle := by
  have ownKeys : keysOf (Ledger.fill m s i) i = s := by
    ext k
    simp only [keysOf, Set.mem_ofPred_eq, fill_eq_some, and_true, Finset.mem_coe]
    constructor
    · rintro (hk | ⟨_, hk⟩)
      · exact hk
      · exact absurd (h.owned k i hk) new
    · exact Or.inl
  have others {j : ι} (hj : j ≠ i) : keysOf (Ledger.fill m s i) j = keysOf m j := by
    ext k
    simp only [keysOf, Set.mem_ofPred_eq, fill_eq_some]
    constructor
    · rintro (⟨_, e⟩ | ⟨_, hk⟩)
      · exact absurd e.symm hj
      · exact hk
    · intro hk
      refine Or.inr ⟨fun hs => ?_, hk⟩
      cases (free k hs).symm.trans hk
  have hs : 0 < s.card := Finset.card_pos.mpr nonempty
  constructor
  · intro k j hk
    rcases fill_eq_some.mp hk with ⟨_, rfl⟩ | ⟨_, hk⟩
    · exact Set.mem_insert i live
    · exact Set.mem_insert_of_mem i (h.owned k j hk)
  · intro j
    by_cases e : j = i
    · subst e
      rw [ownKeys]
      exact s.finite_toSet
    · rw [others e]
      exact h.finite j
  · intro j hj
    by_cases e : j = i
    · subst e
      rw [ownKeys, own, Set.ncard_coe_finset]
    · have hl : j ∈ live := hj.resolve_left e
      rw [others e, same j hl, h.counts j hl]
  · exact h.once
  intro j
  rw [h.idles]
  by_cases e : j = i
  · subst e
    refine ⟨fun hj => absurd hj.1 new, fun hj => ?_⟩
    rw [own] at hj
    omega
  rw [Set.mem_insert_iff]
  constructor
  · exact fun ⟨hj, zero⟩ => ⟨Or.inr hj, by rw [same j hj, zero]⟩
  · rintro ⟨hj, zero⟩
    have hl : j ∈ live := hj.resolve_left e
    exact ⟨hl, by rw [← same j hl, zero]⟩

end

theorem sum_change [DecidableEq κ] {f f' : κ → Nat} (member : k ∈ s) (same : ∀ j ∈ s, j ≠ k → f' j = f j) :
    ∑ j ∈ s, f' j + f k = ∑ j ∈ s, f j + f' k := by
  have rest : ∑ j ∈ s.erase k, f' j = ∑ j ∈ s.erase k, f j := by
    apply Finset.sum_congr rfl
    intro j hj
    exact same j (Finset.mem_of_mem_erase hj) (Finset.ne_of_mem_erase hj)
  rw [← Finset.add_sum_erase s f member, ← Finset.add_sum_erase s f' member, rest]
  omega

end Ledger
