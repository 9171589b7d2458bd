import SlotFs.FileLog
import SlotFs.Lib.Chain
import SlotFs.SingleSlot

/-!
# Chains of slots

The entries of a directory and the records of a file are chains of slots, from
`log_head` to the ghost slot, which has been taken for the next entry. Free slots and
ghost slots have `next = 0`.
-/

namespace SlotFs
open Chains Function List

variable {b : Maps} {back front list : List Nat} {fe : Nat} {slot : Int}

/-! ## Slots in use -/

/-- There are `n` free slots at least. -/
def Maps.Spare (b : Maps) (n : Nat) : Prop :=
  ∃ free : List Nat, free.Nodup ∧ n ≤ free.length ∧ ∀ j ∈ free, b.Has j ∧ b.used j = false

/-- The slots have been taken, each for one purpose. -/
structure Held (b : Maps) (slots : List Int) : Prop where
  maps : b.Ok
  small : b.Within (2 ^ 31)
  once : slots.Nodup
  taken : ∀ slot ∈ slots, ∃ n : Nat, slot = n ∧ b.Has n ∧ b.used n = true

/-- A slot that `do_slot_alloc` finds is not held by anyone. -/
theorem Held.alloc {b' : Maps} {slots : List Int} (h : Held b slots) {cpu : Nat}
    (call : doSlotAlloc b cpu = (slot, b')) (found : 0 ≤ slot) :
    Held b' (slots ++ [slot]) ∧ ∀ n, b.Spare (n + 1) → b'.Spare n := by
  obtain ⟨j, rfl, has, unused, ok, small, has', used⟩ := doSlotAlloc_took h.maps h.small call found
  refine ⟨⟨ok, small, ?_, ?_⟩, ?_⟩
  · refine nodup_append.mpr ⟨h.once, nodup_singleton _, ?_⟩
    rintro a ha _ hj rfl
    rw [mem_singleton] at hj
    obtain ⟨n, same, _, set⟩ := h.taken a ha
    have : n = j := by omega
    rw [this, unused] at set
    cases set
  · intro a ha
    rcases mem_append.mp ha with ha | ha
    · obtain ⟨n, same, hasn, set⟩ := h.taken a ha
      exact ⟨n, same, (has' n).mpr hasn, by rw [used n hasn, set]; simp⟩
    · exact ⟨j, mem_singleton.mp ha, (has' j).mpr has, by rw [used j has]; simp⟩
  rintro n ⟨free, nodup, many, clear⟩
  refine ⟨free.erase j, nodup.erase j, ?_, fun k hk => ?_⟩
  · have := le_length_erase (l := free) (a := j)
    omega
  · obtain ⟨other, hk⟩ := (List.Nodup.mem_erase_iff nodup).mp hk
    obtain ⟨hask, unusedk⟩ := clear k hk
    exact ⟨(has' k).mpr hask, by rw [used k hask, unusedk]; simp [other]⟩

theorem Maps.Spare.found {b b' : Maps} {n cpu : Nat} {slot : Int} (spare : b.Spare (n + 1))
    (ok : b.Ok) (small : b.Within (2 ^ 31)) (call : doSlotAlloc b cpu = (slot, b')) : 0 ≤ slot := by
  obtain ⟨i, bit, m, _, _, _, _, eq⟩ | ⟨_, full⟩ := doSlotAlloc_cases ok small cpu
  · cases eq.symm.trans call
    exact Int.natCast_nonneg _
  obtain ⟨_ | ⟨j, free⟩, _, many, clear⟩ := spare
  · simp at many
  obtain ⟨has, unused⟩ := clear j (mem_cons_self ..)
  have set := full _ has.1 _ has.2
  rw [Maps.used, set] at unused
  cases unused

theorem Maps.Spare.le {n m : Nat} (h : b.Spare n) (le : m ≤ n) : b.Spare m := by
  obtain ⟨free, nodup, many, clear⟩ := h
  exact ⟨free, nodup, le.trans many, clear⟩

theorem Held.none (ok : b.Ok) (small : b.Within (2 ^ 31)) : Held b [] :=
  ⟨ok, small, nodup_nil, fun _ h => nomatch h⟩

def InUse (b : Maps) (slot : Int) : Prop := ∃ n : Nat, slot = n ∧ b.Has n ∧ b.used n = true

theorem InUse.free (used : InUse b slot) (ok : b.Ok) (small : b.Within (2 ^ 31)) :
    (doSlotFree b slot).Ok ∧ (doSlotFree b slot).Within (2 ^ 31) ∧
    (∀ other, InUse b other → other ≠ slot → InUse (doSlotFree b slot) other) ∧
    ∀ j : Nat, (doSlotFree b slot).Has j → (doSlotFree b slot).used j = false →
      (j : Int) = slot ∨ b.Has j ∧ b.used j = false := by
  obtain ⟨n, rfl, has, set⟩ := used
  obtain ⟨ok', small', has', used'⟩ := doSlotFree_spec ok small has set
  refine ⟨ok', small', ?_, fun j hasj free => ?_⟩
  · rintro _ ⟨j, rfl, hasj, setj⟩ other
    have apart : j ≠ n := fun e => other (e ▸ rfl)
    exact ⟨j, rfl, (has' j).mpr hasj, by rw [used' j hasj, setj]; simp [apart]⟩
  have hasj := (has' j).mp hasj
  rw [used' j hasj] at free
  by_cases e : j = n
  · exact Or.inl (e ▸ rfl)
  · exact Or.inr ⟨hasj, by simpa [e] using free⟩

/-- The maps are in order, and `next` is 0 in the free slots. -/
structure Cleared (b : Maps) (next : Int → Int) : Prop where
  maps : b.Ok
  small : b.Within (2 ^ 31)
  free : ∀ n : Nat, b.Has n → b.used n = false → next n = 0

section
variable {b b' : Maps} {next : Int → Int} {head ghost : Int} {slots : List Int}

section
variable (h : Cleared b next)
include h

/-- A slot that is taken from the maps was not in use and has `next = 0`. -/
theorem Cleared.alloc {cpu : Nat} (call : doSlotAlloc b cpu = (slot, b')) (found : 0 ≤ slot) :
    next slot = 0 ∧ Cleared b' next ∧ InUse b' slot ∧
    ∀ old, InUse b old → old ≠ slot ∧ InUse b' old := by
  obtain ⟨n, rfl, has, unused, ok, small, has', used⟩ := doSlotAlloc_took h.maps h.small call found
  refine ⟨h.free n has unused, ⟨ok, small, ?_⟩, ⟨n, rfl, (has' n).mpr has, by rw [used n has]; simp⟩, ?_⟩
  · intro j hasj free
    rw [used j ((has' j).mp hasj)] at free
    exact h.free j ((has' j).mp hasj) (Bool.or_eq_false_iff.mp free).2
  rintro _ ⟨j, rfl, hasj, set⟩
  refine ⟨fun e => ?_, j, rfl, (has' j).mpr hasj, by rw [used j hasj, set]; simp⟩
  rw [Int.ofNat_inj.mp e, unused] at set
  cases set

/-- Slots in use may name anything. -/
theorem Cleared.congr {next' : Int → Int} (same : ∀ slot, ¬ InUse b slot → next' slot = next slot) :
    Cleared b next' := by
  refine ⟨h.maps, h.small, fun j has free => ?_⟩
  rw [same j, h.free j has free]
  rintro ⟨n, e, _, set⟩
  rw [← Int.ofNat_inj.mp e, free] at set
  cases set

theorem Cleared.update (used : InUse b slot) (value : Int) : Cleared b (update next slot value) := by
  apply h.congr
  intro x unused
  apply update_of_ne
  rintro rfl
  exact unused used

end

/-! ## Chains -/

structure SlotChain (b : Maps) (next : Int → Int) (head ghost : Int) (slots : List Int) : Prop where
  chain : Chain next ghost head slots
  held : Held b (slots ++ [ghost])
  ghost : next ghost = 0

section
variable (h : SlotChain b next head ghost slots)
include h

theorem SlotChain.ghost_new : ghost ∉ slots :=
  fun hm => (nodup_append.mp h.held.once).2.2 _ hm _ (mem_singleton_self _) rfl

theorem SlotChain.distinct : slots.Nodup :=
  (nodup_append.mp h.held.once).1

theorem SlotChain.used (member : slot ∈ slots) : InUse b slot :=
  h.held.taken slot (mem_append_left _ member)

theorem SlotChain.ghost_used : InUse b ghost :=
  h.held.taken ghost (mem_append_right _ (mem_singleton_self _))

theorem SlotChain.next_mem (member : slot ∈ slots) : next slot ∈ slots ++ [ghost] := by
  have chain := h.chain
  obtain ⟨front, back, split⟩ := append_of_mem member
  rw [split] at chain
  rw [chain.next_eq, split]
  cases back <;> simp

/-- The ghost slot becomes the last one, and a new slot the ghost slot. -/
theorem SlotChain.append (cleared : Cleared b next) {cpu : Nat} {slot : Int}
    (call : doSlotAlloc b cpu = (slot, b')) (found : 0 ≤ slot) :
    SlotChain b' (update next ghost slot) head slot (slots ++ [ghost]) ∧ Cleared b' (update next ghost slot) := by
  obtain ⟨zero, cleared', _, kept⟩ := cleared.alloc call found
  obtain ⟨held, _⟩ := h.held.alloc call found
  obtain ⟨other, used⟩ := kept ghost h.ghost_used
  refine ⟨⟨h.chain.extend ?_ other.symm, held, ?_⟩, cleared'.update used slot⟩
  · exact fun hm => (kept slot (h.used hm)).1 rfl
  · rw [update_of_ne other.symm, zero]

end

/-- One slot is taken out of the chain and given back. -/
theorem SlotChain.remove {a : Int} {front back : List Int}
    (h : SlotChain b next head ghost (front ++ a :: back)) (cleared : Cleared b next) :
    SlotChain (doSlotFree b a) (unlinkNext next front a 0) (unlinkHead next head front a) ghost
      (front ++ back) ∧
    Cleared (doSlotFree b a) (unlinkNext next front a 0) := by
  have own : a ∈ front ++ a :: back := by simp
  obtain ⟨ok, small, kept, free⟩ := (h.used own).free cleared.maps cleared.small
  have apart : ghost ≠ a := fun e => h.ghost_new (e ▸ own)
  have same (x : Int) (outer : x ∉ front ++ a :: back) : unlinkNext next front a 0 x = next x := by
    apply unlinkNext_other
    · exact fun hm => outer (mem_append_left _ hm)
    · exact fun e => outer (e ▸ own)
  have fewer : (front ++ back ++ [ghost]).Sublist (front ++ a :: back ++ [ghost]) :=
    ((sublist_cons_self a back).append_left front).append (List.Sublist.refl _)
  have gone : a ∉ front ++ back := (nodup_cons.mp (nodup_middle.mp h.distinct)).1
  refine ⟨⟨h.chain.unlink h.distinct 0, ⟨ok, small, h.held.once.sublist fewer, fun slot hm => ?_⟩, ?_⟩,
    ok, small, fun j has unused => ?_⟩
  · apply kept slot (h.held.taken slot (fewer.subset hm))
    rintro rfl
    rcases mem_append.mp hm with hm | hm
    · exact gone hm
    · exact apart (mem_singleton.mp hm).symm
  · rw [same ghost h.ghost_new, h.ghost]
  rcases free j has unused with rfl | ⟨has, unused⟩
  · rw [unlinkNext, update_self]
  rw [same j, cleared.free j has unused]
  intro hm
  obtain ⟨n, e, _, set⟩ := h.used hm
  rw [← Int.ofNat_inj.mp e, unused] at set
  cases set

end

/-! ## Neighbours in a list -/

theorem nextOf_eq (first : fe ∉ front) : nextOf (front ++ fe :: back) fe = back.head? := by
  induction front with
  | nil => cases back <;> simp [nextOf]
  | cons a front ih =>
    obtain ⟨other, later⟩ : fe ≠ a ∧ fe ∉ front := by simpa using first
    have ih := ih later
    cases front with
    | nil => simpa [nextOf, Ne.symm other] using ih
    | cons b front => simpa [nextOf, Ne.symm other] using ih

/-- The entry that is followed on the chain: the one behind `fe`, or the ghost slot. -/
theorem nextOf_slot {next : Int → Int} {ghost head : Int} {slot : Nat → Int}
    (chain : Chain next ghost head (list.map slot)) (once : list.Nodup) (member : fe ∈ list) :
    (match nextOf list fe with
      | some o => slot o
      | none => ghost) = next (slot fe) := by
  obtain ⟨front, back, rfl⟩ := append_of_mem member
  rw [map_append, map_cons] at chain
  have first : fe ∉ front := fun hf =>
    (nodup_append.mp once).2.2 fe hf fe (mem_cons_self ..) rfl
  rw [chain.next_eq, nextOf_eq first]
  cases back <;> rfl

theorem prevOf_absent (a : Nat) (absent : fe ∉ list) : prevOf (a :: list) fe = none := by
  induction list generalizing a with
  | nil => rfl
  | cons b list ih =>
    obtain ⟨other, absent⟩ : fe ≠ b ∧ fe ∉ list := by simpa using absent
    simp [prevOf, Ne.symm other, ih b absent]

theorem prevOf_eq (once : (front ++ fe :: back).Nodup) : prevOf (front ++ fe :: back) fe = front.getLast? := by
  induction front with
  | nil => exact prevOf_absent fe (nodup_cons.mp once).1
  | cons a front ih =>
    obtain ⟨_, once⟩ := nodup_cons.mp once
    cases front with
    | nil => simp [prevOf]
    | cons b front =>
      have other : b ≠ fe := by
        rintro rfl
        exact (nodup_cons.mp once).1 (by simp)
      simpa [prevOf, other] using ih once

end SlotFs
