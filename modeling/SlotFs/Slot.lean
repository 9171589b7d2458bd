import SlotFs.Bitops

/-!
# Slot maps

`slot.c`. A slot table is split over `map_num` bitmaps, each with a count of
its clear bits and a hint where the next search starts. `do_slot_alloc` takes
one slot, `do_slot_alloc_range` takes as much of a run of free slots as it can
get, and both go round the maps once from the map of the calling CPU. Locks
are left out here: a call is one step of a sequential run.
-/

namespace SlotFs
open CWord

structure DramBitmap where
  dram : Mem
  bitOffset : Nat
  bitNum : Nat
  remain : Nat
  hint : Nat

/-- The array `bitmaps` with its `map_num` entries. -/
structure Maps where
  num : Nat
  map : Nat → DramBitmap

def Maps.set (b : Maps) (i : Nat) (m : DramBitmap) : Maps :=
  { b with map := fun j => if j = i then m else b.map j }

/-- The `do ... while` over the maps: the first visit that yields something
ends it, and a visit that yields nothing leaves its map as it was. -/
def visitLoop {α : Type} (visit : DramBitmap → Option α) (b : Maps) (start : Nat) :
    Nat → Nat → Option (Nat × α)
  | 0, _ => none
  | n + 1, current =>
    match visit (b.map current) with
    | some a => some (current, a)
    | none =>
      let next := (current + 1) % b.num
      if next ≠ start then visitLoop visit b start n next else none

def visitMaps {α : Type} (visit : DramBitmap → Option α) (b : Maps) (cpu : Nat) :
    Option (Nat × α) :=
  visitLoop visit b (cpu % b.num) b.num (cpu % b.num)

/-- From the hint to the end, then from the beginning to the hint. The second
search has the hint as its size, so it returns the hint when it finds nothing. -/
def searchZero (m : DramBitmap) : Nat :=
  let bit := toSize (nextZeroBit m.dram m.bitNum m.hint)
  if bit ≥ m.bitNum then toSize (nextZeroBit m.dram m.hint 0) else bit

/-- What `do_slot_alloc` does to one map under its lock. -/
def allocLocked (m : DramBitmap) : Option (Nat × DramBitmap) :=
  let bit := searchZero m
  if bit < m.bitNum then
    some (bit, { m with dram := setBit bit m.dram, hint := bit + 1, remain := sub64 m.remain 1 })
  else none

def allocVisit (m : DramBitmap) : Option (Nat × DramBitmap) :=
  if m.remain > 0 then allocLocked m else none

def doSlotAlloc (b : Maps) (cpu : Nat) : Int × Maps :=
  match visitMaps allocVisit b cpu with
  | some (i, bit, m) => (((bit + m.bitOffset : Nat) : Int), b.set i m)
  | none => (-1, b)

def doSlotFree (b : Maps) (index : Int) : Maps :=
  let bitmapSize := (b.map 0).bitNum
  let bitmapIndex := toSize index / bitmapSize
  let bit := toSize index % bitmapSize
  if bitmapIndex < b.num then
    let m := b.map bitmapIndex
    b.set bitmapIndex { m with dram := clearBit bit m.dram, remain := wrap64 (m.remain + 1) }
  else b

/-- The start and length of the run `do_slot_alloc_range` finds in one map. -/
def rangeVisit (count : Nat) (m : DramBitmap) : Option (Nat × Nat) :=
  if m.remain > 0 then
    let rangeStart := searchZero m
    let left := sub64 m.bitNum rangeStart
    let size := wrap64 (rangeStart + (if count > left then left else count))
    let rangeEnd := toSize (nextSetBit m.dram size rangeStart)
    let found := sub64 rangeEnd rangeStart
    if found = 0 then none else some (rangeStart, found)
  else none

/-- A map after `c` bits from `s` on have been handed out. -/
def markRange (m : DramBitmap) (s c : Nat) : DramBitmap :=
  { m with dram := setBitRange s m.dram c, hint := wrap64 (s + c), remain := sub64 m.remain c }

/-- Hand out what a search over the maps has found: the index of the first
slot, the number of slots, and the maps afterwards. -/
def takeRange (b : Maps) : Option (Nat × Nat × Nat) → Int × Nat × Maps
  | some (i, s, c) =>
    (((s + (b.map i).bitOffset : Nat) : Int), c, b.set i (markRange (b.map i) s c))
  | none => (-1, 0, b)

def doSlotAllocRange (b : Maps) (cpu count : Nat) : Int × Nat × Maps :=
  takeRange b (visitMaps (rangeVisit count) b cpu)

/-- A map after `c` bits from `s` on have been given back. -/
def unmarkRange (m : DramBitmap) (s c : Nat) : DramBitmap :=
  { m with dram := clearBitRange s m.dram c, remain := wrap64 (m.remain + c) }

/-- Unlike `do_slot_free` this does not test that the map exists. -/
def doSlotFreeRange (b : Maps) (index : Int) (count : Nat) : Maps :=
  let bitmapSize := (b.map 0).bitNum
  let bitmapIndex := toSize index / bitmapSize
  let bit := toSize index % bitmapSize
  b.set bitmapIndex (unmarkRange (b.map bitmapIndex) bit count)

/-! ## The round over the maps -/

theorem visitLoop_cases {α : Type} (visit : DramBitmap → Option α) (b : Maps) (cpu : Nat) {n k : Nat}
    (hn : n + k = b.num) (h0 : 0 < n) : (∃ j a, k ≤ j ∧ j < b.num ∧ visit (b.map ((cpu + j) % b.num)) = some a ∧
      visitLoop visit b (cpu % b.num) n ((cpu + k) % b.num) = some ((cpu + j) % b.num, a) ∧
      ∀ l, k ≤ l → l < j → visit (b.map ((cpu + l) % b.num)) = none) ∨
    (visitLoop visit b (cpu % b.num) n ((cpu + k) % b.num) = none ∧
      ∀ l, k ≤ l → l < b.num → visit (b.map ((cpu + l) % b.num)) = none) := by
  induction n generalizing k with
  | zero => omega
  | succ n ih =>
    simp only [visitLoop]
    cases hv : visit (b.map ((cpu + k) % b.num)) with
    | some a => exact Or.inl ⟨k, a, le_rfl, by omega, hv, rfl, by omega⟩
    | none =>
      have hnext : ((cpu + k) % b.num + 1) % b.num = (cpu + (k + 1)) % b.num := by
        rw [Nat.mod_add_mod, Nat.add_assoc]
      have first : ∀ l, k ≤ l → (k + 1 ≤ l → visit (b.map ((cpu + l) % b.num)) = none) →
          visit (b.map ((cpu + l) % b.num)) = none := by
        intro l hl rest
        by_cases e : l = k
        · subst e; exact hv
        · exact rest (by omega)
      by_cases last : n = 0
      · have hwrap : (cpu + (k + 1)) % b.num = cpu % b.num := by
          rw [show k + 1 = b.num by omega, Nat.add_mod_right]
        simp only [hnext, hwrap, ne_eq, not_true_eq_false, if_false]
        exact Or.inr ⟨trivial, fun l hl hb => first l hl (by omega)⟩
      have hmove : (cpu + (k + 1)) % b.num ≠ cpu % b.num := by
        intro e
        have hd : b.num ∣ k + 1 := by
          have := (Nat.modEq_iff_dvd' (show cpu ≤ cpu + (k + 1) by omega)).mp e.symm
          simpa using this
        have := Nat.le_of_dvd (by omega) hd
        omega
      simp only [hnext, ne_eq, hmove, not_false_eq_true, if_true]
      rcases ih (k := k + 1) (by omega) (by omega) with ⟨j, a, hj, hb, ha, hr, hf⟩ | ⟨hr, hf⟩
      · exact Or.inl ⟨j, a, by omega, hb, ha, hr, fun l hl hlj => first l hl (fun h => hf l h hlj)⟩
      · exact Or.inr ⟨hr, fun l hl hlb => first l hl (fun h => hf l h hlb)⟩

theorem visitMaps_cases {α : Type} (visit : DramBitmap → Option α) (b : Maps) (cpu : Nat) (h0 : 0 < b.num) :
    (∃ j a, j < b.num ∧ visit (b.map ((cpu + j) % b.num)) = some a ∧
      visitMaps visit b cpu = some ((cpu + j) % b.num, a) ∧
      ∀ l < j, visit (b.map ((cpu + l) % b.num)) = none) ∨
    (visitMaps visit b cpu = none ∧ ∀ i < b.num, visit (b.map i) = none) := by
  rcases visitLoop_cases visit b cpu (n := b.num) (k := 0) (by omega) h0 with
    ⟨j, a, _, hb, ha, hr, hf⟩ | ⟨hr, hf⟩
  · exact Or.inl ⟨j, a, hb, ha, hr, fun l hl => hf l (by omega) hl⟩
  refine Or.inr ⟨hr, fun i hi => ?_⟩
  -- every map is met: `i` is met after the maps between the start and it
  have hc : cpu % b.num < b.num := Nat.mod_lt _ h0
  have hmet : ∃ l < b.num, (cpu + l) % b.num = i := by
    by_cases hle : cpu % b.num ≤ i
    · refine ⟨i - cpu % b.num, by omega, ?_⟩
      rw [Nat.add_mod, Nat.mod_eq_of_lt (show i - cpu % b.num < b.num by omega),
        show cpu % b.num + (i - cpu % b.num) = i by omega, Nat.mod_eq_of_lt hi]
    refine ⟨i + b.num - cpu % b.num, by omega, ?_⟩
    rw [Nat.add_mod, Nat.mod_eq_of_lt (show i + b.num - cpu % b.num < b.num by omega),
      show cpu % b.num + (i + b.num - cpu % b.num) = i + b.num by omega, Nat.add_mod_right,
      Nat.mod_eq_of_lt hi]
  obtain ⟨l, hl, rfl⟩ := hmet
  exact hf l (by omega) hl

end SlotFs
