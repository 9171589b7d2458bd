import SlotFs.Lib.Runs
import SlotFs.Lib.Search
import SlotFs.Lib.Slots

/-!
# The range lock

`lock.c`. A lock has twenty slots for ranges and a count of the slots in use. A thread that
wants a range looks at the slots again and again, each time under `global_lock`, until it can
enter its range; one such pass is one step. The word that it reads between two passes decides
only when the next one comes.
-/

namespace SlotFs
open Runs Search Slots Function

/-- A range with at least one byte. -/
structure Span where
  start : Nat
  stop : Nat
  nonempty : start < stop
deriving DecidableEq

structure RlockNode where
  start : Nat
  stop : Nat
  valid : Bool

def rlockNum : Nat := 20

structure RangeLock where
  rlock : Nat → RlockNode
  lockCount : Int

open RangeLock

def isOverlap (start1 end1 start2 end2 : Nat) : Bool := decide (start1 < end2) && decide (start2 < end1)

/-- `range_lock_init` leaves the ranges as they are. -/
def rangeLockInit (lock : RangeLock) : RangeLock :=
  ⟨fun i => if i < rlockNum then { lock.rlock i with valid := false } else lock.rlock i, 0⟩

/-- The range is entered in slot `i`. -/
def RangeLock.enter (lock : RangeLock) (i start stop : Nat) : RangeLock :=
  ⟨update lock.rlock i ⟨start, stop, true⟩, lock.lockCount + 1⟩

/-- One pass of `range_lock`. Without a result there is another one. -/
def rangeLock (lock : RangeLock) (start stop : Nat) : Option RangeLock :=
  if lock.lockCount = 0 then some (lock.enter 0 start stop)
  else
    let overlaps i := (lock.rlock i).valid && isOverlap start stop (lock.rlock i).start (lock.rlock i).stop
    if scan overlaps rlockNum 0 < rlockNum then none
    else
      let free := scan (fun i => !(lock.rlock i).valid) rlockNum 0
      if free < rlockNum then some (lock.enter free start stop) else none

/-- `range_unlock`. Without a result the assertion behind the loop fails. -/
def rangeUnlock (lock : RangeLock) (start stop : Nat) : Option RangeLock :=
  let i := scan (fun i => (lock.rlock i).valid && decide ((lock.rlock i).start = start) &&
    decide ((lock.rlock i).stop = stop)) rlockNum 0
  if i < rlockNum then
    some ⟨update lock.rlock i { lock.rlock i with valid := false }, lock.lockCount - 1⟩
  else none

/-! ## Threads -/

/-- `wants` is the range that a thread is in `range_lock` for, and `held` lists what the threads
have. -/
structure RangeSystem (τ : Type) where
  lock : RangeLock
  wants : τ → Option Span
  held : List (τ × Span)

section
variable {τ : Type}

inductive SpanStep [DecidableEq τ] (s : RangeSystem τ) : RangeSystem τ → Prop
  | call (i : τ) (r : Span) (idle : s.wants i = none) :
      SpanStep s { s with wants := update s.wants i (some r) }
  | again (i : τ) (r : Span) (wants : s.wants i = some r) (pass : rangeLock s.lock r.start r.stop = none) :
      SpanStep s s
  | enter (i : τ) (r : Span) (lock : RangeLock) (wants : s.wants i = some r)
      (pass : rangeLock s.lock r.start r.stop = some lock) :
      SpanStep s ⟨lock, update s.wants i none, (i, r) :: s.held⟩
  | leave (i : τ) (r : Span) (lock : RangeLock) (idle : s.wants i = none) (holds : (i, r) ∈ s.held)
      (unlock : rangeUnlock s.lock r.start r.stop = some lock) :
      SpanStep s ⟨lock, s.wants, s.held.erase (i, r)⟩

/-- The lock is initialised and nobody has called yet. -/
def RangeSystem.fresh (lock : RangeLock) : RangeSystem τ := ⟨rangeLockInit lock, fun _ => none, []⟩

def Span.bytes (r : Span) : Set Nat := Set.Ico r.start r.stop

/-- The range of `r` is in slot `i`. -/
def RangeLock.Records (lock : RangeLock) (r : Span) (i : Nat) : Prop :=
  i < rlockNum ∧ (lock.rlock i).valid = true ∧ (lock.rlock i).start = r.start ∧ (lock.rlock i).stop = r.stop

/-- What the range lock promises. -/
structure RangeSystem.Exclusive (s : RangeSystem τ) : Prop where
  apart : s.held.Pairwise fun a b => Disjoint a.2.bytes b.2.bytes
  recorded : ∀ h ∈ s.held, ∃! i, s.lock.Records h.2 i
  counted : s.lock.lockCount = Nat.count (fun i => (s.lock.rlock i).valid = true) rlockNum
  found : ∀ h ∈ s.held, ∃ lock, rangeUnlock s.lock h.2.start h.2.stop = some lock

/-! ## One pass -/

/-- What is entered in slot `i`. -/
def RangeLock.slot (lock : RangeLock) (i : Nat) : Option (Nat × Nat) :=
  if (lock.rlock i).valid then some ((lock.rlock i).start, (lock.rlock i).stop) else none

def RangeLock.ranges (lock : RangeLock) : List (Nat × Nat) := entries lock.slot rlockNum

theorem RangeLock.slot_enter (lock : RangeLock) (i start stop : Nat) :
    (lock.enter i start stop).slot = update lock.slot i (some (start, stop)) := by
  funext j
  by_cases same : j = i
  · subst same
    simp [slot, enter]
  · simp [slot, enter, update_of_ne same]

theorem RangeLock.slot_leave {lock : RangeLock} {i : Nat} (count : Int) :
    (⟨update lock.rlock i { lock.rlock i with valid := false }, count⟩ : RangeLock).slot =
      update lock.slot i none := by
  funext j
  by_cases same : j = i
  · subst same
    simp [slot]
  · simp [slot, update_of_ne same]

theorem RangeLock.slot_eq_some {lock : RangeLock} {i start stop : Nat} : lock.slot i = some (start, stop) ↔
      (lock.rlock i).valid = true ∧ (lock.rlock i).start = start ∧ (lock.rlock i).stop = stop := by
  unfold slot
  split
  · simp [*]
  · simp [*]

variable {lock lock' : RangeLock} {start stop : Nat}

/-- A pass that succeeds enters the range in a free slot, and no range that is entered meets
it. -/
theorem rangeLock_enters (counted : lock.lockCount = lock.ranges.length)
    (pass : rangeLock lock start stop = some lock') :
    ∃ i < rlockNum, lock.slot i = none ∧ lock' = lock.enter i start stop ∧
      ∀ r ∈ lock.ranges, isOverlap start stop r.1 r.2 = false := by
  unfold rangeLock at pass
  split at pass
  · rename_i zero
    have empty : lock.ranges = [] := List.eq_nil_of_length_eq_zero (by omega)
    refine ⟨0, by decide, ?_, (Option.some.inj pass).symm, by simp [empty]⟩
    by_contra used
    obtain ⟨r, eq⟩ := Option.ne_none_iff_exists'.mp used
    have mem : r ∈ lock.ranges := mem_entries.mpr ⟨0, by decide, eq⟩
    rw [empty] at mem
    cases mem
  dsimp only at pass
  split at pass
  · cases pass
  rename_i none
  split at pass
  · rename_i free
    have invalid := hit_of_scan_lt free
    refine ⟨_, free, by simpa [slot] using invalid, (Option.some.inj pass).symm, fun r mem => ?_⟩
    obtain ⟨i, lt, eq⟩ := mem_entries.mp mem
    obtain ⟨valid, first, last⟩ := slot_eq_some.mp (show lock.slot i = some (r.1, r.2) from eq)
    have clear := no_hit_of_scan none lt
    simpa [valid, first, last] using clear
  · cases pass

theorem rangeUnlock_finds (mem : (start, stop) ∈ lock.ranges) :
    ∃ lock', rangeUnlock lock start stop = some lock' := by
  obtain ⟨i, lt, eq⟩ := mem_entries.mp mem
  obtain ⟨valid, first, last⟩ := slot_eq_some.mp eq
  have found := scan_lt_of_hit (fun i => (lock.rlock i).valid && decide ((lock.rlock i).start = start) &&
    decide ((lock.rlock i).stop = stop)) (Nat.zero_le i) lt (by simp [valid, first, last])
  exact ⟨_, if_pos (Nat.lt_of_le_of_lt found.1 lt)⟩

/-- It frees a slot with this range. -/
theorem rangeUnlock_frees (unlock : rangeUnlock lock start stop = some lock') :
    ∃ i < rlockNum, lock.slot i = some (start, stop) ∧ lock'.slot = update lock.slot i none ∧
      lock'.lockCount = lock.lockCount - 1 := by
  unfold rangeUnlock at unlock
  dsimp only at unlock
  split at unlock
  · rename_i lt
    have hit := hit_of_scan_lt lt
    cases unlock
    refine ⟨_, lt, ?_, slot_leave _, rfl⟩
    rw [slot_eq_some]
    simpa [and_assoc] using hit
  · cases unlock

/-! ## Every interleaving -/

/-- The slots list what is held, and what is held does not overlap. -/
structure RangeSystem.Ok (s : RangeSystem τ) : Prop where
  agree : s.lock.ranges.Perm (s.held.map fun h => (h.2.start, h.2.stop))
  counted : s.lock.lockCount = s.lock.ranges.length
  apart : s.held.Pairwise fun a b => isOverlap a.2.start a.2.stop b.2.start b.2.stop = false

variable {s t : RangeSystem τ}

theorem RangeSystem.fresh_ok (lock : RangeLock) : (fresh lock : RangeSystem τ).Ok := by
  have empty : (rangeLockInit lock).ranges = [] := by
    refine List.eq_nil_iff_forall_not_mem.mpr fun r mem => ?_
    obtain ⟨i, lt, eq⟩ := mem_entries.mp mem
    simp [slot, rangeLockInit, lt] at eq
  refine ⟨by simp [fresh, empty], ?_, .nil⟩
  change (0 : Int) = (rangeLockInit lock).ranges.length
  rw [empty]
  rfl

theorem SpanStep.ok [DecidableEq τ] (step : SpanStep s t) (ok : s.Ok) : t.Ok := by
  cases step with
  | call i r idle => exact ⟨ok.agree, ok.counted, ok.apart⟩
  | again i r wants pass => exact ok
  | enter i r lock wants pass =>
    obtain ⟨slot, lt, free, rfl, clear⟩ := rangeLock_enters ok.counted pass
    have grown : (s.lock.enter slot r.start r.stop).ranges.Perm ((r.start, r.stop) :: s.lock.ranges) := by
      unfold ranges
      rw [slot_enter]
      exact entries_put free lt
    refine ⟨grown.trans (ok.agree.cons _), ?_, ok.apart.cons fun h mem => ?_⟩
    · rw [grown.length_eq, List.length_cons, Nat.cast_succ, ← ok.counted]
      rfl
    · exact clear (h.2.start, h.2.stop) (ok.agree.mem_iff.mpr (List.mem_map_of_mem mem))
  | leave i r lock idle holds unlock =>
    obtain ⟨slot, lt, used, freed, count⟩ := rangeUnlock_frees unlock
    have shrunk : s.lock.ranges.Perm ((r.start, r.stop) :: lock.ranges) := by
      have back : s.lock.slot = update lock.slot slot (some (r.start, r.stop)) := by
        rw [freed, update_idem, ← used, update_eq_self]
      unfold ranges
      rw [back]
      exact entries_put (by rw [freed, update_self]) lt
    refine ⟨?_, ?_, ok.apart.sublist List.erase_sublist⟩
    · have held := (List.perm_cons_erase holds).map fun h => (h.2.start, h.2.stop)
      exact ((shrunk.symm.trans ok.agree).trans held).cons_inv
    · change lock.lockCount = lock.ranges.length
      rw [count, ok.counted, shrunk.length_eq, List.length_cons]
      omega

theorem Span.disjoint {r q : Span} (apart : isOverlap r.start r.stop q.start q.stop = false) :
    Disjoint r.bytes q.bytes := by
  rw [Set.disjoint_left]
  intro a inR inQ
  simp only [isOverlap, Bool.and_eq_false_iff, decide_eq_false_iff_not, Nat.not_lt] at apart
  simp only [bytes, Set.mem_Ico] at inR inQ
  omega

theorem RangeSystem.Ok.once (ok : s.Ok) : s.lock.ranges.Nodup := by
  refine ok.agree.nodup_iff.mpr (List.pairwise_map.mpr (ok.apart.imp fun {a b} apart same => ?_))
  obtain ⟨first, last⟩ := Prod.mk.inj same
  have := a.2.nonempty
  simp only [isOverlap, Bool.and_eq_false_iff, decide_eq_false_iff_not, Nat.not_lt] at apart
  omega

theorem RangeSystem.Ok.exclusive (ok : s.Ok) : s.Exclusive where
  apart := ok.apart.imp Span.disjoint
  recorded h mem := by
    have entered := ok.agree.mem_iff.mpr (List.mem_map_of_mem mem)
    obtain ⟨i, lt, eq⟩ := mem_entries.mp entered
    refine ⟨i, ⟨lt, slot_eq_some.mp eq⟩, ?_⟩
    rintro j ⟨lt', eq'⟩
    exact slot_unique ok.once lt' lt (slot_eq_some.mpr eq') eq
  counted := by
    rw [ok.counted, ranges, length_entries]
    refine congrArg Nat.cast (count_congr _ _ fun i _ => ?_)
    unfold slot
    split <;> simp [*]
  found h mem := rangeUnlock_finds (ok.agree.mem_iff.mpr (List.mem_map_of_mem mem))

/-- In every state that the threads reach the ranges that are held exclude each other. -/
theorem range_lock_excludes [DecidableEq τ] {lock : RangeLock}
    (run : Run SpanStep (RangeSystem.fresh lock) s) : s.Exclusive :=
  (Run.invariant (fun ok step => SpanStep.ok step ok) run (RangeSystem.fresh_ok lock)).exclusive

/-- Two threads with neighbouring ranges. -/
theorem range_lock_excludes_neighbours : ∃ s : RangeSystem Nat,
    s.held = [(1, ⟨10, 20, by decide⟩), (0, ⟨0, 10, by decide⟩)] ∧ s.Exclusive := by
  have first : Run SpanStep (RangeSystem.fresh ⟨fun _ => ⟨0, 0, false⟩, 0⟩ : RangeSystem Nat) _ :=
    .tail (.tail .refl (.call 0 ⟨0, 10, by decide⟩ rfl)) (.enter 0 _ _ rfl rfl)
  have second := Relation.ReflTransGen.tail (.tail first (.call 1 ⟨10, 20, by decide⟩ rfl)) (.enter 1 _ _ rfl rfl)
  exact ⟨_, rfl, range_lock_excludes second⟩

end
end SlotFs
