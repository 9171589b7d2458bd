import SlotFs.Lib.Bytes
import SlotFs.Lib.Chain
import SlotFs.Lib.Runs

/-!
# The items of an arena

`arena.c` cuts a region into items of one size. The first eight bytes of a free item are the
link to the next one. The owner of an item can write there what it likes, since `arena_free`
enters the link anew.
-/

namespace SlotFs
open Bytes Chains Runs List

/-- `free_list`, 0 for `NULL`, and the memory. The other fields are read for debugging only. -/
structure ItemArena where
  freeList : Nat
  mem : Nat → BitVec 8

def arenaFree (a : ItemArena) (ptr : Nat) : ItemArena := ⟨ptr, store a.mem ptr 8 a.freeList⟩

/-- The items of a region at `mem`. -/
def arenaItems (mem size itemSize : Nat) : List Nat :=
  (range (size / itemSize)).map fun i => mem + i * itemSize

/-- The loop enters each item as `arena_free` does. -/
def arenaInit (m : Nat → BitVec 8) (mem size itemSize : Nat) : ItemArena :=
  (arenaItems mem size itemSize).foldl arenaFree ⟨0, m⟩

def ItemArena.arenaAlloc (a : ItemArena) : Nat × ItemArena :=
  if a.freeList = 0 then (0, a) else (a.freeList, { a with freeList := load a.mem a.freeList 8 })

/-- An arena and the items that its clients hold. -/
structure ArenaUse where
  arena : ItemArena
  out : List Nat

/-- A call, or any writes of the clients to what they hold. -/
inductive ArenaStep (itemSize : Nat) (s : ArenaUse) : ArenaUse → Prop
  | alloc : ArenaStep itemSize s ⟨s.arena.arenaAlloc.2,
      if s.arena.arenaAlloc.1 = 0 then s.out else s.arena.arenaAlloc.1 :: s.out⟩
  | free (ptr : Nat) (held : ptr ∈ s.out) : ArenaStep itemSize s ⟨arenaFree s.arena ptr, s.out.erase ptr⟩
  | write (m : Nat → BitVec 8)
      (own : ∀ x, (∀ item ∈ s.out, x < item ∨ item + itemSize ≤ x) → m x = s.arena.mem x) :
      ArenaStep itemSize s ⟨{ s.arena with mem := m }, s.out⟩

/-- Items with room for a link, none of which is in another. -/
structure Cut (items : List Nat) (itemSize : Nat) : Prop where
  room : 8 ≤ itemSize
  once : items.Nodup
  real : ∀ x ∈ items, x ≠ 0 ∧ x < 256 ^ 8
  apart : ∀ x ∈ items, ∀ y ∈ items, x ≠ y → x + itemSize ≤ y ∨ y + itemSize ≤ x

/-- The list has the items that nobody holds. -/
structure ArenaUse.Ok (items free : List Nat) (s : ArenaUse) : Prop where
  chain : Chain (fun a => load s.arena.mem a 8) 0 s.arena.freeList free
  all : (free ++ s.out).Perm items

variable {items : List Nat} {itemSize mem size : Nat} {s t : ArenaUse}

theorem Cut.step (cut : Cut items itemSize) (ok : ∃ free, s.Ok items free) (step : ArenaStep itemSize s t) :
    ∃ free, t.Ok items free := by
  obtain ⟨free, ok⟩ := ok
  have member (x : Nat) (hx : x ∈ free ∨ x ∈ s.out) : x ∈ items :=
    ok.all.mem_iff.mp (mem_append.mpr hx)
  have other (x y : Nat) (hx : x ∈ free) (hy : y ∈ s.out) : x + itemSize ≤ y ∨ y + itemSize ≤ x := by
    have once := nodup_append.mp (ok.all.nodup_iff.mpr cut.once)
    exact cut.apart x (member x (.inl hx)) y (member y (.inr hy)) (once.2.2 x hx y hy)
  have room := cut.room
  cases step with
  | alloc =>
    cases free with
    | nil =>
      simp only [ItemArena.arenaAlloc, ok.chain.nil, if_true]
      exact ⟨[], ok⟩
    | cons x free =>
      obtain ⟨head, rest⟩ := ok.chain.tail
      have real := (cut.real x (member x (.inl mem_cons_self))).1
      simp only [ItemArena.arenaAlloc, head, real, if_false]
      exact ⟨free, rest, perm_middle.trans ok.all⟩
  | free ptr held =>
    have link : s.arena.freeList < 256 ^ 8 := by
      cases free with
      | nil => simp [ok.chain.nil]
      | cons x free =>
        rw [ok.chain.tail.1]
        exact (cut.real x (member x (.inl mem_cons_self))).2
    have kept (x : Nat) (hx : x ∈ free) :
        load (store s.arena.mem ptr 8 s.arena.freeList) x 8 = load s.arena.mem x 8 := by
      have := other x ptr hx held
      exact load_store_apart (by omega)
    refine ⟨ptr :: free, .step (cut.real ptr (member ptr (.inr held))).1 ?_, ?_⟩
    · simp only [arenaFree, load_store link]
      exact ok.chain.congr kept
    · exact perm_middle.symm.trans (((perm_cons_erase held).symm.append_left free).trans ok.all)
  | write m own =>
    refine ⟨free, ok.chain.congr fun x hx => load_congr fun a low high => own a fun item held => ?_, ok.all⟩
    have := other x item hx held
    omega

theorem arenaInit_run (items : List Nat) (a : ItemArena) :
    Run (ArenaStep itemSize) ⟨a, items⟩ ⟨items.foldl arenaFree a, []⟩ := by
  induction items generalizing a with
  | nil => exact .refl
  | cons x items ih =>
    have first : ArenaStep itemSize ⟨a, x :: items⟩ ⟨arenaFree a x, items⟩ := by
      have step := @ArenaStep.free itemSize ⟨a, x :: items⟩ x mem_cons_self
      rwa [erase_cons_head] at step
    exact .head first (ih _)

theorem mem_arenaItems {x : Nat} (hx : x ∈ arenaItems mem size itemSize) :
    ∃ i, x = mem + i * itemSize ∧ x + itemSize ≤ mem + size := by
  obtain ⟨i, hi, rfl⟩ := mem_map.mp hx
  refine ⟨i, rfl, ?_⟩
  have inside := (Nat.mul_le_mul_right itemSize (mem_range.mp hi)).trans (Nat.div_mul_le_self ..)
  rw [Nat.succ_mul] at inside
  omega

section
variable (real : 0 < mem) (fits : mem + size ≤ 2 ^ 64) (positive : 0 < itemSize) (words : 8 ∣ itemSize)
include real fits positive words

theorem arenaItems_cut : Cut (arenaItems mem size itemSize) itemSize := by
  refine ⟨Nat.le_of_dvd positive words, ?_, fun x hx => ?_, fun x hx y hy ne => ?_⟩
  · refine nodup_range.map fun i j same => ?_
    exact Nat.eq_of_mul_eq_mul_right positive (Nat.add_left_cancel same)
  · obtain ⟨i, rfl, inside⟩ := mem_arenaItems hx
    omega
  · obtain ⟨i, rfl, _⟩ := mem_arenaItems hx
    obtain ⟨j, rfl, _⟩ := mem_arenaItems hy
    rcases Nat.lt_trichotomy i j with low | rfl | low
    · have := Nat.mul_le_mul_right itemSize low
      rw [Nat.succ_mul] at this
      omega
    · exact absurd rfl ne
    · have := Nat.mul_le_mul_right itemSize low
      rw [Nat.succ_mul] at this
      omega

/-- Whatever the clients do with the items that they hold, each is a slot of the region that one
client has, and the arena is exhausted just when all of them are held. -/
theorem arena_items_exclusive (m : Nat → BitVec 8)
    (run : Run (ArenaStep itemSize) ⟨arenaInit m mem size itemSize, []⟩ s) :
    (∀ item ∈ s.out, ∃ i, item = mem + i * itemSize ∧ item + itemSize ≤ mem + size) ∧ s.out.Nodup ∧
    (s.arena.arenaAlloc.1 = 0 ↔ s.out.length = size / itemSize) := by
  have cut := arenaItems_cut real fits positive words
  have start : ArenaUse.Ok (arenaItems mem size itemSize) [] ⟨⟨0, m⟩, arenaItems mem size itemSize⟩ :=
    ⟨.done, .refl _⟩
  obtain ⟨free, ok⟩ := Run.invariant (I := fun s => ∃ free, s.Ok (arenaItems mem size itemSize) free)
    cut.step ((arenaInit_run _ _).trans run) ⟨[], start⟩
  have count := ok.all.length_eq
  rw [length_append, arenaItems, length_map, length_range] at count
  refine ⟨fun x hx => ?_, ?_, ?_⟩
  · exact mem_arenaItems (ok.all.mem_iff.mp (mem_append_right _ hx))
  · exact (nodup_append.mp (ok.all.nodup_iff.mpr cut.once)).2.1
  · cases free with
    | nil => simpa [ItemArena.arenaAlloc, ok.chain.nil] using count
    | cons x free =>
      have real := (cut.real x (ok.all.mem_iff.mp (by simp))).1
      rw [length_cons] at count
      simp only [ItemArena.arenaAlloc, ok.chain.tail.1, real, if_false, false_iff]
      omega

end

/-- The first of two items. -/
theorem arena_items_exclusive_first : ∃ s : ArenaUse, s.out = [4112] ∧ s.arena.arenaAlloc.1 = 4096 ∧
    ∀ item ∈ s.out, ∃ i, item = 4096 + i * 16 ∧ item + 16 ≤ 4096 + 32 := by
  refine ⟨_, ?_, ?_, (@arena_items_exclusive 16 4096 32 _ (by decide) (by decide) (by decide) (by decide)
    (fun _ => 0#8) (.single .alloc)).1⟩
  · decide +kernel
  · decide +kernel

end SlotFs
