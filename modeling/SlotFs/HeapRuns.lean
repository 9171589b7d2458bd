import SlotFs.HeapAlloc
import SlotFs.Lib.Runs

/-!
# Runs of the heap

Calls of `heap_alloc` and `heap_free` follow one another in any order, and between them the
owners of the blocks write to what they have been given.
-/

namespace SlotFs
open Bytes Region Runs Dlists Function List Option Heap

/-! ## Initialisation -/

/-- Memory with the first block in it. -/
def blankHeap (mem : Nat → BitVec 8) (region size : Nat) : Heap :=
  (((⟨region, region + size, fun _ => 0, mem⟩ : Heap).setHole region 1).setSize region
    (size - 32)).setHeader (region + size - 8) region

section
variable {mem : Nat → BitVec 8} {region size : Nat} (real : 0 < region) (room : 32 ≤ size)
  (small : size < 2 ^ 32) (fits : region + size + 4 ≤ 2 ^ 64)
include room

theorem blankHeap_hole : (blankHeap mem region size).hole region = 1 := by
  have sized (h : Heap) : (h.setSize region (size - 32)).hole region = h.hole region :=
    load_store_apart (.inl le_rfl)
  rw [blankHeap, hole_setHeader (by omega), sized, hole_setHole (by decide)]

include small

theorem blankHeap_size : (blankHeap mem region size).size region = size - 32 := by
  rw [blankHeap, size_setHeader (by omega), size_setSize (by omega)]

theorem heapInit_eq : heapInit mem region size =
    (blankHeap mem region size).addNode (getBinIndex ((blankHeap mem region size).size region)) region := by
  have first : CWord.sub64 (CWord.sub64 size 24) 8 = size - 32 := by
    rw [CWord.sub64_of_le (show 24 ≤ size by omega) (by omega), CWord.sub64_of_le (by omega) (by omega)]
    omega
  have foot (h : Heap) : (h.setSize region (size - 32)).createFoot region =
      (h.setSize region (size - 32)).setHeader (region + size - 8) region := by
    rw [createFoot, getFoot, size_setSize (by omega),
      show region + 24 + (size - 32) = region + size - 8 by omega]
  simp only [heapInit, first, foot, blankHeap]

include real fits

theorem blankHeap_ok (past : load mem (region + size) 4 = 0) :
    (blankHeap mem region size).Ok [region] [region] := by
  have own : (blankHeap mem region size).size region = size - 32 := blankHeap_size room small
  have writes : Heap.Writes (Heap.span region (region + size)) ⟨region, region + size, fun _ => 0, mem⟩
      (blankHeap mem region size) := by
    refine ((Heap.writes_setHole fun a near => ?_).trans (Heap.writes_setSize fun a near => ?_)).trans
      (Heap.writes_setHeader fun a near => ?_)
    all_goals
      simp only [Heap.span] at near ⊢
      omega
  have none (x : Nat) : ¬ (blankHeap mem region size).holes [region] [region] x := fun hx => hx.2.1 hx.1
  refine ⟨⟨real, fits, ?_, ?_, ⟨rfl, ?_⟩, fun b hb => ?_⟩, fun x hx => absurd hx (none x),
    fun x _ hx => absurd hx (none x), fun i _ => ⟨[], .nil, .nil, fun x => ?_⟩⟩
  · show region + size < region + 2 ^ 32
    omega
  · exact (writes.load fun a behind _ near => absurd near.2 (not_lt.mpr behind)).trans past
  · show region + (32 + (blankHeap mem region size).size region) = region + size
    omega
  · obtain rfl := mem_singleton.mp hb
    rw [Heap.getFoot, own, show b + 24 + (size - 32) = b + size - 8 by omega]
    exact Heap.header_setHeader (by omega)
  · simp [none x]

end

/-! ## Calls and owners -/

/-- The heap with what it has given away, as pairs of an address and the size that was asked for. -/
structure Lending where
  heap : Heap
  out : List (Nat × Nat)

open Lending

/-- A call, or a store of an owner to what it has been given. -/
inductive HeapStep : Lending → Lending → Prop
  | alloc {s : Lending} {size p : Nat} {h' : Heap} (positive : 1 ≤ size) (fits : size < 2 ^ 64)
      (call : s.heap.doHeapAlloc size = some (p, h')) :
      HeapStep s ⟨h', if p = 0 then s.out else (p, size) :: s.out⟩
  | free {s : Lending} {size p : Nat} {h' : Heap} (lent : (p, size) ∈ s.out)
      (call : s.heap.doHeapFree p = some h') : HeapStep s ⟨h', s.out.erase (p, size)⟩
  | use {s : Lending} {size p a : Nat} {v : BitVec 8} (lent : (p, size) ∈ s.out) (inside : p ≤ a ∧ a < p + size) :
      HeapStep s ⟨{ s.heap with mem := update s.heap.mem a v }, s.out⟩

/-- What is given away are blocks that are no holes, each once. -/
structure Lending.Ok (s : Lending) (blocks : List Nat) : Prop where
  heap : s.heap.Ok blocks []
  each : ∀ x ∈ s.out, ∃ b ∈ blocks, x.1 = b + 8 ∧ s.heap.hole b = 0 ∧ x.2 ≤ s.heap.size b
  once : s.out.Pairwise fun x y => x.1 ≠ y.1

variable {s t : Lending} {blocks : List Nat}

theorem Lending.Ok.alloc (ok : s.Ok blocks) {size p : Nat} {h' : Heap}
    (call : s.heap.doHeapAlloc size = some (p, h')) :
    (∃ blocks', Ok ⟨h', if p = 0 then s.out else (p, size) :: s.out⟩ blocks') ∧ h'.region = s.heap.region := by
  obtain ⟨p', h1, blocks', call', heap, region, kept, given⟩ := ok.heap.doHeapAlloc size
  cases call.symm.trans call'
  have each (x : Nat × Nat) (hx : x ∈ s.out) :
      ∃ b ∈ blocks', x.1 = b + 8 ∧ h'.hole b = 0 ∧ x.2 ≤ h'.size b ∧ s.heap.hole b = 0 := by
    obtain ⟨b, hb, place, hole, fits⟩ := ok.each x hx
    obtain ⟨hb, tags⟩ := kept b hb hole
    exact ⟨b, hb, place, tags.hole.trans hole, tags.size ▸ fits, hole⟩
  refine ⟨⟨blocks', heap, ?_, ?_⟩, region⟩
  · dsimp only
    split_ifs with null
    · intro x hx
      obtain ⟨b, hb, place, hole, fits, _⟩ := each x hx
      exact ⟨b, hb, place, hole, fits⟩
    intro x hx
    rcases mem_cons.mp hx with rfl | hx
    · obtain ⟨b, hb, place, hole, fits, _⟩ := given null
      exact ⟨b, hb, place, hole, fits⟩
    · obtain ⟨b, hb, place, hole, fits, _⟩ := each x hx
      exact ⟨b, hb, place, hole, fits⟩
  · dsimp only
    split_ifs with null
    · exact ok.once
    refine pairwise_cons.mpr ⟨fun x hx same => ?_, ok.once⟩
    obtain ⟨b, _, place, _, _, was⟩ := given null
    obtain ⟨c, _, place', _, _, hole⟩ := each x hx
    have : b = c := by omega
    exact was (this ▸ hole)

theorem Lending.Ok.free (ok : s.Ok blocks) {size p : Nat} {h' : Heap} (lent : (p, size) ∈ s.out)
    (call : s.heap.doHeapFree p = some h') :
    (∃ blocks', Ok ⟨h', s.out.erase (p, size)⟩ blocks') ∧ h'.region = s.heap.region := by
  obtain ⟨b, hb, rfl, hole, _⟩ := ok.each _ lent
  obtain ⟨h1, blocks', call', heap, region, kept⟩ := ok.heap.doHeapFree hb hole
  cases call.symm.trans call'
  have split := (perm_cons_erase lent).pairwise_iff (fun h => .symm h) |>.mp ok.once
  obtain ⟨others, once⟩ := pairwise_cons.mp split
  refine ⟨⟨blocks', heap, fun x hx => ?_, once⟩, region⟩
  obtain ⟨c, hc, place, lentHole, fits⟩ := ok.each x (mem_of_mem_erase hx)
  have other : c ≠ b := by
    rintro rfl
    exact others x hx place.symm
  obtain ⟨hc, tags⟩ := kept c hc other lentHole
  exact ⟨c, hc, place, tags.hole.trans lentHole, tags.size ▸ fits⟩

theorem Lending.Ok.use (ok : s.Ok blocks) {size p a : Nat} (lent : (p, size) ∈ s.out)
    (inside : p ≤ a ∧ a < p + size) (v : BitVec 8) :
    Ok ⟨{ s.heap with mem := update s.heap.mem a v }, s.out⟩ blocks := by
  obtain ⟨b, hb, place, hole, fits⟩ := ok.each _ lent
  have writes : Heap.Writes (Heap.span (b + 8) (b + 24 + s.heap.size b)) s.heap
      { s.heap with mem := update s.heap.mem a v } := by
    refine ⟨rfl, rfl, fun y out => update_of_ne ?_ _ _⟩
    rintro rfl
    refine out ?_
    simp only [Heap.span]
    dsimp only at place fits
    omega
  obtain ⟨heap, tags⟩ := ok.heap.scribble hb hole writes rfl
  refine ⟨heap, fun x hx => ?_, ok.once⟩
  obtain ⟨c, hc, place, hole, fits⟩ := ok.each x hx
  exact ⟨c, hc, place, (tags c hc).hole.trans hole, (tags c hc).size.symm ▸ fits⟩

theorem HeapStep.ok (step : HeapStep s t) (ok : s.Ok blocks) :
    (∃ blocks', t.Ok blocks') ∧ t.heap.region = s.heap.region := by
  cases step with
  | alloc _ _ call => exact ok.alloc call
  | free lent call => exact ok.free lent call
  | use lent inside => exact ⟨⟨blocks, ok.use lent inside _⟩, rfl⟩

/-! ## Every reachable state -/

/-- The blocks tile the region, the bins hold the holes, and nothing that is given away meets
anything else that is, a header or a footer. -/
structure Lending.Sound (s : Lending) (region size : Nat) (blocks : List Nat) : Prop where
  tiles : Stacked region (blocks.map s.heap.block) (region + size)
  foot : ∀ b ∈ blocks, s.heap.header (s.heap.getFoot b) = b
  bins : ∀ i < 32, ∃ l, Dlist s.heap.next s.heap.prev 0 (s.heap.bins i) l ∧ l.Nodup ∧
    l.Pairwise (fun b c => s.heap.size b ≤ s.heap.size c) ∧
    ∀ b, b ∈ l ↔ (b ∈ blocks ∧ s.heap.hole b ≠ 0) ∧ getBinIndex (s.heap.size b) = i
  apart : s.out.Pairwise fun x y => x.1 + x.2 ≤ y.1 ∨ y.1 + y.2 ≤ x.1
  inside : ∀ x ∈ s.out, region ≤ x.1 ∧ x.1 + x.2 ≤ region + size
  clear : ∀ x ∈ s.out, ∀ b ∈ blocks, (x.1 + x.2 ≤ b ∨ b + 8 ≤ x.1) ∧
    (x.1 + x.2 ≤ s.heap.getFoot b ∨ s.heap.getFoot b + 8 ≤ x.1)

theorem Lending.Ok.sound (ok : s.Ok blocks) {region size : Nat} (same : s.heap.region = (region, region + size)) :
    s.Sound region size blocks := by
  obtain ⟨start, stop⟩ := Prod.mk.inj same
  have framed := ok.heap.framed
  refine ⟨by rw [← stop, ← start]; exact framed.tiles, framed.foot, fun i small => ?_, ?_, fun x hx => ?_,
    fun x hx b hb => ?_⟩
  · obtain ⟨l, list, sorted, members⟩ := ok.heap.binned.lists i small
    refine ⟨l, list, list.chain.nodup, sorted, fun b => ?_⟩
    rw [members]
    simp [holes]
  · refine ok.once.imp_of_mem fun {x y} hx hy other => ?_
    obtain ⟨b, hb, placeX, _, fitsX⟩ := ok.each x hx
    obtain ⟨c, hc, placeY, _, fitsY⟩ := ok.each y hy
    have := framed.apart hb hc (by omega)
    omega
  · obtain ⟨b, hb, place, _, fits⟩ := ok.each x hx
    have := framed.within hb
    omega
  obtain ⟨c, hc, place, _, fits⟩ := ok.each x hx
  rw [getFoot]
  by_cases other : c = b
  · subst other
    omega
  · have := framed.apart hc hb other
    omega

/-- In every state that calls can reach from a region of at least one block the heap is sound,
and every call comes to an end. -/
theorem heap_sound {mem : Nat → BitVec 8} {region size : Nat} (real : 0 < region) (room : 32 ≤ size)
    (small : size < 2 ^ 32) (fits : region + size + 4 ≤ 2 ^ 64) (past : load mem (region + size) 4 = 0) :
    ∃ h0, heapInit mem region size = some h0 ∧ ∀ s, Run HeapStep ⟨h0, []⟩ s →
      (∃ blocks, s.Sound region size blocks) ∧ (∀ n, (s.heap.doHeapAlloc n).isSome) ∧
      ∀ x ∈ s.out, (s.heap.doHeapFree x.1).isSome := by
  have marked : (blankHeap mem region size).hole region ≠ 0 := by
    rw [blankHeap_hole room]
    decide
  obtain ⟨h0, call, ok, place, _⟩ := (blankHeap_ok real room small fits past).add (mem_singleton_self _) marked
  have init : Ok ⟨h0, []⟩ [region] := ⟨ok, by simp, .nil⟩
  refine ⟨h0, by rw [heapInit_eq room small, call], fun s run => ?_⟩
  obtain ⟨⟨blocks, ok⟩, same⟩ : (∃ blocks, s.Ok blocks) ∧ s.heap.region = (region, region + size) := by
    refine run.invariant (I := fun s => (∃ blocks, s.Ok blocks) ∧ s.heap.region = (region, region + size)) ?_
      ⟨⟨_, init⟩, place⟩
    rintro s t ⟨⟨blocks, ok⟩, same⟩ step
    exact (step.ok ok).imp_right fun region => region.trans same
  refine ⟨⟨blocks, ok.sound same⟩, fun n => ?_, fun x hx => ?_⟩
  · obtain ⟨p, h', _, call, _⟩ := ok.heap.doHeapAlloc n
    rw [call]
    rfl
  obtain ⟨b, hb, place, hole, _⟩ := ok.each x hx
  obtain ⟨h', _, call, _⟩ := ok.heap.doHeapFree hb hole
  rw [place, call]
  rfl

/-- A first allocation of 100 bytes in a region of three pages. -/
theorem heap_sound_first : ∃ h0 h, heapInit (fun _ => 0#8) 4096 12288 = some h0 ∧
    h0.doHeapAlloc 100 = some (4104, h) ∧ ∃ blocks, Sound ⟨h, [(4104, 100)]⟩ 4096 12288 blocks := by
  obtain ⟨h0, init, sound⟩ := @heap_sound (fun _ => 0#8) 4096 12288 (by decide) (by decide) (by decide)
    (by decide) (by decide)
  have run : ((heapInit (fun _ => 0#8) 4096 12288).bind fun h => h.doHeapAlloc 100).map Prod.fst =
      some 4104 := by
    decide +kernel
  rw [init, bind_some] at run
  obtain ⟨⟨p, h⟩, call, rfl⟩ := map_eq_some_iff.mp run
  exact ⟨h0, h, init, call, (sound _ (.single (.alloc (by decide) (by decide) call))).1⟩

/-- A region of 16 bytes has no room for a header and a footer, which is not checked. -/
theorem heap_short_region : ∃ h0, heapInit (fun _ => 0#8) 4096 16 = some h0 ∧
    ¬ ∃ blocks, Sound ⟨h0, []⟩ 4096 16 blocks := by
  have run : (heapInit (fun _ => 0#8) 4096 16).isSome := by decide +kernel
  obtain ⟨h0, init⟩ := isSome_iff_exists.mp run
  refine ⟨h0, init, ?_⟩
  rintro ⟨blocks, sound⟩
  have tiles := sound.tiles
  cases blocks with
  | nil => cases tiles
  | cons b blocks =>
    have := (tiles.within (mem_cons_self ..)).2
    have : b = 4096 := tiles.1
    simp only [block, Region.stop] at *
    omega

end SlotFs
