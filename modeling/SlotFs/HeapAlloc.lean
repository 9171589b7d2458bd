import SlotFs.HeapBlocks

/-!
# Taking a block from the heap

`do_heap_alloc`. The first block that is large enough in the bins from the one of the request on
is taken out of its bin, and what it has too much becomes a hole behind it. The rest is put into
its bin while the block is still in its own, under its old size.
-/

namespace SlotFs
open Bytes Region Function List Option

namespace Heap

variable {h h1 h' : Heap} {blocks front back : List Nat} {b found size : Nat}

/-! ## The search -/

/-- The search ends. What it finds is a hole that is large enough, in the bin of its size. -/
theorem Ok.findFit (ok : h.Ok blocks []) {fuel index : Nat} (inside : index < 32) (enough : 32 ≤ index + fuel) :
    ∃ index' found, h.findFit size fuel index = some (index', found) ∧ (found ≠ 0 →
      found ∈ blocks ∧ h.hole found ≠ 0 ∧ size ≤ h.size found ∧ index' = getBinIndex (h.size found)) := by
  induction fuel generalizing index with
  | zero => omega
  | succ fuel ih =>
    obtain ⟨l, list, _, members⟩ := ok.binned.lists index inside
    have short := ok.binned.short list.chain.nodup fun x hx => ((members x).mp hx).1
    rw [Heap.findFit, getBestFit_eq list.chain short, bind_some]
    cases fit : l.find? fun x => size ≤ h.size x with
    | none =>
      rw [getD_none, if_neg (by simp)]
      by_cases last : 32 ≤ index + 1
      · exact ⟨index, 0, if_pos last, fun real => absurd rfl real⟩
      · rw [if_neg last]
        exact ih (by omega) (by omega)
    | some x =>
      have member := mem_of_find?_eq_some fit
      have large := List.find?_some fit
      obtain ⟨⟨hx, _, hole⟩, bin⟩ := (members x).mp member
      exact ⟨index, x, if_pos (list.ne_null member), fun _ => ⟨hx, hole, by simpa using large, bin.symm⟩⟩

/-! ## Cutting a block in two -/

/-- The header and the footer of the rest of a block. -/
def cutTail (h : Heap) (split rest : Nat) : Heap :=
  ((h.setSize split rest).setHole split 1).setHeader (split + 24 + rest) split

/-- The header and the footer of what has been cut off for the request. -/
def cutHead (h : Heap) (found size : Nat) : Heap :=
  ((h.setSize found size).setHeader (found + 24 + size) found).setHole found 0

section
variable {split rest : Nat}

theorem cutTail_size (fits : rest < 2 ^ 32) : (h.cutTail split rest).size split = rest := by
  rw [cutTail, size_setHeader (by omega), size_setHole, size_setSize fits]

theorem cutTail_hole : (h.cutTail split rest).hole split = 1 := by
  rw [cutTail, hole_setHeader (by omega), hole_setHole (by decide)]

theorem cutTail_foot (fits : split < 2 ^ 64) : (h.cutTail split rest).header (split + 24 + rest) = split :=
  header_setHeader fits

theorem cutTail_writes : Writes (span split (split + (32 + rest))) h (h.cutTail split rest) := by
  refine ((writes_setSize fun a near => ?_).trans (writes_setHole fun a near => ?_)).trans
    (writes_setHeader fun a near => ?_)
  all_goals
    simp only [span] at near ⊢
    omega

theorem cutHead_size (fits : size < 2 ^ 32) : (h.cutHead found size).size found = size := by
  rw [cutHead, size_setHole, size_setHeader (by omega), size_setSize fits]

theorem cutHead_hole : (h.cutHead found size).hole found = 0 := hole_setHole (by decide)

theorem cutHead_foot (fits : found < 2 ^ 64) : (h.cutHead found size).header (found + 24 + size) = found := by
  rw [cutHead, header_setHole (by omega), header_setHeader fits]

theorem cutHead_writes : Writes (fun a => span found (found + 8) a ∨
    span (found + 24 + size) (found + 32 + size) a) h (h.cutHead found size) := by
  refine ((writes_setSize fun a near => .inl ?_).trans (writes_setHeader fun a near => .inr ?_)).trans
    (writes_setHole fun a near => .inl ?_)
  all_goals
    simp only [span] at near ⊢
    omega

end

theorem splitNode_eq (large : h.size found - size > 36) (small : h.size found < 2 ^ 32) :
    (h.splitNode found size).map (fun h => h.setHole found 0) =
      ((h.cutTail (found + 32 + size) (h.size found - size - 32)).addNode
        (getBinIndex (h.size found - size - 32)) (found + 32 + size)).map fun h => h.cutHead found size := by
  have tail : ((h.setSize (found + 32 + size) (h.size found - size - 32)).setHole (found + 32 + size) 1).createFoot
      (found + 32 + size) = h.cutTail (found + 32 + size) (h.size found - size - 32) := by
    rw [createFoot, getFoot, size_setHole, size_setSize (by omega), cutTail]
  have head (h : Heap) : ((h.setSize found size).createFoot found).setHole found 0 = h.cutHead found size := by
    rw [createFoot, getFoot, size_setSize (by omega), cutHead]
  simp only [splitNode, if_pos large, tail, cutTail_size (show h.size found - size - 32 < 2 ^ 32 by omega),
    Option.map_map]
  exact Option.map_congr fun h _ => head h

/-- The heap when the block has been cut, and is marked but still in its old bin. -/
structure Carved (h h' : Heap) (blocks blocks' : List Nat) (found size : Nat) : Prop where
  region : h'.region = h.region
  framed : h'.Framed blocks'
  binned : h'.Binned (fun x => x ∈ blocks' ∧ (x = found ∨ h'.hole x ≠ 0))
    (update h'.size found (h.size found))
  member : found ∈ blocks'
  room : size ≤ h'.size found
  marked : h'.hole found = 0
  kept : ∀ x ∈ blocks, x ≠ found → x ∈ blocks' ∧ Tags h h' x

section
variable {split rest : Nat} (ok : h.Ok (front ++ found :: back) []) (place : split = found + 32 + size)
  (sum : size + 32 + rest = h.size found) (room : 4 < rest)
include ok place sum room

theorem Ok.cut_tags {a : Nat}
    (near : span split (split + 8) a ∨ span (split + 24 + rest) (split + 24 + rest + 8) a) :
    ¬ links (fun x => h.holes (front ++ found :: back) [] x ∨ x = split) a ∧
    ¬ (span found (found + 8) a ∨ span (found + 24 + size) (found + 32 + size) a) := by
  constructor
  · rintro ⟨x, hx | rfl, inner⟩
    · simp only [span] at near inner
      by_cases same : x = found
      · omega
      · have := ok.framed.apart (c := found) hx.1 (by simp) same
        omega
    · simp only [span] at near inner
      omega
  · simp only [span] at near ⊢
    omega

section
variable (w : Writes (links fun x => h.holes (front ++ found :: back) [] x ∨ x = split) (h.cutTail split rest) h1)
include w

theorem Ok.cut_writes :
    Writes (fun a => span found (found + (32 + h.size found)) a ∨ links (· ∈ front ++ back) a) h
      (h1.cutHead found size) := by
  refine Writes.trans (cutTail_writes.mono ?_) ((w.mono ?_).trans (cutHead_writes.mono ?_))
  · intro a near
    simp only [span] at near ⊢
    omega
  · rintro a ⟨x, hx | rfl, near⟩
    · by_cases same : x = found
      · simp only [span] at near ⊢
        omega
      · exact .inr ⟨x, (mem_others ok.framed.nodup).mpr ⟨hx.1, same⟩, near⟩
    · simp only [span] at near ⊢
      omega
  · intro a near
    simp only [span] at near ⊢
    omega

/-- The two parts of the block. -/
theorem Ok.cut_fields :
    (h1.cutHead found size).size found = size ∧ (h1.cutHead found size).header (found + 24 + size) = found ∧
    (h1.cutHead found size).size split = rest ∧ (h1.cutHead found size).header (split + 24 + rest) = split ∧
    (h1.cutHead found size).hole split = 1 := by
  have inside := ok.framed.within (b := found) (by simp)
  have high := ok.framed.high
  have short := ok.framed.short
  have same {a n : Nat} (near : ∀ y, a ≤ y → y < a + n →
        span split (split + 8) y ∨ span (split + 24 + rest) (split + 24 + rest + 8) y) :
      load (h1.cutHead found size).mem a n = load (h.cutTail split rest).mem a n :=
    (cutHead_writes.load fun y lo hi => (ok.cut_tags place sum room (near y lo hi)).2).trans
      (w.load fun y lo hi => (ok.cut_tags place sum room (near y lo hi)).1)
  refine ⟨cutHead_size (by omega), cutHead_foot (by omega), ?_, ?_, ?_⟩
  · exact (same fun y lo hi => .inl ⟨by omega, by omega⟩).trans (cutTail_size (by omega))
  · exact (same fun y lo hi => .inr ⟨by omega, by omega⟩).trans (cutTail_foot (by omega))
  · exact (same fun y lo hi => .inl ⟨by omega, by omega⟩).trans cutTail_hole

theorem Ok.cut_framed : (h1.cutHead found size).Framed (front ++ [found, split] ++ back) ∧
      ∀ b ∈ front ++ back, Tags h (h1.cutHead found size) b := by
  obtain ⟨begins, ends⟩ := ok.framed.around
  obtain ⟨foundSize, foundFoot, splitSize, splitFoot, _⟩ := ok.cut_fields place sum room w
  have writes := ok.cut_writes place sum room w
  have framed := ok.framed
  rw [append_cons] at framed
  refine framed.reblock writes begins ends ⟨rfl, ?_, ?_⟩ fun b hb => ?_
  · simp only [block, foundSize, Region.stop]
    omega
  · simp only [Stacked, block, splitSize, Region.stop, map_nil]
    omega
  simp only [mem_cons, not_mem_nil, or_false] at hb
  rcases hb with rfl | rfl
  · rw [getFoot, foundSize, foundFoot]
  · rw [getFoot, splitSize, splitFoot]

end

/-- The heap after the cut. -/
theorem Ok.cut_carved (free : h.hole found ≠ 0)
    (w : Writes (links fun x => h.holes (front ++ found :: back) [] x ∨ x = split) (h.cutTail split rest) h1)
    (binned : h1.Binned (fun x => h.holes (front ++ found :: back) [] x ∨ x = split)
      (update h.size split rest)) :
    Carved h (h1.cutHead found size) (front ++ found :: back) (front ++ [found, split] ++ back) found size := by
  obtain ⟨foundSize, _, splitSize, _, splitHole⟩ := ok.cut_fields place sum room w
  obtain ⟨framed, tags⟩ := ok.cut_framed place sum room w
  have others (x : Nat) (other : x ≠ found) : x ∈ front ++ back ↔ x ∈ front ++ found :: back :=
    (mem_others ok.framed.nodup).trans (and_iff_left other)
  refine ⟨(ok.cut_writes place sum room w).region, framed, ?_, by simp, foundSize.ge, cutHead_hole, fun x hx other => ?_⟩
  · refine (binned.frame cutHead_writes rfl fun x a hx near inner => ?_).congr (fun x => ?_) fun x hx => ?_
    · rcases hx with hx | rfl
      · simp only [span] at near inner
        by_cases same : x = found
        · omega
        · have := ok.framed.apart (c := found) hx.1 (by simp) same
          omega
      · simp only [span] at near inner
        omega
    · by_cases first : x = found
      · subst first
        simp [holes, free]
      by_cases second : x = split
      · subst second
        simp [splitHole]
      have same : x ∈ front ++ [found, split] ++ back ↔ x ∈ front ++ back := by simp [first, second]
      simp only [second, first, or_false, false_or, same]
      constructor
      · rintro ⟨hx, _, hole⟩
        have inside := (others x first).mpr hx
        exact ⟨inside, by rwa [(tags x inside).hole]⟩
      · rintro ⟨hx, hole⟩
        rw [(tags x hx).hole] at hole
        exact ⟨(others x first).mp hx, by simp, hole⟩
    · by_cases first : x = found
      · subst first
        rw [update_self, update_of_ne (by omega)]
      rw [update_of_ne first]
      rcases hx with hx | rfl
      · have inside := (others x first).mpr hx.1
        have second : x ≠ split := by
          rintro rfl
          have := ok.framed.apart (c := found) hx.1 (by simp) first
          omega
        rw [update_of_ne second, (tags x inside).size]
      · rw [update_self, splitSize]
  · have inside := (others x other).mpr hx
    refine ⟨?_, tags x inside⟩
    simp only [mem_append] at inside ⊢
    exact inside.imp_left .inl

end

section
variable (ok : h.Ok blocks []) (member : found ∈ blocks) (free : h.hole found ≠ 0)
include ok member free

/-- A block that is large enough is cut in two. -/
theorem Ok.split (large : h.size found - size > 36) : ∃ h2 blocks', h.splitNode found size = some h2 ∧
      Carved h (h2.setHole found 0) blocks blocks' found size := by
  obtain ⟨split, place⟩ : ∃ split, split = found + 32 + size := ⟨_, rfl⟩
  obtain ⟨rest, restEq⟩ : ∃ rest, rest = h.size found - size - 32 := ⟨_, rfl⟩
  have inside := ok.framed.within member
  have low := ok.framed.low
  have high := ok.framed.high
  have short := ok.framed.short
  have apart (x : Nat) (hx : x ∈ blocks) : x = found ∨ x + 32 ≤ found ∨ found + 32 + h.size found ≤ x := by
    by_cases same : x = found
    · exact .inl same
    · have := ok.framed.apart hx member same
      omega
  have outer : split ∉ blocks := by
    intro hx
    have := apart split hx
    omega
  have sizes (x : Nat) (hx : x ∈ blocks) : (h.cutTail split rest).size x = h.size x := by
    refine cutTail_writes.load fun a _ _ near => ?_
    simp only [span] at near
    have := apart x hx
    omega
  have keys (x : Nat) (hx : x ∈ blocks) : update h.size split rest x = h.size x :=
    update_of_ne (ne_of_mem_of_not_mem hx outer) _ _
  have binned : (h.cutTail split rest).Binned (h.holes blocks []) (update h.size split rest) := by
    refine (ok.binned.frame cutTail_writes rfl fun x a hx near inner => ?_).congr (fun _ => Iff.rfl)
      fun x hx => keys x hx.1
    simp only [span] at near inner
    have := apart x hx.1
    omega
  have addable : (h.cutTail split rest).Addable (h.holes blocks []) split := by
    constructor
    · exact ⟨low, by show h.start ≤ _; omega, by show _ ≤ h.stop; omega, by show h.stop < _; omega⟩
    · intro x hx
      have := apart x hx.1
      omega
  obtain ⟨h1, call, binned1, writes⟩ := binned.addNode addable (by
    rintro x (hx | rfl)
    · rw [sizes x hx.1, keys x hx.1]
    · rw [update_self, cutTail_size (by omega)])
  rw [update_self] at call
  have run := splitNode_eq large (show h.size found < 2 ^ 32 by omega)
  rw [← place, ← restEq, call, map_some] at run
  obtain ⟨h2, run, cut⟩ := map_eq_some_iff.mp run
  obtain ⟨front, back, rfl⟩ := append_of_mem member
  have carved := ok.cut_carved place (by omega) (by omega) free writes binned1
  rw [← cut] at carved
  exact ⟨h2, _, run, carved⟩

theorem Ok.whole (fits : size ≤ h.size found) : Carved h (h.setHole found 0) blocks blocks found size := by
  obtain ⟨framed, tags⟩ := ok.framed.setHole member 0
  refine ⟨rfl, framed, ?_, member, by rwa [size_setHole], hole_setHole (by decide), fun x hx other => ⟨hx, tags x hx other⟩⟩
  refine (ok.binned.frame setHole_writes rfl fun x a hx near inside => ?_).congr (fun x => ?_) fun x hx => ?_
  · exact ok.framed.links_tags member (.inl ⟨inside.1, by have := inside.2; omega⟩) ⟨x, hx.1, near⟩
  · refine and_congr_right fun hx => ?_
    by_cases same : x = found
    · subst same
      simp [free]
    · rw [(tags x hx same).hole]
      simp [same]
  · by_cases same : x = found
    · rw [same, update_self]
    · rw [update_of_ne same, (tags x hx.1 same).size]

theorem Ok.carve (fits : size ≤ h.size found) : ∃ h2 blocks', h.splitNode found size = some h2 ∧
      Carved h (h2.setHole found 0) blocks blocks' found size := by
  by_cases large : h.size found - size > 36
  · exact ok.split member free large
  · exact ⟨h, blocks, if_neg large, ok.whole member free fits⟩

end

/-! ## The call -/

/-- The block leaves its bin. -/
theorem Carved.remove {blocks' : List Nat} (carved : Carved h h1 blocks blocks' found size) :
    ∃ h', h1.removeNode (getBinIndex (h.size found)) found = some h' ∧ h'.Ok blocks' [] ∧ h'.region = h.region ∧
      ∀ b ∈ blocks', Tags h1 h' b := by
  obtain ⟨h', call, binned, writes⟩ := carved.binned.removeNode ⟨carved.member, .inl rfl⟩
  rw [update_self] at call
  obtain ⟨framed, tags⟩ := carved.framed.relink (writes.mono (links_mono fun _ => And.left))
  refine ⟨h', call, ⟨framed, binned.congr (fun x => ?_) fun x hx => ?_⟩, writes.region.trans carved.region, tags⟩
  · constructor
    · rintro ⟨⟨hx, eq | hole⟩, other⟩
      · exact absurd eq other
      · exact ⟨hx, by simp, by rwa [(tags x hx).hole]⟩
    · rintro ⟨hx, _, hole⟩
      rw [(tags x hx).hole] at hole
      exact ⟨⟨hx, .inr hole⟩, fun eq => hole (eq ▸ carved.marked)⟩
  · rw [update_of_ne hx.2, (tags x hx.1.1).size]

/-- The payload of a block that is no hole can be written. -/
theorem Ok.scribble (ok : h.Ok blocks []) (member : b ∈ blocks) (lent : h.hole b = 0)
    (w : Writes (span (b + 8) (b + 24 + h.size b)) h h') (bins : h'.bins = h.bins) :
    h'.Ok blocks [] ∧ ∀ x ∈ blocks, Tags h h' x := by
  have tags (x : Nat) (hx : x ∈ blocks) : Tags h h' x := by
    refine w.tags fun a tag near => ?_
    simp only [Heap.tags, span, getFoot] at tag near
    by_cases same : x = b
    · subst same
      omega
    · have := ok.framed.apart hx member same
      omega
  have framed : h'.Framed blocks := by
    refine ok.framed.same w (fun a behind near => ?_) (fun b hb => (tags b hb).size) fun b hb => (tags b hb).foot
    have := ok.framed.within member
    simp only [span] at near
    omega
  refine ⟨⟨framed, (ok.binned.frame w bins fun x a hx near inside => ?_).congr (fun x => ?_)
    fun x hx => (tags x hx.1).size⟩, tags⟩
  · have := ok.framed.apart hx.1 member fun eq => hx.2.2 (eq ▸ lent)
    simp only [span] at near inside
    omega
  · exact and_congr_right fun hx => by rw [(tags x hx).hole]

/-- `do_heap_alloc` ends. What it gives away is a block that was a hole or part of one, and no
block that was given away before is touched. -/
theorem Ok.doHeapAlloc (ok : h.Ok blocks []) (size : Nat) : ∃ p h' blocks', h.doHeapAlloc size = some (p, h') ∧
    h'.Ok blocks' [] ∧ h'.region = h.region ∧ (∀ x ∈ blocks, h.hole x = 0 → x ∈ blocks' ∧ Tags h h' x) ∧ (p ≠ 0 →
      ∃ b ∈ blocks', p = b + 8 ∧ h'.hole b = 0 ∧ size ≤ h'.size b ∧ h.hole b ≠ 0) := by
  obtain ⟨index, found, search, good⟩ : ∃ index found, h.findFit size 32 (getBinIndex size) = some (index, found) ∧ _ :=
    ok.findFit (getBinIndex_lt size) (Nat.le_add_left 32 _)
  simp only [Heap.doHeapAlloc, search, bind_some]
  by_cases real : found = 0
  · rw [if_pos real]
    exact ⟨0, h, blocks, rfl, ok, rfl, fun x hx _ => ⟨hx, .refl⟩, fun ne => absurd rfl ne⟩
  obtain ⟨member, free, fits, rfl⟩ := good real
  obtain ⟨h2, blocks', split, carved⟩ := ok.carve member free fits
  obtain ⟨h3, remove, ok3, region, tags⟩ := carved.remove
  have kept (x : Nat) (hx : x ∈ blocks) (lent : h.hole x = 0) : x ∈ blocks' ∧ Tags h h3 x := by
    obtain ⟨hx, same⟩ := carved.kept x hx fun eq => free (eq ▸ lent)
    exact ⟨hx, same.trans (tags x hx)⟩
  have marked : h3.hole found = 0 := (tags found carved.member).hole.trans carved.marked
  simp only [if_neg real, split, bind_some, remove, map_some, contract, ite_self]
  by_cases wild : h3.size h3.getWilderness < minWilderness ∧ h3.expand 0x1000 = 0
  · rw [if_pos wild]
    exact ⟨0, h3, blocks', rfl, ok3, region, kept, fun ne => absurd rfl ne⟩
  rw [if_neg wild]
  have writes : Writes (span (found + 8) (found + 24 + h3.size found)) h3
      ((h3.setPrev found 0).setNext found 0) := by
    refine (writes_store.mono ?_).trans (writes_store.mono ?_)
    all_goals
      intro a near
      simp only [span] at near ⊢
      omega
  obtain ⟨ok', tags'⟩ := ok3.scribble carved.member marked writes rfl
  refine ⟨found + 8, _, blocks', rfl, ok', region, fun x hx lent => ?_, fun _ => ⟨found, carved.member, rfl, ?_, ?_, free⟩⟩
  · obtain ⟨hx, same⟩ := kept x hx lent
    exact ⟨hx, same.trans (tags' x hx)⟩
  · exact (tags' found carved.member).hole.trans marked
  · rw [(tags' found carved.member).size, (tags found carved.member).size]
    exact carved.room

end Heap
end SlotFs
