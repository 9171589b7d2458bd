import SlotFs.HeapBins
import SlotFs.Lib.Regions

/-!
# The blocks of the heap

The blocks lie one behind the other from the start of the region to its end, and the footer of
each one points back to its header. The calls write tags of blocks and links of nodes. What is
written inside of some neighbouring blocks leaves the tags of the others as they are, and links
are never tags.
-/

namespace SlotFs
open Bytes Region List Option

variable {a head v : Nat}

namespace Heap

/-- Header, payload and footer. -/
def block (h : Heap) (b : Nat) : Region := ⟨b, 32 + h.size b⟩

/-- The region is tiled by `blocks`, and the word behind it is not the `hole` of a block. -/
structure Framed (h : Heap) (blocks : List Nat) : Prop where
  low : 0 < h.start
  high : h.stop + 4 ≤ 2 ^ 64
  short : h.stop < h.start + 2 ^ 32
  past : h.hole h.stop = 0
  tiles : Stacked h.start (blocks.map h.block) h.stop
  foot : ∀ b ∈ blocks, h.header (h.getFoot b) = b

variable {h h1 h' : Heap} {places : Nat → Prop} {blocks front back : List Nat} {b c lo hi : Nat}

section
variable (f : h.Framed blocks)
include f

theorem Framed.within (member : b ∈ blocks) : h.start ≤ b ∧ b + 32 + h.size b ≤ h.stop := by
  have inside := f.tiles.within (mem_map_of_mem member)
  simp only [block, Region.stop] at inside
  omega

theorem Framed.apart (hb : b ∈ blocks) (hc : c ∈ blocks) (other : b ≠ c) :
    b + 32 + h.size b ≤ c ∨ c + 32 + h.size c ≤ b := by
  have pairs := pairwise_map.mp f.tiles.apart
  have symm : Std.Symm fun b c => Apart (h.block b) (h.block c) := ⟨fun _ _ => .symm⟩
  have := pairs.forall hb hc other
  simp only [Apart, block, Region.stop] at this
  omega

theorem Framed.nodup : blocks.Nodup := by
  refine (pairwise_map.mp f.tiles.apart).imp fun {b c} apart same => ?_
  subst same
  simp only [Apart, block, Region.stop] at apart
  omega

end

/-! ## Tags -/

/-- The header and the footer of a block say the same. -/
structure Tags (h h' : Heap) (b : Nat) : Prop where
  hole : h'.hole b = h.hole b
  size : h'.size b = h.size b
  foot : h'.header (h.getFoot b) = h.header (h.getFoot b)

theorem Tags.refl : Tags h h b := ⟨rfl, rfl, rfl⟩

theorem Tags.trans (t : Tags h h1 b) (t' : Tags h1 h' b) : Tags h h' b where
  hole := t'.hole.trans t.hole
  size := t'.size.trans t.size
  foot := by
    have := t'.foot
    rw [getFoot, t.size] at this
    exact this.trans t.foot

/-- The places of the tags of a block. -/
def tags (h : Heap) (b : Nat) (a : Nat) : Prop := span b (b + 8) a ∨ span (h.getFoot b) (h.getFoot b + 8) a

theorem Writes.tags (w : Writes places h h') (out : ∀ a, h.tags b a → ¬ places a) : Tags h h' b where
  hole := w.load fun a lo hi => out a (.inl ⟨lo, by omega⟩)
  size := w.load fun a lo hi => out a (.inl ⟨by omega, by omega⟩)
  foot := w.load fun a lo hi => out a (.inr ⟨lo, hi⟩)

theorem Framed.links_tags (f : h.Framed blocks) (hb : b ∈ blocks) (tag : h.tags b a) : ¬ links (· ∈ blocks) a := by
  rintro ⟨x, hx, near⟩
  simp only [Heap.tags, span, getFoot] at tag near
  by_cases same : x = b
  · subst same
    omega
  · have := f.apart hx hb same
    omega

theorem span_tags (tag : h.tags b a) (apart : b + 32 + h.size b ≤ lo ∨ hi ≤ b) : ¬ span lo hi a := by
  intro near
  simp only [Heap.tags, span, getFoot] at tag near
  omega

/-! ## Writing to some of the blocks -/

theorem map_block_congr {l : List Nat} (same : ∀ b ∈ l, h'.size b = h.size b) : l.map h'.block = l.map h.block :=
  map_congr_left fun b member => by rw [block, block, same b member]

/-- The blocks from `lo` to `hi` are cut anew, and links of the other blocks are written. -/
theorem Framed.reblock {old new : List Nat} (f : h.Framed (front ++ old ++ back))
    (w : Writes (fun a => span lo hi a ∨ links (· ∈ front ++ back) a) h h')
    (begins : Stacked h.start (front.map h.block) lo) (ends : Stacked hi (back.map h.block) h.stop)
    (tiles : Stacked lo (new.map h'.block) hi) (foot : ∀ b ∈ new, h'.header (h'.getFoot b) = b) :
    h'.Framed (front ++ new ++ back) ∧ ∀ b ∈ front ++ back, Tags h h' b := by
  have kept (b : Nat) (hb : b ∈ front ++ back) : b ∈ front ++ old ++ back := by
    simp only [mem_append] at hb ⊢
    tauto
  have tags (b : Nat) (hb : b ∈ front ++ back) : Tags h h' b := by
    refine w.tags fun a tag => ?_
    rintro (near | ⟨x, hx, near⟩)
    · refine span_tags tag ?_ near
      rcases mem_append.mp hb with hb | hb
      · have := begins.within (mem_map_of_mem hb)
        simp only [block, Region.stop] at this
        omega
      · have := ends.within (mem_map_of_mem hb)
        simp only [block, Region.stop] at this
        omega
    · exact f.links_tags (kept b hb) tag ⟨x, kept x hx, near⟩
  refine ⟨⟨?_, ?_, ?_, ?_, ?_, ?_⟩, tags⟩
  · rw [w.start]
    exact f.low
  · rw [w.stop]
    exact f.high
  · rw [w.start, w.stop]
    exact f.short
  · rw [w.stop]
    refine (w.load fun a lo hi => ?_).trans f.past
    rintro (near | ⟨x, hx, near⟩)
    · have := ends.le
      simp only [span] at near
      omega
    · have := f.within (kept x hx)
      simp only [span] at near
      omega
  · have same {l : List Nat} (sub : ∀ b ∈ l, b ∈ front ++ back) : l.map h'.block = l.map h.block :=
      map_block_congr fun b hb => (tags b (sub b hb)).size
    rw [map_append, map_append, w.start, w.stop, same fun b hb => mem_append_left _ hb,
      same fun b hb => mem_append_right _ hb]
    exact stacked_append.mpr ⟨hi, stacked_append.mpr ⟨lo, begins, tiles⟩, ends⟩
  intro b hb
  by_cases own : b ∈ new
  · exact foot b own
  have hb : b ∈ front ++ back := by
    simp only [mem_append] at hb ⊢
    tauto
  rw [getFoot, (tags b hb).size]
  exact (tags b hb).foot.trans (f.foot b (kept b hb))

theorem Framed.around (f : h.Framed (front ++ b :: back)) : Stacked h.start (front.map h.block) b ∧
    Stacked (b + (32 + h.size b)) (back.map h.block) h.stop := by
  have tiles := f.tiles
  rw [map_append] at tiles
  obtain ⟨_, begins, rfl, ends⟩ := stacked_append.mp tiles
  exact ⟨begins, ends⟩

/-- What is written to no tag does not matter to the frame. -/
theorem Framed.same (f : h.Framed blocks) (w : Writes places h h') (past : ∀ a, h.stop ≤ a → ¬ places a)
    (size : ∀ b ∈ blocks, h'.size b = h.size b)
    (foot : ∀ b ∈ blocks, h'.header (h.getFoot b) = h.header (h.getFoot b)) : h'.Framed blocks where
  low := by
    rw [w.start]
    exact f.low
  high := by
    rw [w.stop]
    exact f.high
  short := by
    rw [w.start, w.stop]
    exact f.short
  past := by
    rw [w.stop]
    exact (w.load fun a lo _ => past a lo).trans f.past
  tiles := by
    rw [w.start, w.stop, map_block_congr size]
    exact f.tiles
  foot b hb := by
    rw [getFoot, size b hb]
    exact (foot b hb).trans (f.foot b hb)

/-- Links are not part of the frame. -/
theorem Framed.relink (f : h.Framed blocks) (w : Writes (links (· ∈ blocks)) h h') :
    h'.Framed blocks ∧ ∀ b ∈ blocks, Tags h h' b := by
  have tags (b : Nat) (hb : b ∈ blocks) : Tags h h' b := w.tags fun a tag => f.links_tags hb tag
  refine ⟨f.same w ?_ (fun b hb => (tags b hb).size) fun b hb => (tags b hb).foot, tags⟩
  rintro a behind ⟨x, hx, near⟩
  have := f.within hx
  simp only [span] at near
  omega

/-! ## The heap between two calls -/

/-- The blocks that are marked as holes, those of `limbo` apart. -/
def holes (h : Heap) (blocks limbo : List Nat) (b : Nat) : Prop := b ∈ blocks ∧ b ∉ limbo ∧ h.hole b ≠ 0

/-- The blocks of `limbo` are in no bin, whatever their headers say. The others are in the bin of
their size if they are holes. -/
structure Ok (h : Heap) (blocks limbo : List Nat) : Prop where
  framed : h.Framed blocks
  binned : h.Binned (h.holes blocks limbo) h.size

variable {limbo : List Nat} {node : Nat}

/-- `remove_node` takes a hole out of its bin. -/
theorem Ok.remove (ok : h.Ok blocks limbo) (member : node ∈ blocks) (listed : node ∉ limbo)
    (free : h.hole node ≠ 0) : ∃ h', h.removeNode (getBinIndex (h.size node)) node = some h' ∧
      h'.Ok blocks (node :: limbo) ∧ h'.region = h.region ∧ ∀ b ∈ blocks, Tags h h' b := by
  obtain ⟨h', call, binned, writes⟩ := ok.binned.removeNode ⟨member, listed, free⟩
  obtain ⟨framed, tags⟩ := ok.framed.relink (writes.mono (links_mono fun _ => And.left))
  refine ⟨h', call, ⟨framed, binned.congr (fun x => ?_) fun x hx => (tags x hx.1.1).size⟩,
    writes.region, tags⟩
  constructor
  · rintro ⟨⟨hx, out, hole⟩, other⟩
    refine ⟨hx, by simp [out, other], ?_⟩
    rwa [(tags x hx).hole]
  rintro ⟨hx, out, hole⟩
  rw [(tags x hx).hole] at hole
  simp only [mem_cons, not_or] at out
  exact ⟨⟨hx, out.2, hole⟩, out.1⟩

section
variable {v x foot : Nat}

theorem size_setSize (fits : v < 2 ^ 32) : (h.setSize node v).size node = v := load_store fits

theorem size_setSize_apart (apart : x + 4 ≤ node ∨ node + 4 ≤ x) : (h.setSize node v).size x = h.size x :=
  load_store_apart (by omega)

theorem size_setHeader (apart : x + 8 ≤ foot ∨ foot + 8 ≤ x + 4) : (h.setHeader foot v).size x = h.size x :=
  load_store_apart (by omega)

theorem size_setHole_apart (apart : x + 8 ≤ node ∨ node ≤ x) : (h.setHole node v).size x = h.size x :=
  load_store_apart (by omega)

theorem hole_setHeader (apart : node + 4 ≤ foot ∨ foot + 8 ≤ node) :
    (h.setHeader foot v).hole node = h.hole node :=
  load_store_apart apart

theorem header_setHole (apart : foot + 8 ≤ node ∨ node + 4 ≤ foot) :
    (h.setHole node v).header foot = h.header foot :=
  load_store_apart apart

theorem header_setHeader (fits : v < 2 ^ 64) : (h.setHeader foot v).header foot = v := load_store fits

theorem writes_setSize (inside : ∀ a, span (node + 4) (node + 8) a → places a) :
    Writes places h (h.setSize node v) := writes_store.mono inside

theorem writes_setHeader (inside : ∀ a, span foot (foot + 8) a → places a) :
    Writes places h (h.setHeader foot v) := writes_store.mono inside

theorem writes_setHole (inside : ∀ a, span node (node + 4) a → places a) :
    Writes places h (h.setHole node v) := writes_store.mono inside

end

theorem setHole_writes : Writes (span node (node + 4)) h (h.setHole node v) := writes_store

theorem size_setHole : (h.setHole node v).size node = h.size node :=
  load_store_apart (.inr le_rfl)

theorem hole_setHole (fits : v < 2 ^ 32) : (h.setHole node v).hole node = v := load_store fits

/-- The mark of a block is no part of the frame. -/
theorem Framed.setHole (f : h.Framed blocks) (member : node ∈ blocks) (v : Nat) :
    (h.setHole node v).Framed blocks ∧ ∀ b ∈ blocks, b ≠ node → Tags h (h.setHole node v) b := by
  have own := f.within member
  have apart (b : Nat) (hb : b ∈ blocks) (other : b ≠ node) : b + 32 + h.size b ≤ node ∨ node + 4 ≤ b := by
    have := f.apart hb member other
    omega
  refine ⟨f.same setHole_writes (fun a behind near => ?_) (fun b hb => ?_) fun b hb => ?_, fun b hb other => ?_⟩
  · simp only [span] at near
    omega
  · by_cases same : b = node
    · rw [same, size_setHole]
    · exact size_setHole_apart (by have := apart b hb same; omega)
  · refine header_setHole ?_
    rw [getFoot]
    by_cases same : b = node
    · omega
    · have := apart b hb same
      omega
  · exact setHole_writes.tags fun a tag => span_tags tag (apart b hb other)

section
variable (ok : h.Ok blocks [node]) (member : node ∈ blocks)
include ok member

/-- The mark of a block in limbo does not matter. -/
theorem Ok.mark (v : Nat) :
    (h.setHole node v).Ok blocks [node] ∧ ∀ b ∈ blocks, b ≠ node → Tags h (h.setHole node v) b := by
  obtain ⟨framed, tags⟩ := ok.framed.setHole member v
  have other {x : Nat} (out : x ∉ [node]) : x ≠ node := by simpa using out
  refine ⟨⟨framed, (ok.binned.frame setHole_writes rfl fun x a hx near inside => ?_).congr (fun x => ?_)
    fun x hx => (tags x hx.1 (other hx.2.1)).size⟩, tags⟩
  · exact ok.framed.links_tags member (.inl ⟨inside.1, by have := inside.2; omega⟩) ⟨x, hx.1, near⟩
  · refine and_congr_right fun hx => and_congr_right fun out => ?_
    rw [(tags x hx (other out)).hole]

/-- A hole in limbo is put into its bin. -/
theorem Ok.add (marked : h.hole node ≠ 0) :
    ∃ h', h.addNode (getBinIndex (h.size node)) node = some h' ∧ h'.Ok blocks [] ∧ h'.region = h.region ∧
      ∀ b ∈ blocks, Tags h h' b := by
  have addable : h.Addable (h.holes blocks [node]) node := by
    constructor
    · have := ok.framed.within member
      have := ok.framed.low
      have := ok.framed.high
      omega
    · intro x hx
      have := ok.framed.apart hx.1 member (by simpa using hx.2.1)
      omega
  obtain ⟨h', call, binned, writes⟩ := ok.binned.addNode addable fun _ _ => rfl
  have inside (x : Nat) (hx : h.holes blocks [node] x ∨ x = node) : x ∈ blocks :=
    hx.elim And.left fun eq => eq ▸ member
  obtain ⟨framed, tags⟩ := ok.framed.relink (writes.mono (links_mono inside))
  refine ⟨h', call, ⟨framed, binned.congr (fun x => ?_) fun x hx => (tags x (inside x hx)).size⟩,
    writes.region, tags⟩
  by_cases same : x = node
  · subst same
    simp [holes, member, (tags x member).hole, marked]
  · simp only [holes, mem_singleton, same, not_false_eq_true, true_and, or_false, not_mem_nil]
    exact and_congr_right fun hx => by rw [(tags x hx).hole]

/-- A block in limbo becomes a hole. -/
theorem Ok.giveBack : ∃ h', h.giveBack node = some h' ∧ h'.Ok blocks [] ∧ h'.region = h.region ∧
      ∀ b ∈ blocks, b ≠ node → Tags h h' b := by
  obtain ⟨ok1, tags1⟩ := ok.mark member 1
  obtain ⟨h', call, ok', region, tags'⟩ := ok1.add member (by rw [hole_setHole] <;> decide)
  exact ⟨h', call, ok', region, fun b hb other => (tags1 b hb other).trans (tags' b hb)⟩

end

/-! ## Merging -/

/-- Two neighbours in limbo become one block. -/
theorem Ok.merge (ok : h.Ok (front ++ a :: b :: back) limbo) (both : ∀ x, x ∈ limbo ↔ x = a ∨ x = b)
    (w : Writes (span a (b + (32 + h.size b))) h h') (bins : h'.bins = h.bins)
    (size : h'.size a = h.size a + (32 + h.size b)) (foot : h'.header (h'.getFoot a) = a) :
    h'.Ok (front ++ a :: back) [a] ∧ ∀ x ∈ front ++ back, Tags h h' x := by
  have framed := ok.framed
  have once := framed.nodup
  obtain ⟨begins, behind⟩ := framed.around
  obtain ⟨next, ends⟩ := behind
  have parts : front ++ a :: b :: back = front ++ [a, b] ++ back := by simp
  rw [parts] at framed
  have tiles : Stacked a ([a].map h'.block) (b + (32 + h.size b)) := by
    refine ⟨rfl, ?_⟩
    simp only [block, Region.stop] at next ⊢
    rw [size]
    exact (by omega : a + (32 + (h.size a + (32 + h.size b))) = b + (32 + h.size b))
  have own : ∀ x ∈ [a], h'.header (h'.getFoot x) = x := by
    intro x hx
    obtain rfl := mem_singleton.mp hx
    exact foot
  obtain ⟨framed', tags⟩ := framed.reblock (w.mono fun _ => .inl) begins ends tiles own
  have once' : (front ++ a :: back).Nodup := by simpa using framed'.nodup
  have rest (x : Nat) : x ∈ front ++ a :: b :: back ∧ x ∉ limbo ↔ x ∈ front ++ back := by
    have inner : x ∈ front ++ a :: back ↔ x ∈ front ++ a :: b :: back ∧ x ≠ b := by
      rw [append_cons] at once
      rw [append_cons, append_cons front a (b :: back)]
      exact mem_others once
    rw [mem_others once', inner, both, not_or, and_assoc, and_comm (a := x ≠ b)]
  refine ⟨⟨by simpa using framed', (ok.binned.frame w bins fun x y hx near inside => ?_).congr (fun x => ?_)
    fun x hx => (tags x ((rest x).mp ⟨hx.1, hx.2.1⟩)).size⟩, tags⟩
  · have out := hx.2.1
    rw [both, not_or] at out
    have := ok.framed.apart hx.1 (c := a) (by simp) out.1
    have := ok.framed.apart hx.1 (c := b) (by simp) out.2
    simp only [block, span] at next near inside
    omega
  · rw [holes, holes, ← and_assoc, rest, ← and_assoc, mem_singleton, ← mem_others once']
    exact and_congr_right fun hx => by rw [(tags x hx).hole]

theorem Framed.behind (f : h.Framed (front ++ b :: back)) : b + 32 + h.size b = back.head?.getD h.stop := by
  have ends := f.around.2
  cases back with
  | nil =>
    have : b + (32 + h.size b) = h.stop := ends
    exact (Nat.add_assoc ..).trans this
  | cons c back =>
    have : c = b + (32 + h.size b) := ends.1
    exact (Nat.add_assoc ..).trans this.symm

/-- Every block but `head` that is no hole stays as it is, and does not become `head'`. -/
def Keeps (h h' : Heap) (blocks blocks' : List Nat) (head head' : Nat) : Prop :=
  ∀ x ∈ blocks, x ≠ head → h.hole x = 0 → x ∈ blocks' ∧ x ≠ head' ∧ Tags h h' x

theorem Keeps.trans {blocks1 blocks' : List Nat} {head1 head' : Nat} (k : h.Keeps h1 blocks blocks1 head head1)
    (k' : h1.Keeps h' blocks1 blocks' head1 head') : h.Keeps h' blocks blocks' head head' := by
  intro x hx other hole
  obtain ⟨hx, other, tags⟩ := k x hx other hole
  obtain ⟨hx, other, tags'⟩ := k' x hx other (tags.hole.trans hole)
  exact ⟨hx, other, tags.trans tags'⟩

theorem Framed.pair (f : h.Framed (front ++ a :: b :: back)) : b = a + 32 + h.size a ∧
    h.size a + (32 + h.size b) < 2 ^ 32 ∧ a < 2 ^ 64 := by
  have next : a + 32 + h.size a = b := f.behind
  have := f.within (b := a) (by simp)
  have := f.within (b := b) (by simp)
  have := f.short
  have := f.high
  omega

/-- A hole in front takes the block in. -/
theorem Ok.mergePrev {prev : Nat} (ok : h.Ok (front ++ prev :: head :: back) [head]) :
    ∃ head' h' front', h.mergePrev prev head = some (head', h') ∧ h'.Ok (front' ++ head' :: back) [head'] ∧
      h'.region = h.region ∧ h.Keeps h' (front ++ prev :: head :: back) (front' ++ head' :: back) head head' := by
  have once := ok.framed.nodup
  have other : prev ≠ head := by
    have := ok.framed.pair
    omega
  rw [Heap.mergePrev]
  by_cases free : h.hole prev ≠ 0
  · obtain ⟨h1, call, ok1, region, tags⟩ := ok.remove (show prev ∈ _ by simp) (by simpa using other) free
    rw [if_pos free, call, map_some]
    obtain ⟨next, small, low⟩ := ok1.framed.pair
    obtain ⟨total, totalEq⟩ : ∃ total, total = h1.size prev + (32 + h1.size head) := ⟨_, rfl⟩
    obtain ⟨foot, footEq⟩ : ∃ foot, foot = head + 24 + h1.size head := ⟨_, rfl⟩
    have headFoot : (h1.setSize prev total).getFoot head = foot := by
      rw [getFoot, size_setSize_apart (by omega), footEq]
    refine ⟨prev, _, front, rfl, ?_⟩
    rw [← totalEq, headFoot]
    have writes : Writes (span prev (head + (32 + h1.size head))) h1
        ((h1.setSize prev total).setHeader foot prev) := by
      refine (writes_setSize fun a near => ?_).trans (writes_setHeader fun a near => ?_)
      all_goals
        simp only [span] at near ⊢
        omega
    have mergedSize : ((h1.setSize prev total).setHeader foot prev).size prev =
        h1.size prev + (32 + h1.size head) := by
      rw [size_setHeader (by omega), size_setSize (by omega), totalEq]
    have mergedFoot : ((h1.setSize prev total).setHeader foot prev).getFoot prev = foot := by
      rw [getFoot, mergedSize]
      omega
    have link : ((h1.setSize prev total).setHeader foot prev).header foot = prev := header_setHeader low
    obtain ⟨merged, tags'⟩ := ok1.merge (by simp) writes rfl mergedSize (by rw [mergedFoot, link])
    refine ⟨merged, writes.region.trans region, fun x hx away hole => ?_⟩
    have notPrev : x ≠ prev := fun eq => free (eq ▸ hole)
    have inside : x ∈ front ++ back := by
      simpa only [mem_append, mem_cons, away, notPrev, false_or] using hx
    refine ⟨?_, notPrev, (tags x hx).trans (tags' x inside)⟩
    simp only [mem_append, mem_cons] at inside ⊢
    exact inside.imp_right .inr
  · rw [if_neg free]
    refine ⟨head, h, front ++ [prev], rfl, by simpa using ok, rfl, fun x hx away _ => ⟨?_, away, .refl⟩⟩
    simpa using hx

/-- A hole behind is taken in. Behind the last block there is none. -/
theorem Ok.mergeNext (ok : h.Ok (front ++ head :: back) [head]) :
    ∃ h' back', h.mergeNext head (back.head?.getD h.stop) = some h' ∧ h'.Ok (front ++ head :: back') [head] ∧
      h'.region = h.region ∧ h.Keeps h' (front ++ head :: back) (front ++ head :: back') head head := by
  by_cases free : h.hole (back.head?.getD h.stop) ≠ 0
  · rcases back with _ | ⟨next, back⟩
    · exact absurd ok.framed.past free
    have free : h.hole next ≠ 0 := free
    have other : next ≠ head := by
      have := ok.framed.pair
      omega
    obtain ⟨h1, call, ok1, region, tags⟩ := ok.remove (show next ∈ _ by simp) (by simpa using other) free
    obtain ⟨place, small, low⟩ := ok1.framed.pair
    obtain ⟨total, totalEq⟩ : ∃ total, total = h1.size head + (32 + h1.size next) := ⟨_, rfl⟩
    obtain ⟨foot, footEq⟩ : ∃ foot, foot = next + 24 + h1.size next := ⟨_, rfl⟩
    obtain ⟨h2, h₂Eq⟩ : ∃ h2, h2 = (((h1.setSize head total).setHeader foot 0).setSize next 0).setHole next 0 :=
      ⟨_, rfl⟩
    have nextFoot : (h1.setSize head total).getFoot next = foot := by
      rw [getFoot, size_setSize_apart (by omega), footEq]
    have headSize : h2.size head = total := by
      rw [h₂Eq, size_setHole_apart (by omega), size_setSize_apart (by omega), size_setHeader (by omega),
        size_setSize (by omega)]
    have headFoot : h2.getFoot head = foot := by
      rw [getFoot, headSize]
      omega
    have run : h.mergeNext head next = some (h2.setHeader foot head) := by
      simp only [Heap.mergeNext, if_pos free, call, map_some, ← totalEq, nextFoot, ← h₂Eq, headFoot]
    have writes : Writes (span head (next + (32 + h1.size next))) h1 (h2.setHeader foot head) := by
      rw [h₂Eq]
      refine ((((writes_setSize fun a near => ?_).trans (writes_setHeader fun a near => ?_)).trans
        (writes_setSize fun a near => ?_)).trans (writes_setHole fun a near => ?_)).trans
        (writes_setHeader fun a near => ?_)
      all_goals
        simp only [span] at near ⊢
        omega
    have mergedSize : (h2.setHeader foot head).size head = h1.size head + (32 + h1.size next) := by
      rw [size_setHeader (by omega), headSize, totalEq]
    have mergedFoot : (h2.setHeader foot head).header ((h2.setHeader foot head).getFoot head) = head := by
      rw [getFoot, mergedSize, ← totalEq, ← headSize, ← getFoot, headFoot, header_setHeader low]
    obtain ⟨merged, tags'⟩ := ok1.merge (by simp [or_comm]) writes (by rw [h₂Eq]; rfl) mergedSize mergedFoot
    refine ⟨_, back, run, merged, writes.region.trans region, fun x hx away hole => ?_⟩
    have inside : x ∈ front ++ back := by
      have notNext : x ≠ next := fun eq => free (eq ▸ hole)
      simpa only [mem_append, mem_cons, away, notNext, false_or] using hx
    refine ⟨?_, away, (tags x hx).trans (tags' x inside)⟩
    simp only [mem_append, mem_cons] at inside ⊢
    exact inside.imp_right .inr
  · rw [Heap.mergeNext, if_neg free]
    exact ⟨h, back, rfl, ok, rfl, fun x hx away _ => ⟨hx, away, .refl⟩⟩

theorem Ok.lend (ok : h.Ok blocks []) (lent : h.hole b = 0) : h.Ok blocks [b] := by
  refine ⟨ok.framed, ok.binned.congr (fun x => ?_) fun _ _ => rfl⟩
  refine and_congr_right fun _ => ?_
  simp only [not_mem_nil, not_false_eq_true, true_and, mem_singleton]
  constructor
  · intro hole
    exact ⟨fun eq => hole (eq ▸ lent), hole⟩
  · exact And.right

/-- `do_heap_free` makes a hole of the block, and of the holes next to it unless it is the first. -/
theorem Ok.doHeapFree (ok : h.Ok blocks []) (member : b ∈ blocks) (lent : h.hole b = 0) :
    ∃ h' blocks', h.doHeapFree (b + 8) = some h' ∧ h'.Ok blocks' [] ∧ h'.region = h.region ∧
      ∀ x ∈ blocks, x ≠ b → h.hole x = 0 → x ∈ blocks' ∧ Tags h h' x := by
  have limbo := ok.lend lent
  simp only [Heap.doHeapFree, Nat.add_sub_cancel]
  by_cases first : b = h.start
  · obtain ⟨h', call, ok', region, tags⟩ := limbo.giveBack member
    rw [if_pos first]
    exact ⟨h', blocks, call, ok', region, fun x hx other _ => ⟨hx, tags x hx other⟩⟩
  obtain ⟨front, back, rfl⟩ := append_of_mem member
  rcases eq_nil_or_concat front with rfl | ⟨front, prev, rfl⟩
  · exact absurd ok.framed.tiles.1 first
  have next : h.getFoot b + 8 = back.head?.getD h.stop := by
    rw [← ok.framed.behind, getFoot]
    omega
  rw [concat_append] at ok limbo ⊢
  obtain ⟨place, _, _⟩ := ok.framed.pair
  have foot : h.header (b - 8) = prev := by
    have := ok.framed.foot prev (by simp)
    rwa [getFoot, show prev + 24 + h.size prev = b - 8 by omega] at this
  obtain ⟨head1, h1, front1, call1, ok1, region1, keeps1⟩ := limbo.mergePrev
  obtain ⟨h2, back2, call2, ok2, region2, keeps2⟩ := ok1.mergeNext
  obtain ⟨h', call3, ok', region3, tags⟩ := ok2.giveBack (by simp)
  rw [(Prod.mk.inj region1).2] at call2
  rw [if_neg first, foot, call1, bind_some, next, call2, bind_some]
  refine ⟨h', _, call3, ok', region3.trans (region2.trans region1), fun x hx other hole => ?_⟩
  obtain ⟨hx, other, same⟩ := keeps1.trans keeps2 x hx other hole
  exact ⟨hx, same.trans (tags x hx other)⟩

end Heap
end SlotFs
