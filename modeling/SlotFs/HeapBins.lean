import SlotFs.Heap
import SlotFs.Lib.Dlist

/-!
# The bins of the heap

What `add_node` and `remove_node` do to the lists of free blocks, whatever else the blocks are.
A node is known by its place; its links are the 16 bytes behind the first 8. Both calls come to
an end and write to nothing but links of nodes.
-/

namespace SlotFs
open Bytes Chains Dlists List Option

variable {back front l : List Nat} {fuel : Nat} {nodes : Nat → Prop}

namespace Heap

/-! ## What is written -/

/-- `h'` is `h` with some of the bytes of `places` written, and perhaps other bins. -/
structure Writes (places : Nat → Prop) (h h' : Heap) : Prop where
  start : h'.start = h.start
  stop : h'.stop = h.stop
  mem : ∀ a, ¬ places a → h'.mem a = h.mem a

variable {h h1 h' : Heap} {places places' : Nat → Prop} {x a v node bin : Nat}

theorem Writes.trans (w : Writes places h h1) (w' : Writes places h1 h') : Writes places h h' where
  start := w'.start.trans w.start
  stop := w'.stop.trans w.stop
  mem a out := (w'.mem a out).trans (w.mem a out)

theorem Writes.mono (w : Writes places h h') (le : ∀ a, places a → places' a) : Writes places' h h' where
  start := w.start
  stop := w.stop
  mem a out := w.mem a fun inside => out (le a inside)

/-- The first place of the region and the one behind its last. -/
def region (h : Heap) : Nat × Nat := (h.start, h.stop)

theorem Writes.region (w : Writes places h h') : h'.region = h.region := by
  rw [Heap.region, w.start, w.stop, Heap.region]

/-- The bytes of a range. -/
def span (lo hi : Nat) (a : Nat) : Prop := lo ≤ a ∧ a < hi

theorem writes_store {n : Nat} : Writes (span a (a + n)) h { h with mem := store h.mem a n v } where
  start := rfl
  stop := rfl
  mem _ out := store_apart (by simp only [span] at out; omega)

theorem Writes.load (w : Writes places h h') {n : Nat} (out : ∀ b, a ≤ b → b < a + n → ¬ places b) :
    load h'.mem a n = load h.mem a n := load_congr fun b lo hi => w.mem b (out b lo hi)

/-- The links of some nodes. -/
def links (nodes : Nat → Prop) (a : Nat) : Prop := ∃ x, nodes x ∧ span (x + 8) (x + 24) a

theorem links_mono {nodes' : Nat → Prop} (le : ∀ x, nodes x → nodes' x) (a : Nat) (near : links nodes a) :
    links nodes' a := by
  obtain ⟨x, member, near⟩ := near
  exact ⟨x, le x member, near⟩

theorem writes_setNext (member : nodes a) : Writes (links nodes) h (h.setNext a v) :=
  writes_store.mono fun _ inside => ⟨a, member, inside.1, by have := inside.2; omega⟩

theorem writes_setPrev (member : nodes a) : Writes (links nodes) h (h.setPrev a v) :=
  writes_store.mono fun _ inside => ⟨a, member, by have := inside.1; omega, inside.2⟩

theorem writes_setBin : Writes places h (h.setBin bin v) := ⟨rfl, rfl, fun _ _ => rfl⟩

/-! ## Fields of two nodes -/

/-- Two nodes are one or do not meet. -/
def Spaced (x y : Nat) : Prop := x = y ∨ x + 24 ≤ y ∨ y + 24 ≤ x

section
variable (spaced : Spaced x a)
include spaced

theorem next_setNext (fits : v < 2 ^ 64) : (h.setNext a v).next x = if x = a then v else h.next x := by
  split
  · next same =>
    subst same
    exact load_store fits
  · exact load_store_apart (by simp only [Spaced] at spaced; omega)

theorem prev_setNext : (h.setNext a v).prev x = h.prev x :=
  load_store_apart (by simp only [Spaced] at spaced; omega)

theorem size_setNext : (h.setNext a v).size x = h.size x :=
  load_store_apart (by simp only [Spaced] at spaced; omega)

theorem next_setPrev : (h.setPrev a v).next x = h.next x :=
  load_store_apart (by simp only [Spaced] at spaced; omega)

theorem prev_setPrev (fits : v < 2 ^ 64) : (h.setPrev a v).prev x = if x = a then v else h.prev x := by
  split
  · next same =>
    subst same
    exact load_store fits
  · exact load_store_apart (by simp only [Spaced] at spaced; omega)

theorem size_setPrev : (h.setPrev a v).size x = h.size x :=
  load_store_apart (by simp only [Spaced] at spaced; omega)

end

@[simp] theorem next_setBin : (h.setBin bin v).next x = h.next x := rfl
@[simp] theorem prev_setBin : (h.setBin bin v).prev x = h.prev x := rfl

theorem bins_setBin (i : Nat) : (h.setBin bin v).bins i = if i = bin then v else h.bins i :=
  Function.update_apply ..

theorem bins_unlinkNode : (h.unlinkNode node).bins = h.bins := by
  rw [unlinkNode]
  split <;> rfl

/-! ## Walks -/

theorem addWalk_eq {key : Nat → Nat} {current : Nat} (chain : Chain h.next 0 current l)
    (enough : l.length < fuel) (sizes : ∀ x ∈ node :: l, h.size x = key x) (previous : Nat) :
    h.addWalk node fuel previous current =
      some ((l.takeWhile fun x => key x ≤ key node).getLast?.getD previous,
        (l.dropWhile fun x => key x ≤ key node).head?.getD 0) := by
  induction l generalizing current fuel previous with
  | nil =>
    cases fuel with
    | zero => cases enough
    | succ fuel =>
      obtain rfl := chain.nil
      rfl
  | cons y l ih =>
    have rest : ∀ x ∈ node :: l, h.size x = key x :=
      fun x member => sizes x (mem_cons.mpr ((mem_cons.mp member).imp_right (mem_cons_of_mem y)))
    cases fuel with
    | zero => cases enough
    | succ fuel =>
      cases chain with
      | step real chain =>
        rw [addWalk, sizes node (by simp), sizes y (by simp)]
        by_cases small : key y ≤ key node
        · rw [if_pos ⟨real, small⟩, ih chain (Nat.lt_of_succ_lt_succ enough) rest,
            takeWhile_cons_of_pos (by simpa using small), dropWhile_cons_of_pos (by simpa using small),
            List.getLast?_cons]
          rfl
        · rw [if_neg fun both => small both.2, takeWhile_cons_of_neg (by simpa using small),
            dropWhile_cons_of_neg (by simpa using small)]
          rfl

theorem removeWalk_eq {mid : List Nat} {temp : Nat} (chain : Chain h.next 0 temp (mid ++ node :: back))
    (enough : (mid ++ node :: back).length < fuel) : h.removeWalk node fuel temp = some (h.unlinkNode node) := by
  have once := chain.nodup
  induction mid generalizing temp fuel with
  | nil =>
    cases fuel with
    | zero => cases enough
    | succ fuel =>
      cases chain with
      | step real rest => rw [removeWalk, if_neg real, if_pos rfl]
  | cons y mid ih =>
    cases fuel with
    | zero => cases enough
    | succ fuel =>
      obtain ⟨first, once⟩ := nodup_cons.mp once
      cases chain with
      | step real rest =>
        have other : y ≠ node := by
          rintro rfl
          exact first (mem_append_right _ (mem_cons_self ..))
        rw [removeWalk, if_neg real, if_neg other]
        exact ih rest (Nat.lt_of_succ_lt_succ enough) once

theorem getBestFit_eq {temp size : Nat} (chain : Chain h.next 0 temp l) (enough : l.length < fuel) :
    h.getBestFit size fuel temp = some ((l.find? fun x => size ≤ h.size x).getD 0) := by
  induction l generalizing temp fuel with
  | nil =>
    cases fuel with
    | zero => cases enough
    | succ fuel =>
      obtain rfl := chain.nil
      rfl
  | cons y l ih =>
    cases fuel with
    | zero => cases enough
    | succ fuel =>
      cases chain with
      | step real rest =>
        rw [getBestFit, if_neg real, List.find?_cons]
        by_cases fits : size ≤ h.size y
        · rw [if_pos fits, decide_eq_true fits]
          rfl
        · rw [if_neg fits, ih rest (Nat.lt_of_succ_lt_succ enough), decide_eq_false fits]

/-! ## The lists of the bins -/

/-- The bins hold the nodes of `free`, each in the bin for its `key` and sorted by it. -/
structure Binned (h : Heap) (free : Nat → Prop) (key : Nat → Nat) : Prop where
  inside : ∀ x, free x → 0 < h.start ∧ h.start ≤ x ∧ x + 24 ≤ h.stop ∧ h.stop < 2 ^ 64
  spaced : ∀ x y, free x → free y → Spaced x y
  lists : ∀ i < 32, ∃ l, Dlist h.next h.prev 0 (h.bins i) l ∧ l.Pairwise (fun x y => key x ≤ key y) ∧
    ∀ x, x ∈ l ↔ free x ∧ getBinIndex (key x) = i

theorem getBinIndex_lt (sz : Nat) : getBinIndex sz < 32 := Nat.lt_succ_of_le (Nat.min_le_right ..)

variable {free free' : Nat → Prop} {key key' : Nat → Nat}

section
variable (b : Binned h free key)
include b

/-- A list of nodes is shorter than a walk may be. -/
theorem Binned.short (once : l.Nodup) (members : ∀ x ∈ l, free x) : l.length < h.walkFuel := by
  have sub : l.toFinset ⊆ Finset.Ico h.start h.stop := by
    intro x member
    have := b.inside x (members x (mem_toFinset.mp member))
    rw [Finset.mem_Ico]
    omega
  have card := Finset.card_le_card sub
  rw [toFinset_card_of_nodup once, Nat.card_Ico] at card
  exact Nat.lt_succ_of_le card

/-- The links of the nodes are what matters. -/
theorem Binned.frame (w : Writes places h h') (bins : h'.bins = h.bins)
    (apart : ∀ x a, free x → span (x + 8) (x + 24) a → ¬ places a) : Binned h' free key where
  inside x member := by
    rw [w.start, w.stop]
    exact b.inside x member
  spaced := b.spaced
  lists i small := by
    obtain ⟨l, list, sorted, members⟩ := b.lists i small
    rw [bins]
    refine ⟨l, list.congr (fun x member => ?_) (fun x member => ?_), sorted, members⟩
    · exact w.load fun a lo hi => apart x a ((members x).mp member).1 ⟨lo, by omega⟩
    · exact w.load fun a lo hi => apart x a ((members x).mp member).1 ⟨by omega, hi⟩

theorem Binned.congr (same : ∀ x, free x ↔ free' x) (keys : ∀ x, free x → key' x = key x) :
    Binned h free' key' where
  inside x member := b.inside x ((same x).mpr member)
  spaced x y hx hy := b.spaced x y ((same x).mpr hx) ((same y).mpr hy)
  lists i small := by
    obtain ⟨l, list, sorted, members⟩ := b.lists i small
    have keyOf (x : Nat) (member : x ∈ l) : key' x = key x := keys x ((members x).mp member).1
    refine ⟨l, list, sorted.imp_of_mem fun hx hy le => ?_, fun x => ?_⟩
    · rw [keyOf _ hx, keyOf _ hy]
      exact le
    · rw [members, ← same]
      exact and_congr_right fun member => by rw [keys x member]

/-- One list is replaced, the others are left as they are. -/
theorem Binned.replace {l' : List Nat} (w : Writes places h h')
    (inside : ∀ x, free' x → 0 < h.start ∧ h.start ≤ x ∧ x + 24 ≤ h.stop ∧ h.stop < 2 ^ 64)
    (spaced : ∀ x y, free' x → free' y → Spaced x y) (list : Dlist h'.next h'.prev 0 (h'.bins bin) l')
    (sorted : l'.Pairwise fun x y => key x ≤ key y) (members : ∀ x, x ∈ l' ↔ free' x ∧ getBinIndex (key x) = bin)
    (others : ∀ x, getBinIndex (key x) ≠ bin → (free' x ↔ free x) ∧
      (free x → h'.next x = h.next x ∧ h'.prev x = h.prev x))
    (heads : ∀ i ≠ bin, h'.bins i = h.bins i) : Binned h' free' key where
  inside x member := by
    rw [w.start, w.stop]
    exact inside x member
  spaced := spaced
  lists i small := by
    by_cases here : i = bin
    · subst here
      exact ⟨l', list, sorted, members⟩
    obtain ⟨l, list, sorted, members⟩ := b.lists i small
    have other (x : Nat) (member : x ∈ l) := others x (by rw [((members x).mp member).2]; exact here)
    have free (x : Nat) (member : x ∈ l) : free x := ((members x).mp member).1
    rw [heads i here]
    refine ⟨l, list.congr (fun x member => ((other x member).2 (free x member)).1)
      (fun x member => ((other x member).2 (free x member)).2), sorted, fun x => ?_⟩
    rw [members]
    refine and_congr_left fun eq => ((others x ?_).1).symm
    rw [eq]
    exact here

end

/-! ## Adding a node -/

theorem pairwise_insert (sorted : l.Pairwise fun x y => key x ≤ key y) (node : Nat) :
    ((l.takeWhile fun x => key x ≤ key node) ++ node :: l.dropWhile fun x => key x ≤ key node).Pairwise
      fun x y => key x ≤ key y := by
  induction l with
  | nil => exact pairwise_singleton _ _
  | cons y l ih =>
    obtain ⟨least, sorted⟩ := pairwise_cons.mp sorted
    by_cases small : key y ≤ key node
    · rw [takeWhile_cons_of_pos (by simpa using small), dropWhile_cons_of_pos (by simpa using small),
        cons_append, pairwise_cons]
      refine ⟨fun x member => ?_, ih sorted⟩
      rcases mem_append.mp member with front | back
      · exact least x (takeWhile_subset _ front)
      · rcases mem_cons.mp back with rfl | back
        · exact small
        · exact least x (dropWhile_subset _ back)
    rw [takeWhile_cons_of_neg (by simpa using small), dropWhile_cons_of_neg (by simpa using small),
      nil_append, pairwise_cons]
    refine ⟨fun x member => ?_, pairwise_cons.mpr ⟨least, sorted⟩⟩
    rcases mem_cons.mp member with rfl | later
    · omega
    · have := least x later
      omega

/-- The stores of `add_node` that put `node` between two parts of a list. -/
def linkIn (h : Heap) (bin node : Nat) (front back : List Nat) : Heap :=
  match front.getLast?, back.head? with
  | none, none => h.setBin bin node
  | some p, none => (h.setNext p node).setPrev node p
  | some p, some c => (((h.setNext node c).setNext p node).setPrev node p).setPrev c node
  | none, some c => ((h.setNext node c).setPrev c node).setBin bin node

theorem addNode_eq (list : Dlist ((h.setNext node 0).setPrev node 0).next
      ((h.setNext node 0).setPrev node 0).prev 0 (h.bins bin) l) (enough : l.length < h.walkFuel)
    (sizes : ∀ x ∈ node :: l, ((h.setNext node 0).setPrev node 0).size x = key x) :
    h.addNode bin node = some (((h.setNext node 0).setPrev node 0).linkIn bin node
      (l.takeWhile fun x => key x ≤ key node) (l.dropWhile fun x => key x ≤ key node)) := by
  have bins : h.bins bin = ((h.setNext node 0).setPrev node 0).bins bin := rfl
  have fuel : h.walkFuel = ((h.setNext node 0).setPrev node 0).walkFuel := rfl
  rw [addNode]
  rw [bins] at list
  rw [fuel] at enough
  split
  · next empty =>
    rw [empty] at list
    obtain rfl := list.eq_nil
    rfl
  next full =>
  rw [addWalk_eq list.chain enough sizes, linkIn]
  have split := takeWhile_append_dropWhile (p := fun x => key x ≤ key node) (l := l)
  have real (x : Nat) (member : x ∈ l) : x ≠ 0 := list.ne_null member
  generalize l.takeWhile _ = front at *
  generalize l.dropWhile _ = back at *
  subst split
  rcases eq_nil_or_concat front with rfl | ⟨front, p, rfl⟩
  · cases back with
    | nil => exact absurd list.chain.nil full
    | cons c back =>
      have head := list.pop.1
      simp [head, real c (by simp)]
  · cases back with
    | nil => simp
    | cons c back => simp [real c (by simp), real p (by simp)]

section
variable {front back : List Nat}

theorem linkIn_bins (i : Nat) : (h.linkIn bin node front back).bins i =
    if front = [] ∧ i = bin then node else h.bins i := by
  rcases eq_nil_or_concat front with rfl | ⟨front, p, rfl⟩ <;> cases back <;>
    simp [linkIn, setBin, setNext, setPrev, Function.update_apply]

section
variable (spaced : ∀ y ∈ node :: (front ++ back), Spaced x y) (fits : ∀ y ∈ node :: (front ++ back), y < 2 ^ 64)
include spaced fits

theorem linkIn_next : (h.linkIn bin node front back).next x =
      if front.getLast? = some x then node else if x = node then back.head?.getD (h.next node) else h.next x := by
  have here := fits node (by simp)
  have apart := spaced node (by simp)
  rcases eq_nil_or_concat front with rfl | ⟨front, p, rfl⟩ <;> rcases back with _ | ⟨c, back⟩
  · simp +contextual [linkIn]
  · have step := next_setNext (h := h) apart (fits c (by simp))
    simp [linkIn, next_setPrev (spaced c (by simp)), step]
  · have step := next_setNext (h := h) (spaced p (by simp)) here
    have same : (if x = node then h.next node else h.next x) = h.next x := by
      rw [ite_eq_right_iff]
      exact fun eq => by rw [eq]
    simp [linkIn, next_setPrev apart, step, same, eq_comm]
  · have step := next_setNext (h := h.setNext node c) (spaced p (by simp)) here
    have first := next_setNext (h := h) apart (fits c (by simp))
    simp [linkIn, next_setPrev (spaced c (by simp)), next_setPrev apart, step, first, eq_comm]

theorem linkIn_prev : (h.linkIn bin node front back).prev x =
      if back.head? = some x then node else if x = node then front.getLast?.getD (h.prev node) else h.prev x := by
  have here := fits node (by simp)
  have apart := spaced node (by simp)
  rcases eq_nil_or_concat front with rfl | ⟨front, p, rfl⟩ <;> rcases back with _ | ⟨c, back⟩
  · simp +contextual [linkIn]
  · have step := prev_setPrev (h := h.setNext node c) (spaced c (by simp)) here
    have same : (if x = node then h.prev node else h.prev x) = h.prev x := by
      rw [ite_eq_right_iff]
      exact fun eq => by rw [eq]
    simp [linkIn, step, prev_setNext apart, same, eq_comm]
  · have step := prev_setPrev (h := h.setNext p node) apart (fits p (by simp))
    simp [linkIn, step, prev_setNext (spaced p (by simp))]
  · have step := prev_setPrev (h := ((h.setNext node c).setNext p node).setPrev node p) (spaced c (by simp)) here
    have first := prev_setPrev (h := (h.setNext node c).setNext p node) apart (fits p (by simp))
    simp [linkIn, step, first, prev_setNext apart, prev_setNext (spaced p (by simp)), eq_comm]

end

theorem linkIn_writes (member : ∀ y ∈ node :: (front ++ back), nodes y) :
    Writes (links nodes) h (h.linkIn bin node front back) := by
  have here := member node (by simp)
  rcases eq_nil_or_concat front with rfl | ⟨front, p, rfl⟩ <;> rcases back with _ | ⟨c, back⟩
  · exact writes_setBin
  · exact ((writes_setNext here).trans (writes_setPrev (member c (by simp)))).trans writes_setBin
  · rw [linkIn, concat_eq_append, List.getLast?_append]
    exact (writes_setNext (member p (by simp))).trans (writes_setPrev here)
  · rw [linkIn, concat_eq_append, List.getLast?_append]
    exact (((writes_setNext here).trans (writes_setNext (member p (by simp)))).trans
      (writes_setPrev here)).trans (writes_setPrev (member c (by simp)))

theorem linkIn_list (list : Dlist h.next h.prev 0 (h.bins bin) (front ++ back)) (fresh : node ∉ front ++ back)
    (real : node ≠ 0) (ends : h.next node = 0)
    (spaced : ∀ x ∈ node :: (front ++ back), ∀ y ∈ node :: (front ++ back), Spaced x y)
    (fits : ∀ y ∈ node :: (front ++ back), y < 2 ^ 64) :
    Dlist (h.linkIn bin node front back).next (h.linkIn bin node front back).prev 0
      ((h.linkIn bin node front back).bins bin) (front ++ node :: back) := by
  have once := list.chain.nodup
  have next (x : Nat) (member : x ∈ node :: (front ++ back)) : (h.linkIn bin node front back).next x = _ :=
    linkIn_next (spaced x member) fits
  have prev (x : Nat) (member : x ∈ node :: (front ++ back)) : (h.linkIn bin node front back).prev x = _ :=
    linkIn_prev (spaced x member) fits
  have other (x : Nat) (member : x ∈ front ++ back) : x ≠ node := fun eq => fresh (eq ▸ member)
  have notHead (x : Nat) (member : x ∈ front ++ back.tail) : back.head? ≠ some x := by
    intro eq
    rw [List.head?_eq_some_iff] at eq
    obtain ⟨rest, rfl⟩ := eq
    exact (nodup_cons.mp (nodup_middle.mp once)).1 member
  have onward := next node (mem_cons_self ..)
  rw [if_pos rfl, ends] at onward
  have link (b : Nat) (first : back.head? = some b) : (h.linkIn bin node front back).prev b = node := by
    rw [prev b (mem_cons_of_mem _ (mem_append_right _ (mem_of_mem_head? first))), if_pos first]
  have samePrev (x : Nat) (member : x ∈ front ++ back.tail) :
      (h.linkIn bin node front back).prev x = h.prev x := by
    have inside : x ∈ front ++ back :=
      mem_append.mpr ((mem_append.mp member).imp_right mem_of_mem_tail)
    rw [prev x (mem_cons_of_mem _ inside), if_neg (notHead x member), if_neg (other x inside)]
  rw [linkIn_bins]
  rcases eq_nil_or_concat front with rfl | ⟨front, p, rfl⟩
  · rw [if_pos ⟨rfl, rfl⟩]
    refine list.push real ?_ link (fun x member => ?_) samePrev
    · rw [onward, list.chain.head_eq]
      rfl
    · rw [next x (mem_cons_of_mem _ member), if_neg (by simp), if_neg (other x member)]
  have last : (front.concat p).getLast? = some p := by
    rw [concat_eq_append, List.getLast?_concat]
  have apart : p ∉ front ++ back := by
    rw [concat_append] at once
    exact (nodup_cons.mp (nodup_middle.mp once)).1
  rw [if_neg (by simpa using (other p (by simp)))] at onward
  rw [concat_append] at list ⊢
  rw [if_neg (by simp)]
  refine list.insert real ?_ ?_ ?_ link (fun x member => ?_) (fun x member => samePrev x ?_)
  · rw [next p (by simp), if_pos last]
  · rw [onward, list.chain.next_eq]
  · have free : back.head? ≠ some node := fun eq => fresh (mem_append_right _ (mem_of_mem_head? eq))
    rw [prev node (mem_cons_self ..), if_neg free, if_pos rfl, last]
    rfl
  · have inside : x ∈ front.concat p ++ back := by
      simp only [concat_append, mem_append, mem_cons] at member ⊢
      exact member.imp_right .inr
    rw [next x (mem_cons_of_mem _ inside), last, if_neg, if_neg (other x inside)]
    intro eq
    exact apart (some.inj eq ▸ member)
  · rwa [concat_append]

end

/-- What holds of a node that can be put into a bin. -/
structure Addable (h : Heap) (free : Nat → Prop) (node : Nat) : Prop where
  inside : 0 < h.start ∧ h.start ≤ node ∧ node + 24 ≤ h.stop ∧ h.stop < 2 ^ 64
  apart : ∀ x, free x → x + 24 ≤ node ∨ node + 24 ≤ x

/-- `add_node` puts the node into the list of its size. -/
theorem Binned.addNode (b : Binned h free key) (new : h.Addable free node)
    (sizes : ∀ x, free x ∨ x = node → h.size x = key x) : ∃ h', h.addNode (getBinIndex (key node)) node = some h' ∧
      Binned h' (fun x => free x ∨ x = node) key ∧ Writes (links fun x => free x ∨ x = node) h h' := by
  have fresh : ¬ free node := fun member => by
    have := new.apart node member
    omega
  have spaced (x y : Nat) (hx : free x ∨ x = node) (hy : free y ∨ y = node) : Spaced x y := by
    rcases hx with hx | rfl <;> rcases hy with hy | rfl
    · exact b.spaced x y hx hy
    · exact .inr (new.apart x hx)
    · exact .inr (new.apart y hy).symm
    · exact .inl rfl
  have inside (x : Nat) (hx : free x ∨ x = node) :
      0 < h.start ∧ h.start ≤ x ∧ x + 24 ≤ h.stop ∧ h.stop < 2 ^ 64 := by
    rcases hx with hx | rfl
    · exact b.inside x hx
    · exact new.inside
  have cleared : Writes (links (Eq node)) h ((h.setNext node 0).setPrev node 0) :=
    (writes_setNext rfl).trans (writes_setPrev rfl)
  have b1 : Binned ((h.setNext node 0).setPrev node 0) free key := by
    refine b.frame cleared rfl fun x a member near => ?_
    rintro ⟨_, rfl, same⟩
    have := new.apart x member
    simp only [span] at near same
    omega
  obtain ⟨l, list, sorted, members⟩ := b1.lists (getBinIndex (key node)) (getBinIndex_lt _)
  have enough := b1.short list.chain.nodup fun x member => ((members x).mp member).1
  have sizes1 (x : Nat) (hx : free x ∨ x = node) : ((h.setNext node 0).setPrev node 0).size x = key x := by
    have apart := spaced x node hx (.inr rfl)
    rw [size_setPrev apart, size_setNext apart, sizes x hx]
  have parts := takeWhile_append_dropWhile (p := fun x => key x ≤ key node) (l := l)
  have placed := pairwise_insert sorted node
  have member (x : Nat) : x ∈ (l.takeWhile fun x => key x ≤ key node) ++
      node :: (l.dropWhile fun x => key x ≤ key node) ↔ x = node ∨ x ∈ l := by
    conv_rhs => rw [← parts]
    simp only [mem_append, mem_cons]
    tauto
  have call : h.addNode (getBinIndex (key node)) node = _ := addNode_eq list enough
    (fun x hx => sizes1 x (((mem_cons.mp hx).imp_right fun hx => ((members x).mp hx).1).symm))
  rw [call]
  generalize l.takeWhile _ = front at *
  generalize l.dropWhile _ = back at *
  subst parts
  have whole (x : Nat) (hx : x ∈ node :: (front ++ back)) : free x ∨ x = node := by
    rcases mem_cons.mp hx with rfl | hx
    · exact .inr rfl
    · exact .inl ((members x).mp hx).1
  have fits (y : Nat) (hy : y ∈ node :: (front ++ back)) : y < 2 ^ 64 := by
    have := inside y (whole y hy)
    omega
  have writes : Writes (links fun x => free x ∨ x = node) _
      (((h.setNext node 0).setPrev node 0).linkIn (getBinIndex (key node)) node front back) :=
    linkIn_writes whole
  have outside (x : Nat) (away : getBinIndex (key x) ≠ getBinIndex (key node)) (hx : x ∈ front ++ back) : False :=
    away ((members x).mp hx).2
  refine ⟨_, rfl, b1.replace writes inside spaced (linkIn_list list ?_ ?_ ?_ ?_ fits) placed ?_ ?_ ?_,
    .trans ?_ writes⟩
  · exact fun member => fresh ((members node).mp member).1
  · have := new.inside
    omega
  · rw [next_setPrev (.inl rfl), next_setNext (.inl rfl) (by decide), if_pos rfl]
  · exact fun x hx y hy => spaced x y (whole x hx) (whole y hy)
  · intro x
    rw [member, members, or_and_right, or_comm]
    exact or_congr_right ⟨fun eq => ⟨eq, eq ▸ rfl⟩, And.left⟩
  · intro x away
    have other : x ≠ node := fun eq => away (eq ▸ rfl)
    refine ⟨or_iff_left other, fun hx => ?_⟩
    have apart (y : Nat) (hy : y ∈ node :: (front ++ back)) : Spaced x y := spaced x y (.inl hx) (whole y hy)
    rw [linkIn_next apart fits, linkIn_prev apart fits, if_neg other, if_neg other, if_neg, if_neg]
    · exact ⟨rfl, rfl⟩
    · exact fun eq => outside x away (mem_append_right _ (mem_of_mem_head? eq))
    · exact fun eq => outside x away (mem_append_left _ (mem_of_getLast? eq))
  · intro i other
    rw [linkIn_bins, if_neg fun both => other both.2]
  · refine cleared.mono ?_
    rintro a ⟨_, rfl, near⟩
    exact ⟨node, .inr rfl, near⟩

/-! ## Removing a node -/

theorem mem_others (once : (front ++ a :: back).Nodup) : x ∈ front ++ back ↔ x ∈ front ++ a :: back ∧ x ≠ a := by
  have apart := (nodup_cons.mp (nodup_middle.mp once)).1
  constructor
  · intro hx
    refine ⟨?_, fun eq => apart (eq ▸ hx)⟩
    rw [mem_append] at hx ⊢
    exact hx.imp_right (mem_cons_of_mem a)
  · rintro ⟨hx, other⟩
    simpa only [mem_append, mem_cons, other, false_or] using hx

section
variable {p : Nat} {front back : List Nat} (list : Dlist h.next h.prev 0 (h.bins bin) (front ++ p :: node :: back))
  (spaced : ∀ x ∈ front ++ p :: node :: back, ∀ y ∈ front ++ p :: node :: back, Spaced x y)
  (fits : ∀ y ∈ front ++ p :: node :: back, y < 2 ^ 64)
include list

theorem unlinkNode_last (last : back = []) : h.unlinkNode node = h.setNext p 0 := by
  have next := list.next_eq
  rw [last, List.head?_nil, getD_none] at next
  rw [unlinkNode, if_pos next, list.prev_eq]

theorem unlink_other : node ≠ p := by
  rintro rfl
  simpa using (nodup_cons.mp (nodup_middle.mp list.chain.nodup)).1

include spaced fits

theorem unlinkNode_inner {c : Nat} {rest : List Nat} (inner : back = c :: rest) :
    h.unlinkNode node = (h.setNext p c).setPrev c p := by
  have next := list.next_eq
  subst inner
  have apart := spaced node (by simp) p (by simp)
  simp only [unlinkNode, next, List.head?_cons, getD_some, if_neg (list.ne_null (show c ∈ _ by simp)),
    list.prev_eq, next_setNext apart (fits c (by simp)), if_neg (unlink_other list), prev_setNext apart]

/-- What `remove_node` leaves when the node is behind `p`. -/
theorem unlinkNode_fields (apart : ∀ y ∈ front ++ p :: node :: back, Spaced x y) :
    (h.unlinkNode node).next x = (if x = p then h.next node else h.next x) ∧
    (h.unlinkNode node).prev x = if back.head? = some x then p else h.prev x := by
  have near := apart p (by simp)
  have next := list.next_eq
  rcases back with _ | ⟨c, back⟩
  · rw [unlinkNode_last list rfl, next_setNext near (by decide), prev_setNext near, next]
    simp
  have behind := apart c (by simp)
  rw [unlinkNode_inner list spaced fits rfl, next_setPrev behind, next_setNext near (fits c (by simp)),
    prev_setPrev behind (fits p (by simp)), prev_setNext near, next]
  simp [eq_comm]

theorem unlinkNode_writes (member : ∀ y ∈ front ++ p :: node :: back, nodes y) :
    Writes (links nodes) h (h.unlinkNode node) := by
  rcases back with _ | ⟨c, back⟩
  · rw [unlinkNode_last list rfl]
    exact writes_setNext (member p (by simp))
  · rw [unlinkNode_inner list spaced fits rfl]
    exact (writes_setNext (member p (by simp))).trans (writes_setPrev (member c (by simp)))

theorem unlinkNode_list : Dlist (h.unlinkNode node).next (h.unlinkNode node).prev 0 (h.bins bin)
    (front ++ p :: back) := by
  have once := list.chain.nodup
  have fields (x : Nat) (member : x ∈ front ++ p :: node :: back) := unlinkNode_fields list spaced fits (spaced x member)
  refine list.erase ?_ (fun b first => ?_) (fun x member => ?_) (fun x member => ?_)
  · rw [(fields p (by simp)).1, if_pos rfl]
  · have first : back.head? = some b := first
    have inside := mem_of_mem_head? first
    rw [(fields b (by simp [inside])).2, if_pos first]
  · have other : x ≠ p := by
      rintro rfl
      refine (nodup_cons.mp (nodup_middle.mp once)).1 ?_
      simp only [mem_append] at member ⊢
      tauto
    rw [(fields x (by simp only [mem_append] at member ⊢; tauto)).1, if_neg other]
  have away : back.head? ≠ some x := by
    intro eq
    obtain ⟨rest, rfl⟩ := List.head?_eq_some_iff.mp eq
    have parts : front ++ p :: node :: x :: rest = (front ++ [p, node]) ++ x :: rest := by simp
    rw [parts] at once
    refine (nodup_cons.mp (nodup_middle.mp once)).1 ?_
    simp only [mem_append, mem_cons] at member ⊢
    tauto
  have inside : x ∈ front ++ p :: node :: back := by
    simp only [mem_append, mem_cons] at member ⊢
    have := mem_of_mem_tail (l := back) (a := x)
    tauto
  rw [(fields x inside).2, if_neg away]

end

theorem removeNode_first (list : Dlist h.next h.prev 0 (h.bins bin) (node :: l)) :
    h.removeNode bin node = some (h.setBin bin (h.next node)) := by
  have real := list.ne_null (mem_cons_self ..)
  have head := list.pop.1
  simp only [removeNode, head, if_neg real, if_true]

theorem removeNode_later {p : Nat} (list : Dlist h.next h.prev 0 (h.bins bin) (front ++ p :: node :: back))
    (enough : (front ++ p :: node :: back).length < h.walkFuel) :
    h.removeNode bin node = some (h.unlinkNode node) := by
  have once := list.chain.nodup
  obtain ⟨head, mid, parts⟩ : ∃ head mid, front ++ p :: node :: back = head :: (mid ++ node :: back) := by
    cases front with
    | nil => exact ⟨p, [], rfl⟩
    | cons head front => exact ⟨head, front ++ [p], by simp⟩
  rw [parts] at list enough once
  have other : head ≠ node := by
    rintro rfl
    exact (nodup_cons.mp once).1 (by simp)
  have first := list.pop.1
  have real := list.ne_null (mem_cons_self ..)
  simp only [removeNode, first, if_neg real, if_neg other]
  exact removeWalk_eq list.pop.2.chain (Nat.lt_of_succ_lt enough)

/-- `remove_node` takes the node out of its list. -/
theorem Binned.removeNode (b : Binned h free key) (member : free node) :
    ∃ h', h.removeNode (getBinIndex (key node)) node = some h' ∧
      Binned h' (fun x => free x ∧ x ≠ node) key ∧ Writes (links free) h h' := by
  obtain ⟨l, list, sorted, members⟩ := b.lists (getBinIndex (key node)) (getBinIndex_lt _)
  have once := list.chain.nodup
  have enough := b.short once fun x hx => ((members x).mp hx).1
  have listed := (members node).mpr ⟨member, rfl⟩
  obtain ⟨front, back, rfl⟩ := append_of_mem listed
  have whole (x : Nat) (hx : x ∈ front ++ node :: back) : free x := ((members x).mp hx).1
  have left (x : Nat) : x ∈ front ++ back ↔
      (free x ∧ x ≠ node) ∧ getBinIndex (key x) = getBinIndex (key node) := by
    rw [and_right_comm, ← members]
    exact mem_others once
  have sorted' : (front ++ back).Pairwise fun x y => key x ≤ key y :=
    sorted.sublist (List.Sublist.append_left (sublist_cons_self ..) _)
  have finish (h' : Heap) (writes : Writes (links free) h h')
      (list' : Dlist h'.next h'.prev 0 (h'.bins (getBinIndex (key node))) (front ++ back))
      (others : ∀ x, getBinIndex (key x) ≠ getBinIndex (key node) → free x →
        h'.next x = h.next x ∧ h'.prev x = h.prev x)
      (heads : ∀ i ≠ getBinIndex (key node), h'.bins i = h.bins i) :
      Binned h' (fun x => free x ∧ x ≠ node) key := by
    refine b.replace writes (fun x hx => b.inside x hx.1) (fun x y hx hy => b.spaced x y hx.1 hy.1) list'
      sorted' left (fun x away => ⟨and_iff_left ?_, others x away⟩) heads
    exact fun eq => away (eq ▸ rfl)
  rcases eq_nil_or_concat front with rfl | ⟨front, p, rfl⟩
  · rw [removeNode_first list]
    refine ⟨_, rfl, finish _ writes_setBin ?_ (fun _ _ _ => ⟨rfl, rfl⟩) ?_, writes_setBin⟩
    · rw [bins_setBin, if_pos rfl]
      exact list.pop.2
    · intro i other
      rw [bins_setBin, if_neg other]
  rw [concat_append] at list enough members whole
  have spaced (x : Nat) (hx : x ∈ front ++ p :: node :: back) (y : Nat) (hy : y ∈ front ++ p :: node :: back) :=
    b.spaced x y (whole x hx) (whole y hy)
  have fits (y : Nat) (hy : y ∈ front ++ p :: node :: back) : y < 2 ^ 64 := by
    have := b.inside y (whole y hy)
    omega
  have writes := unlinkNode_writes list spaced fits whole
  rw [removeNode_later list enough]
  refine ⟨_, rfl, finish _ writes ?_ ?_ ?_, writes⟩
  · rw [bins_unlinkNode, concat_append]
    exact unlinkNode_list list spaced fits
  · intro x away hx
    have outside (y : Nat) (hy : y ∈ front ++ p :: node :: back) : x ≠ y := by
      rintro rfl
      exact away ((members x).mp hy).2
    have fields := unlinkNode_fields list spaced fits fun y hy => b.spaced x y hx (whole y hy)
    rwa [if_neg (outside p (by simp)), if_neg] at fields
    intro eq
    have := mem_of_mem_head? eq
    exact outside x (by simp [this]) rfl
  · intro i _
    rw [bins_unlinkNode]

end Heap
end SlotFs
