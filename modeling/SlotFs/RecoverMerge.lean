import SlotFs.RecoverLog

/-!
# Merging the records of a file

The step lemma is about one block, and the run lemmas follow the loop over the blocks of
a record and the loop over the records. A record that takes a block over from an older
one does not count it, so its `ref` stays behind the number of its cells by the blocks it
took over, less what the memory held when the record was allocated.
-/

namespace SlotFs
open CWord Function List Option RcInode

variable {excess : Int} {f : RcFilent} {n o : Nat} {q r : PmFilent} {records rest : List PmFilent}

/-! ## What the counts are off by -/

/-- By how much the `ref` of record `o` exceeds the number of its cells. -/
def refExcess (ref : Nat → Int) (records : List PmFilent) (o : Nat) (q : PmFilent) : Int :=
  ref o - takenOver (records.take o) q q.blocks

theorem refExcess_append (ref : Nat → Int) (inside : o ≤ records.length) (rest : List PmFilent) (q : PmFilent) :
    refExcess ref (records ++ rest) o q = refExcess ref records o q := by
  rw [refExcess, refExcess, take_append_of_le_length inside]

/-- A merged record is held, listed and off by `excess`, or it was freed when its `ref`
came down to 0. -/
inductive OffBy (inode : RcInode) (o : Nat) (q : PmFilent) (excess : Int) : Prop
  | held (ref : Int) (here : inode.filents o = some (q.held ref)) (listed : o ∈ inode.list)
      (counted : ref = cellCount (btreeGet inode.btree) o + excess) (used : ref ≠ 0)
  | freed (gone : inode.filents o = none) (unlisted : o ∉ inode.list)
      (counted : cellCount (btreeGet inode.btree) o + excess = 0)

theorem OffBy.congr {inode inode' : RcInode} (h : OffBy inode o q excess)
    (same : inode'.filents o = inode.filents o) (listed : o ∈ inode'.list ↔ o ∈ inode.list)
    (count : cellCount (btreeGet inode'.btree) o = cellCount (btreeGet inode.btree) o) :
    OffBy inode' o q excess := by
  cases h with
  | held ref here member counted used =>
    exact .held ref (same.trans here) (listed.mpr member) (by rw [count, counted]) used
  | freed gone unlisted counted =>
    exact .freed (same.trans gone) (mt listed.mp unlisted) (by rw [count, counted])

/-- The records so far, and `i` blocks of the next one. -/
structure Merging (ref : Nat → Int) (records : List PmFilent) (r : PmFilent) (i : Nat)
    (inode : RcInode) : Prop where
  tree : LeafTree inode.btree
  inside : HintInside inode.btree inode.hint
  exact : HintExact inode.hint
  cells : ∀ k, Resolved (if r.lIdx ≤ k ∧ k < r.lIdx + i then records ++ [r] else records) k
    (btreeGet inode.btree k)
  own : inode.filents records.length = some (r.held
    (cellCount (btreeGet inode.btree) records.length + (ref records.length - takenOver records r i)))
  others : ∀ o q, records[o]? = some q → OffBy inode o q (refExcess ref records o q)
  listed : ∀ o ∈ inode.list, o < records.length
  once : inode.list.Nodup
  asked : inode.asked = records.length + 1

/-- All the bits that merging `r` clears lie in the map. -/
def ClearsInside (bits : Nat) (earlier : List PmFilent) (r : PmFilent) (k : Nat) : Prop :=
  ∀ o q, NewestAt earlier k o → earlier[o]? = some q → InMap bits (lostBit q r k)

section
variable {ref : Nat → Int} {records : List PmFilent} {r : PmFilent} {i bits ino : Nat} {mem : Malloced}
  {inode inode' : RcInode} {map map' : Mem}

/-- The cells when block `i` has been settled. -/
theorem Merging.cells_step {v : Option Nat} {cells : Nat → Option Nat}
    (h : ∀ k, Resolved (if r.lIdx ≤ k ∧ k < r.lIdx + i then records ++ [r] else records) k (cells k))
    (settled : Resolved (records ++ [r]) (r.lIdx + i) v) (k : Nat) :
    Resolved (if r.lIdx ≤ k ∧ k < r.lIdx + (i + 1) then records ++ [r] else records) k
      (update cells (r.lIdx + i) v k) := by
  by_cases here : k = r.lIdx + i
  · subst here
    rw [update_self, if_pos (by omega)]
    exact settled
  rw [update_of_ne here]
  have same : (r.lIdx ≤ k ∧ k < r.lIdx + (i + 1)) ↔ (r.lIdx ≤ k ∧ k < r.lIdx + i) := by omega
  simp only [same]
  exact h k

section
variable (h : Merging ref records r i inode)
include h

theorem Merging.before : Resolved records (r.lIdx + i) (btreeGet inode.btree (r.lIdx + i)) := by
  have here := h.cells (r.lIdx + i)
  rwa [if_neg (by omega)] at here

/-- A block is settled in the cell of its key. -/
theorem Merging.block_eq (low : r.lIdx + i < 256) (bits : Nat) (map : Mem) :
    ∃ inode1 own, Merging ref records r i inode1 ∧ inode1.filents records.length = some (r.held own) ∧
      rcMergeBlock bits records.length i inode map =
        rcMergeCell bits records.length (r.held own) (r.lIdx + i : Nat) inode1.btree.root (r.lIdx + i)
          inode1 map := by
  refine ⟨{ inode with hint := ⟨some inode.btree.root, r.lIdx + i, r.lIdx + i⟩ }, _, ?_, h.own, ?_⟩
  · constructor
    · exact h.tree
    · rintro node eq
      cases eq
      rfl
    · exact fun _ _ => ⟨rfl, low⟩
    · exact h.cells
    · exact h.own
    · exact fun o q at_o => (h.others o q at_o).congr rfl Iff.rfl rfl
    · exact h.listed
    · exact h.once
    · exact h.asked
  · rw [rcMergeBlock_eq h.own (h.tree.ptr_exact h.inside h.exact low), if_neg (by omega)]

/-- The record takes a block that is free. -/
theorem Merging.free (low : r.lIdx + i < 256) (covers : r.Covers (r.lIdx + i))
    (free : btreeGet inode.btree (r.lIdx + i) = none) {own : Int}
    (here : inode.filents records.length = some (r.held own)) : Merging ref records r (i + 1) { inode with
      btree := inode.btree.setChild inode.btree.root (r.lIdx + i) (some records.length)
      filents := update inode.filents records.length (some (r.held (own + 1))) } := by
  have before := h.before
  rw [free] at before
  have count (o : Nat) := cellCount_update (btreeGet inode.btree) low (some records.length) o
  simp only [free, reduceCtorEq, if_false, some_inj] at count
  have cells := h.tree.get_setChild low (some records.length)
  constructor
  · exact h.tree.setChild low _
  · exact h.inside
  · exact h.exact
  · intro k
    simp only [cells]
    exact Merging.cells_step h.cells (before.first covers) k
  · have own_eq : own = _ := congrArg RcFilent.ref (some.inj (here.symm.trans h.own))
    have total := count records.length
    rw [if_pos rfl] at total
    simp only [cells, update_self, takenOver_succ, if_neg before.not_takesOver]
    have value : own + 1 = cellCount (update (btreeGet inode.btree) (r.lIdx + i)
        (some records.length)) records.length + (ref records.length - (takenOver records r i + 0 : Nat)) := by
      simp only [PmFilent.held] at own_eq
      omega
    rw [value]
  · intro o q at_o
    have other : o ≠ records.length := (List.getElem?_eq_some_iff.mp at_o).1.ne
    refine (h.others o q at_o).congr (update_of_ne other _ _) Iff.rfl ?_
    simpa [cells, other.symm] using count o
  · exact h.listed
  · exact h.once
  · exact h.asked

end

/-- A record after it has lost the cell of block `k`. -/
theorem OffBy.lose {k : Nat} {last : Int} (h : OffBy inode o q excess)
    (here : inode.filents o = some (q.held last)) (used : btreeGet inode.btree k = some o) (low : k < 256)
    (other : n ≠ o) (once : inode.list.Nodup)
    (cells : btreeGet inode'.btree = update (btreeGet inode.btree) k (some n))
    (list : inode'.list = (inode.lose q o last).list)
    (filents : inode'.filents o = (inode.lose q o last).filents o) : OffBy inode' o q excess := by
  have count := cellCount_update (btreeGet inode.btree) low (some n) o
  rw [if_pos used, if_neg (fun e => other (some.inj e)), ← cells] at count
  simp only [RcInode.lose, update_self] at list filents
  cases h with
  | held ref at_o listed counted nonzero =>
    obtain rfl : last = ref := congrArg RcFilent.ref (some.inj (here.symm.trans at_o))
    by_cases zero : last - 1 = 0
    · rw [if_pos zero] at list filents
      refine .freed filents ?_ (by omega)
      rw [list]
      exact once.not_mem_erase
    · rw [if_neg zero] at list filents
      exact .held (last - 1) filents (by rwa [list]) (by omega) zero
  | freed gone _ _ =>
    cases gone.symm.trans here

section
variable (h : Merging ref records r i inode)
include h

/-- The record takes a block over from an older one, and does not count it. -/
theorem Merging.take (low : r.lIdx + i < 256) (covers : r.Covers (r.lIdx + i)) {old : Nat} {ref' : Int}
    (used : btreeGet inode.btree (r.lIdx + i) = some old) (at_old : records[old]? = some q)
    (here : inode.filents old = some (q.held ref')) (newer : q.ts < r.ts) :
    Merging ref records r (i + 1) { inode.lose q old ref' with
      btree := inode.btree.setChild inode.btree.root (r.lIdx + i) (some records.length) } := by
  have before := h.before
  rw [used] at before
  have inside : old < records.length := (List.getElem?_eq_some_iff.mp at_old).1
  have count (o : Nat) := cellCount_update (btreeGet inode.btree) low (some records.length) o
  simp only [used, some_inj] at count
  have cells := h.tree.get_setChild low (some records.length)
  constructor
  · exact h.tree.setChild low _
  · exact h.inside
  · exact h.exact
  · intro k
    simp only [cells]
    exact Merging.cells_step h.cells (before.newer at_old newer covers) k
  · have total := count records.length
    rw [if_pos rfl, if_neg inside.ne] at total
    have taken := takenOver_succ records r i
    rw [if_pos ((before.takesOver_iff at_old).mpr newer)] at taken
    simp only [cells, lose, update_of_ne inside.ne', h.own]
    have value : (cellCount (btreeGet inode.btree) records.length : Int) +
        (ref records.length - takenOver records r i) =
        cellCount (update (btreeGet inode.btree) (r.lIdx + i) (some records.length))
          records.length + (ref records.length - takenOver records r (i + 1)) := by omega
    rw [value]
  · intro o q' at_o
    have other : o ≠ records.length := (List.getElem?_eq_some_iff.mp at_o).1.ne
    by_cases loser : o = old
    · subst loser
      obtain rfl : q = q' := some.inj (at_old.symm.trans at_o)
      exact (h.others o q at_o).lose here used low inside.ne' h.once cells rfl rfl
    refine (h.others o q' at_o).congr (update_of_ne loser _ _) ?_ ?_
    · simp only [lose]
      split
      · exact mem_erase_of_ne loser
      · rfl
    · simpa [cells, other.symm, Ne.symm loser] using count o
  · intro o member
    simp only [lose] at member
    split at member
    · exact h.listed o (mem_of_mem_erase member)
    · exact h.listed o member
  · simp only [lose]
    split
    · exact h.once.erase old
    · exact h.once
  · exact h.asked

/-- The record finds a newer one. -/
theorem Merging.keep {old : Nat} (used : btreeGet inode.btree (r.lIdx + i) = some old)
    (at_old : records[old]? = some q) (older : ¬ q.ts < r.ts) : Merging ref records r (i + 1) inode := by
  have before := h.before
  rw [used] at before
  constructor
  · exact h.tree
  · exact h.inside
  · exact h.exact
  · intro k
    have step := Merging.cells_step h.cells (before.older at_old older) k
    rwa [← used, update_eq_self] at step
  · rw [takenOver_succ, if_neg (mt (before.takesOver_iff at_old).mp older)]
    exact h.own
  · exact h.others
  · exact h.listed
  · exact h.once
  · exact h.asked

theorem Merging.step (distinct : DistinctTimes records) (low : r.lIdx + i < 256)
    (covers : r.Covers (r.lIdx + i)) (run : rcMergeBlock bits records.length i inode map = some (inode', map')) :
    Merging ref records r (i + 1) inode' ∧ ClearsInside bits records r (r.lIdx + i) := by
  obtain ⟨inode1, own, h, here, eq⟩ := h.block_eq low bits map
  have before := h.before
  rw [eq] at run
  cases cell : btreeGet inode1.btree (r.lIdx + i) with
  | none =>
    rw [rcMergeCell_free h.tree cell] at run
    rw [cell] at before
    cases run
    refine ⟨h.free low covers cell here, fun o q newest _ => ?_⟩
    obtain ⟨q', at_o, covered, _⟩ := newest
    exact absurd covered (before q' (mem_of_getElem? at_o))
  | some old =>
    rw [cell] at before
    obtain ⟨q, at_old, _, _⟩ := id before
    cases h.others old q at_old with
    | freed gone _ _ =>
      rw [rcMergeCell_freed h.tree cell gone] at run
      cases run
    | held ref' other _ _ _ =>
      rw [rcMergeCell_used h.tree cell other] at run
      obtain ⟨map'', cleared, same⟩ := map_eq_some_iff.mp run
      obtain ⟨rfl, rfl⟩ := Prod.mk.inj same
      refine ⟨?_, fun o q' newest at_o => ?_⟩
      · split
        · exact h.take low covers cell at_old other ‹_›
        · exact h.keep cell at_old ‹_›
      · obtain rfl := NewestAt.unique distinct newest before
        obtain rfl : q = q' := some.inj (at_old.symm.trans at_o)
        exact (rcClearBit_eq_some.mp cleared).1

/-- With exact counts no freed record is met. -/
theorem Merging.proceeds (exact : ∀ o q, records[o]? = some q → refExcess ref records o q = 0)
    (low : r.lIdx + i < 256) (clears : ClearsInside bits records r (r.lIdx + i)) (map : Mem) :
    ∃ inode' map', rcMergeBlock bits records.length i inode map = some (inode', map') := by
  obtain ⟨inode1, own, h, here, eq⟩ := h.block_eq low bits map
  have before := h.before
  rw [eq]
  cases cell : btreeGet inode1.btree (r.lIdx + i) with
  | none => exact ⟨_, _, rcMergeCell_free h.tree cell _⟩
  | some old =>
    rw [cell] at before
    obtain ⟨q, at_old, _, _⟩ := id before
    cases h.others old q at_old with
    | freed _ _ counted =>
      have pos := cellCount_pos low cell
      rw [exact old q at_old] at counted
      omega
    | held ref' other _ _ _ =>
      have cleared : rcClearBit bits (lostBit q r (r.lIdx + i)) map = some _ :=
        rcClearBit_eq_some.mpr ⟨clears old q before at_old, rfl⟩
      exact ⟨_, _, by rw [rcMergeCell_used h.tree cell other, cleared, map_some]⟩

end

theorem covers_block (fits : i + (n + 1) ≤ r.blocks) : r.Covers (r.lIdx + i) :=
  ⟨Nat.le_add_right _ _, by omega⟩

section
variable (h : Merging ref records r i inode) (distinct : DistinctTimes records)
include h distinct

theorem Merging.loop (low : ∀ k, r.Covers k → k < 256) (fits : i + n ≤ r.blocks)
    (run : rcMergeLoop bits records.length n i inode map = some (inode', map')) :
    Merging ref records r (i + n) inode' ∧
      ∀ j, i ≤ j → j < i + n → ClearsInside bits records r (r.lIdx + j) := by
  induction n generalizing i inode map with
  | zero =>
    cases run
    exact ⟨h, by omega⟩
  | succ n ih =>
    obtain ⟨⟨inode1, map1⟩, block, rest⟩ := bind_eq_some_iff.mp run
    have covers := covers_block fits
    obtain ⟨next, clears⟩ := h.step distinct (low _ covers) covers block
    obtain ⟨last, clears'⟩ := ih next (by omega) rest
    refine ⟨by rwa [show i + 1 + n = i + (n + 1) by omega] at last, fun j start stop => ?_⟩
    rcases Nat.eq_or_lt_of_le start with rfl | later
    · exact clears
    · exact clears' j later (by omega)

theorem Merging.loop_proceeds (exact : ∀ o q, records[o]? = some q → refExcess ref records o q = 0)
    (low : ∀ k, r.Covers k → k < 256) (fits : i + n ≤ r.blocks)
    (clears : ∀ k, r.Covers k → ClearsInside bits records r k) (map : Mem) :
    ∃ inode' map', rcMergeLoop bits records.length n i inode map = some (inode', map') := by
  induction n generalizing i inode map with
  | zero => exact ⟨inode, map, rfl⟩
  | succ n ih =>
    have covers := covers_block fits
    obtain ⟨inode1, map1, block⟩ := h.proceeds exact (low _ covers) (clears _ covers) map
    obtain ⟨next, _⟩ := h.step distinct (low _ covers) covers block
    obtain ⟨inode', map', rest⟩ := ih next (by omega) map1
    exact ⟨inode', map', by simp only [rcMergeLoop, block, bind_some, rest]⟩

end

/-! ## One record -/

/-- What holds of the inode when the records have been merged. -/
structure Merged (ref : Nat → Int) (records : List PmFilent) (inode : RcInode) : Prop where
  tree : LeafTree inode.btree
  inside : HintInside inode.btree inode.hint
  exact : HintExact inode.hint
  cells : ∀ k, Resolved records k (btreeGet inode.btree k)
  all : ∀ o q, records[o]? = some q → OffBy inode o q (refExcess ref records o q)
  listed : ∀ o ∈ inode.list, o < records.length
  once : inode.list.Nodup
  asked : inode.asked = records.length

theorem Merged.start (h : Merged (mem.ref ino) records inode) (r : PmFilent) :
    Merging (mem.ref ino) records r 0 (newRcFilent mem ino r inode) := by
  have unused (k : Nat) : btreeGet inode.btree k ≠ some records.length := by
    intro used
    have cell := h.cells k
    rw [used] at cell
    exact absurd (NewestAt.lt cell) (lt_irrefl _)
  constructor
  · exact h.tree
  · exact h.inside
  · exact h.exact
  · intro k
    rw [if_neg (by omega)]
    exact h.cells k
  · simp only [newRcFilent, h.asked, update_self, cellCount_eq_zero unused]
    simp [takenOver, PmFilent.held]
  · intro o q at_o
    have other : o ≠ inode.asked := by
      rw [h.asked]
      exact (List.getElem?_eq_some_iff.mp at_o).1.ne
    exact (h.all o q at_o).congr (update_of_ne other _ _) Iff.rfl rfl
  · exact h.listed
  · exact h.once
  · simp [newRcFilent, h.asked]

/-- The record is listed, unless its `ref` is 0. -/
theorem Merging.finish (h : Merging ref records r r.blocks inode)
    (run : rcKeep records.length inode = some inode') (num : Nat) :
    Merged ref (records ++ [r]) { inode' with entryNum := num } := by
  have cells (k : Nat) : Resolved (records ++ [r]) k (btreeGet inode.btree k) := by
    have cell := h.cells k
    split at cell
    · exact cell
    · exact cell.skip ‹_›
  have length : (records ++ [r]).length = records.length + 1 := by simp
  have fresh : records.length ∉ inode.list := fun member => lt_irrefl _ (h.listed _ member)
  have excess : refExcess ref (records ++ [r]) records.length r =
      ref records.length - takenOver records r r.blocks := by
    rw [refExcess, take_left' rfl]
  have older {o : Nat} {q : PmFilent} (at_o : (records ++ [r])[o]? = some q) (other : o ≠ records.length) :
      records[o]? = some q ∧ refExcess ref (records ++ [r]) o q = refExcess ref records o q := by
    have inside : o < records.length := by
      have := (List.getElem?_eq_some_iff.mp at_o).1
      omega
    rw [List.getElem?_append_left inside] at at_o
    exact ⟨at_o, refExcess_append ref inside.le [r] q⟩
  have last {q : PmFilent} (at_o : (records ++ [r])[records.length]? = some q) : r = q := by
    simpa using at_o
  simp only [rcKeep, h.own, bind_eq_bind, bind_some] at run
  split at run <;> rename_i zero <;> cases run
  · refine ⟨h.tree, h.inside, h.exact, cells, fun o q at_o => ?_, fun o member => ?_, h.once, ?_⟩
    · by_cases own : o = records.length
      · subst own
        obtain rfl := last at_o
        refine .freed (update_self ..) fresh ?_
        rw [excess]
        exact zero
      · obtain ⟨at_o, same⟩ := older at_o own
        rw [same]
        exact (h.others o q at_o).congr (update_of_ne own _ _) Iff.rfl rfl
    · rw [length]
      exact Nat.lt_succ_of_lt (h.listed o member)
    · rw [length, ← h.asked]
  · refine ⟨h.tree, h.inside, h.exact, cells, fun o q at_o => ?_, fun o member => ?_, ?_, ?_⟩
    · by_cases own : o = records.length
      · subst own
        obtain rfl := last at_o
        refine .held _ h.own (mem_append_right _ (mem_singleton_self _)) ?_ zero
        rw [excess]
      · obtain ⟨at_o, same⟩ := older at_o own
        rw [same]
        exact (h.others o q at_o).congr rfl (by simp [own]) rfl
    · rw [length]
      rcases mem_append.mp member with member | member
      · exact Nat.lt_succ_of_lt (h.listed o member)
      · rw [mem_singleton.mp member]
        exact Nat.lt_succ_self _
    · apply nodup_append.mpr
      refine ⟨h.once, nodup_singleton _, fun o member o' same => ?_⟩
      rw [mem_singleton.mp same]
      exact (h.listed o member).ne
    · rw [length, ← h.asked]

theorem toInt32_blocks (low : ∀ k, r.Covers k → k < 256) : (toInt32 r.blocks).toNat = r.blocks := by
  have small : r.blocks ≤ 256 := by
    by_contra large
    have := low (r.lIdx + 256) ⟨by omega, by omega⟩
    omega
  rw [toInt32_of_lt (by omega), Int.toNat_natCast]

section
variable (h : Merged (mem.ref ino) records inode) (distinct : DistinctTimes records)
include h distinct

theorem Merged.record (low : ∀ k, r.Covers k → k < 256)
    (run : rcMergeRecord mem bits ino r inode map = some (inode', map')) :
    Merged (mem.ref ino) (records ++ [r]) inode' ∧ ∀ k, r.Covers k → ClearsInside bits records r k := by
  simp only [rcMergeRecord, h.asked, toInt32_blocks low] at run
  obtain ⟨⟨inode1, map1⟩, loop, rest⟩ := bind_eq_some_iff.mp run
  obtain ⟨inode2, keep, same⟩ := bind_eq_some_iff.mp rest
  obtain ⟨rfl, rfl⟩ := Prod.mk.inj (some.inj same)
  obtain ⟨merging, clears⟩ := (h.start r).loop distinct low (by omega) loop
  rw [Nat.zero_add] at merging
  refine ⟨merging.finish keep _, fun k covers => ?_⟩
  have block := clears (k - r.lIdx) (Nat.zero_le _) (by
    have first := covers.1
    have last := covers.2
    omega)
  rwa [Nat.add_sub_cancel' covers.1] at block

theorem Merged.record_proceeds (exact : ∀ o q, records[o]? = some q → refExcess (mem.ref ino) records o q = 0)
    (low : ∀ k, r.Covers k → k < 256) (clears : ∀ k, r.Covers k → ClearsInside bits records r k) (map : Mem) :
    ∃ inode' map', rcMergeRecord mem bits ino r inode map = some (inode', map') := by
  obtain ⟨inode1, map1, loop⟩ := (h.start r).loop_proceeds (n := r.blocks) distinct exact low
    (by omega) clears map
  obtain ⟨merging, _⟩ := (h.start r).loop distinct low (by omega) loop
  have held := merging.own
  obtain ⟨inode2, keep⟩ : ∃ inode2, rcKeep records.length inode1 = some inode2 := by
    simp only [rcKeep, held, bind_eq_bind, bind_some]
    split <;> exact ⟨_, rfl⟩
  refine ⟨{ inode2 with entryNum := wrap64 (inode2.entryNum + 1) }, map1, ?_⟩
  simp only [rcMergeRecord, h.asked, toInt32_blocks low, loop, bind_eq_bind, bind_some, keep]

end

/-! ## All records -/

/-- The records one after the other. -/
def rcMergeAll (mem : Malloced) (bits ino : Nat) : List PmFilent → RcInode → Mem → Option (RcInode × Mem)
  | [], inode, map => some (inode, map)
  | r :: rest, inode, map =>
    (rcMergeRecord mem bits ino r inode map).bind fun (inode, map) => rcMergeAll mem bits ino rest inode map

/-- What the log, the memory and the size of the map must be like. -/
structure Mergeable (ref : Nat → Int) (bits : Nat) (records : List PmFilent) : Prop where
  low : ∀ r ∈ records, ∀ k, r.Covers k → k < 256
  counted : ∀ o r, records[o]? = some r → ref o = takenOver (records.take o) r r.blocks
  clears : ∀ o r k, records[o]? = some r → r.Covers k → ClearsInside bits (records.take o) r k

theorem DistinctTimes.left (h : DistinctTimes (records ++ rest)) : DistinctTimes records :=
  (pairwise_append.mp h).1

section
variable (h : Merged (mem.ref ino) records inode) (distinct : DistinctTimes (records ++ rest))
include h distinct

theorem Merged.run (low : ∀ r ∈ rest, ∀ k, r.Covers k → k < 256)
    (run : rcMergeAll mem bits ino rest inode map = some (inode', map')) :
    Merged (mem.ref ino) (records ++ rest) inode' ∧
      ∀ o r k, records.length ≤ o → (records ++ rest)[o]? = some r → r.Covers k →
        ClearsInside bits ((records ++ rest).take o) r k := by
  induction rest generalizing records inode map with
  | nil =>
    cases run
    rw [append_nil]
    refine ⟨h, fun o r k later at_o => ?_⟩
    cases (List.getElem?_eq_none later).symm.trans at_o
  | cons r rest ih =>
    obtain ⟨⟨inode1, map1⟩, record, run⟩ := bind_eq_some_iff.mp run
    obtain ⟨first, later⟩ := forall_mem_cons.mp low
    obtain ⟨next, clears⟩ := h.record distinct.left first record
    rw [append_cons] at distinct ⊢
    obtain ⟨merged, clears'⟩ := ih next distinct later run
    refine ⟨merged, fun o q k start at_o covers => ?_⟩
    rcases Nat.eq_or_lt_of_le start with rfl | behind
    · have same : r = q := by simpa using at_o
      subst same
      rw [append_assoc, take_left' rfl]
      exact clears k covers
    · exact clears' o q k (by simpa using behind) at_o covers

theorem Merged.proceeds (ok : Mergeable (mem.ref ino) bits (records ++ rest)) (map : Mem) :
    ∃ inode' map', rcMergeAll mem bits ino rest inode map = some (inode', map') := by
  induction rest generalizing records inode map with
  | nil => exact ⟨inode, map, rfl⟩
  | cons r rest ih =>
    have here : (records ++ r :: rest)[records.length]? = some r := by simp
    have low := ok.low r (by simp)
    have exact (o : Nat) (q : PmFilent) (at_o : records[o]? = some q) :
        refExcess (mem.ref ino) records o q = 0 := by
      have inside : o < records.length := (List.getElem?_eq_some_iff.mp at_o).1
      rw [← refExcess_append _ inside.le (r :: rest), refExcess,
        ok.counted o q (by rw [List.getElem?_append_left inside, at_o]), sub_self]
    have clears (k : Nat) (covers : r.Covers k) : ClearsInside bits records r k := by
      have := ok.clears _ r k here covers
      rwa [take_left' rfl] at this
    obtain ⟨inode1, map1, record⟩ := h.record_proceeds distinct.left exact low clears map
    obtain ⟨next, _⟩ := h.record distinct.left low record
    rw [append_cons] at distinct ok
    obtain ⟨inode', map', run⟩ := ih next distinct ok map1
    exact ⟨inode', map', by simp only [rcMergeAll, record, bind_some, run]⟩

end

end

/-! ## What any merge does -/

section
variable {bits ino o i n k : Nat} {mem : Malloced} {inode inode' : RcInode} {map map' : Mem}
  {I : Int → Btree → BtreePtr → Mem → Prop}

section
variable (block : ∀ {o i inode map inode' map'}, I inode.link inode.btree inode.hint map →
    rcMergeBlock bits o i inode map = some (inode', map') → I inode'.link inode'.btree inode'.hint map')
  (start : I inode.link inode.btree inode.hint map)
include block start

theorem rcMergeLoop_inv (run : rcMergeLoop bits o n i inode map = some (inode', map')) :
    I inode'.link inode'.btree inode'.hint map' := by
  induction n generalizing i inode map with
  | zero =>
    cases run
    exact start
  | succ n ih =>
    obtain ⟨⟨inode1, map1⟩, first, rest⟩ := bind_eq_some_iff.mp run
    exact ih (block start first) rest

theorem rcMergeRecord_inv (run : rcMergeRecord mem bits ino r inode map = some (inode', map')) :
    I inode'.link inode'.btree inode'.hint map' := by
  unfold rcMergeRecord at run
  obtain ⟨⟨inode1, map1⟩, loop, rest⟩ := bind_eq_some_iff.mp run
  obtain ⟨inode2, keep, same⟩ := bind_eq_some_iff.mp rest
  obtain ⟨rfl, rfl⟩ := Prod.mk.inj (some.inj same)
  have alloc : I (newRcFilent mem ino r inode).link (newRcFilent mem ino r inode).btree
    (newRcFilent mem ino r inode).hint map := start
  have merged := rcMergeLoop_inv block alloc loop
  obtain ⟨f, held, kept⟩ := bind_eq_some_iff.mp keep
  split at kept <;> cases kept <;> exact merged

theorem rcMergeAll_inv (run : rcMergeAll mem bits ino records inode map = some (inode', map')) :
    I inode'.link inode'.btree inode'.hint map' := by
  induction records generalizing inode map with
  | nil =>
    cases run
    exact start
  | cons r rest ih =>
    obtain ⟨⟨inode1, map1⟩, record, run⟩ := bind_eq_some_iff.mp run
    exact ih (rcMergeRecord_inv block start record) run

end

theorem rcClearBit_clears {nr : Int} (run : rcClearBit bits nr map = some map') (b : Nat)
    (clear : bit map b = false) : bit map' b = false := by
  obtain ⟨_, rfl⟩ := rcClearBit_eq_some.mp run
  rw [bit_clearBit, clear, Bool.and_false]

/-- What a cell changes. The record itself loses no cell to itself. -/
theorem rcMergeCell_cases {idx : Int} {node : Nat}
    (run : rcMergeCell bits o f idx node k inode map = some (inode', map')) :
    inode'.link = inode.link ∧ inode'.hint = inode.hint ∧
    (inode'.btree = inode.btree ∨ inode'.btree = inode.btree.setChild node k (some o)) ∧
    (∀ b, bit map b = false → bit map' b = false) ∧
    (inode.filents o = some f → ∃ f', inode'.filents o = some f' ∧ f'.lIdx = f.lIdx) := by
  unfold rcMergeCell at run
  split at run
  · rename_i old _
    obtain ⟨oldFilent, held, run⟩ := bind_eq_some_iff.mp run
    split at run
    · rename_i newer
      obtain ⟨map'', clear, same⟩ := bind_eq_some_iff.mp run
      cases same
      refine ⟨rfl, rfl, .inr rfl, rcClearBit_clears clear, fun own => ⟨f, (update_of_ne ?_ _ _).trans own, rfl⟩⟩
      rintro rfl
      cases own.symm.trans held
      exact absurd newer (lt_irrefl _)
    · obtain ⟨map'', clear, same⟩ := bind_eq_some_iff.mp run
      cases same
      exact ⟨rfl, rfl, .inl rfl, rcClearBit_clears clear, fun own => ⟨f, own, rfl⟩⟩
  · cases run
    exact ⟨rfl, rfl, .inr rfl, fun _ clear => clear, fun _ => ⟨_, update_self .., rfl⟩⟩

theorem rcMergeCell_leaf {idx : Int} (tree : LeafTree inode.btree) (inside : k < 256)
    (run : rcMergeCell bits o f idx inode.btree.root k inode map = some (inode', map')) :
    LeafTree inode'.btree ∧ inode'.btree.root = inode.btree.root ∧ inode'.hint = inode.hint := by
  obtain ⟨_, hint, same | set, _⟩ := rcMergeCell_cases run
  · exact ⟨same ▸ tree, by rw [same], hint⟩
  · exact ⟨set ▸ tree.setChild inside _, by rw [set]; rfl, hint⟩

section
variable (h : LeafTree inode.btree ∧ HintInside inode.btree inode.hint)
include h

/-- The tree stays a single leaf, whatever the records are. -/
theorem rcMergeBlock_leaf (run : rcMergeBlock bits o i inode map = some (inode', map')) :
    LeafTree inode'.btree ∧ HintInside inode'.btree inode'.hint := by
  obtain ⟨f, held, run⟩ := bind_eq_some_iff.mp run
  simp only [h.1.ptr_index h.2 (toSize (f.lIdx + i))] at run
  split at run
  · cases run
  rename_i inside
  have hinted : LeafTree ({ inode with hint := ⟨some inode.btree.root, leafIndex inode.hint (toSize (f.lIdx + i)),
    toSize (f.lIdx + i)⟩ } : RcInode).btree := h.1
  obtain ⟨tree, root, hint⟩ := rcMergeCell_leaf hinted (Nat.lt_of_not_le inside) run
  refine ⟨tree, ?_⟩
  rw [hint]
  rintro node eq
  cases eq
  exact root.symm

theorem rcMergeAll_leaf (run : rcMergeAll mem bits ino records inode map = some (inode', map')) :
    LeafTree inode'.btree :=
  (rcMergeAll_inv (I := fun _ t hint _ => LeafTree t ∧ HintInside t hint) rcMergeBlock_leaf h run).1

end

theorem rcMergeBlock_clears (run : rcMergeBlock bits o i inode map = some (inode', map')) :
    inode'.link = inode.link ∧ ∀ b, bit map b = false → bit map' b = false := by
  obtain ⟨f, held, run⟩ := bind_eq_some_iff.mp run
  dsimp only at run
  split at run
  · cases run
  split at run
  · cases run
  · obtain ⟨link, _, _, clears, _⟩ := rcMergeCell_cases run
    exact ⟨link, clears⟩

theorem rcMergeRecord_clears (run : rcMergeRecord mem bits ino r inode map = some (inode', map')) :
    inode'.link = inode.link ∧ ∀ b, bit map b = false → bit map' b = false := by
  apply rcMergeRecord_inv (I := fun link _ _ map' => link = inode.link ∧
    ∀ b, bit map b = false → bit map' b = false) _ _ run
  · intro o i inode1 map1 inode2 map2 before block
    obtain ⟨link, clears⟩ := rcMergeBlock_clears block
    exact ⟨link.trans before.1, fun b clear => clears b (before.2 b clear)⟩
  · exact ⟨rfl, fun _ clear => clear⟩

end

end SlotFs
