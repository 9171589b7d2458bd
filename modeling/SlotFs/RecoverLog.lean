import SlotFs.Recover
import SlotFs.WriteCrash

/-!
# Recovery of a file log

The records of a file are merged in the order of the chain, block by block, in a tree
that stays a single node. What the newest record of a block is, how the cells of that
node are found and counted, and what one block does to them.
-/

namespace SlotFs
open CWord Function List Option PmFilent Btree

/-! ## The newest record of a block -/

/-- Record `o` is the newest of those that cover block `k`. -/
def NewestAt (records : List PmFilent) (k o : Nat) : Prop :=
  ∃ r, records[o]? = some r ∧ r.Covers k ∧ ∀ q ∈ records, q.Covers k → q.ts ≤ r.ts

/-- Records that share a block differ in their time. -/
def DistinctTimes (records : List PmFilent) : Prop :=
  records.Pairwise fun r q => ∀ k, r.Covers k → q.Covers k → r.ts ≠ q.ts

/-- What the cell of block `k` may hold when the records have been merged. -/
def Resolved (records : List PmFilent) (k : Nat) : Option Nat → Prop
  | none => ∀ q ∈ records, ¬ q.Covers k
  | some o => NewestAt records k o

section
variable {records : List PmFilent} {r q : PmFilent} {k o : Nat} {cell : Option Nat}

theorem NewestAt.lt (h : NewestAt records k o) : o < records.length := by
  obtain ⟨r, at_o, _, _⟩ := h
  exact (List.getElem?_eq_some_iff.mp at_o).1

theorem NewestAt.unique (distinct : DistinctTimes records) {o' : Nat} (h : NewestAt records k o)
    (h' : NewestAt records k o') : o = o' := by
  obtain ⟨r, at_o, covers, newest⟩ := h
  obtain ⟨r', at_o', covers', newest'⟩ := h'
  obtain ⟨inside, rfl⟩ := List.getElem?_eq_some_iff.mp at_o
  obtain ⟨inside', rfl⟩ := List.getElem?_eq_some_iff.mp at_o'
  have le := newest _ (getElem_mem inside') covers'
  have ge := newest' _ (getElem_mem inside) covers
  have pairs := pairwise_iff_getElem.mp distinct
  rcases Nat.lt_trichotomy o o' with before | same | behind
  · exact absurd (le_antisymm ge le) (pairs o o' inside inside' before k covers covers')
  · exact same
  · exact absurd (le_antisymm le ge) (pairs o' o inside' inside behind k covers' covers)

/-- Of the records that cover a block one is the newest. -/
theorem exists_newestAt (member : r ∈ records) (covers : r.Covers k) : ∃ o, NewestAt records k o := by
  let covering : Finset Nat := (Finset.range records.length).filter fun o => ∃ q, records[o]? = some q ∧
    q.Covers k
  obtain ⟨n, inside, rfl⟩ := mem_iff_getElem.mp member
  have nonempty : covering.Nonempty := ⟨n, by simp [covering, inside, covers]⟩
  obtain ⟨o, at_o, best⟩ := covering.exists_max_image (fun o => (records[o]?.map ts).getD 0)
    nonempty
  obtain ⟨_, q, found, covered⟩ := by simpa only [covering, Finset.mem_filter] using at_o
  refine ⟨o, q, found, covered, fun p listed overlaps => ?_⟩
  obtain ⟨m, inside', rfl⟩ := mem_iff_getElem.mp listed
  have := best m (by simp [covering, inside', overlaps])
  simpa [found, inside'] using this

/-! ## One more record -/

theorem Resolved.skip (h : Resolved records k cell) (outside : ¬ r.Covers k) :
    Resolved (records ++ [r]) k cell := by
  cases cell with
  | none =>
    intro q member
    rcases mem_append.mp member with member | member
    · exact h q member
    · rw [mem_singleton.mp member]
      exact outside
  | some o =>
    obtain ⟨q, at_o, covers, newest⟩ := h
    refine ⟨q, by rw [List.getElem?_append_left (NewestAt.lt ⟨q, at_o, covers, newest⟩), at_o], covers, ?_⟩
    intro p member overlaps
    rcases mem_append.mp member with member | member
    · exact newest p member overlaps
    · rw [mem_singleton.mp member] at overlaps
      exact absurd overlaps outside

theorem newestAt_last (covers : r.Covers k) (newest : ∀ q ∈ records, q.Covers k → q.ts ≤ r.ts) :
    NewestAt (records ++ [r]) k records.length := by
  refine ⟨r, by simp, covers, fun q member overlaps => ?_⟩
  rcases mem_append.mp member with member | member
  · exact newest q member overlaps
  · rw [mem_singleton.mp member]

theorem Resolved.first (h : Resolved records k none) (covers : r.Covers k) :
    Resolved (records ++ [r]) k (some records.length) :=
  newestAt_last covers fun q member overlaps => absurd overlaps (h q member)

section
variable (h : Resolved records k (some o)) (at_o : records[o]? = some q)
include h at_o

theorem Resolved.newer (newer : q.ts < r.ts) (covers : r.Covers k) :
    Resolved (records ++ [r]) k (some records.length) := by
  obtain ⟨q', found, _, newest⟩ := h
  obtain rfl : q = q' := some.inj (at_o.symm.trans found)
  exact newestAt_last covers fun p member overlaps => (newest p member overlaps).trans newer.le

theorem Resolved.older (older : ¬ q.ts < r.ts) : Resolved (records ++ [r]) k (some o) := by
  have inside := NewestAt.lt h
  obtain ⟨q', found, covered, newest⟩ := h
  obtain rfl : q = q' := some.inj (at_o.symm.trans found)
  refine ⟨q, by rw [List.getElem?_append_left inside, at_o], covered, fun p member overlaps => ?_⟩
  rcases mem_append.mp member with member | member
  · exact newest p member overlaps
  · rw [mem_singleton.mp member]
    omega

end

/-- The record takes the block over from earlier ones. -/
def TakesOver (earlier : List PmFilent) (r : PmFilent) (k : Nat) : Prop :=
  (∃ q ∈ earlier, q.Covers k) ∧ ∀ q ∈ earlier, q.Covers k → q.ts < r.ts

instance (earlier : List PmFilent) (r : PmFilent) (k : Nat) : Decidable (TakesOver earlier r k) :=
  inferInstanceAs (Decidable (_ ∧ _))

/-- How many of the first `n` blocks of the record it takes over. -/
def takenOver (earlier : List PmFilent) (r : PmFilent) (n : Nat) : Nat :=
  (List.range n).countP fun i => TakesOver earlier r (r.lIdx + i)

theorem takenOver_succ (earlier : List PmFilent) (r : PmFilent) (n : Nat) : takenOver earlier r (n + 1) =
      takenOver earlier r n + if TakesOver earlier r (r.lIdx + n) then 1 else 0 := by
  simp [takenOver, range_succ, countP_append, countP_cons]

theorem Resolved.not_takesOver (h : Resolved records k none) : ¬ TakesOver records r k := by
  rintro ⟨⟨q, member, covers⟩, _⟩
  exact h q member covers

theorem Resolved.takesOver_iff (h : Resolved records k (some o)) (at_o : records[o]? = some q) :
    TakesOver records r k ↔ q.ts < r.ts := by
  obtain ⟨q', found, covers, newest⟩ := h
  obtain rfl : q = q' := some.inj (at_o.symm.trans found)
  have member := mem_of_getElem? at_o
  constructor
  · exact fun taken => taken.2 q member covers
  · exact fun newer => ⟨⟨q, member, covers⟩, fun p listed overlaps =>
      (newest p listed overlaps).trans_lt newer⟩

end

/-! ## A tree of one node -/

/-- The tree is never grown: its root is its only leaf. -/
structure LeafTree (t : Btree) : Prop where
  leaf : (t.nodes t.root).height = 0
  top : (t.nodes t.root).parent = none
  first : (t.nodes t.root).branchIndex = 0
  outside : ∀ k, 256 ≤ k → (t.nodes t.root).children k = none

/-- The hint lies in the root, in any cell. -/
def HintInside (t : Btree) (hint : BtreePtr) : Prop :=
  ∀ node, hint.node = some node → node = t.root

/-- The cell for a key behind a hint. -/
def leafIndex (hint : BtreePtr) (key : Nat) : Nat :=
  if hint.node = none then key
  else if hint.key = key then hint.index
  else if key = wrap64 (hint.key + 1) then (if hint.index + 1 < 256 then hint.index + 1 else 0)
  else key

/-- The hint is the cell of its key. -/
def HintExact (hint : BtreePtr) : Prop :=
  ∀ node, hint.node = some node → hint.index = hint.key ∧ hint.key < 256

theorem btreeCreate_leaf {t : Btree} (created : btreeCreate (fun _ => true) = some t) :
    LeafTree t ∧ ∀ k, btreeGet t k = none := by
  cases created
  exact ⟨⟨rfl, rfl, rfl, fun _ _ => rfl⟩, fun _ => rfl⟩

section
variable {t : Btree} {hint : BtreePtr} {key index : Nat}

section
variable (h : LeafTree t)
include h

theorem LeafTree.get (k : Nat) : btreeGet t k = (t.nodes t.root).children k := by
  rw [btreeGet, getLoop.eq_def]
  simp [h.leaf]

theorem LeafTree.pos (key : Nat) (create : Bool) : btreePos t key create = (0, some (t.root, key), t) := by
  rw [btreePos, posLoop.eq_def]
  simp [h.leaf]

theorem LeafTree.climb (fuel i : Nat) : nextClimb t fuel t.root i = (t.root, i) := by
  cases fuel with
  | zero => rfl
  | succ fuel => simp [nextClimb, h.top]

/-- The place behind the last cell is the first one again. -/
theorem LeafTree.next (index : Nat) :
    btreeNext t t.root index true = (0, some (t.root, if index + 1 < 256 then index + 1 else 0), t) := by
  unfold btreeNext
  split
  · simp
  · simp only [h.climb, h.first]
    rw [if_neg (fun last => absurd last.2 (by decide)), nextDescend.eq_def]
    simp [h.leaf]

theorem LeafTree.ptr_index (inside : HintInside t hint) (key : Nat) : btreeGetPtrHint t key hint =
      (some (t.root, leafIndex hint key), t, ⟨some t.root, leafIndex hint key, key⟩) := by
  unfold btreeGetPtrHint leafIndex
  cases at_node : hint.node with
  | none => simp [h.pos]
  | some node =>
    obtain rfl := inside node at_node
    by_cases same : hint.key = key
    · simp [same]
    by_cases following : key = wrap64 (hint.key + 1)
    · simp only [if_neg same, if_pos following, h.next]
      simp
    · simp [same, following, h.pos]

theorem LeafTree.ptr_exact (inside : HintInside t hint) (exact : HintExact hint) (low : key < 256) :
    btreeGetPtrHint t key hint = (some (t.root, key), t, ⟨some t.root, key, key⟩) := by
  have same : leafIndex hint key = key := by
    unfold leafIndex
    cases at_node : hint.node with
    | none => simp
    | some node =>
      obtain ⟨place, small⟩ := exact _ at_node
      have succ := wrap64_of_lt (show hint.key + 1 < 2 ^ 64 by omega)
      split_ifs <;> omega
  rw [h.ptr_index inside, same]

theorem LeafTree.setChild (inside : index < 256) (v : Option Nat) : LeafTree (t.setChild t.root index v) where
  leaf := by simpa [setChild, setNode] using h.leaf
  top := by simpa [setChild, setNode] using h.top
  first := by simpa [setChild, setNode] using h.first
  outside := by
    intro k far
    change ((t.setChild t.root index v).nodes t.root).children k = none
    rw [setChild_children, if_neg (by omega), h.outside k far]

theorem LeafTree.get_setChild (inside : index < 256) (v : Option Nat) :
    btreeGet (t.setChild t.root index v) = update (btreeGet t) index v := by
  funext k
  rw [(h.setChild inside v).get, update_apply, h.get]
  change ((t.setChild t.root index v).nodes t.root).children k = _
  rw [setChild_children]
  simp

end

end

/-! ## The cells of a record -/

/-- How many of the 256 cells lead to record `o`. -/
def cellCount (cells : Nat → Option Nat) (o : Nat) : Nat :=
  ∑ k ∈ Finset.range 256, if cells k = some o then 1 else 0

section
variable {cells : Nat → Option Nat} {k o : Nat} {v : Option Nat}

theorem cellCount_update (cells : Nat → Option Nat) (inside : k < 256) (v : Option Nat) (o : Nat) :
    cellCount (update cells k v) o + (if cells k = some o then 1 else 0) =
      cellCount cells o + if v = some o then 1 else 0 := by
  have change : cellCount (update cells k v) o + (if cells k = some o then 1 else 0) =
      cellCount cells o + if update cells k v k = some o then 1 else 0 := by
    apply Ledger.sum_change (Finset.mem_range.mpr inside)
    intro j _ other
    rw [update_of_ne other]
  rwa [update_self] at change

theorem cellCount_eq_zero (unused : ∀ k, cells k ≠ some o) : cellCount cells o = 0 := by
  simp [cellCount, unused]

theorem cellCount_pos (inside : k < 256) (used : cells k = some o) : 0 < cellCount cells o := by
  apply Finset.sum_pos' (fun _ _ => Nat.zero_le _)
  exact ⟨k, Finset.mem_range.mpr inside, by simp [used]⟩

theorem cellCount_eq_ncard (outside : ∀ k, 256 ≤ k → cells k = none) :
    cellCount cells o = {k | cells k = some o}.ncard := by
  have same : {k | cells k = some o} = ((Finset.range 256).filter fun k => cells k = some o : Finset Nat) := by
    ext k
    simp only [Set.mem_ofPred_eq, Finset.coe_filter, Finset.mem_range]
    constructor
    · intro used
      refine ⟨?_, used⟩
      by_contra far
      cases (outside k (by omega)).symm.trans used
    · exact fun h => h.2
  rw [same, Set.ncard_coe_finset, Finset.card_filter, cellCount]

end

/-! ## One block -/

/-- The record as recovery holds it. -/
def PmFilent.held (r : PmFilent) (ref : Int) : RcFilent :=
  ⟨r.ts, ref, r.pIdx, r.lIdx, toInt32 r.blocks⟩

/-- The bit that is cleared when record `r` meets record `q` at block `k`. -/
def lostBit (q r : PmFilent) (k : Nat) : Int :=
  if q.ts < r.ts then q.pIdx + (q.lIdx - k) else r.pIdx + (r.lIdx - k)

def InMap (bits : Nat) (nr : Int) : Prop := toSize nr / 8 < mapBytes bits

/-- What is left of a record that has lost a cell. -/
def RcInode.lose (inode : RcInode) (q : PmFilent) (o : Nat) (ref : Int) : RcInode :=
  { inode with
    list := if ref - 1 = 0 then inode.list.erase o else inode.list
    filents := update inode.filents o (if ref - 1 = 0 then none else some (q.held (ref - 1))) }

section
variable {bits o old i k : Nat} {inode inode' : RcInode} {map map' : Mem} {hint : BtreePtr}
  {q r : PmFilent} {ref ref' : Int}

theorem rcClearBit_eq_some {nr : Int} :
    rcClearBit bits nr map = some map' ↔ InMap bits nr ∧ map' = clearBit (toSize nr) map := by
  unfold rcClearBit InMap
  split
  · simp [*, eq_comm]
  · simp [*]

theorem rcMergeBlock_eq (own : inode.filents o = some (r.held ref))
    (ptr : btreeGetPtrHint inode.btree (r.lIdx + i) inode.hint =
      (some (inode.btree.root, k), inode.btree, hint)) :
    rcMergeBlock bits o i inode map = if 256 ≤ k then none
      else rcMergeCell bits o (r.held ref) (r.lIdx + i : Nat) inode.btree.root k { inode with hint } map := by
  have idx : (r.held ref).lIdx + i = ((r.lIdx + i : Nat) : Int) := by
    rw [held, Nat.cast_add]
  simp only [rcMergeBlock, own, bind_eq_bind, bind_some, idx, toSize_natCast, ptr]

section
variable (tree : LeafTree inode.btree)
include tree

/-- A block that nobody has. -/
theorem rcMergeCell_free (free : btreeGet inode.btree k = none) (idx : Int) :
    rcMergeCell bits o (r.held ref) idx inode.btree.root k inode map = some ({ inode with
      btree := inode.btree.setChild inode.btree.root k (some o)
      filents := update inode.filents o (some (r.held (ref + 1))) }, map) := by
  rw [tree.get] at free
  simp only [rcMergeCell, free, held]

/-- A block that another record has. -/
theorem rcMergeCell_used (used : btreeGet inode.btree k = some old)
    (other : inode.filents old = some (q.held ref')) :
    rcMergeCell bits o (r.held ref) k inode.btree.root k inode map =
      (rcClearBit bits (lostBit q r k) map).map fun map =>
        (if q.ts < r.ts then { inode.lose q old ref' with
            btree := inode.btree.setChild inode.btree.root k (some o) }
          else inode, map) := by
  rw [tree.get] at used
  simp only [rcMergeCell, used, other, bind_eq_bind, bind_some, held, lostBit,
    RcInode.lose]
  by_cases newer : q.ts < r.ts
  · simp only [if_pos newer]
    cases rcClearBit bits (q.pIdx + (q.lIdx - k)) map <;> rfl
  · simp only [if_neg newer]
    cases rcClearBit bits (r.pIdx + (r.lIdx - k)) map <;> rfl

theorem rcMergeCell_freed (used : btreeGet inode.btree k = some old) (gone : inode.filents old = none)
    (f : RcFilent) (idx : Int) : rcMergeCell bits o f idx inode.btree.root k inode map = none := by
  rw [tree.get] at used
  simp only [rcMergeCell, used, gone, bind_eq_bind, bind_none]

end

end

end SlotFs
