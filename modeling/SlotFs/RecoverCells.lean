import SlotFs.RecoverFile

/-!
# The cells of a recovered file

`rc_handle_filent` asks `btree_get_ptr_hint` for the cell of every block of every record, and
never grows the tree. Which cells it gets is decided by the blocks alone, in the order in which
the log has them.
-/

namespace SlotFs
open CWord Chains Function List Option BtreePtr

variable {asks asks' : List Ask} {keys' : List Nat}

/-- A key and what the lookup returned for it. -/
abbrev Ask := Nat × Option (Nat × Nat)

/-- Lookups one after the other with one hint. -/
def lookups : Btree → BtreePtr → List Nat → List Ask
  | _, _, [] => []
  | t, hint, key :: rest =>
    (key, (btreeGetPtrHint t key hint).1) ::
      lookups (btreeGetPtrHint t key hint).2.1 (btreeGetPtrHint t key hint).2.2 rest

/-- The keys of `n` blocks from block `i` of a record on. -/
def blockKeys (lIdx i n : Nat) : List Nat := (List.range' i n).map (lIdx + ·)

/-- The blocks of a record in the order of the loop, and those of a log. -/
def PmFilent.keys (r : PmFilent) : List Nat := blockKeys r.lIdx 0 (toInt32 r.blocks).toNat

def logKeys (records : List PmFilent) : List Nat := records.flatMap PmFilent.keys

/-! ## What the handlers ask -/

/-- The lookups of `rcMergeLoop`, up to the one at which it stops. -/
def rcMergeAsks (bits o : Nat) : Nat → Nat → RcInode → Mem → List Ask
  | 0, _, _, _ => []
  | n + 1, i, inode, map =>
    match inode.filents o with
    | none => []
    | some filent =>
      let key := toSize (filent.lIdx + i)
      (key, (btreeGetPtrHint inode.btree key inode.hint).1) ::
        match rcMergeBlock bits o i inode map with
        | none => []
        | some (inode, map) => rcMergeAsks bits o n (i + 1) inode map

def rcRecordAsks (mem : Malloced) (bits ino : Nat) (r : PmFilent) (inode : RcInode) (map : Mem) :
    List Ask :=
  rcMergeAsks bits inode.asked (toInt32 r.blocks).toNat 0 (newRcFilent mem ino r inode) map

/-- The lookups for the records one after the other. -/
def rcAllAsks (mem : Malloced) (bits ino : Nat) : List PmFilent → RcInode → Mem → List Ask
  | [], _, _ => []
  | r :: rest, inode, map =>
    rcRecordAsks mem bits ino r inode map ++
      ((rcMergeRecord mem bits ino r inode map).map fun (inode, map) =>
        rcAllAsks mem bits ino rest inode map).getD []

/-! ## Lookups in a tree of one node -/

section
variable {t : Btree} {hint : BtreePtr}

section
variable (h : LeafTree t) (inside : HintInside t hint) (key : Nat)
include h inside key

theorem LeafTree.lookups_cons (rest : List Nat) :
    lookups t hint (key :: rest) = (key, some (t.root, leafIndex hint key)) ::
      lookups t ⟨some t.root, leafIndex hint key, key⟩ rest := by
  rw [lookups, h.ptr_index inside]

end

theorem hintInside_root (t : Btree) (index key : Nat) : HintInside t ⟨some t.root, index, key⟩ := by
  intro node at_node
  cases at_node
  rfl

/-- The content of the tree does not matter. -/
theorem LeafTree.lookups_congr (h : LeafTree t) {t' : Btree} (h' : LeafTree t')
    (root : t'.root = t.root) (inside : HintInside t hint) (keys : List Nat) :
    lookups t' hint keys = lookups t hint keys := by
  induction keys generalizing hint with
  | nil => rfl
  | cons key rest ih =>
    have inside' : HintInside t' hint := fun node at_node => (inside node at_node).trans root.symm
    rw [h.lookups_cons inside, h'.lookups_cons inside', root, ih (hintInside_root t _ _)]

theorem LeafTree.lookups_append (h : LeafTree t) (inside : HintInside t hint) (keys rest : List Nat) :
    lookups t hint keys <+: lookups t hint (keys ++ rest) := by
  induction keys generalizing hint with
  | nil => exact prefix_append [] _
  | cons key keys ih =>
    rw [cons_append, h.lookups_cons inside, h.lookups_cons inside]
    exact (prefix_cons_inj _).mpr (ih (hintInside_root t _ _))

end

/-! ## The run asks for the blocks of the log -/

section
variable {bits ino o i n : Nat} {mem : Malloced} {inode inode' : RcInode} {map map' : Mem}
  {f : RcFilent}

/-- A tree of one node with a hint in it. -/
def RcInode.OneLeaf (inode : RcInode) : Prop :=
  LeafTree inode.btree ∧ HintInside inode.btree inode.hint

/-- The lookups from `inode` on go on as those from `inode'`. -/
def RcInode.GoesOn (inode : RcInode) (keys : List Nat) (asks : List Ask) (inode' : RcInode) : Prop :=
  inode'.OneLeaf ∧ ∀ rest, lookups inode.btree inode.hint (keys ++ rest) =
    asks ++ lookups inode'.btree inode'.hint rest

theorem RcInode.GoesOn.trans {inode'' : RcInode} {keys : List Nat} (h : inode.GoesOn keys asks inode')
    (h' : inode'.GoesOn keys' asks' inode'') : inode.GoesOn (keys ++ keys') (asks ++ asks') inode'' := by
  refine ⟨h'.1, fun rest => ?_⟩
  rw [append_assoc, h.2, h'.2, append_assoc]

theorem RcInode.GoesOn.begins {keys : List Nat} (h : inode.GoesOn keys asks inode')
    (h' : asks' <+: lookups inode'.btree inode'.hint keys') :
    asks ++ asks' <+: lookups inode.btree inode.hint (keys ++ keys') := by
  rw [h.2]
  exact (prefix_append_right_inj asks).mpr h'

theorem rcMergeBlock_goesOn (h : inode.OneLeaf) (own : inode.filents o = some f)
    (run : rcMergeBlock bits o i inode map = some (inode', map')) : inode.GoesOn [toSize (f.lIdx + i)]
      [(toSize (f.lIdx + i), (btreeGetPtrHint inode.btree (toSize (f.lIdx + i)) inode.hint).1)] inode' ∧
    ∃ f', inode'.filents o = some f' ∧ f'.lIdx = f.lIdx := by
  have ptr := h.1.ptr_index h.2 (toSize (f.lIdx + i))
  simp only [rcMergeBlock, own, bind_eq_bind, bind_some, ptr] at run
  split at run
  · cases run
  rename_i inside
  obtain ⟨hinted, eq⟩ : ∃ hinted : RcInode, hinted = { inode with hint := ⟨some inode.btree.root,
    leafIndex inode.hint (toSize (f.lIdx + i)), toSize (f.lIdx + i)⟩ } := ⟨_, rfl⟩
  have tree : hinted.btree = inode.btree := by rw [eq]
  have own' : hinted.filents o = some f := by rw [eq, own]
  rw [← eq, ← tree] at run
  obtain ⟨leaf, root, hint⟩ := rcMergeCell_leaf (by rw [tree]; exact h.1) (Nat.lt_of_not_le inside) run
  rw [tree] at root
  refine ⟨⟨⟨leaf, ?_⟩, fun rest => ?_⟩, (rcMergeCell_cases run).2.2.2.2 own'⟩
  · rw [hint, eq, ← root]
    exact hintInside_root _ _ _
  · rw [singleton_append, h.1.lookups_cons h.2, ptr, hint, eq,
      h.1.lookups_congr leaf root (hintInside_root _ _ _), singleton_append]

theorem rcMergeLoop_asks (h : inode.OneLeaf) {r : PmFilent} (own : inode.filents o = some f)
    (place : f.lIdx = r.lIdx) :
    rcMergeAsks bits o n i inode map <+: lookups inode.btree inode.hint (blockKeys r.lIdx i n) ∧
    ∀ inode' map', rcMergeLoop bits o n i inode map = some (inode', map') →
      inode.GoesOn (blockKeys r.lIdx i n) (rcMergeAsks bits o n i inode map) inode' := by
  induction n generalizing i inode map f with
  | zero =>
    refine ⟨prefix_append [] _, fun inode' map' run => ?_⟩
    cases run
    exact ⟨h, fun rest => rfl⟩
  | succ n ih =>
    have key : toSize (f.lIdx + i) = r.lIdx + i := by
      rw [place, ← Nat.cast_add, toSize_natCast]
    have keys : blockKeys r.lIdx i (n + 1) = [r.lIdx + i] ++ blockKeys r.lIdx (i + 1) n := by
      simp [blockKeys, List.range'_succ]
    simp only [rcMergeAsks, own, rcMergeLoop, keys]
    cases block : rcMergeBlock bits o i inode map with
    | none =>
      refine ⟨?_, fun inode' map' run => by cases run⟩
      rw [key, singleton_append, h.1.lookups_cons h.2, h.1.ptr_index h.2]
      exact (prefix_cons_inj _).mpr (prefix_append [] _)
    | some out =>
      obtain ⟨inode1, map1⟩ := out
      obtain ⟨goesOn, f1, own1, place1⟩ := rcMergeBlock_goesOn h own block
      obtain ⟨asks, ran⟩ := @ih (i + 1) inode1 map1 f1 goesOn.1 own1 (place1.trans place)
      rw [key] at goesOn ⊢
      exact ⟨goesOn.begins asks, fun inode' map' run => goesOn.trans (ran inode' map' run)⟩

theorem rcKeep_same (keep : rcKeep o inode = some inode') :
    inode'.btree = inode.btree ∧ inode'.hint = inode.hint := by
  obtain ⟨f, _, kept⟩ := bind_eq_some_iff.mp keep
  split at kept <;> cases kept <;> exact ⟨rfl, rfl⟩

theorem rcMergeRecord_asks (h : inode.OneLeaf) (r : PmFilent) :
    rcRecordAsks mem bits ino r inode map <+: lookups inode.btree inode.hint r.keys ∧
    ∀ inode' map', rcMergeRecord mem bits ino r inode map = some (inode', map') →
      inode.GoesOn r.keys (rcRecordAsks mem bits ino r inode map) inode' := by
  have new : (newRcFilent mem ino r inode).OneLeaf := h
  obtain ⟨asks, ran⟩ := @rcMergeLoop_asks bits inode.asked 0 (toInt32 r.blocks).toNat _ map _ new r
    (update_self ..) rfl
  refine ⟨asks, fun inode' map' run => ?_⟩
  unfold rcMergeRecord at run
  obtain ⟨⟨inode1, map1⟩, loop, rest⟩ := bind_eq_some_iff.mp run
  obtain ⟨inode2, keep, same⟩ := bind_eq_some_iff.mp rest
  cases same
  obtain ⟨tree, hint⟩ := rcKeep_same keep
  obtain ⟨leaf, goesOn⟩ := ran inode1 map' loop
  refine ⟨?_, ?_⟩
  · change LeafTree inode2.btree ∧ HintInside inode2.btree inode2.hint
    rw [tree, hint]
    exact leaf
  intro more
  change _ = _ ++ lookups inode2.btree inode2.hint more
  rw [tree, hint]
  exact goesOn more

/-- What the records ask for is the beginning of the lookups of their blocks, and all of them when
no access crashes. -/
theorem rcMergeAll_asks (h : inode.OneLeaf) (records : List PmFilent) :
    rcAllAsks mem bits ino records inode map <+: lookups inode.btree inode.hint (logKeys records) ∧
    ((rcMergeAll mem bits ino records inode map).isSome →
      rcAllAsks mem bits ino records inode map = lookups inode.btree inode.hint (logKeys records)) := by
  induction records generalizing inode map with
  | nil => simp [rcAllAsks, logKeys, lookups]
  | cons r rest ih =>
    obtain ⟨asks, ran⟩ := @rcMergeRecord_asks bits ino mem inode map h r
    simp only [rcAllAsks, rcMergeAll, logKeys, flatMap_cons]
    cases record : rcMergeRecord mem bits ino r inode map with
    | none =>
      refine ⟨?_, fun ended => by cases ended⟩
      rw [map_none, getD_none, append_nil]
      exact asks.trans (h.1.lookups_append h.2 _ _)
    | some out =>
      obtain ⟨inode1, map1⟩ := out
      have goesOn := ran inode1 map1 record
      obtain ⟨asks', all⟩ := @ih inode1 map1 goesOn.1
      refine ⟨goesOn.begins asks', fun ended => ?_⟩
      rw [goesOn.2, map_some, getD_some, all ended]
      rfl

end

/-! ## Which cells -/

/-- Every key is below 256, the key before it again, or the one behind that. -/
def Steady : Option Nat → List Nat → Prop
  | _, [] => True
  | last, key :: rest => (key < 256 ∨ last = some key ∨ ∃ k, last = some k ∧ key = k + 1) ∧
    Steady (some key) rest

/-- The cell is in the array of a node of the tree. -/
def Ask.Inside (t : Btree) (ask : Ask) : Prop :=
  ∃ node index, ask.2 = some (node, index) ∧ node < t.arena.asked ∧ index < 256

/-- Different keys have different cells. -/
def CellsDistinct (asks : List Ask) : Prop :=
  ∀ a ∈ asks, ∀ b ∈ asks, a.1 ≠ b.1 → a.2 ≠ b.2

section
variable {t : Btree} {hint : BtreePtr}

/-- The key that the hint is for. -/
def BtreePtr.last (hint : BtreePtr) : Option Nat := hint.node.map fun _ => hint.key

theorem LeafTree.steady (h : LeafTree t) (inside : HintInside t hint) {keys : List Nat}
    (small : ∀ key ∈ keys, key + 1 < 2 ^ 64) (low : hint.key + 1 < 2 ^ 64)
    (asks : ∀ ask ∈ lookups t hint keys, ask.Inside t) : Steady hint.last keys := by
  induction keys generalizing hint with
  | nil => trivial
  | cons key rest ih =>
    rw [h.lookups_cons inside] at asks
    obtain ⟨node, index, found, _, bound⟩ := asks _ mem_cons_self
    cases found
    refine ⟨?_, ?_⟩
    · unfold leafIndex at bound
      rw [wrap64_of_lt low] at bound
      cases at_node : hint.node with
      | none =>
        rw [if_pos at_node] at bound
        exact Or.inl bound
      | some node =>
        rw [if_neg (by simp [at_node])] at bound
        by_cases again : hint.key = key
        · exact Or.inr (Or.inl (by simp [last, at_node, again]))
        by_cases next : key = hint.key + 1
        · exact Or.inr (Or.inr ⟨hint.key, by simp [last, at_node], next⟩)
        · rw [if_neg again, if_neg next] at bound
          exact Or.inl bound
    · exact ih (hintInside_root t _ _) (fun k member => small k (mem_cons_of_mem _ member))
        (small key mem_cons_self) (fun ask member => asks ask (mem_cons_of_mem _ member))

theorem LeafTree.lookups_steady (h : LeafTree t) (inside : HintInside t hint) {keys : List Nat}
    (small : ∀ key ∈ keys, key + 1 < 2 ^ 64) (low : hint.key + 1 < 2 ^ 64)
    (place : hint.node ≠ none → hint.index = hint.key % 256) (steady : Steady hint.last keys) :
    lookups t hint keys = keys.map fun key => (key, some (t.root, key % 256)) := by
  induction keys generalizing hint with
  | nil => rfl
  | cons key rest ih =>
    have index : leafIndex hint key = key % 256 := by
      have reach := steady.1
      unfold leafIndex
      rw [wrap64_of_lt low]
      cases at_node : hint.node with
      | none =>
        have first : key < 256 := by simpa [last, at_node] using reach
        rw [if_pos rfl, Nat.mod_eq_of_lt first]
      | some node =>
        have here := place (by simp [at_node])
        simp only [last, at_node, map_some, some.injEq, exists_eq_left'] at reach
        rw [if_neg (by simp)]
        split_ifs <;> omega
    rw [h.lookups_cons inside, index, map_cons]
    rw [ih (hintInside_root t _ _) (fun k member => small k (mem_cons_of_mem _ member))
      (small key mem_cons_self) (fun _ => rfl) steady.2]

theorem LeafTree.cells_iff (h : LeafTree t) (live : t.root < t.arena.asked) (empty : hint.node = none)
    (low : hint.key + 1 < 2 ^ 64) {keys : List Nat} (small : ∀ key ∈ keys, key + 1 < 2 ^ 64) :
    ((∀ ask ∈ lookups t hint keys, ask.Inside t) ∧ CellsDistinct (lookups t hint keys)) ↔
      Steady none keys ∧ ∀ k ∈ keys, ∀ k' ∈ keys, k ≠ k' → k % 256 ≠ k' % 256 := by
  have inside : HintInside t hint := fun node at_node => by
    cases empty.symm.trans at_node
  have last : hint.last = none := by rw [last, empty, map_none]
  have exactly (steady : Steady none keys) :
      lookups t hint keys = keys.map fun key => (key, some (t.root, key % 256)) :=
    h.lookups_steady inside small low (fun some => absurd empty some) (by rw [last]; exact steady)
  constructor
  · rintro ⟨bounded, distinct⟩
    have steady := h.steady inside small low bounded
    rw [last] at steady
    rw [exactly steady] at distinct
    refine ⟨steady, fun k member k' member' other same => ?_⟩
    exact distinct _ (mem_map_of_mem member) _ (mem_map_of_mem member') other (by rw [same])
  rintro ⟨steady, distinct⟩
  rw [exactly steady]
  refine ⟨fun ask member => ?_, fun a member b member' other same => ?_⟩
  · obtain ⟨k, _, rfl⟩ := mem_map.mp member
    exact ⟨t.root, k % 256, rfl, live, Nat.mod_lt _ (by decide)⟩
  · obtain ⟨k, inKeys, rfl⟩ := mem_map.mp member
    obtain ⟨k', inKeys', rfl⟩ := mem_map.mp member'
    exact distinct k inKeys k' inKeys' other (Prod.mk.inj (some.inj same)).2

end

theorem PmFilent.keys_small {r : PmFilent} {key : Nat} (member : key ∈ r.keys) : key + 1 < 2 ^ 64 := by
  obtain ⟨i, inRange, rfl⟩ := List.mem_map.mp member
  have bound := (mem_range'_1.mp inRange).2
  have := r.narrow.1
  have upper : toInt32 r.blocks < (2 ^ 32 + 1) / 2 := Int.bmod_lt (by decide)
  omega

theorem LeafTree.lookups_empty {t : Btree} (h : LeafTree t) {hint hint' : BtreePtr}
    (empty : hint.node = none) (empty' : hint'.node = none) (keys : List Nat) :
    lookups t hint keys = lookups t hint' keys := by
  have inside (hint : BtreePtr) (empty : hint.node = none) : HintInside t hint := by
    intro node at_node
    cases empty.symm.trans at_node
  cases keys with
  | nil => rfl
  | cons key rest =>
    rw [h.lookups_cons (inside hint empty), h.lookups_cons (inside hint' empty'), leafIndex, leafIndex,
      if_pos empty, if_pos empty']

/-- All lookups for a log, from a new tree and an empty hint. -/
def logAsks (t : Btree) (records : List PmFilent) : List Ask := lookups t ⟨none, 0, 0⟩ (logKeys records)

/-- The cells that a log leads to lie in the tree and are different for different blocks just when
every block that does not follow the one before it is below 256, and no two blocks of the log
are the same modulo 256. What `rc_handle_inode` looks up is the beginning of these lookups, and all
of them when it returns. -/
theorem recovery_cells_iff {mem : Malloced} {image : Image} {rc : Rc} {ino : Nat} {slots : List Int}
    {ghost : Int} {records : List PmFilent} (file : image.isDir ino = false)
    (inside : ino < image.slotNum .inode) (log : image.FileLog ino slots ghost)
    (read : slots.map image.fentTable = records) :
    ∃ t inode rc1, btreeCreate (fun _ => true) = some t ∧ inode.btree = t ∧
      (rcHandleInode mem image rc ino =
        (rcMergeAll mem (image.slotNum .data) ino records inode (rc.map .data)).map fun out =>
          Rc.logged rc1 ino (slots ++ [ghost]) (newRcFilent mem ino (image.fentTable ghost) out.1) out.2) ∧
      (rcAllAsks mem (image.slotNum .data) ino records inode (rc.map .data) <+: logAsks t records) ∧
      ((rcHandleInode mem image rc ino).isSome →
        rcAllAsks mem (image.slotNum .data) ino records inode (rc.map .data) = logAsks t records) ∧
      (((∀ ask ∈ logAsks t records, ask.Inside t) ∧ CellsDistinct (logAsks t records)) ↔
        Steady none (logKeys records) ∧
          ∀ k ∈ logKeys records, ∀ k' ∈ logKeys records, k ≠ k' → k % 256 ≠ k' % 256) := by
  obtain ⟨t, created⟩ : ∃ t, btreeCreate (fun _ => true) = some t := ⟨_, rfl⟩
  obtain ⟨leaf, -⟩ := btreeCreate_leaf created
  have live : t.root < t.arena.asked := by
    cases created
    decide
  have length := log.length_le
  obtain ⟨inode, opened⟩ : ∃ inode, inode = (rc.inodeAt mem ino).openFile image ino t := ⟨_, rfl⟩
  have empty : inode.hint.node = none := by rw [opened]; rfl
  have tree : inode.btree = t := by rw [opened]; rfl
  have oneLeaf : inode.OneLeaf := by
    refine ⟨by rwa [tree], fun node at_node => ?_⟩
    cases empty.symm.trans at_node
  have run := @rcHandleInode_openFile mem image rc ino inside file t created
  rw [rcLogLoop_file file log (update_self ..) (by rw [rcLogFuel]; omega), read, ← opened] at run
  obtain ⟨begins, all⟩ := @rcMergeAll_asks (image.slotNum .data) ino mem inode (rc.map .data) oneLeaf records
  have same : lookups inode.btree inode.hint (logKeys records) = logAsks t records := by
    rw [tree]
    exact leaf.lookups_empty empty rfl _
  rw [same] at begins all
  refine ⟨t, inode, _, created, tree, run, begins, fun ended => all ?_, ?_⟩
  · rw [run, isSome_map] at ended
    exact ended
  · refine leaf.cells_iff live rfl (by decide) fun key member => ?_
    obtain ⟨r, _, inKeys⟩ := mem_flatMap.mp member
    exact r.keys_small inKeys

/-- Two records of one block each, one behind the other. -/
theorem recovery_cells_iff_two : ∃ t, btreeCreate (fun _ => true) = some t ∧
    (∀ ask ∈ logAsks t ([1, 2].map (twoRecords 1)), ask.Inside t) ∧
    CellsDistinct (logAsks t ([1, 2].map (twoRecords 1))) := by
  obtain ⟨t, inode, rc1, created, _, _, _, _, cells⟩ := @recovery_cells_iff zeroed
    (fileImage (twoRecords 1)) emptyRc 1 [1, 2] 3 _ (by decide) (by decide) (twoRecords_log 1) rfl
  refine ⟨t, created, cells.mpr ⟨⟨Or.inl (by decide), Or.inl (by decide), trivial⟩, ?_⟩⟩
  decide

/-- One record of 257 blocks. -/
def longRecord (s : Int) : PmFilent := if s = 1 then ⟨0, 1, 257, 1, 2, by decide⟩ else .zero

/-- A file just over 256 blocks: block 256 gets the cell of block 0. -/
theorem recovery_shares_cell : (fileImage longRecord).FileLog 1 [1] 2 ∧
    ∃ t, btreeCreate (fun _ => true) = some t ∧
      (0, some (0, 0)) ∈ logAsks t ([1].map longRecord) ∧
      (256, some (0, 0)) ∈ logAsks t ([1].map longRecord) := by
  refine ⟨⟨.step (by decide) .done, ?_, rfl⟩, _, rfl, ?_, ?_⟩
  · intro s member
    simp only [cons_append, nil_append, mem_cons, not_mem_nil, or_false] at member
    rcases member with rfl | rfl <;> decide
  · decide +kernel
  · decide +kernel

end SlotFs
