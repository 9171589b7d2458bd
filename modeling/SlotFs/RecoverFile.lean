import SlotFs.RecoverMerge

/-!
# Recovery of a file

`rc_handle_inode` on a file: the slots of its log are marked one by one, and the records
in front of the ghost slot are merged. For a given log and given memory it is decided
here when the mapping, the counts and the lifetimes of the records come out right.
-/

namespace SlotFs
open CWord Chains Function List Option

variable {fe r : PmFilent}

/-! ## A log in PM -/

/-- A chain of slots that ends in the ghost slot, whose `next` is 0. -/
structure LogOf (next : Int → Int) (num : Nat) (head : Int) (slots : List Int) (ghost : Int) : Prop where
  chain : Chain next ghost head slots
  inside : ∀ s ∈ slots ++ [ghost], 0 < s ∧ s < num
  ended : next ghost = 0

def Image.FileLog (image : Image) (ino : Nat) : List Int → Int → Prop :=
  LogOf (fun s => (image.fentTable s).next) (image.slotNum .file) (image.inodes ino).logHead

section
variable {next : Int → Int} {num : Nat} {head ghost s : Int} {slots : List Int}

theorem LogOf.head_inside (h : LogOf next num head slots ghost) : 0 < head ∧ head < num := by
  cases h.chain with
  | done => exact h.inside head (mem_append_right _ (mem_singleton_self _))
  | step => exact h.inside head (mem_append_left _ (mem_cons_self ..))

theorem LogOf.tail (h : LogOf next num head (s :: slots) ghost) :
    head = s ∧ LogOf next num (next s) slots ghost := by
  obtain ⟨first, rest⟩ := h.chain.tail
  exact ⟨first, rest, fun t member => h.inside t (mem_cons_of_mem _ member), h.ended⟩

theorem LogOf.nil (h : LogOf next num head [] ghost) : head = ghost := by
  cases h.chain
  rfl

section
variable (h : LogOf next num head slots ghost)
include h

theorem LogOf.full : Chain next 0 head (slots ++ [ghost]) := by
  induction slots generalizing head with
  | nil =>
    obtain rfl := h.nil
    refine .step h.head_inside.1.ne' ?_
    rw [h.ended]
    exact .done
  | cons s slots ih =>
    obtain ⟨rfl, rest⟩ := h.tail
    exact .step h.head_inside.1.ne' (ih rest)

theorem LogOf.unique {slots' : List Int} {ghost' : Int} (h' : LogOf next num head slots' ghost') :
    slots = slots' ∧ ghost = ghost' := by
  obtain ⟨same, last⟩ := append_inj' (h.full.unique h'.full) rfl
  exact ⟨same, (List.cons.inj last).1⟩

/-- Every slot is on the log once. -/
theorem LogOf.length_le : slots.length ≤ num := by
  have bounded : slots.toFinset ⊆ Finset.Ioo (0 : Int) num := by
    intro s member
    obtain ⟨pos, below⟩ := h.inside s (mem_append_left _ (mem_toFinset.mp member))
    exact Finset.mem_Ioo.mpr ⟨pos, below⟩
  calc slots.length = slots.toFinset.card := (toFinset_card_of_nodup h.chain.nodup).symm
    _ ≤ (Finset.Ioo (0 : Int) num).card := Finset.card_le_card bounded
    _ ≤ num := by
      rw [Int.card_Ioo]
      omega

end

end

/-! ## Marks -/

def markAll (slots : List Int) (map : Mem) : Mem := slots.foldl (fun map s => setBit (toSize s) map) map

theorem bit_markAll (slots : List Int) (map : Mem) (b : Nat) :
    bit (markAll slots map) b = true ↔ (∃ s ∈ slots, toSize s = b) ∨ bit map b = true := by
  induction slots generalizing map with
  | nil => simp [markAll]
  | cons s rest ih =>
    have step := ih (setBit (toSize s) map)
    rw [bit_setBit] at step
    simp only [markAll, foldl_cons] at step ⊢
    rw [step]
    simp only [Bool.or_eq_true, decide_eq_true_eq, exists_mem_cons_iff]
    constructor
    · rintro (later | same | before)
      · exact .inl (.inr later)
      · exact .inl (.inl same.symm)
      · exact .inr before
    rintro ((same | later) | before)
    · exact .inr (.inl same.symm)
    · exact .inl later
    · exact .inr (.inr before)

theorem mark_inside {rc : Rc} {image : Image} {type : SlotType} {s : Int}
    (inside : 0 ≤ s ∧ s < image.slotNum type) :
    rc.mark image type s = some (rc.setMap type (setBit (toSize s) (rc.map type))) := by
  have small : toSize s / 8 < mapBytes (image.slotNum type) := by
    rw [toSize, if_pos inside.1, mapBytes]
    omega
  rw [Rc.mark, rcSetBit, if_pos small, map_some]

/-! ## The loop over the log of a file -/

/-- The log of file `ino` has been followed over `slots`. -/
def Rc.logged (rc : Rc) (ino : Nat) (slots : List Int) (inode : RcInode) (map : Mem) : Rc :=
  ((rc.setMap .file (markAll slots (rc.map .file))).setMap .data map).setInode ino inode

section
variable {mem : Malloced} {image : Image} {rc : Rc} {ino : Nat} {inode : RcInode} {head ghost : Int}
  {slots : List Int} {fuel : Nat}

section
variable (s : Int) (inside : 0 ≤ s ∧ s < image.slotNum .file) (here : rc.inodeTable ino = some inode)
include s inside here

theorem rcHandleFilent_record (linked : (image.fentTable s).next ≠ 0) : rcHandleFilent mem image rc ino s =
      (rcMergeRecord mem (image.slotNum .data) ino (image.fentTable s) inode (rc.map .data)).map
        fun (inode, map) => (rc.logged ino [s] inode map, (image.fentTable s).next) := by
  have present : (rc.setMap .file (setBit (toSize s) (rc.map .file))).inodeTable ino = some inode := here
  simp only [rcHandleFilent, mark_inside inside, bind_eq_bind, bind_some, present]
  rw [if_neg linked]
  change (rcMergeRecord mem (image.slotNum .data) ino (image.fentTable s) inode (rc.map .data)).bind _ = _
  cases rcMergeRecord mem (image.slotNum .data) ino (image.fentTable s) inode (rc.map .data) <;> rfl

theorem rcHandleFilent_ghost (ended : (image.fentTable s).next = 0) : rcHandleFilent mem image rc ino s =
      some (rc.logged ino [s] (newRcFilent mem ino (image.fentTable s) inode) (rc.map .data), 0) := by
  have present : (rc.setMap .file (setBit (toSize s) (rc.map .file))).inodeTable ino = some inode := here
  simp only [rcHandleFilent, mark_inside inside, bind_eq_bind, bind_some, present]
  rw [if_pos ended]
  simp [Rc.logged, Rc.setMap, Rc.setInode, markAll]

end

theorem Rc.logged_logged (s : Int) (inode1 inode2 : RcInode) (map1 map2 : Mem) :
    (rc.logged ino [s] inode1 map1).logged ino slots inode2 map2 = rc.logged ino (s :: slots) inode2 map2 := by
  simp only [Rc.logged, Rc.setMap, Rc.setInode, markAll, foldl_cons, foldl_nil]
  congr 1
  · funext type
    cases type <;> simp
  · rw [update_idem]

theorem rcLogLoop_file (file : image.isDir ino = false)
    (log : LogOf (fun s => (image.fentTable s).next) (image.slotNum .file) head slots ghost)
    (here : rc.inodeTable ino = some inode) (enough : slots.length + 2 ≤ fuel) :
    rcLogLoop mem image ino fuel rc head =
      (rcMergeAll mem (image.slotNum .data) ino (slots.map image.fentTable) inode (rc.map .data)).map
        fun (inode, map) =>
          rc.logged ino (slots ++ [ghost]) (newRcFilent mem ino (image.fentTable ghost) inode) map := by
  induction slots generalizing head rc inode fuel with
  | nil =>
    obtain rfl := log.nil
    obtain ⟨fuel, rfl⟩ : ∃ n, fuel = n + 1 + 1 := ⟨fuel - 2, by simp at enough; omega⟩
    obtain ⟨pos, below⟩ := log.head_inside
    rw [rcLogLoop, if_neg pos.ne', if_neg (by simp [file]), rcHandleFilent_ghost head ⟨pos.le, below⟩ here
      log.ended]
    simp [rcLogLoop, rcMergeAll]
  | cons s slots ih =>
    obtain ⟨rfl, rest⟩ := log.tail
    obtain ⟨fuel, rfl⟩ : ∃ n, fuel = n + 1 := ⟨fuel - 1, by simp at enough; omega⟩
    obtain ⟨pos, below⟩ := log.head_inside
    rw [rcLogLoop, if_neg pos.ne', if_neg (by simp [file]),
      rcHandleFilent_record head ⟨pos.le, below⟩ here rest.head_inside.1.ne', map_cons, rcMergeAll]
    cases rcMergeRecord mem (image.slotNum .data) ino (image.fentTable head) inode (rc.map .data) with
    | none => rfl
    | some merged =>
      obtain ⟨inode1, map1⟩ := merged
      have present : (rc.logged ino [head] inode1 map1).inodeTable ino = some inode1 :=
        update_self ..
      have data : (rc.logged ino [head] inode1 map1).map .data = map1 := by
        simp [Rc.logged, Rc.setMap, Rc.setInode]
      simp only [map_some, bind_some]
      rw [ih rest present (by simp at enough; omega), data]
      simp only [Rc.logged_logged, cons_append]

end

/-! ## Handling an inode -/

/-- The inode in the table, or a new one. -/
def Rc.inodeAt (mem : Malloced) (rc : Rc) (ino : Nat) : RcInode :=
  (rc.inodeTable ino).getD (newRcInode mem ino)

/-- What `rc_handle_inode` makes of the inode in front of its loop. -/
structure Opened (image : Image) (ino : Nat) (inode inode' : RcInode) : Prop where
  entryNum : inode'.entryNum = inode.entryNum
  link : inode'.link = inode.link
  list : inode'.list = inode.list
  asked : inode'.asked = inode.asked
  tree : image.isDir ino = false → LeafTree inode'.btree ∧ (∀ k, btreeGet inode'.btree k = none) ∧
    inode'.hint.node = none

section
variable {mem : Malloced} {image : Image} {rc : Rc} {ino : Nat}

theorem rcIget_eq (inside : ino < image.slotNum .inode) :
    rcIget mem image rc ino = some (rc.inodeAt mem ino, rc.setInode ino (rc.inodeAt mem ino)) := by
  rw [rcIget, if_neg (by omega), Rc.inodeAt]
  cases here : rc.inodeTable ino with
  | none => rfl
  | some inode =>
    have same : rc.setInode ino inode = rc := by
      rw [Rc.setInode, ← here, update_eq_self]
    simp [same]

theorem Rc.setInode_setInode (rc : Rc) (ino : Nat) (inode inode' : RcInode) :
    (rc.setInode ino inode).setInode ino inode' = rc.setInode ino inode' := by
  rw [Rc.setInode, Rc.setInode, update_idem]
  rfl

theorem mark_inode (inside : ino < image.slotNum .inode) (inode : RcInode) :
    (rc.setInode ino inode).mark image .inode ino =
      some ((rc.setMap .inode (setBit ino (rc.map .inode))).setInode ino inode) := by
  rw [mark_inside ⟨by omega, by omega⟩, toSize_natCast]
  rfl

/-- A file in front of the loop: it has a new tree. -/
def RcInode.openFile (inode : RcInode) (image : Image) (ino : Nat) (t : Btree) : RcInode :=
  { inode with
    mode := (image.inodes ino).iMode
    logHead := (image.inodes ino).logHead
    btree := t
    hint := { inode.hint with node := none, index := 0 } }

theorem rcHandleInode_openFile (inside : ino < image.slotNum .inode) (file : image.isDir ino = false)
    {t : Btree} (created : btreeCreate (fun _ => true) = some t) :
    rcHandleInode mem image rc ino = rcLogLoop mem image ino (rcLogFuel image)
      ((rc.setMap .inode (setBit ino (rc.map .inode))).setInode ino
        ((rc.inodeAt mem ino).openFile image ino t)) (image.inodes ino).logHead := by
  simp only [rcHandleInode, rcIget_eq inside, bind_eq_bind, bind_some, mark_inode inside,
    file, Bool.false_eq_true, if_false, created, map_some, Rc.setInode_setInode, RcInode.openFile]

theorem rcHandleInode_start (inside : ino < image.slotNum .inode) :
    ∃ inode, Opened image ino (rc.inodeAt mem ino) inode ∧
      rcHandleInode mem image rc ino = rcLogLoop mem image ino (rcLogFuel image)
        ((rc.setMap .inode (setBit ino (rc.map .inode))).setInode ino inode) (image.inodes ino).logHead := by
  by_cases dir : image.isDir ino
  · refine ⟨{ rc.inodeAt mem ino with
      mode := (image.inodes ino).iMode, logHead := (image.inodes ino).logHead }, ?_, ?_⟩
    · exact ⟨rfl, rfl, rfl, rfl, fun file => by simp [dir] at file⟩
    · simp only [rcHandleInode, rcIget_eq inside, bind_eq_bind, bind_some, mark_inode inside,
        if_pos dir, Rc.setInode_setInode]
  obtain ⟨t, created⟩ : ∃ t, btreeCreate (fun _ => true) = some t := ⟨_, rfl⟩
  obtain ⟨leaf, empty⟩ := btreeCreate_leaf created
  exact ⟨(rc.inodeAt mem ino).openFile image ino t, ⟨rfl, rfl, rfl, rfl, fun _ => ⟨leaf, empty, rfl⟩⟩,
    rcHandleInode_openFile inside (by simpa using dir) created⟩

/-- No record has been merged. -/
theorem Opened.merged {inode inode' : RcInode} (h : Opened image ino inode inode')
    (file : image.isDir ino = false) (list : inode.list = []) (asked : inode.asked = 0) (ref : Nat → Int) :
    Merged ref [] inode' := by
  obtain ⟨leaf, empty, hint⟩ := h.tree file
  constructor
  · exact leaf
  · intro node eq
    cases hint.symm.trans eq
  · intro node eq
    cases hint.symm.trans eq
  · intro k
    rw [empty]
    exact fun _ member => absurd member not_mem_nil
  · intro o q at_o
    cases at_o
  · rw [h.list, list]
    exact fun _ member => absurd member not_mem_nil
  · rw [h.list, list]
    exact nodup_nil
  · rw [h.asked, asked]
    rfl

/-- The inode has not been handled. -/
def Rc.Unhandled (rc : Rc) (ino : Nat) : Prop :=
  ∀ inode, rc.inodeTable ino = some inode → inode.list = [] ∧ inode.asked = 0

theorem Rc.Unhandled.inodeAt (h : rc.Unhandled ino) (mem : Malloced) :
    (rc.inodeAt mem ino).list = [] ∧ (rc.inodeAt mem ino).asked = 0 := by
  rw [Rc.inodeAt]
  cases here : rc.inodeTable ino with
  | none => exact ⟨rfl, rfl⟩
  | some inode => exact h inode here

theorem rcHandleInode_file (mem : Malloced) {slots : List Int} {ghost : Int} (file : image.isDir ino = false)
    (inside : ino < image.slotNum .inode) (unhandled : rc.Unhandled ino) (log : image.FileLog ino slots ghost) :
    ∃ inode, ∃ rc1 : Rc, Merged (mem.ref ino) [] inode ∧
      rcHandleInode mem image rc ino =
        (rcMergeAll mem (image.slotNum .data) ino (slots.map image.fentTable) inode (rc.map .data)).map
          fun (inode, map) =>
            rc1.logged ino (slots ++ [ghost]) (newRcFilent mem ino (image.fentTable ghost) inode) map := by
  obtain ⟨inode, opened, start⟩ := rcHandleInode_start inside
  obtain ⟨list, asked⟩ := unhandled.inodeAt mem
  have length := log.length_le
  refine ⟨inode, (rc.setMap .inode (setBit ino (rc.map .inode))).setInode ino inode,
    opened.merged file list asked _, ?_⟩
  rw [start, rcLogLoop_file file log (update_self ..) (by rw [rcLogFuel]; omega)]
  rfl

end

/-! ## The mapping of a recovered file -/

/-- The cells lead to the newest records, every record that is listed counts its cells,
and no record that a cell leads to has been freed. -/
structure Rebuilt (records : List PmFilent) (inode : RcInode) : Prop where
  newest : ∀ k o, btreeGet inode.btree k = some o ↔ NewestAt records k o
  counted : ∀ o ∈ inode.list, ∃ f, inode.filents o = some f ∧
    f.ref = {k | btreeGet inode.btree k = some o}.ncard
  alive : ∀ k o, btreeGet inode.btree k = some o → ∃ r ref, records[o]? = some r ∧
    inode.filents o = some (r.held ref)

section
variable {ref : Nat → Int} {records : List PmFilent} {inode : RcInode} {mem : Malloced} {ino : Nat}

theorem Rebuilt.low (h : Rebuilt records (newRcFilent mem ino fe inode)) (leaf : LeafTree inode.btree) :
    ∀ r ∈ records, ∀ k, r.Covers k → k < 256 := by
  intro r member k covers
  obtain ⟨o, newest⟩ := exists_newestAt member covers
  have used : btreeGet inode.btree k = some o := (h.newest k o).mpr newest
  by_contra far
  rw [leaf.get, leaf.outside k (by omega)] at used
  cases used

theorem Merged.lookup {o : Nat} (h : Merged ref records inode) (at_o : records[o]? = some r) (fe : PmFilent) :
    (newRcFilent mem ino fe inode).filents o = inode.filents o := by
  apply update_of_ne
  rw [h.asked]
  exact (List.getElem?_eq_some_iff.mp at_o).1.ne

theorem Merged.count_eq (h : Merged ref records inode) (o : Nat) :
    {k | btreeGet inode.btree k = some o}.ncard = cellCount (btreeGet inode.btree) o := by
  refine (cellCount_eq_ncard fun k far => ?_).symm
  rw [h.tree.get, h.tree.outside k far]

/-- A count that is off shows in a record that is still there, or in one that should be. -/
theorem Rebuilt.excess_eq_zero (h : Rebuilt records (newRcFilent mem ino fe inode))
    (merged : Merged ref records inode) {o : Nat} (at_o : records[o]? = some r) :
    refExcess ref records o r = 0 := by
  cases merged.all o r at_o with
  | held n here listed counted _ =>
    obtain ⟨f, held, exact⟩ := h.counted o listed
    rw [merged.lookup at_o, here] at held
    obtain rfl := some.inj held
    have total := merged.count_eq o
    change n = ({k | btreeGet inode.btree k = some o}.ncard : Int) at exact
    omega
  | freed gone _ counted =>
    have unused (k : Nat) : btreeGet inode.btree k ≠ some o := by
      intro used
      obtain ⟨_, n, _, held⟩ := h.alive k o used
      rw [merged.lookup at_o, gone] at held
      cases held
    rw [cellCount_eq_zero unused] at counted
    omega

theorem Merged.rebuilt (merged : Merged ref records inode) (distinct : DistinctTimes records)
    (exact : ∀ o r, records[o]? = some r → refExcess ref records o r = 0) (fe : PmFilent) :
    Rebuilt records (newRcFilent mem ino fe inode) := by
  have cell {k o : Nat} (used : btreeGet inode.btree k = some o) : NewestAt records k o := by
    have resolved := merged.cells k
    rwa [used] at resolved
  constructor
  · intro k o
    refine ⟨cell, fun newest => ?_⟩
    change btreeGet inode.btree k = some o
    have resolved := merged.cells k
    cases used : btreeGet inode.btree k with
    | none =>
      rw [used] at resolved
      obtain ⟨r, at_o, covers, _⟩ := newest
      exact absurd covers (resolved r (mem_of_getElem? at_o))
    | some o' => rw [NewestAt.unique distinct (cell used) newest]
  · intro o listed
    obtain ⟨r, at_o⟩ : ∃ r, records[o]? = some r := ⟨_, List.getElem?_eq_getElem (merged.listed o listed)⟩
    cases merged.all o r at_o with
    | held n here _ counted _ =>
      refine ⟨r.held n, by rw [merged.lookup at_o, here], ?_⟩
      rw [exact o r at_o, add_zero, ← merged.count_eq] at counted
      exact counted
    | freed _ unlisted _ => exact absurd listed unlisted
  intro k o used
  obtain ⟨r, at_o, _, _⟩ := cell used
  cases merged.all o r at_o with
  | held n here _ _ _ => exact ⟨r, n, at_o, by rw [merged.lookup at_o, here]⟩
  | freed _ _ counted =>
    change btreeGet inode.btree k = some o at used
    have low : k < 256 := by
      by_contra far
      rw [merged.tree.get, merged.tree.outside k (by omega)] at used
      cases used
    have pos := cellCount_pos low used
    rw [exact o r at_o] at counted
    omega

end

/-! ## A file of two records -/

/-- The root holds one file, inode 1, whose log is in the first slots of `fentTable`. -/
def fileImage (fentTable : Int → PmFilent) : Image where
  slotNum := fun _ => 16
  bitmap := fun _ _ => 0#8
  inodes := fun ino => ⟨if ino = 0 then 0o040755 else 0o100644, 1, 0⟩
  dentTable := fun s => if s = 1 then ⟨1, [0x66#8], 1, 1, 2⟩ else ⟨0, [], 0, 0, 0⟩
  fentTable := fentTable

/-- Block 0, and then block `second`. -/
def twoRecords (second : Fin 2) (s : Int) : PmFilent :=
  if s = 1 then ⟨0, 1, 1, 1, 2, by decide⟩
  else if s = 2 then ⟨second, 2, 1, 2, 3, by omega⟩
  else .zero

def zeroed : Malloced := ⟨fun _ => 0, fun _ => 0, fun _ _ => 0⟩

def emptyRc : Rc := ⟨fun _ _ => 0#8, fun _ => none, ⟨0, [], 16⟩⟩

theorem twoRecords_log (second : Fin 2) : (fileImage (twoRecords second)).FileLog 1 [1, 2] 3 := by
  refine ⟨.step (by decide +revert) (.step (by decide +revert) .done), ?_, rfl⟩
  intro s member
  simp only [cons_append, nil_append, mem_cons, not_mem_nil, or_false] at member
  rcases member with rfl | rfl | rfl <;> decide +revert

theorem twoRecords_distinct (second : Fin 2) : DistinctTimes ([1, 2].map (twoRecords second)) := by
  simp [DistinctTimes, twoRecords]

theorem twoRecords_mergeable : Mergeable (fun _ => 0) 16 ([1, 2].map (twoRecords 1)) := by
  refine ⟨?_, ?_, ?_⟩
  · intro r member k covers
    have last := covers.2
    simp only [map_cons, map_nil, mem_cons, not_mem_nil, or_false] at member
    rcases member with rfl | rfl
    · exact last.trans (by decide)
    · exact last.trans (by decide)
  · intro o r at_o
    rcases o with _ | _ | o
    · cases at_o
      decide
    · cases at_o
      decide
    · cases at_o
  intro o r k at_o covers p q newest at_p
  rcases o with _ | _ | o
  · cases at_p
  · cases at_o
    rcases p with _ | p
    · obtain ⟨_, at_p, covers', _⟩ := newest
      cases at_p
      have upper : k < 0 + 1 := covers'.2
      have lower : 1 ≤ k := covers.1
      omega
    · cases at_p
  · cases at_o

/-! ## When the mapping is rebuilt -/

/-- The mapping of a file is rebuilt exactly when its records lie in the first 256 blocks,
the memory of every record held the number of blocks that the record takes over, and the
bits that are cleared lie in the map. -/
theorem recovered_mapping_exact {mem : Malloced} {image : Image} {rc : Rc} {ino : Nat} {slots : List Int}
    {ghost : Int} (file : image.isDir ino = false) (inside : ino < image.slotNum .inode)
    (unhandled : rc.Unhandled ino) (log : image.FileLog ino slots ghost)
    (distinct : DistinctTimes (slots.map image.fentTable)) :
    (∃ rc' inode, rcHandleInode mem image rc ino = some rc' ∧ rc'.inodeTable ino = some inode ∧
        Rebuilt (slots.map image.fentTable) inode) ↔
      Mergeable (mem.ref ino) (image.slotNum .data) (slots.map image.fentTable) := by
  obtain ⟨inode0, rc1, start, run_eq⟩ := rcHandleInode_file mem file inside unhandled log
  have there (inode : RcInode) (map : Mem) :
      (rc1.logged ino (slots ++ [ghost]) inode map).inodeTable ino = some inode := update_self ..
  rw [run_eq]
  constructor
  · rintro ⟨rc', inode, run, here, rebuilt⟩
    obtain ⟨⟨inode', map'⟩, merge, rfl⟩ := map_eq_some_iff.mp run
    obtain rfl : _ = inode := some.inj ((there _ map').symm.trans here)
    have low := rebuilt.low (rcMergeAll_leaf ⟨start.tree, start.inside⟩ merge)
    obtain ⟨merged, clears⟩ := start.run distinct low merge
    refine ⟨low, fun o r at_o => ?_, fun o r k at_o covers => clears o r k (Nat.zero_le _) at_o covers⟩
    have zero := rebuilt.excess_eq_zero merged at_o
    rw [refExcess] at zero
    omega
  intro ok
  obtain ⟨inode', map', merge⟩ := start.proceeds distinct ok (rc.map .data)
  obtain ⟨merged, _⟩ := start.run distinct ok.low merge
  refine ⟨_, newRcFilent mem ino (image.fentTable ghost) inode', by rw [merge]; rfl, there _ map', ?_⟩
  apply merged.rebuilt distinct
  intro o r at_o
  rw [refExcess]
  exact sub_eq_zero.mpr (ok.counted o r at_o)

/-- Appended blocks are recovered. -/
theorem recovered_mapping_exact_appended :
    ∃ rc' inode, rcHandleInode zeroed (fileImage (twoRecords 1)) emptyRc 1 = some rc' ∧
      rc'.inodeTable 1 = some inode ∧ Rebuilt ([1, 2].map (twoRecords 1)) inode :=
  (recovered_mapping_exact (by decide) (by decide) (fun _ none => by cases none) (twoRecords_log 1)
    (twoRecords_distinct 1)).mpr twoRecords_mergeable

/-- A block is written over: the newer record takes it and is freed at once. -/
theorem newest_record_freed :
    (fileImage (twoRecords 0)).FileLog 1 [1, 2] 3 ∧ DistinctTimes ([1, 2].map (twoRecords 0)) ∧
    NewestAt ([1, 2].map (twoRecords 0)) 0 1 ∧
    ∃ rc' inode, rcHandleInode zeroed (fileImage (twoRecords 0)) emptyRc 1 = some rc' ∧
      rc'.inodeTable 1 = some inode ∧ btreeGet inode.btree 0 = some 1 ∧ inode.filents 1 = none := by
  refine ⟨twoRecords_log 0, twoRecords_distinct 0, ⟨_, rfl, ⟨by decide, by decide⟩, ?_⟩, ?_⟩
  · intro q member _
    simp only [map_cons, map_nil, mem_cons, not_mem_nil, or_false] at member
    rcases member with rfl | rfl <;> decide
  have run : (((rcHandleInode zeroed (fileImage (twoRecords 0)) emptyRc 1).bind (·.inodeTable 1)).map
      fun inode => (btreeGet inode.btree 0, (inode.filents 1).isNone)) = some (some 1, true) := by
    decide +kernel
  obtain ⟨inode, found, eq⟩ := map_eq_some_iff.mp run
  obtain ⟨rc', handled, here⟩ := bind_eq_some_iff.mp found
  obtain ⟨cell, gone⟩ := Prod.mk.inj eq
  exact ⟨rc', inode, handled, here, cell, isNone_iff_eq_none.mp gone⟩

end SlotFs
