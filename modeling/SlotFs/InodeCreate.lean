import SlotFs.Vfs

/-!
# Making an inode

`inode_create` of `inode.c` with everything that it asks for: the slot of the inode, its memory,
the root of its tree, its ghost slot, and the entry in the parent directory with the slot for the
next one. Two labels give things back when a request fails: the memory of the inode, and its slot.
-/

namespace SlotFs
open CWord List

variable {index : Int} {inode : NewInode}

/-- `arena.c`, by the items on the free list. -/
def arenaAlloc : List Nat → Option (Nat × List Nat)
  | [] => none
  | item :: rest => some (item, rest)

/-- What `inode_create` asks. -/
structure Pools where
  inodes : Maps
  dirs : DirStorage
  files : Maps
  btreeArena : List Nat
  inodeArena : List Nat
  entryArena : List Nat

open Pools

/-- What is written to the memory of the new inode; `root` is that of its tree. -/
structure NewInode where
  iNo : Nat
  iMode : Nat
  root : Option Nat
  logHead : Int
  ghostSlot : Int
  entryNum : Nat

def NewInode.isDir (inode : NewInode) : Bool := inode.iMode &&& sIfmt == sIfdir

/-- The result of `btree_create` is not looked at. -/
def Pools.inodeInitHeader (p : Pools) (mode : Nat) : NewInode × Pools :=
  if mode &&& sIfdir ≠ 0 then (⟨0, mode, none, 0, 0, 0⟩, p)
  else match arenaAlloc p.btreeArena with
    | none => (⟨0, mode, none, 0, 0, 0⟩, p)
    | some (node, rest) => (⟨0, mode, some node, 0, 0, 0⟩, { p with btreeArena := rest })

/-- `slot_dirent_alloc` or `slot_firent_alloc`. -/
def Pools.ghostAlloc (p : Pools) (cpu : Maps → Nat) (inode : NewInode) : Int × Pools :=
  if inode.isDir then
    let (ghost, dirs) := doSlotAlloc p.dirs.dirs (cpu p.dirs.dirs)
    (ghost, { p with dirs := { p.dirs with dirs } })
  else
    let (ghost, files) := doSlotAlloc p.files (cpu p.files)
    (ghost, { p with files })

/-- The slot is stored before it is tested. -/
def Pools.initGhostSlot (p : Pools) (cpu : Maps → Nat) (inode : NewInode) : Int × NewInode × Pools :=
  let (ghost, p) := p.ghostAlloc cpu inode
  if ghost < 0 then (enospc, { inode with ghostSlot := ghost }, p)
  else (0, { inode with ghostSlot := ghost, logHead := ghost }, p)

/-- The entry is taken from `entryArena`. -/
def Pools.dirAppendEntry (p : Pools) (rb : Rbtree) (cpu : Maps → Nat) (parent : Dir) (inode : EntryInode)
    (name : List (BitVec 8)) : Except Int Nat × Dir × EntryInode × Pools :=
  let asking := { parent with arena := { parent.arena with grants := fun _ => !p.entryArena.isEmpty } }
  match SlotFs.dirAppendEntry rb cpu p.dirs asking inode name with
  | (.error e, parent, inode, dirs) => (.error e, parent, inode, { p with dirs })
  | (.ok d, parent, inode, dirs) => (.ok d, parent, inode, { p with dirs, entryArena := p.entryArena.tail })

/-- How `inode_create` ends. `inode` is what has been written to the memory of the inode, which
may have been given back. -/
structure Creation where
  result : Except Int Nat
  inode : Option NewInode
  parent : Dir
  pools : Pools

/-- The labels `err_free_inode` and `err_free_ino`. `index` is converted to `ino_t` and back. -/
def Pools.giveBack (p : Pools) (item : Nat) (index : Int) : Pools :=
  { p with inodeArena := item :: p.inodeArena, inodes := doSlotFree p.inodes index }

/-- `inode_create` behind `inode_init_header`. -/
def Pools.inodeEnter (p : Pools) (rb : Rbtree) (cpu : Maps → Nat) (parent : Dir) (name : List (BitVec 8))
    (item : Nat) (index : Int) (inode : NewInode) : Creation :=
  let (ret, inode, p) := p.initGhostSlot cpu inode
  if ret ≠ 0 then ⟨.error ret, some inode, parent, p.giveBack item index⟩
  else
    let pmLogHead := Function.update p.dirs.pmLogHead inode.iNo inode.logHead
    let p := { p with dirs := { p.dirs with pmLogHead } }
    match p.dirAppendEntry rb cpu parent ⟨inode.iNo, 0, inode.entryNum⟩ name with
    | (.error e, parent, _, p) => ⟨.error e, some inode, parent, p.giveBack item index⟩
    | (.ok _, parent, entry, p) => ⟨.ok item, some { inode with entryNum := entry.entryNum }, parent, p⟩

/-- The number of the inode is unsigned, so the test `ino < 0` never succeeds. -/
def Pools.inodeCreate (p : Pools) (rb : Rbtree) (cpu : Maps → Nat) (parent : Dir) (name : List (BitVec 8))
    (mode : Nat) : Creation :=
  let (index, inodes) := doSlotAlloc p.inodes (cpu p.inodes)
  let p := { p with inodes }
  match arenaAlloc p.inodeArena with
  | none => ⟨.error enomem, none, parent, { p with inodes := doSlotFree p.inodes index }⟩
  | some (item, rest) =>
    let (inode, p) := { p with inodeArena := rest }.inodeInitHeader mode
    p.inodeEnter rb cpu parent name item index { inode with iNo := toSize index }

/-! ## What is as before -/

/-- The same slots are in use. -/
structure SameBits (b b' : Maps) : Prop where
  has : ∀ n, b'.Has n ↔ b.Has n
  used : ∀ n, b.Has n → b'.used n = b.used n

/-- The entries of a directory, in DRAM and in PM. -/
structure SameDir (dir dir' : Dir) (table table' : Int → PmDirent) : Prop where
  head : dir'.logHead = dir.logHead
  ghost : dir'.ghostSlot = dir.ghostSlot
  tree : dir'.rbRoot = dir.rbRoot
  list : dir'.list = dir.list
  dents : dir'.dents = dir.dents
  entryNum : dir'.entryNum = dir.entryNum
  records : table' = table

/-- The call failed and has left nothing behind. -/
structure Creation.RolledBack (c : Creation) (p : Pools) (parent : Dir) : Prop where
  failed : ∃ e, c.result = .error e
  inodes : SameBits p.inodes c.pools.inodes
  dirs : SameBits p.dirs.dirs c.pools.dirs.dirs
  files : SameBits p.files c.pools.files
  btreeArena : c.pools.btreeArena.length = p.btreeArena.length
  inodeArena : c.pools.inodeArena.length = p.inodeArena.length
  entryArena : c.pools.entryArena.length = p.entryArena.length
  parent : SameDir parent c.parent p.dirs.dentTable c.pools.dirs.dentTable

theorem SameBits.refl (b : Maps) : SameBits b b := ⟨fun _ => Iff.rfl, fun _ _ => rfl⟩

theorem SameDir.refl (dir : Dir) (table : Int → PmDirent) : SameDir dir dir table table :=
  ⟨rfl, rfl, rfl, rfl, rfl, rfl, rfl⟩

section
variable {b b' : Maps} {cpu : Nat} {slot : Int}

theorem doSlotAlloc_refused (call : doSlotAlloc b cpu = (slot, b')) (refused : slot < 0) : b' = b := by
  unfold doSlotAlloc at call
  split at call
  · obtain ⟨rfl, _⟩ := Prod.mk.inj call
    exact absurd (Int.natCast_nonneg _) (not_le.mpr refused)
  · exact (Prod.mk.inj call).2.symm

section
variable (ok : b.Ok) (small : b.Within (2 ^ 31)) (call : doSlotAlloc b cpu = (slot, b')) (found : 0 ≤ slot)
include ok small call found

theorem SameBits.taken_back : SameBits b (doSlotFree b' slot) := by
  obtain ⟨n, rfl, has, unused, ok', small', has', used⟩ := doSlotAlloc_took ok small call found
  have set : b'.used n = true := by
    rw [used n has, decide_eq_true rfl, Bool.true_or]
  obtain ⟨_, _, has'', used'⟩ := doSlotFree_spec ok' small' ((has' n).mpr has) set
  refine ⟨fun j => (has'' j).trans (has' j), fun j hasj => ?_⟩
  rw [used' j ((has' j).mpr hasj), used j hasj]
  by_cases own : j = n
  · simp [own, unused]
  · simp [own]

theorem not_sameBits_taken : ¬ SameBits b b' := by
  obtain ⟨n, _, has, unused, _, _, _, used⟩ := doSlotAlloc_took ok small call found
  intro same
  have set := same.used n has
  rw [used n has, decide_eq_true rfl, Bool.true_or, unused] at set
  cases set

end

end

/-! ## The outcomes -/

section
variable {p : Pools} {rb : Rbtree} {cpu : Maps → Nat} {parent : Dir} {name : List (BitVec 8)} {mode : Nat}

/-- The nodes that `inode_init_header` leaves. -/
def Pools.nodesLeft (p : Pools) (mode : Nat) : List Nat :=
  if mode &&& sIfdir ≠ 0 then p.btreeArena else p.btreeArena.tail

theorem Pools.inodeInitHeader_eq (p : Pools) (mode : Nat) : ∃ root,
    p.inodeInitHeader mode = (⟨0, mode, root, 0, 0, 0⟩, { p with btreeArena := p.nodesLeft mode }) := by
  unfold inodeInitHeader nodesLeft
  split
  · exact ⟨none, rfl⟩
  cases nodes : p.btreeArena with
  | nil =>
    refine ⟨none, ?_⟩
    have same : ({ p with btreeArena := [] } : Pools) = p := by rw [← nodes]
    simp only [arenaAlloc, tail_nil, same]
  | cons node rest => exact ⟨some node, rfl⟩

theorem Pools.nodesLeft_length (p : Pools) (mode : Nat) :
    (p.nodesLeft mode).length = p.btreeArena.length ↔ mode &&& sIfdir ≠ 0 ∨ p.btreeArena = [] := by
  unfold nodesLeft
  split <;> rename_i dir
  · simp [dir]
  rw [length_tail, ← length_eq_zero_iff]
  have : mode &&& sIfdir = 0 := not_not.mp dir
  simp only [this, ne_eq, not_true_eq_false, false_or]
  omega

theorem Pools.inodeCreate_noInode {inodes : Maps}
    (alloc : doSlotAlloc p.inodes (cpu p.inodes) = (index, inodes)) (none : p.inodeArena = []) :
    p.inodeCreate rb cpu parent name mode =
      ⟨.error enomem, Option.none, parent, { p with inodes := doSlotFree inodes index }⟩ := by
  simp only [inodeCreate, alloc, none, arenaAlloc]

theorem Pools.inodeCreate_enter {index : Int} {inodes : Maps} {item : Nat} {rest : List Nat}
    (alloc : doSlotAlloc p.inodes (cpu p.inodes) = (index, inodes)) (arena : p.inodeArena = item :: rest) :
    ∃ root, p.inodeCreate rb cpu parent name mode =
      inodeEnter { p with inodes, inodeArena := rest, btreeArena := p.nodesLeft mode } rb cpu parent
        name item index ⟨toSize index, mode, root, 0, 0, 0⟩ := by
  obtain ⟨root, header⟩ := inodeInitHeader_eq { p with inodes, inodeArena := rest } mode
  refine ⟨root, ?_⟩
  simp only [inodeCreate, alloc, arena, arenaAlloc, header]
  rfl

/-- No slot is found for the ghost slot of the new inode. -/
def Pools.GhostRefused (p : Pools) (cpu : Maps → Nat) (mode : Nat) : Prop :=
  (p.ghostAlloc cpu ⟨0, mode, none, 0, 0, 0⟩).1 < 0

theorem Pools.ghostAlloc_fst {p' : Pools} {inode' : NewInode} (dirs : p'.dirs = p.dirs)
    (files : p'.files = p.files) (mode : inode'.iMode = inode.iMode) :
    (p'.ghostAlloc cpu inode').1 = (p.ghostAlloc cpu inode).1 := by
  unfold ghostAlloc
  rw [NewInode.isDir, NewInode.isDir, dirs, files, mode]
  split <;> rfl

theorem Pools.ghostAlloc_cases (p : Pools) (cpu : Maps → Nat) (inode : NewInode) :
    (∃ slot dirs, doSlotAlloc p.dirs.dirs (cpu p.dirs.dirs) = (slot, dirs) ∧
      p.ghostAlloc cpu inode = (slot, { p with dirs := { p.dirs with dirs } })) ∨
    ∃ slot files, doSlotAlloc p.files (cpu p.files) = (slot, files) ∧
      p.ghostAlloc cpu inode = (slot, { p with files }) := by
  unfold ghostAlloc
  split
  · exact .inl ⟨_, _, rfl, rfl⟩
  · exact .inr ⟨_, _, rfl, rfl⟩

theorem Pools.inodeEnter_noGhost {item : Nat} (refused : (p.ghostAlloc cpu inode).1 < 0) : ∃ inode',
    p.inodeEnter rb cpu parent name item index inode =
      ⟨.error enospc, some inode', parent, p.giveBack item index⟩ ∧
    inode'.iNo = inode.iNo ∧ inode'.ghostSlot = (p.ghostAlloc cpu inode).1 := by
  have same : (p.ghostAlloc cpu inode).2 = p := by
    rcases p.ghostAlloc_cases cpu inode with ⟨slot, dirs, alloc, eq⟩ | ⟨slot, files, alloc, eq⟩
    · rw [eq] at refused ⊢
      rw [doSlotAlloc_refused alloc refused]
    · rw [eq] at refused ⊢
      rw [doSlotAlloc_refused alloc refused]
  have ghost : p.ghostAlloc cpu inode = ((p.ghostAlloc cpu inode).1, p) := Prod.ext rfl same
  generalize (p.ghostAlloc cpu inode).1 = slot at refused ghost ⊢
  have code : enospc ≠ 0 := by decide
  refine ⟨{ inode with ghostSlot := slot }, ?_, rfl, rfl⟩
  simp only [inodeEnter, initGhostSlot, ghost, if_pos refused, if_pos code]

/-- Without an item in the arena the directory stays as it is; with one the entry is made. -/
theorem Pools.dirAppendEntry_cases (p : Pools) (rb : Rbtree) (cpu : Maps → Nat) (parent : Dir)
    (inode : EntryInode) (name : List (BitVec 8)) :
    (∃ d parent' inode' p', p.dirAppendEntry rb cpu parent inode name = (.ok d, parent', inode', p')) ∨
    ∃ parent', p.dirAppendEntry rb cpu parent inode name = (.error enomem, parent', inode, p) := by
  have least := doSlotAlloc_ge p.dirs.dirs (cpu p.dirs.dirs)
  cases items : p.entryArena with
  | nil =>
    refine .inr ⟨{ parent with arena := ⟨parent.arena.asked + 1, fun _ => false⟩ }, ?_⟩
    simp only [dirAppendEntry, SlotFs.dirAppendEntry, Arena.alloc, items, isEmpty_nil,
      Bool.not_true, Bool.false_eq_true, if_false]
    rw [← items]
  | cons item rest =>
    refine .inl ?_
    simp only [dirAppendEntry, SlotFs.dirAppendEntry, Arena.alloc, items, isEmpty_cons,
      Bool.not_false, if_true, if_neg (not_lt.mpr least)]
    exact ⟨_, _, _, _, rfl⟩

/-- The number stays in the memory of the inode. -/
theorem Pools.inodeEnter_number (p : Pools) (rb : Rbtree) (cpu : Maps → Nat) (parent : Dir)
    (name : List (BitVec 8)) (item : Nat) (index : Int) (inode : NewInode) : ∃ inode',
    (p.inodeEnter rb cpu parent name item index inode).inode = some inode' ∧ inode'.iNo = inode.iNo := by
  generalize ghost : p.ghostAlloc cpu inode = out
  obtain ⟨slot, p'⟩ := out
  have code : enospc ≠ 0 := by decide
  by_cases refused : slot < 0
  · simp only [inodeEnter, initGhostSlot, ghost, if_pos refused, if_pos code]
    exact ⟨_, rfl, rfl⟩
  have zero : ¬ (0 : Int) ≠ 0 := not_not.mpr rfl
  simp only [inodeEnter, initGhostSlot, ghost, if_neg refused, if_neg zero]
  split
  · exact ⟨_, rfl, rfl⟩
  · exact ⟨_, rfl, rfl⟩

/-- Where the ghost slot is found, the inode is entered or the slot stays in use. -/
theorem Pools.inodeEnter_ghost {item : Nat} {index : Int} {inode : NewInode}
    (found : 0 ≤ (p.ghostAlloc cpu inode).1) :
    (p.inodeEnter rb cpu parent name item index inode).result = .ok item ∨
    (p.inodeEnter rb cpu parent name item index inode).pools.dirs.dirs =
        (p.ghostAlloc cpu inode).2.dirs.dirs ∧
      (p.inodeEnter rb cpu parent name item index inode).pools.files = (p.ghostAlloc cpu inode).2.files := by
  generalize ghost : p.ghostAlloc cpu inode = out at found ⊢
  obtain ⟨slot, p'⟩ := out
  have zero : ¬ (0 : Int) ≠ 0 := not_not.mpr rfl
  simp only [inodeEnter, initGhostSlot, ghost, if_neg (not_lt.mpr found), if_neg zero]
  rcases dirAppendEntry_cases { p' with dirs := { p'.dirs with
      pmLogHead := Function.update p'.dirs.pmLogHead inode.iNo slot } } rb cpu parent
      ⟨inode.iNo, 0, inode.entryNum⟩ name with ⟨d, parent', entry, p1, eq⟩ | ⟨parent', eq⟩
  · rw [eq]
    exact .inl rfl
  · rw [eq]
    exact .inr ⟨rfl, rfl⟩

theorem Pools.ghostAlloc_kept (dirs : p.dirs.dirs.Ok) (smallDirs : p.dirs.dirs.Within (2 ^ 31))
    (files : p.files.Ok) (smallFiles : p.files.Within (2 ^ 31)) (found : 0 ≤ (p.ghostAlloc cpu inode).1)
    (sameDirs : SameBits p.dirs.dirs (p.ghostAlloc cpu inode).2.dirs.dirs) :
    ¬ SameBits p.files (p.ghostAlloc cpu inode).2.files := by
  rcases p.ghostAlloc_cases cpu inode with ⟨slot, dirs', alloc, eq⟩ | ⟨slot, files', alloc, eq⟩
  · rw [eq] at found sameDirs
    exact absurd sameDirs (not_sameBits_taken dirs smallDirs alloc found)
  · rw [eq] at found ⊢
    exact not_sameBits_taken files smallFiles alloc found

end

/-- The maps that `inode_create` asks are in order. -/
structure Pools.Ok (p : Pools) : Prop where
  inodes : p.inodes.Ok
  smallInodes : p.inodes.Within (2 ^ 31)
  dirs : p.dirs.dirs.Ok
  smallDirs : p.dirs.dirs.Within (2 ^ 31)
  files : p.files.Ok
  smallFiles : p.files.Within (2 ^ 31)

/-- A failed `inode_create` leaves nothing behind in two cases: there is no memory for the inode,
or no ghost slot and no node has been taken for the tree. -/
theorem failed_create_iff {p : Pools} (ok : p.Ok) (rb : Rbtree) (cpu : Maps → Nat) (parent : Dir)
    (name : List (BitVec 8)) (mode : Nat) (found : 0 ≤ (doSlotAlloc p.inodes (cpu p.inodes)).1) :
    (p.inodeCreate rb cpu parent name mode).RolledBack p parent ↔
      p.inodeArena = [] ∨ p.GhostRefused cpu mode ∧ (mode &&& sIfdir ≠ 0 ∨ p.btreeArena = []) := by
  generalize alloc : doSlotAlloc p.inodes (cpu p.inodes) = got at found
  obtain ⟨index, inodes⟩ := got
  have back := SameBits.taken_back ok.inodes ok.smallInodes alloc found
  cases arena : p.inodeArena with
  | nil =>
    rw [inodeCreate_noInode alloc arena]
    refine iff_of_true ?_ (.inl rfl)
    exact ⟨⟨_, rfl⟩, back, .refl _, .refl _, rfl, rfl, rfl, .refl ..⟩
  | cons item rest =>
    obtain ⟨root, enter⟩ :=
      @Pools.inodeCreate_enter p rb cpu parent name mode index inodes item rest alloc arena
    have same : (ghostAlloc { p with inodes, inodeArena := rest, btreeArena := p.nodesLeft mode } cpu
        ⟨toSize index, mode, root, 0, 0, 0⟩).1 = (p.ghostAlloc cpu ⟨0, mode, none, 0, 0, 0⟩).1 :=
      ghostAlloc_fst rfl rfl rfl
    rw [enter, ← nodesLeft_length]
    by_cases refused : p.GhostRefused cpu mode
    · obtain ⟨inode, eq, _⟩ := inodeEnter_noGhost (lt_of_eq_of_lt same refused)
      rw [eq]
      constructor
      · intro h
        exact .inr ⟨refused, h.btreeArena⟩
      · rintro (none | ⟨_, nodes⟩)
        · cases none
        · exact ⟨⟨_, rfl⟩, back, .refl _, .refl _, nodes, by rw [arena]; rfl, rfl, .refl ..⟩
    have ghost := not_lt.mp refused
    rw [← same] at ghost
    refine iff_of_false (fun h => ?_) (by simp [refused])
    rcases @Pools.inodeEnter_ghost _ rb cpu parent name item index _ ghost with entered | ⟨dirs, files⟩
    · obtain ⟨e, failed⟩ := h.failed
      cases entered.symm.trans failed
    have sameDirs := h.dirs
    have sameFiles := h.files
    rw [dirs] at sameDirs
    rw [files] at sameFiles
    exact ghostAlloc_kept
      (p := { p with inodes, inodeArena := rest, btreeArena := p.nodesLeft mode })
      ok.dirs ok.smallDirs ok.files ok.smallFiles ghost sameDirs sameFiles

/-- A new file system with the given slots for entries and items for entries. -/
def newPools (dirs : Maps) (entryArena : List Nat) : Pools :=
  ⟨emptyMaps 64, ⟨dirs, fun _ => ⟨0, [], 0, 0, 0⟩, fun _ => 0⟩, emptyMaps 64, [0, 1], [0, 1], entryArena⟩

theorem newPools_ok {dirs : Maps} (ok : dirs.Ok) (small : dirs.Within (2 ^ 31)) (entryArena : List Nat) :
    (newPools dirs entryArena).Ok := by
  have within : (emptyMaps 64).Within (2 ^ 31) := fun _ _ => show 64 ≤ 2 ^ 31 by decide
  exact ⟨emptyMaps_ok 64, within, ok, small, emptyMaps_ok 64, within⟩

/-- A directory is to be made, and all slots for entries are in use. -/
theorem failed_create_iff_dir : ((newPools fullMaps [0]).inodeCreate plainRb (fun _ => 0) emptyDir.dir
    [97#8] sIfdir).RolledBack (newPools fullMaps [0]) emptyDir.dir := by
  have small : fullMaps.Within (2 ^ 31) := fun _ _ => show 3 ≤ 2 ^ 31 by decide
  refine (failed_create_iff (newPools_ok fullMaps_ok small [0]) plainRb (fun _ => 0) emptyDir.dir [97#8]
    sIfdir (by decide +kernel)).mpr (.inr ⟨?_, .inl (by decide)⟩)
  change (ghostAlloc (newPools fullMaps [0]) (fun _ => 0) ⟨0, sIfdir, none, 0, 0, 0⟩).1 < 0
  decide +kernel

/-- A file is to be made, and the arena has no item for its entry. The call fails, and the ghost
slot and the node of the tree are lost. -/
theorem failed_create_leaks : ∃ c,
    c = (newPools (emptyMaps 64) []).inodeCreate plainRb (fun _ => 0) emptyDir.dir [97#8] 0o100644 ∧
    c.result = .error enomem ∧ c.pools.files.used 0 = true ∧ c.pools.btreeArena.length = 1 ∧
    (newPools (emptyMaps 64) []).files.used 0 = false ∧
    (newPools (emptyMaps 64) []).btreeArena.length = 2 := by
  refine ⟨_, rfl, ?_, ?_, ?_, ?_, rfl⟩
  · rfl
  · decide +kernel
  · decide +kernel
  · decide +kernel

end SlotFs
