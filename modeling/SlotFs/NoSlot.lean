import SlotFs.InodeCreate
import SlotFs.NoSpace

/-!
# Requests for a slot that fail

`do_slot_alloc` returns -1 when there is no slot. `inode_create` keeps it in an unsigned variable,
`init_ghost_slot` stores it before it tests it, and the two functions that append an entry test for
less than -1.
-/

namespace SlotFs
open CWord

/-! ## What a clean refusal is -/

/-- `inode_create` reports that there is no slot for the inode. -/
structure Creation.Refused (c : Creation) (p : Pools) (parent : Dir) : Prop where
  code : c.result = .error enospc
  parent : SameDir parent c.parent p.dirs.dentTable c.pools.dirs.dentTable
  number : ∀ inode, c.inode = some inode → inode.iNo ≠ toSize (-1)

/-- `init_ghost_slot` reports that there is no slot. -/
structure GhostSlotRefused (inode : NewInode) (out : Int × NewInode × Pools) : Prop where
  code : out.1 = enospc
  ghost : out.2.1.ghostSlot = inode.ghostSlot
  head : out.2.1.logHead = inode.logHead
  stored : out.2.1.ghostSlot ≠ -1

/-- `dir_append_entry` reports that there is no slot. -/
structure DirRefused (s : DirStorage) (dir : Dir) (out : Except Int Nat × Dir × EntryInode × DirStorage) :
    Prop where
  code : out.1 = .error enospc
  same : SameDir dir out.2.1 s.dentTable out.2.2.2.dentTable

/-- `file_append_entry` reports that there is no slot. -/
structure FileRefused (s : Storage) (inode : Inode) (out : Except Int Nat × Inode × Storage) : Prop where
  code : out.1 = .error enospc
  index : ∀ k, btreeGet out.2.1.bRoot k = btreeGet inode.bRoot k
  same : SameLog inode out.2.1 s.fentTable out.2.2.fentTable

/-- The call of `file_append_entry` asks for a slot: it takes no entry that can be reused. -/
structure AsksSlot (env : Env) (inode : Inode) (entry : PmFilent) : Prop where
  appends : (filentDispatch env inode (trunc32 (entry.blocks * 4096))).1 = none
  granted : inode.arena.grants inode.arena.asked = true
  file : inode.symlink = false

/-! ## What happens instead -/

section
variable {rb : Rbtree} {cpu : Maps → Nat}

theorem Pools.inodeCreate_noSlot {p : Pools} {parent : Dir} {name : List (BitVec 8)} {mode : Nat}
    (refused : (doSlotAlloc p.inodes (cpu p.inodes)).1 = -1) :
    (p.inodeCreate rb cpu parent name mode).result = .error enomem ∨
    ∃ inode, (p.inodeCreate rb cpu parent name mode).inode = some inode ∧ inode.iNo = toSize (-1) := by
  generalize alloc : doSlotAlloc p.inodes (cpu p.inodes) = got at refused
  obtain ⟨index, inodes⟩ := got
  obtain rfl : index = -1 := refused
  cases arena : p.inodeArena with
  | nil =>
    rw [Pools.inodeCreate_noInode alloc arena]
    exact .inl rfl
  | cons item rest =>
    obtain ⟨root, enter⟩ :=
      @Pools.inodeCreate_enter p rb cpu parent name mode (-1) inodes item rest alloc arena
    rw [enter]
    exact .inr (Pools.inodeEnter_number ..)

theorem Pools.initGhostSlot_noSlot {p : Pools} {inode : NewInode} (refused : (p.ghostAlloc cpu inode).1 = -1) :
    (p.initGhostSlot cpu inode).1 = enospc ∧ (p.initGhostSlot cpu inode).2.1.ghostSlot = -1 := by
  generalize ghost : p.ghostAlloc cpu inode = out at refused
  obtain ⟨slot, p'⟩ := out
  obtain rfl : slot = -1 := refused
  simp only [initGhostSlot, ghost, if_pos (show (-1 : Int) < 0 by decide), and_self]

theorem dirAppendEntry_noSlot {s : DirStorage} {dir : Dir} {inode : EntryInode} {name : List (BitVec 8)}
    (granted : dir.arena.grants dir.arena.asked = true) (refused : (doSlotAlloc s.dirs (cpu s.dirs)).1 = -1) :
    (dirAppendEntry rb cpu s dir inode name).1 = .ok dir.arena.asked ∧
    (dirAppendEntry rb cpu s dir inode name).2.1.ghostSlot = -1 ∧
    ((dirAppendEntry rb cpu s dir inode name).2.2.2.dentTable dir.ghostSlot).next = -1 := by
  generalize alloc : doSlotAlloc s.dirs (cpu s.dirs) = got at refused
  obtain ⟨slot, dirs⟩ := got
  obtain rfl : slot = -1 := refused
  simp only [dirAppendEntry, Arena.alloc, granted, if_true, alloc, lt_self_iff_false, if_false,
    Function.update_self, and_self]

end

theorem fileAppendEntry_noSlot {env : Env} {s s' : Storage} {inode inode' : Inode} {entry : PmFilent}
    {r : Except Int Nat} (asks : AsksSlot env inode entry)
    (refused : (doSlotAlloc s.files (env.cpu s.files)).1 = -1)
    (call : fileAppendEntry env s inode entry = some (r, inode', s')) :
    r = .ok inode.arena.asked ∧ inode'.ghostSlot = -1 ∧ (s'.fentTable inode.ghostSlot).next = -1 := by
  generalize alloc : doSlotAlloc s.files (env.cpu s.files) = got at refused
  obtain ⟨slot, files⟩ := got
  obtain rfl : slot = -1 := refused
  have appends := asks.appends
  obtain ⟨fe, rest, _, dispatch⟩ | ⟨num, dispatch⟩ :=
    filentDispatch_cases env inode (trunc32 (entry.blocks * 4096))
  · rw [dispatch] at appends
    cases appends
  simp only [fileAppendEntry, chooseEntry, dispatch, Arena.alloc, asks.granted, if_true, asks.file,
    Bool.false_eq_true, if_false, alloc, lt_self_iff_false] at call
  obtain ⟨⟨_, inode2, data⟩, insert, eq⟩ := Option.map_eq_some_iff.mp call
  obtain ⟨tree, inode1, rfl, recounted⟩ := fileIndexInsert_recounted insert
  have ghost : inode1.ghostSlot = -1 := congrArg Inode.ghostSlot recounted.rest
  cases eq
  refine ⟨rfl, ghost, ?_⟩
  simp only [Function.update_self, Option.getD_none]
  exact ghost

/-- Wherever `do_slot_alloc` returns -1, the operation that has asked it is not refused cleanly. -/
theorem no_slot_not_clean (rb : Rbtree) (env : Env) (p : Pools) (dir : Dir) (name : List (BitVec 8))
    (mode : Nat) (new : NewInode) (dirs : DirStorage) (child : EntryInode) (s : Storage) (inode : Inode)
    (entry : PmFilent) :
    ((doSlotAlloc p.inodes (env.cpu p.inodes)).1 = -1 →
      ¬ (p.inodeCreate rb env.cpu dir name mode).Refused p dir) ∧
    ((p.ghostAlloc env.cpu new).1 = -1 → ¬ GhostSlotRefused new (p.initGhostSlot env.cpu new)) ∧
    (dir.arena.grants dir.arena.asked = true → (doSlotAlloc dirs.dirs (env.cpu dirs.dirs)).1 = -1 →
      ¬ DirRefused dirs dir (dirAppendEntry rb env.cpu dirs dir child name)) ∧
    (AsksSlot env inode entry → (doSlotAlloc s.files (env.cpu s.files)).1 = -1 →
      ¬ ∃ out, fileAppendEntry env s inode entry = some out ∧ FileRefused s inode out) := by
  refine ⟨fun refused clean => ?_, fun refused clean => ?_, fun granted refused clean => ?_,
    fun asks refused clean => ?_⟩
  · rcases Pools.inodeCreate_noSlot refused with memory | ⟨inode, written, number⟩
    · cases memory.symm.trans clean.code
    · exact clean.number inode written number
  · exact clean.stored (Pools.initGhostSlot_noSlot refused).2
  · cases (dirAppendEntry_noSlot granted refused).1.symm.trans clean.code
  · obtain ⟨⟨r, inode', s'⟩, call, clean⟩ := clean
    cases (fileAppendEntry_noSlot asks refused call).1.symm.trans clean.code

/-- A directory, where all slots for entries are in use. -/
def crampedDir : DirState := ⟨emptyDir.dir, { emptyDir.storage with dirs := fullMaps }⟩

/-- A new file system in which all slots for inodes and for entries are in use. -/
def crampedPools : Pools := { newPools fullMaps [0] with inodes := fullMaps }

def crampedStorage : Storage := { blankStorage 3 with files := fullMaps }

/-- Each operation with all slots of its kind in use. -/
theorem no_slot_not_clean_full :
    ¬ (crampedPools.inodeCreate plainRb (fun _ => 0) emptyDir.dir [97#8] sIfdir).Refused crampedPools
      emptyDir.dir ∧
    ¬ GhostSlotRefused ⟨1, sIfdir, none, 0, 0, 0⟩
      (crampedPools.initGhostSlot (fun _ => 0) ⟨1, sIfdir, none, 0, 0, 0⟩) ∧
    ¬ DirRefused crampedDir.storage emptyDir.dir
      (dirAppendEntry plainRb (fun _ => 0) crampedDir.storage emptyDir.dir ⟨5, 0, 0⟩ [97#8]) ∧
    ¬ ∃ out, fileAppendEntry firstFit crampedStorage (tiledFile 3 1) .zero = some out ∧
      FileRefused crampedStorage (tiledFile 3 1) out := by
  have none : (doSlotAlloc fullMaps 0).1 = -1 := by decide +kernel
  have ghost : (crampedPools.ghostAlloc (fun _ => 0) ⟨1, sIfdir, .none, 0, 0, 0⟩).1 = -1 := by
    decide +kernel
  obtain ⟨create, init, append, enter⟩ := no_slot_not_clean plainRb firstFit crampedPools emptyDir.dir
    [97#8] sIfdir ⟨1, sIfdir, .none, 0, 0, 0⟩ crampedDir.storage ⟨5, 0, 0⟩ crampedStorage (tiledFile 3 1) .zero
  exact ⟨create none, init ghost, append rfl none, enter ⟨rfl, rfl, rfl⟩ none⟩

/-- The first entry takes -1 for the next slot, and the second one is written in front of the
table. -/
theorem entry_in_front_of_table : ∃ first second,
    first = dirAppendEntry plainRb (fun _ => 0) crampedDir.storage crampedDir.dir ⟨5, 0, 0⟩ [97#8] ∧
    first.1 = .ok 0 ∧ first.2.1.ghostSlot = -1 ∧ (first.2.2.2.dentTable 1).next = -1 ∧
    second = dirAppendEntry plainRb (fun _ => 0) first.2.2.2 first.2.1 ⟨6, 0, 0⟩ [98#8] ∧
    second.1 = .ok 1 ∧ (second.2.2.2.dentTable (-1)).ino = 6 := by
  refine ⟨_, _, rfl, rfl, ?_, ?_, rfl, rfl, ?_⟩
  · decide +kernel
  · decide +kernel
  · decide +kernel

end SlotFs
