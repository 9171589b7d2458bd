import SlotFs.Recover
import SlotFs.DirRebuild

/-!
# Inodes in PM

`inode_flush` copies the fields of an inode in DRAM to its slot in PM one by one, and
`inode_rebuild` reads a slot back into an inode that it has cleared.
-/

namespace SlotFs
open CWord

/-- A slot of the inode table, with all its fields. -/
structure PmInodeSlot extends PmInode where
  iSize : Nat
  iUid : Nat
  iGid : Nat
  iLink : Nat
  iAtim : Int
  iMtim : Int
  iCtim : Int
  ts : Int
  csum : Nat

structure DramInode extends VfsInode where
  iSize : Nat
  iUid : Nat
  iGid : Nat
  iAtim : Int
  iMtim : Int
  iCtim : Int

/-- `crc32c` returns before it has looked at the data. -/
def crc32c (_crc : Nat) (_data : PmInodeSlot) : Nat := 0

/-- The fields of a slot that the code assigns, in its order. -/
def DramInode.flushInto (inode : DramInode) (slot : PmInodeSlot) : PmInodeSlot :=
  let slot := { slot with
    iSize := inode.iSize
    iUid := inode.iUid
    iGid := inode.iGid
    iMode := inode.iMode
    iAtim := inode.iAtim
    iMtim := inode.iMtim
    iCtim := inode.iCtim
    logHead := inode.logHead
    entryNum := inode.entryNum }
  { slot with csum := crc32c 0 slot }

def DramInode.inodeFlush (inode : DramInode) (slots : Nat → PmInodeSlot) : Nat → PmInodeSlot :=
  Function.update slots inode.iNo (inode.flushInto (slots inode.iNo))

/-- `arena` is the one of the entries, which clearing an inode does not touch. -/
def inodeInitHeader (mode : Nat) (arena : Arena) : DramInode where
  iNo := 0
  entryNum := 0
  logHead := 0
  ghostSlot := 0
  rbRoot := .nil
  list := []
  dents := fun _ => ⟨0, 0, 0, 0⟩
  arena := arena
  iMode := mode
  iLink := 0
  ref := 0
  ts := 0
  iSize := 0
  iUid := 0
  iGid := 0
  iAtim := 0
  iMtim := 0
  iCtim := 0

/-- The inode `ino` as it is read from its slot, at the time `now`, before the directory is
walked. -/
def readSlot (slot : PmInodeSlot) (ino : Nat) (now : Int) (arena : Arena) : DramInode :=
  { inodeInitHeader slot.iMode arena with
    iSize := slot.iSize
    iUid := slot.iUid
    iGid := slot.iGid
    iMode := slot.iMode
    iAtim := now
    iMtim := slot.iMtim
    iCtim := slot.iCtim
    logHead := slot.logHead
    iLink := slot.iLink
    iNo := ino
    entryNum := slot.entryNum }

def fileRebuild (_inode : DramInode) : Int := 0

def inodeRebuild (rb : Rbtree) (dirs : DirStorage) (stack : PmDirent) (slots : Nat → PmInodeSlot)
    (ino : Nat) (now : Int) (arena : Arena) : Int × DramInode :=
  let inode := readSlot (slots ino) ino now arena
  if inode.isDir then
    let (ret, dir) := dirRebuild rb dirs stack inode.toDir
    (ret, { inode with toDir := dir })
  else (fileRebuild inode, inode)

/-! ## What a walk leaves alone -/

/-- Number, head and length of the chain of a directory. -/
structure Dir.SameHeader (dir dir' : Dir) : Prop where
  iNo : dir'.iNo = dir.iNo
  logHead : dir'.logHead = dir.logHead
  entryNum : dir'.entryNum = dir.entryNum

theorem dirRebuildInsert_header (rb : Rbtree) (dir : Dir) (pd : PmDirent) (idx : Int) :
    dir.SameHeader (dirRebuildInsert rb dir pd idx).2 := by
  unfold dirRebuildInsert
  split
  · exact ⟨rfl, rfl, rfl⟩
  · dsimp only
    split <;> exact ⟨rfl, rfl, rfl⟩

theorem rebuildLoop_header (rb : Rbtree) (s : DirStorage) (n : Nat) (curr : Int) (pd : PmDirent)
    (dir : Dir) : dir.SameHeader (rebuildLoop rb s n curr pd dir).2 := by
  induction n generalizing curr pd dir with
  | zero => exact ⟨rfl, rfl, rfl⟩
  | succ n ih =>
    simp only [rebuildLoop]
    generalize copyDirent (Bytes.structSize direntT) pd (s.dentTable curr) = read
    have first := dirRebuildInsert_header rb dir read curr
    split
    · exact first
    · have rest := ih read.next read { (dirRebuildInsert rb dir read curr).2 with ghostSlot := read.next }
      exact ⟨rest.iNo.trans first.iNo, rest.logHead.trans first.logHead,
        rest.entryNum.trans first.entryNum⟩

theorem dirRebuild_header (rb : Rbtree) (s : DirStorage) (stack : PmDirent) (dir : Dir) :
    dir.SameHeader (dirRebuild rb s stack dir).2 := by
  have walked := rebuildLoop_header rb s dir.entryNum dir.logHead stack
    { dir with ghostSlot := dir.logHead }
  exact ⟨walked.iNo, walked.logHead, walked.entryNum⟩

/-! ## The round trip -/

/-- What an inode keeps over an unmount, whatever its kind is. -/
structure DramInode.Persists (inode inode' : DramInode) : Prop where
  iSize : inode'.iSize = inode.iSize
  iUid : inode'.iUid = inode.iUid
  iGid : inode'.iGid = inode.iGid
  iMode : inode'.iMode = inode.iMode
  iLink : inode'.iLink = inode.iLink
  iMtim : inode'.iMtim = inode.iMtim
  iCtim : inode'.iCtim = inode.iCtim
  logHead : inode'.logHead = inode.logHead
  entryNum : inode'.entryNum = inode.entryNum

theorem inodeRebuild_reads (rb : Rbtree) (dirs : DirStorage) (stack : PmDirent)
    (slots : Nat → PmInodeSlot) (ino : Nat) (now : Int) (arena : Arena) :
    (readSlot (slots ino) ino now arena).Persists
      (inodeRebuild rb dirs stack slots ino now arena).2 := by
  simp only [inodeRebuild]
  split
  · have header := dirRebuild_header rb dirs stack (readSlot (slots ino) ino now arena).toDir
    exact ⟨rfl, rfl, rfl, rfl, rfl, rfl, rfl, header.logHead, header.entryNum⟩
  · exact ⟨rfl, rfl, rfl, rfl, rfl, rfl, rfl, rfl, rfl⟩

/-- Every field comes back but `i_link`, which `inode_flush` does not assign: it is what the
slot held before. -/
theorem flush_rebuild_persists (rb : Rbtree) (dirs : DirStorage) (stack : PmDirent)
    (slots : Nat → PmInodeSlot) (inode : DramInode) (now : Int) (arena : Arena) :
    inode.Persists (inodeRebuild rb dirs stack (inode.inodeFlush slots) inode.iNo now arena).2 ↔
      (slots inode.iNo).iLink = inode.iLink := by
  have read := inodeRebuild_reads rb dirs stack (inode.inodeFlush slots) inode.iNo now arena
  simp only [DramInode.inodeFlush, Function.update_self] at read ⊢
  constructor
  · intro persists
    exact read.iLink.symm.trans persists.iLink
  · intro same
    exact ⟨read.iSize, read.iUid, read.iGid, read.iMode, read.iLink.trans same, read.iMtim,
      read.iCtim, read.logHead, read.entryNum⟩

/-- A slot that no inode has used. -/
def PmInodeSlot.zero : PmInodeSlot where
  iMode := 0
  logHead := 0
  entryNum := 0
  iSize := 0
  iUid := 0
  iGid := 0
  iLink := 0
  iAtim := 0
  iMtim := 0
  iCtim := 0
  ts := 0
  csum := 0

/-- A regular file as `inode_create` flushes it, with the name that it is made for. -/
def newFile : DramInode :=
  { inodeInitHeader 0o100644 ⟨0, fun _ => true⟩ with iNo := 3, iLink := 1, logHead := 7 }

/-- A new file in an unused slot comes back without a link. -/
theorem flush_rebuild_loses_link :
    (inodeRebuild plainRb emptyDir.storage ⟨0, [], 0, 0, 0⟩
      (newFile.inodeFlush fun _ => PmInodeSlot.zero) newFile.iNo 0 ⟨0, fun _ => true⟩).2.iLink = 0 ∧
    ¬ newFile.Persists (inodeRebuild plainRb emptyDir.storage ⟨0, [], 0, 0, 0⟩
      (newFile.inodeFlush fun _ => PmInodeSlot.zero) newFile.iNo 0 ⟨0, fun _ => true⟩).2 := by
  have lost : (inodeRebuild plainRb emptyDir.storage ⟨0, [], 0, 0, 0⟩
      (newFile.inodeFlush fun _ => PmInodeSlot.zero) newFile.iNo 0 ⟨0, fun _ => true⟩).2.iLink = 0 := by
    decide +kernel
  refine ⟨lost, fun persists => ?_⟩
  have kept := lost.symm.trans persists.iLink
  exact absurd kept (by decide)

end SlotFs
