import SlotFs.Btree
import SlotFs.Slot

/-!
# The scatter log of a file

The part of `inode.c` that records an extent. A write hands each of its extents
to `file_append_entry`, which takes a record at the tail of the log or reuses one
that no block refers to any more, enters the extent in the block index, and
writes the record to PM. Entries (`filent_t`) are numbered in the order in which
the file asked for them.
-/

namespace SlotFs
open CWord Function

structure Filent where
  idx : Int
  ts : Nat
  lIdx : Nat
  pIdx : Nat
  blocks : Nat
  ref : Int

/-- A record in PM; its first three fields are 32 bits wide. -/
structure PmFilent where
  lIdx : Nat
  pIdx : Nat
  blocks : Nat
  ts : Nat
  next : Int
  narrow : lIdx < 2 ^ 32 ∧ pIdx < 2 ^ 32 ∧ blocks < 2 ^ 32

/-- A record of zeros. -/
def PmFilent.zero : PmFilent := ⟨0, 0, 0, 0, 0, by decide⟩

/-- A regular file or a symbolic link. -/
structure Inode where
  iNo : Nat
  iSize : Nat
  symlink : Bool
  bRoot : Btree
  entryNum : Nat
  invalidNum : Nat
  logHead : Int
  ghostSlot : Int
  list : List Nat
  invalid : List Nat
  fents : Nat → Filent
  arena : Arena

/-- The maps of `SLOT_DATA`. `freed` is history only: every run of blocks given
back so far. -/
structure DataSlots where
  maps : Maps
  freed : List (Int × Nat)

structure Storage where
  data : DataSlots
  files : Maps
  fentTable : Int → PmFilent

/-- What a call cannot know beforehand. The run that `slot_data_alloc` gets from
the maps for a count, and the CPU that asks for a record, may be any; and so may
the outcome of the floating-point test of `filent_dispatch`, given `invalid_num`,
`entry_num` and the size of the extent. -/
structure Env where
  pick : Maps → Nat → Option (Nat × Nat × Nat)
  cpu : Maps → Nat
  appends : Nat → Nat → Nat → Bool

/-- `inode_init_header` and `init_ghost_slot` for a regular file whose first
record slot is `ghost`; `none` is a tree without a root. `nodes` and `entries`
say which requests of the file for tree nodes and entries are granted. -/
def newInode (iNo : Nat) (ghost : Int) (nodes entries : Nat → Bool) : Option Inode :=
  (btreeCreate nodes).map fun bRoot =>
    { iNo, iSize := 0, symlink := false, bRoot, entryNum := 0, invalidNum := 0
      logHead := ghost, ghostSlot := ghost, list := [], invalid := []
      fents := fun _ => ⟨0, 0, 0, 0, 0, 0⟩, arena := ⟨0, entries⟩ }

def slotDataFree (d : DataSlots) (index : Int) (count : Nat) : DataSlots :=
  ⟨doSlotFreeRange d.maps index count, (index, count) :: d.freed⟩

def Inode.setFent (inode : Inode) (fe : Nat) (f : Filent) : Inode :=
  { inode with fents := update inode.fents fe f }

def filentLookup (inode : Inode) (idx : Nat) : Option Filent :=
  (btreeGet inode.bRoot idx).map inode.fents

/-- The physical block of logical block `k` in an extent, in `index_t`. -/
def Filent.block (f : Filent) (k : Int) : Int := f.pIdx + (k - f.lIdx)

/-- One block of `fe` has been overwritten: it is given back, and an entry
without blocks goes to the list of those that can be reused. -/
def filentInsertCallback (fe : Nat) (idx : Int) (s : Inode × DataSlots) : Inode × DataSlots :=
  let f := s.1.fents fe
  let inode := s.1.setFent fe { f with ref := f.ref - 1 }
  let inode := if f.ref - 1 = 0 then
      { inode with invalid := inode.invalid ++ [fe], invalidNum := wrap64 (inode.invalidNum + 1) }
    else inode
  (inode, slotDataFree s.2 (f.block idx) 1)

def fileIndexInsert (inode : Inode) (data : DataSlots) (fe : Nat) :
    Option (Int × Inode × DataSlots) :=
  let f := inode.fents fe
  (btreeSetRangeCallback inode.bRoot f.lIdx (wrap64 (f.lIdx + f.blocks)) (some fe)
    (fun v k s => (0, filentInsertCallback v k s)) (inode, data)).map fun (ret, tree, inode, data) =>
      (ret, { inode with bRoot := tree }, data)

def filentTryReuse (inode : Inode) : Option Nat × Inode :=
  match inode.invalid with
  | [] => (none, inode)
  | fe :: rest => (some fe, { inode with invalid := rest, invalidNum := sub64 inode.invalidNum 1 })

def filentDispatch (env : Env) (inode : Inode) (size : Nat) : Option Nat × Inode :=
  if env.appends inode.invalidNum inode.entryNum size then (none, inode)
  else filentTryReuse { inode with invalidNum := sub64 inode.invalidNum 1 }

/-- The member of a list that follows `fe`. -/
def nextOf : List Nat → Nat → Option Nat
  | a :: b :: l, fe => if a = fe then some b else nextOf (b :: l) fe
  | _, _ => none

def enospc : Int := -28

/-- What `file_append_entry` settles before it fills the entry in: the entry,
its slot, the `next` of a reused record, and whether it is one. -/
structure Chosen where
  fe : Nat
  fno : Int
  reuse : Option Int

/-- The slot that follows the one of `fe` on the chain. -/
def reuseNext (inode : Inode) (fe : Nat) : Int :=
  match nextOf inode.list fe with
  | some next => (inode.fents next).idx
  | none => inode.ghostSlot

def chooseEntry (env : Env) (files : Maps) (inode : Inode) (size : Nat) :
    Except Int Chosen × Inode × Maps :=
  match filentDispatch env inode size with
  | (some fe, inode) => (.ok ⟨fe, (inode.fents fe).idx, some (reuseNext inode fe)⟩, inode, files)
  | (none, inode) =>
    match inode.arena.alloc with
    | (none, arena) => (.error enomem, { inode with arena }, files)
    | (some fe, arena) =>
      let fno := inode.ghostSlot
      let (ghost, files) := if inode.symlink then (0, files) else doSlotAlloc files (env.cpu files)
      if ghost < -1 then (.error enospc, { inode with arena }, files)
      else (.ok ⟨fe, fno, none⟩, { inode with arena, ghostSlot := ghost }, files)

/-- The entry `fe` filled in and, when it is new, put at the end of the list. -/
def fillEntry (inode : Inode) (c : Chosen) (entry : PmFilent) : Inode :=
  { inode.setFent c.fe
      { idx := c.fno, ts := entry.ts, lIdx := entry.lIdx, pIdx := entry.pIdx,
        blocks := entry.blocks, ref := toInt32 entry.blocks } with
    list := if c.reuse.isSome then inode.list else inode.list ++ [c.fe] }

/-- The result of `file_index_insert` is not looked at. `none` is the access
through `NULL` of a tree that cannot grow. -/
def fileAppendEntry (env : Env) (s : Storage) (inode : Inode) (entry : PmFilent) :
    Option (Except Int Nat × Inode × Storage) :=
  match chooseEntry env s.files inode (trunc32 (entry.blocks * 4096)) with
  | (.error e, inode, files) => some (.error e, inode, { s with files })
  | (.ok c, inode, files) =>
    (fileIndexInsert (fillEntry inode c entry) s.data c.fe).map fun (_, inode, data) =>
      let record := { entry with next := c.reuse.getD inode.ghostSlot }
      let entryNum := if c.reuse.isSome then inode.entryNum else wrap64 (inode.entryNum + 1)
      (.ok c.fe, { inode with entryNum },
        { data, files, fentTable := update s.fentTable c.fno record })

/-- The member of a list in front of `fe`. -/
def prevOf : List Nat → Nat → Option Nat
  | a :: b :: l, fe => if b = fe then some a else prevOf (b :: l) fe
  | _, _ => none

def setNext (table : Int → PmFilent) (slot next : Int) : Int → PmFilent :=
  update table slot { table slot with next }

/-- `file_remove_entry`, where `pmLogHead` is `log_head` of the inode in PM. It does not
move `log_head` of the inode in DRAM on, so that the second time the first entry is
removed the head of the list is taken for an entry in front of it; `none` is the store
through that. `list` is what `list_del` is meant to leave: `filent_free` comes before it and
overwrites the link it follows, so the first removal is the last that this describes. -/
def fileRemoveEntry (s : Storage) (pmLogHead : Int) (inode : Inode) (fe : Nat) :
    Option (Inode × Storage × Int) :=
  let f := inode.fents fe
  let next := reuseNext inode fe
  let linked := if inode.logHead = f.idx then some (s.fentTable, next)
    else (prevOf inode.list fe).map fun prev =>
      (setNext s.fentTable (inode.fents prev).idx next, pmLogHead)
  linked.bind fun (table, pmLogHead) =>
    (btreeSetRange inode.bRoot f.lIdx (wrap64 (f.lIdx + f.blocks)) none).map fun (_, bRoot) =>
      ({ inode with bRoot, list := inode.list.erase fe, entryNum := sub64 inode.entryNum 1 },
        { s with files := doSlotFree s.files f.idx, fentTable := setNext table f.idx 0 }, pmLogHead)

end SlotFs
