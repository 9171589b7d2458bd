import SlotFs.Vfs

/-!
# Recovery

`recover.c`: the bitmaps in PM are built anew from what can be reached from the root.
Inodes wait in a queue until they are handled, and handling one follows its log in PM up
to the slot whose `next` is 0. For a file the records are merged block by block in a tree.

`none` is a crash: an access outside of an array or to freed memory, a failed assertion,
or a loop that does not end. Handlings of different inodes do not overlap here.
-/

namespace SlotFs
open CWord Function

inductive SlotType
  | inode | dir | file | data
  deriving DecidableEq

structure PmInode where
  iMode : Nat
  logHead : Int
  entryNum : Nat

/-- What recovery reads and writes in PM. -/
structure Image where
  slotNum : SlotType → Nat
  bitmap : SlotType → Mem
  inodes : Nat → PmInode
  dentTable : Int → PmDirent
  fentTable : Int → PmFilent

/-- What the fields that nobody initialises hold after `malloc`: by inode, and for a
record by its inode and its number there. -/
structure Malloced where
  link : Nat → Int
  entryNum : Nat → Nat
  ref : Nat → Nat → Int

structure RcFilent where
  ts : Nat
  ref : Int
  pIdx : Int
  lIdx : Int
  blocks : Int

/-- Records are numbered in the order in which they were asked for; `filents` are those
that have not been freed. -/
structure RcInode where
  entryNum : Nat
  link : Int
  mode : Nat
  logHead : Int
  btree : Btree
  hint : BtreePtr
  list : List Nat
  filents : Nat → Option RcFilent
  asked : Nat

/-- `data` up to `rear`. -/
structure RcQueue where
  front : Nat
  data : List Int
  capacity : Int

structure Rc where
  map : SlotType → Mem
  inodeTable : Nat → Option RcInode
  queue : RcQueue

/-! ## The queue -/

/-- The size is given as an `int`. -/
def queueInit (size : Nat) : RcQueue := ⟨0, [], toInt32 size⟩

/-- The array is not used as a ring: `rear` only grows. -/
def queuePush (q : RcQueue) (val : Int) : Option RcQueue :=
  if q.capacity ≤ q.data.length - q.front then none
  else if q.capacity ≤ q.data.length then none
  else some { q with data := q.data ++ [val] }

def queuePop (q : RcQueue) : Option (Int × RcQueue) :=
  q.data[q.front]?.map fun val => (val, { q with front := q.front + 1 })

theorem queuePush_eq_some {q q' : RcQueue} {val : Int} (run : queuePush q val = some q') :
    q' = { q with data := q.data ++ [val] } := by
  unfold queuePush at run
  split at run
  · cases run
  · split at run
    · cases run
    · exact (Option.some.inj run).symm

/-! ## Bitmaps and inodes -/

/-- The bytes of a map. -/
def mapBytes (bits : Nat) : Nat := (bits + 7) / 8

def rcSetBit (bits : Nat) (nr : Int) (map : Mem) : Option Mem :=
  if toSize nr / 8 < mapBytes bits then some (setBit (toSize nr) map) else none

def rcClearBit (bits : Nat) (nr : Int) (map : Mem) : Option Mem :=
  if toSize nr / 8 < mapBytes bits then some (clearBit (toSize nr) map) else none

def Rc.setInode (rc : Rc) (ino : Nat) (inode : RcInode) : Rc :=
  { rc with inodeTable := update rc.inodeTable ino (some inode) }

def Rc.setMap (rc : Rc) (type : SlotType) (map : Mem) : Rc :=
  { rc with map := update rc.map type map }

section
variable (rc : Rc) (ino : Nat) (inode : RcInode) (type : SlotType) (map : Mem)

@[simp] theorem Rc.setInode_map : (rc.setInode ino inode).map = rc.map := rfl

@[simp] theorem Rc.setInode_queue : (rc.setInode ino inode).queue = rc.queue := rfl

@[simp] theorem Rc.setInode_inodeTable :
    (rc.setInode ino inode).inodeTable = update rc.inodeTable ino (some inode) := rfl

@[simp] theorem Rc.setMap_map : (rc.setMap type map).map = update rc.map type map := rfl

@[simp] theorem Rc.setMap_queue : (rc.setMap type map).queue = rc.queue := rfl

@[simp] theorem Rc.setMap_inodeTable : (rc.setMap type map).inodeTable = rc.inodeTable := rfl

end

def Rc.mark (rc : Rc) (image : Image) (type : SlotType) (nr : Int) : Option Rc :=
  (rcSetBit (image.slotNum type) nr (rc.map type)).map (rc.setMap type)

/-- Only the list is initialised; the tree and the hint are not used before
`rc_handle_inode` has set them. -/
def newRcInode (mem : Malloced) (ino : Nat) : RcInode where
  entryNum := mem.entryNum ino
  link := mem.link ino
  mode := 0
  logHead := 0
  btree := ⟨0, 0, fun _ => ⟨none, 0, 0, 0, fun _ => none⟩, ⟨0, fun _ => true⟩⟩
  hint := ⟨none, 0, 0⟩
  list := []
  filents := fun _ => none
  asked := 0

def rcIget (mem : Malloced) (image : Image) (rc : Rc) (ino : Nat) : Option (RcInode × Rc) :=
  if image.slotNum .inode ≤ ino then none
  else
    match rc.inodeTable ino with
    | some inode => some (inode, rc)
    | none => some (newRcInode mem ino, rc.setInode ino (newRcInode mem ino))

/-! ## Directories -/

/-- An inode is queued with its first link. -/
def queueLinked (q : RcQueue) (link : Int) (ino : Nat) : Option RcQueue :=
  if link = 1 then queuePush q (toInt32 ino) else some q

/-- Entry `idx` of directory `dir`, and the slot behind it. -/
def rcHandleDirent (mem : Malloced) (image : Image) (rc : Rc) (dir : Nat) (idx : Int) :
    Option (Rc × Int) := do
  let de := image.dentTable idx
  let (child, rc) ← rcIget mem image rc de.ino
  let rc ← rc.mark image .dir idx
  let link := child.link + 1
  let rc := rc.setInode de.ino { child with link }
  let queue ← queueLinked rc.queue link de.ino
  let rc := { rc with queue }
  let inode ← rc.inodeTable dir
  some (rc.setInode dir { inode with entryNum := wrap64 (inode.entryNum + 1) }, de.next)

/-! ## Files -/

/-- Record `o` meets what the cell of block `idx` holds. -/
def rcMergeCell (bits o : Nat) (filent : RcFilent) (idx : Int) (node index : Nat) (inode : RcInode)
    (map : Mem) : Option (RcInode × Mem) :=
  match (inode.btree.nodes node).children index with
  | some old => do
    let oldFilent ← inode.filents old
    if oldFilent.ts < filent.ts then
      let btree := inode.btree.setChild node index (some o)
      let ref := oldFilent.ref - 1
      let map ← rcClearBit bits (oldFilent.pIdx + (oldFilent.lIdx - idx)) map
      let kept := if ref = 0 then none else some { oldFilent with ref }
      let list := if ref = 0 then inode.list.erase old else inode.list
      some ({ inode with btree, list, filents := update inode.filents old kept }, map)
    else
      let map ← rcClearBit bits (filent.pIdx + (filent.lIdx - idx)) map
      some (inode, map)
  | none =>
    let btree := inode.btree.setChild node index (some o)
    let filents := update inode.filents o (some { filent with ref := filent.ref + 1 })
    some ({ inode with btree, filents }, map)

/-- Block `i` of record `o`. -/
def rcMergeBlock (bits o i : Nat) (inode : RcInode) (map : Mem) : Option (RcInode × Mem) := do
  let filent ← inode.filents o
  let idx := filent.lIdx + i
  match btreeGetPtrHint inode.btree (toSize idx) inode.hint with
  | (none, _, _) => none
  | (some (node, index), btree, hint) =>
    if 256 ≤ index then none
    else rcMergeCell bits o filent idx node index { inode with btree, hint } map

/-- `n` blocks of record `o` from block `i` on. -/
def rcMergeLoop (bits o : Nat) : Nat → Nat → RcInode → Mem → Option (RcInode × Mem)
  | 0, _, inode, map => some (inode, map)
  | n + 1, i, inode, map =>
    (rcMergeBlock bits o i inode map).bind fun (inode, map) => rcMergeLoop bits o n (i + 1) inode map

/-- A record that took no free block goes at once. -/
def rcKeep (o : Nat) (inode : RcInode) : Option RcInode := do
  let filent ← inode.filents o
  if filent.ref = 0 then some { inode with filents := update inode.filents o none }
  else some { inode with list := inode.list ++ [o] }

/-- The record is allocated with the `ref` that the memory happens to hold. -/
def newRcFilent (mem : Malloced) (ino : Nat) (fe : PmFilent) (inode : RcInode) : RcInode :=
  let filent := ⟨fe.ts, mem.ref ino inode.asked, fe.pIdx, fe.lIdx, toInt32 fe.blocks⟩
  { inode with
    asked := inode.asked + 1
    filents := update inode.filents inode.asked (some filent) }

/-- One record that is not the ghost. -/
def rcMergeRecord (mem : Malloced) (bits ino : Nat) (fe : PmFilent) (inode : RcInode) (map : Mem) :
    Option (RcInode × Mem) := do
  let o := inode.asked
  let (inode, map) ← rcMergeLoop bits o (toInt32 fe.blocks).toNat 0 (newRcFilent mem ino fe inode) map
  let inode ← rcKeep o inode
  some ({ inode with entryNum := wrap64 (inode.entryNum + 1) }, map)

/-- Record `idx` of file `ino`, and the slot behind it. -/
def rcHandleFilent (mem : Malloced) (image : Image) (rc : Rc) (ino : Nat) (idx : Int) :
    Option (Rc × Int) := do
  let fe := image.fentTable idx
  let rc ← rc.mark image .file idx
  let inode ← rc.inodeTable ino
  if fe.next = 0 then some (rc.setInode ino (newRcFilent mem ino fe inode), 0)
  else
    let (inode, map) ← rcMergeRecord mem (image.slotNum .data) ino fe inode (rc.map .data)
    some ((rc.setMap .data map).setInode ino inode, fe.next)

/-! ## The replay -/

def Image.isDir (image : Image) (ino : Nat) : Bool := (image.inodes ino).iMode &&& sIfdir != 0

/-- The loop of `rc_handle_inode`. A log with more slots than there are runs in a circle. -/
def rcLogLoop (mem : Malloced) (image : Image) (ino : Nat) : Nat → Rc → Int → Option Rc
  | 0, _, _ => none
  | fuel + 1, rc, idx =>
    if idx = 0 then some rc
    else
      (if image.isDir ino then rcHandleDirent mem image rc ino idx
        else rcHandleFilent mem image rc ino idx).bind
        fun (rc, next) => rcLogLoop mem image ino fuel rc next

def rcLogFuel (image : Image) : Nat := image.slotNum .dir + image.slotNum .file + 2

def rcHandleInode (mem : Malloced) (image : Image) (rc : Rc) (ino : Nat) : Option Rc := do
  let (inode, rc) ← rcIget mem image rc ino
  let pi := image.inodes ino
  let inode := { inode with mode := pi.iMode, logHead := pi.logHead }
  let rc ← rc.mark image .inode ino
  let inode ← if image.isDir ino then some inode else
    (btreeCreate fun _ => true).map fun btree =>
      { inode with btree, hint := { inode.hint with node := none, index := 0 } }
  rcLogLoop mem image ino (rcLogFuel image) (rc.setInode ino inode) pi.logHead

/-- Every inode is handled as it comes out of the queue. -/
def rcReplay (mem : Malloced) (image : Image) : Nat → Rc → Option Rc
  | 0, _ => none
  | fuel + 1, rc =>
    match queuePop rc.queue with
    | none => some rc
    | some (idx, queue) =>
      (rcHandleInode mem image { rc with queue } (toSize idx)).bind (rcReplay mem image fuel)

/-- The inode of the root is there from the start, with one link. -/
def rcInit (mem : Malloced) (image : Image) : Option Rc := do
  let (root, rc) ← rcIget mem image ⟨fun _ _ => 0#8, fun _ => none, queueInit (image.slotNum .inode)⟩ 0
  some (rc.setInode 0 { root with link := 1 })

def rcFlush (image : Image) (rc : Rc) : Image :=
  { image with
    inodes := fun ino =>
      match rc.inodeTable ino with
      | some inode => { image.inodes ino with entryNum := inode.entryNum }
      | none => image.inodes ino
    bitmap := fun type a =>
      if a < mapBytes (image.slotNum type) then rc.map type a else image.bitmap type a }

/-- The image after `recover`. No inode is queued twice, which bounds the loop. -/
def recover (mem : Malloced) (image : Image) : Option Image := do
  let rc ← rcInit mem image
  let queue ← queuePush rc.queue 0
  let rc ← rcReplay mem image (image.slotNum .inode + 1) { rc with queue }
  some (rcFlush image rc)

end SlotFs
