import SlotFs.FileLog
import SlotFs.Journal

/-!
# The operations on a file

`inode.c` from creation to release. `inode_read` copies as much as one extent
holds at a time. `inode_write_atomic` writes small changes in place under the
journal, short appends in place, and everything else to new blocks that it enters
in the log when all of them have been written. Directories are left out: what
`dir_append_entry` returns is given.
-/

namespace SlotFs
open CWord

/-- What all files share. `blocks` is the data area, block `b` from address
`b * 4096` on, and begins at `dataTable`; `low` is PM in front of the bitmaps;
`pmSize` is `i_size` of the inodes in PM. -/
structure Sbi where
  inodes : Maps
  storage : Storage
  ts : Nat
  jnlMgr : JnlMgr
  low : Mem
  dataTable : Nat
  blocks : Mem
  pmSize : Nat → Nat

/-- `inode_create` for a regular file. `granted` says whether there is memory for
the inode, and `appended` is the result of `dir_append_entry`, which counts the entry
in `entry_num` of the new inode. The number of the inode is unsigned, so the test
`ino < 0` never succeeds. -/
def inodeCreate (env : Env) (sbi : Sbi) (granted : Bool) (appended : Int)
    (nodes entries : Nat → Bool) : Option (Except Int Inode × Sbi) :=
  let (index, inodes) := doSlotAlloc sbi.inodes (env.cpu sbi.inodes)
  let ino := toSize index
  let failed := { sbi with inodes := doSlotFree inodes (toInt64 ino) }
  if granted then
    let (ghost, files) := doSlotAlloc sbi.storage.files (env.cpu sbi.storage.files)
    (newInode ino ghost nodes entries).map fun inode =>
      if ghost < 0 then (.error enospc, failed)
      else if appended < 0 then
        (.error appended, { failed with storage := { sbi.storage with files } })
      else (.ok { inode with entryNum := 1 }, { sbi with
        inodes, storage := { sbi.storage with files }
        pmSize := Function.update sbi.pmSize ino inode.iSize })
  else some (.error enomem, failed)

/-- `do_inode_release` for a file: every extent on the list is given back whole. -/
def doInodeRelease (sbi : Sbi) (inode : Inode) : Sbi :=
  let storage := inode.list.foldl (fun s fe =>
    { s with
      data := slotDataFree s.data (inode.fents fe).pIdx (inode.fents fe).blocks
      files := doSlotFree s.files (inode.fents fe).idx }) sbi.storage
  { sbi with storage, inodes := doSlotFree sbi.inodes inode.iNo }

/-- The address of logical block `k` of an extent. -/
def Filent.addr (f : Filent) (k : Nat) : Nat := toSize (f.block k) * 4096

/-- How much one turn of the loop of `inode_read` copies: to the end of a block
that is not mapped, and as many bytes as the whole extent has behind a position in
its first block. -/
def readSize (inode : Inode) (offset left : Nat) : Nat :=
  let pageOffset := offset % 4096
  let room := match filentLookup inode (offset / 4096) with
    | none => 4096 - pageOffset
    | some fe => sub64 (wrap64 (fe.blocks * 4096)) pageOffset
  if left > room then room else left

def readTurn (sbi : Sbi) (inode : Inode) (buf : Mem) (filled offset nr : Nat) : Mem :=
  match filentLookup inode (offset / 4096) with
  | none => memset buf filled 0#8 nr
  | some fe => memcpy buf filled sbi.blocks (fe.addr (offset / 4096) + offset % 4096) nr

/-- The loop of `inode_read`; `buf` has been filled as far as `filled`. -/
def readLoop (sbi : Sbi) (inode : Inode) : Nat → Mem → Nat → Nat → Nat → Option Mem
  | 0, _, _, _, _ => none
  | fuel + 1, buf, filled, offset, left =>
    let nr := readSize inode offset left
    let buf := readTurn sbi inode buf filled offset nr
    if left - nr > 0 then readLoop sbi inode fuel buf (filled + nr) (offset + nr) (left - nr)
    else some buf

/-- Every turn of the loop copies a byte at least, or the loop does not end. -/
def inodeRead (sbi : Sbi) (inode : Inode) (buf : Mem) (len offset : Nat) : Option (Int × Mem) :=
  let room := sub64 inode.iSize offset
  let len := if len > room then room else len
  if len = 0 then some (0, buf)
  else (readLoop sbi inode len buf 0 offset len).map fun buf => (toInt64 len, buf)

/-- A write within one block, in place. -/
def inodeWriteJournal (sbi : Sbi) (inode : Inode) (buf : Mem) (len offset : Nat) : Int × Sbi :=
  match filentLookup inode (offset / 4096) with
  | none => (-1, sbi)
  | some fe =>
    let (jnl, mgr) := journalAlloc sbi.jnlMgr
    let addr := fe.addr (offset / 4096) + offset % 4096
    let low := journalWrite sbi.low jnl inode.iNo (sbi.dataTable + addr) sbi.blocks addr len
    let blocks := memcpy sbi.blocks addr buf 0 len
    let (low, mgr) := journalCommit low mgr jnl
    (toInt32 len, { sbi with jnlMgr := mgr, low, blocks })

/-- An extent that is yet to be entered in the log. -/
structure EntryUnit where
  lIdx : Nat
  pIdx : Nat
  blocks : Nat
  deriving DecidableEq

def ebufSize : Nat := 512

/-- The variables of the loop of `inode_write_atomic`; `buf` has been written as
far as `done`. -/
structure Write where
  sbi : Sbi
  inode : Inode
  c : Nat
  count : Nat
  done : Nat
  numBlk : Nat
  ebuf : List EntryUnit

/-- `slot_data_alloc`. -/
def slotDataAlloc (env : Env) (sbi : Sbi) (count : Nat) : Int × Nat × Sbi :=
  let maps := sbi.storage.data.maps
  let (index, allocated, maps) := takeRange maps (env.pick maps count)
  (index, allocated,
    { sbi with storage := { sbi.storage with data := { sbi.storage.data with maps } } })

/-- The end of the file is inside of the block and the write does not leave it. -/
def Write.appends (w : Write) : Bool :=
  w.c == w.inode.iSize && w.c % 4096 != 0 && w.numBlk == 1

/-- `none` is the access through `NULL` where the last block is not mapped. -/
def writeInPlace (buf : Mem) (len offset : Nat) (w : Write) : Option Write :=
  (filentLookup w.inode (w.c / 4096)).map fun fe =>
    let pageOffset := w.c % 4096
    let bytes := if 4096 - pageOffset > w.count then w.count else 4096 - pageOffset
    let blocks := memcpy w.sbi.blocks (fe.addr (w.c / 4096) + pageOffset) buf w.done bytes
    let size := max w.inode.iSize (wrap64 (offset + len))
    { w with
      sbi := { w.sbi with blocks, pmSize := Function.update w.sbi.pmSize w.inode.iNo size }
      inode := { w.inode with iSize := size }
      c := wrap64 (w.c + bytes), count := w.count - bytes, done := w.done + bytes
      numBlk := w.numBlk - 1 }

/-- The old bytes in front of the write go to the first new block, if the old one
is mapped. -/
def copyHead (inode : Inode) (blocks : Mem) (c nr : Nat) : Mem :=
  if c % 4096 ≠ 0 then
    match filentLookup inode (c / 4096) with
    | some old => memcpy blocks (nr * 4096) blocks (old.addr (c / 4096)) (c % 4096)
    | none => blocks
  else blocks

/-- The old bytes behind the write go to the last new block, if the old one is
mapped. -/
def copyTail (inode : Inode) (blocks : Mem) (len offset c nr allocated bytes : Nat) : Mem :=
  if wrap64 (c % 4096 + bytes) % 4096 ≠ 0 then
    let last := sub64 (wrap64 (c / 4096 + allocated)) 1
    let endOffset := wrap64 (offset + len) % 4096
    match filentLookup inode last with
    | some old => memcpy blocks (sub64 (wrap64 (nr + allocated)) 1 * 4096 + endOffset) blocks
        (old.addr last + endOffset) (4096 - endOffset)
    | none => blocks
  else blocks

/-- What goes to the new blocks from `nr` on. -/
def copyBlocks (inode : Inode) (blocks buf : Mem) (len offset c done nr allocated bytes : Nat) : Mem :=
  let blocks := copyHead inode blocks c nr
  let blocks := copyTail inode blocks len offset c nr allocated bytes
  memcpy blocks (nr * 4096 + c % 4096) buf done bytes

/-- `nr` is unsigned, so the test `nr < 0` never notices that there are no blocks:
the write goes on with block `2 ^ 64 - 1` and an empty extent. -/
def writeExtent (env : Env) (buf : Mem) (len offset : Nat) (w : Write) : Write :=
  let (index, allocated, sbi) := slotDataAlloc env w.sbi w.numBlk
  let nr := toSize index
  let room := sub64 (wrap64 (4096 * allocated)) (w.c % 4096)
  let bytes := if room > w.count then w.count else room
  let blocks := copyBlocks w.inode sbi.blocks buf len offset w.c w.done nr allocated bytes
  { sbi := { sbi with blocks }, inode := w.inode
    c := wrap64 (w.c + bytes), count := w.count - bytes, done := w.done + bytes
    numBlk := sub64 w.numBlk allocated
    ebuf := w.ebuf ++ [⟨w.c / 4096, nr, allocated⟩] }

/-- One turn of the loop. `none` is also the store behind the end of `ebuf`. -/
def writeNext (env : Env) (buf : Mem) (len offset : Nat) (w : Write) : Option Write :=
  if w.appends then writeInPlace buf len offset w
  else if w.ebuf.length < ebufSize then some (writeExtent env buf len offset w)
  else none

def writeLoop (env : Env) (buf : Mem) (len offset : Nat) : Nat → Write → Option Write
  | 0, _ => none
  | fuel + 1, w =>
    if w.numBlk = 0 then some w
    else (writeNext env buf len offset w).bind (writeLoop env buf len offset fuel)

/-- The record of an extent; `next` is filled in later. -/
def EntryUnit.record (u : EntryUnit) (ts : Nat) : PmFilent :=
  ⟨trunc32 u.lIdx, trunc32 u.pIdx, trunc32 u.blocks, ts, 0,
    Nat.mod_lt _ (by decide), Nat.mod_lt _ (by decide), Nat.mod_lt _ (by decide)⟩

def appendUnits (env : Env) (ts : Nat) :
    List EntryUnit → Inode → Storage → Option (Except Int Unit × Inode × Storage)
  | [], inode, s => some (.ok (), inode, s)
  | u :: rest, inode, s =>
    match fileAppendEntry env s inode (u.record ts) with
    | none => none
    | some (.error e, inode, s) => some (.error e, inode, s)
    | some (.ok _, inode, s) => appendUnits env ts rest inode s

/-- The log and the size, when all blocks have been written. -/
def writeLog (env : Env) (len offset : Nat) (w : Write) : Option (Int × Inode × Sbi) :=
  let ts := wrap64 (w.sbi.ts + 1)
  (appendUnits env ts w.ebuf w.inode w.sbi.storage).map fun
    | (.error e, inode, storage) => (e, inode, { w.sbi with storage, ts })
    | (.ok (), inode, storage) =>
      (toInt64 len, { inode with iSize := max inode.iSize (wrap64 (offset + len)) },
        { w.sbi with storage, ts })

/-- `inode_write_atomic` behind the journaled write. The loop makes at most one
turn for each place of `ebuf`, one in place, and the one that ends it. -/
def writeBlocks (env : Env) (sbi : Sbi) (inode : Inode) (buf : Mem) (len offset numBlk : Nat) :
    Option (Int × Inode × Sbi) :=
  (writeLoop env buf len offset (ebufSize + 2) ⟨sbi, inode, offset, len, 0, numBlk, []⟩).bind
    (writeLog env len offset)

/-- `num_blk`. -/
def blockCount (len offset : Nat) : Nat := wrap64 (len + offset % 4096 + 4095) / 4096

/-- A short write within one block that does not begin at the end of the file. -/
def Inode.journals (inode : Inode) (len offset : Nat) : Bool :=
  blockCount len offset == 1 && decide (len < 1024) && offset != inode.iSize

def inodeWriteAtomic (env : Env) (sbi : Sbi) (inode : Inode) (buf : Mem) (len offset : Nat) :
    Option (Int × Inode × Sbi) :=
  if inode.journals len offset then
    let (ret, sbi) := inodeWriteJournal sbi inode buf len offset
    if ret > 0 then some (ret, inode, sbi)
    else writeBlocks env sbi inode buf len offset (blockCount len offset)
  else writeBlocks env sbi inode buf len offset (blockCount len offset)

/-- The blocks that a write covers only in part, at its beginning and at its end. -/
def partialBlocks (len offset : Nat) : List Nat :=
  (if offset % 4096 ≠ 0 then [offset / 4096] else []) ++
    if (offset + len) % 4096 ≠ 0 then [(offset + len - 1) / 4096] else []

/-- The write looks up no block behind the keys of the tree. Where it would, `btree_get`
takes what lies behind `children` for an extent. -/
def Inode.HasKeys (inode : Inode) (len offset : Nat) : Prop :=
  ∀ key ∈ partialBlocks len offset, key < maxKeys inode.bRoot.height

end SlotFs
