import SlotFs.Directory

/-!
# Names and descriptors

`slot_vfs.c`, `runtime.c` and the calls of `slotfs_func.c` that bind names and descriptors
to inodes. Objects (`inode_t`) are numbered in the order in which they were asked for,
and one that has been freed is gone from `objects`. `none` is a crash: a pointer is
followed that is `NULL`, an error, uninitialised or freed.
-/

namespace SlotFs
open CWord Function

def eperm : Int := -1
def enoent : Int := -2
def enotdir : Int := -20
def eisdir : Int := -21
def einval : Int := -22
def emfile : Int := -24
def eloop : Int := -40
def ebadfd : Int := -77

def atFdcwd : Int := -100
def fdMax : Nat := 8192
def maxLoop : Nat := 10
def slash : BitVec 8 := 0x2f#8

def sIfmt : Nat := 0o170000
def sIfdir : Nat := 0o040000
def sIflnk : Nat := 0o120000

/-- An inode in DRAM. What `Dir` holds is `list`, the tree and the chain of a directory;
of a file only the number and the count of entries are used here. -/
structure VfsInode extends Dir where
  iMode : Nat
  iLink : Nat
  ref : Nat
  ts : Nat

/-- `ref` has 32 bits. -/
def refInc (ref : Nat) : Nat := trunc32 (ref + 1)

def refDec (ref : Nat) : Nat := trunc32 (ref + (2 ^ 32 - 1))

def VfsInode.isDir (inode : VfsInode) : Bool := inode.iMode &&& sIfmt == sIfdir

def VfsInode.isSymlink (inode : VfsInode) : Bool := inode.iMode &&& sIfmt == sIflnk

structure FHeader where
  valid : Bool
  file : Option Nat

/-- `arena` is the one of the objects, and `objects` are those that have not been freed.
`freed` are the entries, each with its directory, that have been given back to their own arena
while they are in the directory. Nothing is said of what the arena makes of them. -/
structure Vfs where
  inodes : Maps
  dirs : DirStorage
  objects : Nat → Option VfsInode
  arena : Arena
  inodeTable : Nat → Option Nat
  root : Nat
  cwd : Nat
  fTable : Nat → FHeader
  fdHint : Nat
  releaseList : List Nat
  freed : List (Nat × Nat) := []

/-- What a call cannot know beforehand: the tree, the CPU that asks for a slot, what
`inode_rebuild` makes of an inode in PM, what `handle_symlink` reads from an object,
the slot that `slot_firent_alloc` finds for a new file, the memory for the entries of a
new directory, and the `ts` on the stack of `slotfs_rename`. -/
structure VfsEnv where
  rb : Rbtree
  cpu : Maps → Nat
  rebuild : Nat → Except Int VfsInode
  readlink : Nat → Option (Except Int (List (BitVec 8)))
  firent : Int
  entries : Nat → Bool
  stackTs : Nat

def Vfs.setObject (v : Vfs) (o : Nat) (inode : VfsInode) : Vfs :=
  { v with objects := update v.objects o (some inode) }

/-! ## `slot_vfs.c` -/

def Vfs.iget (v : Vfs) (env : VfsEnv) (ino : Nat) : Except Int Nat × Vfs :=
  match v.inodeTable ino with
  | some o => (.ok o, v)
  | none =>
    match v.arena.alloc with
    | (none, arena) => (.error enomem, { v with arena })
    | (some o, arena) =>
      match env.rebuild ino with
      | .error e => (.error e, { v with arena })
      | .ok inode =>
        (.ok o, { v with
          arena
          objects := update v.objects o (some { inode with iNo := ino, ref := 0 })
          inodeTable := update v.inodeTable ino (some o) })

def Vfs.icacheInstall (v : Vfs) (ino o : Nat) : Vfs :=
  { v with inodeTable := update v.inodeTable ino (some o) }

structure Nameidata where
  path : List (BitVec 8)
  start : Option Nat
  current : Option Nat
  parent : Option Nat
  depth : Nat
  wantParent : Bool
  nofollow : Bool
  last : List (BitVec 8)
  lastLen : Nat

def Nameidata.name (nd : Nameidata) : List (BitVec 8) := nd.last.take nd.lastLen

/-- The tails of a path at which its components begin. -/
def pathStarts (afterSlash : Bool) : List (BitVec 8) → List (List (BitVec 8))
  | [] => []
  | c :: rest =>
    if c = slash then pathStarts true rest
    else if afterSlash then (c :: rest) :: pathStarts false rest
    else pathStarts false rest

def component (this : List (BitVec 8)) : List (BitVec 8) := this.takeWhile (· ≠ slash)

/-- An error stands for the pointer 20: `inode_lookup` forgets the sign of `ENOTDIR`. -/
def Vfs.inodeLookup (v : Vfs) (dir : Option Nat) (name : List (BitVec 8)) :
    Option (Except Int (Option Nat)) := do
  let inode ← v.objects (← dir)
  if inode.isDir then some (.ok (direntLookup inode.toDir (bkdrHash name)))
  else some (.error 20)

/-- The steps of `path_lookup` from a directory to the inode that a name in it names. -/
def Vfs.pathIget (v : Vfs) (env : VfsEnv) (dir : Option Nat) (name : List (BitVec 8)) :
    Option (Except Int Nat × Vfs) := do
  let inode ← v.objects (← dir)
  match ← v.inodeLookup dir name with
  | .error _ => none
  | .ok none => some (.error enoent, v)
  | .ok (some d) => some (v.iget env (inode.dents d).ino)

/-- `depth` has 8 bits. -/
def Vfs.handleSymlink (v : Vfs) (env : VfsEnv)
    (lookup : Vfs → Nameidata → Option (Int × Nameidata × Vfs)) (o : Nat) (nd : Nameidata) :
    Option (Int × Nameidata × Vfs) :=
  if nd.nofollow then some (eloop, nd, v)
  else if maxLoop < nd.depth then some (eloop, nd, v)
  else
    match env.readlink o with
    | none => none
    | some (.error e) => some (e, nd, v)
    | some (.ok link) => do
      let start := if link.head? = some slash then some v.root else nd.current
      let (ret, nd', v) ← lookup v { nd with path := link, depth := (nd.depth + 1) % 256, start }
      some (ret, if ret = 0 then { nd with current := nd'.current } else nd, v)

/-- The loop of `path_lookup`. What a symbolic link leads to is not asked to be a
directory. -/
def Vfs.pathWalk (env : VfsEnv) (lookup : Vfs → Nameidata → Option (Int × Nameidata × Vfs)) :
    List (List (BitVec 8)) → Vfs → Nameidata → Option (Int × Nameidata × Vfs)
  | [], v, nd => some (0, nd, v)
  | [this], v, nd =>
    let nd := { nd with last := this, lastLen := (component this).length }
    if nd.wantParent then some (0, { nd with parent := nd.current, current := none }, v)
    else do
      match ← v.pathIget env nd.current (component this) with
      | (.error e, v) => some (e, nd, v)
      | (.ok o, v) =>
        let inode ← v.objects o
        if inode.isSymlink then v.handleSymlink env lookup o nd
        else some (0, { nd with current := some o }, v)
  | this :: rest, v, nd => do
    match ← v.pathIget env nd.current (component this) with
    | (.error e, v) => some (e, nd, v)
    | (.ok o, v) =>
      let inode ← v.objects o
      if inode.isSymlink then
        let (ret, nd, v) ← v.handleSymlink env lookup o nd
        if ret = 0 then pathWalk env lookup rest v nd else some (ret, nd, v)
      else if inode.isDir then pathWalk env lookup rest v { nd with current := some o }
      else some (enotdir, nd, v)

/-- `path_lookup`, where `calls` bounds how deep it calls itself. -/
def Vfs.pathLookupWithin (env : VfsEnv) : Nat → Vfs → Nameidata → Option (Int × Nameidata × Vfs)
  | 0, _, _ => none
  | calls + 1, v, nd =>
    let nd := { nd with current := nd.start }
    match pathStarts true nd.path with
    | [] => if nd.wantParent then some (0, nd, v) else do
        let _ ← v.objects (← nd.current)
        some (0, nd, v)
    | starts => do
        let _ ← v.objects (← nd.current)
        pathWalk env (pathLookupWithin env calls) starts v nd

/-- A link is followed while `depth` is at most `maxLoop`. -/
def Vfs.pathLookup (v : Vfs) (env : VfsEnv) (nd : Nameidata) : Option (Int × Nameidata × Vfs) :=
  pathLookupWithin env (maxLoop + 2) v nd

/-! ## `runtime.c` -/

def Vfs.fdScan (v : Vfs) : Nat → Nat → Option Nat
  | 0, _ => none
  | left + 1, i =>
    let index := (v.fdHint + i) % fdMax
    if (v.fTable index).valid then v.fdScan left (i + 1) else some index

/-- The second pass finds what the first one did. -/
def Vfs.fdAlloc (v : Vfs) : Option Nat × Vfs :=
  match v.fdScan fdMax 0 with
  | none => (none, v)
  | some fd =>
    (some fd, { v with
      fdHint := (fd + 1) % fdMax
      fTable := update v.fTable fd ⟨true, none⟩ })

def Vfs.fdFree (v : Vfs) (fd : Nat) : Vfs :=
  { v with fTable := update v.fTable fd ⟨false, none⟩ }

/-! ## `inode.c` -/

def Vfs.dirAppendEntry (v : Vfs) (env : VfsEnv) (parent : Nat) (entry : EntryInode)
    (name : List (BitVec 8)) : Option (Except Int Nat × EntryInode × Vfs) := do
  let inode ← v.objects parent
  let (r, dir, entry, dirs) := SlotFs.dirAppendEntry env.rb env.cpu v.dirs inode.toDir entry name
  some (r, entry, { v with dirs }.setObject parent { inode with toDir := dir })

def Vfs.dirRemoveEntry (v : Vfs) (env : VfsEnv) (parent d : Nat) : Option Vfs := do
  let inode ← v.objects parent
  let (dir, dirs) ← SlotFs.dirRemoveEntry env.rb v.dirs inode.toDir d
  some ({ v with dirs }.setObject parent { inode with toDir := dir })

/-- Of what `inode_flush` writes only `log_head` is kept. -/
def Vfs.inodeFlush (v : Vfs) (inode : VfsInode) : Vfs :=
  { v with dirs := { v.dirs with
      pmLogHead := update v.dirs.pmLogHead inode.iNo inode.logHead } }

/-- `inode_init_header` and the assignments of `inode_create`. -/
def newVfsInode (env : VfsEnv) (ino mode : Nat) (ghost : Int) : VfsInode where
  iNo := ino
  entryNum := 0
  logHead := ghost
  ghostSlot := ghost
  rbRoot := .nil
  list := []
  dents := fun _ => ⟨0, 0, 0, 0⟩
  arena := ⟨0, env.entries⟩
  iMode := mode
  iLink := 1
  ref := 0
  ts := 0

/-- `init_ghost_slot` -/
def Vfs.initGhostSlot (v : Vfs) (env : VfsEnv) (mode : Nat) : Int × Vfs :=
  if mode &&& sIfmt = sIfdir then
    let (ghost, dirs) := doSlotAlloc v.dirs.dirs (env.cpu v.dirs.dirs)
    (ghost, { v with dirs := { v.dirs with dirs } })
  else (env.firent, v)

/-- The number of the inode is unsigned, so the test `ino < 0` never succeeds, and without
a free slot the inode is flushed to a place in front of the table. -/
def Vfs.inodeCreate (v : Vfs) (env : VfsEnv) (parent : Nat) (name : List (BitVec 8)) (mode : Nat) :
    Option (Except Int Nat × Vfs) :=
  let (ino, inodes) := doSlotAlloc v.inodes (env.cpu v.inodes)
  if ino < 0 then none
  else
    match v.arena.alloc with
    | (none, arena) => some (.error enomem, { v with arena, inodes := doSlotFree inodes ino })
    | (some o, arena) =>
      let (ghost, v) := { v with arena, inodes }.initGhostSlot env mode
      if ghost < 0 then some (.error enospc, { v with inodes := doSlotFree inodes ino })
      else do
        let inode := newVfsInode env ino.toNat mode ghost
        let v := (v.setObject o inode).inodeFlush inode
        match ← v.dirAppendEntry env parent ⟨ino.toNat, inode.ts, inode.entryNum⟩ name with
        | (.error e, _, v) =>
          some (.error e, { v with
            inodes := doSlotFree inodes ino, objects := update v.objects o none })
        | (.ok _, entry, v) => some (.ok o, v.setObject o { inode with entryNum := entry.entryNum })

def Vfs.inodeRelease (v : Vfs) (o : Nat) : Vfs := { v with releaseList := o :: v.releaseList }

/-- A directory with entries would have them freed before they are removed. -/
def Vfs.doInodeRelease (v : Vfs) (o : Nat) : Option Vfs := do
  let inode ← v.objects o
  if inode.isDir && !inode.list.isEmpty then none
  else some { v with
    inodes := doSlotFree v.inodes inode.iNo, objects := update v.objects o none }

/-! ## `slotfs_func.c` -/

def Vfs.fileTableGet (v : Vfs) (fd : Int) : Except Int (Option Nat) :=
  if fd < 0 ∨ (fdMax : Int) ≤ fd then .error ebadfd
  else if (v.fTable fd.toNat).valid then .ok (v.fTable fd.toNat).file
  else .error ebadfd

def Vfs.nameidataInit (v : Vfs) (fd : Int) (path : List (BitVec 8)) (nofollow : Bool) :
    Except Int Nameidata :=
  let start : Except Int (Option Nat) :=
    if path.head? = some slash then .ok (some v.root)
    else if fd = atFdcwd then .ok (some v.cwd)
    else v.fileTableGet fd
  start.map fun start => ⟨path, start, none, none, 0, false, nofollow, [], 0⟩

structure OpenFlags where
  creat : Bool
  directory : Bool
  nofollow : Bool

/-- `do_slotfs_open` without `O_CREAT` -/
def Vfs.openExisting (v : Vfs) (env : VfsEnv) (nd : Nameidata) (directory : Bool) :
    Option (Except Int Nat × Vfs) := do
  let (ret, nd, v) ← v.pathLookup env nd
  if ret ≠ 0 then some (.error ret, v)
  else
    let o ← nd.current
    let inode ← v.objects o
    if directory && !inode.isDir then some (.error enotdir, v)
    else some (.ok o, v.setObject o { inode with ref := refInc inode.ref })

/-- `do_slotfs_open` with `O_CREAT`. No reference is taken to the root or to an inode that
has the name already, and an error of `inode_create` is taken for an inode. -/
def Vfs.openCreat (v : Vfs) (env : VfsEnv) (nd : Nameidata) (mode : Nat) :
    Option (Except Int Nat × Vfs) :=
  let nd := { nd with wantParent := true, path := nd.path.dropWhile (· = slash) }
  if nd.path = [] then some (.ok v.root, v)
  else do
    let (ret, nd, v) ← v.pathLookup env nd
    if ret ≠ 0 then some (.error ret, v)
    else
      let parent ← nd.parent
      let dir ← v.objects parent
      match ← v.inodeLookup parent nd.name with
      | .error _ => none
      | .ok (some d) =>
        match v.iget env (dir.dents d).ino with
        | (.error _, _) => none
        | (.ok o, v) => (v.objects o).map fun _ => (.ok o, v)
      | .ok none =>
        match ← v.inodeCreate env parent nd.name mode with
        | (.error _, _) => none
        | (.ok o, v) =>
          let inode ← v.objects o
          let v := v.setObject o { inode with ref := refInc inode.ref }
          some (.ok o, v.icacheInstall inode.iNo o)

def Vfs.doSlotfsOpen (v : Vfs) (env : VfsEnv) (dfd : Int) (path : List (BitVec 8)) (flags : OpenFlags)
    (mode : Nat) : Option (Except Int Nat × Vfs) :=
  match v.nameidataInit dfd path flags.nofollow with
  | .error e => some (.error e, v)
  | .ok nd =>
    if flags.creat then v.openCreat env nd mode else v.openExisting env nd flags.directory

/-- An error is the `errno` of a result of -1. A descriptor stays valid when
`do_slotfs_open` fails. -/
def Vfs.slotfsOpen (v : Vfs) (env : VfsEnv) (dfd : Int) (path : List (BitVec 8)) (flags : OpenFlags)
    (mode : Nat) : Option (Except Int Nat × Vfs) :=
  match v.fdAlloc with
  | (none, v) => some (.error emfile, v)
  | (some fd, v) => do
    match ← v.doSlotfsOpen env dfd path flags mode with
    | (.error e, v) => some (.error e, v)
    | (.ok o, v) => some (.ok fd, { v with fTable := update v.fTable fd ⟨true, some o⟩ })

def Vfs.slotfsLink (v : Vfs) (env : VfsEnv) (target link : List (BitVec 8)) : Option (Int × Vfs) :=
  match v.nameidataInit atFdcwd target false with
  | .error e => some (e, v)
  | .ok nd => do
    let (ret, nd, v) ← v.pathLookup env nd
    if ret ≠ 0 then some (ret, v)
    else
      let o ← nd.current
      let inode ← v.objects o
      if inode.isDir then some (eperm, v)
      else
        match v.nameidataInit atFdcwd link false with
        | .error e => some (e, v)
        | .ok nd =>
          let (ret, nd, v) ← v.pathLookup env { nd with wantParent := true }
          if ret ≠ 0 then some (ret, v)
          else
            let parent ← nd.parent
            match ← v.inodeLookup parent nd.name with
            | .error _ => some (eexist, v)
            | .ok (some _) => some (eexist, v)
            | .ok none =>
              let inode ← v.objects o
              match ← v.dirAppendEntry env parent ⟨inode.iNo, inode.ts, inode.entryNum⟩ nd.name with
              | (.error e, _, v) => some (e, v)
              | (.ok _, entry, v) => some (0, v.setObject o { inode with entryNum := entry.entryNum })

/-- An entry that names a directory is given back to its arena and stays in its own
directory. -/
def Vfs.slotfsUnlink (v : Vfs) (env : VfsEnv) (path : List (BitVec 8)) : Option (Int × Vfs) :=
  match v.nameidataInit atFdcwd path false with
  | .error e => some (e, v)
  | .ok nd => do
    let (ret, nd, v) ← v.pathLookup env { nd with wantParent := true }
    if ret ≠ 0 then some (ret, v)
    else
      let parent ← nd.parent
      let dir ← v.objects parent
      match ← v.inodeLookup parent nd.name with
      | .error _ => none
      | .ok none => some (enoent, v)
      | .ok (some d) =>
        match v.iget env (dir.dents d).ino with
        | (.error _, _) => none
        | (.ok o, v) =>
          let inode ← v.objects o
          if inode.isDir then some (eisdir, { v with freed := (parent, d) :: v.freed })
          else
            let v ← v.dirRemoveEntry env parent d
            let inode ← v.objects o
            let v := v.setObject o { inode with iLink := sub64 inode.iLink 1 }
            some (0, if inode.ref = 0 ∧ sub64 inode.iLink 1 = 0 then v.inodeRelease o else v)

/-- Without memory for the new entry the result is 0. -/
def Vfs.slotfsRename (v : Vfs) (env : VfsEnv) (oldpath newpath : List (BitVec 8)) :
    Option (Int × Vfs) :=
  match v.nameidataInit atFdcwd oldpath false with
  | .error e => some (e, v)
  | .ok old => do
    let (ret, old, v) ← v.pathLookup env { old with wantParent := true }
    if ret ≠ 0 then some (ret, v)
    else
      let oldDir ← old.parent
      let _ ← v.objects oldDir
      match v.nameidataInit atFdcwd newpath false with
      | .error e => some (e, v)
      | .ok new =>
        let (ret, new, v) ← v.pathLookup env { new with wantParent := true }
        if ret ≠ 0 then some (ret, v)
        else
          let newDir ← new.parent
          if newDir = oldDir ∧ old.last = new.last then some (einval, v)
          else
            let dir ← v.objects oldDir
            match ← v.inodeLookup oldDir old.name with
            | .ok none => some (enoent, v)
            | oldDentry =>
              match ← v.inodeLookup newDir new.name with
              | .error _ => some (eexist, v)
              | .ok (some _) => some (eexist, v)
              | .ok none =>
                match oldDentry with
                | .ok (some d) =>
                  match ← v.dirAppendEntry env newDir ⟨(dir.dents d).ino, env.stackTs, 0⟩ new.name with
                  | (.error _, _, v) => some (0, v)
                  | (.ok _, _, v) => (v.dirRemoveEntry env oldDir d).map fun v => (0, v)
                | _ => none

def Vfs.slotfsClose (v : Vfs) (fd : Int) : Option (Except Int Unit × Vfs) :=
  if fd < 0 ∨ (fdMax : Int) ≤ fd then none
  else
    match (v.fTable fd.toNat).file with
    | none => some (.error ebadfd, v)
    | some o =>
      if (v.fTable fd.toNat).valid then do
        let inode ← v.objects o
        let ref := refDec inode.ref
        let v := v.setObject o { inode with ref }
        let v :=
          if ref = 0 ∧ inode.iLink = 0 then
            { v.inodeRelease o with inodeTable := update v.inodeTable inode.iNo none }
          else if ref = 0 then v.inodeFlush inode
          else v
        some (.ok (), v.fdFree fd.toNat)
      else some (.error ebadfd, v)

/-- One round of `release_thread`. -/
def Vfs.releaseThread (v : Vfs) : Option Vfs :=
  match v.releaseList with
  | [] => some v
  | o :: rest => { v with releaseList := rest }.doInodeRelease o

/-! ## Runs -/

inductive VfsCall
  | open (dfd : Int) (path : List (BitVec 8)) (flags : OpenFlags) (mode : Nat)
  | close (fd : Int)
  | link (target link : List (BitVec 8))
  | unlink (path : List (BitVec 8))
  | rename (oldpath newpath : List (BitVec 8))
  | release

def Vfs.call (v : Vfs) (env : VfsEnv) : VfsCall → Option Vfs
  | .open dfd path flags mode => (v.slotfsOpen env dfd path flags mode).map (·.2)
  | .close fd => (v.slotfsClose fd).map (·.2)
  | .link target link => (v.slotfsLink env target link).map (·.2)
  | .unlink path => (v.slotfsUnlink env path).map (·.2)
  | .rename oldpath newpath => (v.slotfsRename env oldpath newpath).map (·.2)
  | .release => v.releaseThread

/-- A call that is allowed, does not crash and is no `slotfs_unlink` of a directory, which would
give back an entry that stays in a directory. -/
inductive VfsStep (allowed : VfsEnv → Vfs → VfsCall → Prop) (v : Vfs) : Vfs → Prop
  | call (env : VfsEnv) (c : VfsCall) (v' : Vfs) (ok : allowed env v c) (call : v.call env c = some v')
      (spares : v'.freed = v.freed) : VfsStep allowed v v'

/-- A new file system: the root is the only object, cached and without entries. -/
structure Vfs.Mounted (v : Vfs) : Prop where
  root : ∃ inode, v.objects v.root = some inode ∧ inode.isDir ∧ inode.iNo = 0 ∧ inode.list = [] ∧
    inode.rbRoot = .nil ∧ inode.iLink = 1 ∧ inode.ref = 0
  alone : ∀ o, o ≠ v.root → v.objects o = none
  asked : v.root < v.arena.asked
  cached : v.inodeTable 0 = some v.root
  cwd : v.cwd = v.root
  maps : v.inodes.Ok ∧ v.inodes.Within (2 ^ 31) ∧ InUse v.inodes 0
  closed : ∀ fd, (v.fTable fd).valid = false
  released : v.releaseList = []

end SlotFs
