import SlotFs.PathLookup
import SlotFs.DataLocks

/-!
# The calls with their locks

The functions of `slot_vfs.c` and `slotfs_func.c` that look up paths, as programs that take and
give back the locks of the inode table where the source does. Without the locks they are the
calls on names and descriptors.
-/

namespace SlotFs
open CWord Locks Option Prog Vfs

/-- Where a lock is asked for while another one is held: `slotfs_rename` has the new directory
and asks for the old one, `slotfs_link` has the target and looks up the new name. And where
`slotfs_unlink` gives the entry of a directory back to its arena, though it stays in its list. -/
inductive LockMark
  | crossing (newDir oldDir : Nat)
  | linking (target : Nat)
  | freeing (dir d : Nat)

abbrev VfsProg := Prog Vfs DataLock LockMark

def eio : Int := -5

/-- A pointer that is not `NULL`. -/
def pointer (o : Option Nat) : VfsProg Nat := look fun v => o.map fun o => (o, v)

def fetch (o : Nat) : VfsProg VfsInode := look fun v => (v.objects o).map fun inode => (inode, v)

def inodeLock (o : Nat) : VfsProg Unit := do
  let inode ← fetch o
  lock (.inode inode.iNo)

def inodeUnlock (o : Nat) : VfsProg Unit := do
  let inode ← fetch o
  unlock (.inode inode.iNo)

/-! ## `slot_vfs.c` -/

def lockedIget (env : VfsEnv) (ino : Nat) : VfsProg (Except Int Nat) := do
  lock (.inode ino)
  match ← look fun v => some (v.iget env ino) with
  | .error e =>
    unlock (.inode ino)
    pure (.error e)
  | .ok o => pure (.ok o)

def lockedIcacheInstall (o : Nat) : VfsProg Unit := do
  let inode ← fetch o
  lock (.inode inode.iNo)
  look fun v => some ((), v.icacheInstall inode.iNo o)
  unlock (.inode inode.iNo)

/-- The entry of a directory and the number in it; `none` is the pointer 20 that is followed. -/
def Vfs.entry (v : Vfs) (dir : Nat) (name : List (BitVec 8)) : Option (Option (Nat × Nat)) := do
  let inode ← v.objects dir
  match ← v.inodeLookup dir name with
  | .error _ => none
  | .ok d => some (d.map fun d => (d, (inode.dents d).ino))

def lookupEntry (dir : Nat) (name : List (BitVec 8)) : VfsProg (Option (Nat × Nat)) :=
  look fun v => (v.entry dir name).map fun d => (d, v)

/-- `handle_symlink` with the text of the link. -/
def lockedFollow (lookup : Nameidata → VfsProg (Int × Nameidata)) (o : Nat) (nd : Nameidata)
    (text : List (BitVec 8)) : VfsProg (Int × Nameidata) := do
  let root ← look fun v => some (v.root, v)
  inodeUnlock o
  let r ← lookup (nd.into root text)
  if r.1 = 0 then pure (r.1, { nd with current := r.2.current })
  else do
    inodeLock o
    pure (r.1, nd)

def lockedHandleSymlink (env : VfsEnv) (lookup : Nameidata → VfsProg (Int × Nameidata)) (o : Nat)
    (nd : Nameidata) : VfsProg (Int × Nameidata) :=
  if nd.nofollow then pure (eloop, nd)
  else if maxLoop < nd.depth then pure (eloop, nd)
  else
    match env.readlink o with
    | none => .crash
    | some (.error e) => pure (e, nd)
    | some (.ok text) => lockedFollow lookup o nd text

/-- An inode of `path_lookup`, locked, under the directory that is left for it. -/
def lockedStep (env : VfsEnv) (lookup : Nameidata → VfsProg (Int × Nameidata)) (last : Bool) (dir o : Nat)
    (nd : Nameidata) : VfsProg (Except Int Nameidata) := do
  let inode ← fetch o
  if inode.isSymlink then do
    inodeUnlock dir
    let r ← lockedHandleSymlink env lookup o nd
    if r.1 = 0 then pure (.ok r.2)
    else do
      inodeUnlock o
      pure (.error r.1)
  else if !last && !inode.isDir then do
    inodeUnlock o
    inodeUnlock dir
    pure (.error enotdir)
  else do
    inodeUnlock dir
    pure (.ok { nd with current := some o })

/-- One component of `path_lookup`; the last one need not be a directory. -/
def lockedEnter (env : VfsEnv) (lookup : Nameidata → VfsProg (Int × Nameidata)) (last : Bool)
    (name : List (BitVec 8)) (nd : Nameidata) : VfsProg (Except Int Nameidata) := do
  let dir ← pointer nd.current
  match ← lookupEntry dir name with
  | none =>
    inodeUnlock dir
    pure (.error enoent)
  | some d =>
    match ← lockedIget env d.2 with
    | .error e =>
      inodeUnlock dir
      pure (.error e)
    | .ok o => lockedStep env lookup last dir o nd

/-- A lookup ends at the first component that fails. -/
def goOn (nd : Nameidata) (next : Nameidata → VfsProg (Int × Nameidata)) :
    Except Int Nameidata → VfsProg (Int × Nameidata)
  | .error e => pure (e, nd)
  | .ok nd => next nd

def lockedWalk (env : VfsEnv) (lookup : Nameidata → VfsProg (Int × Nameidata)) :
    List (List (BitVec 8)) → Nameidata → VfsProg (Int × Nameidata)
  | [], nd => pure (0, nd)
  | [this], nd =>
    let nd := { nd with last := this, lastLen := (component this).length }
    if nd.wantParent then pure (0, { nd with parent := nd.current, current := none })
    else do
      goOn nd (fun nd => pure (0, nd)) (← lockedEnter env lookup true (component this) nd)
  | this :: rest, nd => do
    goOn nd (lockedWalk env lookup rest) (← lockedEnter env lookup false (component this) nd)

/-- The lock of the directory that a lookup starts from. -/
def lockStart (nd : Nameidata) : VfsProg Unit := do inodeLock (← pointer nd.start)

def lockedLookupWithin (env : VfsEnv) : Nat → Nameidata → VfsProg (Int × Nameidata)
  | 0, _ => .crash
  | calls + 1, nd =>
    match pathStarts true nd.path with
    | [] =>
      if nd.wantParent then pure (0, { nd with current := nd.start })
      else do
        lockStart nd
        pure (0, { nd with current := nd.start })
    | starts => do
      lockStart nd
      lockedWalk env (lockedLookupWithin env calls) starts { nd with current := nd.start }

def lockedLookup (env : VfsEnv) (nd : Nameidata) : VfsProg (Int × Nameidata) :=
  lockedLookupWithin env (maxLoop + 2) nd

/-! ## `slotfs_func.c` -/

def startLookup (fd : Int) (path : List (BitVec 8)) (nofollow : Bool) : VfsProg (Except Int Nameidata) :=
  look fun v => some (v.nameidataInit fd path nofollow, v)

def takeRef (o : Nat) : VfsProg Unit := look fun v =>
  (v.objects o).map fun inode => ((), v.setObject o { inode with ref := refInc inode.ref })

def lockedOpenExisting (env : VfsEnv) (nd : Nameidata) (directory : Bool) : VfsProg (Except Int Nat) := do
  let r ← lockedLookup env nd
  if r.1 ≠ 0 then pure (.error r.1)
  else do
    let o ← pointer r.2.current
    let inode ← fetch o
    if directory && !inode.isDir then do
      inodeUnlock o
      pure (.error enotdir)
    else do
      takeRef o
      inodeUnlock o
      pure (.ok o)

/-- `do_slotfs_open` under the lock of the parent. -/
def lockedCreate (env : VfsEnv) (parent : Nat) (name : List (BitVec 8)) (mode : Nat) :
    VfsProg (Except Int Nat) := do
  match ← lookupEntry parent name with
  | some d =>
    match ← lockedIget env d.2 with
    | .error _ => .crash
    | .ok o =>
      inodeUnlock o
      inodeUnlock parent
      pure (.ok o)
  | none =>
    match ← look fun v => v.inodeCreate env parent name mode with
    | .error _ => .crash
    | .ok o =>
      takeRef o
      lockedIcacheInstall o
      inodeUnlock parent
      pure (.ok o)

def lockedOpenCreat (env : VfsEnv) (nd : Nameidata) (mode : Nat) : VfsProg (Except Int Nat) :=
  if nd.path.dropWhile (· = slash) = [] then look fun v => some (.ok v.root, v)
  else do
    let r ← lockedLookup env { nd with wantParent := true, path := nd.path.dropWhile (· = slash) }
    if r.1 ≠ 0 then pure (.error r.1)
    else do
      let parent ← pointer r.2.parent
      lockedCreate env parent r.2.name mode

def lockedDoOpen (env : VfsEnv) (dfd : Int) (path : List (BitVec 8)) (flags : OpenFlags) (mode : Nat) :
    VfsProg (Except Int Nat) := do
  match ← startLookup dfd path flags.nofollow with
  | .error e => pure (.error e)
  | .ok nd => if flags.creat then lockedOpenCreat env nd mode else lockedOpenExisting env nd flags.directory

def lockedOpen (env : VfsEnv) (dfd : Int) (path : List (BitVec 8)) (flags : OpenFlags) (mode : Nat) :
    VfsProg (Except Int Nat) := do
  match ← look fun v => some v.fdAlloc with
  | none => pure (.error emfile)
  | some fd =>
    match ← lockedDoOpen env dfd path flags mode with
    | .error e => pure (.error e)
    | .ok o =>
      look fun v => some (.ok fd, { v with fTable := Function.update v.fTable fd ⟨true, some o⟩ })

/-- The entry for a link, under the locks of the target and of the parent. -/
def Vfs.enterLink (v : Vfs) (env : VfsEnv) (o parent : Nat) (name : List (BitVec 8)) :
    Option (Int × Vfs) := do
  match ← v.inodeLookup parent name with
  | .error _ => some (eexist, v)
  | .ok (some _) => some (eexist, v)
  | .ok none =>
    let inode ← v.objects o
    match ← v.dirAppendEntry env parent ⟨inode.iNo, inode.ts, inode.entryNum⟩ name with
    | (.error e, _, v) => some (e, v)
    | (.ok _, entry, v) => some (0, v.setObject o { inode with entryNum := entry.entryNum })

/-- `slotfs_link` under the lock of the target. -/
def lockedLinkAt (env : VfsEnv) (o : Nat) (link : List (BitVec 8)) : VfsProg Int := do
  match ← startLookup atFdcwd link false with
  | .error e => pure e
  | .ok nd =>
    let r ← lockedLookup env { nd with wantParent := true }
    if r.1 ≠ 0 then pure r.1
    else do
      let parent ← pointer r.2.parent
      let ret ← look fun v => v.enterLink env o parent r.2.name
      inodeUnlock parent
      pure ret

def lockedLink (env : VfsEnv) (target link : List (BitVec 8)) : VfsProg Int := do
  match ← startLookup atFdcwd target false with
  | .error e => pure e
  | .ok nd =>
    let r ← lockedLookup env nd
    if r.1 ≠ 0 then pure r.1
    else do
      let o ← pointer r.2.current
      let inode ← fetch o
      if inode.isDir then do
        inodeUnlock o
        pure eperm
      else do
        note (.linking inode.iNo)
        let ret ← lockedLinkAt env o link
        inodeUnlock o
        pure ret

/-- The entry of a file and its link count, under the locks of the file and of the parent. -/
def Vfs.removeLink (v : Vfs) (env : VfsEnv) (o parent d : Nat) : Option (Unit × Vfs) := do
  let v ← v.dirRemoveEntry env parent d
  let inode ← v.objects o
  let v := v.setObject o { inode with iLink := sub64 inode.iLink 1 }
  some ((), if inode.ref = 0 ∧ sub64 inode.iLink 1 = 0 then v.inodeRelease o else v)

/-- `slotfs_unlink` under the lock of the parent. Of a directory the entry is freed and stays
where it is, which does not show here. -/
def lockedUnlinkAt (env : VfsEnv) (parent : Nat) (name : List (BitVec 8)) : VfsProg Int := do
  match ← lookupEntry parent name with
  | none =>
    inodeUnlock parent
    pure enoent
  | some d =>
    match ← lockedIget env d.2 with
    | .error _ => .crash
    | .ok o =>
      let inode ← fetch o
      if inode.isDir then do
        inodeUnlock o
        note (.freeing parent d.1)
        look fun v => some ((), { v with freed := (parent, d.1) :: v.freed })
        inodeUnlock parent
        pure eisdir
      else do
        look fun v => v.removeLink env o parent d.1
        inodeUnlock o
        inodeUnlock parent
        pure 0

def lockedUnlink (env : VfsEnv) (path : List (BitVec 8)) : VfsProg Int := do
  match ← startLookup atFdcwd path false with
  | .error e => pure e
  | .ok nd =>
    let r ← lockedLookup env { nd with wantParent := true }
    if r.1 ≠ 0 then pure r.1
    else do
      let parent ← pointer r.2.parent
      lockedUnlinkAt env parent r.2.name

/-- The entries of a rename, under the locks of both directories. -/
def Vfs.moveEntry (v : Vfs) (env : VfsEnv) (oldDir newDir : Nat) (oldName newName : List (BitVec 8)) :
    Option (Int × Vfs) := do
  let dir ← v.objects oldDir
  match ← v.inodeLookup oldDir oldName with
  | .ok none => some (enoent, v)
  | oldDentry =>
    match ← v.inodeLookup newDir newName with
    | .error _ => some (eexist, v)
    | .ok (some _) => some (eexist, v)
    | .ok none =>
      match oldDentry with
      | .ok (some d) =>
        match ← v.dirAppendEntry env newDir ⟨(dir.dents d).ino, env.stackTs, 0⟩ newName with
        | (.error _, _, v) => some (0, v)
        | (.ok _, _, v) => (v.dirRemoveEntry env oldDir d).map fun v => (0, v)
      | _ => none

/-- `slotfs_rename` with both directories, of which the new one is locked. -/
def lockedRenameIn (env : VfsEnv) (oldDir newDir : Nat) (old new : Nameidata) : VfsProg Int :=
  if newDir = oldDir then
    if old.last = new.last then do
      inodeUnlock newDir
      pure einval
    else do
      let ret ← look fun v => v.moveEntry env oldDir newDir old.name new.name
      inodeUnlock newDir
      pure ret
  else do
    let dir ← fetch newDir
    let dir' ← fetch oldDir
    note (.crossing dir.iNo dir'.iNo)
    inodeLock oldDir
    let ret ← look fun v => v.moveEntry env oldDir newDir old.name new.name
    inodeUnlock newDir
    inodeUnlock oldDir
    pure ret

/-- `slotfs_rename` from the lookup of the new name on. -/
def lockedRenameTo (env : VfsEnv) (oldDir : Nat) (old : Nameidata) (newpath : List (BitVec 8)) :
    VfsProg Int := do
  match ← startLookup atFdcwd newpath false with
  | .error e => pure e
  | .ok nd =>
    let r ← lockedLookup env { nd with wantParent := true }
    if r.1 ≠ 0 then pure r.1
    else do
      let newDir ← pointer r.2.parent
      lockedRenameIn env oldDir newDir old r.2

def lockedRename (env : VfsEnv) (oldpath newpath : List (BitVec 8)) : VfsProg Int := do
  match ← startLookup atFdcwd oldpath false with
  | .error e => pure e
  | .ok nd =>
    let r ← lockedLookup env { nd with wantParent := true }
    if r.1 ≠ 0 then pure r.1
    else do
      let oldDir ← pointer r.2.parent
      inodeUnlock oldDir
      lockedRenameTo env oldDir r.2 newpath

/-! ## Without the locks -/

section
variable {v v' : Vfs} {env : VfsEnv}
  {α : Type} {d : Option (Nat × Nat)} {dir o : Nat} {name : List (BitVec 8)} {nd : Nameidata}
  {r : Int × Nameidata} {a : α} {k : Unit → VfsProg α}

theorem pointer_erase {o : Option Nat} {a : Nat} (run : (pointer o).erase v = some (a, v')) :
    o = some a ∧ v' = v := by
  simp only [pointer, erase_look, map_eq_some_iff] at run
  obtain ⟨_, rfl, eq⟩ := run
  cases eq
  exact ⟨rfl, rfl⟩

theorem fetch_erase {inode : VfsInode} (run : (fetch o).erase v = some (inode, v')) :
    v.objects o = some inode ∧ v' = v := by
  simp only [fetch, erase_look, map_eq_some_iff] at run
  obtain ⟨_, live, eq⟩ := run
  cases eq
  exact ⟨live, rfl⟩

theorem inodeLock_erase {u : Unit} (run : (inodeLock o).erase v = some (u, v')) : v' = v := by
  obtain ⟨inode, w, get, rest⟩ := erase_bind_some run
  cases rest
  exact (fetch_erase get).2

theorem inodeUnlock_erase {u : Unit} (run : (inodeUnlock o).erase v = some (u, v')) : v' = v := by
  obtain ⟨inode, w, get, rest⟩ := erase_bind_some run
  cases rest
  exact (fetch_erase get).2

/-- What a program that takes or gives back one more lock returns. -/
theorem lock_then (run : (inodeLock o >>= k).erase v = some (a, v')) : (k ()).erase v = some (a, v') := by
  obtain ⟨_, w, lock, rest⟩ := erase_bind_some run
  rwa [inodeLock_erase lock] at rest

theorem unlock_then (run : (inodeUnlock o >>= k).erase v = some (a, v')) : (k ()).erase v = some (a, v') := by
  obtain ⟨_, w, unlock, rest⟩ := erase_bind_some run
  rwa [inodeUnlock_erase unlock] at rest

theorem fetch_then {k : VfsInode → VfsProg α} (run : (fetch o >>= k).erase v = some (a, v')) :
    ∃ inode, v.objects o = some inode ∧ (k inode).erase v = some (a, v') := by
  obtain ⟨inode, w, get, rest⟩ := erase_bind_some run
  obtain ⟨live, rfl⟩ := fetch_erase get
  exact ⟨inode, live, rest⟩

theorem pointer_then {o : Option Nat} {k : Nat → VfsProg α} (run : (pointer o >>= k).erase v = some (a, v')) :
    ∃ p, o = some p ∧ (k p).erase v = some (a, v') := by
  obtain ⟨p, w, get, rest⟩ := erase_bind_some run
  obtain ⟨eq, rfl⟩ := pointer_erase get
  exact ⟨p, eq, rest⟩

theorem lockedIget_erase {ino : Nat} {r : Except Int Nat} (run : (lockedIget env ino).erase v = some (r, v')) :
    v.iget env ino = (r, v') := by
  simp only [lockedIget, erase_bind, erase_lock, erase_look, bind_some] at run
  rcases get : v.iget env ino with ⟨e | o, w⟩
  · simp only [get, erase_bind, erase_unlock, bind_some, erase_pure] at run
    cases run
    rfl
  · simp only [get, erase_pure] at run
    cases run
    rfl

/-- A program that does what a lookup without locks does. -/
def Tracks (program : Nameidata → VfsProg (Int × Nameidata))
    (lookup : Vfs → Nameidata → Option (Int × Nameidata × Vfs)) : Prop :=
  ∀ nd v r v', (program nd).erase v = some (r, v') → lookup v nd = some (r.1, r.2, v')

variable {program : Nameidata → VfsProg (Int × Nameidata)}
  {lookup : Vfs → Nameidata → Option (Int × Nameidata × Vfs)}

theorem Tracks.follow (tracks : Tracks program lookup) {text : List (BitVec 8)}
    (run : (lockedFollow program o nd text).erase v = some (r, v')) :
    ((lookup v (nd.into v.root text)).bind fun r =>
      some (r.1, if r.1 = 0 then { nd with current := r.2.1.current } else nd, r.2.2)) =
      some (r.1, r.2, v') := by
  obtain ⟨root, v1, find, rest⟩ := erase_bind_some run
  rw [erase_look] at find
  cases find
  obtain ⟨q, v2, inner, rest⟩ := erase_bind_some (unlock_then rest)
  rw [tracks _ _ _ _ inner, bind_some]
  dsimp only
  split at rest
  · rw [if_pos ‹_›]
    cases rest
    rfl
  · rw [if_neg ‹_›]
    cases lock_then rest
    rfl

theorem Tracks.handleSymlink (tracks : Tracks program lookup)
    (run : (lockedHandleSymlink env program o nd).erase v = some (r, v')) :
    v.handleSymlink env lookup o nd = some (r.1, r.2, v') := by
  unfold lockedHandleSymlink at run
  split at run
  · cases run
    simp [handleSymlink, *]
  split at run
  · cases run
    simp [handleSymlink, *]
  rename_i nofollow shallow
  cases read : env.readlink o with
  | none =>
    rw [read] at run
    cases run
  | some link =>
    cases link with
    | error e =>
      rw [read] at run
      cases run
      simp [handleSymlink, *]
    | ok text =>
      rw [read] at run
      rw [handleSymlink_read (Bool.eq_false_of_not_eq_true nofollow) shallow read]
      exact tracks.follow run

theorem lookupEntry_erase (run : (lookupEntry dir name).erase v = some (d, v')) :
    v.entry dir name = some d ∧ v' = v := by
  simp only [lookupEntry, erase_look, map_eq_some_iff] at run
  obtain ⟨_, entry, eq⟩ := run
  cases eq
  exact ⟨entry, rfl⟩

/-- An entry that is found and loaded. -/
theorem Vfs.pathIget_entry (entry : v.entry dir name = some d) : v.pathIget env (some dir) name =
      some (d.elim (.error enoent, v) fun d => v.iget env d.2) := by
  obtain ⟨inode, live, entry⟩ := bind_eq_some_iff.mp entry
  obtain ⟨found, lookup, entry⟩ := bind_eq_some_iff.mp entry
  simp only [pathIget, bind_eq_bind, bind_some, live, lookup]
  cases found with
  | error e => cases entry
  | ok found =>
    cases entry
    cases found <;> rfl

theorem Vfs.handleSymlink_failed {nd' : Nameidata} {ret : Int}
    (call : v.handleSymlink env lookup o nd = some (ret, nd', v')) (failed : ret ≠ 0) : nd' = nd := by
  unfold handleSymlink at call
  split at call
  · cases call
    rfl
  split at call
  · cases call
    rfl
  split at call
  · cases call
  · cases call
    rfl
  · obtain ⟨r, _, eq⟩ := bind_eq_some_iff.mp call
    cases eq
    rw [if_neg failed]

/-- What `path_lookup` does with an inode that it has loaded. -/
inductive Stepped (env : VfsEnv) (lookup : Vfs → Nameidata → Option (Int × Nameidata × Vfs)) (last : Bool)
    (v : Vfs) (o : Nat) (nd : Nameidata) : Except Int Nameidata → Vfs → Prop
  | failed (inode : VfsInode) (live : v.objects o = some inode) (link : inode.isSymlink) (e : Int) (v' : Vfs)
      (handle : v.handleSymlink env lookup o nd = some (e, nd, v')) (bad : e ≠ 0) :
      Stepped env lookup last v o nd (.error e) v'
  | followed (inode : VfsInode) (live : v.objects o = some inode) (link : inode.isSymlink) (nd' : Nameidata)
      (v' : Vfs) (handle : v.handleSymlink env lookup o nd = some (0, nd', v')) :
      Stepped env lookup last v o nd (.ok nd') v'
  | refused (inode : VfsInode) (live : v.objects o = some inode) (link : ¬ inode.isSymlink)
      (inner : last = false) (other : ¬ inode.isDir) : Stepped env lookup last v o nd (.error enotdir) v
  | entered (inode : VfsInode) (live : v.objects o = some inode) (link : ¬ inode.isSymlink)
      (fits : last = true ∨ inode.isDir) : Stepped env lookup last v o nd (.ok { nd with current := some o }) v

section
variable (tracks : Tracks program lookup)
include tracks

theorem Tracks.step {last : Bool} {dir o : Nat} {nd : Nameidata} {r : Except Int Nameidata}
    (run : (lockedStep env program last dir o nd).erase v = some (r, v')) :
    Stepped env lookup last v o nd r v' := by
  obtain ⟨inode, live, rest⟩ := fetch_then run
  split at rest
  · obtain ⟨q, v1, handle, rest⟩ := erase_bind_some (unlock_then rest)
    have call := tracks.handleSymlink handle
    split at rest
    · rename_i good
      cases rest
      rw [good] at call
      exact .followed inode live ‹_› _ _ call
    rename_i bad
    cases unlock_then rest
    rw [handleSymlink_failed call bad] at call
    exact .failed inode live ‹_› _ _ call bad
  · split at rest
    · cases unlock_then (unlock_then rest)
      rename_i refused
      rw [Bool.and_eq_true, Bool.not_eq_true', Bool.not_eq_true'] at refused
      exact .refused inode live ‹_› refused.1 (by simp [refused.2])
    rename_i fits
    cases unlock_then rest
    refine .entered inode live ‹_› ?_
    cases last
    · exact .inr (by simpa using fits)
    · exact .inl rfl

/-- One component: it is not found or not loaded, or it is gone on with. -/
theorem Tracks.enter {last : Bool} {name : List (BitVec 8)} {nd : Nameidata} {r : Except Int Nameidata}
    (run : (lockedEnter env program last name nd).erase v = some (r, v')) :
    (∃ e, v.pathIget env nd.current name = some (.error e, v') ∧ r = .error e) ∨
    ∃ o w, v.pathIget env nd.current name = some (.ok o, w) ∧ Stepped env lookup last w o nd r v' := by
  obtain ⟨dir, current, rest⟩ := pointer_then run
  obtain ⟨d, v1, get, rest⟩ := erase_bind_some rest
  obtain ⟨entry, rfl⟩ := lookupEntry_erase get
  rw [current, pathIget_entry entry]
  cases d with
  | none =>
    cases unlock_then rest
    exact .inl ⟨enoent, rfl, rfl⟩
  | some d =>
    obtain ⟨i, v2, get, rest⟩ := erase_bind_some rest
    have load := lockedIget_erase get
    cases i with
    | error e =>
      cases unlock_then rest
      exact .inl ⟨e, congrArg some load, rfl⟩
    | ok o => exact .inr ⟨o, v2, congrArg some load, tracks.step rest⟩

theorem Tracks.walk {starts : List (List (BitVec 8))} {nd : Nameidata} {r : Int × Nameidata}
    (run : (lockedWalk env program starts nd).erase v = some (r, v')) :
    pathWalk env lookup starts v nd = some (r.1, r.2, v') := by
  induction starts generalizing v nd with
  | nil =>
    cases run
    rfl
  | cons this rest ih =>
    cases rest with
    | nil =>
      simp only [lockedWalk] at run
      simp only [pathWalk]
      split at run
      · rw [if_pos ‹_›]
        cases run
        rfl
      rw [if_neg ‹_›]
      obtain ⟨q, w, enter, after⟩ := erase_bind_some run
      rcases tracks.enter enter with ⟨e, get, rfl⟩ | ⟨o, w', get, step⟩
      · cases after
        simp only [get, bind_eq_bind, bind_some]
      simp only [get, bind_eq_bind, bind_some]
      cases step with
      | failed inode live link e _ handle bad =>
        cases after
        simp only [live, bind_some, if_pos link, handle]
      | followed inode live link nd' _ handle =>
        cases after
        simp only [live, bind_some, if_pos link, handle]
      | refused inode live link inner other => cases inner
      | entered inode live link fits =>
        cases after
        simp only [live, bind_some, if_neg link]
    | cons next rest =>
      obtain ⟨q, w, enter, after⟩ := erase_bind_some run
      simp only [pathWalk]
      rcases tracks.enter enter with ⟨e, get, rfl⟩ | ⟨o, w', get, step⟩
      · cases after
        simp only [get, bind_eq_bind, bind_some]
      simp only [get, bind_eq_bind, bind_some]
      cases step with
      | failed inode live link e _ handle bad =>
        cases after
        simp only [live, bind_some, if_pos link, handle, if_neg bad]
      | followed inode live link nd' _ handle =>
        simp only [live, bind_some, if_pos link, handle, if_true]
        exact ih after
      | refused inode live link inner other =>
        cases after
        simp only [live, bind_some, if_neg link, if_neg other]
      | entered inode live link fits =>
        have isDir : inode.isDir := fits.resolve_left (by rintro ⟨⟩)
        simp only [live, bind_some, if_neg link, if_pos isDir]
        exact ih after

end

theorem lockStart_then (run : (lockStart nd >>= k).erase v = some (a, v')) :
    (∃ o inode, nd.start = some o ∧ v.objects o = some inode) ∧ (k ()).erase v = some (a, v') := by
  obtain ⟨_, w, lock, rest⟩ := erase_bind_some run
  obtain ⟨o, start, lock⟩ := pointer_then lock
  obtain ⟨inode, live, _⟩ := fetch_then lock
  rw [inodeLock_erase lock] at rest
  exact ⟨⟨o, inode, start, live⟩, rest⟩

theorem lockedLookupWithin_erase (env : VfsEnv) (calls : Nat) :
    Tracks (lockedLookupWithin env calls) (pathLookupWithin env calls) := by
  induction calls with
  | zero =>
    intro nd v r v' run
    cases run
  | succ calls ih =>
    intro nd v r v' run
    simp only [lockedLookupWithin] at run
    simp only [pathLookupWithin]
    split at run
    · split at run
      · cases run
        simp only [*, if_true]
      · obtain ⟨⟨o, inode, start, live⟩, rest⟩ := lockStart_then run
        cases rest
        simp [*]
    obtain ⟨⟨o, inode, start, live⟩, rest⟩ := lockStart_then run
    have walk := ih.walk rest
    simp only [start, bind_eq_bind, bind_some, live] at walk ⊢
    exact walk

/-- Alone, the program is `path_lookup`. -/
theorem lockedLookup_erase (run : (lockedLookup env nd).erase v = some (r, v')) :
    v.pathLookup env nd = some (r.1, r.2, v') :=
  lockedLookupWithin_erase env (maxLoop + 2) nd v r v' run

theorem Vfs.entry_lookup (entry : v.entry dir name = some d) : ∃ inode, v.objects dir = some inode ∧
      v.inodeLookup dir name = some (.ok (d.map Prod.fst)) ∧ ∀ e ∈ d, e.2 = (inode.dents e.1).ino := by
  obtain ⟨inode, live, entry⟩ := bind_eq_some_iff.mp entry
  obtain ⟨found, lookup, entry⟩ := bind_eq_some_iff.mp entry
  refine ⟨inode, live, ?_⟩
  cases found with
  | error e => cases entry
  | ok found =>
    cases entry
    cases found <;> simp [lookup]

end

end SlotFs
