import SlotFs.LookupLocks

/-!
# Locks that are taken and given back

Each call is executed alone, with no lock of its own at the start. It is balanced when it asks
for no lock that it has, gives back none that it does not have, and returns with none.
-/

namespace SlotFs
open CWord Locks Function List Option Prog Vfs

variable {buf : Mem} {cpu ino len mode newDir offset oldDir parent : Nat} {d : DataState} {flags : OpenFlags}
  {how : Arrival} {locked unlocked : Nat → Vfs → Prop} {name newName oldName : List (BitVec 8)}
  {names : List (List (BitVec 8))} {nofollow : Bool} {r : Except Int Nat} {written : Option (Except Int Unit)}

/-! ## The calls that are not on names and descriptors -/

/-- The locks of `inode_write` on a new link, to which the journaled write does not apply.
`written` is what becomes of the blocks and the log. -/
def lockedWriteLink (cpu : Nat) (written : Option (Except Int Unit)) (o : Nat) : VfsProg Bool := do
  lock (.ebuf (cpu % ebufNum))
  inodeLock o
  match written with
  | none => .crash
  | some (.error _) =>
    inodeUnlock o
    inodeUnlock o
    unlock (.ebuf (cpu % ebufNum))
    pure false
  | some (.ok _) =>
    inodeUnlock o
    unlock (.ebuf (cpu % ebufNum))
    pure true

/-- `slot_inode_free` and `inode_free`. The entry stays in the directory. -/
def Vfs.dropInode (v : Vfs) (o : Nat) : Option (Unit × Vfs) := do
  let inode ← v.objects o
  some ((), { v with inodes := doSlotFree v.inodes inode.iNo, objects := update v.objects o none })

/-- `slotfs_symlink` from the new inode on. The inode is given back although it is not locked. -/
def lockedSymlinkTo (cpu : Nat) (written : Option (Except Int Unit)) (parent o : Nat) : VfsProg Int := do
  if ← lockedWriteLink cpu written o then do
    lockedIcacheInstall o
    inodeUnlock o
    inodeUnlock parent
    pure 0
  else do
    inodeUnlock o
    look fun v => v.dropInode o
    inodeUnlock parent
    pure eio

/-- `slotfs_symlink` in the parent. When the name exists the parent stays locked. -/
def lockedSymlinkIn (env : VfsEnv) (cpu : Nat) (written : Option (Except Int Unit)) (parent : Nat)
    (name : List (BitVec 8)) : VfsProg Int := do
  match ← look fun v => (v.inodeLookup (some parent) name).map fun d => (d, v) with
  | .error _ => pure eexist
  | .ok (some _) => pure eexist
  | .ok none =>
    match ← look fun v => v.inodeCreate env parent name sIflnk with
    | .error e =>
      inodeUnlock parent
      pure e
    | .ok o => lockedSymlinkTo cpu written parent o

def lockedSymlink (env : VfsEnv) (cpu : Nat) (written : Option (Except Int Unit)) (link : List (BitVec 8)) :
    VfsProg Int := do
  match ← startLookup atFdcwd link false with
  | .error e => pure e
  | .ok nd =>
    let r ← lockedLookup env { nd with wantParent := true }
    if r.1 ≠ 0 then pure r.1
    else do
      let parent ← pointer r.2.parent
      lockedSymlinkIn env cpu written parent r.2.name

/-- Without a path `slotfs_stat` reads an `inode` that is not initialised: the one that it finds
is declared in an inner block. -/
def lockedStat (env : VfsEnv) (fd : Int) (path : Option (List (BitVec 8))) (nofollow : Bool) : VfsProg Int :=
  match path with
  | some path => do
    match ← startLookup fd path nofollow with
    | .error e => pure e
    | .ok nd =>
      let r ← lockedLookup env nd
      if r.1 ≠ 0 then pure r.1
      else do
        let o ← pointer r.2.current
        inodeUnlock o
        pure 0
  | none => do
    match ← look fun v => some (v.fileTableGet fd, v) with
    | .error e => pure e
    | .ok _ => .crash

/-- The entries of a rename that is made again. -/
def Vfs.replayRename (v : Vfs) (env : VfsEnv) (oldParent newParent : Nat) (oldName newName : List (BitVec 8)) :
    Option (Int × Vfs) := do
  let old ← v.objects oldParent
  let new ← v.objects newParent
  let oldDirent := direntLookup old.toDir (bkdrHash oldName)
  let remove (v : Vfs) : Option (Int × Vfs) :=
    match oldDirent with
    | none => some (0, v)
    | some d => (v.dirRemoveEntry env oldParent d).map fun v => (0, v)
  match direntLookup new.toDir (bkdrHash newName) with
  | some _ => remove v
  | none =>
    let d ← oldDirent
    match ← v.dirAppendEntry env newParent ⟨(old.dents d).ino, env.stackTs, 0⟩ newName with
    | (.error e, _, v) => some (e, v)
    | (.ok _, _, v) => remove v

/-- `journal_replay_rename` gives none of its locks back. -/
def lockedReplayRename (env : VfsEnv) (oldIno newIno : Nat) (oldName newName : List (BitVec 8)) :
    VfsProg Int := do
  let oldParent ← lockedIget env oldIno
  let newParent ← lockedIget env newIno
  match oldParent, newParent with
  | .ok oldParent, .ok newParent => look fun v => v.replayRename env oldParent newParent oldName newName
  | _, _ => .crash

/-! ## States -/

/-- What `fs_init` and the calls leave: directories are cached for their numbers, and these are
in use. -/
structure Vfs.Proper (v : Vfs) (env : VfsEnv) : Prop where
  coherent : v.Coherent
  sane : env.Sane
  root : ∃ inode, v.objects v.root = some inode ∧ inode.isDir
  cwd : ∃ inode, v.objects v.cwd = some inode ∧ inode.isDir
  dirs : ∀ o inode, v.objects o = some inode → inode.isDir → v.inodeTable inode.iNo = some o
  maps : v.inodes.Ok
  small : v.inodes.Within (2 ^ 31)
  used : ∀ o inode, v.objects o = some inode → inode.isDir → InUse v.inodes inode.iNo
  rebuilt : ∀ ino inode, env.rebuild ino = .ok inode → inode.isDir → InUse v.inodes ino

section
variable {v v' w : Vfs} {env : VfsEnv} {nd : Nameidata} {dir o : Nat} {di inode : VfsInode}

theorem Vfs.Proper.loaded (h : v.Proper env) (missing : v.inodeTable ino = none)
    (rebuild : env.rebuild ino = .ok inode) : (v.loaded ino inode).Proper env := by
  have grows := h.coherent.grows_loaded missing inode
  obtain ⟨top, root, rootDir⟩ := h.root
  obtain ⟨here, cwd, cwdDir⟩ := h.cwd
  refine ⟨h.coherent.loaded (h.sane.apart ino inode rebuild), h.sane, ⟨top, grows.objects _ _ root, rootDir⟩,
    ⟨here, grows.objects _ _ cwd, cwdDir⟩, ?_, h.maps, h.small, ?_, h.rebuilt⟩
  · intro o inode' live isDir
    rcases object_cases rfl live with ⟨rfl, rfl⟩ | ⟨_, live⟩
    · exact loaded_table_self
    · exact loaded_keeps missing (h.dirs o inode' live isDir)
  intro o inode' live isDir
  rcases object_cases rfl live with ⟨rfl, rfl⟩ | ⟨_, live⟩
  · exact h.rebuilt ino inode rebuild isDir
  · exact h.used o inode' live isDir

theorem Vfs.Proper.fetches (h : v.Proper env) (fetches : v.Fetches env w) : w.Proper env := by
  induction fetches with
  | refl => exact h
  | tail _ last ih =>
    obtain ⟨ino, r, get⟩ := last
    rcases iget_cases get with ⟨o, _, _, rfl⟩ | ⟨e, _, _, rfl⟩ | ⟨inode, missing, rebuild, _, rfl⟩
    · exact ih
    · exact ⟨ih.coherent.asksOne, ih.sane, ih.root, ih.cwd, ih.dirs, ih.maps, ih.small, ih.used, ih.rebuilt⟩
    · exact ih.loaded missing rebuild

theorem Vfs.Reads.reaches {text : List (BitVec 8)} (reads : v.Reads env dir name text v') (h : v.Ready env dir) :
    ∃ base, v.Reaches env dir (linkBase v' dir text) base v' := by
  obtain ⟨o, inode, loads, _⟩ := reads
  exact loads.reaches_base h text

theorem Vfs.Arrives.reaches {left p : Nat} (arrives : v.Arrives env left dir names how (some p) w)
    (h : v.Ready env dir) : ∃ inode, v.Reaches env dir p inode w := by
  generalize same : some p = found at arrives
  induction arrives with
  | here =>
    cases same
    obtain ⟨inode, live⟩ := h.dir
    exact ⟨inode, .refl, live, fun cached _ => cached⟩
  | dir descends _ ih =>
    obtain ⟨inode, loads, _⟩ := descends
    obtain ⟨_, later⟩ := ih (loads.ready h).2 same
    exact ⟨_, (loads.reaches h).trans h later⟩
  | past reads _ _ _ ih =>
    obtain ⟨base, start⟩ := reads.reaches h
    obtain ⟨_, later⟩ := ih (reads.ready h) same
    exact ⟨_, start.trans h later⟩
  | bare reads =>
    cases same
    exact reads.reaches h
  | deep => cases same

theorem Vfs.Arrives.reaches_to {left p : Nat} (arrives : v.Arrives env left dir names how (some p) w)
    (h : v.Ready env dir) (live : w.objects p = some inode) : v.Reaches env dir p inode w := by
  obtain ⟨inode', reaches⟩ := arrives.reaches h
  obtain rfl := some.inj (live.symm.trans reaches.live)
  exact reaches

/-! ## Numbers stay -/

/-- Objects stay where they are and keep their numbers. -/
def Vfs.Numbers (v v' : Vfs) : Prop :=
  ∀ o inode, v.objects o = some inode → ∃ inode', v'.objects o = some inode' ∧ inode'.iNo = inode.iNo

theorem Vfs.Numbers.refl (v : Vfs) : v.Numbers v := fun _ inode live => ⟨inode, live, rfl⟩

theorem Vfs.Numbers.trans (h : v.Numbers v') (h' : v'.Numbers w) : v.Numbers w := by
  intro o inode live
  obtain ⟨inode', live', same⟩ := h o inode live
  obtain ⟨inode'', live'', same'⟩ := h' o inode' live'
  exact ⟨inode'', live'', same'.trans same⟩

theorem Vfs.Numbers.set (live : v.objects o = some inode) {inode' : VfsInode}
    (objects : v'.objects = update v.objects o (some inode')) (same : inode'.iNo = inode.iNo) : v.Numbers v' := by
  intro p i livep
  by_cases at_ : p = o
  · subst at_
    cases live.symm.trans livep
    exact ⟨inode', by rw [objects, update_self], same⟩
  · exact ⟨i, by rw [objects, update_of_ne at_, livep], rfl⟩

theorem Vfs.Numbers.install (h : v.Numbers v') (ino o : Nat) : v.Numbers (v'.icacheInstall ino o) := h

theorem dirAppendEntry_iNo (rb : Rbtree) (cpu : Maps → Nat) (s : DirStorage) (dir : Dir) (entry : EntryInode)
    (name : List (BitVec 8)) : (dirAppendEntry rb cpu s dir entry name).2.1.iNo = dir.iNo := by
  unfold dirAppendEntry
  split
  · rfl
  · dsimp only
    split <;> rfl

theorem Vfs.dirAppendEntry_numbers {entry entry' : EntryInode}
    (call : v.dirAppendEntry env parent entry name = some (r, entry', v')) : v.Numbers v' := by
  obtain ⟨inode, live, call⟩ := bind_eq_some_iff.mp call
  cases call
  exact .set live rfl (dirAppendEntry_iNo ..)

theorem dirRemoveEntry_iNo {rb : Rbtree} {s s' : DirStorage} {dir dir' : Dir} {d : Nat}
    (call : dirRemoveEntry rb s dir d = some (dir', s')) : dir'.iNo = dir.iNo := by
  obtain ⟨out, _, eq⟩ := map_eq_some_iff.mp call
  simp only [Prod.mk.injEq] at eq
  rw [← eq.1]

theorem Vfs.dirRemoveEntry_numbers {d : Nat} (call : v.dirRemoveEntry env parent d = some v') : v.Numbers v' := by
  obtain ⟨inode, live, call⟩ := bind_eq_some_iff.mp call
  obtain ⟨⟨dir, dirs⟩, remove, eq⟩ := bind_eq_some_iff.mp call
  cases eq
  exact .set live rfl (dirRemoveEntry_iNo remove)

theorem Vfs.enterLink_numbers {ret : Int} (call : v.enterLink env o parent name = some (ret, v')) :
    v.Numbers v' := by
  obtain ⟨found, _, call⟩ := bind_eq_some_iff.mp call
  rcases found with _ | _ | d
  · cases call
    exact .refl v
  · obtain ⟨inode, live, call⟩ := bind_eq_some_iff.mp call
    obtain ⟨⟨r, entry, w⟩, append, call⟩ := bind_eq_some_iff.mp call
    have appended := dirAppendEntry_numbers append
    cases r with
    | error e =>
      cases call
      exact appended
    | ok d =>
      cases call
      obtain ⟨inode', live', same⟩ := appended o inode live
      exact appended.trans (.set live' rfl same.symm)
  · cases call
    exact .refl v

theorem Vfs.removeLink_numbers {d : Nat} {u : Unit} (call : v.removeLink env o parent d = some (u, v')) :
    v.Numbers v' := by
  obtain ⟨w, remove, call⟩ := bind_eq_some_iff.mp call
  obtain ⟨inode, live, call⟩ := bind_eq_some_iff.mp call
  cases call
  refine (dirRemoveEntry_numbers remove).trans ?_
  split
  · exact .set live rfl rfl
  · exact .set live rfl rfl

/-- No entry moves, or the new one is appended, and the old one is removed if that succeeds. -/
theorem Vfs.moveEntry_cases {ret : Int}
    (call : v.moveEntry env oldDir newDir oldName newName = some (ret, v')) : v' = v ∨ ∃ dir d r entry w,
      v.objects oldDir = some dir ∧ v.inodeLookup oldDir oldName = some (.ok (some d)) ∧
      v.inodeLookup newDir newName = some (.ok none) ∧
      v.dirAppendEntry env newDir ⟨(dir.dents d).ino, env.stackTs, 0⟩ newName = some (r, entry, w) ∧
      (v' = w ∨ w.dirRemoveEntry env oldDir d = some v') := by
  obtain ⟨dir, live, call⟩ := bind_eq_some_iff.mp call
  obtain ⟨old, lookup, call⟩ := bind_eq_some_iff.mp call
  rcases old with _ | _ | d
  · obtain ⟨new, _, call⟩ := bind_eq_some_iff.mp call
    rcases new with _ | _ | d <;> cases call <;> exact .inl rfl
  · cases call
    exact .inl rfl
  obtain ⟨new, absent, call⟩ := bind_eq_some_iff.mp call
  rcases new with _ | _ | d'
  · cases call
    exact .inl rfl
  · obtain ⟨⟨r, entry, w⟩, append, call⟩ := bind_eq_some_iff.mp call
    refine .inr ⟨dir, d, r, entry, w, live, lookup, absent, append, ?_⟩
    cases r with
    | error e =>
      cases call
      exact .inl rfl
    | ok d'' =>
      obtain ⟨w', remove, eq⟩ := map_eq_some_iff.mp call
      cases eq
      exact .inr remove
  · cases call
    exact .inl rfl

theorem Vfs.moveEntry_numbers {ret : Int}
    (call : v.moveEntry env oldDir newDir oldName newName = some (ret, v')) : v.Numbers v' := by
  obtain rfl | ⟨_, _, _, _, w, _, _, _, append, rfl | remove⟩ := moveEntry_cases call
  · exact .refl v'
  · exact dirAppendEntry_numbers append
  · exact (dirAppendEntry_numbers append).trans (dirRemoveEntry_numbers remove)

theorem Vfs.Numbers.fresh {x : Option VfsInode} (none : v.objects o = none)
    (objects : v'.objects = update v.objects o x) : v.Numbers v' := by
  intro p i live
  have other : p ≠ o := by
    rintro rfl
    cases none.symm.trans live
  exact ⟨i, by rw [objects, update_of_ne other, live], rfl⟩

theorem doSlotAlloc_unused {b b' : Maps} (ok : b.Ok) (small : b.Within (2 ^ 31))
    (call : doSlotAlloc b cpu = ((ino : Int), b')) : ¬ InUse b ino := by
  obtain ⟨m, eq, _, free, _⟩ := doSlotAlloc_took ok small call (Int.natCast_nonneg ino)
  obtain rfl := Int.ofNat.inj eq
  rintro ⟨n, eq', _, used⟩
  obtain rfl := Int.ofNat.inj eq'
  cases free.symm.trans used

/-- A new inode has a number that was not in use. -/
theorem Vfs.inodeCreate_numbers (h : v.Coherent) (maps : v.inodes.Ok) (small : v.inodes.Within (2 ^ 31))
    (call : v.inodeCreate env parent name mode = some (r, v')) :
    v.Numbers v' ∧ ∀ o, r = .ok o → ∃ inode, v'.objects o = some inode ∧ ¬ InUse v.inodes inode.iNo := by
  unfold inodeCreate at call
  generalize alloc : doSlotAlloc v.inodes (env.cpu v.inodes) = got at call
  obtain ⟨n, inodes⟩ := got
  dsimp only at call
  split at call
  · cases call
  rename_i found
  obtain ⟨ino, rfl⟩ := Int.eq_ofNat_of_zero_le (not_lt.mp found)
  have fresh := h.fresh v.arena.asked (Nat.le_refl _)
  cases granted : v.arena.grants v.arena.asked with
  | false =>
    simp only [Arena.alloc, granted] at call
    cases call
    exact ⟨.refl v, fun o eq => by cases eq⟩
  | true =>
    simp only [Arena.alloc, granted, if_true] at call
    obtain ⟨ghost, dirs, eq⟩ := initGhostSlot_eq
      { v with inodes, arena := { v.arena with asked := v.arena.asked + 1 } } env mode
    rw [eq] at call
    split at call
    · cases call
      exact ⟨.refl v, fun o eq => by cases eq⟩
    obtain ⟨⟨r, entry, w⟩, append, call⟩ := bind_eq_some_iff.mp call
    have appended := dirAppendEntry_numbers append
    have born : v.Numbers w := .trans (.fresh fresh rfl) appended
    obtain ⟨new, live, same⟩ := appended v.arena.asked _ (update_self ..)
    cases r with
    | error e =>
      cases call
      refine ⟨fun p i livep => ?_, fun o eq => by cases eq⟩
      have other : p ≠ v.arena.asked := by
        rintro rfl
        cases fresh.symm.trans livep
      obtain ⟨i', live', same'⟩ := born p i livep
      exact ⟨i', (update_of_ne other ..).trans live', same'⟩
    | ok d =>
      cases call
      refine ⟨born.trans (.set live rfl same.symm), ?_⟩
      rintro _ ⟨⟩
      exact ⟨_, update_self .., doSlotAlloc_unused maps small alloc⟩

/-! ## In a directory -/

section
variable {α : Type} {held : List DataLock} {clean locked : Bool} {parent : Nat} {name : List (BitVec 8)} {P : Prop}

/-- The lock that was taken last is given back. -/
theorem unlock_top (live : v.objects o = some inode) (numbers : v.Numbers v') (k : Unit → VfsProg α) :
    (inodeUnlock o >>= k).exec v' (.inode inode.iNo :: held) clean = (k ()).exec v' held clean := by
  obtain ⟨inode', live', same⟩ := numbers o inode live
  rw [unlock_exec live', same]
  simp

/-- The lock of the directory is given back, if it is there. -/
theorem unlock_dir (live : v.objects dir = some di) (numbers : v.Numbers v') (free : .inode di.iNo ∉ held)
    (k : Unit → VfsProg α) : (inodeUnlock dir >>= k).exec v' (holding locked di.iNo held) clean =
      (k ()).exec v' held (clean && locked) := by
  obtain ⟨di', live', same⟩ := numbers dir di live
  rw [unlock_exec live', same, holding_erase free, mem_holding free]

theorem lookupEntry_balanced {k : Option (Nat × Nat) → VfsProg α}
    (next : ∀ d, v.entry dir name = some d → ((k d).exec v held clean).BalancedIff P) :
    ((lookupEntry dir name >>= k).exec v held clean).BalancedIff P := by
  cases entry : v.entry dir name with
  | none => simp [lookupEntry_none entry]
  | some d =>
    rw [lookupEntry_exec entry]
    exact next d entry

theorem fetch_balanced {k : VfsInode → VfsProg α}
    (next : ∀ inode, v.objects o = some inode → ((k inode).exec v held clean).BalancedIff P) :
    ((fetch o >>= k).exec v held clean).BalancedIff P := by
  cases live : v.objects o with
  | none => simp [fetch_none live]
  | some inode =>
    rw [fetch_exec live]
    exact next inode live

/-- The inode of an entry is loaded and locked, or the program that takes an error for an inode
crashes. -/
theorem lockedIget_balanced (h : v.Coherent) (sane : env.Sane) (live : v.objects dir = some di)
    {d : Nat × Nat} (entry : v.entry dir name = some (some d)) {k : Except Int Nat → VfsProg α}
    (error : ∀ e, k (.error e) = .crash)
    (next : ∀ o v', v.Grows v' → (∀ inode, v'.objects o = some inode → inode.iNo = d.2) →
      ((k (.ok o)).exec v' (.inode d.2 :: holding locked di.iNo []) clean).BalancedIff P) :
    ((lockedIget env d.2 >>= k).exec v (holding locked di.iNo []) clean).BalancedIff P := by
  have open_ : .inode d.2 ∉ holding locked di.iNo [] := not_mem_holding not_mem_nil (h.entry_apart live entry)
  rcases get : v.iget env d.2 with ⟨e | o, v'⟩
  · rw [lockedIget_error open_ get, error]
    exact Outcome.balancedIff_crashed
  · obtain ⟨coherent, grows, cached, _⟩ := h.iget sane get
    rw [lockedIget_ok open_ get]
    exact next o v' grows fun inode => coherent.keyed _ _ _ (cached o rfl)

theorem Vfs.Grows.numbers (grows : v.Grows v') : v.Numbers v' :=
  fun o inode live => ⟨inode, grows.objects o inode live, rfl⟩

theorem unlinkAt_balanced (h : v.Coherent) (sane : env.Sane) (live : v.objects dir = some di) :
    ((lockedUnlinkAt env dir name).exec v (holding locked di.iNo []) true).BalancedIff locked := by
  unfold lockedUnlinkAt
  refine lookupEntry_balanced fun d entry => ?_
  cases d with
  | none =>
    rw [unlock_dir live (.refl v) not_mem_nil]
    simp
  | some d =>
    refine lockedIget_balanced h sane live entry (fun _ => rfl) fun o v' grows number => ?_
    refine fetch_balanced fun inode found => ?_
    rw [← number inode found]
    split
    · rw [unlock_top found (.refl v'), exec_bind, exec_note, Outcome.bind]
      refine look_balanced fun u v'' call => ?_
      have numbers : v.Numbers v'' := by
        cases call
        exact grows.numbers
      rw [unlock_dir live numbers not_mem_nil]
      simp
    refine look_balanced fun u v'' call => ?_
    have numbers := removeLink_numbers call
    rw [unlock_top found numbers, unlock_dir live (grows.numbers.trans numbers) not_mem_nil]
    simp

theorem unlock_none (dead : v.objects o = none) (k : Unit → VfsProg α) :
    (inodeUnlock o >>= k).exec v held clean = .crashed := by
  simp [inodeUnlock, fetch, dead, Outcome.bind]

theorem takeRef_exec (live : v.objects o = some inode) (k : Unit → VfsProg α) :
    (takeRef o >>= k).exec v held clean =
      (k ()).exec (v.setObject o { inode with ref := refInc inode.ref }) held clean := by
  simp [takeRef, live, Outcome.bind]

theorem lockedIcacheInstall_exec (live : v.objects o = some inode) (free : .inode inode.iNo ∉ held)
    (k : Unit → VfsProg α) : (lockedIcacheInstall o >>= k).exec v held clean =
      (k ()).exec (v.icacheInstall inode.iNo o) held clean := by
  simp [lockedIcacheInstall, fetch, live, free, Outcome.bind]

theorem Vfs.entry_isDir {d : Option (Nat × Nat)} (entry : v.entry dir name = some d)
    (live : v.objects dir = some di) : di.isDir := by
  obtain ⟨inode, _, lookup, _⟩ := entry_lookup entry
  obtain ⟨_, live', isDir, _⟩ := inodeLookup_ok lookup
  cases live.symm.trans live'
  exact isDir

theorem create_balanced (h : v.Proper env) (live : v.objects dir = some di) :
    ((lockedCreate env dir name mode).exec v (holding locked di.iNo []) true).BalancedIff locked := by
  unfold lockedCreate
  refine lookupEntry_balanced fun d entry => ?_
  cases d with
  | none =>
    refine look_balanced fun r v' call => ?_
    obtain ⟨numbers, new⟩ := inodeCreate_numbers h.coherent h.maps h.small call
    cases r with
    | error e => exact Outcome.balancedIff_crashed
    | ok o =>
      obtain ⟨inode, found, unused⟩ := new o rfl
      have other : inode.iNo ≠ di.iNo := by
        intro same
        rw [same] at unused
        exact unused (h.used dir di live (entry_isDir entry live))
      have counted : v'.Numbers (v'.setObject o { inode with ref := refInc inode.ref }) := .set found rfl rfl
      have own : (v'.setObject o { inode with ref := refInc inode.ref }).objects o = some _ :=
        update_self ..
      have free : .inode inode.iNo ∉ holding locked di.iNo [] := not_mem_holding not_mem_nil other
      rw [takeRef_exec found, lockedIcacheInstall_exec own free,
        unlock_dir live ((numbers.trans counted).install _ _) not_mem_nil]
      simp
  | some d =>
    refine lockedIget_balanced h.coherent h.sane live entry (fun _ => rfl) fun o v' grows number => ?_
    cases found : v'.objects o with
    | none => simp [unlock_none found]
    | some inode =>
      rw [← number inode found, unlock_top found (.refl v'), unlock_dir live grows.numbers not_mem_nil]
      simp

/-- The new name of a link is entered in a directory, and the target is given back. -/
theorem enterLink_balanced (live : v.objects dir = some di) {target : Nat} {ti : VfsInode}
    (found : v.objects target = some ti) (other : locked = true → di.iNo ≠ ti.iNo) :
    ((((look fun v => v.enterLink env target dir name) >>= fun ret => inodeUnlock dir >>= fun _ => pure ret) >>=
        fun ret => inodeUnlock target >>= fun _ => pure ret : VfsProg Int).exec v
          (holding locked di.iNo [.inode ti.iNo]) true).BalancedIff locked := by
  rw [exec_assoc]
  refine look_balanced fun ret v' call => ?_
  have numbers := enterLink_numbers call
  rw [exec_assoc]
  by_cases same : di.iNo = ti.iNo
  · cases locked with
    | true => exact absurd same (other rfl)
    | false =>
      obtain ⟨di', live', number⟩ := numbers dir di live
      obtain ⟨ti', found', number'⟩ := numbers target ti found
      rw [unlock_exec live', exec_bind, exec_pure, Outcome.bind, unlock_exec found', number, number',
        same]
      simp [holding]
  · rw [unlock_dir live numbers (by simpa using same), exec_bind, exec_pure, Outcome.bind,
      unlock_top found numbers]
    simp

/-- The entries of a rename are moved, and the directories are given back. -/
theorem renameIn_balanced {new old : VfsInode} (live : v.objects newDir = some new)
    (live' : v.objects oldDir = some old) (apart : new.iNo = old.iNo → newDir = oldDir) {nd' : Nameidata} :
    ((lockedRenameIn env oldDir newDir nd nd').exec v (holding locked new.iNo []) true).BalancedIff locked := by
  unfold lockedRenameIn
  split
  · split
    · rw [unlock_dir live (.refl v) not_mem_nil]
      simp
    refine look_balanced fun ret v' call => ?_
    rw [unlock_dir live (moveEntry_numbers call) not_mem_nil]
    simp
  rename_i differ
  have other : old.iNo ≠ new.iNo := fun same => differ (apart same.symm)
  have free : .inode old.iNo ∉ holding locked new.iNo [] := not_mem_holding not_mem_nil other
  rw [fetch_exec live, fetch_exec live', exec_bind, exec_note, Outcome.bind, lock_exec live' free]
  refine look_balanced fun ret v' call => ?_
  have numbers := moveEntry_numbers call
  obtain ⟨new', found, same⟩ := numbers newDir new live
  rw [unlock_exec found, same, holding_cons_erase not_mem_nil other,
    mem_cons_holding not_mem_nil other, unlock_top live' numbers]
  simp

end

/-! ## After a lookup -/

/-- A lookup of a parent does not trip, and what it comes to is as asked: a directory that is
locked, or one that is not. -/
def Vfs.Finds (v : Vfs) (env : VfsEnv) (busy : List DataLock) (nd : Nameidata)
    (locked unlocked : Nat → Vfs → Prop) : Prop :=
  ∀ dir, nd.start = some dir →
    ¬ v.Trips env busy nd.left dir (components nd.path).dropLast ∧
    ∀ p w, (v.Arrives env nd.left dir (components nd.path).dropLast .dir (some p) w → locked p w) ∧
      (v.Arrives env nd.left dir (components nd.path).dropLast .bare (some p) w → unlocked p w)

/-- The parent is locked. -/
def Vfs.Secures (v : Vfs) (env : VfsEnv) (busy : List DataLock) (nd : Nameidata) : Prop :=
  v.Finds env busy nd (fun _ _ => True) fun _ _ => False

section
variable {α : Type} {k : Int × Nameidata → VfsProg α} {busy held : List DataLock} {clean : Bool}

theorem lockedLookup_dead (dead : ∀ dir di, nd.start = some dir → v.objects dir ≠ some di)
    (parent : nd.wantParent = true → nd.parent = none ∧
      ∀ nd' w held, nd'.parent = none → (k (0, nd')).exec w held clean = .crashed) :
    (lockedLookup env nd >>= k).exec v held clean = .crashed := by
  rw [lockedLookup, lockedLookupWithin]
  split
  · by_cases want : nd.wantParent = true
    · obtain ⟨none, lost⟩ := parent want
      rw [if_pos want]
      exact lost _ v held none
    · rw [if_neg want, exec_bind, lockStart_dead dead]
      rfl
  · rw [exec_bind, lockStart_dead dead]
    rfl

/-- A call that looks up a parent first. -/
theorem Vfs.Finds.balanced (h : v.Ready env dir) (clear : v.Clear busy) (live : v.objects dir = some di)
    (free : .inode di.iNo ∉ busy) (parent : nd.wantParent = true) (unset : nd.parent = none)
    (start : nd.start = some dir) (fails : ∀ e nd' w, e ≠ 0 → v.Grows w → ((k (e, nd')).exec w busy true).Balanced)
    (lost : ∀ nd' w held, nd'.parent = none → (k (0, nd')).exec w held true = .crashed)
    (near : ∀ nd' w p inode, v.Reaches env dir p inode w → nd'.parent = some p →
      nd'.name = lastComponent nd.path → .inode inode.iNo ∉ busy →
      ((k (0, nd')).exec w (.inode inode.iNo :: busy) true).BalancedIff (locked p w))
    (bare : ∀ nd' w p inode, v.Reaches env dir p inode w → nd'.parent = some p →
      nd'.name = lastComponent nd.path → ((k (0, nd')).exec w busy true).BalancedIff (unlocked p w)) :
    ((lockedLookup env nd >>= k).exec v busy true).BalancedIff (v.Finds env busy nd locked unlocked) := by
  obtain ⟨full, empty⟩ := ParentEnds.all env busy (maxLoop + 2)
  have here : v.Finds env busy nd locked unlocked ↔
      ¬ v.Trips env busy nd.left dir (components nd.path).dropLast ∧
      ∀ p w, (v.Arrives env nd.left dir (components nd.path).dropLast .dir (some p) w → locked p w) ∧
        (v.Arrives env nd.left dir (components nd.path).dropLast .bare (some p) w → unlocked p w) := by
    constructor
    · exact fun finds => finds dir start
    · rintro finds dir' start'
      cases start.symm.trans start'
      exact finds
  rw [here, exec_bind]
  by_cases none : components nd.path = []
  · rcases empty nd v busy true parent none with eq | eq
    · rw [lockedLookup, eq]
      exact Outcome.balancedIff_crashed
    · rw [lockedLookup, eq, Outcome.bind, lost { nd with current := nd.start } v busy unset]
      exact Outcome.balancedIff_crashed
  have ends := full nd v dir di true parent h clear start live free none
  rw [← lockedLookup] at ends
  generalize (lockedLookup env nd).exec v busy true = out at ends
  intro runs
  cases ends with
  | crashed => exact absurd rfl runs
  | tripped trips unclean =>
    exact (unclean.bind fun r w held => (k r).exec_unclean w held).balancedIff (fun finds => finds.1 trips) runs
  | failed smooth nowhere bad grows =>
    refine ⟨fun _ => ⟨smooth, fun p w => ?_⟩, fun _ => fails _ _ _ bad grows⟩
    exact ⟨fun arrives => absurd arrives (nowhere _ _ _), fun arrives => absurd arrives (nowhere _ _ _)⟩
  | dir smooth arrives gone found named live' free =>
    have iff := near _ _ _ _ (arrives.reaches_to h live') found named free runs
    refine ⟨fun balanced => ⟨smooth, fun p w => ⟨fun arrives' => ?_, fun arrives' => ?_⟩⟩,
      fun finds => iff.mpr ((finds.2 _ _).1 arrives)⟩
    · obtain ⟨_, same, rfl⟩ := arrives.unique arrives'
      cases same
      exact iff.mp balanced
    · cases (arrives.unique arrives').1
  | bare smooth arrives gone found named =>
    obtain ⟨inode, reaches⟩ := arrives.reaches h
    have iff := bare _ _ _ _ reaches found named runs
    refine ⟨fun balanced => ⟨smooth, fun p w => ⟨fun arrives' => ?_, fun arrives' => ?_⟩⟩,
      fun finds => iff.mpr ((finds.2 _ _).2 arrives)⟩
    · cases (arrives.unique arrives').1
    · obtain ⟨_, same, rfl⟩ := arrives.unique arrives'
      cases same
      exact iff.mp balanced
  | deep smooth arrives gone found => exact absurd (lost _ _ _ found) runs

/-- A call that looks up an inode first. -/
theorem plainLookup_balanced {found : Nat → Vfs → Prop} (h : v.Ready env dir) (parent : nd.wantParent = false)
    (start : nd.start = some dir) (fails : ∀ e nd' w, e ≠ 0 → ((k (e, nd')).exec w [] true).Balanced)
    (finds : ∀ nd' w o inode, v.Reaches env dir o inode w → nd'.current = some o →
      ((k (0, nd')).exec w [.inode inode.iNo] true).BalancedIff (found o w)) :
    ((lockedLookup env nd >>= k).exec v [] true).BalancedIff
      (∀ nd' w o, v.pathLookup env nd = some (0, nd', w) → nd'.current = some o → found o w) := by
  have ends : PlainEnd env true v dir ((lockedLookup env nd).exec v [] true) :=
    PlainEnds.all env (maxLoop + 2) nd v dir true parent h start
  rw [exec_bind]
  generalize run : (lockedLookup env nd).exec v [] true = out at ends
  intro runs
  cases ends with
  | crashed => exact absurd rfl runs
  | failed bad grows =>
    have call := lockedLookup_erase (erase_of_exec run)
    refine ⟨fun _ nd' w o call' => ?_, fun _ => fails _ _ _ bad⟩
    cases call.symm.trans call'
    exact absurd rfl bad
  | @found nd1 w1 o inode current reaches =>
    have call := lockedLookup_erase (erase_of_exec run)
    have iff := finds nd1 w1 o inode reaches current runs
    refine ⟨fun balanced nd' w o' call' current' => ?_, fun all => iff.mpr (all nd1 w1 o call current)⟩
    cases call.symm.trans call'
    rw [current] at current'
    cases current'
    exact iff.mp balanced

/-- The rest of a call is in the parent. -/
theorem Vfs.Finds.balanced_in (fail : Int → VfsProg α) (body : Nat → Nameidata → VfsProg α)
    (h : v.Ready env dir) (live : v.objects dir = some di) (parent : nd.wantParent = true)
    (unset : nd.parent = none) (start : nd.start = some dir)
    (fails : ∀ e w, e ≠ 0 → ((fail e).exec w [] true).Balanced)
    (near : ∀ nd' w p inode, v.Reaches env dir p inode w → nd'.name = lastComponent nd.path →
      ((body p nd').exec w [.inode inode.iNo] true).BalancedIff (locked p w))
    (bare : ∀ nd' w p inode, v.Reaches env dir p inode w → nd'.name = lastComponent nd.path →
      ((body p nd').exec w [] true).BalancedIff (unlocked p w)) : ((do
      let r ← lockedLookup env nd
      if r.1 ≠ 0 then fail r.1 else do
        let p ← pointer r.2.parent
        body p r.2 : VfsProg α).exec v [] true).BalancedIff (v.Finds env [] nd locked unlocked) := by
  have at_ {nd' : Nameidata} {w : Vfs} {p : Nat} {held : List DataLock} (found : nd'.parent = some p) :
      (if ((0 : Int), nd').1 ≠ 0 then fail ((0 : Int), nd').1 else do
        let p ← pointer ((0 : Int), nd').2.parent
        body p ((0 : Int), nd').2 : VfsProg α).exec w held true = (body p nd').exec w held true := by
    rw [if_neg (not_not.mpr rfl), found, pointer_exec]
  refine Finds.balanced h (fun _ _ => not_mem_nil) live not_mem_nil parent unset start ?_ ?_ ?_ ?_
  · intro e nd' w bad _
    rw [if_pos bad]
    exact fails e w bad
  · intro nd' w held none
    rw [if_neg (not_not.mpr rfl), none, pointer_none]
  · intro nd' w p inode reaches found named _
    rw [at_ found]
    exact near nd' w p inode reaches named
  · intro nd' w p inode reaches found named
    rw [at_ found]
    exact bare nd' w p inode reaches named

end

/-! ## The calls -/

/-- How a path is looked up from the working directory. -/
def Vfs.begin (v : Vfs) (path : List (BitVec 8)) : Nameidata :=
  ⟨path, some (if path.head? = some slash then v.root else v.cwd), none, none, 0, false, false, [], 0⟩

def Vfs.parentOf (v : Vfs) (path : List (BitVec 8)) : Nameidata := { v.begin path with wantParent := true }

section
variable {α : Type} {held : List DataLock} {clean : Bool} {path : List (BitVec 8)}

theorem startLookup_exec (fd : Int) (nofollow : Bool) (k : Except Int Nameidata → VfsProg α) :
    (startLookup fd path nofollow >>= k).exec v held clean =
      (k (v.nameidataInit fd path nofollow)).exec v held clean := by
  simp [startLookup, Outcome.bind]

theorem Vfs.nameidataInit_cwd (v : Vfs) (path : List (BitVec 8)) :
    v.nameidataInit atFdcwd path false = .ok (v.begin path) := by
  unfold nameidataInit begin
  split <;> rfl

theorem startLookup_cwd (k : Except Int Nameidata → VfsProg α) :
    (startLookup atFdcwd path false >>= k).exec v held clean = (k (.ok (v.begin path))).exec v held clean := by
  rw [startLookup_exec, nameidataInit_cwd]

theorem Vfs.Proper.begin (h : v.Proper env) (path : List (BitVec 8)) :
    ∃ dir di, (v.begin path).start = some dir ∧ v.objects dir = some di ∧ di.isDir ∧ v.Ready env dir := by
  obtain ⟨top, root, rootDir⟩ := h.root
  obtain ⟨here, cwd, cwdDir⟩ := h.cwd
  unfold Vfs.begin
  split
  · exact ⟨v.root, top, rfl, root, rootDir, h.coherent, h.sane, ⟨top, root⟩, top, root⟩
  · exact ⟨v.cwd, here, rfl, cwd, cwdDir, h.coherent, h.sane, ⟨top, root⟩, here, cwd⟩

/-- The rest of a call gives back the lock of the parent. -/
theorem Vfs.Secures.balanced (fail : Int → VfsProg α) (body : Nat → Nameidata → VfsProg α)
    (h : v.Ready env dir) (parent : nd.wantParent = true) (unset : nd.parent = none)
    (start : nd.start = some dir) (fails : ∀ e w, e ≠ 0 → ((fail e).exec w [] true).Balanced)
    (leaves : ∀ nd' w p inode (locked : Bool), v.Reaches env dir p inode w →
      ((body p nd').exec w (holding locked inode.iNo []) true).BalancedIff locked) : ((do
      let r ← lockedLookup env nd
      if r.1 ≠ 0 then fail r.1 else do
        let p ← pointer r.2.parent
        body p r.2 : VfsProg α).exec v [] true).BalancedIff (v.Secures env [] nd) := by
  obtain ⟨di, live⟩ := h.dir
  refine Finds.balanced_in fail body h live parent unset start fails ?_ ?_
  · intro nd' w p inode reaches _
    exact (leaves nd' w p inode true reaches).congr (by simp)
  · intro nd' w p inode reaches _
    exact (leaves nd' w p inode false reaches).congr (by simp)

section
variable (h : v.Proper env)
include h

theorem unlink_balanced :
    ((lockedUnlink env path).exec v [] true).BalancedIff (v.Secures env [] (v.parentOf path)) := by
  rw [lockedUnlink, startLookup_cwd]
  obtain ⟨dir, di, start, live, _, ready⟩ := h.begin path
  refine Secures.balanced pure (fun p nd => lockedUnlinkAt env p nd.name) ready rfl rfl start (fun e w _ => ?_)
    fun nd' w p inode locked reaches => ?_
  · simp
  · exact unlinkAt_balanced (h.fetches reaches.fetches).coherent h.sane reaches.live

theorem Vfs.Proper.cached (live : v.objects o = some inode) (isDir : inode.isDir) : v.Cached o :=
  ⟨inode, live, h.dirs o inode live isDir⟩

theorem rename_balanced {newpath : List (BitVec 8)} :
    ((lockedRename env path newpath).exec v [] true).BalancedIff (v.Finds env [] (v.parentOf path)
      (fun _ w => w.Secures env [] (w.parentOf newpath)) fun _ _ => False) := by
  rw [lockedRename, startLookup_cwd]
  obtain ⟨dir, di, start, live, isDir, ready⟩ := h.begin path
  have cached := h.cached live isDir
  obtain ⟨top, root, rootDir⟩ := h.root
  refine Finds.balanced_in pure (fun p nd => do inodeUnlock p; lockedRenameTo env p nd newpath) ready live rfl rfl
    start (fun e w _ => by simp) ?_ ?_
  · intro nd' w p inode reaches _
    have old := reaches.cached cached (h.cached root rootDir)
    have proper := h.fetches reaches.fetches
    obtain ⟨dir', di', start', live', isDir', ready'⟩ := proper.begin newpath
    obtain ⟨top', root', rootDir'⟩ := proper.root
    rw [unlock_top reaches.live (.refl w), lockedRenameTo, startLookup_cwd]
    refine Secures.balanced pure (fun newDir nd'' => lockedRenameIn env p newDir nd' nd'') ready' rfl rfl start'
      (fun e w _ => by simp) ?_
    intro nd'' w' newDir new locked reaches'
    have grows := (reaches'.fetches.keeps proper.coherent h.sane).2
    refine renameIn_balanced reaches'.live (grows.objects _ _ reaches.live) fun same => ?_
    obtain ⟨i, livei, tablei⟩ := reaches'.cached (proper.cached live' isDir') (proper.cached root' rootDir')
    obtain ⟨j, livej, tablej⟩ := old.grows grows
    cases livei.symm.trans reaches'.live
    cases livej.symm.trans (grows.objects _ _ reaches.live)
    rw [same, tablej] at tablei
    exact (some.inj tablei).symm
  · intro nd' w p inode reaches _
    rw [unlock_exec reaches.live]
    exact (exec_unclean _ _ _).balancedIff not_false

/-- A directory does not have the number of another inode. -/
theorem Vfs.Proper.other (live : v.objects dir = some di) (isDir : di.isDir) (cached : v.Cached o)
    (found : v.objects o = some inode) (file : ¬ inode.isDir) : .inode di.iNo ∉ [DataLock.inode inode.iNo] := by
  intro same
  obtain ⟨i, live', table⟩ := cached
  cases live'.symm.trans found
  have number : di.iNo = inode.iNo := by simpa using same
  rw [← number, h.dirs dir di live isDir] at table
  cases table
  cases live.symm.trans found
  exact file isDir

/-- `slotfs_link` with the target. -/
theorem linkAt_balanced (found : v.objects o = some inode) (cached : v.Cached o) (file : ¬ inode.isDir) :
    ((do let ret ← lockedLinkAt env o path; inodeUnlock o; pure ret : VfsProg Int).exec v
      [.inode inode.iNo] true).BalancedIff (v.Secures env [.inode inode.iNo] (v.parentOf path)) := by
  obtain ⟨dir, di, start, live, isDir, ready⟩ := h.begin path
  obtain ⟨top, root, rootDir⟩ := h.root
  have clear : v.Clear [.inode inode.iNo] := fun i live => by
    cases live.symm.trans root
    exact h.other root rootDir cached found file
  rw [lockedLinkAt, exec_assoc, startLookup_cwd, exec_assoc]
  refine Finds.balanced ready clear live (h.other live isDir cached found file) rfl rfl start ?_ ?_ ?_ ?_
  · intro e nd' w bad grows
    rw [if_pos bad, exec_bind, exec_pure, Outcome.bind, unlock_top found grows.numbers]
    simp
  · intro nd' w held none
    rw [if_neg (not_not.mpr rfl), none, exec_assoc, pointer_none]
  · intro nd' w p pi reaches parent named free
    have found' := (reaches.fetches.keeps h.coherent h.sane).2.objects _ _ found
    have entered := @enterLink_balanced w env p pi true nd'.name reaches.live o inode found' fun _ same =>
      free (by simp [same])
    rw [parent]
    exact entered.congr (by simp)
  intro nd' w p pi reaches parent named
  have found' := (reaches.fetches.keeps h.coherent h.sane).2.objects _ _ found
  have entered := @enterLink_balanced w env p pi false nd'.name reaches.live o inode found'
    fun locked => by cases locked
  rw [parent]
  exact entered.congr (by simp)

theorem link_balanced {link : List (BitVec 8)} : ((lockedLink env path link).exec v [] true).BalancedIff
    (∀ nd w o, v.pathLookup env (v.begin path) = some (0, nd, w) → nd.current = some o →
      ∀ inode, w.objects o = some inode → ¬ inode.isDir →
        w.Secures env [.inode inode.iNo] (w.parentOf link)) := by
  rw [lockedLink, startLookup_cwd]
  obtain ⟨dir, di, start, live, isDir, ready⟩ := h.begin path
  obtain ⟨top, root, rootDir⟩ := h.root
  refine plainLookup_balanced ready rfl start (fun e nd' w bad => ?_) fun nd' w o inode reaches current => ?_
  · rw [if_pos bad]
    simp
  rw [if_neg (not_not.mpr rfl), current, pointer_exec, fetch_exec reaches.live]
  by_cases isDir' : inode.isDir
  · rw [if_pos isDir', unlock_top reaches.live (.refl w)]
    simp [reaches.live, isDir']
  rw [if_neg isDir', exec_bind, exec_note, Outcome.bind]
  have cached := reaches.cached (h.cached live isDir) (h.cached root rootDir)
  simpa [reaches.live, isDir'] using linkAt_balanced (h.fetches reaches.fetches) reaches.live cached isDir'

theorem Vfs.Proper.ready (live : v.objects dir = some di) : v.Ready env dir := by
  obtain ⟨top, root, _⟩ := h.root
  exact ⟨h.coherent, h.sane, ⟨top, root⟩, di, live⟩

end

theorem Vfs.nameidataInit_fresh {fd : Int} (init : v.nameidataInit fd path nofollow = .ok nd) :
    nd.parent = none ∧ nd.wantParent = false := by
  unfold nameidataInit at init
  split at init
  · cases init
    exact ⟨rfl, rfl⟩
  split at init
  · cases init
    exact ⟨rfl, rfl⟩
  cases get : v.fileTableGet fd with
  | error e =>
    rw [get] at init
    cases init
  | ok start =>
    rw [get] at init
    cases init
    exact ⟨rfl, rfl⟩

section
variable (h : v.Proper env)
include h

/-- A call that gives back the inode that it has looked up. -/
theorem Vfs.Proper.looks {k : Int × Nameidata → VfsProg α} (parent : nd.wantParent = false)
    (fails : ∀ e nd' w, e ≠ 0 → ((k (e, nd')).exec w [] true).Balanced)
    (leaves : ∀ nd' w o inode, w.objects o = some inode → nd'.current = some o →
      ((k (0, nd')).exec w [.inode inode.iNo] true).BalancedIff True) :
    ((lockedLookup env nd >>= k).exec v [] true).BalancedIff True := by
  by_cases dead : ∀ dir di, nd.start = some dir → v.objects dir ≠ some di
  · rw [lockedLookup_dead dead fun want => by cases parent.symm.trans want]
    exact Outcome.balancedIff_crashed
  simp only [not_forall, not_not] at dead
  obtain ⟨dir, di, start, live⟩ := dead
  have found := plainLookup_balanced (h.ready live) parent start fails fun nd' w o inode reaches =>
    leaves nd' w o inode reaches.live
  simpa only [implies_true] using found

theorem stat_balanced {fd : Int} {path : Option (List (BitVec 8))} :
    ((lockedStat env fd path nofollow).exec v [] true).BalancedIff True := by
  unfold lockedStat
  cases path with
  | none =>
    refine look_balanced fun r v' _ => ?_
    cases r with
    | error e => simp
    | ok => exact Outcome.balancedIff_crashed
  | some path =>
    rw [startLookup_exec]
    cases init : v.nameidataInit fd path nofollow with
    | error e => simp
    | ok nd =>
      refine h.looks (nameidataInit_fresh init).2 (fun e nd' w bad => ?_) fun nd' w o inode live current => ?_
      · rw [if_pos bad]
        simp
      · rw [if_neg (not_not.mpr rfl), current, pointer_exec, unlock_top live (.refl w)]
        simp

theorem openExisting_balanced {directory : Bool} (parent : nd.wantParent = false) :
    ((lockedOpenExisting env nd directory).exec v [] true).BalancedIff True := by
  refine h.looks parent (fun e nd' w bad => ?_) fun nd' w o inode live current => ?_
  · rw [if_pos bad]
    simp
  rw [if_neg (not_not.mpr rfl), current, pointer_exec, fetch_exec live]
  split
  · rw [unlock_top live (.refl w)]
    simp
  · have counted : w.Numbers (w.setObject o { inode with ref := refInc inode.ref }) := .set live rfl rfl
    rw [takeRef_exec live, unlock_top live counted]
    simp

theorem Vfs.Proper.fdAlloc {fd : Option Nat} (alloc : v.fdAlloc = (fd, v')) : v'.Proper env := by
  unfold Vfs.fdAlloc at alloc
  split at alloc
  · cases alloc
    exact h
  · cases alloc
    exact ⟨⟨h.coherent.fresh, h.coherent.placed, h.coherent.keyed, h.coherent.apart⟩, h.sane, h.root, h.cwd, h.dirs,
      h.maps, h.small, h.used, h.rebuilt⟩

end

/-- The lookup of the parent of a file that is opened with `O_CREAT`. -/
def Nameidata.creating (nd : Nameidata) : Nameidata :=
  { nd with wantParent := true, path := nd.path.dropWhile (· = slash) }

theorem openCreat_balanced (h : v.Proper env) (unset : nd.parent = none) :
    ((lockedOpenCreat env nd mode).exec v [] true).BalancedIff
      (nd.path.dropWhile (· = slash) ≠ [] → v.Secures env [] nd.creating) := by
  unfold lockedOpenCreat
  by_cases bare : nd.path.dropWhile (· = slash) = []
  · simp [bare]
  rw [if_neg bare]
  simp only [ne_eq, bare, not_false_eq_true, forall_const]
  by_cases dead : ∀ dir di, nd.creating.start = some dir → v.objects dir ≠ some di
  · rw [← Nameidata.creating, lockedLookup_dead dead fun _ => ⟨unset, fun nd' w held none => ?_⟩]
    · exact Outcome.balancedIff_crashed
    · rw [if_neg (not_not.mpr rfl), none, pointer_none]
  simp only [not_forall, not_not] at dead
  obtain ⟨dir, di, start, live⟩ := dead
  have want : nd.creating.wantParent = true := rfl
  refine Secures.balanced (fun e => pure (Except.error e)) (fun p nd => lockedCreate env p nd.name mode)
    (h.ready live) want unset start (fun e w _ => ?_) fun nd' w p inode locked reaches => ?_
  · exact Outcome.balanced_returned.mpr ⟨rfl, rfl⟩
  · exact create_balanced (h.fetches reaches.fetches) reaches.live

theorem doOpen_balanced {dfd : Int} (h : v.Proper env) :
    ((lockedDoOpen env dfd path flags mode).exec v [] true).BalancedIff
      (flags.creat = true → ∀ nd, v.nameidataInit dfd path flags.nofollow = .ok nd →
        nd.path.dropWhile (· = slash) ≠ [] → v.Secures env [] nd.creating) := by
  rw [lockedDoOpen, startLookup_exec]
  cases init : v.nameidataInit dfd path flags.nofollow with
  | error e => simp
  | ok nd =>
    obtain ⟨unset, parent⟩ := nameidataInit_fresh init
    by_cases creat : flags.creat = true
    · simpa [creat] using openCreat_balanced h unset
    · simpa [creat] using openExisting_balanced h parent

theorem open_balanced {dfd : Int} (h : v.Proper env) :
    ((lockedOpen env dfd path flags mode).exec v [] true).BalancedIff
      (flags.creat = true → ∀ fd w nd, v.fdAlloc = (some fd, w) →
        w.nameidataInit dfd path flags.nofollow = .ok nd → nd.path.dropWhile (· = slash) ≠ [] →
          w.Secures env [] nd.creating) := by
  unfold lockedOpen
  refine look_balanced fun fd w alloc => ?_
  have alloc := some.inj alloc
  cases fd with
  | none => simp [alloc]
  | some fd =>
    rw [exec_bind]
    intro runs
    have opens : (lockedDoOpen env dfd path flags mode).exec w [] true ≠ .crashed := by
      intro crash
      rw [crash] at runs
      exact runs rfl
    rw [Outcome.balanced_bind, doOpen_balanced (h.fdAlloc alloc) opens]
    · constructor
      · intro all creat fd' w' nd alloc'
        cases alloc.symm.trans alloc'
        exact all creat nd
      · exact fun all creat nd => all creat fd w nd alloc
    intro r s held clean
    cases r with
    | error e => exact ⟨_, _, rfl⟩
    | ok o => exact ⟨_, _, rfl⟩

section
variable (live : v.objects o = some inode) (free : .inode inode.iNo ∉ held)
include live free

theorem writeLink_cases : ((lockedWriteLink cpu written o).exec v held true).Unclean ∨
      (lockedWriteLink cpu written o).exec v held true = .returned true v held true := by
  have free' : .inode inode.iNo ∉ .ebuf (cpu % ebufNum) :: held := by simpa using free
  unfold lockedWriteLink
  by_cases busy : .ebuf (cpu % ebufNum) ∈ held
  · left
    rw [exec_bind, exec_lock, if_pos busy]
    rintro _ _ _ _ ⟨⟩
  rw [exec_bind, exec_lock, if_neg busy, Outcome.bind, lock_exec live free']
  rcases written with _ | e | u
  · left
    rintro _ _ _ _ ⟨⟩
  · left
    rw [unlock_top live (.refl v), unlock_exec live]
    simp only [free']
    exact exec_unclean _ _ _
  · rw [unlock_top live (.refl v)]
    simp [Outcome.bind]

/-- From the new inode on a lock is given back that is not there. -/
theorem symlinkTo_unclean : ((lockedSymlinkTo cpu written parent o).exec v held true).Unclean := by
  rw [lockedSymlinkTo, exec_bind]
  rcases writeLink_cases live free with unclean | eq
  · exact unclean.bind fun r w held => exec_unclean _ w held
  have live' : (v.icacheInstall inode.iNo o).objects o = some inode := live
  rw [eq, Outcome.bind, if_pos rfl, lockedIcacheInstall_exec live free, unlock_exec live']
  simp only [free]
  exact exec_unclean _ _ _

end

/-- In a parent that is locked or not, the name is there or the new inode is refused. -/
theorem symlinkIn_balanced (taken : Bool) (h : v.Proper env) (live : v.objects dir = some di) :
    ((lockedSymlinkIn env cpu written dir name).exec v (holding taken di.iNo []) true).BalancedIff
      (if taken then v.inodeLookup (some dir) name = some (.ok none) ∧
        ∃ e w, v.inodeCreate env dir name sIflnk = some (.error e, w)
      else v.inodeLookup (some dir) name ≠ some (.ok none)) := by
  unfold lockedSymlinkIn
  refine look_balanced fun d v' call => ?_
  obtain ⟨d', found, same⟩ := map_eq_some_iff.mp call
  cases same
  rcases d with e | _ | d
  · cases taken <;> simp [found, holding]
  · refine look_balanced fun r w call => ?_
    obtain ⟨numbers, new⟩ := inodeCreate_numbers h.coherent h.maps h.small call
    cases r with
    | error e =>
      rw [unlock_dir live numbers not_mem_nil]
      cases taken <;> simp [found, call]
    | ok o =>
      obtain ⟨inode, live', unused⟩ := new o rfl
      have free : .inode inode.iNo ∉ holding taken di.iNo [] := by
        refine not_mem_holding not_mem_nil fun same => unused ?_
        obtain ⟨di', liveDir, isDir, _⟩ := inodeLookup_ok found
        cases live.symm.trans liveDir
        rw [same]
        exact h.used dir di live isDir
      refine (symlinkTo_unclean live' free).balancedIff ?_
      cases taken <;> simp [found, call]
  · cases taken <;> simp [found, holding]

theorem symlink_balanced (h : v.Proper env) :
    ((lockedSymlink env cpu written path).exec v [] true).BalancedIff (v.Finds env [] (v.parentOf path)
      (fun p w => w.inodeLookup (some p) (lastComponent path) = some (.ok none) ∧
        ∃ e w', w.inodeCreate env p (lastComponent path) sIflnk = some (.error e, w'))
      fun p w => w.inodeLookup (some p) (lastComponent path) ≠ some (.ok none)) := by
  rw [lockedSymlink, startLookup_cwd]
  obtain ⟨dir, di, start, live, isDir, ready⟩ := h.begin path
  refine Finds.balanced_in pure (fun p nd => lockedSymlinkIn env cpu written p nd.name) ready live rfl rfl start
    (fun e w _ => by simp) ?_ ?_
  · intro nd' w p inode reaches named
    rw [named]
    exact symlinkIn_balanced true (h.fetches reaches.fetches) reaches.live
  · intro nd' w p inode reaches named
    rw [named]
    exact symlinkIn_balanced false (h.fetches reaches.fetches) reaches.live

theorem replayRename_unbalanced {oldIno newIno : Nat} :
    ((lockedReplayRename env oldIno newIno oldName newName).exec v [] true).BalancedIff False := by
  refine fun _ => iff_false_intro ?_
  unfold lockedReplayRename
  rcases get : v.iget env oldIno with ⟨e | old, w⟩
  · rw [lockedIget_error not_mem_nil get]
    rcases get' : w.iget env newIno with ⟨e' | new, w'⟩
    · rw [lockedIget_error not_mem_nil get']
      exact Outcome.not_balanced_crashed
    · rw [lockedIget_ok not_mem_nil get']
      exact Outcome.not_balanced_crashed
  rw [lockedIget_ok not_mem_nil get]
  by_cases same : .inode newIno ∈ [DataLock.inode oldIno]
  · rw [lockedIget_taken same]
    exact Outcome.not_balanced_stuck
  rcases get' : w.iget env newIno with ⟨e' | new, w'⟩
  · rw [lockedIget_error same get']
    exact Outcome.not_balanced_crashed
  rw [lockedIget_ok same get', exec_look]
  cases w'.replayRename env old new oldName newName with
  | none => exact Outcome.not_balanced_crashed
  | some out => simp

end

end

/-! ## Data -/

/-- The write goes to one block that is there, by the journal. -/
def Inode.Journaled (inode : Inode) (len offset : Nat) : Prop :=
  inode.journals len offset ∧ 0 < len ∧ filentLookup inode (offset / 4096) ≠ none

/-- Each extent finds an entry: one that can be reused, or memory for a new one. -/
def LogRoom (env : Env) (ts : Nat) : List EntryUnit → Inode → Storage → Prop
  | [], _, _ => True
  | u :: rest, inode, s =>
    ((filentDispatch env inode (trunc32 ((u.record ts).blocks * 4096))).1 = none →
      inode.arena.grants inode.arena.asked) ∧
    ∀ fe inode' s', fileAppendEntry env s inode (u.record ts) = some (.ok fe, inode', s') →
      LogRoom env ts rest inode' s'

/-- The extents of a write find entries. -/
def DataState.HasRoom (s : DataState) (env : Env) (ino : Nat) (buf : Mem) (len offset : Nat) : Prop :=
  ∀ w, writeLoop env buf len offset (ebufSize + 2)
      ⟨s.sbi, s.files ino, offset, len, 0, blockCount len offset, []⟩ = some w →
    LogRoom env (wrap64 (w.sbi.ts + 1)) w.ebuf w.inode w.sbi.storage

section
variable {env : Env} {inode inode' : Inode} {s s' : Storage}

/-- An entry is chosen unless there is none to reuse and `filent_alloc` is refused. -/
theorem chooseEntry_room (env : Env) (files : Maps) (inode : Inode) (size : Nat) :
    ((∃ c inode' files', chooseEntry env files inode size = (.ok c, inode', files')) ∧
      ((filentDispatch env inode size).1 = none → inode.arena.grants inode.arena.asked = true)) ∨
    (∃ inode', chooseEntry env files inode size = (.error enomem, inode', files)) ∧
      (filentDispatch env inode size).1 = none ∧ inode.arena.grants inode.arena.asked = false := by
  obtain ⟨c, inode', files', eq, choice⟩ | ⟨refused, num, eq⟩ := chooseEntry_cases env files inode size
  · refine .inl ⟨⟨c, inode', files', eq⟩, fun none => ?_⟩
    by_contra refused
    obtain ⟨fe, rest, _, dispatch⟩ | ⟨num, dispatch⟩ := filentDispatch_cases env inode size
    · rw [dispatch] at none
      cases none
    · simp only [chooseEntry, dispatch, Arena.alloc, refused] at eq
      cases congrArg Prod.fst eq
  refine .inr ⟨⟨_, eq⟩, ?_, refused⟩
  obtain ⟨fe, rest, _, dispatch⟩ | ⟨num, dispatch⟩ := filentDispatch_cases env inode size
  · simp only [chooseEntry, dispatch] at eq
    cases congrArg Prod.fst eq
  · rw [dispatch]

theorem appendUnits_room {ts : Nat} {units : List EntryUnit} {r : Except Int Unit}
    (call : appendUnits env ts units inode s = some (r, inode', s')) :
    r = .ok () ↔ LogRoom env ts units inode s := by
  induction units generalizing inode s with
  | nil =>
    cases call
    simp [LogRoom]
  | cons u rest ih =>
    rw [appendUnits] at call
    rw [LogRoom]
    rcases chooseEntry_room env s.files inode (trunc32 ((u.record ts).blocks * 4096)) with
      ⟨⟨c, inode1, files, choice⟩, room⟩ | ⟨⟨inode1, choice⟩, none, refused⟩
    · have ok : ∀ e i t, fileAppendEntry env s inode (u.record ts) ≠ some (.error e, i, t) := by
        intro e i t append
        rw [fileAppendEntry, choice] at append
        obtain ⟨⟨ret, i', data⟩, _, eq⟩ := map_eq_some_iff.mp append
        cases congrArg Prod.fst eq
      rcases append : fileAppendEntry env s inode (u.record ts) with _ | ⟨e | fe, inode2, s2⟩
      · rw [append] at call
        cases call
      · exact absurd append (ok _ _ _)
      rw [append] at call
      rw [ih call]
      constructor
      · intro later
        refine ⟨room, ?_⟩
        rintro _ _ _ ⟨⟩
        exact later
      · exact fun all => all.2 fe inode2 s2 rfl
    · have append : fileAppendEntry env s inode (u.record ts) = some (.error enomem, inode1, s) := by
        rw [fileAppendEntry, choice]
      rw [append] at call
      cases call
      simp [none, refused]

theorem tryJournal_pos (ino len offset : Nat) (buf : Mem) (d : DataState) :
    0 < (tryJournal ino buf len offset d).1 ↔ (d.files ino).Journaled len offset := by
  unfold tryJournal Inode.Journaled
  by_cases journals : (d.files ino).journals len offset = true
  · have short : len < 1024 := by
      simp only [Inode.journals, Bool.and_eq_true, decide_eq_true_eq] at journals
      exact journals.1.2
    simp only [journals, inodeWriteJournal]
    cases filentLookup (d.files ino) (offset / 4096) with
    | none => simp
    | some fe =>
      have small : toInt32 len = len := toInt32_of_lt (by omega)
      simp [small]
  · simp [journals]

theorem writeLocked_room {d' : DataState} {r : Except Int Unit}
    (call : writeLocked env ino buf len offset d = some (r, d')) :
    r = .ok () ↔ d.HasRoom env ino buf len offset := by
  obtain ⟨w, loop, call⟩ := bind_eq_some_iff.mp call
  obtain ⟨⟨r', inode, storage⟩, append, eq⟩ := map_eq_some_iff.mp call
  obtain rfl : r' = r := congrArg Prod.fst eq
  rw [appendUnits_room append]
  constructor
  · intro room w' loop'
    cases loop.symm.trans loop'
    exact room
  · exact fun all => all w loop

theorem writeBlocks_balanced : ((lockedWriteBlocks env ino cpu buf len offset).exec d [] true).BalancedIff
    (d.HasRoom env ino buf len offset) := by
  simp only [lockedWriteBlocks, ebufAlloc, ebufPut, exec_bind, exec_lock, exec_pure, exec_look,
    Outcome.bind, mem_cons, not_mem_nil, or_false, reduceCtorEq, if_false]
  rcases call : writeLocked env ino buf len offset d with _ | ⟨e | u, d'⟩
  · exact Outcome.balancedIff_crashed
  · rw [← writeLocked_room call]
    simp [Outcome.bind]
  · rw [← writeLocked_room call]
    simp [Outcome.bind]

theorem writeAtomic_balanced : ((lockedWriteAtomic env ino cpu buf len offset).exec d [] true).BalancedIff
    ((d.files ino).Journaled len offset ∨
      (tryJournal ino buf len offset d).2.HasRoom env ino buf len offset) := by
  simp only [lockedWriteAtomic, exec_bind, exec_look, elim_some, Outcome.bind]
  rw [← tryJournal_pos ino len offset buf d]
  by_cases positive : (tryJournal ino buf len offset d).1 > 0
  · simp [positive]
  · simpa [positive] using writeBlocks_balanced

theorem extend_balanced {ts newSize : Nat} :
    ((lockedExtend env ts ino cpu newSize).exec d [] true).BalancedIff True := by
  simp only [lockedExtend, ebufAlloc, ebufPut, exec_bind, exec_lock, exec_unlock, exec_pure,
    exec_look, elim_some, Outcome.bind, mem_cons, not_mem_nil, or_false, reduceCtorEq, if_false]
  cases extendLocked env ts ino (d.files ino).iSize newSize d <;> simp

end

/-! ## All of them -/

/-- A call with its arguments. `written` is what becomes of the blocks and the log of a new
link. -/
inductive LockingCall
  | open (dfd : Int) (path : List (BitVec 8)) (flags : OpenFlags) (mode : Nat)
  | link (target linkpath : List (BitVec 8))
  | unlink (path : List (BitVec 8))
  | symlink (cpu : Nat) (written : Option (Except Int Unit)) (linkpath : List (BitVec 8))
  | rename (oldpath newpath : List (BitVec 8))
  | stat (fd : Int) (path : Option (List (BitVec 8))) (nofollow : Bool)
  | writeAtomic (ino cpu : Nat) (buf : Mem) (len offset : Nat)
  | extend (ts ino cpu newSize : Nat)
  | replayRename (oldIno newIno : Nat) (oldName newName : List (BitVec 8))

/-- The namespace and the data, with what the code leaves open about each. -/
structure LockedFs where
  vfs : Vfs
  env : VfsEnv
  data : DataState
  dataEnv : Env

/-- The locks of a call that starts with none. -/
def LockingCall.exec (s : LockedFs) : LockingCall → Locks.Outcome Unit DataLock Unit
  | .open dfd path flags mode => ((lockedOpen s.env dfd path flags mode).exec s.vfs [] true).locks
  | .link target linkpath => ((lockedLink s.env target linkpath).exec s.vfs [] true).locks
  | .unlink path => ((lockedUnlink s.env path).exec s.vfs [] true).locks
  | .symlink cpu written linkpath => ((lockedSymlink s.env cpu written linkpath).exec s.vfs [] true).locks
  | .rename oldpath newpath => ((lockedRename s.env oldpath newpath).exec s.vfs [] true).locks
  | .stat fd path nofollow => ((lockedStat s.env fd path nofollow).exec s.vfs [] true).locks
  | .writeAtomic ino cpu buf len offset =>
    ((lockedWriteAtomic s.dataEnv ino cpu buf len offset).exec s.data [] true).locks
  | .extend ts ino cpu newSize => ((lockedExtend s.dataEnv ts ino cpu newSize).exec s.data [] true).locks
  | .replayRename oldIno newIno oldName newName =>
    ((lockedReplayRename s.env oldIno newIno oldName newName).exec s.vfs [] true).locks

/-- When a call keeps its locks in order. -/
def LockingCall.Orderly (s : LockedFs) : LockingCall → Prop
  | .open dfd path flags _ => flags.creat = true → ∀ fd w nd, s.vfs.fdAlloc = (some fd, w) →
    w.nameidataInit dfd path flags.nofollow = .ok nd → nd.path.dropWhile (· = slash) ≠ [] →
      w.Secures s.env [] nd.creating
  | .link target linkpath => ∀ nd w o, s.vfs.pathLookup s.env (s.vfs.begin target) = some (0, nd, w) →
    nd.current = some o → ∀ inode, w.objects o = some inode → ¬ inode.isDir →
      w.Secures s.env [.inode inode.iNo] (w.parentOf linkpath)
  | .unlink path => s.vfs.Secures s.env [] (s.vfs.parentOf path)
  | .symlink _ _ linkpath => s.vfs.Finds s.env [] (s.vfs.parentOf linkpath)
    (fun p w => w.inodeLookup (some p) (lastComponent linkpath) = some (.ok none) ∧
      ∃ e w', w.inodeCreate s.env p (lastComponent linkpath) sIflnk = some (.error e, w'))
    fun p w => w.inodeLookup (some p) (lastComponent linkpath) ≠ some (.ok none)
  | .rename oldpath newpath => s.vfs.Finds s.env [] (s.vfs.parentOf oldpath)
    (fun _ w => w.Secures s.env [] (w.parentOf newpath)) fun _ _ => False
  | .stat .. => True
  | .writeAtomic ino _ buf len offset => (s.data.files ino).Journaled len offset ∨
    (tryJournal ino buf len offset s.data).2.HasRoom s.dataEnv ino buf len offset
  | .extend .. => True
  | .replayRename .. => False

/-- A call that does not crash gives back its locks, and only those, exactly when it is orderly. -/
theorem calls_balance_locks {s : LockedFs} {call : LockingCall} (proper : s.vfs.Proper s.env)
    (runs : call.exec s ≠ .crashed) : (call.exec s).Balanced ↔ call.Orderly s := by
  cases call with
  | «open» => exact (open_balanced proper).locks runs
  | link => exact (link_balanced proper).locks runs
  | unlink => exact (unlink_balanced proper).locks runs
  | symlink => exact (symlink_balanced proper).locks runs
  | rename => exact (rename_balanced proper).locks runs
  | stat => exact (stat_balanced proper).locks runs
  | writeAtomic => exact writeAtomic_balanced.locks runs
  | extend => exact extend_balanced.locks runs
  | replayRename => exact replayRename_unbalanced.locks runs

theorem linkedVfs_proper (text : List (BitVec 8)) : linkedVfs.Proper (linkedEnv text) where
  coherent := linkedVfs_coherent
  sane := (linkedVfs_ready text).sane
  root := ⟨linkedRoot, rfl, by decide⟩
  cwd := ⟨linkedRoot, rfl, by decide⟩
  dirs := by
    intro o inode live _
    obtain ⟨few, same, _⟩ := linkedVfs_cases live
    rw [same]
    exact if_pos few
  maps := mountedVfs_mounted.maps.1
  small := mountedVfs_mounted.maps.2.1
  used := by
    intro o inode live isDir
    rw [(linkedVfs_cases live).2.2 isDir]
    exact mountedVfs_mounted.maps.2.2
  rebuilt := fun ino inode rebuild => by cases rebuild

/-- A name that is not in the root. -/
def nameG : List (BitVec 8) := [0x67#8]

/-- The file system of the samples: the root with `f` and `l`, and an empty file. -/
def linkedFs : LockedFs := ⟨linkedVfs, linkedEnv [slash], emptyData, firstFit⟩

theorem calls_balance_locks_link : (LockingCall.link nameF nameG).exec linkedFs ≠ .crashed ∧
    ((LockingCall.link nameF nameG).exec linkedFs).Balanced := by
  have runs : (LockingCall.link nameF nameG).exec linkedFs ≠ .crashed := by decide +kernel
  refine ⟨runs, (calls_balance_locks (linkedVfs_proper [slash]) runs).mpr ?_⟩
  intro nd w o _ _ inode _ _ dir _
  refine ⟨not_trips_nil, fun p w => ⟨fun _ => trivial, fun arrives => ?_⟩⟩
  cases arrives.nil.1

/-- A link with a new name: the new inode is unlocked although it is not locked. -/
theorem symlink_unlocks_unlocked :
    ¬ ((LockingCall.symlink 0 (some (.ok ())) nameG).exec linkedFs).Balanced := by
  rintro ⟨⟨⟩, ⟨⟩, eq⟩
  revert eq
  decide +kernel

end SlotFs
