import SlotFs.LockedVfs

/-!
# The locks of a lookup

Alone, `path_lookup` goes from directory to directory with one lock in hand. In a coherent cache
the lock that it takes for an entry is the one that it gives back for the inode.
-/

namespace SlotFs
open Locks List Option Vfs Nameidata Prog

variable {d : Nat × Nat} {di inode : VfsInode} {dir i ino : Nat} {e : Int} {name text : List (BitVec 8)}

theorem VfsInode.not_symlink (isDir : inode.isDir) : ¬ inode.isSymlink := by
  simp only [VfsInode.isDir, VfsInode.isSymlink, beq_iff_eq] at isDir ⊢
  rw [isDir]
  decide

/-- No entry of a directory names the directory. -/
def VfsInode.Apart (inode : VfsInode) (ino : Nat) : Prop :=
  inode.isDir → ∀ hash d, direntLookup inode.toDir hash = some d → (inode.dents d).ino ≠ ino

/-- What `inode_rebuild` and `inode_readlink` return is an error or what is asked for. -/
structure VfsEnv.Sane (env : VfsEnv) : Prop where
  rebuild : ∀ ino e, env.rebuild ino = .error e → e ≠ 0
  readlink : ∀ o e, env.readlink o = some (.error e) → e ≠ 0
  apart : ∀ ino inode, env.rebuild ino = .ok inode → inode.Apart ino

/-- An object that is cached for a number has that number. -/
structure Vfs.Coherent (v : Vfs) : Prop where
  fresh : ∀ o, v.arena.asked ≤ o → v.objects o = none
  placed : ∀ ino o, v.inodeTable ino = some o → o < v.arena.asked
  keyed : ∀ ino o inode, v.inodeTable ino = some o → v.objects o = some inode → inode.iNo = ino
  apart : ∀ o inode, v.objects o = some inode → inode.Apart inode.iNo

/-- Objects have been loaded. -/
structure Vfs.Grows (v v' : Vfs) : Prop where
  objects : ∀ o inode, v.objects o = some inode → v'.objects o = some inode
  table : ∀ ino o, v.inodeTable ino = some o → v'.inodeTable ino = some o
  root : v'.root = v.root
  cwd : v'.cwd = v.cwd

section
variable {v v' w : Vfs} {env : VfsEnv}

theorem Vfs.Grows.refl (v : Vfs) : v.Grows v := ⟨fun _ _ => id, fun _ _ => id, rfl, rfl⟩

theorem Vfs.Grows.trans (h : v.Grows v') (h' : v'.Grows w) : v.Grows w where
  objects := fun o inode live => h'.objects o inode (h.objects o inode live)
  table := fun ino o cached => h'.table ino o (h.table ino o cached)
  root := h'.root.trans h.root
  cwd := h'.cwd.trans h.cwd

section
variable (h : v.Coherent)
include h

theorem Vfs.Coherent.asksOne : v.asksOne.Coherent where
  fresh := fun o far => h.fresh o (Nat.le_of_succ_le far)
  placed := fun ino o cached => Nat.lt_succ_of_lt (h.placed ino o cached)
  keyed := h.keyed
  apart := h.apart

theorem Vfs.Coherent.loaded (apart : inode.Apart ino) : (v.loaded ino inode).Coherent where
  fresh := by
    intro o far
    have above : v.arena.asked < o := far
    rw [loaded_objects_ne (Nat.ne_of_gt above)]
    exact h.fresh o (Nat.le_of_lt above)
  placed := by
    intro i o cached
    rcases loaded_table cached with ⟨rfl, rfl⟩ | cached
    · exact Nat.lt_succ_self _
    · exact Nat.lt_succ_of_lt (h.placed i o cached)
  keyed := by
    intro i o inode' cached live
    rcases loaded_table cached with ⟨rfl, rfl⟩ | cached
    · cases loaded_objects_self.symm.trans live
      rfl
    · rw [loaded_objects_ne (Nat.ne_of_lt (h.placed i o cached))] at live
      exact h.keyed i o inode' cached live
  apart := by
    intro o inode' live
    rcases object_cases rfl live with ⟨rfl, rfl⟩ | ⟨_, live⟩
    · exact apart
    · exact h.apart o inode' live

theorem Vfs.Coherent.grows_loaded (missing : v.inodeTable ino = none) (inode : VfsInode) :
    v.Grows (v.loaded ino inode) where
  objects := by
    intro o inode' live
    have other : o ≠ v.arena.asked := by
      rintro rfl
      cases (h.fresh _ (Nat.le_refl _)).symm.trans live
    rw [loaded_objects_ne other, live]
  table := fun i o => loaded_keeps missing
  root := rfl
  cwd := rfl

theorem Vfs.Coherent.iget (sane : env.Sane) {r : Except Int Nat} (call : v.iget env ino = (r, v')) :
    v'.Coherent ∧ v.Grows v' ∧
      (∀ o, r = .ok o → v'.inodeTable ino = some o) ∧ ∀ e, r = .error e → e ≠ 0 := by
  rcases iget_cases call with ⟨o, cached, rfl, rfl⟩ | ⟨e, rfl, cause, rfl⟩ |
    ⟨inode, missing, rebuild, rfl, rfl⟩
  · refine ⟨h, .refl v', ?_, nofun⟩
    rintro _ ⟨⟩
    exact cached
  · refine ⟨h.asksOne, ⟨fun _ _ => id, fun _ _ => id, rfl, rfl⟩, nofun, ?_⟩
    rintro _ ⟨⟩
    rcases cause with rfl | rebuild
    · decide
    · exact sane.rebuild ino _ rebuild
  · refine ⟨h.loaded (sane.apart ino inode rebuild), h.grows_loaded missing inode, ?_, nofun⟩
    rintro _ ⟨⟩
    exact loaded_table_self

/-- The number in an entry, which is not that of the directory. -/
theorem Vfs.Coherent.entry_apart (live : v.objects dir = some di) (entry : v.entry dir name = some (some d)) :
    d.2 ≠ di.iNo := by
  obtain ⟨inode, live', lookup, number⟩ := entry_lookup entry
  cases live.symm.trans live'
  obtain ⟨_, live', isDir, found⟩ := inodeLookup_ok lookup
  cases live.symm.trans live'
  rw [number d rfl]
  exact h.apart dir di live isDir _ _ found

end

theorem Vfs.pathIget_ok {o : Nat} (get : v.pathIget env (some dir) name = some (.ok o, v')) :
    ∃ d, v.entry dir name = some (some d) ∧ v.iget env d.2 = (.ok o, v') := by
  obtain ⟨inode, live, get⟩ := bind_eq_some_iff.mp get
  obtain ⟨found, lookup, get⟩ := bind_eq_some_iff.mp get
  cases found with
  | error e => cases get
  | ok found =>
    cases found with
    | none => cases get
    | some d =>
      refine ⟨(d, (inode.dents d).ino), ?_, some.inj get⟩
      simp [entry, live, lookup]

/-- An entry of a directory that has been loaded. -/
structure Vfs.Loads (v : Vfs) (env : VfsEnv) (dir : Nat) (name : List (BitVec 8)) (o : Nat) (inode : VfsInode)
    (v' : Vfs) : Prop where
  get : v.pathIget env (some dir) name = some (.ok o, v')
  live : v'.objects o = some inode

/-- An entry that is a directory. -/
def Vfs.Descends (v : Vfs) (env : VfsEnv) (dir : Nat) (name : List (BitVec 8)) (o : Nat) (v' : Vfs) : Prop :=
  ∃ inode, v.Loads env dir name o inode v' ∧ inode.isDir

/-- An entry that is a link with a text. -/
def Vfs.Reads (v : Vfs) (env : VfsEnv) (dir : Nat) (name text : List (BitVec 8)) (v' : Vfs) : Prop :=
  ∃ o inode, v.Loads env dir name o inode v' ∧ inode.isSymlink ∧ env.readlink o = some (.ok text)

theorem Vfs.Loads.spec {o : Nat} (loads : v.Loads env dir name o inode v') (h : v.Coherent) (sane : env.Sane)
    (live : v.objects dir = some di) :
    v'.Coherent ∧ v.Grows v' ∧ v'.inodeTable inode.iNo = some o ∧ inode.iNo ≠ di.iNo ∧
      ∃ d, v.entry dir name = some (some d) ∧ d.2 = inode.iNo ∧ v.iget env d.2 = (.ok o, v') := by
  obtain ⟨d, entry, get⟩ := pathIget_ok loads.get
  obtain ⟨coherent, grows, cached, _⟩ := h.iget sane get
  have number : inode.iNo = d.2 := coherent.keyed _ _ _ (cached o rfl) loads.live
  exact ⟨coherent, grows, number ▸ cached o rfl, number ▸ h.entry_apart live entry, d, entry, number.symm, get⟩

/-- Where the text of a link is looked up from. -/
def linkBase (v : Vfs) (dir : Nat) (text : List (BitVec 8)) : Nat :=
  if text.head? = some slash then v.root else dir

/-- How many links can still be followed within each other. -/
def Nameidata.left (nd : Nameidata) : Nat := if nd.nofollow then 0 else maxLoop + 1 - nd.depth

/-- What there has to be for a lookup. -/
structure Vfs.Ready (v : Vfs) (env : VfsEnv) (dir : Nat) : Prop where
  coherent : v.Coherent
  sane : env.Sane
  root : ∃ inode, v.objects v.root = some inode
  dir : ∃ inode, v.objects dir = some inode

section
variable {nd : Nameidata} {dir o n : Nat} {inode : VfsInode}

theorem Nameidata.left_succ (left : nd.left = n + 1) : nd.nofollow = false ∧ ¬ maxLoop < nd.depth ∧
    ∀ root text, (nd.into root text).left = n := by
  unfold Nameidata.left at left
  split at left
  · cases left
  rename_i follow
  have shallow : ¬ maxLoop < nd.depth := by omega
  refine ⟨Bool.eq_false_of_not_eq_true follow, shallow, fun root text => ?_⟩
  have small : nd.depth < 255 := by
    simp only [maxLoop] at shallow
    omega
  simp only [Nameidata.left, Nameidata.into, if_neg follow, Nat.mod_eq_of_lt (by omega : nd.depth + 1 < 256)]
  omega

theorem Nameidata.left_zero (left : nd.left = 0) (program : Nameidata → VfsProg (Int × Nameidata)) :
    lockedHandleSymlink env program o nd = pure (eloop, nd) := by
  unfold lockedHandleSymlink
  split
  · rfl
  · rename_i follow
    simp only [Nameidata.left, if_neg follow] at left
    rw [if_pos (by omega)]

theorem Nameidata.into_start (current : nd.current = some dir) (text : List (BitVec 8)) :
    (nd.into v.root text).start = some (linkBase v dir text) := by
  simp only [into, linkBase, current]
  split <;> rfl

theorem Vfs.Ready.base (h : v.Ready env dir) (text : List (BitVec 8)) : v.Ready env (linkBase v dir text) := by
  refine ⟨h.coherent, h.sane, h.root, ?_⟩
  unfold linkBase
  split
  · exact h.root
  · exact h.dir

theorem Vfs.Loads.ready (loads : v.Loads env dir name o inode v') (h : v.Ready env dir) :
    v'.Ready env dir ∧ v'.Ready env o := by
  obtain ⟨di, live⟩ := h.dir
  obtain ⟨root, top⟩ := h.root
  obtain ⟨coherent, grows, _⟩ := loads.spec h.coherent h.sane live
  have top' : ∃ inode, v'.objects v'.root = some inode := ⟨root, grows.root ▸ grows.objects _ _ top⟩
  exact ⟨⟨coherent, h.sane, top', di, grows.objects _ _ live⟩, coherent, h.sane, top', inode, loads.live⟩

theorem Vfs.Reads.ready (reads : v.Reads env dir name text v') (h : v.Ready env dir) :
    v'.Ready env (linkBase v' dir text) := by
  obtain ⟨o, inode, loads, _⟩ := reads
  exact (loads.ready h).1.base text

end

/-! ## Steps -/

section
variable {α : Type} {held : List DataLock} {clean : Bool} {o : Nat} {inode : VfsInode}

theorem pointer_exec (k : Nat → VfsProg α) :
    (pointer (some o) >>= k).exec v held clean = (k o).exec v held clean := by
  simp [pointer, Outcome.bind]

theorem pointer_none (k : Nat → VfsProg α) : (pointer none >>= k).exec v held clean = .crashed := by
  simp [pointer, Outcome.bind]

theorem fetch_exec (live : v.objects o = some inode) (k : VfsInode → VfsProg α) :
    (fetch o >>= k).exec v held clean = (k inode).exec v held clean := by
  simp [fetch, live, Outcome.bind]

theorem fetch_none (dead : v.objects o = none) (k : VfsInode → VfsProg α) :
    (fetch o >>= k).exec v held clean = .crashed := by
  simp [fetch, dead, Outcome.bind]

theorem unlock_exec (live : v.objects o = some inode) (k : Unit → VfsProg α) :
    (inodeUnlock o >>= k).exec v held clean =
      (k ()).exec v (held.erase (.inode inode.iNo)) (clean && decide (.inode inode.iNo ∈ held)) := by
  simp [inodeUnlock, fetch, live, Outcome.bind]

theorem lock_exec (live : v.objects o = some inode) (free : .inode inode.iNo ∉ held) (k : Unit → VfsProg α) :
    (inodeLock o >>= k).exec v held clean = (k ()).exec v (.inode inode.iNo :: held) clean := by
  simp [inodeLock, fetch, live, free, Outcome.bind]

theorem lookupEntry_exec {d : Option (Nat × Nat)} (entry : v.entry dir name = some d)
    (k : Option (Nat × Nat) → VfsProg α) :
    (lookupEntry dir name >>= k).exec v held clean = (k d).exec v held clean := by
  simp [lookupEntry, entry, Outcome.bind]

theorem lookupEntry_none (entry : v.entry dir name = none) (k : Option (Nat × Nat) → VfsProg α) :
    (lookupEntry dir name >>= k).exec v held clean = .crashed := by
  simp [lookupEntry, entry, Outcome.bind]

theorem lockedIget_taken (taken : .inode ino ∈ held) (k : Except Int Nat → VfsProg α) :
    (lockedIget env ino >>= k).exec v held clean = .stuck := by
  simp [lockedIget, taken, Outcome.bind]

theorem lockedIget_error (free : .inode ino ∉ held) (call : v.iget env ino = (.error e, v'))
    (k : Except Int Nat → VfsProg α) :
    (lockedIget env ino >>= k).exec v held clean = (k (.error e)).exec v' held clean := by
  simp [lockedIget, free, call, Outcome.bind]

theorem lockedIget_ok (free : .inode ino ∉ held) (call : v.iget env ino = (.ok o, v'))
    (k : Except Int Nat → VfsProg α) :
    (lockedIget env ino >>= k).exec v held clean = (k (.ok o)).exec v' (.inode ino :: held) clean := by
  simp [lockedIget, free, call, Outcome.bind]

end

/-! ## One component -/

/-- The locks of a lookup in a directory: it has lost the one of the directory where it came
there by a link without components. -/
def holding (locked : Bool) (ino : Nat) (held : List DataLock) : List DataLock :=
  if locked then .inode ino :: held else held

section
variable {locked last clean : Bool} {dir o : Nat} {di inode : VfsInode} {held : List DataLock}
  {nd : Nameidata} {name : List (BitVec 8)} {program : Nameidata → VfsProg (Int × Nameidata)}

section
variable (free : .inode ino ∉ held)
include free

theorem holding_erase : (holding locked ino held).erase (.inode ino) = held := by
  cases locked
  · exact erase_of_not_mem free
  · exact erase_cons_head ..

theorem mem_holding : decide (.inode ino ∈ holding locked ino held) = locked := by
  cases locked <;> simp [holding, free]

theorem holding_cons_erase (other : i ≠ ino) :
    (.inode i :: holding locked ino held).erase (.inode ino) = .inode i :: held := by
  rw [erase_cons_tail (by simpa using other), holding_erase free]

theorem mem_cons_holding (other : i ≠ ino) :
    decide (.inode ino ∈ DataLock.inode i :: holding locked ino held) = locked := by
  have drop : .inode ino ∈ .inode i :: holding locked ino held ↔
      .inode ino ∈ holding locked ino held := by simp [Ne.symm other]
  rw [decide_eq_decide.mpr drop, mem_holding free]

end

theorem not_mem_holding (free : .inode i ∉ held) (other : i ≠ ino) : .inode i ∉ holding locked ino held := by
  cases locked <;> simp [holding, free, other]

section
variable (current : nd.current = some dir)
include current

theorem enter_ok (entry : v.entry dir name = some (some d)) (open_ : .inode d.2 ∉ held) (other : d.2 ≠ di.iNo)
    (call : v.iget env d.2 = (.ok o, v')) :
    (lockedEnter env program last name nd).exec v (holding locked di.iNo held) clean =
      (lockedStep env program last dir o nd).exec v' (.inode d.2 :: holding locked di.iNo held) clean := by
  rw [lockedEnter, current, pointer_exec, lookupEntry_exec entry]
  rw [lockedIget_ok (not_mem_holding open_ other) call]

end

section
variable (live : v.objects dir = some di) (free : .inode di.iNo ∉ held) (found : v.objects o = some inode)
  (other : inode.iNo ≠ di.iNo)
include live free found other

theorem step_link (link : inode.isSymlink) :
    (lockedStep env program last dir o nd).exec v (.inode inode.iNo :: holding locked di.iNo held) clean =
      ((lockedHandleSymlink env program o nd).exec v (.inode inode.iNo :: held) (clean && locked)).bind
        fun r w held clean => if r.1 = 0 then .returned (.ok r.2) w held clean
          else (do inodeUnlock o; pure (.error r.1) : VfsProg (Except Int Nameidata)).exec w held clean := by
  rw [lockedStep, fetch_exec found, if_pos link, unlock_exec live, holding_cons_erase free other,
    mem_cons_holding free other, exec_bind]
  congr 1
  funext r w held clean
  split <;> rfl

/-- The link is not followed, or not read. -/
theorem step_unfollowed (link : inode.isSymlink) (bad : e ≠ 0)
    (handle : lockedHandleSymlink env program o nd = pure (e, nd)) :
    (lockedStep env program last dir o nd).exec v (.inode inode.iNo :: holding locked di.iNo held) clean =
      .returned (.error e) v held (clean && locked) := by
  rw [step_link live free found other link, handle, exec_pure]
  simp only [Outcome.bind, if_neg bad]
  rw [unlock_exec found]
  simp

end

/-- A lookup goes on from what the text of a link leads to, or has an error. -/
def afterLink (nd : Nameidata) (o : Nat) (r : Int × Nameidata) (v : Vfs) (held : List DataLock) (clean : Bool) :
    Locks.Outcome Vfs DataLock (Except Int Nameidata) :=
  if r.1 = 0 then .returned (.ok { nd with current := r.2.current }) v held clean
  else (do inodeLock o; inodeUnlock o; pure (.error r.1) : VfsProg (Except Int Nameidata)).exec v held clean

/-- The link is locked again and given back where its text leads to an error. -/
theorem afterLink_failed {r : Int × Nameidata} (found : v.objects o = some inode)
    (free : .inode inode.iNo ∉ held) (bad : r.1 ≠ 0) :
    afterLink nd o r v held clean = .returned (.error r.1) v held clean := by
  rw [afterLink, if_neg bad, lock_exec found free, unlock_exec found]
  simp

section
variable (loads : v.Loads env dir name o inode v') (h : v.Coherent) (sane : env.Sane)
  (current : nd.current = some dir) (live : v.objects dir = some di)
include loads h sane current live

/-- A component that has been loaded. -/
theorem Vfs.Loads.enter (open_ : .inode inode.iNo ∉ held) :
    (lockedEnter env program last name nd).exec v (holding locked di.iNo held) clean =
      (lockedStep env program last dir o nd).exec v' (.inode inode.iNo :: holding locked di.iNo held) clean ∧
    v'.objects dir = some di ∧ inode.iNo ≠ di.iNo := by
  obtain ⟨_, grows, _, other, d, entry, number, get⟩ := loads.spec h sane live
  refine ⟨?_, grows.objects _ _ live, other⟩
  rw [← number] at open_ other ⊢
  exact enter_ok current entry open_ other get

section
variable (free : .inode di.iNo ∉ held) (open_ : .inode inode.iNo ∉ held)
include free open_

/-- A component that a lookup goes on from. -/
theorem Vfs.Loads.enter_other (link : ¬ inode.isSymlink) (fits : last = true ∨ inode.isDir) :
    (lockedEnter env program last name nd).exec v (holding locked di.iNo held) clean =
      .returned (.ok { nd with current := some o }) v' (.inode inode.iNo :: held) (clean && locked) := by
  have accepted : ¬ (!last && !inode.isDir) = true := by
    rcases fits with rfl | isDir
    · simp
    · simp [isDir]
  obtain ⟨enter, live', other⟩ := loads.enter h sane current live open_
  rw [enter, lockedStep, fetch_exec loads.live, if_neg link, if_neg accepted, unlock_exec live',
    holding_cons_erase free other, mem_cons_holding free other]
  rfl

/-- A component that names a link which is followed. -/
theorem Vfs.Loads.enter_link (link : inode.isSymlink) (nofollow : nd.nofollow = false)
    (shallow : ¬ maxLoop < nd.depth) (read : env.readlink o = some (.ok text)) :
    (lockedEnter env program last name nd).exec v (holding locked di.iNo held) clean =
      ((program (nd.into v'.root text)).exec v' held (clean && locked)).bind (afterLink nd o) := by
  obtain ⟨enter, live', other⟩ := loads.enter h sane current live open_
  have handle : lockedHandleSymlink env program o nd = lockedFollow program o nd text := by
    rw [lockedHandleSymlink, if_neg (ne_true_of_eq_false nofollow), if_neg shallow, read]
  rw [enter, step_link live' free loads.live other link, handle, lockedFollow, exec_bind, exec_look]
  simp only [elim_some, Outcome.bind]
  rw [unlock_exec loads.live, exec_bind, erase_cons_head]
  simp only [mem_cons_self, decide_true, Bool.and_true]
  cases (program (nd.into v'.root text)).exec v' held (clean && locked) with
  | crashed => rfl
  | stuck => rfl
  | returned r w held clean =>
    by_cases good : r.1 = 0
    · simp only [Outcome.bind, afterLink, if_pos good, exec_pure]
    simp only [Outcome.bind, afterLink, if_neg good, exec_bind]
    cases (inodeLock o).exec w held clean with
    | crashed => rfl
    | stuck => rfl
    | returned _ w held clean => simp only [exec_pure, if_neg good]

/-- A component that names a link which is not followed, or which cannot be read. -/
theorem Vfs.Loads.enter_unread (link : inode.isSymlink)
    (unread : nd.left = 0 ∨ ∀ text, env.readlink o ≠ some (.ok text)) :
    (lockedEnter env program last name nd).exec v (holding locked di.iNo held) clean = .crashed ∨
    ∃ e, e ≠ 0 ∧ (lockedEnter env program last name nd).exec v (holding locked di.iNo held) clean =
      .returned (.error e) v' held (clean && locked) := by
  obtain ⟨enter, live', other⟩ := loads.enter h sane current live open_
  rw [enter]
  cases left : nd.left with
  | zero =>
    exact .inr ⟨eloop, by decide, step_unfollowed live' free loads.live other link (by decide)
      (left_zero left program)⟩
  | succ n =>
    obtain ⟨nofollow, shallow, _⟩ := left_succ left
    have reads : ∀ text, env.readlink o ≠ some (.ok text) := unread.resolve_left (by omega)
    rcases read : env.readlink o with _ | e | text
    · have handle : lockedHandleSymlink env program o nd = .crash := by
        rw [lockedHandleSymlink, if_neg (ne_true_of_eq_false nofollow), if_neg shallow, read]
      left
      rw [step_link live' free loads.live other link, handle]
      rfl
    · have handle : lockedHandleSymlink env program o nd = pure (e, nd) := by
        rw [lockedHandleSymlink, if_neg (ne_true_of_eq_false nofollow), if_neg shallow, read]
      have bad := sane.readlink o e read
      exact .inr ⟨e, bad, step_unfollowed live' free loads.live other link bad handle⟩
    · exact absurd read (reads text)

end

end

/-- A component that is not passed: there is no such entry or it cannot be loaded, a link cannot
be followed, or what is not a directory stands in the middle. -/
structure Vfs.Blocks (v : Vfs) (env : VfsEnv) (last : Bool) (dir : Nat) (name : List (BitVec 8))
    (left : Nat) (held : List DataLock) : Prop where
  free : ∀ d, v.entry dir name = some (some d) → .inode d.2 ∉ held
  loads : ∀ o inode v', v.Loads env dir name o inode v' →
    (inode.isSymlink → left = 0 ∨ ∀ text, env.readlink o ≠ some (.ok text)) ∧
    (¬ inode.isSymlink → ¬ (last = true ∨ inode.isDir))

/-- What can become of a component. -/
inductive Passage (env : VfsEnv) (program : Nameidata → VfsProg (Int × Nameidata)) (last : Bool) (v : Vfs)
    (dir : Nat) (name : List (BitVec 8)) (nd : Nameidata) (locked : Bool) (held : List DataLock)
    (clean : Bool) : Locks.Outcome Vfs DataLock (Except Int Nameidata) → Prop
  | crashed : Passage env program last v dir name nd locked held clean .crashed
  | stuck {d : Nat × Nat} (entry : v.entry dir name = some (some d)) (taken : .inode d.2 ∈ held) :
      Passage env program last v dir name nd locked held clean .stuck
  | failed {e : Int} {v' : Vfs} (bad : e ≠ 0) (coherent : v'.Coherent) (grows : v.Grows v')
      (blocks : v.Blocks env last dir name nd.left held) :
      Passage env program last v dir name nd locked held clean
        (.returned (.error e) v' held (clean && locked))
  | entered {o : Nat} {inode : VfsInode} {v' : Vfs} (loads : v.Loads env dir name o inode v')
      (link : ¬ inode.isSymlink) (fits : last = true ∨ inode.isDir) (open_ : .inode inode.iNo ∉ held) :
      Passage env program last v dir name nd locked held clean
        (.returned (.ok { nd with current := some o }) v' (.inode inode.iNo :: held) (clean && locked))
  | followed {o n : Nat} {inode : VfsInode} {text : List (BitVec 8)} {v' : Vfs}
      (loads : v.Loads env dir name o inode v') (link : inode.isSymlink)
      (read : env.readlink o = some (.ok text)) (open_ : .inode inode.iNo ∉ held) (left : nd.left = n + 1) :
      Passage env program last v dir name nd locked held clean
        (((program (nd.into v'.root text)).exec v' held (clean && locked)).bind (afterLink nd o))

theorem Vfs.Loads.unique {v1 v2 : Vfs} {o1 o2 : Nat} {inode1 inode2 : VfsInode}
    (loads : v.Loads env dir name o1 inode1 v1) (loads' : v.Loads env dir name o2 inode2 v2) :
    o2 = o1 ∧ inode2 = inode1 ∧ v2 = v1 := by
  have get := loads.get.symm.trans loads'.get
  cases get
  exact ⟨rfl, some.inj (loads'.live.symm.trans loads.live), rfl⟩

theorem passage (h : v.Ready env dir) (live : v.objects dir = some di) (current : nd.current = some dir)
    (free : .inode di.iNo ∉ held) : Passage env program last v dir name nd locked held clean
      ((lockedEnter env program last name nd).exec v (holding locked di.iNo held) clean) := by
  rcases entry : v.entry dir name with _ | _ | d
  · rw [lockedEnter, current, pointer_exec, lookupEntry_none entry]
    exact .crashed
  · have unloaded {o : Nat} {inode : VfsInode} {v' : Vfs} (loads : v.Loads env dir name o inode v') : False := by
      obtain ⟨d, entry', _⟩ := pathIget_ok loads.get
      simp [entry] at entry'
    rw [lockedEnter, current, pointer_exec, lookupEntry_exec entry, unlock_exec live, holding_erase free,
      mem_holding free]
    exact .failed (by decide) h.coherent (.refl v)
      ⟨fun d entry' => by simp [entry] at entry', fun o inode v' loads => (unloaded loads).elim⟩
  by_cases taken : .inode d.2 ∈ held
  · rw [lockedEnter, current, pointer_exec, lookupEntry_exec entry, lockedIget_taken]
    · exact .stuck entry taken
    · cases locked
      · exact taken
      · exact mem_cons_of_mem _ taken
  have apart (d' : Nat × Nat) (entry' : v.entry dir name = some (some d')) : .inode d'.2 ∉ held := by
    obtain rfl : d = d' := by simpa [entry] using entry'
    exact taken
  have other := h.coherent.entry_apart live entry
  rcases get : v.iget env d.2 with ⟨e | o, v'⟩
  · obtain ⟨coherent, grows, _, bad⟩ := h.coherent.iget h.sane get
    rw [lockedEnter, current, pointer_exec, lookupEntry_exec entry,
      lockedIget_error (not_mem_holding taken other) get]
    dsimp only
    rw [unlock_exec (grows.objects _ _ live), holding_erase free, mem_holding free]
    refine .failed (bad e rfl) coherent grows ⟨apart, fun o inode v' loads => ?_⟩
    obtain ⟨d', entry', get'⟩ := pathIget_ok loads.get
    obtain rfl : d = d' := by simpa [entry] using entry'
    cases get.symm.trans get'
  cases found : v'.objects o with
  | none =>
    rw [enter_ok current entry taken other get, lockedStep, fetch_none found]
    exact .crashed
  | some inode =>
    have loads : v.Loads env dir name o inode v' :=
      ⟨(pathIget_entry entry).trans (congrArg some get), found⟩
    obtain ⟨coherent, grows, _, _, d', entry', number, _⟩ := loads.spec h.coherent h.sane live
    obtain rfl : d = d' := by simpa [entry] using entry'
    rw [number] at taken
    by_cases link : inode.isSymlink
    · by_cases unread : nd.left = 0 ∨ ∀ text, env.readlink o ≠ some (.ok text)
      · have blocks : v.Blocks env last dir name nd.left held := by
          refine ⟨apart, fun o' inode' v' loads' => ?_⟩
          obtain ⟨rfl, rfl, _⟩ := loads.unique loads'
          exact ⟨fun _ => unread, fun other => absurd link other⟩
        rcases loads.enter_unread h.coherent h.sane current live free taken link unread with eq | ⟨e, bad, eq⟩
        · rw [eq]
          exact .crashed
        · rw [eq]
          exact .failed bad coherent grows blocks
      simp only [not_or, not_forall, not_not] at unread
      obtain ⟨left, text, read⟩ := unread
      obtain ⟨n, budget⟩ := Nat.exists_eq_succ_of_ne_zero left
      obtain ⟨nofollow, shallow, _⟩ := left_succ budget
      rw [loads.enter_link h.coherent h.sane current live free taken link nofollow shallow read]
      exact .followed loads link read taken budget
    · by_cases fits : last = true ∨ inode.isDir
      · rw [loads.enter_other h.coherent h.sane current live free taken link fits]
        exact .entered loads link fits taken
      obtain ⟨enter, live', _⟩ := loads.enter h.coherent h.sane current live taken
      have refused : (!last && !inode.isDir) = true := by simpa using fits
      rw [enter, lockedStep, fetch_exec found, if_neg link, if_pos refused, unlock_exec found, unlock_exec live',
        erase_cons_head, holding_erase free, mem_holding free, decide_eq_true mem_cons_self, Bool.and_true]
      refine .failed (by decide) coherent grows ⟨apart, fun o' inode' v' loads' => ?_⟩
      obtain ⟨rfl, rfl, _⟩ := loads.unique loads'
      exact ⟨fun other => absurd other link, fun _ => fits⟩

end

/-! ## Walks -/

section
variable {nd next : Nameidata} {this : List (BitVec 8)} {rest : List (List (BitVec 8))}
  {held held' : List DataLock} {clean clean' : Bool} {program : Nameidata → VfsProg (Int × Nameidata)}

theorem walk_exec (more : rest ≠ []) : (lockedWalk env program (this :: rest) nd).exec v held clean =
    ((lockedEnter env program false (component this) nd).exec v held clean).bind
      fun r w held clean => (goOn nd (lockedWalk env program rest) r).exec w held clean := by
  cases rest with
  | nil => exact absurd rfl more
  | cons next rest => exact exec_bind ..

theorem walk_parent (parent : nd.wantParent = true) : lockedWalk env program [this] nd = pure (0, { nd with
      last := this, lastLen := (component this).length, parent := nd.current, current := none }) := by
  simp only [lockedWalk, parent, if_true]

theorem lockStart_exec {α : Type} (start : nd.start = some dir) (live : v.objects dir = some di)
    (free : .inode di.iNo ∉ held) (k : Unit → VfsProg α) :
    (lockStart nd >>= k).exec v held clean = (k ()).exec v (holding true di.iNo held) clean := by
  rw [exec_bind, lockStart, start, pointer_exec, ← exec_bind, lock_exec live free]
  rfl

/-- The lookup of a path with components locks its start and goes along them. -/
theorem lockedLookupWithin_starts (calls : Nat) (start : nd.start = some dir) (live : v.objects dir = some di)
    (free : .inode di.iNo ∉ held) (full : components nd.path ≠ []) :
    (lockedLookupWithin env (calls + 1) nd).exec v held clean =
      (lockedWalk env (lockedLookupWithin env calls) (pathStarts true nd.path)
        { nd with current := nd.start }).exec v (holding true di.iNo held) clean := by
  rw [lockedLookupWithin]
  split
  · rename_i none
    exact absurd (by rw [components, none]; rfl) full
  · exact lockStart_exec start live free _

/-- With `ND_PARENT` a path without components is not refused, and nothing is locked. -/
theorem lockedLookupWithin_bare (calls : Nat) (parent : nd.wantParent = true) (empty : components nd.path = []) :
    lockedLookupWithin env (calls + 1) nd = pure (0, { nd with current := nd.start }) := by
  have none : pathStarts true nd.path = [] := map_eq_nil_iff.mp empty
  simp only [lockedLookupWithin, none, parent, if_true]

end

end
end SlotFs
