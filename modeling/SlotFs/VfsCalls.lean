import SlotFs.Lib.Ends
import SlotFs.VfsTied

/-!
# Lookups and calls

What each call does to names, links, references and descriptors in a state in which
every inode that is named has a link.
-/

namespace SlotFs
open CWord Outcome Function List Option Vfs VfsInode

variable {d mode o parent : Nat} {dir i : VfsInode} {entry entry' : EntryInode} {env : VfsEnv}
  {name path : List (BitVec 8)} {nd nd' : Nameidata} {r : Except Int Nat}

section
variable {v v' : Vfs} {off : Nat → Int}

/-! ## Paths -/

/-- A path can lead to the root, to the file of a descriptor or to an inode that is
named. -/
def Vfs.Found (v : Vfs) (o : Nat) : Prop :=
  o = v.root ∨ (∃ fd < fdMax, (v.fTable fd).valid ∧ (v.fTable fd).file = some o) ∨
    ∃ p x, x ∈ v.names p ∧ v.inodeTable x = some o

/-- The root and every inode that is named. -/
structure Vfs.Leads (v : Vfs) (F : Nat → Prop) : Prop where
  root : F v.root
  named : ∀ p x o, x ∈ v.names p → v.inodeTable x = some o → F o

theorem Vfs.found_leads (v : Vfs) : v.Leads v.Found :=
  ⟨.inl rfl, fun p x _ hx table => .inr (.inr ⟨p, x, hx, table⟩)⟩

/-- A lookup changes nothing and, begun in `F`, ends in `F`. -/
def Looks (v : Vfs) (F : Nat → Prop) (lookup : Vfs → Nameidata → Option (Int × Nameidata × Vfs)) : Prop :=
  ∀ nd : Nameidata, (∀ o, nd.start = some o → F o) →
    Ends (lookup v nd) fun r => r.2.2 = v ∧ ∀ o, r.2.1.current = some o → F o

theorem Vfs.Tied.dent (h : v.Tied off) {hash : Nat} (live : v.objects o = some dir) (isDir : dir.isDir)
    (found : direntLookup dir.toDir hash = some d) : d ∈ dir.list ∧ (dir.dents d).ino ∈ v.names o := by
  have member := (h.indexed o dir live isDir).present found
  refine ⟨member, ?_⟩
  rw [names_of live, VfsInode.names, if_pos isDir]
  exact mem_map_of_mem member

/-- A lookup in a directory. -/
theorem Vfs.inodeLookup_ok {d : Option Nat} (call : v.inodeLookup (some o) name = some (.ok d)) :
    ∃ dir, v.objects o = some dir ∧ dir.isDir ∧ direntLookup dir.toDir (bkdrHash name) = d := by
  obtain ⟨dir, live, call⟩ := bind_eq_some_iff.mp call
  split at call <;> cases call
  exact ⟨dir, live, ‹_›, rfl⟩

variable {F : Nat → Prop}

theorem Vfs.Tied.pathIget (h : v.Tied off) (kept : v.Kept) (leads : v.Leads F) (env : VfsEnv) (dir : Option Nat)
    (name : List (BitVec 8)) : Ends (v.pathIget env dir name) fun r => r.2 = v ∧ ∀ o, r.1 = .ok o → F o := by
  apply Ends.bind
  rintro p rfl
  apply Ends.bind
  intro inode live
  apply Ends.bind
  intro r lookup
  match r, lookup with
  | .error _, _ => exact .none
  | .ok none, _ => exact .some ⟨rfl, nofun⟩
  | .ok (some d), lookup =>
    obtain ⟨dir, live', isDir, found⟩ := inodeLookup_ok lookup
    cases live.symm.trans live'
    have named := (h.dent live isDir found).2
    obtain ⟨o, i, get, cached, _⟩ := h.iget kept env named
    dsimp only
    rw [get]
    refine .some ⟨rfl, ?_⟩
    rintro _ ⟨⟩
    exact leads.named p _ o named cached

theorem Looks.handleSymlink {lookup : Vfs → Nameidata → Option (Int × Nameidata × Vfs)}
    (looks : Looks v F lookup) (leads : v.Leads F) (env : VfsEnv) (o : Nat)
    (found : ∀ o, nd.current = some o → F o) : Ends (v.handleSymlink env lookup o nd) fun r =>
      r.2.2 = v ∧ ∀ o, r.2.1.current = some o → F o := by
  unfold Vfs.handleSymlink
  split
  · exact .some ⟨rfl, found⟩
  split
  · exact .some ⟨rfl, found⟩
  split
  · exact .none
  · exact .some ⟨rfl, found⟩
  apply Ends.bind
  rintro ⟨ret, nd', v'⟩ call
  obtain ⟨rfl, ended⟩ := looks _ (by
    split
    · rintro _ ⟨⟩
      exact leads.root
    · exact found) _ call
  refine .some ⟨rfl, ?_⟩
  split
  · exact ended
  · exact found

section
variable (h : v.Tied off) (kept : v.Kept) (leads : v.Leads F)
include h kept leads

theorem Vfs.Tied.pathWalk (env : VfsEnv) {lookup : Vfs → Nameidata → Option (Int × Nameidata × Vfs)}
    (looks : Looks v F lookup) (starts : List (List (BitVec 8))) (nd : Nameidata)
    (found : ∀ o, nd.current = some o → F o) : Ends (pathWalk env lookup starts v nd) fun r =>
      r.2.2 = v ∧ ∀ o, r.2.1.current = some o → F o := by
  induction starts generalizing nd with
  | nil => exact .some ⟨rfl, found⟩
  | cons this rest ih =>
    cases rest with
    | nil =>
      simp only [Vfs.pathWalk]
      split
      · exact .some ⟨rfl, nofun⟩
      apply Ends.bind
      rintro ⟨r, v'⟩ call
      obtain ⟨rfl, ended⟩ := h.pathIget kept leads env _ _ _ call
      match r with
      | .error e => exact .some ⟨rfl, found⟩
      | .ok o =>
        apply Ends.bind
        intro inode _
        split
        · exact looks.handleSymlink leads env o found
        · refine .some ⟨rfl, ?_⟩
          rintro _ ⟨⟩
          exact ended o rfl
    | cons next rest =>
      simp only [Vfs.pathWalk]
      apply Ends.bind
      rintro ⟨r, v'⟩ call
      obtain ⟨rfl, ended⟩ := h.pathIget kept leads env _ _ _ call
      match r with
      | .error e => exact .some ⟨rfl, found⟩
      | .ok o =>
        apply Ends.bind
        intro inode _
        split
        · apply Ends.bind
          rintro ⟨ret, nd', v'⟩ call
          obtain ⟨rfl, followed⟩ := looks.handleSymlink leads env o found _ call
          split
          · exact ih nd' followed
          · exact .some ⟨rfl, followed⟩
        split
        · apply ih
          rintro _ ⟨⟩
          exact ended o rfl
        · exact .some ⟨rfl, found⟩

theorem Vfs.Tied.looks (env : VfsEnv) (calls : Nat) : Looks v F (pathLookupWithin env calls) := by
  induction calls with
  | zero => exact fun _ _ => .none
  | succ calls ih =>
    intro nd found
    simp only [pathLookupWithin]
    split
    · split
      · exact .some ⟨rfl, found⟩
      apply Ends.bind
      intro o _
      apply Ends.bind
      intro _ _
      exact .some ⟨rfl, found⟩
    apply Ends.bind
    intro o _
    apply Ends.bind
    intro _ _
    exact h.pathWalk kept leads env ih _ _ found

theorem Vfs.Tied.lookup {ret : Int} (call : v.pathLookup env nd = some (ret, nd', v'))
    (start : ∀ o, nd.start = some o → F o) : v' = v ∧ ∀ o, nd'.current = some o → F o :=
  h.looks kept leads env _ nd start _ call

end

theorem Vfs.Tied.start (h : v.Tied off) {fd : Int} {path : List (BitVec 8)} {nofollow : Bool}
    {nd : Nameidata} (init : v.nameidataInit fd path nofollow = .ok nd) : ∀ o, nd.start = some o → v.Found o := by
  intro o start
  simp only [nameidataInit] at init
  split at init
  · cases init
    cases start
    exact .inl rfl
  split at init
  · cases init
    cases start
    exact .inl h.cwd
  simp only [fileTableGet] at init
  split at init
  · cases init
  split at init
  · cases init
    rename_i bound valid
    exact .inr (.inl ⟨fd.toNat, by omega, valid, start⟩)
  · cases init

/-! ## Calls -/

/-- The directory and the name in it that a path leads to with `ND_PARENT`. -/
def Vfs.lookupParent (v : Vfs) (env : VfsEnv) (path : List (BitVec 8)) : Option (Nat × List (BitVec 8)) :=
  match v.nameidataInit atFdcwd path false with
  | .error _ => none
  | .ok nd =>
    match v.pathLookup env { nd with wantParent := true } with
    | some (0, nd, _) => nd.parent.map fun parent => (parent, nd.name)
    | _ => none

theorem Vfs.lookupParent_of (init : v.nameidataInit atFdcwd path false = .ok nd)
    (call : v.pathLookup env { nd with wantParent := true } = some (0, nd', v'))
    (found : nd'.parent = some parent) : v.lookupParent env path = some (parent, nd'.name) := by
  simp only [lookupParent, init, call, found, map_some]

/-- The name stands for the entry `d` of a directory. -/
structure Vfs.Holds (v : Vfs) (parent : Nat) (name : List (BitVec 8)) (dir : VfsInode) (d : Nat) : Prop where
  live : v.objects parent = some dir
  isDir : dir.isDir
  found : direntLookup dir.toDir (bkdrHash name) = some d

/-- A directory does not have the name. -/
structure Vfs.Vacant (v : Vfs) (parent : Nat) (name : List (BitVec 8)) (dir : VfsInode) : Prop where
  live : v.objects parent = some dir
  isDir : dir.isDir
  absent : direntLookup dir.toDir (bkdrHash name) = none

theorem Vfs.entry_of (live : v.objects parent = some dir)
    (lookup : v.inodeLookup (some parent) name = some (.ok (some d))) : v.Holds parent name dir d := by
  obtain ⟨dir', live', isDir, found⟩ := inodeLookup_ok lookup
  cases live.symm.trans live'
  exact ⟨live, isDir, found⟩

theorem Vfs.Holds.member (entry : v.Holds parent name dir d) (h : v.Tied off) : d ∈ dir.list :=
  (h.dent entry.live entry.isDir entry.found).1

theorem Vfs.Holds.named (entry : v.Holds parent name dir d) (h : v.Tied off) :
    (dir.dents d).ino ∈ v.names parent :=
  (h.dent entry.live entry.isDir entry.found).2

/-- The same references, descriptors and released inodes. -/
structure Vfs.SameRefs (v v' : Vfs) : Prop where
  refs : ∀ o, (v'.objects o).map ref = (v.objects o).map ref
  table : v'.fTable = v.fTable
  released : v'.releaseList = v.releaseList

theorem Vfs.SameRefs.refl (v : Vfs) : v.SameRefs v := ⟨fun _ => rfl, rfl, rfl⟩

theorem Vfs.SameRefs.trans {v'' : Vfs} (h : v.SameRefs v') (h' : v'.SameRefs v'') : v.SameRefs v'' :=
  ⟨fun o => (h'.refs o).trans (h.refs o), h'.table.trans h.table, h'.released.trans h.released⟩

theorem Vfs.SameRefs.set {i' : VfsInode} (live : v.objects o = some i) (dirs : DirStorage)
    (ref : i'.ref = i.ref) : v.SameRefs ({ v with dirs }.setObject o i') := by
  refine ⟨fun p => ?_, rfl, rfl⟩
  by_cases e : p = o
  · subst e
    simp [setObject, live, ref]
  · simp [setObject, e]

/-- An inode without links is released, and the cache may forget it. -/
theorem Vfs.Tied.release (h : v.Tied off) (live : v.objects o = some i) (gone : i.iLink = 0)
    (table : Nat → Option Nat) (kept : ∀ x, x ≠ i.iNo → table x = v.inodeTable x) :
    Tied { v.inodeRelease o with inodeTable := table } off := by
  refine ⟨h.fresh, h.maps, h.small, h.used, h.unique, h.indexed, ?_, h.dirs, h.files, h.named, h.root,
    h.cwd, ?_⟩
  · intro p j hp linked
    refine (kept _ fun same => ?_).trans (h.cached p j hp linked)
    obtain rfl := h.unique p o j i hp live same
    cases (show v.objects p = some j from hp).symm.trans live
    exact linked gone
  intro p hp
  obtain rfl | hp := mem_cons.mp hp
  · refine ⟨h.known live, fun j hj => ?_⟩
    cases (show v.objects p = some j from hj).symm.trans live
    exact gone
  · exact h.released p hp

/-- What `slotfs_unlink` does: nothing, or it removes an entry, takes a link from the file and
may release it. -/
inductive Vfs.Unlinks (v : Vfs) (env : VfsEnv) (path : List (BitVec 8)) : Vfs → Prop
  | refused : Unlinks v env path v
  | removed {parent d o : Nat} {name : List (BitVec 8)} {dir i i1 : VfsInode} {v1 v' : Vfs}
      (lookup : v.lookupParent env path = some (parent, name)) (entry : v.Holds parent name dir d)
      (live : v.objects o = some i) (file : ¬ i.isDir) (number : i.iNo = (dir.dents d).ino)
      (remove : v.dirRemoveEntry env parent d = some v1) (left : v1.objects o = some i1)
      (ended : v' = v1.setObject o { i1 with iLink := sub64 i1.iLink 1 } ∨
        v' = (v1.setObject o { i1 with iLink := sub64 i1.iLink 1 }).inodeRelease o ∧
          i1.ref = 0 ∧ sub64 i1.iLink 1 = 0) : Unlinks v env path v'

section
variable (h : v.Tied off) (kept : v.Kept)
include h kept

theorem Vfs.Tied.unlinks (env : VfsEnv) (path : List (BitVec 8)) :
    Ends (v.slotfsUnlink env path) fun r => r.2.freed = v.freed → v.Unlinks env path r.2 := by
  unfold slotfsUnlink
  split
  · exact .some fun _ => .refused
  rename_i nd init
  apply Ends.bind
  rintro ⟨ret, nd', v'⟩ call
  have start := h.start init
  obtain ⟨rfl, _⟩ := h.lookup kept (found_leads _) call start
  dsimp only
  split
  · exact .some fun _ => .refused
  rename_i success
  obtain rfl : ret = 0 := not_not.mp success
  apply Ends.bind
  intro parent hparent
  apply Ends.bind
  intro dir live
  apply Ends.bind
  intro r lookup
  match r, lookup with
  | .error _, _ => exact .none
  | .ok none, _ => exact .some fun _ => .refused
  | .ok (some d), lookup =>
    have entry := entry_of live lookup
    obtain ⟨o, i, get, _, hi, number⟩ := h.iget kept env (entry.named h)
    dsimp only
    rw [get]
    apply Ends.bind
    intro i' hi'
    cases hi.symm.trans hi'
    split
    · exact .some fun same => absurd same (List.cons_ne_self _ _)
    rename_i file
    apply Ends.bind
    intro v1 remove
    apply Ends.bind
    intro i1 left
    refine .some fun _ => .removed (lookupParent_of init call hparent) entry hi file number remove left ?_
    split
    · rename_i last
      exact .inr ⟨rfl, last⟩
    · exact .inl rfl

/-- An entry is removed and the inode that it named has one link less. -/
theorem Vfs.Tied.unlinked {i1 : VfsInode} {v1 : Vfs} (live : v.objects parent = some dir) (isDir : dir.isDir)
    (member : d ∈ dir.list) (hi : v.objects o = some i) (file : ¬ i.isDir) (number : i.iNo = (dir.dents d).ino)
    (remove : v.dirRemoveEntry env parent d = some v1) (hi1 : v1.objects o = some i1) :
    (v1.setObject o { i1 with iLink := sub64 i1.iLink 1 }).Tied off ∧
      v.SameRefs (v1.setObject o { i1 with iLink := sub64 i1.iLink 1 }) := by
  have tied := h.remove live isDir member remove
  obtain ⟨dir', dirs, eq, _⟩ := dirRemoveEntry_spec live (h.indexed parent dir live isDir) remove
  have apart : o ≠ parent := by
    rintro rfl
    cases live.symm.trans hi
    exact file isDir
  have same : v1.objects o = some i := by
    rw [eq]
    exact (update_of_ne apart _ _).trans hi
  cases hi1.symm.trans same
  have linked : i.iLink ≠ 0 := by
    refine kept parent i.iNo ?_ o i hi rfl
    rw [number, names_of live, VfsInode.names, if_pos isDir]
    exact mem_map_of_mem member
  obtain ⟨le, _⟩ := tied.files o i hi1 file
  have less : sub64 i.iLink 1 = i.iLink - 1 := sub64_of_le (by omega) (by omega)
  refine ⟨?_, ?_⟩
  · refine (tied.setFile hi1 { i with iLink := sub64 i.iLink 1 } (v1.setObject o _)
      ⟨rfl, rfl, rfl, rfl, rfl, rfl⟩ rfl rfl rfl ?_ fun dir => absurd dir file).of_eq fun x => ?_
    · dsimp only
      omega
    · dsimp only
      split <;> omega
  have removed : v.SameRefs v1 := by
    rw [eq]
    exact .set live dirs rfl
  exact removed.trans (.set hi1 v1.dirs rfl)

theorem Vfs.Tied.unlink (env : VfsEnv) (path : List (BitVec 8)) :
    Ends (v.slotfsUnlink env path) fun r => r.2.freed = v.freed → r.2.Tied off ∧ ∃ v', v.SameRefs v' ∧
      (r.2 = v' ∨ ∃ o i, r.2 = v'.inodeRelease o ∧ v'.objects o = some i ∧ i.ref = 0) := by
  rintro ⟨ret, w⟩ call spares
  have unlinks : v.Unlinks env path w := h.unlinks kept env path _ call spares
  cases unlinks with
  | refused => exact ⟨h, v, .refl v, .inl rfl⟩
  | @removed parent d o name dir i i1 v1 _ lookup entry live file number remove left ended =>
    obtain ⟨tied, same⟩ :=
      h.unlinked kept entry.live entry.isDir (entry.member h) live file number remove left
    obtain eq | ⟨eq, ref, last⟩ := ended
    · exact ⟨eq ▸ tied, _, same, .inl eq⟩
    · have own : (v1.setObject o { i1 with iLink := sub64 i1.iLink 1 }).objects o =
          some { i1 with iLink := sub64 i1.iLink 1 } := update_self ..
      exact ⟨eq ▸ tied.release own last _ fun _ _ => rfl, _, same, .inr ⟨o, _, eq, own, ref⟩⟩

end

/-- An entry stays where it is when another one is made. -/
theorem Vfs.dirAppendEntry_still {newDir oldDir c : Nat} {inode : VfsInode} {v1 : Vfs}
    (live : v.objects newDir = some inode) (isDir : inode.isDir) (indexed : inode.toDir.Indexed)
    (absent : direntLookup inode.toDir (bkdrHash name) = none) (old : v.objects oldDir = some dir)
    (oldIsDir : dir.isDir) (member : d ∈ dir.list)
    (append : v.dirAppendEntry env newDir entry name = some (.ok c, entry', v1)) :
    ∃ j, v1.objects oldDir = some j ∧ j.isDir ∧ d ∈ j.list ∧ j.dents d = dir.dents d := by
  obtain ⟨dir', dirs, rfl, _, _, ⟨_, ghost, _, entered⟩ | ⟨bad, _⟩⟩ :=
    dirAppendEntry_spec live indexed absent append
  · by_cases e : oldDir = newDir
    · subst e
      cases live.symm.trans old
      refine ⟨_, update_self .., isDir, ?_, ?_⟩
      · exact entered.list ▸ mem_append_left _ member
      rw [entered.dents]
      apply update_of_ne
      rintro rfl
      exact entered.new member
    · exact ⟨dir, (update_of_ne e _ _).trans old, oldIsDir, member, rfl⟩
  · cases bad

/-- An entry for the inode of `d` is put into a directory, which may be that of `d`. -/
theorem Vfs.Tied.moved (h : v.Tied off) {env : VfsEnv} {newDir oldDir d : Nat} {dir inode : VfsInode}
    {entry entry' : EntryInode} {name : List (BitVec 8)} {r : Except Int Nat} {v1 : Vfs}
    (live : v.objects newDir = some inode) (isDir : inode.isDir)
    (absent : direntLookup inode.toDir (bkdrHash name) = none) (old : v.objects oldDir = some dir)
    (oldIsDir : dir.isDir) (member : d ∈ dir.list) (number : entry.iNo = (dir.dents d).ino)
    (append : v.dirAppendEntry env newDir entry name = some (r, entry', v1)) :
    v.SameRefs v1 ∧ (r = .error enomem ∧ v1.Tied off ∨
      ∃ c, r = .ok c ∧ Ends (v1.dirRemoveEntry env oldDir d) fun v' =>
        v'.Tied off ∧ v.SameRefs v') := by
  have named : (dir.dents d).ino ∈ v.names oldDir := by
    rw [names_of old, VfsInode.names, if_pos oldIsDir]
    exact mem_map_of_mem member
  have indexed := h.indexed newDir inode live isDir
  obtain ⟨dir', dirs, eq, _⟩ := dirAppendEntry_spec live indexed absent append
  have same : v.SameRefs v1 := by
    rw [eq]
    exact .set live dirs rfl
  refine ⟨same, ?_⟩
  obtain ⟨c, rfl, tied⟩ | ⟨rfl, tied⟩ :=
    h.append live isDir absent (number ▸ h.named oldDir _ named) append
  · refine .inr ⟨c, rfl, fun v' remove => ?_⟩
    obtain ⟨j, hj, jDir, jMember, dents⟩ :=
      dirAppendEntry_still live isDir indexed absent old oldIsDir member append
    refine ⟨(tied.remove hj jDir jMember remove).of_eq fun x => ?_, ?_⟩
    · rw [dents]
      omega
    obtain ⟨dir2, dirs2, eq2, _⟩ :=
      dirRemoveEntry_spec hj (tied.indexed oldDir j hj jDir) remove
    rw [eq2]
    exact same.trans (.set hj dirs2 rfl)
  · exact .inl ⟨rfl, tied⟩

/-- What `slotfs_rename` does: nothing, or it puts an entry into the new directory and, if
there was memory for it, removes the old one. -/
inductive Vfs.Renames (v : Vfs) (env : VfsEnv) (oldpath newpath : List (BitVec 8)) : Vfs → Prop
  | refused : Renames v env oldpath newpath v
  | moved {oldDir newDir d : Nat} {oldName newName : List (BitVec 8)} {dir inode : VfsInode}
      {entry' : EntryInode} {r : Except Int Nat} {v1 v' : Vfs}
      (old : v.lookupParent env oldpath = some (oldDir, oldName)) (entry : v.Holds oldDir oldName dir d)
      (new : v.lookupParent env newpath = some (newDir, newName)) (vacant : v.Vacant newDir newName inode)
      (append : v.dirAppendEntry env newDir ⟨(dir.dents d).ino, env.stackTs, 0⟩ newName = some (r, entry', v1))
      (ended : (∃ e, r = .error e) ∧ v' = v1 ∨ (∃ c, r = .ok c) ∧ v1.dirRemoveEntry env oldDir d = some v') :
      Renames v env oldpath newpath v'

section
variable (h : v.Tied off)
include h

theorem Vfs.Tied.renames (kept : v.Kept) (env : VfsEnv) (oldpath newpath : List (BitVec 8)) :
    Ends (v.slotfsRename env oldpath newpath) fun r => v.Renames env oldpath newpath r.2 := by
  unfold slotfsRename
  split
  · exact .some .refused
  rename_i old oldInit
  apply Ends.bind
  rintro ⟨ret, old', v'⟩ oldCall
  have start := h.start oldInit
  obtain ⟨rfl, _⟩ := h.lookup kept (found_leads _) oldCall start
  dsimp only
  split
  · exact .some .refused
  rename_i success
  obtain rfl : ret = 0 := not_not.mp success
  apply Ends.bind
  intro oldDir hold
  apply Ends.bind
  intro _ _
  split
  · exact .some .refused
  rename_i new newInit
  apply Ends.bind
  rintro ⟨ret, new', v'⟩ newCall
  have start := h.start newInit
  obtain ⟨rfl, _⟩ := h.lookup kept (found_leads _) newCall start
  split
  · exact .some .refused
  rename_i success
  obtain rfl : ret = 0 := not_not.mp success
  apply Ends.bind
  intro newDir hnew
  split
  · exact .some .refused
  apply Ends.bind
  intro dir oldLive
  apply Ends.bind
  intro r oldLookup
  split
  · exact .some .refused
  apply Ends.bind
  intro r' newLookup
  match r', newLookup with
  | .error _, _ => exact .some .refused
  | .ok (some _), _ => exact .some .refused
  | .ok none, newLookup =>
    dsimp only
    split
    · have entry := entry_of oldLive oldLookup
      obtain ⟨inode, live, isDir, absent⟩ := inodeLookup_ok newLookup
      apply Ends.bind
      rintro ⟨r, entry', v1⟩ append
      have oldFound := lookupParent_of oldInit oldCall hold
      have newFound := lookupParent_of newInit newCall hnew
      have vacant : Vacant _ newDir new'.name inode := ⟨live, isDir, absent⟩
      match r, append with
      | .error e, append =>
        exact .some (.moved oldFound entry newFound vacant append (.inl ⟨⟨e, rfl⟩, rfl⟩))
      | .ok c, append =>
        apply Ends.map
        intro w remove
        exact .moved oldFound entry newFound vacant append (.inr ⟨⟨c, rfl⟩, remove⟩)
    · exact .none

theorem Vfs.Tied.rename (kept : v.Kept) (env : VfsEnv) (oldpath newpath : List (BitVec 8)) :
    Ends (v.slotfsRename env oldpath newpath) fun r => r.2.Tied off ∧ v.SameRefs r.2 := by
  rintro ⟨ret, w⟩ call
  have renames : v.Renames env oldpath newpath w := h.renames kept env oldpath newpath _ call
  cases renames with
  | refused => exact ⟨h, .refl v⟩
  | moved _ entry _ vacant append ended =>
    obtain ⟨same, ⟨rfl, tied⟩ | ⟨c, rfl, removes⟩⟩ :=
      h.moved vacant.live vacant.isDir vacant.absent entry.live entry.isDir (entry.member h) rfl append
    · obtain ⟨_, eq⟩ | ⟨⟨_, bad⟩, _⟩ := ended
      · exact eq ▸ ⟨tied, same⟩
      · cases bad
    · obtain ⟨⟨_, bad⟩, _⟩ | ⟨_, remove⟩ := ended
      · cases bad
      · exact removes w remove

theorem Vfs.Tied.start_root {nofollow : Bool} (init : v.nameidataInit atFdcwd path nofollow = .ok nd) :
    ∀ o, nd.start = some o → o = v.root := by
  intro o start
  simp only [nameidataInit] at init
  split at init
  · cases init
    cases start
    rfl
  · cases init
    cases start
    exact h.cwd

theorem Vfs.Tied.named_of_found (kept : v.Kept)
    (found : o = v.root ∨ ∃ p x, x ∈ v.names p ∧ v.inodeTable x = some o) (live : v.objects o = some i)
    (file : ¬ i.isDir) : ∃ p, i.iNo ∈ v.names p := by
  obtain rfl | ⟨p, x, hx, table⟩ := found
  · obtain ⟨root, rootLive, rootIsDir⟩ := h.root
    cases live.symm.trans rootLive
    exact absurd rootIsDir file
  obtain ⟨q, j, table', hj, same, _⟩ := h.found kept hx
  cases table.symm.trans table'
  cases live.symm.trans hj
  exact ⟨p, same ▸ hx⟩

end

/-- What `slotfs_link` does: nothing, or it puts an entry for a file that has a name into a
directory. -/
inductive Vfs.Links (v : Vfs) (env : VfsEnv) : Vfs → Prop
  | refused : Links v env v
  | linked {o p parent : Nat} {name : List (BitVec 8)} {i dir : VfsInode} {entry' : EntryInode}
      {r : Except Int Nat} {v1 v' : Vfs} (live : v.objects o = some i) (file : ¬ i.isDir)
      (named : i.iNo ∈ v.names p) (vacant : v.Vacant parent name dir)
      (append : v.dirAppendEntry env parent ⟨i.iNo, i.ts, i.entryNum⟩ name = some (r, entry', v1))
      (ended : (∃ e, r = .error e) ∧ v' = v1 ∨
        (∃ c, r = .ok c) ∧ v' = v1.setObject o { i with entryNum := entry'.entryNum }) : Links v env v'

theorem Vfs.Tied.links (h : v.Tied off) (kept : v.Kept) (env : VfsEnv) (target link : List (BitVec 8)) :
    Ends (v.slotfsLink env target link) fun r => v.Links env r.2 := by
  have leads : v.Leads fun o => o = v.root ∨ ∃ p x, x ∈ v.names p ∧ v.inodeTable x = some o :=
    ⟨.inl rfl, fun p x _ hx table => .inr ⟨p, x, hx, table⟩⟩
  unfold slotfsLink
  split
  · exact .some .refused
  rename_i nd init
  apply Ends.bind
  rintro ⟨ret, nd', v'⟩ call
  obtain ⟨rfl, found⟩ := h.lookup kept leads call fun o hs => .inl (h.start_root init o hs)
  dsimp only
  split
  · exact .some .refused
  apply Ends.bind
  intro o current
  apply Ends.bind
  intro i live
  split
  · exact .some .refused
  rename_i file
  split
  · exact .some .refused
  rename_i new newInit
  apply Ends.bind
  rintro ⟨ret, new', v'⟩ newCall
  have start := h.start newInit
  obtain ⟨rfl, _⟩ := h.lookup kept (found_leads _) newCall start
  split
  · exact .some .refused
  apply Ends.bind
  intro parent _
  apply Ends.bind
  intro r lookup
  match r, lookup with
  | .error _, _ => exact .some .refused
  | .ok (some _), _ => exact .some .refused
  | .ok none, lookup =>
    obtain ⟨dir, dirLive, isDir, absent⟩ := inodeLookup_ok lookup
    obtain ⟨p, named⟩ := h.named_of_found kept (found o current) live file
    apply Ends.bind
    intro i' live'
    cases live.symm.trans live'
    apply Ends.bind
    rintro ⟨r, entry', v1⟩ append
    match r, append with
    | .error e, append =>
      exact .some (.linked live file named ⟨dirLive, isDir, absent⟩ append (.inl ⟨⟨e, rfl⟩, rfl⟩))
    | .ok c, append =>
      exact .some (.linked live file named ⟨dirLive, isDir, absent⟩ append (.inr ⟨⟨c, rfl⟩, rfl⟩))

theorem Vfs.Tied.setRef (h : v.Tied off) (live : v.objects o = some i) (ref : Nat) :
    (v.setObject o { i with ref }).Tied off := by
  refine (h.setFile live { i with ref } (v.setObject o _) ⟨rfl, rfl, rfl, rfl, rfl, rfl⟩ rfl rfl rfl le_rfl
    fun _ => rfl).of_eq fun x => ?_
  simp

/-- A descriptor is given back. -/
structure Vfs.Closed (v : Vfs) (fd o : Nat) (i : VfsInode) (v' : Vfs) : Prop where
  bound : fd < fdMax
  file : (v.fTable fd).valid ∧ (v.fTable fd).file = some o
  live : v.objects o = some i
  objects : v'.objects =
    update v.objects o (some { i with ref := refDec i.ref })
  table : v'.fTable = update v.fTable fd ⟨false, none⟩
  released : v'.releaseList = v.releaseList ∨
    refDec i.ref = 0 ∧ v'.releaseList = o :: v.releaseList

theorem Vfs.Tied.close (h : v.Tied off) (fd : Int) :
    Ends (v.slotfsClose fd) fun r => r.2.Tied off ∧ (r.2 = v ∨ ∃ o i, v.Closed fd.toNat o i r.2) := by
  unfold slotfsClose
  split
  · exact .none
  have bound : fd.toNat < fdMax := by omega
  split
  · exact .some ⟨h, .inl rfl⟩
  rename_i o file
  split
  · rename_i valid
    apply Ends.bind
    intro i live
    apply Ends.some
    have tied := h.setRef live (refDec i.ref)
    have own : (v.setObject o { i with ref := refDec i.ref }).objects o =
        some { i with ref := refDec i.ref } := update_self ..
    split
    · rename_i last
      refine ⟨?_, .inr ⟨o, i, bound, ⟨valid, file⟩, live, rfl, rfl, .inr ⟨last.1, rfl⟩⟩⟩
      have released := tied.release own last.2 (update v.inodeTable i.iNo none)
        fun x other => update_of_ne other _ _
      exact released.congr ⟨rfl, rfl, rfl, rfl, rfl, rfl⟩ rfl
    split
    · exact ⟨tied.congr ⟨rfl, rfl, rfl, rfl, rfl, rfl⟩ rfl,
        .inr ⟨o, i, bound, ⟨valid, file⟩, live, rfl, rfl, .inl rfl⟩⟩
    · exact ⟨tied.congr ⟨rfl, rfl, rfl, rfl, rfl, rfl⟩ rfl,
        .inr ⟨o, i, bound, ⟨valid, file⟩, live, rfl, rfl, .inl rfl⟩⟩
  · exact .some ⟨h, .inl rfl⟩

theorem Vfs.Tied.thread (h : v.Tied off) (kept : v.Kept) :
    Ends v.releaseThread fun v' => v'.Tied off ∧ (v' = v ∨ ∃ o, v.releaseList = o :: v'.releaseList ∧
      v'.objects = update v.objects o none ∧ v'.fTable = v.fTable) := by
  unfold releaseThread
  split
  · exact .some ⟨h, .inl rfl⟩
  rename_i o rest list
  apply Ends.bind
  intro i live
  split
  · exact .none
  · apply Ends.some
    refine ⟨?_, .inr ⟨o, list, rfl, rfl⟩⟩
    exact h.drop kept live list rfl rfl rfl rfl ⟨rfl, rfl⟩ rfl

/-- A new object has been entered into a directory. -/
structure Vfs.Created (v : Vfs) (o : Nat) (i : VfsInode) (v' : Vfs) : Prop where
  new : o = v.arena.asked
  live : v'.objects o = some i
  others : ∀ p, p ≠ o → (v'.objects p).map ref = (v.objects p).map ref
  table : v'.fTable = v.fTable
  released : v'.releaseList = v.releaseList

theorem Vfs.initGhostSlot_eq (v : Vfs) (env : VfsEnv) (mode : Nat) :
    ∃ ghost dirs, v.initGhostSlot env mode = (ghost, { v with dirs }) := by
  unfold initGhostSlot
  split
  · exact ⟨_, _, rfl⟩
  · exact ⟨_, _, rfl⟩

/-- `dir_append_entry` does not look at the cache. -/
theorem Vfs.dirAppendEntry_install (call : v.dirAppendEntry env parent entry name = some (r, entry', v'))
    (ino o : Nat) :
    (v.icacheInstall ino o).dirAppendEntry env parent entry name = some (r, entry', v'.icacheInstall ino o) := by
  obtain ⟨inode, live, eq⟩ := bind_eq_some_iff.mp call
  cases eq
  exact bind_eq_some_iff.mpr ⟨inode, live, rfl⟩

/-- The object `i` has been made and flushed in `w`, and is entered into a directory. -/
theorem Vfs.Tied.entered (h : v.Tied off) {env : VfsEnv} {parent mode ino d : Nat} {dir : VfsInode}
    {name : List (BitVec 8)} {cpu : Nat} {inodes : Maps} {dirs : DirStorage} {ghost : Int} {entry : EntryInode}
    {w w' : Vfs} (live : v.objects parent = some dir) (isDir : dir.isDir)
    (absent : direntLookup dir.toDir (bkdrHash name) = none)
    (alloc : doSlotAlloc v.inodes cpu = ((ino : Int), inodes)) (made : w = inodeFlush (setObject
      { v with inodes, dirs, arena := { v.arena with asked := v.arena.asked + 1 } }
      v.arena.asked (newVfsInode env ino mode ghost)) (newVfsInode env ino mode ghost))
    (append : w.dirAppendEntry env parent ⟨ino, 0, 0⟩ name = some (.ok d, entry, w')) :
    ∃ i, v.Created v.arena.asked i
        (w'.setObject v.arena.asked { newVfsInode env ino mode ghost with entryNum := entry.entryNum }) ∧
      i.ref = 0 ∧ ((w'.setObject v.arena.asked
        { newVfsInode env ino mode ghost with entryNum := entry.entryNum }).icacheInstall i.iNo
          v.arena.asked).Tied fun x => if x = i.iNo then 0 else off x := by
  have apart : parent ≠ v.arena.asked := (h.known live).ne
  have still : w.objects parent = some dir := by
    rw [made]
    exact (update_of_ne apart _ _).trans live
  have own : w.objects v.arena.asked = some (newVfsInode env ino mode ghost) := by
    rw [made]
    exact update_self ..
  have born : (w.icacheInstall ino v.arena.asked).Tied fun x => if x = ino then -1 else off x := by
    rw [made]
    exact h.birth alloc rfl rfl rfl ⟨rfl, rfl, rfl⟩ rfl rfl rfl rfl
  have installed := dirAppendEntry_install append ino v.arena.asked
  obtain ⟨_, _, tied⟩ | ⟨bad, _⟩ := born.append still isDir absent ⟨_, _, own, rfl⟩ installed
  · obtain ⟨dir', dirs', eq, _⟩ :=
      dirAppendEntry_spec still (h.indexed parent dir live isDir) absent append
    have own' : w'.objects v.arena.asked = some (newVfsInode env ino mode ghost) := by
      rw [eq]
      exact (update_of_ne apart.symm _ _).trans own
    refine ⟨_, ⟨rfl, update_self .., fun p hp => ?_, ?_, ?_⟩, rfl, ?_⟩
    · have kept : w.SameRefs w' := by
        rw [eq]
        exact .set still dirs' rfl
      have new : w.objects p = v.objects p := by
        rw [made]
        exact update_of_ne hp _ _
      refine (congrArg _ (update_of_ne hp _ _)).trans ((kept.refs p).trans ?_)
      rw [new]
    · rw [eq, made]
      rfl
    · rw [eq, made]
      rfl
    refine (tied.setFile own' { newVfsInode env ino mode ghost with entryNum := entry.entryNum }
      ((w'.icacheInstall ino v.arena.asked).setObject v.arena.asked _) ⟨rfl, rfl, rfl, rfl, rfl, rfl⟩ rfl
      rfl rfl le_rfl fun _ => rfl).of_eq fun x => ?_
    have number : (newVfsInode env ino mode ghost).iNo = ino := rfl
    by_cases e : x = ino
    · simp [number, e]
    · simp [number, e]
  · cases bad

/-- What a successful `inode_create` does: it takes a number, makes the object `o` and flushes
it, and enters it into the directory. -/
structure Vfs.Creates (v : Vfs) (env : VfsEnv) (parent : Nat) (name : List (BitVec 8)) (mode o ino : Nat)
    (ghost : Int) (w : Vfs) (entry : EntryInode) (v' : Vfs) : Prop where
  new : o = v.arena.asked
  alloc : ∃ inodes dirs, doSlotAlloc v.inodes (env.cpu v.inodes) = ((ino : Int), inodes) ∧
    w = inodeFlush (setObject
      { v with inodes, dirs, arena := { v.arena with asked := v.arena.asked + 1 } }
      o (newVfsInode env ino mode ghost)) (newVfsInode env ino mode ghost)
  append : ∃ d w', w.dirAppendEntry env parent ⟨ino, 0, 0⟩ name = some (.ok d, entry, w') ∧
    v' = w'.setObject o { newVfsInode env ino mode ghost with entryNum := entry.entryNum }

theorem Vfs.creates (call : v.inodeCreate env parent name mode = some (.ok o, v')) :
    ∃ ino ghost w entry, v.Creates env parent name mode o ino ghost w entry v' := by
  unfold inodeCreate at call
  generalize alloc : doSlotAlloc v.inodes (env.cpu v.inodes) = got at call
  obtain ⟨n, inodes⟩ := got
  dsimp only at call
  split at call
  · cases call
  rename_i found
  obtain ⟨ino, rfl⟩ := Int.eq_ofNat_of_zero_le (not_lt.mp found)
  cases granted : v.arena.grants v.arena.asked with
  | false => simp [Arena.alloc, granted] at call
  | true =>
    simp only [Arena.alloc, granted, if_true] at call
    obtain ⟨ghost, dirs, eq⟩ := initGhostSlot_eq
      { v with inodes, arena := { v.arena with asked := v.arena.asked + 1 } } env mode
    rw [eq] at call
    split at call
    · cases call
    obtain ⟨⟨r, entry, w'⟩, append, call⟩ := bind_eq_some_iff.mp call
    cases r with
    | error e => cases call
    | ok d =>
      cases call
      exact ⟨ino, ghost, _, entry, rfl, ⟨inodes, dirs, alloc, rfl⟩, d, w', append, rfl⟩

theorem Vfs.Tied.create (h : v.Tied off) (live : v.objects parent = some dir) (isDir : dir.isDir)
    (absent : direntLookup dir.toDir (bkdrHash name) = none)
    (call : v.inodeCreate env parent name mode = some (.ok o, v')) : ∃ i, v.Created o i v' ∧ i.ref = 0 ∧
      (v'.icacheInstall i.iNo o).Tied fun x => if x = i.iNo then 0 else off x := by
  obtain ⟨ino, ghost, w, entry, rfl, ⟨inodes, dirs, alloc, made⟩, d, w', append, rfl⟩ := creates call
  exact h.entered live isDir absent alloc made append

/-- With `O_CREAT` the path is that of the root or names something. -/
def Vfs.bound (v : Vfs) (env : VfsEnv) (dfd : Int) (path : List (BitVec 8)) (flags : OpenFlags) : Bool :=
  flags.creat &&
    match v.nameidataInit dfd path flags.nofollow with
    | .error _ => false
    | .ok nd =>
      let nd := { nd with wantParent := true, path := nd.path.dropWhile (· = slash) }
      nd.path.isEmpty ||
        match v.pathLookup env nd with
        | some (0, nd, v) =>
          match v.inodeLookup nd.parent nd.name with
          | some (.ok (some _)) => true
          | _ => false
        | _ => false

/-- What `do_slotfs_open` does: it fails, takes a reference to an object that can be found,
takes none where the path is bound, or makes an object. -/
inductive Vfs.Opened (v : Vfs) (bound : Prop) : Except Int Nat → Vfs → Prop
  | failed (e : Int) : Opened v bound (.error e) v
  | took (o : Nat) (i : VfsInode) (found : v.Found o) (live : v.objects o = some i) :
      Opened v bound (.ok o) (v.setObject o { i with ref := refInc i.ref })
  | kept (o : Nat) (was : bound) : Opened v bound (.ok o) v
  | created (o : Nat) (i : VfsInode) (v' : Vfs) (new : v.Created o i v') (ref : i.ref = 1) :
      Opened v bound (.ok o) v'

/-- The same, where an object is made by a call of `inode_create`. -/
inductive Vfs.Opens (v : Vfs) (env : VfsEnv) (mode : Nat) (bound : Prop) : Except Int Nat → Vfs → Prop
  | failed (e : Int) : Opens v env mode bound (.error e) v
  | took (o : Nat) (i : VfsInode) (found : v.Found o) (live : v.objects o = some i) :
      Opens v env mode bound (.ok o) (v.setObject o { i with ref := refInc i.ref })
  | kept (o : Nat) (was : bound) : Opens v env mode bound (.ok o) v
  | created {parent o : Nat} {name : List (BitVec 8)} {dir i : VfsInode} {w : Vfs}
      (vacant : v.Vacant parent name dir) (create : v.inodeCreate env parent name mode = some (.ok o, w))
      (live : w.objects o = some i) :
      Opens v env mode bound (.ok o) ((w.setObject o { i with ref := refInc i.ref }).icacheInstall i.iNo o)

section
variable (h : v.Tied off) (kept : v.Kept)
include h kept

theorem Vfs.Tied.openExisting (env : VfsEnv) (directory : Bool) (mode : Nat) (bound : Prop)
    (start : ∀ o, nd.start = some o → v.Found o) :
    Ends (v.openExisting env nd directory) fun r => v.Opens env mode bound r.1 r.2 := by
  apply Ends.bind
  rintro ⟨ret, nd', v'⟩ call
  obtain ⟨rfl, found⟩ := h.lookup kept (found_leads _) call start
  dsimp only
  split
  · exact .some (.failed ret)
  apply Ends.bind
  intro o current
  apply Ends.bind
  intro i live
  split
  · exact .some (.failed enotdir)
  · exact .some (.took o i (found o current) live)

theorem Vfs.Tied.openCreat (env : VfsEnv) (mode : Nat) {dfd : Int} {flags : OpenFlags} (creat : flags.creat)
    (init : v.nameidataInit dfd path flags.nofollow = .ok nd) :
    Ends (v.openCreat env nd mode) fun r => v.Opens env mode (v.bound env dfd path flags) r.1 r.2 := by
  unfold Vfs.openCreat
  dsimp only
  split
  · rename_i empty
    exact Ends.some (.kept v.root (by simp [bound, creat, init, empty]))
  apply Ends.bind
  rintro ⟨ret, nd', v'⟩ call
  have start := h.start init
  obtain ⟨rfl, _⟩ := h.lookup kept (found_leads _) call start
  dsimp only
  split
  · exact .some (.failed ret)
  rename_i success
  obtain rfl : ret = 0 := not_not.mp success
  apply Ends.bind
  intro parent hparent
  apply Ends.bind
  intro dir live
  apply Ends.bind
  intro r lookup
  match r, lookup with
  | .error _, _ => exact .none
  | .ok (some d), lookup =>
    obtain ⟨o, i, get, _, hi, _⟩ := h.iget kept env ((entry_of live lookup).named h)
    dsimp only
    rw [get]
    apply Ends.map
    intro _ _
    exact .kept o (by simp [bound, creat, init, call, hparent, lookup])
  | .ok none, lookup =>
    obtain ⟨dir', live', isDir, absent⟩ := inodeLookup_ok lookup
    apply Ends.bind
    rintro ⟨r, w⟩ create
    match r, create with
    | .error _, _ => exact .none
    | .ok o, create =>
      apply Ends.bind
      intro i hi
      exact .some (.created ⟨live', isDir, absent⟩ create hi)

theorem Vfs.Tied.doOpen (env : VfsEnv) (dfd : Int) (path : List (BitVec 8)) (flags : OpenFlags) (mode : Nat) :
    Ends (v.doSlotfsOpen env dfd path flags mode) fun r =>
      v.Opens env mode (v.bound env dfd path flags) r.1 r.2 := by
  unfold doSlotfsOpen
  split
  · exact .some (.failed _)
  rename_i nd init
  split
  · rename_i creat
    exact h.openCreat kept env mode creat init
  · exact h.openExisting kept env flags.directory mode _ (h.start init)

end

theorem Vfs.fdAlloc_frame {fd : Option Nat} (alloc : v.fdAlloc = (fd, v')) :
    v.Frame v' ∧ v'.objects = v.objects := by
  simp only [fdAlloc] at alloc
  split at alloc <;> cases alloc <;> exact ⟨⟨rfl, rfl, rfl, rfl, rfl, rfl⟩, rfl⟩

theorem Vfs.Kept.congr (kept : v.Kept) (objects : v'.objects = v.objects) : v'.Kept := by
  have names : v'.names = v.names := by
    funext o
    rw [names, names, objects]
  intro o x hx p i hp
  rw [names] at hx
  rw [objects] at hp
  exact kept o x hx p i hp

/-- The descriptor is marked first, and gets the file in the end. -/
theorem Vfs.Tied.opens (h : v.Tied off) (kept : v.Kept) (env : VfsEnv) (dfd : Int) (path : List (BitVec 8))
    (flags : OpenFlags) (mode : Nat) :
    Ends (v.slotfsOpen env dfd path flags mode) fun r => r.2 = v ∨ ∃ fd v1 s v2, v.fdAlloc = (some fd, v1) ∧
      v1.Opens env mode (v1.bound env dfd path flags) s v2 ∧
        ((∃ e, s = .error e ∧ r.2 = v2) ∨
          ∃ o, s = .ok o ∧ r.2 = { v2 with fTable := update v2.fTable fd ⟨true, some o⟩ }) := by
  unfold slotfsOpen
  generalize alloc : v.fdAlloc = got
  obtain ⟨fd, v1⟩ := got
  obtain ⟨frame, objects⟩ := fdAlloc_frame alloc
  cases fd with
  | none =>
    simp only [fdAlloc] at alloc
    split at alloc <;> cases alloc
    exact .some (.inl rfl)
  | some fd =>
    apply Ends.bind
    rintro ⟨s, v2⟩ call
    have opens := (h.congr frame objects).doOpen (kept.congr objects) env dfd path flags mode _ call
    match s, opens with
    | .error e, opens =>
      exact .some (.inr ⟨fd, v1, .error e, v2, rfl, opens, .inl ⟨e, rfl, rfl⟩⟩)
    | .ok o, opens =>
      exact .some (.inr ⟨fd, v1, .ok o, v2, rfl, opens, .inr ⟨o, rfl, rfl⟩⟩)

/-- An inode that is made has one entry and one link. -/
theorem Vfs.Opens.tied {bound : Prop} (opens : v.Opens env mode bound r v') (h : v.Tied off) :
    v.Opened bound r v' ∧ ∃ off', v'.Tied off' ∧ ∀ x, off' x = off x ∨ off' x = 0 := by
  cases opens with
  | failed e => exact ⟨.failed e, off, h, fun _ => .inl rfl⟩
  | took o i found live => exact ⟨.took o i found live, off, h.setRef live _, fun _ => .inl rfl⟩
  | kept o was => exact ⟨.kept o was, off, h, fun _ => .inl rfl⟩
  | @created parent o name dir i w vacant create live =>
    obtain ⟨i', created, ref, tied⟩ := h.create vacant.live vacant.isDir vacant.absent create
    have same := created.live
    cases live.symm.trans same
    refine ⟨.created o { i with ref := refInc i.ref } _ ⟨created.new, ?_, ?_, created.table, created.released⟩ ?_,
      _, tied.setRef created.live _, fun x => ?_⟩
    · exact update_self ..
    · intro p hp
      exact (congrArg _ (update_of_ne hp _ _)).trans (created.others p hp)
    · rw [ref]
      rfl
    · by_cases e : x = i.iNo
      · exact .inr (if_pos e)
      · exact .inl (if_neg e)

theorem Vfs.Tied.open (h : v.Tied fun _ => 0) (env : VfsEnv) (dfd : Int) (path : List (BitVec 8))
    (flags : OpenFlags) (mode : Nat) : Ends (v.slotfsOpen env dfd path flags mode) fun r => r.2.Tied (fun _ => 0) ∧
      (r.2 = v ∨ ∃ fd v1 s v2, v.fdAlloc = (some fd, v1) ∧ v1.Opened (v1.bound env dfd path flags) s v2 ∧
        ((∃ e, s = .error e ∧ r.2 = v2) ∨
          ∃ o, s = .ok o ∧ r.2 = { v2 with fTable := update v2.fTable fd ⟨true, some o⟩ })) := by
  rintro ⟨ret, w⟩ call
  obtain same | ⟨fd, v1, s, v2, alloc, opens, ended⟩ := h.opens h.kept env dfd path flags mode _ call
  · exact ⟨same ▸ h, .inl same⟩
  obtain ⟨frame, objects⟩ := fdAlloc_frame alloc
  obtain ⟨opened, off', tied, zero⟩ := opens.tied (h.congr frame objects)
  have tied : v2.Tied fun _ => 0 := tied.of_eq fun x => or_self_iff.mp (zero x)
  refine ⟨?_, .inr ⟨fd, v1, s, v2, alloc, opened, ended⟩⟩
  obtain ⟨_, _, eq⟩ | ⟨_, _, eq⟩ := ended
  · exact eq ▸ tied
  · exact eq ▸ tied.congr ⟨rfl, rfl, rfl, rfl, rfl, rfl⟩ rfl

end

end SlotFs
