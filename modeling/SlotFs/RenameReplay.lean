import SlotFs.LockBalance

/-!
# Making a rename again

`journal_replay_rename` finds out how far a rename came from which of its two names there are.
A directory is seen here as what it binds hashes to; that is what recovery brings back of it.
-/

namespace SlotFs
open CWord Locks Function List Option Dir

variable {b : Bindings} {ghost : Int} {ino newIno oldIno : Nat} {inode : EntryInode} {name : List (BitVec 8)}
  {same : Prop}

/-! ## Bindings -/

def Dir.bound (dir : Dir) (hash : Nat) : Option Nat :=
  (direntLookup dir hash).map fun d => (dir.dents d).ino

/-- The log begins with the first entry, or with the ghost slot. -/
def Dir.Headed (dir : Dir) : Prop :=
  dir.logHead = (dir.list.head?.map fun d => (dir.dents d).idx).getD dir.ghostSlot

section
variable {dir dir' : Dir} {d : Nat}

theorem Dir.Ok.headed {s : DirStorage} (h : dir.Ok s) : dir.Headed := by
  have chain := h.slots.chain
  rw [Dir.slots] at chain
  unfold Headed
  cases list : dir.list with
  | nil =>
    rw [list] at chain
    exact chain.nil
  | cons d rest =>
    rw [list] at chain
    exact chain.tail.1

theorem Dir.Headed.removes (headed : dir.Headed) (indexed : dir.Indexed) (member : d ∈ dir.list) (rb : Rbtree)
    (s : DirStorage) : ∃ out, dirRemoveEntry rb s dir d = some out := by
  apply isSome_iff_exists.mp
  obtain ⟨front, back, split⟩ := append_of_mem member
  have before : prevOf dir.list d = front.getLast? := by
    rw [split, prevOf_eq (split ▸ indexed.once)]
  simp only [dirRemoveEntry, isSome_map]
  split
  · rfl
  rename_i later
  have some : front ≠ [] := by
    rintro rfl
    rw [Headed, split] at headed
    exact later headed
  rw [before, isSome_map, List.getLast?_eq_some_getLast some]
  rfl

theorem DirEntered.headed (entered : DirEntered dir inode name d ghost dir') (headed : dir.Headed) :
    dir'.Headed := by
  unfold Headed at headed ⊢
  rw [entered.same.2, headed, entered.list, entered.dents]
  cases list : dir.list with
  | nil => simp
  | cons c rest =>
    have other : c ≠ d := by
      rintro rfl
      exact entered.new (list ▸ mem_cons_self ..)
    simp [other]

theorem Dir.Indexed.bound_iff (indexed : dir.Indexed) {hash : Nat} : dir.bound hash = some ino ↔
    ∃ d ∈ dir.list, (dir.dents d).hash = hash ∧ (dir.dents d).ino = ino := by
  simp only [bound, map_eq_some_iff, indexed.lookup, and_assoc]

theorem Dir.bound_none {hash : Nat} : dir.bound hash = none ↔ direntLookup dir hash = none :=
  map_eq_none_iff

/-- A new entry binds one hash. -/
theorem DirEntered.bound (entered : DirEntered dir inode name d ghost dir') (indexed : dir.Indexed) :
    dir'.bound = update dir.bound (bkdrHash name) (some inode.iNo) := by
  have own : dir'.dents d = ⟨dir.ghostSlot, inode.ts, inode.iNo, bkdrHash name⟩ := by
    rw [entered.dents, update_self]
  have old (c : Nat) (member : c ∈ dir.list) : dir'.dents c = dir.dents c := by
    rw [entered.dents]
    apply update_of_ne
    rintro rfl
    exact entered.new member
  have last : d ∈ dir'.list := by
    rw [entered.list]
    exact mem_append_right _ (mem_singleton_self d)
  have kept {c : Nat} (member : c ∈ dir.list) : c ∈ dir'.list := by
    rw [entered.list]
    exact mem_append_left _ member
  funext hash
  by_cases same : hash = bkdrHash name
  · rw [same, update_self]
    exact entered.indexed.bound_iff.mpr ⟨d, last, by rw [own], by rw [own]⟩
  rw [update_of_ne same]
  refine Option.ext fun ino => ?_
  rw [entered.indexed.bound_iff, indexed.bound_iff]
  constructor
  · rintro ⟨c, member, hash_eq, ino_eq⟩
    rw [entered.list] at member
    rcases mem_append.mp member with inside | new
    · rw [old c inside] at hash_eq ino_eq
      exact ⟨c, inside, hash_eq, ino_eq⟩
    · rw [mem_singleton.mp new, own] at hash_eq
      exact absurd hash_eq.symm same
  · rintro ⟨c, inside, hash_eq, ino_eq⟩
    rw [← old c inside] at hash_eq ino_eq
    exact ⟨c, kept inside, hash_eq, ino_eq⟩

/-- The removal of an entry unbinds its hash. -/
theorem DirErased.bound (erased : DirErased dir d dir') (indexed : dir.Indexed) (member : d ∈ dir.list) :
    dir'.bound = update dir.bound (dir.dents d).hash none := by
  have unique (c : Nat) (inside : c ∈ dir.list) (same : (dir.dents c).hash = (dir.dents d).hash) : c = d :=
    some.inj ((indexed.lookup.mpr ⟨inside, same⟩).symm.trans (indexed.lookup.mpr ⟨member, rfl⟩))
  funext hash
  refine Option.ext fun ino => ?_
  rw [erased.indexed.bound_iff, erased.list, erased.dents]
  by_cases same : hash = (dir.dents d).hash
  · rw [same, update_self]
    refine iff_of_false ?_ (by simp)
    rintro ⟨c, left, hash_eq, _⟩
    rw [unique c (mem_of_mem_erase left) hash_eq] at left
    exact indexed.once.not_mem_erase left
  rw [update_of_ne same, indexed.bound_iff]
  constructor
  · rintro ⟨c, left, found⟩
    exact ⟨c, mem_of_mem_erase left, found⟩
  rintro ⟨c, inside, hash_eq, ino_eq⟩
  have other : c ≠ d := by
    rintro rfl
    exact same hash_eq.symm
  exact ⟨c, (mem_erase_of_ne other).mpr inside, hash_eq, ino_eq⟩

end

/-! ## The steps of a rename -/

/-- What object `o` binds. -/
def Vfs.boundOf (v : Vfs) (o hash : Nat) : Option Nat := (v.objects o).bind fun inode => inode.toDir.bound hash

/-- What two directories bind, which may be one and the same. -/
structure Bindings where
  old : Nat → Option Nat
  new : Nat → Option Nat

def Vfs.bindings (v : Vfs) (o n : Nat) : Bindings := ⟨v.boundOf o, v.boundOf n⟩

/-- A hash has been bound in the new directory. -/
def Bindings.entered (b : Bindings) (same : Prop) [Decidable same] (hash ino : Nat) : Bindings :=
  let new := update b.new hash (some ino)
  ⟨if same then new else b.old, new⟩

/-- A hash has been unbound in the old directory. -/
def Bindings.erased (b : Bindings) (same : Prop) [Decidable same] (hash : Nat) : Bindings :=
  let old := update b.old hash none
  ⟨old, if same then old else b.new⟩

/-- The entries of object `o` are in order. -/
def Vfs.Keeps (v : Vfs) (o : Nat) : Prop :=
  ∃ inode, v.objects o = some inode ∧ inode.toDir.Indexed ∧ inode.toDir.Headed

/-- No object is gone, and the inode table is as it was. -/
structure Vfs.Same (v v' : Vfs) : Prop where
  table : v'.inodeTable = v.inodeTable
  live : ∀ o inode, v.objects o = some inode → ∃ inode', v'.objects o = some inode'

theorem Vfs.Same.trans {v v' v'' : Vfs} (first : v.Same v') (second : v'.Same v'') : v.Same v'' := by
  refine ⟨second.table.trans first.table, fun o inode live => ?_⟩
  obtain ⟨inode', live'⟩ := first.live o inode live
  exact second.live o inode' live'

theorem Vfs.Same.set (v : Vfs) (dirs : DirStorage) (o : Nat) (inode : VfsInode) :
    v.Same ({ v with dirs }.setObject o inode) := by
  refine ⟨rfl, fun x other live => ?_⟩
  by_cases here : x = o
  · rw [here]
    exact ⟨_, update_self ..⟩
  · exact ⟨other, (update_of_ne here ..).trans live⟩

/-- Entry `d` of object `o` stands under `hash`. -/
def Vfs.Entry (v : Vfs) (o d hash : Nat) : Prop :=
  ∃ inode, v.objects o = some inode ∧ d ∈ inode.list ∧ (inode.dents d).hash = hash

section
variable {v v' : Vfs} {env : VfsEnv} {o n d hash : Nat}

theorem Vfs.boundOf_eq {inode : VfsInode} (live : v.objects o = some inode) : v.boundOf o = inode.toDir.bound := by
  funext hash
  rw [boundOf, live, bind_some]

theorem Vfs.boundOf_set {inode : VfsInode} (dirs : DirStorage) (x : Nat) :
    ({ v with dirs }.setObject o inode).boundOf x = if x = o then inode.toDir.bound else v.boundOf x := by
  by_cases here : x = o
  · rw [if_pos here, here]
    exact Vfs.boundOf_eq (update_self ..)
  rw [if_neg here]
  funext hash
  rw [Vfs.boundOf, Vfs.boundOf]
  exact congrArg (fun i => Option.bind i fun inode : VfsInode => inode.toDir.bound hash)
    (update_of_ne here ..)

/-- `dir_append_entry` of a new name. -/
theorem Vfs.Keeps.append (keeps : v.Keeps n) {entry entry' : EntryInode} {name : List (BitVec 8)} {c : Nat}
    (absent : v.boundOf n (bkdrHash name) = none)
    (call : v.dirAppendEntry env n entry name = some (.ok c, entry', v')) :
    v'.bindings o n = (v.bindings o n).entered (o = n) (bkdrHash name) entry.iNo ∧
    v.Same v' ∧ (v.Keeps o → v'.Keeps o) ∧ (v.Entry o d hash → v'.Entry o d hash) := by
  obtain ⟨inode, live, indexed, headed⟩ := keeps
  rw [boundOf_eq live, bound_none] at absent
  obtain ⟨dir, dirs, rfl, number, indexed', result⟩ := dirAppendEntry_spec live indexed absent call
  obtain ⟨_, ghost, eq, entered⟩ | ⟨eq, _⟩ := result
  · cases eq
    have bound := entered.bound indexed
    have here : ({ v with dirs }.setObject n { inode with toDir := dir }).objects n =
        some { inode with toDir := dir } := update_self ..
    have there (other : o ≠ n) : ({ v with dirs }.setObject n { inode with toDir := dir }).objects o =
        v.objects o := update_of_ne other ..
    refine ⟨?_, .set .., fun kept => ?_, fun old => ?_⟩
    · simp only [bindings, Bindings.entered, boundOf_set, if_true, boundOf_eq live, bound]
    · by_cases same : o = n
      · rw [same]
        exact ⟨_, here, indexed', entered.headed headed⟩
      · rw [Keeps, there same]
        exact kept
    by_cases same : o = n
    · obtain ⟨_, live', member, key⟩ := old
      rw [same, live] at live'
      cases live'
      rw [same]
      refine ⟨_, here, ?_, ?_⟩
      · change d ∈ dir.list
        rw [entered.list]
        exact mem_append_left _ member
      change (dir.dents d).hash = hash
      rw [entered.dents, update_of_ne]
      · exact key
      · rintro rfl
        exact entered.new member
    · rw [Entry, there same]
      exact old
  · cases eq

theorem Vfs.dirAppendEntry_room {inode : VfsInode} (live : v.objects n = some inode)
    (room : inode.arena.grants inode.arena.asked = true) (entry : EntryInode) (name : List (BitVec 8)) :
    ∃ c entry' v', v.dirAppendEntry env n entry name = some (.ok c, entry', v') := by
  have least : ¬ (doSlotAlloc v.dirs.dirs (env.cpu v.dirs.dirs)).1 < -1 := not_lt.mpr (doSlotAlloc_ge ..)
  simp only [Vfs.dirAppendEntry, live, bind_eq_bind, bind_some, SlotFs.dirAppendEntry, Arena.alloc,
    room, if_true, least, if_false]
  exact ⟨_, _, _, rfl⟩

/-- `dir_remove_entry` of an entry of the directory. -/
theorem Vfs.Keeps.remove (keeps : v.Keeps o) (env : VfsEnv) (entry : v.Entry o d hash) (n : Nat) :
    ∃ v', v.dirRemoveEntry env o d = some v' ∧
      v'.bindings o n = (v.bindings o n).erased (o = n) hash ∧ v.Same v' := by
  obtain ⟨inode, live, indexed, headed⟩ := keeps
  obtain ⟨_, live', member, key⟩ := entry
  cases live.symm.trans live'
  obtain ⟨⟨dir, dirs⟩, remove⟩ := headed.removes indexed member env.rb v.dirs
  have call : v.dirRemoveEntry env o d = some ({ v with dirs }.setObject o { inode with toDir := dir }) := by
    simp only [Vfs.dirRemoveEntry, live, bind_eq_bind, bind_some, remove]
  have bound := (dirRemoveEntry_erased indexed remove).bound indexed member
  rw [key] at bound
  refine ⟨_, call, ?_, .set ..⟩
  by_cases same : o = n
  · simp only [bindings, Bindings.erased, boundOf_set, ← same, if_true, boundOf_eq live, bound]
  · simp only [bindings, Bindings.erased, boundOf_set, if_true, if_neg (Ne.symm same), if_neg same,
      boundOf_eq live, bound]

/-! ## Replay -/

variable {oldName newName : List (BitVec 8)} {ino : Nat}

theorem Vfs.replay_done {old new : VfsInode} (liveOld : v.objects o = some old)
    (liveNew : v.objects n = some new) (gone : v.boundOf o (bkdrHash oldName) = none)
    (there : v.boundOf n (bkdrHash newName) ≠ none) : v.replayRename env o n oldName newName = some (0, v) := by
  rw [boundOf_eq liveOld, bound_none] at gone
  rw [boundOf_eq liveNew, Ne, bound_none] at there
  obtain ⟨c, found⟩ := ne_none_iff_exists'.mp there
  simp only [replayRename, liveOld, liveNew, bind_eq_bind, bind_some, gone, found]

theorem Vfs.Keeps.entry (keeps : v.Keeps o) (bound : v.boundOf o (bkdrHash name) = some ino) :
    ∃ inode d, v.objects o = some inode ∧ direntLookup inode.toDir (bkdrHash name) = some d ∧
      (inode.dents d).ino = ino ∧ v.Entry o d (bkdrHash name) := by
  obtain ⟨inode, live, indexed, _⟩ := keeps
  rw [boundOf_eq live] at bound
  obtain ⟨d, found, number⟩ := map_eq_some_iff.mp bound
  exact ⟨inode, d, live, found, number, inode, live, indexed.lookup.mp found⟩

/-- Between the two steps the old name is left to be removed. -/
theorem Vfs.Keeps.replay_remove (keepsOld : v.Keeps o) (keepsNew : v.Keeps n)
    (bound : v.boundOf o (bkdrHash oldName) = some ino) (there : v.boundOf n (bkdrHash newName) ≠ none) :
    ∃ v', v.replayRename env o n oldName newName = some (0, v') ∧
      v'.bindings o n = (v.bindings o n).erased (o = n) (bkdrHash oldName) ∧ v.Same v' := by
  obtain ⟨old, d, liveOld, found, _, entry⟩ := keepsOld.entry bound
  obtain ⟨new, liveNew, _, _⟩ := keepsNew
  rw [boundOf_eq liveNew, Ne, bound_none] at there
  obtain ⟨c, twin⟩ := ne_none_iff_exists'.mp there
  obtain ⟨v', remove, after⟩ := keepsOld.remove env entry n
  refine ⟨v', ?_, after⟩
  simp only [replayRename, liveOld, liveNew, bind_eq_bind, bind_some, found, twin, remove,
    map_some]

/-- Before the first step both are left. -/
theorem Vfs.Keeps.replay_append (keepsOld : v.Keeps o) (keepsNew : v.Keeps n)
    (room : ∀ inode, v.objects n = some inode → inode.arena.grants inode.arena.asked = true)
    (bound : v.boundOf o (bkdrHash oldName) = some ino) (absent : v.boundOf n (bkdrHash newName) = none) :
    ∃ v', v.replayRename env o n oldName newName = some (0, v') ∧
      v'.bindings o n =
        ((v.bindings o n).entered (o = n) (bkdrHash newName) ino).erased (o = n) (bkdrHash oldName) ∧
      v.Same v' := by
  obtain ⟨old, d, liveOld, found, rfl, entry⟩ := keepsOld.entry bound
  obtain ⟨new, liveNew, _, _⟩ := id keepsNew
  obtain ⟨c, entry', w, append⟩ := @dirAppendEntry_room v env n new liveNew (room new liveNew)
    ⟨(old.dents d).ino, env.stackTs, 0⟩ newName
  obtain ⟨bindings, same, keeps, entries⟩ := keepsNew.append absent append
  obtain ⟨v', remove, bindings', same'⟩ := (keeps keepsOld).remove env (entries entry) n
  rw [boundOf_eq liveNew, bound_none] at absent
  refine ⟨v', ?_, by rw [bindings', bindings], same.trans same'⟩
  simp only [replayRename, liveOld, liveNew, bind_eq_bind, bind_some, found, absent, append, remove,
    map_some]

end

/-! ## Crash points -/

/-- How far `slotfs_rename` has come with entry `d` of the old directory since it wrote the record. -/
inductive Vfs.RenameStage (v : Vfs) (env : VfsEnv) (a b : Nat) (dir : VfsInode) (d : Nat)
    (newName : List (BitVec 8)) : Vfs → Prop
  | before : RenameStage v env a b dir d newName v
  | between {c : Nat} {entry : EntryInode} {w : Vfs}
      (append : v.dirAppendEntry env b ⟨(dir.dents d).ino, env.stackTs, 0⟩ newName = some (.ok c, entry, w)) :
      RenameStage v env a b dir d newName w
  | after {c : Nat} {entry : EntryInode} {w x : Vfs}
      (append : v.dirAppendEntry env b ⟨(dir.dents d).ino, env.stackTs, 0⟩ newName = some (.ok c, entry, w))
      (remove : w.dirRemoveEntry env a d = some x) : RenameStage v env a b dir d newName x

/-- Objects `o` and `n` are the directories `oldIno` and `newIno`, which may be one. -/
structure Vfs.Pair (v : Vfs) (oldIno newIno o n : Nat) : Prop where
  old : v.Keeps o
  new : v.Keeps n
  same : o = n ↔ oldIno = newIno

/-- The new name is bound to `ino`, the old one is not bound, and all others are bound as before. -/
structure Bindings.Renamed (before after : Bindings) (same : Prop) (old new ino : Nat) : Prop where
  moved : after.new new = some ino
  gone : after.old old = none
  oldOthers : ∀ hash, hash ≠ old → (same → hash ≠ new) → after.old hash = before.old hash
  newOthers : ∀ hash, hash ≠ new → (same → hash ≠ old) → after.new hash = before.new hash

theorem Bindings.entered_bound [Decidable same] {old new : Nat} (one : same → b.old = b.new)
    (bound : b.old old = some ino) (absent : b.new new = none) :
    (b.entered same new ino).old old = some ino ∧ (b.entered same new ino).new new = some ino := by
  refine ⟨?_, update_self ..⟩
  by_cases here : same
  · have other : old ≠ new := by
      rintro rfl
      rw [one here, absent] at bound
      cases bound
    simp only [entered, here, if_true]
    rw [update_of_ne other, ← one here, bound]
  · simp only [entered, here, if_false]
    exact bound

theorem Bindings.renamed [Decidable same] {old new : Nat} (one : same → b.old = b.new)
    (bound : b.old old = some ino) (absent : b.new new = none) :
    b.Renamed ((b.entered same new ino).erased same old) same old new ino := by
  by_cases here : same
  · have other : new ≠ old := by
      rintro rfl
      rw [one here, absent] at bound
      cases bound
    simp only [entered, erased, here, if_true]
    refine ⟨?_, update_self .., fun hash left right => ?_, fun hash left right => ?_⟩
    all_goals dsimp only
    · rw [update_of_ne other, update_self]
    · rw [update_of_ne left, update_of_ne (right trivial), one here]
    · rw [update_of_ne (right trivial), update_of_ne left]
  simp only [entered, erased, here, if_false]
  refine ⟨update_self .., update_self .., fun hash left _ => ?_, fun hash left _ => ?_⟩
  · exact update_of_ne left ..
  · exact update_of_ne left ..

section
variable {v v' w : Vfs} {env : VfsEnv} {a b d ino o : Nat} {dir : VfsInode} {oldName newName : List (BitVec 8)}

theorem Vfs.RenameStage.bindings (stage : v.RenameStage env a b dir d newName w) (old : v.Keeps a)
    (new : v.Keeps b) (live : v.objects a = some dir) (found : direntLookup dir.toDir (bkdrHash oldName) = some d)
    (absent : v.boundOf b (bkdrHash newName) = none) : w.bindings a b = v.bindings a b ∨
    w.bindings a b = (v.bindings a b).entered (a = b) (bkdrHash newName) (dir.dents d).ino ∨
    w.bindings a b = ((v.bindings a b).entered (a = b) (bkdrHash newName) (dir.dents d).ino).erased (a = b)
      (bkdrHash oldName) := by
  obtain ⟨_, live', indexed, _⟩ := id old
  cases live.symm.trans live'
  have entry : v.Entry a d (bkdrHash oldName) := ⟨dir, live, indexed.lookup.mp found⟩
  cases stage with
  | before => exact .inl rfl
  | between append => exact .inr (.inl (@Vfs.Keeps.append _ _ _ a _ d (bkdrHash oldName) new _ _ _ _ absent append).1)
  | after append remove =>
    obtain ⟨bindings, _, keeps, entries⟩ := new.append absent append
    obtain ⟨x, remove', bindings', _⟩ := (keeps old).remove env (entries entry) b
    cases remove.symm.trans remove'
    exact Or.inr (Or.inr (by rw [bindings', bindings]))

theorem Vfs.iget_table {r : Nat} (call : v.iget env ino = (.ok r, v')) :
    v'.inodeTable = update v.inodeTable ino (some r) := by
  unfold Vfs.iget at call
  split at call
  · cases call
    rw [eq_comm, update_eq_self_iff]
    symm
    assumption
  split at call
  · cases call
  · split at call <;> cases call
    rfl

theorem Vfs.iget_cached (cached : v.inodeTable ino = some o) : v.iget env ino = (.ok o, v) := by
  rw [Vfs.iget, cached]

theorem lockedReplayRename_erase {n : Nat} (first : v.iget env oldIno = (.ok o, v'))
    (second : v'.iget env newIno = (.ok n, w)) :
    (lockedReplayRename env oldIno newIno oldName newName).erase v = w.replayRename env o n oldName newName := by
  simp only [lockedReplayRename, lockedIget, Prog.erase_bind, Prog.erase_lock, Prog.erase_look, bind_some, first, second,
    Prog.erase_pure]

/-- What the replay makes of the bindings that each of the crash points leaves. -/
theorem Vfs.Pair.replay {u : Vfs} {n : Nat} (pair : u.Pair oldIno newIno o n)
    (room : ∀ inode, u.objects n = some inode → inode.arena.grants inode.arena.asked = true) {m : Bindings}
    (one : oldIno = newIno → m.old = m.new) (bound : m.old (bkdrHash oldName) = some ino)
    (absent : m.new (bkdrHash newName) = none)
    (maps : u.bindings o n = m ∨ u.bindings o n = m.entered (oldIno = newIno) (bkdrHash newName) ino ∨
      u.bindings o n = (m.entered (oldIno = newIno) (bkdrHash newName) ino).erased (oldIno = newIno)
        (bkdrHash oldName)) : ∃ u', u.replayRename env o n oldName newName = some (0, u') ∧
      u'.bindings o n = (m.entered (oldIno = newIno) (bkdrHash newName) ino).erased (oldIno = newIno)
        (bkdrHash oldName) ∧ u.Same u' := by
  rcases maps with before | between | after
  · have boundOf : u.boundOf o (bkdrHash oldName) = some ino :=
      (congrFun (congrArg Bindings.old before) _).trans bound
    have absentOf : u.boundOf n (bkdrHash newName) = none :=
      (congrFun (congrArg Bindings.new before) _).trans absent
    obtain ⟨u', replay, bindings, same⟩ := pair.old.replay_append pair.new room boundOf absentOf
    simp only [before, pair.same] at bindings
    exact ⟨u', replay, bindings, same⟩
  · obtain ⟨left, right⟩ := Bindings.entered_bound one bound absent
    have boundOf : u.boundOf o (bkdrHash oldName) = some ino :=
      (congrFun (congrArg Bindings.old between) _).trans left
    have thereOf : u.boundOf n (bkdrHash newName) ≠ none := by
      rw [show u.boundOf n _ = _ from (congrFun (congrArg Bindings.new between) _).trans right]
      simp
    obtain ⟨u', replay, bindings, same⟩ := pair.old.replay_remove pair.new boundOf thereOf
    simp only [between, pair.same] at bindings
    exact ⟨u', replay, bindings, same⟩
  obtain ⟨moved, gone, _, _⟩ := Bindings.renamed one bound absent
  obtain ⟨old, liveOld, _⟩ := pair.old
  obtain ⟨new, liveNew, _⟩ := pair.new
  have goneOf : u.boundOf o (bkdrHash oldName) = none :=
    (congrFun (congrArg Bindings.old after) _).trans gone
  have thereOf : u.boundOf n (bkdrHash newName) ≠ none := by
    rw [show u.boundOf n _ = _ from (congrFun (congrArg Bindings.new after) _).trans moved]
    simp
  exact ⟨u, Vfs.replay_done liveOld liveNew goneOf thereOf, after, rfl, fun _ inode live => ⟨inode, live⟩⟩

/-- However far the rename came, its replay completes it, and a second replay changes nothing. -/
theorem rename_replay_completes {u u1 u2 : Vfs} {env' : VfsEnv} {oldIno newIno n : Nat}
    (dirs : v.Pair oldIno newIno a b) (live : v.objects a = some dir)
    (found : direntLookup dir.toDir (bkdrHash oldName) = some d)
    (absent : v.boundOf b (bkdrHash newName) = none) (stage : v.RenameStage env a b dir d newName w)
    (first : u.iget env' oldIno = (.ok o, u1)) (second : u1.iget env' newIno = (.ok n, u2))
    (pair : u2.Pair oldIno newIno o n) (recovered : u2.bindings o n = w.bindings a b)
    (room : ∀ inode, u2.objects n = some inode → inode.arena.grants inode.arena.asked = true) :
    ∃ u', (lockedReplayRename env' oldIno newIno oldName newName).erase u = some (0, u') ∧
      (v.bindings a b).Renamed (u'.bindings o n) (oldIno = newIno) (bkdrHash oldName) (bkdrHash newName)
        (dir.dents d).ino ∧
      ∀ again, (lockedReplayRename again oldIno newIno oldName newName).erase u' = some (0, u') := by
  have bound : v.boundOf a (bkdrHash oldName) = some (dir.dents d).ino := by
    rw [Vfs.boundOf_eq live, bound, found, map_some]
  have one (same : oldIno = newIno) : (v.bindings a b).old = (v.bindings a b).new :=
    congrArg v.boundOf (dirs.same.mpr same)
  have maps := stage.bindings dirs.old dirs.new live found absent
  simp only [← recovered, dirs.same] at maps
  obtain ⟨u', replay, bindings, same⟩ := pair.replay room one bound absent maps
  have target := Bindings.renamed one bound absent
  rw [← bindings] at target
  have tableOld : u2.inodeTable oldIno = some o := by
    rw [Vfs.iget_table second]
    by_cases here : oldIno = newIno
    · rw [← here, update_self, pair.same.mpr here]
    · rw [update_of_ne here, Vfs.iget_table first, update_self]
  have tableNew : u2.inodeTable newIno = some n := by
    rw [Vfs.iget_table second, update_self]
  refine ⟨u', (lockedReplayRename_erase first second).trans replay, target, fun again => ?_⟩
  rw [← same.table] at tableOld tableNew
  rw [lockedReplayRename_erase (Vfs.iget_cached tableOld) (Vfs.iget_cached tableNew)]
  obtain ⟨old, liveOld, _⟩ := pair.old
  obtain ⟨new, liveNew, _⟩ := pair.new
  obtain ⟨_, liveOld'⟩ := same.live o old liveOld
  obtain ⟨_, liveNew'⟩ := same.live n new liveNew
  exact Vfs.replay_done liveOld' liveNew' target.gone (by rw [show u'.boundOf n _ = _ from target.moved]; simp)

end

/-- A directory, inode 1, with the entry `a`. -/
def namedDir : VfsInode :=
  { toDir := (enterName emptyDir 5 97#8).dir, iMode := sIfdir, iLink := 1, ref := 0, ts := 0 }

def namedVfs : Vfs :=
  { mountedVfs with
    dirs := (enterName emptyDir 5 97#8).storage
    objects := fun o => if o = 0 then some namedDir else none
    inodeTable := fun ino => if ino = 1 then some 0 else none }

/-- `a` is to become `b` in the same directory, and nothing has been done yet. -/
theorem rename_replay_completes_before : ∃ u',
    (lockedReplayRename plainVfsEnv 1 1 [97#8] [98#8]).erase namedVfs = some (0, u') ∧
    (namedVfs.bindings 0 0).Renamed (u'.bindings 0 0) ((1 : Nat) = 1) (bkdrHash [97#8]) (bkdrHash [98#8]) 5 ∧
    ∀ again, (lockedReplayRename again 1 1 [97#8] [98#8]).erase u' = some (0, u') := by
  have step : DirStep emptyDir (enterName emptyDir 5 97#8) :=
    enterName_step 5 (by decide +kernel) ⟨[2], nodup_singleton 2, le_rfl, by decide +kernel⟩
  have ok := step.ok emptyDir_empty.ok
  have live : namedVfs.objects 0 = some namedDir := rfl
  have keeps : namedVfs.Keeps 0 := ⟨namedDir, live, ok.indexed, ok.headed⟩
  have pair : namedVfs.Pair 1 1 0 0 := ⟨keeps, keeps, iff_of_true rfl rfl⟩
  have found : direntLookup namedDir.toDir (bkdrHash [97#8]) = some 0 := by decide +kernel
  have absent : namedVfs.boundOf 0 (bkdrHash [98#8]) = none := by decide +kernel
  have get : namedVfs.iget plainVfsEnv 1 = (.ok 0, namedVfs) := Vfs.iget_cached rfl
  have stage : namedVfs.RenameStage plainVfsEnv 0 0 namedDir 0 [98#8] namedVfs := .before
  refine rename_replay_completes pair live found absent stage get get pair rfl fun inode live' => ?_
  cases live'
  rfl

end SlotFs
