import SlotFs.LockBalance

/-!
# Directories before their entries

A lookup asks for an inode while it has the lock of the directory that names it. Where the
directories come before their entries in some order, lookups take their locks in that order, and
so does a rename whose new directory comes before the old one. A link does not: it keeps its
target locked while it looks up the directory that is to name it.
-/

namespace SlotFs
open CWord Locks Relation List Option Vfs VfsInode DataLock LockMark Prog

variable {ino m newDir oldDir parent : Nat} {lt : Nat → Nat → Prop}
  {name newName oldName path : List (BitVec 8)} {nd : Nameidata} {nofollow wantParent : Bool}

/-- The object `o` is there and has the number `n`. -/
def Vfs.Has (v : Vfs) (o n : Nat) : Prop := ∃ inode, v.objects o = some inode ∧ inode.iNo = n

/-- A directory comes before what its entries name. -/
structure VfsInode.Above (lt : Nat → Nat → Prop) (inode : VfsInode) (ino : Nat) : Prop where
  indexed : inode.isDir → inode.toDir.Indexed
  names : ∀ x ∈ inode.names, lt ino x

/-- What `inode_rebuild` and `inode_readlink` return is an error or what is asked for. -/
structure VfsEnv.Sorts (lt : Nat → Nat → Prop) (env : VfsEnv) : Prop where
  rebuild : ∀ ino e, env.rebuild ino = .error e → e ≠ 0
  readlink : ∀ o e, env.readlink o = some (.error e) → e ≠ 0
  above : ∀ ino inode, env.rebuild ino = .ok inode → inode.Above lt ino

/-- The directories that are loaded come before their entries. -/
structure Vfs.Sorted (lt : Nat → Nat → Prop) (v : Vfs) : Prop where
  fresh : ∀ o, v.arena.asked ≤ o → v.objects o = none
  cached : ∀ ino o, v.inodeTable ino = some o → v.Has o ino
  above : ∀ o inode, v.objects o = some inode → inode.Above lt inode.iNo
  root : ∃ n, v.Has v.root n

section
variable {v v' w : Vfs} {env : VfsEnv} {lt : Nat → Nat → Prop} {o n : Nat} {inode : VfsInode}

theorem Vfs.Has.later (h : v.Has o n) (numbers : v.Numbers w) : w.Has o n := by
  obtain ⟨inode, live, rfl⟩ := h
  exact numbers o inode live

theorem Vfs.Has.unique (h : v.Has o n) (h' : v.Has o m) : n = m := by
  obtain ⟨inode, live, rfl⟩ := h
  obtain ⟨inode', live', rfl⟩ := h'
  rw [some.inj (live.symm.trans live')]

/-! ## What the calls do to the directories -/

/-- One object changes, and keeps its number. -/
theorem Vfs.Sorted.set (h : v.Sorted lt) (live : v.objects o = some inode) {inode' : VfsInode}
    (above : inode'.Above lt inode.iNo) (same : inode'.iNo = inode.iNo)
    (objects : v'.objects = Function.update v.objects o (some inode')) (arena : v'.arena = v.arena)
    (table : v'.inodeTable = v.inodeTable) (root : v'.root = v.root) : v'.Sorted lt ∧ v.Numbers v' := by
  have numbers : v.Numbers v' := .set live objects same
  refine ⟨⟨?_, ?_, ?_, ?_⟩, numbers⟩
  · intro p far
    rw [arena] at far
    have other : p ≠ o := by
      rintro rfl
      cases (h.fresh p far).symm.trans live
    rw [objects, Function.update_of_ne other]
    exact h.fresh p far
  · intro ino p cached
    rw [table] at cached
    exact (h.cached ino p cached).later numbers
  · intro p i there
    rcases object_cases objects there with ⟨rfl, rfl⟩ | ⟨_, there⟩
    · rw [same]
      exact above
    · exact h.above p i there
  · obtain ⟨m, top⟩ := h.root
    rw [root]
    exact ⟨m, top.later numbers⟩

theorem Vfs.Sorted.asksOne (h : v.Sorted lt) : v.asksOne.Sorted lt where
  fresh := fun o far => h.fresh o (Nat.le_of_succ_le far)
  cached := h.cached
  above := h.above
  root := h.root

theorem VfsInode.Above.renumber (h : inode.Above lt ino) : Above lt { inode with iNo := ino, ref := 0 } ino := by
  refine ⟨fun isDir => ?_, h.names⟩
  have ⟨same, ordered, once, asked⟩ := h.indexed isDir
  exact ⟨same, ordered, once, asked⟩

section
variable (h : v.Sorted lt)
include h

theorem Vfs.Sorted.numbers_loaded (ino : Nat) (inode : VfsInode) :
    v.Numbers (v.loaded ino inode) := .fresh (h.fresh _ (Nat.le_refl _)) rfl

theorem Vfs.Sorted.loaded (above : inode.Above lt ino) : (v.loaded ino inode).Sorted lt := by
  have numbers := h.numbers_loaded ino inode
  refine ⟨?_, ?_, ?_, ?_⟩
  · intro o far
    have beyond : v.arena.asked < o := far
    rw [loaded_objects_ne (Nat.ne_of_gt beyond)]
    exact h.fresh o (Nat.le_of_lt beyond)
  · intro i o cached
    rcases loaded_table cached with ⟨rfl, rfl⟩ | cached
    · exact ⟨_, loaded_objects_self, rfl⟩
    · exact (h.cached i o cached).later numbers
  · intro o i live
    rcases object_cases rfl live with ⟨rfl, rfl⟩ | ⟨_, live⟩
    · exact above.renumber
    · exact h.above o i live
  · obtain ⟨m, top⟩ := h.root
    exact ⟨m, top.later numbers⟩

theorem Vfs.Sorted.iget (sorts : env.Sorts lt) {r : Except Int Nat} (call : v.iget env ino = (r, v')) :
    v'.Sorted lt ∧ v.Numbers v' ∧
      (∀ o, r = .ok o → v'.Has o ino) ∧ ∀ e, r = .error e → e ≠ 0 := by
  rcases iget_cases call with ⟨o, cached, rfl, rfl⟩ | ⟨e, rfl, cause, rfl⟩ |
    ⟨inode, missing, rebuild, rfl, rfl⟩
  · refine ⟨h, .refl v', ?_, ?_⟩
    · rintro _ ⟨⟩
      exact h.cached ino o cached
    · rintro _ ⟨⟩
  · refine ⟨h.asksOne, .refl v, ?_, ?_⟩
    · rintro _ ⟨⟩
    rintro _ ⟨⟩
    rcases cause with rfl | rebuild
    · decide
    · exact sorts.rebuild ino _ rebuild
  refine ⟨h.loaded (sorts.above ino inode rebuild), h.numbers_loaded ino inode, ?_, ?_⟩
  · rintro _ ⟨⟩
    exact ⟨_, loaded_objects_self, rfl⟩
  · rintro _ ⟨⟩

theorem Vfs.Sorted.entry (has : v.Has o n) {d : Nat × Nat} (entry : v.entry o name = some (some d)) :
    lt n d.2 := by
  obtain ⟨inode, live, rfl⟩ := has
  obtain ⟨_, live', lookup, number⟩ := entry_lookup entry
  cases live.symm.trans live'
  obtain ⟨_, live', isDir, found⟩ := inodeLookup_ok lookup
  cases live.symm.trans live'
  have above := h.above o inode live
  apply above.names
  rw [number d rfl, VfsInode.names, if_pos isDir]
  exact mem_map_of_mem ((above.indexed isDir).present found)

theorem Vfs.Sorted.append {parent : Nat} {entry entry' : EntryInode} {name : List (BitVec 8)}
    {r : Except Int Nat} (absent : v.inodeLookup parent name = some (.ok none)) (has : v.Has parent n)
    (below : lt n entry.iNo) (call : v.dirAppendEntry env parent entry name = some (r, entry', v')) :
    v'.Sorted lt ∧ v.Numbers v' := by
  obtain ⟨inode, live, rfl⟩ := has
  obtain ⟨_, live', isDir, none⟩ := inodeLookup_ok absent
  rw [live] at live'
  cases live'
  have above := h.above parent inode live
  have old (x : Nat) (named : x ∈ inode.inos) : lt inode.iNo x := by
    apply above.names
    rw [VfsInode.names, if_pos isDir]
    exact named
  obtain ⟨dir, dirs, rfl, number, indexed, cases⟩ :=
    dirAppendEntry_spec live (above.indexed isDir) none call
  suffices above' : Above lt { inode with toDir := dir } inode.iNo from
    h.set live above' number rfl rfl rfl rfl
  refine ⟨fun _ => indexed, ?_⟩
  rw [names_dir isDir]
  intro x named
  rcases cases with ⟨d, ghost, _, entered⟩ | ⟨_, list, dents⟩
  · rw [entered.inos, mem_append, mem_singleton] at named
    rcases named with named | rfl
    · exact old x named
    · exact below
  · rw [Dir.inos, list, dents] at named
    exact old x named

theorem Vfs.Sorted.remove {d : Nat} (call : v.dirRemoveEntry env parent d = some v') :
    v'.Sorted lt ∧ v.Numbers v' := by
  obtain ⟨inode, live, call⟩ := bind_eq_some_iff.mp call
  obtain ⟨⟨dir, dirs⟩, remove, eq⟩ := bind_eq_some_iff.mp call
  cases eq
  have above := h.above parent inode live
  have number := dirRemoveEntry_iNo remove
  suffices above' : VfsInode.Above lt { inode with toDir := dir } inode.iNo from
    h.set live above' number rfl rfl rfl rfl
  refine ⟨fun isDir => ?_, ?_⟩
  · exact (dirRemoveEntry_erased (above.indexed isDir) remove).indexed
  intro x named
  by_cases isDir : inode.isDir
  · have erased := dirRemoveEntry_erased (above.indexed isDir) remove
    rw [VfsInode.names_dir isDir, Dir.inos, erased.list, erased.dents] at named
    obtain ⟨c, member, rfl⟩ := mem_map.mp named
    apply above.names
    rw [VfsInode.names, if_pos isDir]
    exact mem_map_of_mem (mem_of_mem_erase member)
  · have none : VfsInode.names { inode with toDir := dir } = [] := if_neg isDir
    rw [none] at named
    cases named

end

theorem VfsInode.Above.relink (h : inode.Above lt ino) (link : Nat) :
    Above lt { inode with iLink := link } ino := ⟨h.indexed, h.names⟩

theorem Vfs.Sorted.removeLink (h : v.Sorted lt) {d : Nat} {u : Unit}
    (call : v.removeLink env o parent d = some (u, v')) : v'.Sorted lt ∧ v.Numbers v' := by
  obtain ⟨w, remove, call⟩ := bind_eq_some_iff.mp call
  obtain ⟨inode, live, call⟩ := bind_eq_some_iff.mp call
  cases call
  obtain ⟨sorted, numbers⟩ := h.remove remove
  have unlinked := (sorted.above o inode live).relink (sub64 inode.iLink 1)
  have set : (w.setObject o { inode with iLink := sub64 inode.iLink 1 }).Sorted lt ∧
      w.Numbers (w.setObject o { inode with iLink := sub64 inode.iLink 1 }) :=
    sorted.set live unlinked rfl rfl rfl rfl rfl
  split
  · exact ⟨⟨set.1.fresh, set.1.cached, set.1.above, set.1.root⟩, numbers.trans set.2⟩
  · exact ⟨set.1, numbers.trans set.2⟩

/-- An entry goes from one directory to another that comes before it, or stays in its own. -/
theorem Vfs.Sorted.moveEntry (h : v.Sorted lt) (trans : ∀ a b c, lt a b → lt b c → lt a c)
    (old : v.Has oldDir m) (new : v.Has newDir n) (order : n = m ∨ lt n m) {ret : Int}
    (call : v.moveEntry env oldDir newDir oldName newName = some (ret, v')) : v'.Sorted lt ∧ v.Numbers v' := by
  obtain rfl | ⟨dir, d, _, _, w, live, lookup, absent, append, ended⟩ := moveEntry_cases call
  · exact ⟨h, .refl v'⟩
  have entry : v.entry oldDir oldName = some (some (d, (dir.dents d).ino)) := by
    simp only [Vfs.entry, live, lookup, bind_eq_bind, bind_some, map_some]
  have below : lt n (dir.dents d).ino := by
    rcases order with rfl | order
    · exact h.entry old entry
    · exact trans _ _ _ order (h.entry old entry)
  obtain ⟨sorted, numbers⟩ := h.append absent new below append
  rcases ended with rfl | remove
  · exact ⟨sorted, numbers⟩
  · exact ⟨(sorted.remove remove).1, numbers.trans (sorted.remove remove).2⟩

end

/-! ## Locks in the order of the inodes -/

def DataLock.Before (lt : Nat → Nat → Prop) : DataLock → DataLock → Prop
  | .inode i, .inode j => lt i j
  | _, _ => False

/-- A rename comes from a directory behind the one that it goes to, no target is linked, and no
directory unlinked. -/
def LockMark.InOrder (lt : Nat → Nat → Prop) : LockMark → Prop
  | .crossing newDir oldDir => lt newDir oldDir
  | .linking _ => False
  | .freeing _ _ => False

def namespaceDiscipline (lt : Nat → Nat → Prop) : Discipline Vfs DataLock LockMark where
  inv := Sorted lt
  le := Numbers
  before := Before lt
  allowed := InOrder lt
  le_refl := .refl
  le_trans := .trans

abbrev VfsSafe {α : Type} (lt : Nat → Nat → Prop) (Q : α → Vfs → List DataLock → Prop) (p : VfsProg α)
    (s : Vfs) (held : List DataLock) : Prop := p.Safe (namespaceDiscipline lt) Q s held

section
variable {α : Type} {lt : Nat → Nat → Prop} {Q : α → Vfs → List DataLock → Prop} {s v : Vfs} {env : VfsEnv}
  {held : List DataLock} {o n : Nat}

/-- A step that only reads. What is known of `v` holds of all later states. -/
theorem read_safe {β : Type} {g : Vfs → Option β} {k : β → VfsProg α} (since : v.Numbers s)
    (next : ∀ b t, g t = some b → v.Numbers t → t.Sorted lt → VfsSafe lt Q (k b) t held) :
    VfsSafe lt Q (look (fun t => (g t).map fun b => (b, t)) >>= k) s held := by
  rw [VfsSafe, safe_bind]
  refine .look fun t later sorted b u eq => ?_
  obtain ⟨_, found, eq⟩ := map_eq_some_iff.mp eq
  cases eq
  exact ⟨sorted, .refl t, next _ t found (since.trans later) sorted⟩

section
variable (since : v.Numbers s)
include since

theorem pointer_safe {p : Option Nat} {k : Nat → VfsProg α}
    (next : ∀ o t, p = some o → v.Numbers t → VfsSafe lt Q (k o) t held) : VfsSafe lt Q (pointer p >>= k) s held :=
  read_safe since fun o t eq later _ => next o t eq later

theorem fetch_safe {k : VfsInode → VfsProg α}
    (next : ∀ inode t, t.objects o = some inode → v.Numbers t → VfsSafe lt Q (k inode) t held) :
    VfsSafe lt Q (fetch o >>= k) s held :=
  read_safe since fun inode t live later _ => next inode t live later

theorem unlock_safe {k : Unit → VfsProg α} (has : v.Has o n)
    (next : ∀ t, v.Numbers t → VfsSafe lt Q (k ()) t (held.erase (.inode n))) :
    VfsSafe lt Q (inodeUnlock o >>= k) s held := by
  rw [VfsSafe, safe_bind]
  refine fetch_safe since fun inode t live later => ?_
  obtain rfl := Has.unique ⟨inode, live, rfl⟩ (has.later later)
  exact next t later

theorem lock_safe {k : Unit → VfsProg α}
    (order : ∀ t m, v.Numbers t → t.Has o m → ∀ a ∈ held, a.Before lt (.inode m))
    (next : ∀ t m, v.Numbers t → t.Has o m → VfsSafe lt Q (k ()) t (.inode m :: held)) :
    VfsSafe lt Q (inodeLock o >>= k) s held := by
  rw [VfsSafe, safe_bind]
  refine fetch_safe since fun inode t live later => ?_
  have has : t.Has o inode.iNo := ⟨inode, live, rfl⟩
  exact ⟨order t inode.iNo later has, next t inode.iNo later has⟩

theorem lookupEntry_safe {k : Option (Nat × Nat) → VfsProg α} (has : v.Has o n)
    (missing : ∀ t, v.Numbers t → VfsSafe lt Q (k none) t held)
    (found : ∀ d t, lt n d.2 → v.Numbers t → VfsSafe lt Q (k (some d)) t held) :
    VfsSafe lt Q (lookupEntry o name >>= k) s held := by
  refine read_safe since fun d t entry later sorted => ?_
  cases d with
  | none => exact missing t later
  | some d => exact found d t (sorted.entry (has.later later) entry) later

theorem lockedIget_safe {k : Except Int Nat → VfsProg α} (sorts : env.Sorts lt)
    (order : ∀ a ∈ held, a.Before lt (.inode ino))
    (failed : ∀ e t, e ≠ 0 → v.Numbers t → VfsSafe lt Q (k (.error e)) t held)
    (loaded : ∀ o t, t.Has o ino → v.Numbers t → VfsSafe lt Q (k (.ok o)) t (.inode ino :: held)) :
    VfsSafe lt Q (lockedIget env ino >>= k) s held := by
  rw [VfsSafe, safe_bind, lockedIget, safe_bind, safe_lock, safe_bind]
  refine ⟨order, .look fun t later sorted r u eq => ?_⟩
  have call : t.iget env ino = (r, u) := some.inj eq
  obtain ⟨sorted', numbers, ok, error⟩ := sorted.iget sorts call
  have later' := since.trans (later.trans numbers)
  refine ⟨sorted', numbers, ?_⟩
  cases r with
  | error e =>
    have free : (inode ino :: held).erase (.inode ino) = held := erase_cons_head ..
    rw [safe_bind, safe_unlock, free]
    exact failed e u (error e rfl) later'
  | ok o => exact loaded o u (ok o rfl) later'

end

end

/-! ## Lookups -/

/-- A lookup stands at an object and has its lock. With `ND_PARENT` it may have lost it. -/
def Standing (wantParent : Bool) (t : Vfs) (held : List DataLock) (place : Option Nat) : Prop :=
  ∀ o, place = some o → ∃ n locked, t.Has o n ∧ (locked = true ∨ wantParent = true) ∧
    held = holding locked n []

/-- How a lookup returns. With `ND_PARENT` it keeps `current` only if there is no component. -/
inductive LookupEnd (wantParent : Bool) (start : Option Nat) : Int × Nameidata → Vfs → List DataLock → Prop
  | failed {e : Int} {nd : Nameidata} {t : Vfs} (bad : e ≠ 0) : LookupEnd wantParent start (e, nd) t []
  | found {nd : Nameidata} {t : Vfs} {held : List DataLock} (plain : wantParent = false)
      (standing : Standing false t held nd.current) : LookupEnd wantParent start (0, nd) t held
  | parent {nd : Nameidata} {t : Vfs} {held : List DataLock} (asked : wantParent = true)
      (gone : nd.current = none) (standing : Standing true t held nd.parent) :
      LookupEnd wantParent start (0, nd) t held
  | bare {nd : Nameidata} {t : Vfs} (asked : wantParent = true) (here : nd.current = start)
      (none : nd.parent = none) : LookupEnd wantParent start (0, nd) t []

/-- A program that looks up paths and keeps the order. -/
def LooksSafely (lt : Nat → Nat → Prop) (program : Nameidata → VfsProg (Int × Nameidata)) : Prop :=
  ∀ nd s, nd.parent = none → VfsSafe lt (LookupEnd nd.wantParent nd.start) (program nd) s []

/-- What a component leaves: an error without locks, or a place to go on from. -/
inductive ComponentEnd (wantParent : Bool) : Except Int Nameidata → Vfs → List DataLock → Prop
  | failed {e : Int} {t : Vfs} (bad : e ≠ 0) : ComponentEnd wantParent (.error e) t []
  | ok {nd : Nameidata} {t : Vfs} {held : List DataLock} (same : nd.wantParent = wantParent)
      (parent : nd.parent = none) (standing : Standing wantParent t held nd.current) :
      ComponentEnd wantParent (.ok nd) t held

/-- What a link leaves: its own lock with an error, or a place to go on from. -/
inductive LinkEnd (wantParent : Bool) (link : Nat) : Int × Nameidata → Vfs → List DataLock → Prop
  | failed {e : Int} {nd : Nameidata} {t : Vfs} (bad : e ≠ 0) : LinkEnd wantParent link (e, nd) t [.inode link]
  | ok {nd : Nameidata} {t : Vfs} {held : List DataLock} (same : nd.wantParent = wantParent)
      (parent : nd.parent = none) (standing : Standing wantParent t held nd.current) :
      LinkEnd wantParent link (0, nd) t held

section
variable {lt : Nat → Nat → Prop} {s t : Vfs} {env : VfsEnv} {held : List DataLock} {dir o n c : Nat}
  {nd : Nameidata} {program : Nameidata → VfsProg (Int × Nameidata)}

theorem Standing.none : Standing wantParent t held none := by
  rintro _ ⟨⟩

theorem Standing.locked (has : t.Has o n) : Standing wantParent t [.inode n] (some o) := by
  rintro _ ⟨⟩
  exact ⟨n, true, has, .inl rfl, rfl⟩

theorem Standing.lost (has : t.Has o n) : Standing true t [] (some o) := by
  rintro _ ⟨⟩
  exact ⟨n, false, has, .inr rfl, rfl⟩

theorem LooksSafely.follow (looks : LooksSafely lt program) (parent : nd.parent = none)
    (current : nd.current = some dir) (place : s.Has dir n) (has : s.Has o c) (text : List (BitVec 8)) :
    VfsSafe lt (LinkEnd nd.wantParent c) (lockedFollow program o nd text) s [.inode c] := by
  refine read_safe (g := fun t => some t.root) (.refl s) fun root t eq later sorted => ?_
  cases eq
  refine unlock_safe (.refl t) (has.later later) fun t1 later1 => ?_
  rw [erase_cons_head]
  refine (looks (nd.into t.root text) t1 parent).andThen fun r t2 held later2 arrived => ?_
  have later' : t.Numbers t2 := later1.trans later2
  cases arrived with
  | @failed e nd' _ bad =>
    rw [if_neg bad]
    refine lock_safe (later.trans later') (by simp) fun t3 m later3 has' => ?_
    obtain rfl := (has.later later3).unique has'
    exact .failed bad
  | found plain standing =>
    have same : nd.wantParent = false := plain
    rw [same]
    exact .ok rfl parent standing
  | parent asked gone standing =>
    refine .ok rfl parent ?_
    rw [gone]
    exact .none
  | bare asked here none =>
    have same : nd.wantParent = true := asked
    refine .ok rfl parent ?_
    rw [same, here]
    simp only [Nameidata.into, current]
    split
    · obtain ⟨m, top⟩ := sorted.root
      exact .lost (top.later later')
    · exact .lost (place.later (later.trans later'))

theorem LooksSafely.handleSymlink (looks : LooksSafely lt program) (sorts : env.Sorts lt)
    (parent : nd.parent = none) (current : nd.current = some dir) (place : s.Has dir n) (has : s.Has o c) :
    VfsSafe lt (LinkEnd nd.wantParent c) (lockedHandleSymlink env program o nd) s [.inode c] := by
  unfold lockedHandleSymlink
  split
  · exact .failed (by decide)
  split
  · exact .failed (by decide)
  cases read : env.readlink o with
  | none => trivial
  | some link =>
    cases link with
    | error e => exact .failed (sorts.readlink o e read)
    | ok text => exact looks.follow parent current place has text

theorem before_holding {locked : Bool} (order : lt n c) : ∀ a ∈ holding locked n [], a.Before lt (.inode c) := by
  cases locked <;> simp [holding, Before, order]

section
variable (looks : LooksSafely lt program) (sorts : env.Sorts lt)
include looks sorts

theorem LooksSafely.step (apart : c ≠ n) (parent : nd.parent = none) (current : nd.current = some dir)
    (place : s.Has dir n) (has : s.Has o c) (locked last : Bool) :
    VfsSafe lt (ComponentEnd nd.wantParent) (lockedStep env program last dir o nd) s
      (.inode c :: holding locked n []) := by
  have free : .inode n ∉ ([] : List DataLock) := not_mem_nil
  have left : (inode c :: holding locked n []).erase (.inode n) = [.inode c] :=
    holding_cons_erase free apart
  refine fetch_safe (.refl s) fun inode t live later => ?_
  split
  · refine unlock_safe later place fun t1 later1 => ?_
    rw [left]
    refine (looks.handleSymlink sorts parent current (place.later later1) (has.later later1)).andThen
      fun r t2 held later2 ended => ?_
    cases ended with
    | failed bad =>
      rw [if_neg bad]
      refine unlock_safe (later1.trans later2) has fun t3 later3 => ?_
      rw [erase_cons_head]
      exact .failed bad
    | ok same parent' standing =>
      exact .ok same parent' standing
  · split
    · refine unlock_safe later has fun t1 later1 => ?_
      rw [erase_cons_head]
      refine unlock_safe later1 place fun t2 later2 => ?_
      rw [holding_erase free]
      exact .failed (by decide)
    · refine unlock_safe later place fun t1 later1 => ?_
      rw [left]
      exact .ok rfl parent (.locked (has.later later1))

theorem LooksSafely.enter (irrefl : ∀ n, ¬ lt n n) (nd : Nameidata) (parent : nd.parent = none)
    (standing : Standing nd.wantParent s held nd.current) (last : Bool) (name : List (BitVec 8)) :
    VfsSafe lt (ComponentEnd nd.wantParent) (lockedEnter env program last name nd) s held := by
  have free {n : Nat} : .inode n ∉ ([] : List DataLock) := not_mem_nil
  refine pointer_safe (.refl s) fun dir t current later => ?_
  obtain ⟨n, locked, place, _, rfl⟩ := standing dir current
  refine lookupEntry_safe later place (fun t1 later1 => ?_) (fun d t1 order later1 => ?_)
  · refine unlock_safe later1 place fun t2 later2 => ?_
    rw [holding_erase free]
    exact .failed (by decide)
  refine lockedIget_safe later1 sorts (before_holding order) (fun e t2 bad later2 => ?_)
    (fun o t2 loaded later2 => ?_)
  · refine unlock_safe later2 place fun t3 later3 => ?_
    rw [holding_erase free]
    exact .failed bad
  have apart : d.2 ≠ n := by
    intro same
    rw [same] at order
    exact irrefl n order
  exact looks.step sorts apart parent current (place.later later2) loaded locked last

/-- The components of a path, one after another. -/
theorem LooksSafely.walk (irrefl : ∀ n, ¬ lt n n) (this : List (BitVec 8)) (rest : List (List (BitVec 8)))
    (nd : Nameidata) (start : Option Nat) (parent : nd.parent = none)
    (standing : Standing nd.wantParent s held nd.current) :
    VfsSafe lt (LookupEnd nd.wantParent start) (lockedWalk env program (this :: rest) nd) s held := by
  induction rest generalizing this nd s held with
  | nil =>
    simp only [lockedWalk]
    split
    · rename_i asked
      rw [asked] at standing ⊢
      exact .parent rfl rfl standing
    rename_i plain
    have enter := looks.enter sorts irrefl { nd with last := this, lastLen := (component this).length } parent
      standing true (component this)
    refine enter.andThen fun r t held later ended => ?_
    cases ended with
    | failed bad => exact .failed bad
    | ok same parent' standing' =>
      have plain : nd.wantParent = false := Bool.eq_false_of_not_eq_true plain
      rw [plain]
      exact .found rfl (plain ▸ standing')
  | cons next rest ih =>
    refine (looks.enter sorts irrefl nd parent standing false (component this)).andThen
      fun r t held later ended => ?_
    cases ended with
    | failed bad => exact .failed bad
    | ok same parent' standing' =>
      rw [← same] at standing' ⊢
      exact ih next _ parent' standing'

end

theorem lockStart_safe {α : Type} {Q : α → Vfs → List DataLock → Prop} {k : Unit → VfsProg α}
    (next : ∀ t o n, nd.start = some o → t.Has o n → VfsSafe lt Q (k ()) t [.inode n]) :
    VfsSafe lt Q (lockStart nd >>= k) s [] := by
  rw [VfsSafe, safe_bind]
  refine pointer_safe (.refl s) fun o t start later => ?_
  refine fetch_safe later fun inode t1 live later1 => ?_
  exact ⟨by simp, next t1 o inode.iNo start ⟨inode, live, rfl⟩⟩

theorem lockedLookupWithin_safe (sorts : env.Sorts lt) (irrefl : ∀ n, ¬ lt n n) (calls : Nat) :
    LooksSafely lt (lockedLookupWithin env calls) := by
  induction calls with
  | zero => exact fun _ _ _ => trivial
  | succ calls ih =>
    intro nd s parent
    simp only [lockedLookupWithin]
    cases starts : pathStarts true nd.path with
    | nil =>
      dsimp only
      split
      · exact .bare ‹_› rfl parent
      rename_i plain
      have plain : nd.wantParent = false := Bool.eq_false_of_not_eq_true plain
      refine lockStart_safe fun t o n start has => ?_
      refine .found plain ?_
      rw [start]
      exact .locked has
    | cons this rest =>
      refine lockStart_safe fun t o n start has => ?_
      refine ih.walk sorts irrefl this rest { nd with current := nd.start } nd.start parent ?_
      rw [start]
      exact .locked has

theorem lockedLookup_safe (sorts : env.Sorts lt) (irrefl : ∀ n, ¬ lt n n) : LooksSafely lt (lockedLookup env) :=
  lockedLookupWithin_safe sorts irrefl (maxLoop + 2)

end

/-! ## The operations -/

/-- `path_lookup`, after which the lock that it has taken is given back. -/
def lookupOnly (env : VfsEnv) (fd : Int) (path : List (BitVec 8)) (nofollow wantParent : Bool) : VfsProg Int := do
  match ← startLookup fd path nofollow with
  | .error e => pure e
  | .ok nd =>
    let r ← lockedLookup env { nd with wantParent }
    if r.1 ≠ 0 then pure r.1
    else do
      let o ← pointer (if wantParent then r.2.parent else r.2.current)
      inodeUnlock o
      pure 0

/-- A program ends without locks. -/
def Unlocked {α : Type} (_ : α) (_ : Vfs) (held : List DataLock) : Prop := held = []

section
variable {α : Type} {lt : Nat → Nat → Prop} {s v : Vfs} {env : VfsEnv} {held : List DataLock} {n : Nat}

/-- A lookup from the start, with what is done at its end. -/
theorem startLookup_safe {Q : α → Vfs → List DataLock → Prop} {fd : Int} {k : Except Int Nameidata → VfsProg α}
    (since : v.Numbers s) (failed : ∀ e t, VfsSafe lt Q (k (.error e)) t held)
    (begun : ∀ nd t, nd.parent = none → nd.wantParent = false → v.Numbers t →
      VfsSafe lt Q (k (.ok nd)) t held) : VfsSafe lt Q (startLookup fd path nofollow >>= k) s held := by
  refine read_safe (g := fun t => some (t.nameidataInit fd path nofollow)) since fun r t eq later _ => ?_
  cases eq
  cases init : t.nameidataInit fd path nofollow with
  | error e => exact failed e t
  | ok nd =>
    obtain ⟨parent, plain⟩ := nameidataInit_fresh init
    exact begun nd t parent plain later

/-- What is done in the parent of a path, under its lock. -/
theorem inParent_safe (since : v.Numbers s) (sorts : env.Sorts lt) (irrefl : ∀ n, ¬ lt n n)
    {k : Except Int Nameidata → VfsProg Int} {f : Nat → Nameidata → VfsProg Int}
    (failed : ∀ e, k (.error e) = pure e) (begun : ∀ nd, k (.ok nd) = do
      let r ← lockedLookup env { nd with wantParent := true }
      if r.1 ≠ 0 then pure r.1 else do f (← pointer r.2.parent) r.2)
    (found : ∀ o n locked nd t, v.Numbers t → t.Has o n → VfsSafe lt Unlocked (f o nd) t (holding locked n [])) :
    VfsSafe lt Unlocked (startLookup atFdcwd path nofollow >>= k) s [] := by
  refine startLookup_safe since (fun e t => by rw [failed]; rfl) fun nd t parent _ later => ?_
  rw [begun]
  refine (lockedLookup_safe sorts irrefl { nd with wantParent := true } t parent).andThen
    fun r t1 held later1 ended => ?_
  cases ended with
  | failed bad =>
    rw [if_pos bad]
    rfl
  | found plain => cases plain
  | parent _ _ standing =>
    refine pointer_safe (.refl t1) fun o t2 eq later2 => ?_
    obtain ⟨n, locked, has, _, rfl⟩ := standing o eq
    exact found o n locked _ t2 (later.trans (later1.trans later2)) (has.later later2)
  | bare _ _ none =>
    refine pointer_safe (.refl t1) fun o t2 eq _ => ?_
    cases none.symm.trans eq

theorem unlock_last {locked : Bool} {o : Nat} (since : v.Numbers s) (has : v.Has o n) (a : α) :
    VfsSafe lt Unlocked (do inodeUnlock o; pure a) s (holding locked n []) :=
  unlock_safe since has fun _ _ => holding_erase not_mem_nil

theorem release_safe {place : Option Nat} (standing : Standing wantParent s held place) (a : α) :
    VfsSafe lt Unlocked (do let o ← pointer place; inodeUnlock o; pure a) s held := by
  refine pointer_safe (.refl s) fun o t eq later => ?_
  obtain ⟨n, locked, has, _, rfl⟩ := standing o eq
  exact unlock_last later has a

theorem lookupOnly_safe (sorts : env.Sorts lt) (irrefl : ∀ n, ¬ lt n n) (fd : Int) (path : List (BitVec 8))
    (nofollow wantParent : Bool) : VfsSafe lt Unlocked (lookupOnly env fd path nofollow wantParent) s [] := by
  refine startLookup_safe (.refl s) (fun e t => rfl) fun nd t parent _ _ => ?_
  refine (lockedLookup_safe sorts irrefl { nd with wantParent } t parent).andThen fun r t held later ended => ?_
  cases ended with
  | failed bad =>
    rw [if_pos bad]
    rfl
  | found plain standing =>
    obtain rfl : wantParent = false := plain
    exact release_safe standing 0
  | parent asked _ standing =>
    obtain rfl : wantParent = true := asked
    exact release_safe standing 0
  | @bare nd' t asked _ none =>
    obtain rfl : wantParent = true := asked
    have nowhere : Standing true t [] nd'.parent := by
      rw [none]
      exact .none
    exact release_safe nowhere 0

section
variable (sorts : env.Sorts lt)
include sorts

theorem lockedUnlinkAt_safe {locked : Bool} (place : s.Has parent n) (name : List (BitVec 8)) :
    VfsSafe lt Unlocked (lockedUnlinkAt env parent name) s (holding locked n []) := by
  refine lookupEntry_safe (.refl s) place (fun t later => ?_) (fun d t order later => ?_)
  · exact unlock_last later place enoent
  refine lockedIget_safe later sorts (before_holding order) (fun _ _ _ _ => trivial) (fun o t1 has later1 => ?_)
  have place := place.later later1
  refine fetch_safe (.refl t1) fun inode t2 live later2 => ?_
  split
  · exact unlock_safe later2 has fun _ _ => False.elim
  rw [VfsSafe, safe_bind]
  refine .look fun t3 later3 sorted u w call => ?_
  obtain ⟨sorted', numbers⟩ := sorted.removeLink call
  refine ⟨sorted', numbers, unlock_safe (later2.trans (later3.trans numbers)) has fun t4 later4 => ?_⟩
  rw [erase_cons_head]
  exact unlock_last later4 place 0

theorem lockedUnlink_safe (irrefl : ∀ n, ¬ lt n n) (path : List (BitVec 8)) :
    VfsSafe lt Unlocked (lockedUnlink env path) s [] :=
  inParent_safe (.refl s) sorts irrefl (fun _ => rfl) (fun _ => rfl) fun _ _ _ nd _ _ has =>
    lockedUnlinkAt_safe sorts has nd.name

/-- A link does not get past its target. -/
theorem lockedLink_safe (irrefl : ∀ n, ¬ lt n n) (target link : List (BitVec 8)) :
    VfsSafe lt Unlocked (lockedLink env target link) s [] := by
  refine startLookup_safe (.refl s) (fun e t => rfl) fun nd t parent plain _ => ?_
  refine (lockedLookup_safe sorts irrefl nd t parent).andThen fun r t held later ended => ?_
  cases ended with
  | failed bad =>
    rw [if_pos bad]
    rfl
  | found _ standing =>
    refine pointer_safe (.refl t) fun o t1 eq later1 => ?_
    obtain ⟨n, locked, has, _, rfl⟩ := standing o eq
    refine fetch_safe later1 fun inode t2 live later2 => ?_
    split
    · exact unlock_last later2 has eperm
    · exact False.elim
  | parent asked => cases plain.symm.trans asked
  | bare asked => cases plain.symm.trans asked

end

section
variable (trans : ∀ a b c, lt a b → lt b c → lt a c)
include trans

/-- The entries are moved and the locks are given back. -/
theorem moveEntry_safe (old : s.Has oldDir m) (new : s.Has newDir n) (order : n = m ∨ lt n m)
    {k : Int → VfsProg Int} (rest : ∀ ret t, s.Numbers t → VfsSafe lt Unlocked (k ret) t held) :
    VfsSafe lt Unlocked (look (fun v => v.moveEntry env oldDir newDir oldName newName) >>= k) s held := by
  rw [VfsSafe, safe_bind]
  refine .look fun t later sorted ret u call => ?_
  obtain ⟨sorted', numbers⟩ := sorted.moveEntry trans (old.later later) (new.later later) order call
  exact ⟨sorted', numbers, rest ret u (later.trans numbers)⟩

theorem lockedRenameIn_safe (irrefl : ∀ n, ¬ lt n n) {locked : Bool} (old : s.Has oldDir m)
    (new : s.Has newDir n) (oldNd newNd : Nameidata) :
    VfsSafe lt Unlocked (lockedRenameIn env oldDir newDir oldNd newNd) s (holding locked n []) := by
  have free {n : Nat} : .inode n ∉ ([] : List DataLock) := not_mem_nil
  unfold lockedRenameIn
  split
  · rename_i same
    subst same
    obtain rfl := old.unique new
    split
    · exact unlock_last (.refl s) new einval
    · exact moveEntry_safe trans old new (.inl rfl) fun ret t later => unlock_last later new ret
  refine fetch_safe (.refl s) fun dir t live later => ?_
  refine fetch_safe later fun dir' t1 live' later1 => ?_
  obtain rfl := Has.unique ⟨dir, live, rfl⟩ (new.later later)
  obtain rfl := Has.unique ⟨dir', live', rfl⟩ (old.later later1)
  intro order
  have apart : dir'.iNo ≠ dir.iNo := by
    intro same
    rw [same] at order
    exact irrefl _ order
  refine lock_safe later1 (fun t2 c later2 has => ?_) fun t2 c later2 has => ?_
  · obtain rfl := (old.later later2).unique has
    exact before_holding order
  obtain rfl := (old.later later2).unique has
  refine moveEntry_safe trans has (new.later later2) (.inr order) fun ret t3 later3 => ?_
  refine unlock_safe (later2.trans later3) new fun t4 later4 => ?_
  rw [holding_cons_erase free apart]
  change VfsSafe lt Unlocked _ t4 (holding true dir'.iNo [])
  exact unlock_last later4 old ret

theorem lockedRename_safe (sorts : env.Sorts lt) (irrefl : ∀ n, ¬ lt n n) (oldpath newpath : List (BitVec 8)) :
    VfsSafe lt Unlocked (lockedRename env oldpath newpath) s [] := by
  refine inParent_safe (f := fun o nd => do inodeUnlock o; lockedRenameTo env o nd newpath) (.refl s) sorts irrefl
    (fun _ => rfl) (fun _ => rfl) fun oldDir m locked old t _ has => ?_
  refine unlock_safe (.refl t) has fun t1 later1 => ?_
  rw [holding_erase not_mem_nil]
  refine inParent_safe (f := fun o nd => lockedRenameIn env oldDir o old nd) later1 sorts irrefl
    (fun _ => rfl) (fun _ => rfl) fun newDir n locked new t2 later2 there => ?_
  exact lockedRenameIn_safe trans irrefl (has.later later2) there old new

end

end

/-! ## Deadlocks -/

inductive NamespaceOp
  | rename (oldpath newpath : List (BitVec 8))
  | link (target name : List (BitVec 8))
  | unlink (path : List (BitVec 8))
  | lookup (fd : Int) (path : List (BitVec 8)) (nofollow wantParent : Bool)

def NamespaceOp.code (env : VfsEnv) : NamespaceOp → VfsProg Unit
  | rename oldpath newpath => do let _ ← lockedRename env oldpath newpath
  | link target name => do let _ ← lockedLink env target name
  | unlink path => do let _ ← lockedUnlink env path
  | lookup fd path nofollow wantParent => do let _ ← lookupOnly env fd path nofollow wantParent

/-- Threads that run operations on names, where some environments are met. -/
def NamespaceOps (met : VfsEnv → Prop) (p : VfsProg Unit) : Prop :=
  ∃ env op, met env ∧ p = NamespaceOp.code env op

theorem NamespaceOp.safe (irrefl : ∀ n, ¬ lt n n) (trans : ∀ a b c, lt a b → lt b c → lt a c) {env : VfsEnv}
    (sorts : env.Sorts lt) (op : NamespaceOp) (s : Vfs) : VfsSafe lt Unlocked (op.code env) s [] := by
  have ends {p : VfsProg Int} (safe : VfsSafe lt Unlocked p s []) :
      VfsSafe lt Unlocked (do let _ ← p) s [] := safe.andThen fun _ _ _ _ empty => empty
  cases op with
  | rename oldpath newpath => exact ends (lockedRename_safe trans sorts irrefl oldpath newpath)
  | link target name => exact ends (lockedLink_safe sorts irrefl target name)
  | unlink path => exact ends (lockedUnlink_safe sorts irrefl path)
  | lookup fd path nofollow wantParent => exact ends (lookupOnly_safe sorts irrefl fd path nofollow wantParent)

/-- No thread runs anything. -/
def idleVfs (v : Vfs) : System Nat Vfs DataLock LockMark := ⟨v, fun _ => false, fun _ => ⟨[], .done ()⟩⟩

theorem inode_locks_acyclic (irrefl : ∀ n, ¬ lt n n) (trans : ∀ a b c, lt a b → lt b c → lt a c) (l : DataLock) :
    ¬ TransGen (Before lt) l l := by
  have collapse {l m : DataLock} (chain : TransGen (Before lt) l m) : l.Before lt m := by
    induction chain with
    | single first => exact first
    | @tail b c _ last ih =>
      cases l with
      | ebuf k => exact ih.elim
      | inode i =>
        cases b with
        | ebuf k => exact ih.elim
        | inode j =>
          cases c with
          | ebuf k => exact last.elim
          | inode k => exact trans i j k ih last
  intro circle
  cases l with
  | ebuf k => exact collapse circle
  | inode i => exact irrefl i (collapse circle)

/-- Any number of threads run operations on names, where there is an order in which directories
come before their entries, renames go to a directory before the one that they come from, no link
gets past its target and no directory is unlinked: they do not wait in a circle. -/
theorem namespace_ops_do_not_deadlock {lt : Nat → Nat → Prop} (irrefl : ∀ n, ¬ lt n n)
    (trans : ∀ a b c, lt a b → lt b c → lt a c) {v : Vfs} (sorted : v.Sorted lt)
    {y : System Nat Vfs DataLock LockMark}
    (run : Runs.Run (Step (NamespaceOps (VfsEnv.Sorts lt)) (InOrder lt)) (idleVfs v) y) :
    ¬ y.Deadlocked := by
  have start : (idleVfs v).Ordered (namespaceDiscipline lt) := ⟨sorted, fun _ => rfl⟩
  refine no_deadlock (D := namespaceDiscipline lt) ?_ (inode_locks_acyclic irrefl trans) start run
  rintro p ⟨env, op, sorts, rfl⟩ s _
  exact op.safe irrefl trans sorts s

theorem plainVfsEnv_sorts (lt : Nat → Nat → Prop) : plainVfsEnv.Sorts lt := by
  refine ⟨?_, ?_, ?_⟩
  · rintro _ _ ⟨⟩
    decide
  · rintro _ _ ⟨⟩
  · rintro _ _ ⟨⟩

theorem nestedVfs_sorted : nestedVfs.Sorted (· < ·) where
  fresh := (nestedVfs_ready []).coherent.fresh
  cached := by
    intro ino o cached
    obtain ⟨few, rfl⟩ : ino < 3 ∧ ino = o := by simpa [nestedVfs, linkedVfs] using cached
    interval_cases ino <;> exact ⟨_, rfl, rfl⟩
  above := by
    intro o inode live
    obtain old | ⟨rfl, rfl⟩ := nestedVfs_cases live
    · obtain ⟨_, number, dir⟩ := linkedVfs_cases old
      by_cases isDir : inode.isDir
      · obtain rfl := dir isDir
        exact ⟨fun _ => ⟨.refl _, by unfold BinaryTree.Ordered; decide, by decide, by decide⟩, by decide⟩
      · exact ⟨fun yes => absurd yes isDir, by simp [VfsInode.names, isDir]⟩
    · exact ⟨fun _ => .empty rfl rfl, fun _ member => absurd member not_mem_nil⟩
  root := ⟨0, _, rfl, rfl⟩

def unlinkFF : NamespaceOp := .unlink (nameF ++ [slash] ++ nameF)
def lookupF : NamespaceOp := .lookup atFdcwd nameF false false

def waitSchedule : List Nat := List.replicate 12 0 ++ List.replicate 6 1

/-- One thread unlinks `f/f` and has the directory `f`, and another one that looks up `f` has the
root and waits. -/
theorem namespace_ops_do_not_deadlock_nested : ∃ y,
    Runs.Run (Step (NamespaceOps (VfsEnv.Sorts (· < ·))) (InOrder (· < ·))) (idleVfs nestedVfs) y ∧
    (y.thread 0).held = [.inode 1] ∧ (y.thread 1).held = [.inode 0] ∧
    (y.thread 1).code.asks = some (.inode 1) ∧ ¬ y.Deadlocked := by
  have moved : (((idleVfs nestedVfs).start 0 1 (unlinkFF.code plainVfsEnv) (lookupF.code plainVfsEnv)).schedule
      (fun _ => false) waitSchedule).map (fun y =>
        ((y.thread 0).held, (y.thread 1).held, (y.thread 1).code.asks)) =
      some ([.inode 1], [.inode 0], some (.inode 1)) := by
    decide +kernel
  obtain ⟨y, schedule, eq⟩ := map_eq_some_iff.mp moved
  simp only [Prod.mk.injEq] at eq
  obtain ⟨held, held', asks⟩ := eq
  have run : Runs.Run (Step (NamespaceOps (VfsEnv.Sorts (· < ·))) (InOrder (· < ·))) (idleVfs nestedVfs) y :=
    (System.start_run (fun _ => rfl) (by decide) ⟨plainVfsEnv, unlinkFF, plainVfsEnv_sorts _, rfl⟩
      ⟨plainVfsEnv, lookupF, plainVfsEnv_sorts _, rfl⟩).trans
        (System.schedule_run (fun _ passed => absurd passed Bool.false_ne_true) schedule)
  exact ⟨y, run, held, held', asks,
    namespace_ops_do_not_deadlock Nat.lt_irrefl (fun _ _ _ => Nat.lt_trans) nestedVfs_sorted run⟩

/-- The directories `/a` and `/b` with the files `/a/x` and `/b/y`. -/
def twoDirs : List VfsCall :=
  [.open atFdcwd [slash, 0x61#8] ⟨true, false, false⟩ 0o040755,
    .open atFdcwd [slash, 0x62#8] ⟨true, false, false⟩ 0o040755,
    .open atFdcwd [slash, 0x61#8, slash, 0x78#8] ⟨true, false, false⟩ 0o100644,
    .open atFdcwd [slash, 0x62#8, slash, 0x79#8] ⟨true, false, false⟩ 0o100644]

/-- The file `/a/x` goes to `/b` while `/b/y` goes to `/a`. -/
def renameX : NamespaceOp := .rename [slash, 0x61#8, slash, 0x78#8] [slash, 0x62#8, slash, 0x78#8]
def renameY : NamespaceOp := .rename [slash, 0x62#8, slash, 0x79#8] [slash, 0x61#8, slash, 0x79#8]

/-- Both have looked up their old names, and then their new ones. -/
def crossSchedule : List Nat :=
  List.replicate 14 0 ++ List.replicate 14 1 ++ List.replicate 16 0 ++ List.replicate 16 1

/-- Thread 0 has `/b` and asks for `/a`, which thread 1 has; thread 1 asks for `/b`. -/
theorem renames_deadlock : mountedVfs.Mounted ∧ ∃ v y, mountedVfs.callAll plainVfsEnv twoDirs = some v ∧
    Runs.Run (Step (NamespaceOps fun _ => True) fun _ => True) (idleVfs v) y ∧ y.Deadlocked := by
  have moved : (mountedVfs.callAll plainVfsEnv twoDirs).bind (fun v =>
      (((idleVfs v).start 0 1 (renameX.code plainVfsEnv) (renameY.code plainVfsEnv)).schedule
        (fun _ => true) crossSchedule).map fun y =>
        ((y.thread 0).code.asks, (y.thread 0).held, (y.thread 1).code.asks, (y.thread 1).held)) =
      some (some (.inode 1), [.inode 2], some (.inode 2), [.inode 1]) := by
    decide +kernel
  obtain ⟨v, call, moved⟩ := bind_eq_some_iff.mp moved
  obtain ⟨y, schedule, eq⟩ := map_eq_some_iff.mp moved
  simp only [Prod.mk.injEq] at eq
  obtain ⟨asks, held, asks', held'⟩ := eq
  have run : Runs.Run (Step (NamespaceOps fun _ => True) fun _ => True) (idleVfs v) y :=
    (System.start_run (fun _ => rfl) (by decide) ⟨plainVfsEnv, renameX, trivial, rfl⟩
      ⟨plainVfsEnv, renameY, trivial, rfl⟩).trans (System.schedule_run (fun _ _ => trivial) schedule)
  refine ⟨mountedVfs_mounted, v, y, call, run, ?_⟩
  exact System.deadlocked_pair asks (by simp [held']) asks' (by simp [held])

end SlotFs
