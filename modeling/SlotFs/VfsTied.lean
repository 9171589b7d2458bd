import SlotFs.Lib.Ledger
import SlotFs.Vfs

/-!
# Entries and links

How the number of entries that name an inode compares with its `i_link`, and what becomes
of this when an entry is made or removed and when an object comes or goes.
-/

namespace SlotFs
open Function List Option VfsInode Vfs

variable {d ino o parent x : Nat} {dir : Dir} {entry : EntryInode} {env : VfsEnv} {i inode : VfsInode}
  {name : List (BitVec 8)} {v : Vfs}

/-! ## Entries -/

def Dir.inos (dir : Dir) : List Nat := dir.list.map fun d => (dir.dents d).ino

/-- The inodes that the entries of a directory name. -/
def VfsInode.names (inode : VfsInode) : List Nat := if inode.isDir then inode.inos else []

def Vfs.names (v : Vfs) (o : Nat) : List Nat := (v.objects o).elim [] VfsInode.names

/-- The number of entries, over all directories, that name an inode. -/
def Vfs.entryCount (v : Vfs) (ino : Nat) : Nat :=
  ∑ o ∈ Finset.range v.arena.asked, (v.names o).count ino

theorem Vfs.names_of (live : v.objects o = some inode) : v.names o = inode.names := by
  rw [names, live]
  rfl

theorem Vfs.entryCount_pos (known : o < v.arena.asked) (named : ino ∈ v.names o) : 0 < v.entryCount ino := by
  apply Finset.sum_pos'
  · intro p _
    exact Nat.zero_le _
  · exact ⟨o, Finset.mem_range.mpr known, count_pos_iff.mpr named⟩

/-- One directory gets other entries. -/
theorem Vfs.entryCount_update {v' : Vfs} {inos : List Nat} (known : o < v.arena.asked)
    (asked : v'.arena.asked = v.arena.asked) (names : v'.names = update v.names o inos) (x : Nat) :
    v'.entryCount x + (v.names o).count x = v.entryCount x + inos.count x := by
  have own : v'.names o = inos := by rw [names, update_self]
  rw [entryCount, entryCount, asked, ← own]
  apply Ledger.sum_change (Finset.mem_range.mpr known)
  intro p _ other
  rw [names, update_of_ne other]

/-- The entries tie inodes together: `off` is how many more entries than links an inode
has. -/
structure Vfs.Tied (v : Vfs) (off : Nat → Int) : Prop where
  fresh : ∀ o, v.arena.asked ≤ o → v.objects o = none
  maps : v.inodes.Ok
  small : v.inodes.Within (2 ^ 31)
  used : ∀ o i, v.objects o = some i → InUse v.inodes i.iNo
  unique : ∀ o p i j, v.objects o = some i → v.objects p = some j → i.iNo = j.iNo → o = p
  indexed : ∀ o i, v.objects o = some i → i.isDir → i.toDir.Indexed
  cached : ∀ o i, v.objects o = some i → i.iLink ≠ 0 → v.inodeTable i.iNo = some o
  dirs : ∀ o i, v.objects o = some i → i.isDir → i.iLink = 1
  files : ∀ o i, v.objects o = some i → ¬ i.isDir →
    i.iLink ≤ 1 ∧ (v.entryCount i.iNo : Int) = i.iLink + off i.iNo
  named : ∀ o x, x ∈ v.names o → ∃ p i, v.objects p = some i ∧ i.iNo = x
  root : ∃ i, v.objects v.root = some i ∧ i.isDir
  cwd : v.cwd = v.root
  released : ∀ o ∈ v.releaseList, o < v.arena.asked ∧ ∀ i, v.objects o = some i → i.iLink = 0

section
variable {v v' : Vfs} {off : Nat → Int}

theorem Vfs.Tied.known (h : v.Tied off) (live : v.objects o = some i) : o < v.arena.asked := by
  apply lt_of_not_ge
  intro ge
  cases (h.fresh o ge).symm.trans live

theorem Vfs.Tied.known_names (h : v.Tied off) (hx : x ∈ v.names o) : o < v.arena.asked := by
  apply lt_of_not_ge
  intro ge
  rw [names, h.fresh o ge] at hx
  cases hx

section
variable (objects : v'.objects = update v.objects o (some i))
include objects

theorem Vfs.update_names : v'.names = update v.names o i.names := by
  funext p
  by_cases e : p = o
  · subst e
    simp [names, objects]
  · simp [names, objects, e]

theorem Vfs.object_cases {p : Nat} {j : VfsInode} (live : v'.objects p = some j) :
    p = o ∧ j = i ∨ p ≠ o ∧ v.objects p = some j := by
  rw [objects] at live
  by_cases e : p = o
  · subst e
    rw [update_self] at live
    exact .inl ⟨rfl, (some.inj live).symm⟩
  · rw [update_of_ne e] at live
    exact .inr ⟨e, live⟩

end

/-- What the links depend on is the same, but for the objects. -/
structure Vfs.Frame (v v' : Vfs) : Prop where
  inodes : v'.inodes = v.inodes
  asked : v'.arena.asked = v.arena.asked
  table : v'.inodeTable = v.inodeTable
  root : v'.root = v.root
  cwd : v'.cwd = v.cwd
  released : v'.releaseList = v.releaseList

section
variable (h : v.Tied off)
include h

/-- An object is replaced by one with the same number and mode and with fewer links. -/
theorem Vfs.Tied.change (live : v.objects o = some i) (i' : VfsInode) (v' : Vfs) (frame : v.Frame v')
    (objects : v'.objects = update v.objects o (some i')) (ino : i'.iNo = i.iNo) (mode : i'.iMode = i.iMode)
    (link : i'.iLink ≤ i.iLink) (dir : i.isDir → i'.iLink = i.iLink) (indexed : i'.isDir → i'.toDir.Indexed)
    (named : ∀ x ∈ i'.names, ∃ p j, v.objects p = some j ∧ j.iNo = x) :
    v'.Tied fun x => off x + i'.names.count x - i.names.count x +
      if x = i.iNo then (i.iLink : Int) - i'.iLink else 0 := by
  have old (p : Nat) (j : VfsInode) (hp : v'.objects p = some j) :
      ∃ k, v.objects p = some k ∧ j.iNo = k.iNo ∧ j.iLink ≤ k.iLink := by
    obtain ⟨rfl, rfl⟩ | ⟨_, hp⟩ := object_cases objects hp
    · exact ⟨i, live, ino, link⟩
    · exact ⟨j, hp, rfl, le_rfl⟩
  have isDir : i'.isDir = i.isDir := by rw [isDir, isDir, mode]
  have still {p : Nat} {j : VfsInode} (hp : v.objects p = some j) :
      ∃ k, v'.objects p = some k ∧ k.iNo = j.iNo ∧ k.isDir = j.isDir := by
    by_cases e : p = o
    · subst e
      cases live.symm.trans hp
      exact ⟨i', by rw [objects, update_self], ino, isDir⟩
    · exact ⟨j, by rw [objects, update_of_ne e, hp], rfl, rfl⟩
  constructor
  · intro p hp
    rw [frame.asked] at hp
    rw [objects, update_of_ne (ne_of_gt ((h.known live).trans_le hp))]
    exact h.fresh p hp
  · exact frame.inodes ▸ h.maps
  · exact frame.inodes ▸ h.small
  · intro p j hp
    obtain ⟨k, hk, same, _⟩ := old p j hp
    rw [same, frame.inodes]
    exact h.used p k hk
  · intro p q j j' hp hq same
    obtain ⟨k, hk, eq, _⟩ := old p j hp
    obtain ⟨k', hk', eq', _⟩ := old q j' hq
    exact h.unique p q k k' hk hk' (by rw [← eq, same, eq'])
  · intro p j hp isdir
    obtain ⟨rfl, rfl⟩ | ⟨_, hp⟩ := object_cases objects hp
    · exact indexed isdir
    · exact h.indexed p j hp isdir
  · intro p j hp linked
    obtain ⟨k, hk, same, links⟩ := old p j hp
    rw [same, frame.table]
    exact h.cached p k hk fun zero => linked (Nat.le_zero.mp (zero ▸ links))
  · intro p j hp isdir
    obtain ⟨rfl, rfl⟩ | ⟨_, hp⟩ := object_cases objects hp
    · rw [isDir] at isdir
      rw [dir isdir]
      exact h.dirs p i live isdir
    · exact h.dirs p j hp isdir
  · intro p j hp file
    have moved := entryCount_update (h.known live) frame.asked (update_names objects) j.iNo
    rw [names_of live] at moved
    obtain ⟨rfl, rfl⟩ | ⟨e, hp⟩ := object_cases objects hp
    · rw [isDir] at file
      obtain ⟨le, count⟩ := h.files p i live file
      rw [ino] at moved ⊢
      refine ⟨link.trans le, ?_⟩
      rw [if_pos rfl]
      omega
    obtain ⟨le, count⟩ := h.files p j hp file
    refine ⟨le, ?_⟩
    rw [if_neg fun same => e (h.unique p o j i hp live same)]
    omega
  · intro p x hx
    have found : ∃ q j, v.objects q = some j ∧ j.iNo = x := by
      rw [update_names objects] at hx
      by_cases e : p = o
      · subst e
        rw [update_self] at hx
        exact named x hx
      · rw [update_of_ne e] at hx
        exact h.named p x hx
    obtain ⟨q, j, hq, same⟩ := found
    obtain ⟨k, hk, same', _⟩ := still hq
    exact ⟨q, k, hk, same'.trans same⟩
  · obtain ⟨j, hj, isdir⟩ := h.root
    obtain ⟨k, hk, _, same⟩ := still hj
    rw [frame.root]
    exact ⟨k, hk, same ▸ isdir⟩
  · rw [frame.cwd, frame.root]
    exact h.cwd
  · intro p hp
    obtain ⟨known, gone⟩ := h.released p (frame.released ▸ hp)
    refine ⟨frame.asked ▸ known, fun j hj => ?_⟩
    obtain ⟨k, hk, _, links⟩ := old p j hj
    exact Nat.le_zero.mp (gone k hk ▸ links)

theorem Vfs.Tied.of_eq {off' : Nat → Int} (eq : ∀ x, off x = off' x) : v.Tied off' :=
  funext eq ▸ h

/-- The directories stay. -/
theorem Vfs.Tied.setFile (live : v.objects o = some i) (i' : VfsInode) (v' : Vfs) (frame : v.Frame v')
    (objects : v'.objects = update v.objects o (some i'))
    (dir : i'.toDir = { i.toDir with entryNum := i'.entryNum }) (mode : i'.iMode = i.iMode)
    (link : i'.iLink ≤ i.iLink) (links : i.isDir → i'.iLink = i.iLink) :
    v'.Tied fun x => off x + if x = i.iNo then (i.iLink : Int) - i'.iLink else 0 := by
  have isDir : i'.isDir = i.isDir := by rw [isDir, isDir, mode]
  have names : i'.names = i.names := by
    rw [VfsInode.names, VfsInode.names, isDir, dir]
    rfl
  have number : i'.iNo = i.iNo := by rw [dir]
  refine (h.change live i' v' frame objects number mode link links ?_ ?_).of_eq fun x => ?_
  · intro isdir
    have ⟨same, ordered, once, asked⟩ := h.indexed o i live (isDir ▸ isdir)
    rw [dir]
    exact ⟨same, ordered, once, asked⟩
  · rw [names, ← names_of live]
    exact h.named o
  · rw [names]
    omega

theorem Vfs.Tied.congr (frame : v.Frame v') (objects : v'.objects = v.objects) : v'.Tied off := by
  have names : v'.names = v.names := by
    funext o
    rw [names, names, objects]
  have counts (x : Nat) : v'.entryCount x = v.entryCount x := by
    rw [entryCount, entryCount, frame.asked, names]
  constructor
  · rw [frame.asked, objects]
    exact h.fresh
  · exact frame.inodes ▸ h.maps
  · exact frame.inodes ▸ h.small
  · rw [objects, frame.inodes]
    exact h.used
  · rw [objects]
    exact h.unique
  · rw [objects]
    exact h.indexed
  · rw [objects, frame.table]
    exact h.cached
  · rw [objects]
    exact h.dirs
  · simp only [objects, counts]
    exact h.files
  · rw [names, objects]
    exact h.named
  · rw [objects, frame.root]
    exact h.root
  · rw [frame.cwd, frame.root]
    exact h.cwd
  · rw [frame.released, frame.asked, objects]
    exact h.released

end

/-- An inode that is named has a link. -/
def Vfs.Kept (v : Vfs) : Prop :=
  ∀ o x, x ∈ v.names o → ∀ p i, v.objects p = some i → i.iNo = x → i.iLink ≠ 0

theorem Vfs.Tied.kept (h : v.Tied fun _ => 0) : v.Kept := by
  intro o x hx p i hp same
  subst same
  have pos := entryCount_pos (h.known_names hx) hx
  cases dir : i.isDir with
  | true => rw [h.dirs p i hp dir]; exact one_ne_zero
  | false =>
    obtain ⟨_, count⟩ := h.files p i hp (by rw [dir]; exact Bool.false_ne_true)
    omega

theorem Vfs.Tied.found (h : v.Tied off) (kept : v.Kept) {o x : Nat} (hx : x ∈ v.names o) :
    ∃ p i, v.inodeTable x = some p ∧ v.objects p = some i ∧ i.iNo = x ∧ i.iLink ≠ 0 := by
  obtain ⟨p, i, hp, rfl⟩ := h.named o x hx
  have linked := kept o i.iNo hx p i hp rfl
  exact ⟨p, i, h.cached p i hp linked, hp, rfl, linked⟩

theorem Vfs.Tied.iget (h : v.Tied off) (kept : v.Kept) (env : VfsEnv) (hx : x ∈ v.names o) :
    ∃ p i, v.iget env x = (.ok p, v) ∧ v.inodeTable x = some p ∧ v.objects p = some i ∧ i.iNo = x := by
  obtain ⟨p, i, table, live, same, _⟩ := h.found kept hx
  exact ⟨p, i, by rw [Vfs.iget, table], table, live, same⟩

/-! ## Entering and removing -/

theorem DirEntered.inos {dir' : Dir} {ghost : Int} (h : DirEntered dir entry name d ghost dir') :
    dir'.inos = dir.inos ++ [entry.iNo] := by
  rw [Dir.inos, h.list, map_append, map_singleton, h.dents, update_self]
  congr 1
  apply map_congr_left
  intro c hc
  rw [update_of_ne]
  rintro rfl
  exact h.new hc

theorem DirErased.inos {dir' : Dir} (h : DirErased dir d dir') (member : d ∈ dir.list) :
    dir.inos.Perm ((dir.dents d).ino :: dir'.inos) := by
  rw [Dir.inos, Dir.inos, h.list, h.dents]
  exact (perm_cons_erase member).map fun d => (dir.dents d).ino

section
variable (live : v.objects parent = some inode) (indexed : inode.toDir.Indexed)
include live indexed

/-- What `dir_append_entry` makes of a directory that does not have the hash. -/
theorem Vfs.dirAppendEntry_spec {entry' : EntryInode} {r : Except Int Nat}
    (absent : direntLookup inode.toDir (bkdrHash name) = none)
    (call : v.dirAppendEntry env parent entry name = some (r, entry', v')) :
    ∃ dir dirs, v' = { v with dirs }.setObject parent { inode with toDir := dir } ∧
      dir.iNo = inode.iNo ∧ dir.Indexed ∧
      ((∃ d ghost, r = .ok d ∧ DirEntered inode.toDir entry name d ghost dir) ∨
        r = .error enomem ∧ dir.list = inode.list ∧ dir.dents = inode.dents) := by
  simp only [dirAppendEntry, live, bind_eq_bind, bind_some, some.injEq,
    Prod.mk.injEq] at call
  obtain ⟨rfl, -, rfl⟩ := call
  obtain ⟨d, ghost, dirs, dir, _, entered, eq⟩ | eq :=
    dirAppendEntry_cases indexed env.rb env.cpu v.dirs entry (indexed.absent absent)
  · rw [eq]
    exact ⟨dir, _, rfl, entered.same.1, entered.indexed, .inl ⟨d, ghost, rfl, entered⟩⟩
  rw [eq]
  have ⟨same, ordered, once, asked⟩ := indexed
  exact ⟨_, _, rfl, rfl, ⟨same, ordered, once, fun d hd => Nat.lt_succ_of_lt (asked d hd)⟩,
    .inr ⟨rfl, rfl, rfl⟩⟩

theorem Vfs.dirRemoveEntry_spec (call : v.dirRemoveEntry env parent d = some v') :
    ∃ dir dirs, v' = { v with dirs }.setObject parent { inode with toDir := dir } ∧
      DirErased inode.toDir d dir := by
  simp only [dirRemoveEntry, live, bind_eq_bind, bind_some] at call
  obtain ⟨⟨dir, dirs⟩, remove, eq⟩ := bind_eq_some_iff.mp call
  cases eq
  exact ⟨dir, dirs, rfl, dirRemoveEntry_erased indexed remove⟩

end

theorem VfsInode.names_dir (isDir : inode.isDir) (dir : Dir) : names { inode with toDir := dir } = dir.inos := by
  rw [names]
  exact if_pos isDir

/-- A directory gets other entries. -/
theorem Vfs.Tied.setDir (h : v.Tied off) (live : v.objects parent = some inode) (isDir : inode.isDir)
    (dirs : DirStorage) (ino : dir.iNo = inode.iNo) (indexed : dir.Indexed)
    (named : ∀ x ∈ dir.inos, ∃ p j, v.objects p = some j ∧ j.iNo = x) :
    ({ v with dirs }.setObject parent { inode with toDir := dir }).Tied
      fun x => off x + dir.inos.count x - inode.inos.count x := by
  refine (h.change live { inode with toDir := dir } ({ v with dirs }.setObject parent _)
    ⟨rfl, rfl, rfl, rfl, rfl, rfl⟩ rfl ino rfl le_rfl (fun _ => rfl) (fun _ => indexed) ?_).of_eq fun x => ?_
  · rw [names_dir isDir]
    exact named
  · rw [VfsInode.names_dir isDir, VfsInode.names, if_pos isDir]
    simp

theorem Vfs.Tied.append (h : v.Tied off) {env : VfsEnv} {parent : Nat} {inode : VfsInode}
    {entry entry' : EntryInode} {name : List (BitVec 8)} {r : Except Int Nat}
    (live : v.objects parent = some inode) (isDir : inode.isDir)
    (absent : direntLookup inode.toDir (bkdrHash name) = none)
    (target : ∃ p j, v.objects p = some j ∧ j.iNo = entry.iNo)
    (call : v.dirAppendEntry env parent entry name = some (r, entry', v')) :
    (∃ d, r = .ok d ∧ v'.Tied fun x => off x + if x = entry.iNo then 1 else 0) ∨
      r = .error enomem ∧ v'.Tied off := by
  have known (x : Nat) (hx : x ∈ inode.inos) : ∃ p j, v.objects p = some j ∧ j.iNo = x := by
    apply h.named parent
    rwa [names_of live, VfsInode.names, if_pos isDir]
  obtain ⟨dir, dirs, rfl, ino, indexed, ⟨d, ghost, rfl, entered⟩ | ⟨rfl, list, dents⟩⟩ :=
    dirAppendEntry_spec live (h.indexed parent inode live isDir) absent call
  · refine .inl ⟨d, rfl, (h.setDir live isDir dirs ino indexed ?_).of_eq fun x => ?_⟩
    · intro x hx
      rw [entered.inos, mem_append, mem_singleton] at hx
      obtain hx | rfl := hx
      · exact known x hx
      · exact target
    rw [entered.inos, count_append, count_singleton]
    by_cases e : x = entry.iNo
    · subst e
      simp
      omega
    · rw [if_neg e, if_neg (by simpa using Ne.symm e)]
      omega
  · have inos : dir.inos = inode.inos := by rw [Dir.inos, Dir.inos, list, dents]
    refine .inr ⟨rfl, (h.setDir live isDir dirs ino indexed (inos ▸ known)).of_eq fun x => ?_⟩
    rw [inos]
    omega

theorem Vfs.Tied.remove (h : v.Tied off) (live : v.objects parent = some inode) (isDir : inode.isDir)
    (member : d ∈ inode.list) (call : v.dirRemoveEntry env parent d = some v') :
    v'.Tied fun x => off x - if x = (inode.dents d).ino then 1 else 0 := by
  obtain ⟨dir, dirs, rfl, erased⟩ :=
    dirRemoveEntry_spec live (h.indexed parent inode live isDir) call
  have perm := erased.inos member
  refine (h.setDir live isDir dirs erased.same.1 erased.indexed fun x hx => ?_).of_eq fun x => ?_
  · apply h.named parent
    rw [names_of live, VfsInode.names, if_pos isDir]
    exact perm.mem_iff.mpr (mem_cons_of_mem _ hx)
  rw [perm.count_eq x, count_cons]
  by_cases e : x = (inode.dents d).ino
  · subst e
    simp
    omega
  · rw [if_neg e, if_neg (by simpa using Ne.symm e)]
    omega

/-! ## Objects that come and go -/

theorem Vfs.entryCount_zero (unnamed : ∀ o, x ∉ v.names o) : v.entryCount x = 0 := by
  apply Finset.sum_eq_zero
  intro o _
  exact count_eq_zero.mpr (unnamed o)

/-- A number that is given out is not that of an object. -/
theorem Vfs.Tied.number_new (h : v.Tied off) {cpu : Nat} {inodes : Maps}
    (alloc : doSlotAlloc v.inodes cpu = ((ino : Int), inodes)) {p : Nat} (hp : v.objects p = some i) :
    i.iNo ≠ ino := by
  obtain ⟨j, eq, _, unused, _⟩ := doSlotAlloc_took h.maps h.small alloc (Int.natCast_nonneg _)
  obtain rfl : ino = j := Int.ofNat_inj.mp eq
  intro e
  obtain ⟨n, same, _, set⟩ := h.used p i hp
  rw [← Int.ofNat_inj.mp same, e, unused] at set
  cases set

/-- A new object has one link and no entry yet. -/
theorem Vfs.Tied.birth (h : v.Tied off) {cpu : Nat} {new : VfsInode}
    (alloc : doSlotAlloc v.inodes cpu = ((ino : Int), v'.inodes)) (asked : v'.arena.asked = v.arena.asked + 1)
    (objects : v'.objects = update v.objects v.arena.asked (some new))
    (table : v'.inodeTable = update v.inodeTable ino (some v.arena.asked))
    (same : v'.root = v.root ∧ v'.cwd = v.cwd ∧ v'.releaseList = v.releaseList) (number : new.iNo = ino)
    (link : new.iLink = 1) (empty : new.list = []) (leaf : new.rbRoot = .nil) :
    v'.Tied fun x => if x = ino then -1 else off x := by
  obtain ⟨j, eq, has, _, ok, small, has', used⟩ :=
    doSlotAlloc_took h.maps h.small alloc (Int.natCast_nonneg _)
  obtain rfl : ino = j := Int.ofNat_inj.mp eq
  have none : v.objects v.arena.asked = none := h.fresh _ le_rfl
  have apart (p : Nat) (i : VfsInode) (hp : v.objects p = some i) : i.iNo ≠ ino := h.number_new alloc hp
  have old {p : Nat} {i : VfsInode} (hp : v.objects p = some i) : v'.objects p = some i := by
    rw [objects, update_of_ne, hp]
    rintro rfl
    cases none.symm.trans hp
  have noNames : new.names = [] := by
    rw [VfsInode.names, Dir.inos, empty]
    exact ite_self []
  have last : v.names v.arena.asked = [] := by
    rw [names, none]
    rfl
  have names : v'.names = v.names := by
    rw [update_names objects, noNames]
    exact update_eq_self_iff.mpr last.symm
  have unnamed (p : Nat) : ino ∉ v.names p := by
    intro hx
    obtain ⟨q, i, hq, e⟩ := h.named p ino hx
    exact apart q i hq e
  have counts (x : Nat) : v'.entryCount x = v.entryCount x := by
    rw [entryCount, entryCount, asked, names, Finset.sum_range_succ, last]
    rfl
  constructor
  · intro p hp
    rw [asked] at hp
    rw [objects, update_of_ne (by omega)]
    exact h.fresh p (by omega)
  · exact ok
  · exact small
  · intro p i hp
    obtain ⟨rfl, rfl⟩ | ⟨_, hp⟩ := object_cases objects hp
    · rw [number]
      exact ⟨ino, rfl, (has' ino).mpr has, by rw [used ino has]; simp⟩
    · obtain ⟨n, same, hasn, set⟩ := h.used p i hp
      exact ⟨n, same, (has' n).mpr hasn, by rw [used n hasn, set]; simp⟩
  · intro p q i j hp hq e
    obtain ⟨rfl, rfl⟩ | ⟨_, hp⟩ := object_cases objects hp <;>
      obtain ⟨rfl, rfl⟩ | ⟨_, hq⟩ := object_cases objects hq
    · rfl
    · exact absurd (e.symm.trans number) (apart q j hq)
    · exact absurd (e.trans number) (apart p i hp)
    · exact h.unique p q i j hp hq e
  · intro p i hp dir
    obtain ⟨rfl, rfl⟩ | ⟨_, hp⟩ := object_cases objects hp
    · exact Dir.Indexed.empty leaf empty
    · exact h.indexed p i hp dir
  · intro p i hp linked
    rw [table]
    obtain ⟨rfl, rfl⟩ | ⟨_, hp⟩ := object_cases objects hp
    · rw [number, update_self]
    · rw [update_of_ne (apart p i hp)]
      exact h.cached p i hp linked
  · intro p i hp dir
    obtain ⟨rfl, rfl⟩ | ⟨_, hp⟩ := object_cases objects hp
    · exact link
    · exact h.dirs p i hp dir
  · intro p i hp file
    rw [counts]
    obtain ⟨rfl, rfl⟩ | ⟨_, hp⟩ := object_cases objects hp
    · rw [number, link, entryCount_zero unnamed]
      simp
    · rw [if_neg (apart p i hp)]
      exact h.files p i hp file
  · intro p x hx
    rw [names] at hx
    obtain ⟨q, i, hq, e⟩ := h.named p x hx
    exact ⟨q, i, old hq, e⟩
  · obtain ⟨i, hi, dir⟩ := h.root
    rw [same.1]
    exact ⟨i, old hi, dir⟩
  · rw [same.1, same.2.1]
    exact h.cwd
  intro p hp
  rw [same.2.2] at hp
  obtain ⟨known, gone⟩ := h.released p hp
  refine ⟨by omega, fun i hi => ?_⟩
  obtain ⟨rfl, rfl⟩ | ⟨_, hi⟩ := object_cases objects hi
  · exact absurd known (lt_irrefl _)
  · exact gone i hi

/-- An object without links is freed. -/
theorem Vfs.Tied.drop (h : v.Tied off) (kept : v.Kept) {rest : List Nat} (live : v.objects o = some i)
    (list : v.releaseList = o :: rest) (free : v'.inodes = doSlotFree v.inodes i.iNo)
    (asked : v'.arena.asked = v.arena.asked) (objects : v'.objects = update v.objects o none)
    (table : v'.inodeTable = v.inodeTable) (same : v'.root = v.root ∧ v'.cwd = v.cwd)
    (released : v'.releaseList = rest) : v'.Tied off := by
  have gone : i.iLink = 0 := (h.released o (list ▸ mem_cons_self ..)).2 i live
  have file : ¬ i.isDir := fun dir => by
    have := h.dirs o i live dir
    omega
  have old {p : Nat} {j : VfsInode} (hp : v'.objects p = some j) : p ≠ o ∧ v.objects p = some j := by
    rw [objects] at hp
    by_cases e : p = o
    · subst e
      rw [update_self] at hp
      cases hp
    · rw [update_of_ne e] at hp
      exact ⟨e, hp⟩
  have still {p : Nat} {j : VfsInode} (hp : v.objects p = some j) (e : p ≠ o) : v'.objects p = some j := by
    rw [objects, update_of_ne e, hp]
  have none : i.names = [] := if_neg file
  have names : v'.names = v.names := by
    funext p
    by_cases e : p = o
    · subst e
      rw [names_of live, none, names, objects, update_self]
      rfl
    · rw [names, names, objects, update_of_ne e]
  have counts (x : Nat) : v'.entryCount x = v.entryCount x := by
    rw [entryCount, entryCount, asked, names]
  obtain ⟨ok, small, used, _⟩ := (h.used o i live).free h.maps h.small
  constructor
  · intro p hp
    rw [asked] at hp
    rw [objects, update_of_ne (ne_of_gt ((h.known live).trans_le hp))]
    exact h.fresh p hp
  · exact free ▸ ok
  · exact free ▸ small
  · intro p j hp
    obtain ⟨e, hp⟩ := old hp
    rw [free]
    apply used _ (h.used p j hp)
    intro eq
    exact e (h.unique p o j i hp live (Int.ofNat_inj.mp eq))
  · intro p q j k hp hq
    exact h.unique p q j k (old hp).2 (old hq).2
  · intro p j hp
    exact h.indexed p j (old hp).2
  · intro p j hp
    rw [table]
    exact h.cached p j (old hp).2
  · intro p j hp
    exact h.dirs p j (old hp).2
  · intro p j hp
    rw [counts]
    exact h.files p j (old hp).2
  · intro p x hx
    rw [names] at hx
    obtain ⟨q, j, _, hq, eq, linked⟩ := h.found kept hx
    refine ⟨q, j, still hq ?_, eq⟩
    rintro rfl
    cases live.symm.trans hq
    exact linked gone
  · obtain ⟨j, hj, dir⟩ := h.root
    rw [same.1]
    refine ⟨j, still hj ?_, dir⟩
    intro e
    rw [e, live] at hj
    cases hj
    exact file dir
  · rw [same.1, same.2]
    exact h.cwd
  intro p hp
  rw [released] at hp
  obtain ⟨known, gone⟩ := h.released p (list ▸ mem_cons_of_mem _ hp)
  exact ⟨asked ▸ known, fun j hj => gone j (old hj).2⟩

end

end SlotFs
