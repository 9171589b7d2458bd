import SlotFs.Namespace
import SlotFs.VfsLinks

/-!
# Calls on the namespace

Each call does at most one step of the namespace. `slotfs_rename` does not look whether the
new directory is below what it moves, and `slotfs_unlink` gives up an inode that
`slotfs_link` has given another name, whose number can then become that of a directory.
-/

namespace SlotFs
open CWord Outcome Runs Relation Function List Option Vfs VfsInode

variable {d o parent x : Nat} {dir i i' inode : VfsInode} {entry entry' : EntryInode}
  {name path : List (BitVec 8)} {r : Except Int Nat}

/-- The inode that the entry of a path names. -/
def Vfs.namedBy (v : Vfs) (env : VfsEnv) (path : List (BitVec 8)) : Option Nat := do
  let (parent, name) ← v.lookupParent env path
  let dir ← v.objects parent
  match v.inodeLookup parent name with
  | some (.ok (some d)) => some (dir.dents d).ino
  | _ => none

/-- The directory `o` has an entry for the directory `p`. -/
def Vfs.Child (v : Vfs) (o p : Nat) : Prop := ∃ i, v.objects p = some i ∧ i.isDir ∧ i.iNo ∈ v.names o

/-- Every directory but the root is named by one entry, none is below itself, and all are
reached from the root. -/
structure Vfs.IsTree (v : Vfs) : Prop where
  named : ∀ p i, v.objects p = some i → i.isDir → p ≠ v.root → v.entryCount i.iNo = 1
  acyclic : ∀ p, ¬ TransGen v.Child p p
  reachable : ∀ p i, v.objects p = some i → i.isDir → ReflTransGen v.Child v.root p

/-- What is unlinked has no other entry, and a directory is not moved to itself or to a
directory below it. -/
def KeepsTree (env : VfsEnv) (v : Vfs) : VfsCall → Prop
  | .unlink path => ∀ x, v.namedBy env path = some x → v.entryCount x ≤ 1
  | .rename oldpath newpath => ∀ x dir name, v.namedBy env oldpath = some x →
      v.lookupParent env newpath = some (dir, name) →
      ∀ p i, v.objects p = some i → i.isDir → i.iNo = x → ¬ ReflTransGen v.Child p dir
  | _ => True

section
variable {v v' w : Vfs} {off : Nat → Int} {env : VfsEnv}

theorem Vfs.namedBy_of (lookup : v.lookupParent env path = some (parent, name))
    (entry : v.Holds parent name dir d) : v.namedBy env path = some (dir.dents d).ino := by
  simp [namedBy, lookup, entry.live, inodeLookup, entry.isDir, entry.found]

/-! ## The namespace of a state -/

def VfsInode.spaceNode (i : VfsInode) : SpaceNode := ⟨i.iNo, i.isDir, decide (i.iLink ≠ 0)⟩

def Vfs.space (v : Vfs) : Space where
  root := v.root
  node := fun o => (v.objects o).map spaceNode
  names := fun o x => (v.names o).count x

theorem Vfs.space_node (live : v.objects o = some i) : v.space.node o = some i.spaceNode := by
  simp [space, live]

theorem Vfs.space_node_iff {n : SpaceNode} :
    v.space.node o = some n ↔ ∃ i, v.objects o = some i ∧ i.spaceNode = n := map_eq_some_iff

theorem Vfs.space_names : v.space.names o x ≠ 0 ↔ x ∈ v.names o :=
  count_eq_zero.not_left

theorem Vfs.space_dirAt {p : Nat} : v.space.DirAt p x ↔ ∃ i, v.objects p = some i ∧ i.isDir ∧ i.iNo = x := by
  constructor
  · rintro ⟨n, hn, isDir, number⟩
    obtain ⟨i, live, rfl⟩ := space_node_iff.mp hn
    exact ⟨i, live, isDir, number⟩
  · rintro ⟨i, live, isDir, number⟩
    exact ⟨i.spaceNode, space_node live, isDir, number⟩

theorem Vfs.space_child : v.space.Child = v.Child := by
  funext o p
  apply propext
  constructor
  · rintro ⟨x, dir, named⟩
    obtain ⟨i, live, isDir, rfl⟩ := space_dirAt.mp dir
    exact ⟨i, live, isDir, space_names.mp named⟩
  · rintro ⟨i, live, isDir, named⟩
    exact ⟨i.iNo, space_dirAt.mpr ⟨i, live, isDir, rfl⟩, space_names.mpr named⟩

theorem Vfs.space_congr (root : v'.root = v.root) (objects : v'.objects = v.objects) : v'.space = v.space := by
  simp only [space, names, root, objects]

/-- One object is replaced. -/
theorem Vfs.space_set {o : Nat} {i' : VfsInode} (root : v'.root = v.root)
    (objects : v'.objects = update v.objects o (some i')) :
    v'.space = ⟨v.root, update v.space.node o (some i'.spaceNode),
      update v.space.names o fun x => i'.names.count x⟩ := by
  apply Space.ext
  · exact root
  · funext p
    by_cases e : p = o
    · subst e
      simp [space, objects]
    · simp [space, objects, e]
  funext p
  by_cases e : p = o
  · subst e
    simp [space, update_names objects]
  · simp [space, update_names objects, e]

/-- The object keeps its entries. -/
theorem Vfs.space_setNode (root : v'.root = v.root)
    (objects : v'.objects = update v.objects o (some i')) (names : i'.names = v.names o) :
    v'.space = v.space.setNode o (some i'.spaceNode) := by
  rw [space_set root objects, names]
  exact Space.ext rfl rfl (update_eq_self ..)

theorem Vfs.space_same (live : v.objects o = some i) (root : v'.root = v.root)
    (objects : v'.objects = update v.objects o (some i')) (node : i'.spaceNode = i.spaceNode)
    (names : i'.names = i.names) : v'.space = v.space := by
  rw [space_setNode root objects (names.trans (names_of live).symm), node, ← space_node live]
  exact Space.ext rfl (update_eq_self ..) rfl

theorem Vfs.space_ref (live : v.objects o = some i) (ref : Nat) (root : v'.root = v.root)
    (objects : v'.objects = update v.objects o (some { i with ref })) : v'.space = v.space :=
  space_same live root objects rfl rfl

/-- A directory gets other entries. -/
theorem Vfs.space_setDir {dir : Dir} (dirs : DirStorage) (live : v.objects parent = some inode)
    (isDir : inode.isDir) (ino : dir.iNo = inode.iNo) :
    ({ v with dirs }.setObject parent { inode with toDir := dir }).space =
      ⟨v.root, v.space.node, update v.space.names parent fun x => dir.inos.count x⟩ := by
  have node : VfsInode.spaceNode { inode with toDir := dir } = inode.spaceNode := by
    simp only [VfsInode.spaceNode, ino, VfsInode.isDir]
  refine (@Vfs.space_set v ({ v with dirs }.setObject parent _) parent _ rfl rfl).trans ?_
  rw [node, ← space_node live, VfsInode.names_dir isDir]
  exact Space.ext rfl (update_eq_self ..) rfl

theorem Vfs.space_names_dir (live : v.objects parent = some inode) (isDir : inode.isDir) (x : Nat) :
    v.space.names parent x = inode.inos.count x := by
  show (v.names parent).count x = _
  rw [names_of live, VfsInode.names, if_pos isDir]

theorem Vfs.space_append (live : v.objects parent = some inode) (isDir : inode.isDir)
    (indexed : inode.toDir.Indexed) (absent : direntLookup inode.toDir (bkdrHash name) = none)
    (call : v.dirAppendEntry env parent entry name = some (r, entry', v')) :
    (∃ d, r = .ok d) ∧ v'.space = v.space.enter parent entry.iNo ∨ (∃ e, r = .error e) ∧ v'.space = v.space := by
  have old := space_names_dir live isDir
  obtain ⟨dir, dirs, rfl, ino, _, ⟨d, ghost, rfl, entered⟩ | ⟨rfl, list, dents⟩⟩ :=
    dirAppendEntry_spec live indexed absent call
  · refine .inl ⟨⟨d, rfl⟩, ?_⟩
    rw [space_setDir dirs live isDir ino]
    refine Space.ext rfl rfl ?_
    funext p x
    rw [Space.enter_names]
    by_cases e : p = parent
    · subst e
      simp [entered.inos, count_singleton, old, @eq_comm Nat x]
    · simp [e]
  refine .inr ⟨⟨_, rfl⟩, ?_⟩
  have inos : dir.inos = inode.inos := by rw [Dir.inos, Dir.inos, list, dents]
  rw [space_setDir dirs live isDir ino, inos]
  refine Space.ext rfl rfl ?_
  refine update_eq_self_iff.mpr ?_
  funext x
  exact (old x).symm

theorem Vfs.space_remove (live : v.objects parent = some inode) (isDir : inode.isDir)
    (indexed : inode.toDir.Indexed) (member : d ∈ inode.list) (call : v.dirRemoveEntry env parent d = some v') :
    v'.space = v.space.leave parent (inode.dents d).ino := by
  have old := space_names_dir live isDir
  obtain ⟨dir, dirs, rfl, erased⟩ := dirRemoveEntry_spec live indexed call
  rw [space_setDir dirs live isDir erased.same.1]
  refine Space.ext rfl rfl ?_
  funext p x
  rw [Space.leave_names]
  by_cases e : p = parent
  · subst e
    simp [old, (erased.inos member).count_eq x, count_cons, @eq_comm Nat x]
  · simp [e]

/-! ## Calls -/

/-- Nothing happens to the namespace, or one step of it that is allowed. -/
def Vfs.Steps (v w : Vfs) : Prop :=
  w.space = v.space ∨ ∃ a, v.space.Step a w.space ∧ v.space.Allows a

theorem Vfs.Holds.space (entry : v.Holds parent name dir d) (h : v.Tied off) :
    v.space.names parent (dir.dents d).ino ≠ 0 :=
  space_names.mpr (entry.named h)

theorem Vfs.Vacant.space (vacant : v.Vacant parent name dir) : v.space.IsDir parent :=
  ⟨dir.iNo, space_dirAt.mpr ⟨dir, vacant.live, vacant.isDir, rfl⟩⟩

/-- The entry is made in one directory and then removed from the other. -/
theorem Vfs.Tied.space_moved (h : v.Tied off) {oldDir newDir c : Nat} {oldName newName : List (BitVec 8)}
    {ts entryNum : Nat} {v1 : Vfs} (entry : v.Holds oldDir oldName dir d) (vacant : v.Vacant newDir newName inode)
    (append : v.dirAppendEntry env newDir ⟨(dir.dents d).ino, ts, entryNum⟩ newName = some (.ok c, entry', v1))
    (remove : v1.dirRemoveEntry env oldDir d = some w) :
    w.space = (v.space.enter newDir (dir.dents d).ino).leave oldDir (dir.dents d).ino := by
  have indexed := h.indexed newDir inode vacant.live vacant.isDir
  have entered : v1.space = v.space.enter newDir (dir.dents d).ino := by
    obtain ⟨_, entered⟩ | ⟨⟨_, bad⟩, _⟩ :=
      space_append vacant.live vacant.isDir indexed vacant.absent append
    · exact entered
    · cases bad
  have tied : ∃ off, v1.Tied off := by
    obtain ⟨_, _, tied⟩ | ⟨bad, _⟩ :=
      h.append vacant.live vacant.isDir vacant.absent (h.named oldDir _ (entry.named h)) append
    · exact ⟨_, tied⟩
    · cases bad
  obtain ⟨_, tied⟩ := tied
  obtain ⟨j, hj, jDir, member, dents⟩ := dirAppendEntry_still vacant.live vacant.isDir indexed
    vacant.absent entry.live entry.isDir (entry.member h) append
  rw [space_remove hj jDir (tied.indexed oldDir j hj jDir) member remove, entered, dents]

theorem Vfs.Renames.steps {oldpath newpath : List (BitVec 8)} (renames : v.Renames env oldpath newpath w)
    (h : v.Tied off) (allowed : KeepsTree env v (.rename oldpath newpath)) : v.Steps w := by
  cases renames with
  | refused => exact .inl rfl
  | @moved oldDir newDir d oldName newName dir inode entry' r v1 _ old entry new vacant append ended =>
    obtain ⟨⟨e, rfl⟩, rfl⟩ | ⟨⟨c, rfl⟩, remove⟩ := ended
    · obtain ⟨⟨_, bad⟩, _⟩ | ⟨_, same⟩ := space_append vacant.live vacant.isDir
        (h.indexed newDir inode vacant.live vacant.isDir) vacant.absent append
      · cases bad
      · exact .inl same
    refine .inr ⟨.move oldDir newDir (dir.dents d).ino, ?_, ?_⟩
    · rw [h.space_moved entry vacant append remove]
      exact .move vacant.space (entry.space h)
    intro p moved
    obtain ⟨i, live, isDir, number⟩ := space_dirAt.mp moved
    rw [space_child]
    exact allowed _ newDir newName (namedBy_of old entry) new p i live isDir number

theorem Vfs.dirAppendEntry_other (call : v.dirAppendEntry env parent entry name = some (r, entry', v'))
    (ne : o ≠ parent) : v'.objects o = v.objects o := by
  obtain ⟨inode, _, eq⟩ := bind_eq_some_iff.mp call
  cases eq
  exact update_of_ne ne ..

/-- A file is not where the entry is made. -/
theorem Vfs.Vacant.ne_file (vacant : v.Vacant parent name dir) (live : v.objects o = some i) (file : ¬ i.isDir) :
    o ≠ parent := by
  rintro rfl
  have same := vacant.live
  cases live.symm.trans same
  exact file vacant.isDir

theorem Vfs.Links.tied (links : v.Links env w) (h : v.Tied off) : ∃ off', w.Tied off' := by
  cases links with
  | refused => exact ⟨off, h⟩
  | @linked o p parent name i dir entry' r v1 _ live file named vacant append ended =>
    have still := (dirAppendEntry_other append (vacant.ne_file live file)).trans live
    have tied : ∃ off', v1.Tied off' := by
      obtain ⟨_, _, tied⟩ | ⟨_, tied⟩ :=
        h.append vacant.live vacant.isDir vacant.absent ⟨o, i, live, rfl⟩ append
      · exact ⟨_, tied⟩
      · exact ⟨_, tied⟩
    obtain ⟨off', tied⟩ := tied
    obtain ⟨_, rfl⟩ | ⟨_, rfl⟩ := ended
    · exact ⟨off', tied⟩
    · exact ⟨_, tied.setFile still { i with entryNum := entry'.entryNum } (v1.setObject o _)
        ⟨rfl, rfl, rfl, rfl, rfl, rfl⟩ rfl rfl rfl le_rfl fun _ => rfl⟩

theorem Vfs.Links.steps (links : v.Links env w) (h : v.Tied off) (kept : v.Kept) : v.Steps w := by
  cases links with
  | refused => exact .inl rfl
  | @linked o p parent name i dir entry' r v1 _ live file named vacant append ended =>
    have linked : i.iLink ≠ 0 := kept p i.iNo named o i live rfl
    have apart := vacant.ne_file live file
    have file : i.spaceNode.isDir = false := Bool.eq_false_of_not_eq_true file
    obtain ⟨⟨c, rfl⟩, entered⟩ | ⟨⟨e, rfl⟩, same⟩ := space_append vacant.live vacant.isDir
      (h.indexed parent dir vacant.live vacant.isDir) vacant.absent append
    · obtain ⟨⟨_, bad⟩, _⟩ | ⟨_, rfl⟩ := ended
      · cases bad
      have still := (dirAppendEntry_other append apart).trans live
      have same : (v1.setObject o { i with entryNum := entry'.entryNum }).space = v1.space :=
        space_same still rfl rfl rfl rfl
      refine .inr ⟨.link parent i.iNo, ?_, trivial⟩
      rw [same, entered]
      exact .link (space_node live) file (decide_eq_true linked)
    · obtain ⟨_, rfl⟩ | ⟨⟨_, bad⟩, _⟩ := ended
      · exact .inl same
      · cases bad

/-- No other entry names the inode. -/
theorem Vfs.Tied.only_entry (h : v.Tied off) (named : x ∈ v.names parent) (le : v.entryCount x ≤ 1) (q : Nat) :
    v.space.names q x ≤ if q = parent then 1 else 0 := by
  have known := Finset.mem_range.mpr (h.known_names named)
  have pos : 0 < (v.names parent).count x := count_pos_iff.mpr named
  show (v.names q).count x ≤ _
  by_cases e : q = parent
  · subst e
    rw [if_pos rfl]
    exact (Finset.single_le_sum (fun p _ => Nat.zero_le ((v.names p).count x)) known).trans le
  rw [if_neg e]
  by_contra also
  have also : 0 < (v.names q).count x := not_le.mp also
  have both : (v.names q).count x + (v.names parent).count x ≤ v.entryCount x :=
    Finset.add_le_sum (fun p _ => Nat.zero_le ((v.names p).count x))
      (Finset.mem_range.mpr (h.known_names (count_pos_iff.mp also))) known e
  omega

theorem Vfs.dirRemoveEntry_other (call : v.dirRemoveEntry env parent d = some v') (ne : o ≠ parent) :
    v'.objects o = v.objects o := by
  obtain ⟨inode, _, call⟩ := bind_eq_some_iff.mp call
  obtain ⟨removed, _, eq⟩ := bind_eq_some_iff.mp call
  cases eq
  exact update_of_ne ne ..

theorem Vfs.Holds.ne_file (entry : v.Holds parent name dir d) (live : v.objects o = some i) (file : ¬ i.isDir) :
    o ≠ parent := by
  rintro rfl
  have same := entry.live
  cases live.symm.trans same
  exact file entry.isDir

theorem VfsInode.names_link (i : VfsInode) (iLink : Nat) : names { i with iLink } = i.names := rfl

theorem Vfs.Unlinks.steps (unlinks : v.Unlinks env path w) (h : v.Tied off) (kept : v.Kept)
    (allowed : KeepsTree env v (.unlink path)) : v.Steps w := by
  cases unlinks with
  | refused => exact .inl rfl
  | @removed parent d o name dir i i1 v1 _ lookup entry live file number remove left ended =>
    have only : v.space.Allows (.unlink parent i.iNo) := by
      rw [number]
      exact h.only_entry (entry.named h) (allowed _ (namedBy_of lookup entry))
    have same := (dirRemoveEntry_other remove (entry.ne_file live file)).trans live
    cases left.symm.trans same
    have last : sub64 i.iLink 1 = 0 := by
      have linked := kept parent i.iNo (number ▸ entry.named h) o i live rfl
      obtain ⟨le, _⟩ := h.files o i live file
      rw [sub64_of_le (by omega) (by omega)]
      omega
    have removed := space_remove entry.live entry.isDir (h.indexed parent dir entry.live entry.isDir)
      (entry.member h) remove
    have ended : w.root = v1.root ∧
        w.objects = update v1.objects o (some { i with iLink := sub64 i.iLink 1 }) := by
      obtain rfl | ⟨rfl, _⟩ := ended
      · exact ⟨rfl, rfl⟩
      · exact ⟨rfl, rfl⟩
    have names := (names_link i (sub64 i.iLink 1)).trans (names_of left).symm
    refine .inr ⟨.unlink parent i.iNo, ?_, only⟩
    rw [space_setNode ended.1 ended.2 names, removed, ← number]
    have gone : spaceNode { i with iLink := sub64 i.iLink 1 } = { i.spaceNode with linked := false } := by
      rw [last]
      rfl
    rw [gone]
    exact .unlink (space_node live) (Bool.eq_false_of_not_eq_true file)

/-- The new inode is entered into the directory. -/
theorem Vfs.Creates.steps {mode ino : Nat} {ghost : Int} {w0 : Vfs}
    (creates : v.Creates env parent name mode o ino ghost w0 entry w) (h : v.Tied off)
    (vacant : v.Vacant parent name dir) : v.Steps w := by
  obtain ⟨rfl, ⟨inodes, dirs, alloc, made⟩, d, w', append, rfl⟩ := creates
  have none : v.objects v.arena.asked = none := h.fresh _ le_rfl
  have apart : parent ≠ v.arena.asked := (h.known vacant.live).ne
  have root : w0.root = v.root := by rw [made]; rfl
  have objects : w0.objects = update v.objects v.arena.asked (some (newVfsInode env ino mode ghost)) := by
    rw [made]
    rfl
  have own : w0.objects v.arena.asked = some (newVfsInode env ino mode ghost) := by
    rw [objects, update_self]
  have empty : (newVfsInode env ino mode ghost).names = v.names v.arena.asked := by
    rw [names, none]
    exact ite_self []
  have there : w0.Vacant parent name dir := by
    refine ⟨?_, vacant.isDir, vacant.absent⟩
    rw [objects, update_of_ne apart]
    exact vacant.live
  have left := (dirAppendEntry_other append apart.symm).trans own
  have same : (w'.setObject v.arena.asked
      { newVfsInode env ino mode ghost with entryNum := entry.entryNum }).space = w'.space :=
    space_same left rfl rfl rfl rfl
  have entered : w'.space = w0.space.enter parent ino := by
    obtain ⟨_, entered⟩ | ⟨⟨_, bad⟩, _⟩ := space_append there.live there.isDir
      (h.indexed parent dir vacant.live vacant.isDir) there.absent append
    · exact entered
    · cases bad
  refine .inr ⟨.create parent v.arena.asked ino (newVfsInode env ino mode ghost).isDir, ?_, trivial⟩
  rw [same, entered, space_setNode root objects empty]
  refine .create vacant.space ?_ fun p n hn => ?_
  · simp [space, none]
  · obtain ⟨i, live, rfl⟩ := space_node_iff.mp hn
    exact h.number_new alloc live

theorem Vfs.Opens.steps {mode : Nat} {bound : Prop} (opens : v.Opens env mode bound r w) (h : v.Tied off) :
    v.Steps w := by
  cases opens with
  | failed e => exact .inl rfl
  | took o i found live => exact .inl (space_ref live _ rfl rfl)
  | kept o was => exact .inl rfl
  | @created parent o name dir i v1 vacant create live =>
    obtain ⟨ino, ghost, w0, entry, creates⟩ := creates create
    have steps := creates.steps h vacant
    have same : ((v1.setObject o { i with ref := refInc i.ref }).icacheInstall i.iNo o).space = v1.space :=
      space_ref live _ rfl rfl
    rwa [Steps, same]

theorem Vfs.slotfsClose_space (v : Vfs) (fd : Int) : Ends (v.slotfsClose fd) fun r => r.2.space = v.space := by
  unfold slotfsClose
  split
  · exact .none
  split
  · exact .some rfl
  rename_i o _
  split
  · apply Ends.bind
    intro i live
    apply Ends.some
    dsimp only
    split
    · exact space_ref live _ rfl rfl
    · split
      · exact space_ref live _ rfl rfl
      · exact space_ref live _ rfl rfl
  · exact .some rfl

theorem Vfs.space_drop (live : v.objects o = some i) (file : ¬ i.isDir) (root : w.root = v.root)
    (objects : w.objects = update v.objects o none) : w.space = v.space.setNode o none := by
  have none : i.names = [] := if_neg file
  apply Space.ext
  · exact root
  · funext p
    by_cases e : p = o
    · subst e
      simp [space, objects]
    · simp [space, Space.setNode, objects, e]
  funext p x
  by_cases e : p = o
  · subst e
    simp [space, Space.setNode, names, objects, live, none]
  · simp [space, Space.setNode, names, objects, e]

theorem Vfs.Tied.thread_steps (h : v.Tied off) : Ends v.releaseThread fun w => v.Steps w := by
  unfold releaseThread
  split
  · exact .some (.inl rfl)
  rename_i o rest list
  apply Ends.bind
  intro i live
  split
  · exact .none
  apply Ends.some
  have live : v.objects o = some i := live
  have gone : i.iLink = 0 := (h.released o (list ▸ mem_cons_self ..)).2 i live
  have file : ¬ i.isDir := fun dir => by
    have := h.dirs o i live dir
    omega
  refine .inr ⟨.drop o, ?_, trivial⟩
  rw [space_drop (w := { v with
      releaseList := rest, inodes := doSlotFree v.inodes i.iNo, objects := update v.objects o none })
    live file rfl rfl]
  refine .drop (space_node live) (Bool.eq_false_of_not_eq_true file) ?_
  simp [spaceNode, gone]

/-! ## Runs -/

theorem Vfs.Steps.sound (steps : v.Steps w) (h : v.space.Sound) : w.space.Sound := by
  obtain same | ⟨a, step, allowed⟩ := steps
  · rwa [same]
  · exact step.sound allowed h

theorem Vfs.kept_of_sound (h : v.space.Sound) : v.Kept := by
  intro o x hx p i live same
  obtain ⟨q, n, hn, number, linked⟩ := h.known o x (space_names.mpr hx)
  obtain ⟨j, hj, rfl⟩ := space_node_iff.mp hn
  obtain rfl := h.unique p q _ _ (space_node live) hn (same.trans number.symm)
  cases live.symm.trans hj
  exact of_decide_eq_true linked

structure Vfs.Ordered (v : Vfs) : Prop where
  tied : ∃ off, v.Tied off
  sound : v.space.Sound

theorem Vfs.Mounted.ordered (h : v.Mounted) : v.Ordered := by
  refine ⟨⟨_, h.tied⟩, ?_⟩
  obtain ⟨root, live, isDir, number, list, _⟩ := h.root
  have dir : v.space.IsDir v.root := ⟨root.iNo, space_dirAt.mpr ⟨root, live, isDir, rfl⟩⟩
  have only {o : Nat} {n : SpaceNode} (hn : v.space.node o = some n) : o = v.root := by
    by_contra e
    obtain ⟨i, hi, _⟩ := space_node_iff.mp hn
    cases (h.alone o e).symm.trans hi
  have bare (o x : Nat) : v.space.names o x = 0 := by
    refine count_eq_zero.mpr ?_
    by_cases e : o = v.root
    · rw [e, names_of live, VfsInode.names, if_pos isDir, Dir.inos, list]
      exact not_mem_nil
    · rw [names, h.alone o e]
      exact not_mem_nil
  refine ⟨fun o p n m hn hm _ => (only hn).trans (only hm).symm, fun o x named => absurd (bare o x) named, ?_⟩
  refine ⟨dir, fun p x _ o => (bare o x).trans_le (Nat.zero_le 1), ?_, ?_, ?_, ?_⟩
  · rintro o p ⟨x, _, named⟩
    exact absurd (bare o x) named
  · rintro o o' p ⟨x, _, named⟩
    exact absurd (bare o x) named
  · rintro o ⟨x, _, named⟩
    exact absurd (bare o x) named
  · rintro p ⟨x, n, hn, _⟩
    rw [only hn]
    exact .refl

/-- One call. -/
theorem VfsStep.ordered (step : VfsStep KeepsTree v w) (h : v.Ordered) : w.Ordered := by
  obtain ⟨⟨off, tied⟩, sound⟩ := h
  have kept := kept_of_sound sound
  cases step with
  | call env c w ok call spares =>
    cases c with
    | «open» dfd path flags mode =>
      obtain ⟨⟨ret, w⟩, open', rfl⟩ := map_eq_some_iff.mp call
      obtain rfl | ⟨fd, v1, s, v2, alloc, opens, ended⟩ := tied.opens kept env dfd path flags mode _ open'
      · exact ⟨⟨off, tied⟩, sound⟩
      obtain ⟨frame, objects⟩ := fdAlloc_frame alloc
      have marked := space_congr frame.root objects
      obtain ⟨_, off', tied2, _⟩ := opens.tied (tied.congr frame objects)
      have sound2 := (opens.steps (tied.congr frame objects)).sound (marked ▸ sound)
      obtain ⟨e, _, eq⟩ | ⟨o, _, eq⟩ := ended
      · exact eq ▸ ⟨⟨off', tied2⟩, sound2⟩
      · exact eq ▸ ⟨⟨off', tied2.congr ⟨rfl, rfl, rfl, rfl, rfl, rfl⟩ rfl⟩, sound2⟩
    | close fd =>
      obtain ⟨r, close, rfl⟩ := map_eq_some_iff.mp call
      refine ⟨⟨off, (tied.close fd r close).1⟩, ?_⟩
      rwa [v.slotfsClose_space fd r close]
    | link target link =>
      obtain ⟨r, link, rfl⟩ := map_eq_some_iff.mp call
      have links := tied.links kept env target _ r link
      exact ⟨links.tied tied, (links.steps tied kept).sound sound⟩
    | unlink path =>
      obtain ⟨r, unlink, rfl⟩ := map_eq_some_iff.mp call
      have unlinks := tied.unlinks kept env path r unlink spares
      exact ⟨⟨off, (tied.unlink kept env path r unlink spares).1⟩, (unlinks.steps tied kept ok).sound sound⟩
    | rename oldpath newpath =>
      obtain ⟨r, rename, rfl⟩ := map_eq_some_iff.mp call
      have renames := tied.renames kept env oldpath newpath r rename
      exact ⟨⟨off, (tied.rename kept env oldpath newpath r rename).1⟩, (renames.steps tied ok).sound sound⟩
    | release => exact ⟨⟨off, (tied.thread kept w call).1⟩, (tied.thread_steps w call).sound sound⟩

theorem Vfs.Ordered.isTree (h : v.Ordered) : v.IsTree := by
  obtain ⟨⟨off, tied⟩, sound⟩ := h
  have rooted := sound.tree.rooted
  rw [space_child] at rooted
  have reach (p : Nat) (i : VfsInode) (live : v.objects p = some i) (isDir : i.isDir) :
      ReflTransGen v.Child v.root p := rooted.reach p ⟨i.iNo, space_dirAt.mpr ⟨i, live, isDir, rfl⟩⟩
  refine ⟨?_, rooted.acyclic, reach⟩
  intro p i live isDir other
  have dir : v.space.DirAt p i.iNo := space_dirAt.mpr ⟨i, live, isDir, rfl⟩
  obtain same | ⟨o, _, edge⟩ := ReflTransGen.cases_tail (reach p i live isDir)
  · exact absurd same other
  obtain ⟨j, hj, _, named⟩ := edge
  cases live.symm.trans hj
  have one : (v.names o).count i.iNo = 1 :=
    le_antisymm (sound.tree.once p i.iNo dir o) (one_le_count_iff.mpr named)
  rw [entryCount, Finset.sum_eq_single o, one]
  · intro q _ ne
    apply count_eq_zero.mpr
    intro also
    exact ne (rooted.unique q o p ⟨i, live, isDir, also⟩ ⟨i, live, isDir, named⟩)
  · intro unknown
    exact absurd (Finset.mem_range.mpr (tied.known_names named)) unknown

/-- The paths `/a`, `/b` and `/a/b`. -/
def pathA : List (BitVec 8) := [slash, 0x61#8]
def pathB : List (BitVec 8) := [slash, 0x62#8]
def pathAB : List (BitVec 8) := pathA ++ pathB

def mkdirA : VfsCall := .open atFdcwd pathA ⟨true, false, false⟩ 0o040755

/-- A directory that is not the root can always be moved to the root. -/
theorem Vfs.Ordered.not_below (h : v.Ordered) {p : Nat} (ne : p ≠ v.root) : ¬ ReflTransGen v.Child p v.root := by
  intro below
  obtain same | ⟨o, _, edge⟩ := ReflTransGen.cases_tail below
  · exact ne same.symm
  · rw [← space_child] at edge
    exact h.sound.tree.rooted.top o edge

/-- In every run in which no file is unlinked that has another entry and no directory is, and
nothing is renamed to a place below itself, the namespace is a tree. -/
theorem namespace_stays_tree (mounted : v.Mounted) (run : Run (VfsStep KeepsTree) v w) : w.IsTree := by
  have ordered : w.Ordered :=
    Run.invariant (I := fun v : Vfs => v.Ordered) (fun h step => step.ordered h) run mounted.ordered
  exact ordered.isTree

/-- A file gets a second name, and a directory is made and renamed. -/
theorem namespace_stays_tree_renamed : mountedVfs.Mounted ∧
    ∃ w, Run (VfsStep KeepsTree) mountedVfs w ∧ w.names 0 = [1, 1, 2] ∧ w.IsTree := by
  have calls : (mountedVfs.callAll plainVfsEnv [createF, .link pathF pathG, mkdirA]).bind (fun v =>
      (v.callSparing plainVfsEnv (.rename pathA pathB)).map fun w => (v.root, v.namedBy plainVfsEnv pathA,
        (v.lookupParent plainVfsEnv pathB).map Prod.fst, (v.objects 0).map (·.iNo), w.names 0)) =
        some (0, some 2, some 0, some 0, [1, 1, 2]) := by decide +kernel
  obtain ⟨v, made, seen⟩ := bind_eq_some_iff.mp calls
  obtain ⟨w, renamed, eq⟩ := map_eq_some_iff.mp seen
  simp only [Prod.mk.injEq] at eq
  obtain ⟨root, named, parent, number, names⟩ := eq
  have start : Run (VfsStep KeepsTree) mountedVfs v := by
    refine run_calls (fun c member v => ?_) made
    simp only [mem_cons, not_mem_nil, or_false] at member
    obtain rfl | rfl | rfl := member <;> trivial
  have ordered : v.Ordered :=
    Run.invariant (I := fun v : Vfs => v.Ordered) (fun h step => step.ordered h) start mountedVfs_mounted.ordered
  have allowed : KeepsTree plainVfsEnv v (.rename pathA pathB) := by
    intro x dir name hx hdir p i live isDir same
    obtain rfl : x = 2 := some.inj (hx.symm.trans named)
    rw [hdir] at parent
    obtain rfl : dir = v.root := (some.inj parent).trans root.symm
    apply ordered.not_below
    rintro rfl
    rw [root] at live
    rw [live] at number
    rw [map_some, same] at number
    cases number
  have run : Run (VfsStep KeepsTree) mountedVfs w := start.tail (.of_sparing allowed renamed)
  exact ⟨mountedVfs_mounted, w, run, names, namespace_stays_tree mountedVfs_mounted run⟩

/-- A new file system with two inodes. -/
def smallVfs : Vfs := { mountedVfs with inodes := (doSlotAlloc (emptyMaps 2) 0).2 }

theorem smallVfs_mounted : smallVfs.Mounted := by
  have zero : doSlotAlloc (emptyMaps 2) 0 = (0, smallVfs.inodes) := Prod.ext (by decide +kernel) rfl
  obtain ⟨held, _⟩ := (Held.none (emptyMaps_ok 2) fun _ _ => show 2 ≤ 2 ^ 31 by decide).alloc zero le_rfl
  refine ⟨⟨_, rfl, ?_, rfl, rfl, rfl, rfl, rfl⟩, fun o ho => if_neg ho, Nat.one_pos, rfl, rfl,
    ⟨held.maps, held.small, held.taken 0 (by simp)⟩, fun _ => rfl, rfl⟩
  decide

/-- The directory `/a` is renamed to `/a/b`, and is then in itself and nowhere else. A file
is linked and unlinked and its number given to the directory `/a`, which then has two names. -/
theorem renamed_into_itself : smallVfs.Mounted ∧
    (∃ w, Run (VfsStep fun _ _ _ => True) smallVfs w ∧ w.names 0 = [] ∧ w.Child 1 1 ∧ ¬ w.IsTree) ∧
    ∃ w i, Run (VfsStep fun _ _ _ => True) smallVfs w ∧ w.objects 2 = some i ∧ i.isDir ∧
      w.entryCount i.iNo = 2 ∧ ¬ w.IsTree := by
  refine ⟨smallVfs_mounted, ?_, ?_⟩
  · have calls : (smallVfs.callAll plainVfsEnv [mkdirA, .rename pathA pathAB]).bind
        (fun w => (w.objects 1).map fun i => (w.names 0, i.isDir, i.iNo, w.names 1)) =
          some ([], true, 1, [1]) := by decide +kernel
    obtain ⟨w, call, seen⟩ := bind_eq_some_iff.mp calls
    obtain ⟨i, live, eq⟩ := map_eq_some_iff.mp seen
    simp only [Prod.mk.injEq] at eq
    obtain ⟨empty, isDir, number, names⟩ := eq
    have child : w.Child 1 1 := by
      refine ⟨i, live, isDir, ?_⟩
      rw [number, names]
      exact mem_singleton_self 1
    exact ⟨w, run_calls (fun _ _ _ => trivial) call, empty, child, fun tree => tree.acyclic 1 (.single child)⟩
  · have calls : (smallVfs.callAll plainVfsEnv
        [createF, .link pathF pathG, .close 0, .unlink pathF, .release, mkdirA]).bind
        (fun w => (w.objects 2).map fun i => (i.isDir, w.entryCount i.iNo, w.root)) =
          some (true, 2, 0) := by decide +kernel
    obtain ⟨w, call, seen⟩ := bind_eq_some_iff.mp calls
    obtain ⟨i, live, eq⟩ := map_eq_some_iff.mp seen
    simp only [Prod.mk.injEq] at eq
    obtain ⟨isDir, count, root⟩ := eq
    refine ⟨w, i, run_calls (fun _ _ _ => trivial) call, live, isDir, count, fun tree => ?_⟩
    have one := tree.named 2 i live isDir (by rw [root]; decide)
    cases count.symm.trans one

end

end SlotFs
