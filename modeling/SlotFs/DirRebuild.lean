import SlotFs.Directory
import SlotFs.Lib.Bytes

/-!
# Reading a directory back

`dir_rebuild` walks the chain of a directory in PM and enters what it finds in the list and
in the tree. It copies each entry to a `pm_dirent_t` on the stack, but only as many bytes as
a `dirent_t` has, so that `ts` and `next` keep what was on the stack.
-/

namespace SlotFs
open CWord Bytes Chains Function List

variable {curr : Int} {n : Nat}

/-- `name_len`, `name`, `ino`, `ts`, `next`, `csum` -/
def pmDirentT : List Field := [cChars 1, cChars 64, cLong, cLong, cLong, cInt]

/-- `list`, `idx`, `ts`, `ino`, `hash`, `rb_node`, `ref` -/
def direntT : List Field := [cLongs 2, cLong, cLong, cLong, cLong, cLongs 3, cInt]

/-- The first `n` bytes of `pd`, over what was in `stack`. -/
def copyDirent (n : Nat) (stack pd : PmDirent) : PmDirent where
  nameLen := if covers pmDirentT n 0 then pd.nameLen else stack.nameLen
  name := if covers pmDirentT n 1 then pd.name else stack.name
  ino := if covers pmDirentT n 2 then pd.ino else stack.ino
  ts := if covers pmDirentT n 3 then pd.ts else stack.ts
  next := if covers pmDirentT n 4 then pd.next else stack.next

def dirRebuildInsert (rb : Rbtree) (dir : Dir) (pd : PmDirent) (idx : Int) : Int × Dir :=
  match dir.arena.alloc with
  | (none, arena) => (enomem, { dir with arena })
  | (some d, arena) =>
    let dir := { dir with
      arena
      dents := update dir.dents d ⟨idx, pd.ts, pd.ino, bkdrHash (pd.name.take pd.nameLen)⟩ }
    let (ret, rbRoot) := dirIndexInsert rb dir d
    if ret ≠ 0 then (ret, dir) else (0, { dir with rbRoot, list := dir.list ++ [d] })

/-- The loop of `dir_rebuild`; `pd` is the entry on the stack. -/
def rebuildLoop (rb : Rbtree) (s : DirStorage) : Nat → Int → PmDirent → Dir → Int × Dir
  | 0, _, _, dir => (0, dir)
  | n + 1, curr, pd, dir =>
    let pd := copyDirent (structSize direntT) pd (s.dentTable curr)
    let (ret, dir) := dirRebuildInsert rb dir pd curr
    if ret ≠ 0 then (ret, dir) else rebuildLoop rb s n pd.next pd { dir with ghostSlot := pd.next }

def dirRebuild (rb : Rbtree) (s : DirStorage) (stack : PmDirent) (dir : Dir) : Int × Dir :=
  rebuildLoop rb s dir.entryNum dir.logHead stack { dir with ghostSlot := dir.logHead }

theorem copyDirent_eq (stack pd : PmDirent) : copyDirent (structSize direntT) stack pd =
    { pd with ts := stack.ts, next := stack.next } := by
  have cover : covers pmDirentT (structSize direntT) 0 ∧ covers pmDirentT (structSize direntT) 1 ∧
      covers pmDirentT (structSize direntT) 2 := by decide
  have bare : ¬ covers pmDirentT (structSize direntT) 3 ∧ ¬ covers pmDirentT (structSize direntT) 4 := by
    decide
  simp only [copyDirent, cover, bare, if_true, if_false, Bool.false_eq_true]

-- The copy ends where `ino` ends and `ts` begins.
example : offsets 0 pmDirentT = [0, 1, 72, 80, 88, 96] ∧ structSize direntT = 80 := by decide

/-! ## What the loop does -/

section
variable {rb : Rbtree} {s : DirStorage} {pd : PmDirent} {idx : Int} {dir dir' : Dir}

/-- A new entry has been put at the end. -/
structure Reinserted (dir : Dir) (pd : PmDirent) (idx : Int) (dir' : Dir) : Prop where
  asked : dir'.arena = { dir.arena with asked := dir.arena.asked + 1 }
  dents : dir'.dents = update dir.dents dir.arena.asked
    ⟨idx, pd.ts, pd.ino, bkdrHash (pd.name.take pd.nameLen)⟩
  list : dir'.list = dir.list ++ [dir.arena.asked]

theorem dirRebuildInsert_inserted (call : dirRebuildInsert rb dir pd idx = (0, dir')) :
    Reinserted dir pd idx dir' := by
  cases granted : dir.arena.grants dir.arena.asked with
  | false =>
    simp [dirRebuildInsert, Arena.alloc, granted, enomem] at call
  | true =>
    simp only [dirRebuildInsert, Arena.alloc, granted, if_true] at call
    split at call
    · rename_i failed
      exact absurd (congrArg Prod.fst call) failed
    · cases call
      exact ⟨rfl, rfl, rfl⟩

theorem rebuildLoop_next (run : rebuildLoop rb s (n + 1) curr pd dir = (0, dir')) :
    ∃ dir1, Reinserted dir { s.dentTable curr with ts := pd.ts, next := pd.next } curr dir1 ∧
      rebuildLoop rb s n pd.next { s.dentTable curr with ts := pd.ts, next := pd.next }
        { dir1 with ghostSlot := pd.next } = (0, dir') := by
  simp only [rebuildLoop, copyDirent_eq] at run
  generalize call : dirRebuildInsert rb dir { s.dentTable curr with ts := pd.ts, next := pd.next } curr =
    out at run
  obtain ⟨ret, dir1⟩ := out
  split at run
  · rename_i failed
    exact absurd (congrArg Prod.fst run) failed
  · rename_i done
    obtain rfl : ret = 0 := not_not.mp done
    exact ⟨dir1, dirRebuildInsert_inserted call, run⟩

theorem rebuildLoop_done (run : rebuildLoop rb s n curr pd dir = (0, dir')) :
    (∀ d, d < dir.arena.asked → dir'.dents d = dir.dents d) ∧
    (0 < n → dir'.ghostSlot = pd.next ∧ (dir'.dents dir.arena.asked).idx = curr) ∧
    dir'.list = dir.list ++ List.range' dir.arena.asked n := by
  induction n generalizing curr pd dir with
  | zero =>
    cases run
    simp
  | succ n ih =>
    obtain ⟨dir1, inserted, run⟩ := rebuildLoop_next run
    obtain ⟨dents, rest, list⟩ := ih run
    dsimp only at dents rest list
    rw [inserted.asked] at dents rest list
    dsimp only at dents rest list
    refine ⟨fun d below => ?_, fun _ => ⟨?_, ?_⟩, ?_⟩
    · rw [dents d (by omega), inserted.dents, update_of_ne (by omega)]
    · cases n with
      | zero =>
        cases run
        rfl
      | succ n => exact (rest (Nat.succ_pos n)).1
    · rw [dents _ (Nat.lt_succ_self _), inserted.dents, update_self]
    · rw [list, inserted.list, append_assoc, List.range'_succ]
      rfl

end

/-- Slot, inode number and hash of an entry. -/
def Dir.entry (dir : Dir) (d : Nat) : Int × Nat × Nat :=
  ((dir.dents d).idx, (dir.dents d).ino, (dir.dents d).hash)

/-- `dir'` has the entries of `dir`, and its ghost slot. -/
structure Restored (dir dir' : Dir) : Prop where
  list : dir'.list.map dir'.entry = dir.list.map dir.entry
  tree : ∀ hash, (direntLookup dir' hash).map dir'.entry = (direntLookup dir hash).map dir.entry
  ghost : dir'.ghostSlot = dir.ghostSlot

/-- What `inode_rebuild` has made of the inode in PM when it calls `dir_rebuild`. -/
structure Unread (dir : Dir) (s : DirStorage) (shell : Dir) : Prop where
  logHead : shell.logHead = s.pmLogHead dir.iNo
  entryNum : shell.entryNum = dir.list.length
  list : shell.list = []
  tree : shell.rbRoot = .nil
  granted : ∀ n, shell.arena.grants n = true

theorem Dir.Indexed.lookup_entry {dir : Dir} (h : dir.Indexed) {hash : Nat} {e : Int × Nat × Nat} :
    (direntLookup dir hash).map dir.entry = some e ↔ e ∈ dir.list.map dir.entry ∧ e.2.2 = hash := by
  rw [Option.map_eq_some_iff, mem_map]
  constructor
  · rintro ⟨d, found, rfl⟩
    obtain ⟨member, same⟩ := h.lookup.mp found
    exact ⟨⟨d, member, rfl⟩, same⟩
  · rintro ⟨⟨d, member, rfl⟩, same⟩
    exact ⟨d, h.lookup.mpr ⟨member, same⟩, rfl⟩

theorem Restored.of_list {dir dir' : Dir} (h : dir.Indexed) (h' : dir'.Indexed)
    (list : dir'.list.map dir'.entry = dir.list.map dir.entry) (ghost : dir'.ghostSlot = dir.ghostSlot) :
    Restored dir dir' := by
  refine ⟨list, fun hash => Option.ext fun e => ?_, ghost⟩
  rw [h'.lookup_entry, h.lookup_entry, list]

section
variable {rb : Rbtree} {s : DirStorage} {dir shell : Dir} {stack : PmDirent}

/-- The first entry is always entered. -/
theorem dirRebuildInsert_first (rb : Rbtree) (list : shell.list = []) (tree : shell.rbRoot = .nil)
    (granted : shell.arena.grants shell.arena.asked = true) (pd : PmDirent) (idx : Int) :
    ∃ dir', dirRebuildInsert rb shell pd idx = (0, dir') ∧ dir'.Indexed := by
  let d := shell.arena.asked
  refine ⟨{ shell with
    arena := { shell.arena with asked := d + 1 }
    dents := update shell.dents d ⟨idx, pd.ts, pd.ino, bkdrHash (pd.name.take pd.nameLen)⟩
    rbRoot := rb.insertColor d (.node d .nil .nil)
    list := shell.list ++ [d] }, ?_, ?_, ?_, ?_, ?_⟩
  · simp only [dirRebuildInsert, Arena.alloc, granted, if_true, dirIndexInsert, tree, BinaryTree.link,
      ne_eq, not_true_eq_false, if_false]
    rfl
  · rw [rb.insertColor_nodes, list]
    exact List.Perm.refl _
  · rw [BinaryTree.Ordered, rb.insertColor_nodes]
    exact pairwise_singleton _ _
  · rw [list]
    exact nodup_singleton _
  rw [list]
  intro e member
  rw [mem_singleton.mp member]
  exact Nat.lt_succ_self _

theorem Dir.Indexed.ghost (h : dir.Indexed) (slot : Int) : Dir.Indexed { dir with ghostSlot := slot } :=
  ⟨h.same, h.ordered, h.once, h.asked⟩

section
variable (unread : Unread dir s shell) (ok : dir.Ok s)
include unread ok

theorem Unread.start : shell.logHead = dir.logHead :=
  unread.logHead.trans ok.head

theorem Unread.none (empty : dir.list = []) :
    ∃ dir', dirRebuild rb s stack shell = (0, dir') ∧ Restored dir dir' := by
  have chain := ok.slots.chain
  have slots : dir.slots = [] := by
    rw [Dir.slots, empty]
    rfl
  rw [slots] at chain
  have indexed : shell.Indexed := .empty unread.tree unread.list
  refine ⟨{ shell with ghostSlot := shell.logHead }, ?_, .of_list ok.indexed (indexed.ghost _) ?_ ?_⟩
  · rw [dirRebuild, unread.entryNum, empty]
    rfl
  · dsimp only
    rw [unread.list, empty]
    rfl
  · dsimp only
    rw [unread.start ok]
    exact chain.nil

/-- One entry is read right, and after it `next` on the stack is taken for the ghost slot. -/
theorem Unread.one {d : Nat} (one : dir.list = [d]) (rb : Rbtree) (stack : PmDirent) :
    ∃ dir', dirRebuild rb s stack shell = (0, dir') ∧ dir'.Indexed ∧
      dir'.list.map dir'.entry = dir.list.map dir.entry ∧ dir'.ghostSlot = stack.next := by
  have first : dir.logHead = (dir.dents d).idx := (ok.first (show dir.list = [] ++ [d] from one)).mpr rfl
  have records := ok.records d (by rw [one]; exact mem_singleton_self d)
  have list : ({ shell with ghostSlot := shell.logHead } : Dir).list = [] := unread.list
  obtain ⟨dir1, call, indexed⟩ := dirRebuildInsert_first rb list unread.tree (unread.granted _)
    { s.dentTable shell.logHead with ts := stack.ts, next := stack.next } shell.logHead
  have inserted := dirRebuildInsert_inserted call
  refine ⟨{ dir1 with ghostSlot := stack.next }, ?_, indexed.ghost _, ?_, rfl⟩
  · have turns : shell.entryNum = 0 + 1 := by
      rw [unread.entryNum, one]
      rfl
    have walk := congrArg (fun n => rebuildLoop rb s n shell.logHead stack
      { shell with ghostSlot := shell.logHead }) turns
    refine walk.trans ?_
    simp only [rebuildLoop, copyDirent_eq, call, ne_eq, not_true_eq_false, if_false]
  have entry : dir1.dents shell.arena.asked =
      ⟨(dir.dents d).idx, stack.ts, (dir.dents d).ino, (dir.dents d).hash⟩ := by
    rw [inserted.dents, update_self]
    dsimp only
    rw [unread.start ok, first, records.nameLen, take_length, records.ino, records.hash]
  have list : dir1.list = [shell.arena.asked] := by
    rw [inserted.list]
    dsimp only
    rw [unread.list, nil_append]
  rw [one]
  simp only [list, map_singleton, Dir.entry, entry]

/-- From the second entry on the walk cannot be right: the slot read second and the ghost
slot are both `next` on the stack. -/
theorem Unread.many (many : 2 ≤ dir.list.length) {dir' : Dir} (run : dirRebuild rb s stack shell = (0, dir')) :
    ¬ Restored dir dir' := by
  intro restored
  obtain ⟨n, length⟩ : ∃ n, dir.list.length = n + 1 + 1 := ⟨dir.list.length - 2, by omega⟩
  rw [dirRebuild, unread.entryNum, length] at run
  have list := (rebuildLoop_done run).2.2
  obtain ⟨dir1, inserted, run⟩ := rebuildLoop_next run
  obtain ⟨ghost, second⟩ := (rebuildLoop_done run).2.1 (Nat.succ_pos n)
  dsimp only at ghost second list
  rw [inserted.asked] at second
  dsimp only at second
  have there : shell.arena.asked + 1 ∈ dir'.list := by
    rw [list, unread.list, nil_append, List.range'_succ, List.range'_succ]
    exact mem_cons_of_mem _ mem_cons_self
  have found : dir'.entry (shell.arena.asked + 1) ∈ dir.list.map dir.entry :=
    restored.list ▸ mem_map_of_mem there
  obtain ⟨d, member, same⟩ := mem_map.mp found
  have slot : (dir.dents d).idx = dir.ghostSlot := by
    rw [← restored.ghost, ghost, ← second]
    exact congrArg Prod.fst same
  exact ok.slots.ghost_new (slot ▸ mem_map_of_mem member)

end

end

/-- Inode 1 with `n` entries, as it is read from PM. -/
def unreadDir (n : Nat) : Dir :=
  { emptyDir.dir with entryNum := n, ghostSlot := 0 }

/-- `dir_rebuild` restores a directory if and only if it has no entry, or a single one and
the ghost slot happens to be on the stack where `next` is. -/
theorem dir_rebuild_restores_iff {dir : Dir} {s : DirStorage} (ok : dir.Ok s) {shell : Dir}
    (unread : Unread dir s shell) (rb : Rbtree) (stack : PmDirent) :
    (∃ dir', dirRebuild rb s stack shell = (0, dir') ∧ Restored dir dir') ↔
      dir.list.length = 0 ∨ dir.list.length = 1 ∧ stack.next = dir.ghostSlot := by
  constructor
  · rintro ⟨dir', run, restored⟩
    by_cases many : 2 ≤ dir.list.length
    · exact absurd restored (unread.many ok many run)
    by_cases none : dir.list.length = 0
    · exact Or.inl none
    obtain ⟨d, one⟩ := length_eq_one_iff.mp (show dir.list.length = 1 by omega)
    obtain ⟨dir1, run1, _, _, ghost⟩ := unread.one ok one rb stack
    cases run.symm.trans run1
    exact Or.inr ⟨by omega, ghost ▸ restored.ghost⟩
  rintro (none | ⟨one, next⟩)
  · exact unread.none ok (length_eq_zero_iff.mp none)
  · obtain ⟨d, one⟩ := length_eq_one_iff.mp one
    obtain ⟨dir1, run, indexed, list, ghost⟩ := unread.one ok one rb stack
    exact ⟨dir1, run, .of_list ok.indexed indexed list (ghost.trans next)⟩

theorem dir_rebuild_restores_one :
    ∃ dir', dirRebuild plainRb oneName.storage ⟨0, [], 0, 0, 2⟩ (unreadDir 1) = (0, dir') ∧
      Restored oneName.dir dir' :=
  (dir_rebuild_restores_iff (oneName_step.ok emptyDir_empty.ok)
    ⟨by decide +kernel, by decide +kernel, rfl, rfl, fun _ => rfl⟩ plainRb ⟨0, [], 0, 0, 2⟩).mpr
    (Or.inr (by decide +kernel))

/-- Two names, in slots 1 and 2, with the ghost slot 3: whatever is on the stack, they do
not come back. With zeros on the stack slot 0 is read second and taken for the ghost slot. -/
theorem second_entry_lost :
    (∀ rb stack dir', dirRebuild rb twoNames.storage stack (unreadDir 2) = (0, dir') →
      ¬ Restored twoNames.dir dir') ∧
    twoNames.dir.slots = [1, 2] ∧ twoNames.dir.ghostSlot = 3 ∧
    (dirRebuild plainRb twoNames.storage ⟨0, [], 0, 0, 0⟩ (unreadDir 2)).2.slots = [1, 0] ∧
    (dirRebuild plainRb twoNames.storage ⟨0, [], 0, 0, 0⟩ (unreadDir 2)).2.ghostSlot = 0 := by
  refine ⟨fun rb stack dir' run => ?_, by decide +kernel⟩
  have unread : Unread twoNames.dir twoNames.storage (unreadDir 2) :=
    ⟨by decide +kernel, by decide +kernel, rfl, rfl, fun _ => rfl⟩
  exact unread.many twoNames_ok (by decide +kernel) run

end SlotFs
