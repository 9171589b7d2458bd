import SlotFs.Directory
import SlotFs.Resize

/-!
# What `entry_num` counts

`dir_append_entry` counts a new entry in the inode that it names, while
`dir_remove_entry` takes it off the count of the directory that it was in. So `entry_num`
of an inode is off by the entries that were put into it as a directory, against those
that were made for it.
-/

namespace SlotFs
open CWord Runs Function List Option

variable {dir dir' : Dir} {env : Env} {name : List (BitVec 8)} {named : Nat} {new : NewNode} {node : Node}
  {r : Except Int Nat} {rb : Rbtree} {s s' : DirStorage} {sbi : Sbi} {w : Nodes}

/-- An inode in DRAM. The list is that of the entries of a directory or of the extents of
a file. -/
inductive Node
  | dir (d : Dir)
  | file (f : Inode)

def Node.iNo : Node → Nat
  | .dir d => d.iNo
  | .file f => f.iNo

def Node.entryNum : Node → Nat
  | .dir d => d.entryNum
  | .file f => f.entryNum

def Node.count : Node → Nat
  | .dir d => d.list.length
  | .file f => f.list.length

def Node.setEntryNum (n : Nat) : Node → Node
  | .dir d => .dir { d with entryNum := n }
  | .file f => .file { f with entryNum := n }

@[simp] theorem Node.setEntryNum_entryNum (n : Nat) (node : Node) : (node.setEntryNum n).entryNum = n := by
  cases node <;> rfl

@[simp] theorem Node.setEntryNum_count (n : Nat) (node : Node) : (node.setEntryNum n).count = node.count := by
  cases node <;> rfl

/-- The inodes by their place in DRAM. `into` and `named` are history only: how many
entries have been put into a directory, and how many have been made for an inode. -/
structure Nodes where
  sbi : Sbi
  dirs : DirStorage
  nodes : Nat → Option Node
  into : Nat → Nat
  named : Nat → Nat

open Nodes

/-! ## Making an inode -/

/-- `inode_create` of a directory, as far as `inode_flush`. -/
def dirCreate (cpu : Maps → Nat) (sbi : Sbi) (s : DirStorage) (granted : Bool) (entries : Nat → Bool) :
    Except Int Dir × Sbi × DirStorage :=
  let (index, inodes) := doSlotAlloc sbi.inodes (cpu sbi.inodes)
  let ino := toSize index
  let failed := { sbi with inodes := doSlotFree inodes (toInt64 ino) }
  if granted then
    let (ghost, dirs) := doSlotAlloc s.dirs (cpu s.dirs)
    if ghost < 0 then (.error enospc, failed, { s with dirs })
    else
      (.ok ⟨ino, 0, ghost, ghost, .nil, [], fun _ => ⟨0, 0, 0, 0⟩, ⟨0, entries⟩⟩,
        { sbi with inodes, pmSize := update sbi.pmSize ino 0 },
        { s with dirs, pmLogHead := update s.pmLogHead ino ghost })
  else (.error enomem, failed, s)

/-- What memory there is for a new inode, and of which kind it is. -/
structure NewNode where
  isDir : Bool
  granted : Bool
  nodes : Nat → Bool
  entries : Nat → Bool

/-- An inode before its entry is made. -/
def makeNode (env : Env) (sbi : Sbi) (s : DirStorage) (new : NewNode) :
    Option (Except Int Node × Sbi × DirStorage) :=
  if new.isDir then
    let (r, sbi, s) := dirCreate env.cpu sbi s new.granted new.entries
    some (r.map .dir, sbi, s)
  else (inodeCreate env sbi new.granted 0 new.nodes new.entries).map fun (r, sbi) =>
    (r.map fun inode => .file { inode with entryNum := 0 }, sbi, s)

/-- `inode_create` with the entry in the directory `parent`; `ts` is that of the new
inode. -/
def nodeCreate (rb : Rbtree) (env : Env) (sbi : Sbi) (s : DirStorage) (parent : Dir)
    (name : List (BitVec 8)) (ts : Nat) (new : NewNode) :
    Option (Except Int Node × Dir × Sbi × DirStorage) :=
  (makeNode env sbi s new).map fun
    | (.error e, sbi, s) => (.error e, parent, sbi, s)
    | (.ok node, sbi, s) =>
      match dirAppendEntry rb env.cpu s parent ⟨node.iNo, ts, node.entryNum⟩ name with
      | (.error e, parent, _, s) =>
        (.error e, parent, { sbi with inodes := doSlotFree sbi.inodes node.iNo }, s)
      | (.ok _, parent, entry, s) => (.ok (node.setEntryNum entry.entryNum), parent, sbi, s)

/-! ## Runs -/

def Nodes.set (w : Nodes) (o : Nat) (node : Node) : Nodes :=
  { w with nodes := update w.nodes o (some node) }

/-- An entry has been put into the directory `o`. -/
def Nodes.entered (w : Nodes) (o : Nat) (dir : Dir) : Nodes :=
  { w.set o (.dir dir) with into := update w.into o (w.into o + 1) }

/-- A new inode has its first entry. -/
def Nodes.born (w : Nodes) (o : Nat) (node : Node) : Nodes :=
  { w.set o node with
    into := update w.into o 0
    named := update w.named o 1 }

/-- Another entry has been made for the inode `o`. -/
def Nodes.linked (w : Nodes) (o : Nat) (node : Node) : Nodes :=
  { w.set o node with named := update w.named o (w.named o + 1) }

/-- One call of any outcome. `link` is given a file that exists, and the inode on the
stack of `slotfs_rename` is `entry`. Two calls are left out that give an entry back to its arena
while it is on a list, which is then no longer one: `slotfs_unlink` of a directory, and an
`inode_resize` that removes an entry. -/
inductive CountStep (w : Nodes) : Nodes → Prop
  | create (parent o : Nat) (dir dir' : Dir) (rb : Rbtree) (env : Env) (name : List (BitVec 8))
      (ts : Nat) (new : NewNode) (node : Node) (sbi : Sbi) (dirs : DirStorage)
      (live : w.nodes parent = some (.dir dir)) (free : w.nodes o = none)
      (call : nodeCreate rb env w.sbi w.dirs dir name ts new = some (.ok node, dir', sbi, dirs)) :
      CountStep w (({ w with sbi, dirs }.entered parent dir').born o node)
  | createFailed (parent : Nat) (dir dir' : Dir) (rb : Rbtree) (env : Env) (name : List (BitVec 8))
      (ts : Nat) (new : NewNode) (e : Int) (sbi : Sbi) (dirs : DirStorage)
      (live : w.nodes parent = some (.dir dir))
      (call : nodeCreate rb env w.sbi w.dirs dir name ts new = some (.error e, dir', sbi, dirs)) :
      CountStep w ({ w with sbi, dirs }.set parent (.dir dir'))
  | link (parent o : Nat) (dir dir' : Dir) (file : Inode) (rb : Rbtree) (cpu : Maps → Nat)
      (name : List (BitVec 8)) (ts d : Nat) (entry : EntryInode) (dirs : DirStorage)
      (live : w.nodes parent = some (.dir dir)) (target : w.nodes o = some (.file file))
      (call : dirAppendEntry rb cpu w.dirs dir ⟨file.iNo, ts, file.entryNum⟩ name =
        (.ok d, dir', entry, dirs)) :
      CountStep w (({ w with dirs }.entered parent dir').linked o
        (.file { file with entryNum := entry.entryNum }))
  | linkFailed (parent : Nat) (dir dir' : Dir) (entry entry' : EntryInode) (rb : Rbtree)
      (cpu : Maps → Nat) (name : List (BitVec 8)) (e : Int) (dirs : DirStorage)
      (live : w.nodes parent = some (.dir dir))
      (call : dirAppendEntry rb cpu w.dirs dir entry name = (.error e, dir', entry', dirs)) :
      CountStep w ({ w with dirs }.set parent (.dir dir'))
  | unlink (parent d : Nat) (dir dir' : Dir) (rb : Rbtree) (dirs : DirStorage)
      (live : w.nodes parent = some (.dir dir)) (member : d ∈ dir.list)
      (call : dirRemoveEntry rb w.dirs dir d = some (dir', dirs)) :
      CountStep w ({ w with dirs }.set parent (.dir dir'))
  | rename (newParent oldParent d d' : Nat) (newDir newDir' oldDir oldDir' : Dir)
      (entry entry' : EntryInode) (rb : Rbtree) (cpu : Maps → Nat) (name : List (BitVec 8))
      (dirs dirs' : DirStorage) (live : w.nodes newParent = some (.dir newDir))
      (append : dirAppendEntry rb cpu w.dirs newDir entry name = (.ok d', newDir', entry', dirs))
      (live' : (w.entered newParent newDir').nodes oldParent = some (.dir oldDir))
      (member : d ∈ oldDir.list) (call : dirRemoveEntry rb dirs oldDir d = some (oldDir', dirs')) :
      CountStep w (({ w with dirs := dirs' }.entered newParent newDir').set oldParent (.dir oldDir'))
  | write (o : Nat) (file file' : Inode) (env : Env) (buf : Mem) (len offset : Nat) (ret : Int) (sbi : Sbi)
      (live : w.nodes o = some (.file file))
      (call : inodeWriteAtomic env w.sbi file buf len offset = some (ret, file', sbi)) :
      CountStep w ({ w with sbi }.set o (.file file'))
  | resize (o : Nat) (file file' : Inode) (env : Env) (ts : Nat) (pmLogHead : Int) (links : Links)
      (newSize : Nat) (ret : Int) (sbi : Sbi) (live : w.nodes o = some (.file file))
      (nothing : newSize < file.iSize → file.CutsNothing newSize)
      (call : inodeResize env ts pmLogHead links w.sbi file newSize = some (ret, file', sbi)) :
      CountStep w ({ w with sbi }.set o (.file file'))

/-! ## The counts -/

/-- `entry_num` of an inode, with `into` entries put into it and `named` made for it. -/
structure Node.Counts (node : Node) (into named : Nat) : Prop where
  small : node.entryNum < 2 ^ 64
  law : (node.entryNum + into) % 2 ^ 64 = (node.count + named) % 2 ^ 64
  files : ∀ file, node = .file file → into = 0

theorem dirAppendEntry_counts {cpu : Maps → Nat} {inode inode' : EntryInode}
    (call : dirAppendEntry rb cpu s dir inode name = (r, dir', inode', s')) : dir'.entryNum = dir.entryNum ∧
      match r with
      | .ok _ => dir'.list.length = dir.list.length + 1 ∧ inode'.entryNum = wrap64 (inode.entryNum + 1)
      | .error _ => dir'.list.length = dir.list.length := by
  unfold dirAppendEntry at call
  split at call
  · cases call
    exact ⟨rfl, rfl⟩
  dsimp only at call
  split at call
  · cases call
    exact ⟨rfl, rfl⟩
  · cases call
    exact ⟨rfl, by simp, rfl⟩

theorem dirRemoveEntry_counts {d : Nat} (member : d ∈ dir.list)
    (call : dirRemoveEntry rb s dir d = some (dir', s')) :
    dir'.entryNum = sub64 dir.entryNum 1 ∧ dir'.list.length + 1 = dir.list.length := by
  obtain ⟨⟨logHead, pmLogHead, table⟩, _, eq⟩ := map_eq_some_iff.mp call
  cases eq
  refine ⟨rfl, ?_⟩
  have := length_pos_of_mem member
  dsimp only
  rw [length_erase_of_mem member]
  omega

theorem fileAppendEntry_counts {s s' : Storage} {inode inode' : Inode} {entry : PmFilent} {into : Nat}
    (h : (Node.file inode).Counts into named) (call : fileAppendEntry env s inode entry = some (r, inode', s')) :
    (Node.file inode').Counts into named := by
  obtain ⟨small, law, plain⟩ := h
  simp only [Node.entryNum, Node.count] at small law
  have none_into : into = 0 := plain inode rfl
  obtain ⟨c, inode1, files, eq, choice⟩ | ⟨_, num, eq⟩ :=
    chooseEntry_cases env s.files inode (trunc32 (entry.blocks * 4096))
  · simp only [fileAppendEntry, eq] at call
    obtain ⟨⟨_, inode2, _⟩, insert, rest⟩ := map_eq_some_iff.mp call
    cases rest
    obtain ⟨tree, inode3, rfl, recounted⟩ := fileIndexInsert_recounted insert
    have num : inode3.entryNum = inode1.entryNum := by rw [recounted.rest]; rfl
    have list : inode3.list = if c.reuse.isSome then inode1.list else inode1.list ++ [c.fe] := by
      rw [recounted.rest]
      rfl
    have same : inode1.entryNum = inode.entryNum ∧ inode1.list = inode.list := by
      cases choice <;> exact ⟨rfl, rfl⟩
    rw [same.1] at num
    rw [same.2] at list
    cases reuse : c.reuse.isSome <;> simp only [reuse, Bool.false_eq_true, if_false, if_true] at list ⊢
    · constructor
      · exact wrap64_lt _
      · simp only [Node.entryNum, Node.count, list, num, length_append, length_singleton, wrap64]
        omega
      · exact fun _ _ => none_into
    constructor
    · simpa only [Node.entryNum, num] using small
    · simpa only [Node.entryNum, Node.count, list, num] using law
    · exact fun _ _ => none_into
  · simp only [fileAppendEntry, eq] at call
    cases call
    exact ⟨small, law, fun _ _ => none_into⟩

theorem Node.Counts.congr {into : Nat} (h : (Node.dir dir).Counts into named)
    (num : dir'.entryNum = dir.entryNum) (list : dir'.list.length = dir.list.length) :
    (Node.dir dir').Counts into named := by
  obtain ⟨small, law, _⟩ := h
  simp only [Node.entryNum, Node.count] at small law
  constructor
  · simpa only [Node.entryNum, num] using small
  · simpa only [Node.entryNum, Node.count, num, list] using law
  · exact nofun

def Nodes.Counted (w : Nodes) : Prop :=
  ∀ o node, w.nodes o = some node → node.Counts (w.into o) (w.named o)

section
variable {w : Nodes} {o : Nat}

section
variable (h : w.Counted)
include h

/-- One inode changes, and with it its history. -/
theorem Nodes.Counted.change {w' : Nodes}
    (others : ∀ p, p ≠ o → w'.nodes p = w.nodes p ∧ w'.into p = w.into p ∧ w'.named p = w.named p)
    (own : w'.nodes o = some node) (counts : node.Counts (w'.into o) (w'.named o)) : w'.Counted := by
  intro p node' live
  by_cases e : p = o
  · subst e
    obtain rfl := some.inj (own.symm.trans live)
    exact counts
  · obtain ⟨nodes, into, named⟩ := others p e
    rw [into, named]
    exact h p node' (nodes ▸ live)

theorem Nodes.Counted.set (counts : node.Counts (w.into o) (w.named o)) : (w.set o node).Counted :=
  h.change (fun _ e => ⟨update_of_ne e _ _, rfl, rfl⟩) (update_self ..) counts

theorem Nodes.Counted.entered {dir dir' : Dir} (live : w.nodes o = some (.dir dir))
    (num : dir'.entryNum = dir.entryNum) (list : dir'.list.length = dir.list.length + 1) :
    (w.entered o dir').Counted := by
  obtain ⟨small, law, _⟩ := h o _ live
  simp only [Node.entryNum, Node.count] at small law
  refine h.change (fun _ e => ⟨update_of_ne e _ _, update_of_ne e _ _, rfl⟩)
    (update_self ..) ⟨?_, ?_, nofun⟩
  · simpa only [Node.entryNum, num] using small
  · simp only [Nodes.entered, Nodes.set, update_self, Node.entryNum, Node.count, num, list]
    omega

theorem Nodes.Counted.removed {dir dir' : Dir} (live : w.nodes o = some (.dir dir))
    (less : dir'.entryNum = sub64 dir.entryNum 1 ∧ dir'.list.length + 1 = dir.list.length) :
    (w.set o (.dir dir')).Counted := by
  obtain ⟨small, law, _⟩ := h o _ live
  obtain ⟨num, list⟩ := less
  simp only [Node.entryNum, Node.count] at law small
  apply h.set
  constructor
  · simp only [Node.entryNum, num]
    exact sub64_lt _ _
  · simp only [Node.entryNum, Node.count, num, sub64]
    omega
  · exact nofun

theorem Nodes.Counted.born (num : node.entryNum = 1) (empty : node.count = 0) : (w.born o node).Counted := by
  refine h.change (fun _ e => ⟨update_of_ne e _ _, update_of_ne e _ _,
    update_of_ne e _ _⟩) (update_self ..) ⟨?_, ?_, ?_⟩
  · omega
  · simp [Nodes.born, num, empty]
  · exact fun _ _ => update_self ..

theorem Nodes.Counted.linked {file : Inode} (live : w.nodes o = some (.file file)) {n : Nat}
    (num : n = wrap64 (file.entryNum + 1)) : (w.linked o (.file { file with entryNum := n })).Counted := by
  obtain ⟨small, law, plain⟩ := h o _ live
  simp only [Node.entryNum, Node.count] at law
  refine h.change (fun _ e => ⟨update_of_ne e _ _, rfl, update_of_ne e _ _⟩)
    (update_self ..) ⟨?_, ?_, ?_⟩
  · exact num ▸ wrap64_lt _
  · simp only [Nodes.linked, Nodes.set, update_self, Node.entryNum, Node.count, num, wrap64]
    omega
  · exact fun _ _ => plain file rfl

end

end

theorem makeNode_counts {sbi' : Sbi} (call : makeNode env sbi s new = some (.ok node, sbi', s')) :
    node.entryNum = 0 ∧ node.count = 0 := by
  unfold makeNode at call
  split at call
  · generalize made : dirCreate env.cpu sbi s new.granted new.entries = out at call
    obtain ⟨_ | dir, _, _⟩ := out
    · cases call
    cases call
    simp only [dirCreate] at made
    split at made
    · split at made
      · cases made
      · cases made
        exact ⟨rfl, rfl⟩
    · cases made
  · obtain ⟨⟨_ | inode, _⟩, made, eq⟩ := map_eq_some_iff.mp call
    · cases eq
    cases eq
    simp only [inodeCreate] at made
    split at made
    · obtain ⟨inode', create, eq⟩ := map_eq_some_iff.mp made
      obtain ⟨tree, _, rfl⟩ := map_eq_some_iff.mp create
      split at eq
      · cases eq
      split at eq
      · cases eq
      · cases eq
        exact ⟨rfl, rfl⟩
    · cases made

/-- `inode_create` puts one entry into the parent and begins the count of the new inode
with it. -/
theorem nodeCreate_counts {sbi' : Sbi} {ts : Nat} {r : Except Int Node}
    (call : nodeCreate rb env sbi s dir name ts new = some (r, dir', sbi', s')) : dir'.entryNum = dir.entryNum ∧
      match r with
      | .ok node => dir'.list.length = dir.list.length + 1 ∧ node.entryNum = 1 ∧ node.count = 0
      | .error _ => dir'.list.length = dir.list.length := by
  obtain ⟨⟨_ | node, sbi1, s1⟩, make, eq⟩ := map_eq_some_iff.mp call
  · cases eq
    exact ⟨rfl, rfl⟩
  obtain ⟨num, empty⟩ := makeNode_counts make
  dsimp only at eq
  generalize append : dirAppendEntry rb env.cpu s1 dir ⟨node.iNo, ts, node.entryNum⟩ name = out at eq
  obtain ⟨_ | d, dir1, entry, s2⟩ := out
  · cases eq
    exact dirAppendEntry_counts append
  cases eq
  obtain ⟨same, list, entryNum⟩ := dirAppendEntry_counts append
  refine ⟨same, list, ?_, by simpa using empty⟩
  simp [entryNum, num, wrap64]

theorem CountStep.counted {w' : Nodes} (h : w.Counted) (step : CountStep w w') : w'.Counted := by
  cases step with
  | create parent o dir dir' rb env name ts new node sbi dirs live free call =>
    obtain ⟨num, list, one, empty⟩ := nodeCreate_counts call
    have entered : ({ w with sbi, dirs }.entered parent dir').Counted :=
      .entered h live num list
    exact entered.born one empty
  | createFailed parent dir dir' rb env name ts new e sbi dirs live call =>
    obtain ⟨num, list⟩ := nodeCreate_counts call
    exact .set h ((h parent _ live).congr num list)
  | link parent o dir dir' file rb cpu name ts d entry dirs live target call =>
    obtain ⟨num, list, entryNum⟩ := dirAppendEntry_counts call
    have entered : ({ w with dirs }.entered parent dir').Counted := .entered h live num list
    have other : o ≠ parent := by
      rintro rfl
      cases live.symm.trans target
    have still : ({ w with dirs }.entered parent dir').nodes o = some (.file file) :=
      (update_of_ne other _ _).trans target
    exact entered.linked still entryNum
  | linkFailed parent dir dir' entry entry' rb cpu name e dirs live call =>
    obtain ⟨num, list⟩ := dirAppendEntry_counts call
    exact .set h ((h parent _ live).congr num list)
  | unlink parent d dir dir' rb dirs live member call =>
    exact .removed h live (dirRemoveEntry_counts member call)
  | rename newParent oldParent d d' newDir newDir' oldDir oldDir' entry entry' rb cpu name dirs dirs' live
      append live' member call =>
    obtain ⟨num, list, _⟩ := dirAppendEntry_counts append
    have entered : ({ w with dirs := dirs' }.entered newParent newDir').Counted :=
      .entered h live num list
    exact entered.removed live' (dirRemoveEntry_counts member call)
  | write o file file' env buf len offset ret sbi live call =>
    apply Counted.set h
    exact inodeWriteAtomic_keeps (P := fun inode _ => (Node.file inode).Counts (w.into o) (w.named o))
      fileAppendEntry_counts (fun _ h => h) (fun _ h => ⟨h.small, h.law, fun _ _ => h.files _ rfl⟩)
      (h o _ live) call
  | resize o file file' env ts pmLogHead links newSize ret sbi live nothing call =>
    apply Counted.set h
    exact inodeResize_keeps (P := fun inode _ => (Node.file inode).Counts (w.into o) (w.named o))
      fileAppendEntry_counts (fun _ h => h) nothing (h o _ live) call

/-- The counts are right and nothing has happened yet. -/
structure Nodes.Exact (w : Nodes) : Prop where
  counts : ∀ o node, w.nodes o = some node → node.entryNum = node.count ∧ node.count < 2 ^ 64
  into : ∀ o, w.into o = 0
  named : ∀ o, w.named o = 0

theorem Nodes.Exact.counted (h : w.Exact) : w.Counted := by
  intro o node live
  obtain ⟨num, small⟩ := h.counts o node live
  constructor
  · omega
  · rw [h.into, h.named, num]
  · exact fun _ _ => h.into o

/-! ## Concrete runs -/

/-- A root directory without entries. -/
def rootOnly : Nodes :=
  ⟨blankSbi 64 0#8, emptyDir.storage, fun o => if o = 0 then some (.dir emptyDir.dir) else none,
    fun _ => 0, fun _ => 0⟩

theorem rootOnly_exact : rootOnly.Exact := by
  refine ⟨fun o node live => ?_, fun _ => rfl, fun _ => rfl⟩
  simp only [rootOnly] at live
  split at live
  · cases live
    exact ⟨rfl, by decide⟩
  · cases live

/-- A new inode named by one character, for which there is memory. -/
def nodeIn (w : Nodes) (parent : Dir) (c : BitVec 8) (isDir : Bool) : Option (Node × Dir × Sbi × DirStorage) :=
  match nodeCreate plainRb firstFit w.sbi w.dirs parent [c] 0 ⟨isDir, true, fun _ => true, fun _ => true⟩ with
  | some (.ok node, parent, sbi, dirs) => some (node, parent, sbi, dirs)
  | _ => none

theorem CountStep.of_nodeIn (parent o : Nat) {c : BitVec 8} {isDir : Bool} {dirs : DirStorage}
    (live : w.nodes parent = some (.dir dir)) (free : w.nodes o = none)
    (call : nodeIn w dir c isDir = some (node, dir', sbi, dirs)) :
    CountStep w (({ w with sbi, dirs }.entered parent dir').born o node) := by
  unfold nodeIn at call
  split at call
  · cases call
    exact .create parent o dir dir' plainRb firstFit [c] 0 _ node sbi dirs live free (by assumption)
  · cases call

end SlotFs
