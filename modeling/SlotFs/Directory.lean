import SlotFs.Lib.SearchTree
import SlotFs.SlotChain

/-!
# Directories

The part of `inode.c` that keeps the entries of a directory: in a tree by the hash of
the name, in a list, and in PM on a chain of slots from `log_head` to the ghost slot.
Entries (`dirent_t`) are numbered in the order in which the directory asked for them.
-/

namespace SlotFs
open CWord Chains Runs Function List Option BinaryTree

variable {back front : List Nat} {d hash : Nat} {dir : Dir} {rb : Rbtree} {s : DirState}
  {table : Int → PmDirent}

structure Dirent where
  idx : Int
  ts : Nat
  ino : Nat
  hash : Nat

/-- An entry in PM; the name is as long as `name_len` says. -/
structure PmDirent where
  nameLen : Nat
  name : List (BitVec 8)
  ino : Nat
  ts : Nat
  next : Int

structure Dir where
  iNo : Nat
  entryNum : Nat
  logHead : Int
  ghostSlot : Int
  rbRoot : BinaryTree Nat
  list : List Nat
  dents : Nat → Dirent
  arena : Arena

/-- The slots of `SLOT_DIR`, and `log_head` of the inodes in PM by number. -/
structure DirStorage where
  dirs : Maps
  dentTable : Int → PmDirent
  pmLogHead : Nat → Int

/-- What `dir_append_entry` reads and writes of the inode that it enters. -/
structure EntryInode where
  iNo : Nat
  ts : Nat
  entryNum : Nat

/-- `rbtree.c`: what becomes of the nodes from left to right when a new leaf is coloured
and when a node is erased. -/
structure Rbtree where
  insertColor : Nat → BinaryTree Nat → BinaryTree Nat
  erase : Nat → BinaryTree Nat → BinaryTree Nat
  insertColor_nodes : ∀ d t, (insertColor d t).nodes = t.nodes
  erase_nodes : ∀ d t, (erase d t).nodes = t.nodes.erase d

/-- The characters are signed. -/
def bkdrHash (name : List (BitVec 8)) : Nat :=
  name.foldl (fun hash c => wrapInt64 (hash * 131 + c.toInt)) 0

def eexist : Int := -17

def direntLookup (dir : Dir) (hash : Nat) : Option Nat :=
  dir.rbRoot.find (fun d => (dir.dents d).hash) hash

def dirIndexInsert (rb : Rbtree) (dir : Dir) (d : Nat) : Int × BinaryTree Nat :=
  match dir.rbRoot.link (fun d => (dir.dents d).hash) d with
  | some tree => (0, rb.insertColor d tree)
  | none => (eexist, dir.rbRoot)

/-- `dir_append_entry`, which counts the entry in the inode that it names. It looks
neither at the result of `dir_index_insert` nor, in effect, at that of
`slot_dirent_alloc`, which is -1 when there is no slot. -/
def dirAppendEntry (rb : Rbtree) (cpu : Maps → Nat) (s : DirStorage) (dir : Dir) (inode : EntryInode)
    (name : List (BitVec 8)) : Except Int Nat × Dir × EntryInode × DirStorage :=
  match dir.arena.alloc with
  | (none, arena) => (.error enomem, { dir with arena }, inode, s)
  | (some d, arena) =>
    let dno := dir.ghostSlot
    let (ghost, dirs) := doSlotAlloc s.dirs (cpu s.dirs)
    if ghost < -1 then (.error enospc, { dir with arena }, inode, { s with dirs })
    else
      let dir := { dir with
        arena, ghostSlot := ghost
        dents := update dir.dents d ⟨dno, inode.ts, inode.iNo, bkdrHash name⟩ }
      let (_, rbRoot) := dirIndexInsert rb dir d
      let pd := ⟨name.length % 256, name, inode.iNo, inode.ts, ghost⟩
      (.ok d, { dir with rbRoot, list := dir.list ++ [d] },
        { inode with entryNum := wrap64 (inode.entryNum + 1) },
        { s with dirs, dentTable := update s.dentTable dno pd })

def setDirNext (table : Int → PmDirent) (slot next : Int) : Int → PmDirent :=
  update table slot { table slot with next }

/-- `next_ptr`: the slot that follows the one of `d` on the chain. -/
def dirNext (dir : Dir) (d : Nat) : Int :=
  match nextOf dir.list d with
  | some next => (dir.dents next).idx
  | none => dir.ghostSlot

/-- `none` is the store through the head of the list, taken for an entry in front of an
entry that is the first although `log_head` is not its slot. -/
def dirRemoveEntry (rb : Rbtree) (s : DirStorage) (dir : Dir) (d : Nat) : Option (Dir × DirStorage) :=
  let idx := (dir.dents d).idx
  let next := dirNext dir d
  let linked := if dir.logHead = idx then
      some (next, update s.pmLogHead dir.iNo next, s.dentTable)
    else (prevOf dir.list d).map fun prev =>
      (dir.logHead, s.pmLogHead, setDirNext s.dentTable (dir.dents prev).idx next)
  linked.map fun (logHead, pmLogHead, table) =>
    ({ dir with
        logHead, rbRoot := rb.erase d dir.rbRoot, list := dir.list.erase d
        entryNum := sub64 dir.entryNum 1 },
      { dirs := doSlotFree s.dirs idx, pmLogHead, dentTable := setDirNext table idx 0 })

/-! ## Tree, list and chain -/

/-- The tree and the list hold the same entries. -/
structure Dir.Indexed (dir : Dir) : Prop where
  same : dir.rbRoot.nodes.Perm dir.list
  ordered : dir.rbRoot.Ordered fun d => (dir.dents d).hash
  once : dir.list.Nodup
  asked : ∀ d ∈ dir.list, d < dir.arena.asked

theorem Dir.Indexed.empty (tree : dir.rbRoot = .nil) (list : dir.list = []) : dir.Indexed := by
  refine ⟨?_, ?_, ?_, ?_⟩
  · rw [tree, list]
    exact List.Perm.refl []
  · rw [tree]
    exact List.Pairwise.nil
  · rw [list]
    exact nodup_nil
  · rw [list]
    exact fun _ hd => nomatch hd

/-- What is found in the tree is the entry on the list with the hash. -/
theorem Dir.Indexed.lookup (h : dir.Indexed) :
    direntLookup dir hash = some d ↔ d ∈ dir.list ∧ (dir.dents d).hash = hash := by
  rw [direntLookup, find_eq_some h.ordered, h.same.mem_iff]

theorem Dir.Indexed.present (h : dir.Indexed) (found : direntLookup dir hash = some d) : d ∈ dir.list :=
  (h.lookup.mp found).1

/-- No entry has the hash that was not found. -/
theorem Dir.Indexed.absent (h : dir.Indexed) (absent : direntLookup dir hash = none) :
    ∀ d ∈ dir.list, (dir.dents d).hash ≠ hash := by
  intro d hd same
  cases absent.symm.trans (h.lookup.mpr ⟨hd, same⟩)

def DirStorage.next (s : DirStorage) (slot : Int) : Int := (s.dentTable slot).next

def Dir.slots (dir : Dir) : List Int := dir.list.map fun d => (dir.dents d).idx

/-- What an entry in PM says about an entry in DRAM. -/
structure PmDirent.Records (r : PmDirent) (d : Dirent) : Prop where
  ino : r.ino = d.ino
  ts : r.ts = d.ts
  hash : bkdrHash r.name = d.hash
  nameLen : r.nameLen = r.name.length

/-- The entry `d` for `inode` has been put at the end; the next one is going to `ghost`. -/
structure DirEntered (dir : Dir) (inode : EntryInode) (name : List (BitVec 8)) (d : Nat) (ghost : Int)
    (dir' : Dir) : Prop where
  indexed : dir'.Indexed
  new : d ∉ dir.list
  list : dir'.list = dir.list ++ [d]
  dents : dir'.dents =
    update dir.dents d ⟨dir.ghostSlot, inode.ts, inode.iNo, bkdrHash name⟩
  ghost : dir'.ghostSlot = ghost
  same : dir'.iNo = dir.iNo ∧ dir'.logHead = dir.logHead

/-- A new hash is linked into the tree. -/
theorem Dir.Indexed.insert (h : dir.Indexed) (rb : Rbtree) (dir1 : Dir) {entry : Dirent} (fresh : d ∉ dir.list)
    (new : ∀ c ∈ dir.list, (dir.dents c).hash ≠ entry.hash) (root : dir1.rbRoot = dir.rbRoot)
    (dents : dir1.dents = update dir.dents d entry) :
    ∃ tree, dirIndexInsert rb dir1 d = (0, tree) ∧ tree.Ordered (fun d => (dir1.dents d).hash) ∧
      tree.nodes.Perm (dir.list ++ [d]) := by
  have old (c : Nat) (hc : c ∈ dir.rbRoot.nodes) : dir1.dents c = dir.dents c := by
    rw [dents]
    apply update_of_ne
    rintro rfl
    exact fresh (h.same.mem_iff.mp hc)
  have own : dir1.dents d = entry := by rw [dents, update_self]
  have ordered : dir.rbRoot.Ordered fun d => (dir1.dents d).hash :=
    h.ordered.congr fun c hc => by rw [old c hc]
  have linked : ∃ tree, dir.rbRoot.link (fun d => (dir1.dents d).hash) d = some tree := by
    apply link_new
    intro c hc
    rw [old c hc, own]
    exact new c (h.same.mem_iff.mp hc)
  obtain ⟨tree, link⟩ := linked
  obtain ⟨ordered', perm⟩ := link_ordered ordered link
  refine ⟨rb.insertColor d tree, by rw [dirIndexInsert, root, link], ?_, ?_⟩
  · rw [Ordered, rb.insertColor_nodes]
    exact ordered'
  · rw [rb.insertColor_nodes]
    exact perm.trans ((h.same.cons d).trans (perm_append_singleton d dir.list).symm)

theorem dirAppendEntry_cases (h : dir.Indexed) (rb : Rbtree) (cpu : Maps → Nat) (s : DirStorage)
    (inode : EntryInode) {name : List (BitVec 8)} (new : ∀ d ∈ dir.list, (dir.dents d).hash ≠ bkdrHash name) :
    (∃ d ghost dirs dir', doSlotAlloc s.dirs (cpu s.dirs) = (ghost, dirs) ∧
      DirEntered dir inode name d ghost dir' ∧
      dirAppendEntry rb cpu s dir inode name = (.ok d, dir',
        { inode with entryNum := wrap64 (inode.entryNum + 1) },
        { s with
          dirs
          dentTable := update s.dentTable dir.ghostSlot
            ⟨name.length % 256, name, inode.iNo, inode.ts, ghost⟩ })) ∨
    dirAppendEntry rb cpu s dir inode name =
      (.error enomem, { dir with arena := { dir.arena with asked := dir.arena.asked + 1 } }, inode, s) := by
  generalize alloc : doSlotAlloc s.dirs (cpu s.dirs) = got
  obtain ⟨ghost, dirs⟩ := got
  have least : ¬ ghost < -1 := by
    have := doSlotAlloc_ge s.dirs (cpu s.dirs)
    rw [alloc] at this
    exact not_lt.mpr this
  cases granted : dir.arena.grants dir.arena.asked with
  | false =>
    refine .inr ?_
    simp only [dirAppendEntry, Arena.alloc, granted, Bool.false_eq_true, if_false]
  | true =>
    refine .inl ?_
    have fresh : dir.arena.asked ∉ dir.list := fun hm => Nat.lt_irrefl _ (h.asked _ hm)
    obtain ⟨dir1, eq⟩ : ∃ dir1 : Dir, dir1 = { dir with
        arena := { dir.arena with asked := dir.arena.asked + 1 }, ghostSlot := ghost
        dents := update dir.dents dir.arena.asked
          ⟨dir.ghostSlot, inode.ts, inode.iNo, bkdrHash name⟩ } := ⟨_, rfl⟩
    obtain ⟨tree, insert, ordered, perm⟩ := h.insert rb dir1 fresh new (by rw [eq]) (by rw [eq])
    refine ⟨dir.arena.asked, ghost, dirs, { dir1 with rbRoot := tree, list := dir.list ++ [dir.arena.asked] },
      rfl, ⟨⟨perm, ordered, ?_, ?_⟩, fresh, rfl, ?_, ?_, ?_⟩, ?_⟩
    · apply h.once.append (nodup_singleton _)
      exact disjoint_singleton.mpr fresh
    · intro d hd
      rw [eq]
      rcases mem_append.mp hd with hd | hd
      · exact Nat.lt_succ_of_lt (h.asked d hd)
      · rw [mem_singleton.mp hd]
        exact Nat.lt_succ_self _
    · rw [eq]
    · rw [eq]
    · rw [eq]
      exact ⟨rfl, rfl⟩
    · simp only [dirAppendEntry, Arena.alloc, granted, if_true, alloc, least, if_false, ← eq, insert]
      rw [eq]

/-- The entry `d` is gone from the tree and from the list. -/
structure DirErased (dir : Dir) (d : Nat) (dir' : Dir) : Prop where
  indexed : dir'.Indexed
  list : dir'.list = dir.list.erase d
  dents : dir'.dents = dir.dents
  same : dir'.iNo = dir.iNo ∧ dir'.ghostSlot = dir.ghostSlot

theorem dirRemoveEntry_erased {s s' : DirStorage} {dir' : Dir} (h : dir.Indexed)
    (call : dirRemoveEntry rb s dir d = some (dir', s')) : DirErased dir d dir' := by
  obtain ⟨⟨logHead, pmLogHead, table⟩, _, eq⟩ := map_eq_some_iff.mp call
  cases eq
  refine ⟨⟨?_, ?_, h.once.erase d, fun c hc => h.asked c (mem_of_mem_erase hc)⟩, rfl, rfl, rfl, rfl⟩
  · rw [rb.erase_nodes]
    exact h.same.erase d
  · rw [Ordered, rb.erase_nodes]
    exact h.ordered.sublist erase_sublist

/-- The three representations of a directory agree. -/
structure Dir.Ok (dir : Dir) (s : DirStorage) : Prop where
  indexed : dir.Indexed
  head : s.pmLogHead dir.iNo = dir.logHead
  slots : SlotChain s.dirs s.next dir.logHead dir.ghostSlot dir.slots
  records : ∀ d ∈ dir.list, (s.dentTable (dir.dents d).idx).Records (dir.dents d)
  cleared : Cleared s.dirs s.next

theorem update_dirNext (s : DirStorage) (dirs : Maps) (heads : Nat → Int) (slot : Int) (r : PmDirent) :
    DirStorage.next ⟨dirs, update s.dentTable slot r, heads⟩ =
      update s.next slot r.next := by
  funext x
  by_cases e : x = slot
  · subst e
    simp [DirStorage.next]
  · simp [DirStorage.next, e]

section
variable {dir dir' : Dir} {s s' : DirStorage}

theorem Dir.Ok.append (h : dir.Ok s) {inode : EntryInode} {name : List (BitVec 8)} {d : Nat} {ghost : Int}
    (entered : DirEntered dir inode name d ghost dir') {cpu : Nat} {dirs : Maps}
    (alloc : doSlotAlloc s.dirs cpu = (ghost, dirs)) (found : 0 ≤ ghost) (short : name.length ≤ 64) :
    dir'.Ok { s with
      dirs
      dentTable := update s.dentTable dir.ghostSlot
        ⟨name.length % 256, name, inode.iNo, inode.ts, ghost⟩ } := by
  have old (c : Nat) (hc : c ∈ dir.list) : dir'.dents c = dir.dents c := by
    rw [entered.dents]
    apply update_of_ne
    rintro rfl
    exact entered.new hc
  have own : dir'.dents d = ⟨dir.ghostSlot, inode.ts, inode.iNo, bkdrHash name⟩ := by
    rw [entered.dents, update_self]
  have slots : dir'.slots = dir.slots ++ [dir.ghostSlot] := by
    rw [Dir.slots, entered.list, map_append, map_singleton, own]
    congr 1
    exact map_congr_left fun c hc => by rw [old c hc]
  obtain ⟨chain, cleared⟩ := h.slots.append h.cleared alloc found
  refine ⟨entered.indexed, ?_, ?_, fun c hc => ?_, ?_⟩
  · rw [entered.same.1, entered.same.2]
    exact h.head
  · rw [update_dirNext, slots, entered.ghost, entered.same.2]
    exact chain
  · rw [entered.list] at hc
    rcases mem_append.mp hc with hc | hc
    · have other : (dir.dents c).idx ≠ dir.ghostSlot :=
        fun e => h.slots.ghost_new (e ▸ mem_map_of_mem hc)
      rw [old c hc]
      dsimp only
      rw [update_of_ne other]
      exact h.records c hc
    rw [mem_singleton.mp hc, own]
    dsimp only
    rw [update_self]
    exact ⟨rfl, rfl, rfl, Nat.mod_eq_of_lt (by omega)⟩
  · rw [update_dirNext]
    exact cleared

theorem setDirNext_next (table : Int → PmDirent) (slot next : Int) :
    (fun x => (setDirNext table slot next x).next) =
      update (fun x => (table x).next) slot next := by
  funext x
  by_cases e : x = slot
  · subst e
    simp [setDirNext]
  · simp [setDirNext, e]

theorem setDirNext_records (slot next : Int) {x : Int} {d : Dirent} (h : (table x).Records d) :
    (setDirNext table slot next x).Records d := by
  by_cases e : x = slot
  · subst e
    rw [setDirNext, update_self]
    exact ⟨h.ino, h.ts, h.hash, h.nameLen⟩
  · rwa [setDirNext, update_of_ne e]

section
variable (h : dir.Ok s) (split : dir.list = front ++ d :: back)
include h split

/-- `log_head` is the slot of the first entry. -/
theorem Dir.Ok.first : dir.logHead = (dir.dents d).idx ↔ front = [] := by
  have chain := h.slots.chain
  have distinct := h.slots.distinct
  rw [Dir.slots, split] at chain distinct
  cases front with
  | nil => exact ⟨fun _ => rfl, fun _ => chain.tail.1⟩
  | cons a front =>
    have head : dir.logHead = (dir.dents a).idx := chain.tail.1
    rw [head]
    constructor
    · intro e
      rw [map_append, map_cons, map_cons, cons_append, e] at distinct
      exact absurd (mem_append_right _ (mem_cons_self ..)) (nodup_cons.mp distinct).1
    · intro e
      cases e

/-- What becomes of the table and of both `log_head`s when an entry is taken out of the
chain. -/
theorem Dir.Ok.unlinked {logHead : Int} {pmLogHead : Nat → Int} (linked : (if dir.logHead = (dir.dents d).idx then
        some (dirNext dir d, update s.pmLogHead dir.iNo (dirNext dir d), s.dentTable)
      else (prevOf dir.list d).map fun prev =>
        (dir.logHead, s.pmLogHead, setDirNext s.dentTable (dir.dents prev).idx (dirNext dir d))) =
      some (logHead, pmLogHead, table)) : (fun slot => (setDirNext table (dir.dents d).idx 0 slot).next) =
      unlinkNext s.next (front.map fun c => (dir.dents c).idx) (dir.dents d).idx 0 ∧
    logHead = unlinkHead s.next dir.logHead (front.map fun c => (dir.dents c).idx) (dir.dents d).idx ∧
    pmLogHead dir.iNo = logHead ∧
    ∀ slot c, (s.dentTable slot).Records c → (table slot).Records c := by
  have once := h.indexed.once
  have first := h.first split
  have next : dirNext dir d = s.next (dir.dents d).idx :=
    nextOf_slot h.slots.chain once (split ▸ by simp)
  have before : prevOf dir.list d = front.getLast? := by rw [split, prevOf_eq (split ▸ once)]
  rw [next, before] at linked
  rw [setDirNext_next, unlinkNext, unlinkHead, List.getLast?_map]
  cases prev : front.getLast? with
  | none =>
    cases (if_pos (first.mpr (List.getLast?_eq_none_iff.mp prev))).symm.trans linked
    exact ⟨rfl, rfl, update_self .., fun _ _ records => records⟩
  | some p =>
    have later : ¬ front = [] := by
      rintro rfl
      cases prev
    rw [if_neg (fun e => later (first.mp e)), prev, map_some] at linked
    cases linked
    refine ⟨?_, rfl, h.head, fun _ _ => setDirNext_records _ _⟩
    rw [setDirNext_next]
    rfl

end

/-- The first entry, the last one, the only one or one in the middle. -/
theorem Dir.Ok.remove (h : dir.Ok s) (member : d ∈ dir.list)
    (call : dirRemoveEntry rb s dir d = some (dir', s')) : dir'.Ok s' := by
  have erased := dirRemoveEntry_erased h.indexed call
  obtain ⟨⟨logHead, pmLogHead, table⟩, linked, eq⟩ := map_eq_some_iff.mp call
  obtain ⟨front, back, split⟩ := append_of_mem member
  obtain ⟨next, moved, head, records⟩ := h.unlinked split linked
  have chain := h.slots
  rw [Dir.slots, split, map_append, map_cons] at chain
  obtain ⟨chain, cleared⟩ := chain.remove h.cleared
  have rest : dir.list.erase d = front ++ back := by
    have new : d ∉ front := fun hf =>
      (nodup_append.mp (split ▸ h.indexed.once)).2.2 d hf d (mem_cons_self ..) rfl
    rw [split, erase_append_right _ new, erase_cons_head]
  rw [← next] at chain cleared
  cases eq
  refine ⟨erased.indexed, head, ?_, ?_, cleared⟩
  · rw [Dir.slots, erased.list, rest, map_append, moved]
    exact chain
  · intro c hc
    exact setDirNext_records _ 0 (records _ _ (h.records c (mem_of_mem_erase hc)))

/-- There is always an entry in front, unless `log_head` says that there is none. -/
theorem Dir.Ok.removes (h : dir.Ok s) (rb : Rbtree) (member : d ∈ dir.list) :
    (dirRemoveEntry rb s dir d).isSome := by
  obtain ⟨front, back, split⟩ := append_of_mem member
  have before : prevOf dir.list d = front.getLast? := by
    rw [split, prevOf_eq (split ▸ h.indexed.once)]
  simp only [dirRemoveEntry, isSome_map]
  split
  · rfl
  rename_i later
  rw [h.first split] at later
  rw [before, isSome_map, List.getLast?_eq_some_getLast later]
  rfl

end

/-! ## Runs -/

structure DirState where
  dir : Dir
  storage : DirStorage

/-- One call: a new name is entered while there is a free slot, or an entry of the
directory is removed. -/
inductive DirStep (s : DirState) : DirState → Prop
  | append (rb : Rbtree) (cpu : Maps → Nat) (inode inode' : EntryInode) (name : List (BitVec 8))
      (r : Except Int Nat) (dir : Dir) (storage : DirStorage) (short : name.length ≤ 64)
      (new : ∀ d ∈ s.dir.list, (s.dir.dents d).hash ≠ bkdrHash name) (spare : s.storage.dirs.Spare 1)
      (call : dirAppendEntry rb cpu s.storage s.dir inode name = (r, dir, inode', storage)) :
      DirStep s ⟨dir, storage⟩
  | remove (rb : Rbtree) (d : Nat) (dir : Dir) (storage : DirStorage) (member : d ∈ s.dir.list)
      (call : dirRemoveEntry rb s.storage s.dir d = some (dir, storage)) : DirStep s ⟨dir, storage⟩

/-- An empty directory, with its ghost slot taken. -/
structure DirState.Empty (s : DirState) : Prop where
  list : s.dir.list = []
  tree : s.dir.rbRoot = .nil
  log : s.dir.logHead = s.dir.ghostSlot ∧ s.storage.pmLogHead s.dir.iNo = s.dir.ghostSlot
  ghost : InUse s.storage.dirs s.dir.ghostSlot ∧ s.storage.next s.dir.ghostSlot = 0
  cleared : Cleared s.storage.dirs s.storage.next

/-- Tree, list and chain hold the same entries, and `next` is 0 in every slot without
one. -/
structure DirState.Agrees (s : DirState) : Prop where
  entries : s.dir.rbRoot.nodes.Perm s.dir.list
  hashes : (s.dir.list.map fun d => (s.dir.dents d).hash).Nodup
  head : s.dir.logHead = s.storage.pmLogHead s.dir.iNo
  visits : Chain s.storage.next s.dir.ghostSlot s.dir.logHead s.dir.slots
  records : ∀ d ∈ s.dir.list, (s.storage.dentTable (s.dir.dents d).idx).Records (s.dir.dents d)
  ghost : s.storage.next s.dir.ghostSlot = 0
  free : ∀ n : Nat, s.storage.dirs.Has n → s.storage.dirs.used n = false → s.storage.next n = 0
  once : (s.dir.slots ++ [s.dir.ghostSlot]).Nodup
  used : ∀ slot ∈ s.dir.slots ++ [s.dir.ghostSlot], InUse s.storage.dirs slot
  removes : ∀ rb, ∀ d ∈ s.dir.list, (dirRemoveEntry rb s.storage s.dir d).isSome

theorem DirState.Empty.ok (h : s.Empty) : s.dir.Ok s.storage := by
  have slots : s.dir.slots = [] := by rw [Dir.slots, h.list]; rfl
  refine ⟨.empty h.tree h.list, h.log.2.trans h.log.1.symm, ⟨?_, ⟨h.cleared.maps, h.cleared.small, ?_, ?_⟩,
    h.ghost.2⟩, ?_, h.cleared⟩
  · rw [slots, h.log.1]
    exact .done
  · rw [slots]
    exact nodup_singleton _
  · rw [slots]
    intro slot hm
    rw [mem_singleton.mp hm]
    exact h.ghost.1
  · rw [h.list]
    exact fun _ hd => nomatch hd

theorem Dir.Ok.agrees (h : s.dir.Ok s.storage) : s.Agrees := by
  refine ⟨h.indexed.same, ?_, h.head.symm, h.slots.chain, h.records, h.slots.ghost, h.cleared.free,
    h.slots.held.once, h.slots.held.taken, fun rb d hd => h.removes rb hd⟩
  rw [← (h.indexed.same.map _).nodup_iff, List.Nodup, pairwise_map]
  exact h.indexed.ordered.imp fun less => less.ne

theorem DirStep.ok {t : DirState} (ok : s.dir.Ok s.storage) (step : DirStep s t) : t.dir.Ok t.storage := by
  cases step with
  | append rb cpu inode inode' name r dir storage short new spare call =>
    obtain ⟨d, ghost, dirs, dir', alloc, entered, eq⟩ | eq :=
      dirAppendEntry_cases ok.indexed rb cpu s.storage inode new
    · cases eq.symm.trans call
      exact ok.append entered alloc (spare.found ok.cleared.maps ok.cleared.small alloc) short
    cases eq.symm.trans call
    have ⟨same, ordered, once, asked⟩ := ok.indexed
    exact ⟨⟨same, ordered, once, fun d hd => Nat.lt_succ_of_lt (asked d hd)⟩, ok.head, ok.slots,
      ok.records, ok.cleared⟩
  | remove rb d dir storage member call => exact ok.remove member call

/-- The nodes in a line. -/
def lineTree : List Nat → BinaryTree Nat
  | [] => .nil
  | d :: rest => .node d .nil (lineTree rest)

theorem lineTree_nodes (nodes : List Nat) : (lineTree nodes).nodes = nodes := by
  induction nodes with
  | nil => rfl
  | cons d rest ih => simp [lineTree, nodes, ih]

/-- Trees that are not balanced. -/
def plainRb : Rbtree where
  insertColor := fun _ t => t
  erase := fun d t => lineTree (t.nodes.erase d)
  insertColor_nodes := fun _ _ => rfl
  erase_nodes := fun _ _ => lineTree_nodes _

/-- A new directory in slot 1, where slot 0 is reserved. -/
def emptyDir : DirState where
  dir := ⟨1, 0, 1, 1, .nil, [], fun _ => ⟨0, 0, 0, 0⟩, ⟨0, fun _ => true⟩⟩
  storage := ⟨(doSlotAlloc (doSlotAlloc (emptyMaps 64) 0).2 0).2, fun _ => ⟨0, [], 0, 0, 0⟩, fun _ => 1⟩

theorem emptyDir_empty : emptyDir.Empty := by
  have zero : doSlotAlloc (emptyMaps 64) 0 = (0, (doSlotAlloc (emptyMaps 64) 0).2) :=
    Prod.ext (by decide +kernel) rfl
  have one : doSlotAlloc (doSlotAlloc (emptyMaps 64) 0).2 0 = (1, emptyDir.storage.dirs) :=
    Prod.ext (by decide +kernel) rfl
  obtain ⟨held, _⟩ := (Held.none (emptyMaps_ok 64) fun _ _ => show 64 ≤ 2 ^ 31 by decide).alloc zero le_rfl
  obtain ⟨held, _⟩ := held.alloc one (by decide)
  exact ⟨rfl, rfl, ⟨rfl, rfl⟩, ⟨held.taken 1 (by simp), rfl⟩, ⟨held.maps, held.small, fun _ _ _ => rfl⟩⟩

/-- A name of one letter. -/
def enterName (s : DirState) (ino : Nat) (letter : BitVec 8) : DirState :=
  let out := dirAppendEntry plainRb (fun _ => 0) s.storage s.dir ⟨ino, 0, 0⟩ [letter]
  ⟨out.2.1, out.2.2.2⟩

theorem enterName_step (ino : Nat) {letter : BitVec 8}
    (new : ∀ d ∈ s.dir.list, (s.dir.dents d).hash ≠ bkdrHash [letter]) (spare : s.storage.dirs.Spare 1) :
    DirStep s (enterName s ino letter) :=
  .append plainRb (fun _ => 0) ⟨ino, 0, 0⟩ _ [letter] _ _ _ (show 1 ≤ 64 by decide) new spare rfl

/-- A directory with two names. -/
def oneName : DirState := enterName emptyDir 5 97#8

def twoNames : DirState := enterName oneName 6 98#8

theorem oneName_step : DirStep emptyDir oneName :=
  enterName_step 5 (by decide +kernel) ⟨[2], nodup_singleton 2, le_rfl, by decide +kernel⟩

theorem twoNames_run : Run DirStep emptyDir twoNames :=
  .tail (.single oneName_step)
    (enterName_step 6 (by decide +kernel) ⟨[3], nodup_singleton 3, le_rfl, by decide +kernel⟩)

theorem twoNames_ok : twoNames.dir.Ok twoNames.storage :=
  Run.invariant (I := fun s : DirState => s.dir.Ok s.storage) DirStep.ok twoNames_run emptyDir_empty.ok

theorem twoNames_list : twoNames.dir.list = [0, 1] := by decide +kernel

/-- In every run on a directory that was empty at first, its representations agree. -/
theorem directory_agrees {s t : DirState} (empty : s.Empty) (run : Run DirStep s t) : t.Agrees :=
  (Run.invariant (I := fun s : DirState => s.dir.Ok s.storage) DirStep.ok run empty.ok).agrees

/-- Two names are entered, and the first one is removed. -/
theorem directory_agrees_twice : emptyDir.Empty ∧
    ∃ t, Run DirStep emptyDir t ∧ t.dir.list = [1] ∧ t.Agrees := by
  have member : 0 ∈ twoNames.dir.list := by rw [twoNames_list]; simp
  obtain ⟨⟨dir, storage⟩, call⟩ := isSome_iff_exists.mp (twoNames_ok.removes plainRb member)
  have run := twoNames_run.tail (.remove plainRb 0 dir storage member call)
  refine ⟨emptyDir_empty, _, run, ?_, directory_agrees emptyDir_empty run⟩
  rw [(dirRemoveEntry_erased twoNames_ok.indexed call).list, twoNames_list]
  rfl

end SlotFs
