import SlotFs.RecoverFile

/-!
# Crashes while a directory changes

The entries of a directory in PM change by single stores. `dir_remove_entry` leads the chain
around an entry with one store, which is all that counts. `dir_append_entry` makes a new entry
visible with its `next`, which it writes before the name.
-/

namespace SlotFs
open CWord Chains Function List Option

variable {num : Nat}

/-- What an entry in PM is to those who read it. -/
def PmDirent.entry (r : PmDirent) : Nat × List (BitVec 8) × Nat := (r.nameLen, r.name, r.ino)

/-! ## Removal -/

/-- The part of a directory that is in PM. -/
structure DirPm where
  logHead : Nat → Int
  table : Int → PmDirent

def DirStorage.pm (s : DirStorage) : DirPm := ⟨s.pmLogHead, s.dentTable⟩

/-- The two stores of `dir_remove_entry`: through `prev_ptr`, and to the entry itself. -/
def removeStores (dir : Dir) (d : Nat) : Option (List (DirPm → DirPm)) :=
  let idx := (dir.dents d).idx
  let next := dirNext dir d
  let link := if dir.logHead = idx then
      some fun pm : DirPm => { pm with logHead := update pm.logHead dir.iNo next }
    else (prevOf dir.list d).map fun prev =>
      fun pm : DirPm => { pm with table := setDirNext pm.table (dir.dents prev).idx next }
  link.map fun link => [link, fun pm => { pm with table := setDirNext pm.table idx 0 }]

/-- What is in PM when `dir_remove_entry` crashes after `n` stores. -/
def dirRemoveCrash (s : DirStorage) (dir : Dir) (d n : Nat) : Option DirPm :=
  (removeStores dir d).map fun stores => (stores.take n).foldl (fun pm store => store pm) s.pm

/-- The chain from `log_head` of the inode in PM to the ghost slot lists `entries`. -/
def DirPm.Lists (pm : DirPm) (dir : Dir) (entries : List (Nat × List (BitVec 8) × Nat)) : Prop :=
  ∃ slots, Chain (fun slot => (pm.table slot).next) dir.ghostSlot (pm.logHead dir.iNo) slots ∧
    slots.map (fun slot => (pm.table slot).entry) = entries

/-- The entries `ds` of a directory as they are in PM. -/
def DirStorage.entriesOf (s : DirStorage) (dir : Dir) (ds : List Nat) : List (Nat × List (BitVec 8) × Nat) :=
  ds.map fun d => (s.dentTable (dir.dents d).idx).entry

section
variable {s : DirStorage} {dir : Dir} {d : Nat}

theorem dirRemoveCrash_all (rb : Rbtree) (n : Nat) :
    dirRemoveCrash s dir d (n + 2) = (dirRemoveEntry rb s dir d).map fun out => out.2.pm := by
  have two (a b : DirPm → DirPm) : [a, b].take (n + 2) = [a, b] := List.take_of_length_le (by simp)
  unfold dirRemoveCrash removeStores dirRemoveEntry
  dsimp only
  split
  · simp only [Option.map_some, two]
    rfl
  · simp only [Option.map_map, Function.comp_def, two]
    rfl

theorem setDirNext_entry (table : Int → PmDirent) (slot next x : Int) :
    (setDirNext table slot next x).entry = (table x).entry := by
  by_cases e : x = slot
  · rw [e, setDirNext, update_self]
    rfl
  · rw [setDirNext, update_of_ne e]

theorem removeStores_cases {stores : List (DirPm → DirPm)} (call : removeStores dir d = some stores) :
    ∃ link, stores = [link, fun pm => { pm with table := setDirNext pm.table (dir.dents d).idx 0 }] ∧
      ∀ pm x, ((link pm).table x).entry = (pm.table x).entry := by
  obtain ⟨link, eq, rfl⟩ := map_eq_some_iff.mp call
  refine ⟨link, rfl, fun pm x => ?_⟩
  split at eq
  · cases eq
    rfl
  · obtain ⟨prev, _, rfl⟩ := map_eq_some_iff.mp eq
    exact setDirNext_entry ..

theorem DirPm.Lists.old (ok : dir.Ok s) : s.pm.Lists dir (s.entriesOf dir dir.list) := by
  refine ⟨dir.slots, ?_, ?_⟩
  · rw [show s.pm.logHead dir.iNo = dir.logHead from ok.head]
    exact ok.slots.chain
  · rw [Dir.slots, List.map_map]
    rfl

theorem DirPm.Lists.rest {pm : DirPm} (kept : ∀ x, (pm.table x).entry = (s.dentTable x).entry)
    (chain : Chain (fun x => (pm.table x).next) dir.ghostSlot (pm.logHead dir.iNo)
      ((dir.list.erase d).map fun c => (dir.dents c).idx)) :
    pm.Lists dir (s.entriesOf dir (dir.list.erase d)) := by
  refine ⟨_, chain, ?_⟩
  rw [List.map_map]
  exact List.map_congr_left fun c _ => kept _

/-- The store through `prev_ptr` takes the entry off the chain; the other one does not matter
for it any more. -/
theorem Dir.Ok.stores (ok : dir.Ok s) (member : d ∈ dir.list) :
    ∃ link clear, removeStores dir d = some [link, clear] ∧
      (link s.pm).Lists dir (s.entriesOf dir (dir.list.erase d)) ∧
      (clear (link s.pm)).Lists dir (s.entriesOf dir (dir.list.erase d)) := by
  obtain ⟨⟨dir', s'⟩, call⟩ := isSome_iff_exists.mp (ok.removes plainRb member)
  obtain ⟨_, list, dents, number, ghost⟩ := dirRemoveEntry_erased ok.indexed call
  have after := ok.remove member call
  have whole := @dirRemoveCrash_all s dir d plainRb 0
  rw [call] at whole
  obtain ⟨_, listed, done⟩ := map_eq_some_iff.mp whole
  obtain ⟨link, rfl, same⟩ := removeStores_cases listed
  have table : setDirNext (link s.pm).table (dir.dents d).idx 0 = s'.dentTable := congrArg DirPm.table done
  have head : (link s.pm).logHead dir.iNo = dir'.logHead := by
    rw [← after.head, number]
    exact congrFun (congrArg DirPm.logHead done) dir.iNo
  have chain := after.slots.chain
  rw [ghost, Dir.slots, list, dents, ← head] at chain
  have outside (c : Nat) (inside : c ∈ dir.list.erase d) : (dir.dents c).idx ≠ (dir.dents d).idx := by
    intro eq
    obtain rfl : c = d := inj_on_of_nodup_map ok.slots.distinct (mem_of_mem_erase inside) member eq
    exact ok.indexed.once.not_mem_erase inside
  refine ⟨link, _, listed, .rest (fun x => same ..) (chain.congr fun x visited => ?_), .rest (fun x => ?_) ?_⟩
  · obtain ⟨c, inside, rfl⟩ := mem_map.mp visited
    rw [DirStorage.next, ← table, setDirNext, update_of_ne (outside c inside)]
  · rw [setDirNext_entry]
    exact same ..
  · dsimp only
    rw [table]
    exact chain

/-- At every crash point the chain lists the old entries or all of them but the removed one. -/
theorem removal_crash_atomic (ok : dir.Ok s) (member : d ∈ dir.list) (n : Nat) :
    ∃ pm, dirRemoveCrash s dir d n = some pm ∧
      (pm.Lists dir (s.entriesOf dir dir.list) ∨ pm.Lists dir (s.entriesOf dir (dir.list.erase d))) := by
  obtain ⟨link, clear, stores, first, second⟩ := ok.stores member
  simp only [dirRemoveCrash, stores, map_some, some.injEq, exists_eq_left']
  rcases n with _ | _ | n
  · exact .inl (.old ok)
  · exact .inr first
  · rw [take_of_length_le (by simp)]
    exact .inr second

end

/-- The first of two entries is removed, with a crash between the two stores. -/
theorem removal_crash_atomic_first : ∃ s : DirState, s.dir.Ok s.storage ∧ s.dir.list = [0, 1] ∧
    ∃ pm, dirRemoveCrash s.storage s.dir 0 1 = some pm ∧
      (pm.Lists s.dir (s.storage.entriesOf s.dir [0, 1]) ∨ pm.Lists s.dir (s.storage.entriesOf s.dir [1])) := by
  have crash := removal_crash_atomic twoNames_ok (d := 0) (by rw [twoNames_list]; simp) 1
  rw [twoNames_list] at crash
  exact ⟨_, twoNames_ok, twoNames_list, crash⟩

/-! ## Appending -/

/-- A slot for an entry as it is in PM: `name` has what was there before behind the first
`name_len` characters. -/
structure RawDirent where
  nameLen : Nat
  name : Nat → BitVec 8
  ino : Nat
  ts : Nat
  next : Int

def RawDirent.read (r : RawDirent) : PmDirent :=
  ⟨r.nameLen, (List.range r.nameLen).map r.name, r.ino, r.ts, r.next⟩

/-- `memcpy` of the name, from the first character to the last. -/
def nameStores (name : List (BitVec 8)) : List (RawDirent → RawDirent) :=
  (List.range name.length).map fun i r => { r with name := update r.name i (name.getD i 0) }

/-- The stores of `dir_append_entry` to the slot, in their order. -/
def direntStores (inode : EntryInode) (name : List (BitVec 8)) (ghost : Int) : List (RawDirent → RawDirent) :=
  [fun r => { r with ino := inode.iNo },
    fun r => { r with ts := inode.ts },
    fun r => { r with next := ghost },
    fun r => { r with nameLen := name.length % 256 }] ++ nameStores name

/-- A slot after the first `n` stores. -/
def writeDirent (n : Nat) (inode : EntryInode) (name : List (BitVec 8)) (ghost : Int) (r : RawDirent) :
    RawDirent :=
  ((direntStores inode name ghost).take n).foldl (fun r store => store r) r

/-- The slots in PM when `dir_append_entry` crashes after `n` stores. -/
def dirAppendCrash (cpu : Maps → Nat) (s : DirStorage) (raw : Int → RawDirent) (dir : Dir)
    (inode : EntryInode) (name : List (BitVec 8)) (n : Nat) : Int → RawDirent :=
  match dir.arena.alloc with
  | (none, _) => raw
  | (some _, _) =>
    let ghost := (doSlotAlloc s.dirs (cpu s.dirs)).1
    if ghost < -1 then raw
    else update raw dir.ghostSlot (writeDirent n inode name ghost (raw dir.ghostSlot))

/-- The slots from `head` up to the first one with `next = 0` hold `entries`. -/
def DirLog (raw : Int → RawDirent) (num : Nat) (head : Int) (entries : List (Nat × List (BitVec 8) × Nat)) :
    Prop :=
  ∃ slots ghost, LogOf (fun s => (raw s).next) num head slots ghost ∧
    entries = slots.map fun s => (raw s).read.entry

/-- A directory whose entries are in the slots `raw`, which are numbered up to `num`. Slot 0 is
reserved. -/
structure Dir.InPm (dir : Dir) (s : DirStorage) (raw : Int → RawDirent) (num : Nat) : Prop where
  ok : dir.Ok s
  reads : ∀ slot, (raw slot).read = s.dentTable slot
  inside : ∀ n, s.dirs.Has n → n < num
  reserved : InUse s.dirs 0
  apart : 0 ∉ dir.slots ++ [dir.ghostSlot]

/-- At every crash point there are the old entries, or these and the complete new one. -/
def DirAppendAtomic (cpu : Maps → Nat) (s : DirStorage) (raw : Int → RawDirent) (dir : Dir)
    (inode : EntryInode) (name : List (BitVec 8)) (num : Nat) : Prop :=
  ∀ n, DirLog (dirAppendCrash cpu s raw dir inode name n) num (s.pmLogHead dir.iNo)
      (s.entriesOf dir dir.list) ∨
    DirLog (dirAppendCrash cpu s raw dir inode name n) num (s.pmLogHead dir.iNo)
      (s.entriesOf dir dir.list ++ [(name.length, name, inode.iNo)])

section
variable {inode : EntryInode} {name : List (BitVec 8)} {ghost : Int} {r : RawDirent}

theorem nameStores_copied (m : Nat) : ((nameStores name).take m).foldl (fun r store => store r) r =
    { r with name := fun i => if i < m ∧ i < name.length then name.getD i 0 else r.name i } := by
  rw [nameStores, ← map_take, take_range]
  have copied (k : Nat) : (((List.range k).map fun i (r : RawDirent) =>
      { r with name := update r.name i (name.getD i 0) }).foldl (fun r store => store r) r) =
      { r with name := fun i => if i < k then name.getD i 0 else r.name i } := by
    induction k with
    | zero => simp
    | succ k ih =>
      rw [range_succ, map_append, foldl_append, ih]
      simp only [map_cons, map_nil, foldl_cons, foldl_nil, RawDirent.mk.injEq, true_and, and_true]
      funext i
      by_cases last : i = k
      · rw [last, update_self, if_pos (Nat.lt_succ_self k)]
      · rw [update_of_ne last]
        exact if_congr (by omega) rfl rfl
  rw [copied]
  simp only [lt_min_iff]

theorem writeDirent_named (m : Nat) : writeDirent (4 + m) inode name ghost r =
    ⟨name.length % 256, fun i => if i < m ∧ i < name.length then name.getD i 0 else r.name i, inode.iNo,
      inode.ts, ghost⟩ := by
  rw [writeDirent, direntStores, take_append, foldl_append, take_of_length_le (by simp)]
  simp only [length_cons, length_nil, Nat.add_sub_cancel_left]
  rw [nameStores_copied]
  rfl

theorem RawDirent.read_name_iff : r.read.name = name ↔
    r.nameLen = name.length ∧ ∀ i < name.length, r.name i = name.getD i 0 := by
  constructor
  · rintro rfl
    refine ⟨by simp [read], fun i below => ?_⟩
    have inside : i < r.nameLen := by simpa [read] using below
    simp [read, inside]
  rintro ⟨length, same⟩
  refine ext_getElem (by simp [read, length]) fun i _ below => ?_
  have char := same i below
  rw [getD_eq_getElem _ _ below] at char
  simpa [read] using char

theorem writeDirent_hidden {n : Nat} (early : n < 3) : (writeDirent n inode name ghost r).next = r.next := by
  interval_cases n <;> rfl

theorem writeDirent_shown : (writeDirent 3 inode name ghost r).next = ghost ∧
    (writeDirent 3 inode name ghost r).read.entry = (r.nameLen, r.read.name, inode.iNo) :=
  ⟨rfl, rfl⟩

theorem writeDirent_read {m : Nat} (short : name.length ≤ 64)
    (rest : ∀ i < name.length, m ≤ i → r.name i = name.getD i 0) :
    (writeDirent (4 + m) inode name ghost r).read = ⟨name.length % 256, name, inode.iNo, inode.ts, ghost⟩ := by
  have whole : name.length % 256 = name.length := Nat.mod_eq_of_lt (by omega)
  have chars : (writeDirent (4 + m) inode name ghost r).read.name = name := by
    refine RawDirent.read_name_iff.mpr ⟨by rw [writeDirent_named, whole], fun i below => ?_⟩
    rw [writeDirent_named]
    dsimp only
    split
    · rfl
    · exact rest i below (by omega)
  rw [writeDirent_named] at chars ⊢
  exact congrArg (fun name' => (⟨name.length % 256, name', inode.iNo, inode.ts, ghost⟩ : PmDirent)) chars

section
variable {cpu : Maps → Nat} {s : DirStorage} {raw : Int → RawDirent} {dir : Dir}

theorem dirAppendCrash_eq (n : Nat) : dirAppendCrash cpu s raw dir inode name n =
    if dir.arena.grants dir.arena.asked then update raw dir.ghostSlot
      (writeDirent n inode name (doSlotAlloc s.dirs (cpu s.dirs)).1 (raw dir.ghostSlot))
    else raw := by
  cases granted : dir.arena.grants dir.arena.asked with
  | false => simp [dirAppendCrash, Arena.alloc, granted]
  | true =>
    simp only [dirAppendCrash, Arena.alloc, granted, if_true]
    exact if_neg (not_lt.mpr (doSlotAlloc_ge ..))

section
variable (h : dir.InPm s raw num)
include h

theorem Dir.InPm.next_eq (slot : Int) : (raw slot).next = s.next slot := by
  rw [DirStorage.next, ← h.reads slot]
  rfl

theorem Dir.InPm.log : LogOf (fun s => (raw s).next) num (s.pmLogHead dir.iNo) dir.slots dir.ghostSlot := by
  rw [h.ok.head]
  refine ⟨h.ok.slots.chain.congr fun slot _ => h.next_eq slot, fun slot member => ?_, ?_⟩
  · obtain ⟨n, rfl, has, _⟩ := h.ok.slots.held.taken slot member
    have below := h.inside n has
    have other : n ≠ 0 := by
      rintro rfl
      exact h.apart member
    omega
  · rw [h.next_eq]
    exact h.ok.slots.ghost

theorem Dir.InPm.entries (r : RawDirent) :
    dir.slots.map (fun x => (Function.update raw dir.ghostSlot r x).read.entry) = s.entriesOf dir dir.list := by
  rw [Dir.slots, List.map_map]
  refine map_congr_left fun d member => ?_
  have other : (dir.dents d).idx ≠ dir.ghostSlot :=
    fun e => h.ok.slots.ghost_new (e ▸ mem_map_of_mem member)
  rw [comp_apply, update_of_ne other, h.reads]

end

theorem raw_update_next (slot : Int) (r : RawDirent) : (fun x => (update raw slot r x).next) =
    update (fun x => (raw x).next) slot r.next := by
  funext x
  by_cases e : x = slot
  · rw [e, update_self, update_self]
  · rw [update_of_ne e, update_of_ne e]

theorem Dir.InPm.old (h : dir.InPm s raw num) (hidden : r.next = (raw dir.ghostSlot).next) :
    LogOf (fun x => (update raw dir.ghostSlot r x).next) num (s.pmLogHead dir.iNo) dir.slots
      dir.ghostSlot := by
  rw [raw_update_next, hidden, update_eq_self]
  exact h.log

/-- With the number of a free slot in its `next` it is the last of the entries. -/
theorem Dir.InPm.extended {num : Nat} (h : dir.InPm s raw num) {r : RawDirent} {dirs : Maps}
    (alloc : doSlotAlloc s.dirs (cpu s.dirs) = (r.next, dirs)) (found : 0 ≤ r.next) :
    LogOf (fun x => (update raw dir.ghostSlot r x).next) num (s.pmLogHead dir.iNo)
      (dir.slots ++ [dir.ghostSlot]) r.next := by
  obtain ⟨zero, _, _, apart⟩ := h.ok.cleared.alloc alloc found
  obtain ⟨n, number, has, _⟩ := doSlotAlloc_took h.ok.cleared.maps h.ok.cleared.small alloc found
  have below := h.inside n has
  have other : r.next ≠ dir.ghostSlot := fun e => (apart _ h.ok.slots.ghost_used).1 e.symm
  rw [raw_update_next]
  refine ⟨h.log.chain.extend ?_ other, fun slot member => ?_, ?_⟩
  · exact fun member => (apart _ (h.ok.slots.used member)).1 rfl
  · rcases mem_append.mp member with old | last
    · exact h.log.inside slot old
    · rw [mem_singleton.mp last]
      have := (apart 0 h.reserved).1
      omega
  · rw [update_of_ne other, h.next_eq]
    exact zero

/-- Without a free slot `next` becomes -1, which is not a slot. -/
theorem Dir.InPm.broken (h : dir.InPm s raw num) (failed : r.next = -1) {slots : List Int} :
    ¬ LogOf (fun x => (update raw dir.ghostSlot r x).next) num (s.pmLogHead dir.iNo)
      slots ghost := by
  intro log
  have before : Chain (fun x => (update raw dir.ghostSlot r x).next) dir.ghostSlot (s.pmLogHead dir.iNo)
      dir.slots := by
    refine h.log.chain.congr fun x member => ?_
    rw [update_of_ne]
    rintro rfl
    exact h.ok.slots.ghost_new member
  obtain ⟨rest, whole, chain⟩ := before.branch log.full fun zero => h.apart (mem_append_left _ zero)
  obtain _ | ⟨a, _ | ⟨b, rest⟩⟩ := rest
  · exact h.apart (chain.nil ▸ mem_append_right _ (mem_singleton_self _))
  · obtain ⟨rfl, last⟩ := chain.tail
    have zero := last.nil
    rw [update_self, failed] at zero
    cases zero
  obtain ⟨rfl, next⟩ := chain.tail
  have second := next.tail.1
  rw [update_self, failed] at second
  have inside := log.inside b (by rw [whole]; simp)
  omega

theorem Dir.InPm.extended_entries (h : dir.InPm s raw num) (r : RawDirent) :
    (dir.slots ++ [dir.ghostSlot]).map (fun x => (update raw dir.ghostSlot r x).read.entry) =
      s.entriesOf dir dir.list ++ [r.read.entry] := by
  rw [map_append, h.entries, map_singleton, update_self]

/-- If the entry with its old name is the complete new one, that name is the new one. -/
theorem Dir.InPm.stale_name {num : Nat} (h : dir.InPm s raw num) {ghost : Int} {dirs : Maps}
    (alloc : doSlotAlloc s.dirs (cpu s.dirs) = (ghost, dirs)) (found : 0 ≤ ghost)
    (atomic : DirLog (update raw dir.ghostSlot (writeDirent 3 inode name ghost (raw dir.ghostSlot))) num
        (s.pmLogHead dir.iNo) (s.entriesOf dir dir.list) ∨
      DirLog (update raw dir.ghostSlot (writeDirent 3 inode name ghost (raw dir.ghostSlot))) num
        (s.pmLogHead dir.iNo) (s.entriesOf dir dir.list ++ [(name.length, name, inode.iNo)])) :
    (raw dir.ghostSlot).read.name = name := by
  have shown := h.extended (r := writeDirent 3 inode name ghost (raw dir.ghostSlot)) alloc found
  have entries := h.extended_entries (writeDirent 3 inode name ghost (raw dir.ghostSlot))
  rcases atomic with ⟨slots, _, log, same⟩ | ⟨slots, _, log, same⟩
  · rw [(log.unique shown).1, entries] at same
    have length := congrArg List.length same
    simp at length
  rw [(log.unique shown).1, entries, writeDirent_shown.2] at same
  have last := append_cancel_left same
  simp only [List.cons.injEq, Prod.mk.injEq, and_true] at last
  exact last.2.symm

/-- `dir_append_entry` is atomic under crashes exactly if it fails for want of memory, or finds a
free slot and writes the name that its own slot has already. -/
theorem dir_append_crash_atomic_iff {num : Nat} (h : dir.InPm s raw num) (short : name.length ≤ 64) :
    DirAppendAtomic cpu s raw dir inode name num ↔ (dir.arena.grants dir.arena.asked = true →
      s.dirs.Spare 1 ∧ (s.dentTable dir.ghostSlot).name = name) := by
  simp only [DirAppendAtomic, dirAppendCrash_eq]
  cases granted : dir.arena.grants dir.arena.asked with
  | false =>
    simp only [Bool.false_eq_true, if_false, false_implies, iff_true]
    refine fun _ => .inl ⟨_, _, h.log, ?_⟩
    have entries := h.entries (raw dir.ghostSlot)
    rw [update_eq_self] at entries
    exact entries.symm
  | true =>
    simp only [if_true, true_implies]
    generalize alloc : doSlotAlloc s.dirs (cpu s.dirs) = got
    obtain ⟨ghost, dirs⟩ := got
    have maps := h.ok.cleared.maps
    have small := h.ok.cleared.small
    rw [← h.reads dir.ghostSlot]
    constructor
    · intro atomic
      have found : 0 ≤ ghost := by
        by_contra negative
        have least := doSlotAlloc_ge s.dirs (cpu s.dirs)
        rw [alloc] at least
        obtain rfl : ghost = -1 := by dsimp only at least; omega
        rcases atomic 3 with ⟨_, _, log, _⟩ | ⟨_, _, log, _⟩ <;> exact h.broken rfl log
      obtain ⟨n, _, has, free, _⟩ := doSlotAlloc_took maps small alloc found
      refine ⟨⟨[n], nodup_singleton n, le_rfl, fun j member => ?_⟩, h.stale_name alloc found (atomic 3)⟩
      rw [mem_singleton.mp member]
      exact ⟨has, free⟩
    · rintro ⟨spare, same⟩ n
      have found := spare.found maps small alloc
      by_cases early : n < 3
      · exact .inl ⟨_, _, h.old (writeDirent_hidden early), (h.entries _).symm⟩
      obtain ⟨next, entry⟩ : (writeDirent n inode name ghost (raw dir.ghostSlot)).next = ghost ∧
          (writeDirent n inode name ghost (raw dir.ghostSlot)).read.entry = (name.length, name, inode.iNo) := by
        obtain ⟨length, chars⟩ := RawDirent.read_name_iff.mp same
        obtain rfl | later := (not_lt.mp early).eq_or_lt
        · rw [writeDirent_shown.1, writeDirent_shown.2, length, same]
          exact ⟨rfl, rfl⟩
        · obtain ⟨m, rfl⟩ := Nat.exists_eq_add_of_le later
          refine ⟨by rw [writeDirent_named], ?_⟩
          rw [writeDirent_read short fun i below _ => chars i below, PmDirent.entry, Nat.mod_eq_of_lt (by omega)]
      have free : doSlotAlloc s.dirs (cpu s.dirs) =
          ((writeDirent n inode name ghost (raw dir.ghostSlot)).next, dirs) := by rw [next, alloc]
      refine Or.inr ⟨_, _, h.extended free (by rw [next]; exact found), ?_⟩
      rw [h.extended_entries, entry]

end

end

/-! ## Samples -/

/-- An empty directory whose ghost slot, and every other slot, holds what it held before. -/
def staleDir (r : RawDirent) : DirState :=
  { emptyDir with storage := { emptyDir.storage with dentTable := fun _ => r.read } }

theorem staleDir_inPm {r : RawDirent} (ended : r.next = 0) :
    (staleDir r).dir.InPm (staleDir r).storage (fun _ => r) 64 := by
  have empty := emptyDir_empty
  have next (n : Int) : (staleDir r).storage.next n = 0 := ended
  have empty' : (staleDir r).Empty :=
    ⟨rfl, rfl, empty.log, ⟨empty.ghost.1, next _⟩, ⟨empty.cleared.maps, empty.cleared.small, fun n _ _ => next n⟩⟩
  have maps : emptyDir.storage.dirs.num = 1 ∧ (emptyDir.storage.dirs.map 0).bitNum = 64 := by decide +kernel
  have reserved : emptyDir.storage.dirs.Has 0 ∧ emptyDir.storage.dirs.used 0 = true := by decide +kernel
  have apart : (0 : Int) ∉ emptyDir.dir.slots ++ [emptyDir.dir.ghostSlot] := by decide
  refine ⟨empty'.ok, fun _ => rfl, fun n has => ?_, ⟨0, rfl, reserved⟩, apart⟩
  have below : n / (emptyDir.storage.dirs.map 0).bitNum < emptyDir.storage.dirs.num := has.1
  rw [maps.1, maps.2] at below
  omega

/-- What an entry of one letter has left behind. -/
def staleSlot (letter : BitVec 8) : RawDirent := ⟨1, fun _ => letter, 3, 0, 0⟩

theorem staleDir_alloc (letter : BitVec 8) :
    doSlotAlloc (staleDir (staleSlot letter)).storage.dirs 0 = (2, (doSlotAlloc emptyDir.storage.dirs 0).2) := by
  have dirs : (staleDir (staleSlot letter)).storage.dirs = emptyDir.storage.dirs := rfl
  have free : (doSlotAlloc emptyDir.storage.dirs 0).1 = 2 := by decide +kernel
  rw [dirs, ← free]

/-- The slot had the same name before. -/
theorem dir_append_crash_atomic_iff_again : (staleDir (staleSlot 97#8)).dir.InPm
      (staleDir (staleSlot 97#8)).storage (fun _ => staleSlot 97#8) 64 ∧
    DirAppendAtomic (fun _ => 0) (staleDir (staleSlot 97#8)).storage (fun _ => staleSlot 97#8)
      (staleDir (staleSlot 97#8)).dir ⟨5, 0, 0⟩ [97#8] 64 := by
  have pm := @staleDir_inPm (staleSlot 97#8) rfl
  refine ⟨pm, (dir_append_crash_atomic_iff pm (by decide)).mpr fun _ => ⟨?_, by decide⟩⟩
  exact ⟨[2], nodup_singleton 2, le_rfl, by decide +kernel⟩

/-- The slot of a removed entry `b` is written for the name `a`. When the crash comes after
`next` there is an entry `b` again, for the inode of the new one. -/
theorem appended_entry_torn : (staleDir (staleSlot 98#8)).dir.InPm
      (staleDir (staleSlot 98#8)).storage (fun _ => staleSlot 98#8) 64 ∧
    DirLog (dirAppendCrash (fun _ => 0) (staleDir (staleSlot 98#8)).storage (fun _ => staleSlot 98#8)
      (staleDir (staleSlot 98#8)).dir ⟨5, 0, 0⟩ [97#8] 3) 64 1 [(1, [98#8], 5)] ∧
    ¬ DirAppendAtomic (fun _ => 0) (staleDir (staleSlot 98#8)).storage (fun _ => staleSlot 98#8)
      (staleDir (staleSlot 98#8)).dir ⟨5, 0, 0⟩ [97#8] 64 := by
  have pm := @staleDir_inPm (staleSlot 98#8) rfl
  have alloc := staleDir_alloc 98#8
  have crash : dirAppendCrash (fun _ => 0) (staleDir (staleSlot 98#8)).storage (fun _ => staleSlot 98#8)
      (staleDir (staleSlot 98#8)).dir ⟨5, 0, 0⟩ [97#8] 3 =
      update (fun _ => staleSlot 98#8) 1 (writeDirent 3 ⟨5, 0, 0⟩ [97#8] 2 (staleSlot 98#8)) := by
    rw [dirAppendCrash_eq, alloc]
    rfl
  refine ⟨pm, ?_, fun atomic => ?_⟩
  · rw [crash]
    have log := @Dir.InPm.extended (fun _ => 0) _ _ _ _ pm
      (writeDirent 3 ⟨5, 0, 0⟩ [97#8] 2 (staleSlot 98#8)) _ alloc (by decide)
    exact ⟨[1], 2, log, by decide⟩
  have third := atomic 3
  rw [crash] at third
  have same := @Dir.InPm.stale_name ⟨5, 0, 0⟩ [97#8] (fun _ => 0) _ _ _ _ pm 2 _ alloc (by decide) third
  revert same
  decide

end SlotFs
