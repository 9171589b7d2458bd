import SlotFs.Files
import SlotFs.LogChain

/-!
# Slots without a record

Recovery takes a record with `next = 0` for the ghost slot at the end of a chain, so
`next` has to be 0 in every ghost slot, and with that in every free slot, which may
become one. `file_remove_entry` clears `next` of the slot it frees;
`do_inode_release` does not.
-/

namespace SlotFs
open CWord Runs Chains Function List Option Inode

variable {appended head : Int} {entries nodes : Nat → Bool} {env : Env} {file : Option LiveFile}
  {granted : Bool} {i : Nat} {inode inode' : Inode} {pmLogHead : Nat → Int} {s' : Storage} {sbi : Sbi}
  {table : Int → PmFilent} {w : LogWorld}

/-- The slots of a file, the ghost slot last. -/
def Inode.chainSlots (inode : Inode) : List Int := inode.slots ++ [inode.ghostSlot]

/-- One file among others; `outside` are the slots in use for something else. -/
structure GhostFile (outside : Int → Prop) (inode : Inode) (pmLogHead : Int) (s : Storage) : Prop where
  listed : Listed inode
  regular : inode.symlink = false
  slots : SlotChain s.files s.next pmLogHead inode.ghostSlot inode.slots
  records : ∀ fe ∈ inode.list, (s.fentTable (inode.fents fe).idx).Records (inode.fents fe)
  apart : ∀ slot ∈ inode.chainSlots, ¬ outside slot
  others : ∀ slot, outside slot → InUse s.files slot

/-- What a call for one file leaves as it was for the others. -/
structure Storage.Spares (s : Storage) (outside : Int → Prop) (s' : Storage) : Prop where
  table : ∀ slot, outside slot → s'.fentTable slot = s.fentTable slot
  used : ∀ slot, outside slot → InUse s.files slot → InUse s'.files slot

theorem Storage.Spares.refl (s : Storage) (outside : Int → Prop) : s.Spares outside s :=
  ⟨fun _ _ => rfl, fun _ _ used => used⟩

theorem Storage.Spares.trans {s s'' : Storage} {outside : Int → Prop} (h : s.Spares outside s')
    (h' : s'.Spares outside s'') : s.Spares outside s'' where
  table := fun slot ho => (h'.table slot ho).trans (h.table slot ho)
  used := fun slot ho used => h'.used slot ho (h.used slot ho used)

section
variable {outside : Int → Prop} {inode : Inode} {pmLogHead : Int} {s : Storage}

section
variable (h : GhostFile outside inode pmLogHead s)
include h

theorem GhostFile.append (cleared : Cleared s.files s.next) {env : Env} {inode1 inode' : Inode}
    {entry : PmFilent} {c : Chosen} {files : Maps} (choice : Choice env s.files inode c inode1 files)
    (entered : Entered inode inode1 entry c inode') (listed : Listed inode') {n : Nat}
    (spare : s.files.Spare (n + 1)) (data : DataSlots) : let s' : Storage := ⟨data, files, update s.fentTable c.fno
      { entry with next := c.reuse.getD inode'.ghostSlot }⟩
    GhostFile outside inode' pmLogHead s' ∧ Cleared files s'.next ∧ s.Spares outside s' ∧
      files.Spare n := by
  intro s'
  have next : s'.next = update s.next c.fno (c.reuse.getD inode'.ghostSlot) := update_next ..
  have regular : inode'.symlink = false := entered.same.2.2.1.trans h.regular
  have table {slot : Int} (own : c.fno ∈ inode.chainSlots) (ho : outside slot) :
      s'.fentTable slot = s.fentTable slot := by
    apply update_of_ne
    rintro rfl
    exact h.apart _ own ho
  rcases entered.slots_cases h.listed choice with
    ⟨slots, reuse, member, fno, ghost, rfl⟩ | ⟨slots, reuse, new, fno, call⟩
  · have place : c.fno ∈ inode.slots := fno ▸ mem_map_of_mem member
    have same : inode'.chainSlots = inode.chainSlots := by rw [chainSlots, slots, ghost]; rfl
    rw [reuse, getD_some, reuseNext_eq h.slots.chain h.listed.once member, fno,
      update_eq_self] at next
    refine ⟨⟨listed, regular, ?_, entered.records h.records ?_, same ▸ h.apart, h.others⟩, ?_,
      ⟨fun _ => table (mem_append_left _ place), fun _ _ used => used⟩, spare.le (Nat.le_succ n)⟩
    · rw [next, slots, ghost]
      exact h.slots
    · intro o ho other same
      rw [fno] at same
      exact other (inj_on_of_nodup_map h.slots.distinct ho member same)
    · rw [next]
      exact cleared
  · rw [h.regular] at call
    rw [reuse, fno] at next
    have own : c.fno ∈ inode.chainSlots := fno ▸ mem_append_right _ (mem_singleton_self _)
    have found := spare.found cleared.maps cleared.small call.symm
    obtain ⟨_, _, _, kept⟩ := cleared.alloc call.symm found
    obtain ⟨chain, cleared'⟩ := h.slots.append cleared call.symm found
    refine ⟨⟨listed, regular, ?_, entered.records h.records ?_, ?_, ?_⟩, ?_,
      ⟨fun _ => table own, fun slot _ used => (kept slot used).2⟩,
      (h.slots.held.alloc call.symm found).2 n spare⟩
    · rw [next, slots]
      exact chain
    · intro o ho _ same
      exact h.slots.ghost_new (by rw [← fno, ← same]; exact mem_map_of_mem ho)
    · intro slot hm ho
      rw [chainSlots, slots, mem_append, mem_singleton] at hm
      rcases hm with hm | rfl
      · exact h.apart slot hm ho
      · exact (kept _ (h.others _ ho)).1 rfl
    · exact fun slot ho => (kept slot (h.others slot ho)).2
    · rw [next]
      exact cleared'

theorem GhostFile.congr (listed : Listed inode')
    (same : inode'.symlink = inode.symlink ∧ inode'.ghostSlot = inode.ghostSlot ∧
      inode'.list = inode.list ∧ inode'.fents = inode.fents) (files : s'.files = s.files)
    (table : s'.fentTable = s.fentTable) : GhostFile outside inode' pmLogHead s' := by
  obtain ⟨kind, ghost, list, fents⟩ := same
  have next : s'.next = s.next := by
    funext slot
    rw [Storage.next, table]
    rfl
  have slots : inode'.slots = inode.slots := by rw [Inode.slots, list, fents]; rfl
  refine ⟨listed, kind.trans h.regular, ?_, ?_, ?_, ?_⟩
  · rw [files, next, ghost, slots]
    exact h.slots
  · rw [list, fents, table]
    exact h.records
  · rw [chainSlots, slots, ghost]
    exact h.apart
  · rw [files]
    exact h.others

end

/-- What a call for one file leaves behind. -/
structure Logged (outside : Int → Prop) (s : Storage) (inode inode' : Inode) (pmLogHead : Int)
    (s' : Storage) : Prop where
  file : GhostFile outside inode' pmLogHead s'
  cleared : Cleared s'.files s'.next
  spares : s.Spares outside s'
  number : inode'.iNo = inode.iNo

theorem appendUnits_ghost {ts : Nat} {units : List EntryUnit} {r : Except Int Unit}
    (h : GhostFile outside inode pmLogHead s) (cleared : Cleared s.files s.next)
    (spare : s.files.Spare units.length) (call : appendUnits env ts units inode s = some (r, inode', s')) :
    Logged outside s inode inode' pmLogHead s' := by
  induction units generalizing inode s with
  | nil =>
    cases call
    exact ⟨h, cleared, .refl _ _, rfl⟩
  | cons u rest ih =>
    simp only [appendUnits] at call
    obtain ⟨c, inode1, files, inode2, data, choice, listed, entered, eq⟩ | ⟨num, eq⟩ :=
      fileAppendEntry_listed h.listed env s (u.record ts)
    · rw [eq] at call
      obtain ⟨h', cleared', spares, spare'⟩ := h.append cleared choice entered listed spare data
      have rest := ih h' cleared' spare' call
      exact ⟨rest.file, rest.cleared, spares.trans rest.spares, rest.number.trans entered.same.1⟩
    · rw [eq] at call
      cases call
      exact ⟨h.congr (h.listed.recount num) ⟨rfl, rfl, rfl, rfl⟩ rfl rfl, cleared, .refl _ _, rfl⟩

/-- A write of any outcome. -/
theorem inodeWriteAtomic_ghost {sbi' : Sbi} {buf : Mem} {len offset : Nat} {runs : List (Nat × Nat)}
    {maps : Maps} {ret : Int} (h : GhostFile outside inode pmLogHead sbi.storage)
    (cleared : Cleared sbi.storage.files sbi.storage.next)
    (served : Served env (fun _ _ _ _ => True) sbi.storage.data.maps (blockCount len offset) runs maps)
    (spare : sbi.storage.files.Spare runs.length) (far : offset + len < 2 ^ 63)
    (call : inodeWriteAtomic env sbi inode buf len offset = some (ret, inode', sbi')) :
    Logged outside sbi.storage inode inode' pmLogHead sbi'.storage := by
  have resized {inode : Inode} {s : Storage} (h : GhostFile outside inode pmLogHead s) (size : Nat) :
      GhostFile outside { inode with iSize := size } pmLogHead s :=
    have ⟨tree, values, idle, once, asked⟩ := h.listed
    h.congr ⟨tree, values, idle, once, asked⟩ ⟨rfl, rfl, rfl, rfl⟩ rfl rfl
  have before : GhostFile outside inode pmLogHead (sbi.storage.withMaps maps) :=
    h.congr h.listed ⟨rfl, rfl, rfl, rfl⟩ rfl rfl
  have room : (sbi.storage.withMaps maps).files.Spare (layout (offset / 4096) runs).length := by
    rw [layout_length]
    exact spare
  have outcome := (Wrote.of_call call).outcome (J := fun _ _ => True) served far trivial
    (fun _ _ _ _ _ _ _ _ _ => trivial)
  cases outcome with
  | inPlace _ size _ fe fits mapped blocks storage ts grown =>
    rw [storage]
    exact ⟨resized h size, cleared, .refl _ _, rfl⟩
  | failed _ _ _ append ts content =>
    have logged := appendUnits_ghost before cleared room append
    exact ⟨logged.file, logged.cleared, ⟨logged.spares.table, logged.spares.used⟩, logged.number⟩
  | logged inode1 _ append ts content =>
    have logged := appendUnits_ghost before cleared room append
    exact ⟨resized logged.file _, logged.cleared, ⟨logged.spares.table, logged.spares.used⟩,
      logged.number⟩

/-! ## Removing an entry -/

theorem setNext_next (table : Int → PmFilent) (slot next : Int) : (fun x => (setNext table slot next x).next) =
      update (fun x => (table x).next) slot next := by
  funext x
  by_cases e : x = slot
  · subst e
    simp [setNext]
  · simp [setNext, e]

theorem setNext_records (slot next : Int) {x : Int} {f : Filent} (h : (table x).Records f) :
    (setNext table slot next x).Records f := by
  by_cases e : x = slot
  · subst e
    rw [setNext, update_self]
    exact ⟨h.lIdx, h.pIdx, h.blocks, h.ts⟩
  · rwa [setNext, update_of_ne e]

section
variable (h : GhostFile outside inode pmLogHead s)
include h

/-- What becomes of the table and of `log_head` in PM when an entry is taken out of the
chain. -/
theorem GhostFile.unlinked {fe : Nat} {front back : List Nat} (split : inode.list = front ++ fe :: back)
    (first : inode.logHead = (inode.fents fe).idx ↔ inode.list.head? = some fe)
    (linked : (if inode.logHead = (inode.fents fe).idx then some (s.fentTable, reuseNext inode fe)
      else (prevOf inode.list fe).map fun prev =>
        (setNext s.fentTable (inode.fents prev).idx (reuseNext inode fe), pmLogHead)) =
      some (table, head)) : (fun slot => (setNext table (inode.fents fe).idx 0 slot).next) =
      unlinkNext s.next (front.map fun o => (inode.fents o).idx) (inode.fents fe).idx 0 ∧
    head = unlinkHead s.next pmLogHead (front.map fun o => (inode.fents o).idx) (inode.fents fe).idx ∧
    (∀ slot f, (s.fentTable slot).Records f → (table slot).Records f) ∧
    ∀ slot, slot ∉ inode.slots → table slot = s.fentTable slot := by
  have once := h.listed.once
  have before : prevOf inode.list fe = front.getLast? := by rw [split, prevOf_eq (split ▸ once)]
  have last : (front.map fun o => (inode.fents o).idx).getLast? =
      front.getLast?.map fun o => (inode.fents o).idx := List.getLast?_map ..
  rw [reuseNext_eq h.slots.chain once (split ▸ by simp), before] at linked
  rw [setNext_next, unlinkNext, unlinkHead, last]
  cases prev : front.getLast? with
  | none =>
    obtain rfl := List.getLast?_eq_none_iff.mp prev
    rw [if_pos (first.mpr (by rw [split]; rfl))] at linked
    cases linked
    exact ⟨rfl, rfl, fun _ _ records => records, fun _ _ => rfl⟩
  | some p =>
    have inside := mem_of_getLast? prev
    have later : ¬ inode.list.head? = some fe := by
      cases front with
      | nil => cases inside
      | cons a front => simp_all
    rw [if_neg (fun e => later (first.mp e)), prev] at linked
    cases linked
    refine ⟨?_, rfl, fun _ _ => setNext_records _ _, fun slot outer => ?_⟩
    · rw [setNext_next]
      rfl
    apply update_of_ne
    rintro rfl
    apply outer
    rw [Inode.slots, split]
    exact mem_map_of_mem (mem_append_left _ inside)

/-- An entry is removed that is not up for reuse and that only blocks of its extent
lead to. -/
theorem GhostFile.remove (cleared : Cleared s.files s.next) {fe : Nat} (member : fe ∈ inode.list)
    (busy : fe ∉ inode.invalid) (keys : ∀ k, btreeGet inode.bRoot k = some fe →
      (inode.fents fe).lIdx ≤ k ∧ k < (inode.fents fe).lIdx + (inode.fents fe).blocks)
    (first : inode.logHead = (inode.fents fe).idx ↔ inode.list.head? = some fe)
    (call : fileRemoveEntry s pmLogHead inode fe = some (inode', s', head)) :
    Logged outside s inode inode' head s' := by
  obtain ⟨⟨table, head'⟩, linked, call⟩ := bind_eq_some_iff.mp call
  obtain ⟨⟨r, tree⟩, set, eq⟩ := map_eq_some_iff.mp call
  cases eq
  obtain ⟨base, shape⟩ := h.listed.tree
  have narrow := (s.fentTable (inode.fents fe).idx).narrow
  obtain ⟨hl, _, hb, _⟩ := h.records fe member
  obtain ⟨_, _, set', shape', get⟩ := shape.erase_range
    (show (inode.fents fe).lIdx + (inode.fents fe).blocks < 256 ^ 7 by omega)
  cases set.symm.trans set'
  have listed : Listed { inode with
      bRoot := tree, list := inode.list.erase fe, entryNum := sub64 inode.entryNum 1 } := by
    refine ⟨shape', fun k v hk => ?_, fun o ho => ?_, h.listed.once.erase fe,
      fun o ho => h.listed.asked o (mem_of_mem_erase ho)⟩
    · obtain ⟨inside, old⟩ := ite_none_left_eq_some.mp ((get k).symm.trans hk)
      apply h.listed.once.mem_erase_iff.mpr ⟨?_, h.listed.values k v old⟩
      rintro rfl
      exact inside (keys k old)
    · apply h.listed.once.mem_erase_iff.mpr ⟨?_, h.listed.idle o ho⟩
      rintro rfl
      exact busy ho
  obtain ⟨front, back, split⟩ := append_of_mem member
  have slots : inode.slots = front.map (fun o => (inode.fents o).idx) ++
      (inode.fents fe).idx :: back.map fun o => (inode.fents o).idx := by
    rw [Inode.slots, split, map_append, map_cons]
  have rest : (inode.list.erase fe).map (fun o => (inode.fents o).idx) =
      front.map (fun o => (inode.fents o).idx) ++ back.map fun o => (inode.fents o).idx := by
    have new : fe ∉ front := fun hf =>
      (nodup_append.mp (split ▸ h.listed.once)).2.2 fe hf fe (mem_cons_self ..) rfl
    rw [split, erase_append_right _ new, erase_cons_head, map_append]
  have own : (inode.fents fe).idx ∈ inode.slots := mem_map_of_mem member
  obtain ⟨next, moved, records, others⟩ := h.unlinked split first linked
  have chain := h.slots
  rw [slots] at chain
  obtain ⟨chain, cleared'⟩ := chain.remove cleared
  obtain ⟨_, _, kept, _⟩ := (h.slots.used own).free cleared.maps cleared.small
  have outer {slot : Int} (ho : outside slot) : slot ∉ inode.slots :=
    fun hm => h.apart slot (mem_append_left _ hm) ho
  have other {slot : Int} (ho : outside slot) : slot ≠ (inode.fents fe).idx :=
    fun e => outer ho (e ▸ own)
  refine ⟨⟨listed, h.regular, ?_, ?_, ?_, ?_⟩, ?_, ⟨fun slot ho => ?_, ?_⟩, rfl⟩
  · rw [moved]
    rw [← next, ← rest] at chain
    exact chain
  · intro o ho
    exact setNext_records _ 0 (records _ _ (h.records o (mem_of_mem_erase ho)))
  · intro slot hm
    apply h.apart slot
    rcases mem_append.mp hm with hm | hm
    · exact mem_append_left _ (((erase_sublist ..).map _).subset hm)
    · exact mem_append_right _ hm
  · exact fun slot ho => kept slot (h.others slot ho) (other ho)
  · rw [← next] at cleared'
    exact cleared'
  · exact (update_of_ne (other ho) _ _).trans (others slot (outer ho))
  · exact fun slot ho used => kept slot used (other ho)

theorem GhostFile.spared {outside' : Int → Prop} (cleared : Cleared s'.files s'.next)
    (table : ∀ slot ∈ inode.chainSlots, s'.fentTable slot = s.fentTable slot)
    (used : ∀ slot ∈ inode.chainSlots, InUse s'.files slot) (apart : ∀ slot ∈ inode.chainSlots, ¬ outside' slot)
    (others : ∀ slot, outside' slot → InUse s'.files slot) : GhostFile outside' inode pmLogHead s' := by
  have next (slot : Int) (hm : slot ∈ inode.chainSlots) : s'.next slot = s.next slot :=
    congrArg PmFilent.next (table slot hm)
  refine ⟨h.listed, h.regular, ⟨?_, ⟨cleared.maps, cleared.small, h.slots.held.once, used⟩, ?_⟩, ?_,
    apart, others⟩
  · exact h.slots.chain.congr fun slot hm => next slot (mem_append_left _ hm)
  · rw [next _ (mem_append_right _ (mem_singleton_self _))]
    exact h.slots.ghost
  · intro fe member
    rw [table _ (mem_append_left _ (mem_map_of_mem member))]
    exact h.records fe member

end

end

/-! ## Runs -/

/-- The files by the place of their inodes in DRAM; `pmLogHead` is `log_head` of the
inodes in PM, by number. The list of a file is `broken` once `file_remove_entry` has given
an entry back to the arena before taking it off the list. -/
structure LogWorld where
  sbi : Sbi
  pmLogHead : Nat → Int
  files : Nat → Option LiveFile
  broken : Nat → Bool

open LogWorld

def LogWorld.set (w : LogWorld) (i : Nat) (file : Option LiveFile) (pmLogHead : Nat → Int) (sbi : Sbi) :
    LogWorld :=
  ⟨sbi, pmLogHead, update w.files i file, w.broken⟩

/-- Slot 0 and the slots of all files but `i`. -/
def LogWorld.Outside (w : LogWorld) (i : Nat) (slot : Int) : Prop :=
  slot = 0 ∨ ∃ j file, j ≠ i ∧ w.files j = some file ∧ slot ∈ file.inode.chainSlots

/-- An entry that `file_remove_entry` can take out: it is not up for reuse, only blocks
of its extent lead to it, and `log_head` in DRAM tells whether it is the first. -/
structure Removable (inode : Inode) (fe : Nat) : Prop where
  member : fe ∈ inode.list
  busy : fe ∉ inode.invalid
  keys : ∀ k, btreeGet inode.bRoot k = some fe →
    (inode.fents fe).lIdx ≤ k ∧ k < (inode.fents fe).lIdx + (inode.fents fe).blocks
  first : inode.logHead = (inode.fents fe).idx ↔ inode.list.head? = some fe

/-- One call. A new file gets a number that no other file has, a write finds blocks and
slots for records and looks up no block behind the keys of the tree, and `allowed` says
which files may be released. A creation that fails may have written to the inode in PM that
it gives back. Once an entry of a file has been removed no call follows that goes through
the list of the file. -/
inductive GhostStep (allowed : LiveFile → Prop) (w : LogWorld) : LogWorld → Prop
  | create (i : Nat) (env : Env) (granted : Bool) (appended : Int) (nodes entries : Nat → Bool)
      (inode : Inode) (sbi : Sbi) (new : w.files i = none) (supply : ∀ n, nodes n = true)
      (number : ∀ j file, w.files j = some file → file.inode.iNo ≠ inode.iNo)
      (call : inodeCreate env w.sbi granted appended nodes entries = some (.ok inode, sbi)) :
      GhostStep allowed w (w.set i (some ⟨inode, 1⟩)
        (update w.pmLogHead inode.iNo inode.logHead) sbi)
  | createFailed (env : Env) (granted : Bool) (appended : Int) (nodes entries : Nat → Bool)
      (e : Int) (sbi : Sbi) (pmLogHead : Nat → Int)
      (heads : ∀ j file, w.files j = some file → pmLogHead file.inode.iNo = w.pmLogHead file.inode.iNo)
      (call : inodeCreate env w.sbi granted appended nodes entries = some (.error e, sbi)) :
      GhostStep allowed w { w with sbi, pmLogHead }
  | write (i : Nat) (file : LiveFile) (env : Env) (buf : Mem) (len offset : Nat)
      (runs : List (Nat × Nat)) (maps : Maps) (ret : Int) (inode : Inode) (sbi : Sbi)
      (live : w.files i = some file) (intact : w.broken i = false)
      (served : Served env (fun _ _ _ _ => True) w.sbi.storage.data.maps (blockCount len offset)
        runs maps)
      (spare : w.sbi.storage.files.Spare runs.length) (far : offset + len < 2 ^ 63)
      (inside : file.inode.HasKeys len offset)
      (call : inodeWriteAtomic env w.sbi file.inode buf len offset = some (ret, inode, sbi)) :
      GhostStep allowed w (w.set i (some { file with inode }) w.pmLogHead sbi)
  | remove (i : Nat) (file : LiveFile) (fe : Nat) (inode : Inode) (storage : Storage) (head : Int)
      (live : w.files i = some file) (intact : w.broken i = false) (ask : Removable file.inode fe)
      (call : fileRemoveEntry w.sbi.storage (w.pmLogHead file.inode.iNo) file.inode fe =
        some (inode, storage, head)) :
      GhostStep allowed w { w.set i (some { file with inode })
        (update w.pmLogHead file.inode.iNo head) { w.sbi with storage } with
          broken := update w.broken i true }
  | unlink (i : Nat) (file : LiveFile) (live : w.files i = some file) (named : 0 < file.iLink) :
      GhostStep allowed w (w.set i (some { file with iLink := file.iLink - 1 }) w.pmLogHead w.sbi)
  | release (i : Nat) (file : LiveFile) (live : w.files i = some file) (unnamed : file.iLink = 0)
      (intact : w.broken i = false) (ask : allowed file) :
      GhostStep allowed w (w.set i none w.pmLogHead (doInodeRelease w.sbi file.inode))

structure LogWorld.Ok (w : LogWorld) : Prop where
  cleared : Cleared w.sbi.storage.files w.sbi.storage.next
  zero : InUse w.sbi.storage.files 0
  file : ∀ i file, w.files i = some file →
    GhostFile (w.Outside i) file.inode (w.pmLogHead file.inode.iNo) w.sbi.storage
  numbers : ∀ i j file file', w.files i = some file → w.files j = some file' →
    file.inode.iNo = file'.inode.iNo → i = j

/-- The ghost slots can be told from records by `next`, and so can the slots that may
become one. -/
structure LogWorld.GhostsKnown (w : LogWorld) : Prop where
  free : ∀ n : Nat, w.sbi.storage.files.Has n → w.sbi.storage.files.used n = false →
    w.sbi.storage.next n = 0
  ghosts : ∀ i file, w.files i = some file → w.sbi.storage.next file.inode.ghostSlot = 0
  ends : ∀ i file, w.files i = some file → ∃ slots,
    Chain w.sbi.storage.next file.inode.ghostSlot (w.pmLogHead file.inode.iNo) slots ∧
    ∀ slot ∈ slots, w.sbi.storage.next slot ≠ 0

theorem LogWorld.Ok.ghostsKnown (ok : w.Ok) : w.GhostsKnown := by
  refine ⟨ok.cleared.free, fun i file live => (ok.file i file live).slots.ghost, fun i file live => ?_⟩
  have h := ok.file i file live
  refine ⟨_, h.slots.chain, fun slot member zero => ?_⟩
  exact h.apart _ (h.slots.next_mem member) (.inl zero)

theorem LogWorld.set_live {j : Nat} {f : LiveFile} (live : (w.set i file pmLogHead sbi).files j = some f) :
    (j = i ∧ file = some f) ∨ (j ≠ i ∧ w.files j = some f) := by
  by_cases e : j = i
  · subst e
    exact .inl ⟨rfl, by simpa [set] using live⟩
  · exact .inr ⟨e, by simpa [set, e] using live⟩

/-- One file changes, and the slots of the others stay as they are. -/
theorem LogWorld.Ok.set (ok : w.Ok) (cleared : Cleared sbi.storage.files sbi.storage.next)
    (spares : w.sbi.storage.Spares (w.Outside i) sbi.storage)
    (heads : ∀ j f, j ≠ i → w.files j = some f → pmLogHead f.inode.iNo = w.pmLogHead f.inode.iNo)
    (own : ∀ f, file = some f →
      GhostFile (w.Outside i) f.inode (pmLogHead f.inode.iNo) sbi.storage)
    (numbers : ∀ f j g, file = some f → j ≠ i → w.files j = some g → g.inode.iNo ≠ f.inode.iNo) :
    (w.set i file pmLogHead sbi).Ok := by
  have zero := spares.used 0 (.inl rfl) ok.zero
  have used {slot : Int} (ho : w.Outside i slot) : InUse sbi.storage.files slot := by
    rcases ho with rfl | ⟨k, g, other, live, member⟩
    · exact zero
    · exact spares.used slot (.inr ⟨k, g, other, live, member⟩)
        ((ok.file k g live).slots.held.taken slot member)
  have outside {j : Nat} {slot : Int} (ho : (w.set i file pmLogHead sbi).Outside j slot) :
      w.Outside i slot ∨ j ≠ i ∧ ∃ f, file = some f ∧ slot ∈ f.inode.chainSlots := by
    rcases ho with e | ⟨k, g, other, live, member⟩
    · exact .inl (.inl e)
    · rcases set_live live with ⟨rfl, mine⟩ | ⟨apart, theirs⟩
      · exact .inr ⟨other.symm, g, mine, member⟩
      · exact .inl (.inr ⟨k, g, apart, theirs, member⟩)
  refine ⟨cleared, zero, fun j f live => ?_, fun j k f g live live' same => ?_⟩
  · rcases set_live live with ⟨rfl, mine⟩ | ⟨other, theirs⟩
    · have h := own f mine
      apply h.spared cleared (fun _ _ => rfl) h.slots.held.taken
      · exact fun slot hm ho => (outside ho).elim (h.apart slot hm) fun bad => bad.1 rfl
      · exact fun slot ho => (outside ho).elim used fun bad => absurd rfl bad.1
    have h := ok.file j f theirs
    have outer {slot : Int} (hm : slot ∈ f.inode.chainSlots) : w.Outside i slot :=
      .inr ⟨j, f, other, theirs, hm⟩
    rw [← heads j f other theirs] at h
    apply h.spared cleared (fun slot hm => spares.table slot (outer hm)) fun slot hm => used (outer hm)
    · rintro slot hm (e | ⟨k, g, apart, live', member⟩)
      · exact h.apart slot hm (.inl e)
      · rcases set_live live' with ⟨rfl, mine⟩ | ⟨_, theirs'⟩
        · exact (own g mine).apart slot member (outer hm)
        · exact h.apart slot hm (.inr ⟨k, g, apart, theirs', member⟩)
    intro slot ho
    rcases outside ho with ho | ⟨_, g, mine, member⟩
    · exact used ho
    · exact (own g mine).slots.held.taken slot member
  · rcases set_live live with ⟨rfl, mine⟩ | ⟨hj, theirs⟩ <;>
      rcases set_live live' with ⟨rfl, mine'⟩ | ⟨hk, theirs'⟩
    · rfl
    · exact absurd same.symm (numbers f k g mine hk theirs')
    · exact absurd same (numbers g j f mine' hj theirs)
    · exact ok.numbers j k f g theirs theirs' same

theorem LogWorld.Ok.logged (ok : w.Ok) {file : LiveFile} (live : w.files i = some file) (sbi : Sbi)
    (iLink : Nat) (logged : Logged (w.Outside i) w.sbi.storage file.inode inode head sbi.storage) :
    (w.set i (some ⟨inode, iLink⟩) (update w.pmLogHead file.inode.iNo head) sbi).Ok := by
  have number {j : Nat} {f : LiveFile} (other : j ≠ i) (theirs : w.files j = some f) :
      f.inode.iNo ≠ file.inode.iNo := fun e => other (ok.numbers j i f file theirs live e)
  apply ok.set logged.cleared logged.spares
  · exact fun j f other theirs => update_of_ne (number other theirs) _ _
  · rintro f ⟨⟩
    rw [logged.number, update_self]
    exact logged.file
  · rintro f j g ⟨⟩ other theirs
    rw [logged.number]
    exact number other theirs

theorem LogWorld.Ok.outside_used (ok : w.Ok) {slot : Int} (ho : w.Outside i slot) :
    InUse w.sbi.storage.files slot := by
  rcases ho with rfl | ⟨j, file, _, live, member⟩
  · exact ok.zero
  · exact (ok.file j file live).slots.held.taken slot member

theorem Cleared.create {sbi' : Sbi} {r : Except Int Inode} (h : Cleared sbi.storage.files sbi.storage.next)
    (call : inodeCreate env sbi granted appended nodes entries = some (r, sbi')) :
    Cleared sbi'.storage.files sbi'.storage.next ∧ sbi'.storage.fentTable = sbi.storage.fentTable ∧
    ∀ slot, InUse sbi.storage.files slot → InUse sbi'.storage.files slot := by
  have same {s : Storage} (e : s = sbi.storage) : Cleared s.files s.next ∧
      s.fentTable = sbi.storage.fentTable ∧
      ∀ slot, InUse sbi.storage.files slot → InUse s.files slot := by
    subst e
    exact ⟨h, rfl, fun _ used => used⟩
  rcases inodeCreate_storage call with e | e
  · exact same e
  generalize alloc : doSlotAlloc sbi.storage.files (env.cpu sbi.storage.files) = out at e
  obtain ⟨slot, files⟩ := out
  by_cases found : 0 ≤ slot
  · obtain ⟨_, cleared, _, kept⟩ := h.alloc alloc found
    rw [e]
    exact ⟨cleared, rfl, fun slot used => (kept slot used).2⟩
  obtain ⟨i, bit, m, _, _, _, _, eq⟩ | ⟨eq, _⟩ :=
    doSlotAlloc_cases h.maps h.small (env.cpu sbi.storage.files)
  · cases alloc.symm.trans eq
    exact absurd (Int.natCast_nonneg _) found
  · cases alloc.symm.trans eq
    exact same e

theorem LogWorld.Ok.create (ok : w.Ok) (supply : ∀ n, nodes n = true)
    (call : inodeCreate env w.sbi granted appended nodes entries = some (.ok inode, sbi)) (i : Nat) :
    GhostFile (w.Outside i) inode inode.logHead sbi.storage := by
  obtain ⟨new, found, _, _, storage⟩ := inodeCreate_new supply call
  have alloc : doSlotAlloc w.sbi.storage.files (env.cpu w.sbi.storage.files) =
      (inode.ghostSlot, sbi.storage.files) := by
    rw [new.log.2, storage]
  obtain ⟨next, cleared, _, kept⟩ := ok.cleared.alloc alloc found
  have slots : inode.slots = [] := by rw [slots, new.list]; rfl
  obtain ⟨held, _⟩ := (Held.none ok.cleared.maps ok.cleared.small).alloc alloc found
  refine ⟨new.indexed.listed, new.regular, ⟨?_, ?_, ?_⟩, ?_, ?_, ?_⟩
  · rw [slots, new.log.1, ← new.log.2]
    exact .done
  · rw [slots]
    exact held
  · rw [storage]
    exact next
  · rw [new.list]
    intro _ hm
    cases hm
  · intro slot hm ho
    rw [chainSlots, slots] at hm
    exact (kept slot (ok.outside_used ho)).1 (mem_singleton.mp hm)
  · exact fun slot ho => (kept slot (ok.outside_used ho)).2

theorem GhostStep.ok {w' : LogWorld} (ok : w.Ok) (step : GhostStep (fun file => file.inode.list = []) w w') :
    w'.Ok := by
  cases step with
  | create i env granted appended nodes entries inode sbi new supply number call =>
    obtain ⟨cleared, table, used⟩ := ok.cleared.create call
    apply ok.set cleared ⟨fun slot _ => congrFun table slot, fun slot _ => used slot⟩
    · exact fun j f _ live => update_of_ne (number j f live) _ _
    · rintro f ⟨⟩
      rw [update_self]
      exact ok.create supply call i
    · rintro f j g ⟨⟩ _ live
      exact number j g live
  | createFailed env granted appended nodes entries e sbi pmLogHead heads call =>
    obtain ⟨cleared, table, used⟩ := ok.cleared.create call
    refine ⟨cleared, used 0 ok.zero, fun i file live => ?_, ok.numbers⟩
    have h := ok.file i file live
    rw [← heads i file live] at h
    exact h.spared cleared (fun slot _ => congrFun table slot)
      (fun slot hm => used slot (h.slots.held.taken slot hm)) h.apart
      fun slot ho => used slot (h.others slot ho)
  | write i file env buf len offset runs maps ret inode sbi live intact served spare far inside call =>
    have logged := inodeWriteAtomic_ghost (ok.file i file live) ok.cleared served spare far call
    simpa using ok.logged live _ file.iLink logged
  | remove i file fe inode storage head live intact ask call =>
    have logged := (ok.file i file live).remove ok.cleared ask.member ask.busy ask.keys ask.first call
    have ok' := ok.logged live { w.sbi with storage } file.iLink logged
    exact ⟨ok'.cleared, ok'.zero, ok'.file, ok'.numbers⟩
  | unlink i file live named =>
    have logged : Logged (w.Outside i) w.sbi.storage file.inode file.inode (w.pmLogHead file.inode.iNo)
        w.sbi.storage := ⟨ok.file i file live, ok.cleared, .refl _ _, rfl⟩
    simpa using ok.logged live _ (file.iLink - 1) logged
  | release i file live unnamed intact empty =>
    have storage : (doInodeRelease w.sbi file.inode).storage = w.sbi.storage := by
      rw [doInodeRelease, empty]
      rfl
    apply ok.set
    · rw [storage]
      exact ok.cleared
    · rw [storage]
      exact .refl _ _
    · exact fun _ _ _ _ => rfl
    · exact fun _ h => nomatch h
    · exact fun _ _ _ h => nomatch h

/-- No files, a table of zeros, and slot 0 taken as `mkfs` does. -/
structure LogWorld.Zeroed (w : LogWorld) : Prop where
  files : ∀ i, w.files i = none
  maps : w.sbi.storage.files.Ok
  small : w.sbi.storage.files.Within (2 ^ 31)
  zero : InUse w.sbi.storage.files 0
  table : ∀ slot, w.sbi.storage.next slot = 0

theorem LogWorld.Zeroed.ok (h : w.Zeroed) : w.Ok := by
  refine ⟨⟨h.maps, h.small, fun n _ _ => h.table n⟩, h.zero, fun i file live => ?_,
    fun i j file _ live => ?_⟩ <;>
  · rw [h.files] at live
    cases live

/-- A file system of 64 slots as `mkfs` leaves it. -/
def formatted : LogWorld where
  sbi := { blankSbi 64 0#8 with
    storage := { blankStorage 64 with files := (doSlotAlloc (emptyMaps 64) 0).2 } }
  pmLogHead := fun _ => 0
  files := fun _ => none
  broken := fun _ => false

theorem formatted_zeroed : formatted.Zeroed := by
  have alloc : doSlotAlloc (emptyMaps 64) 0 = (0, (doSlotAlloc (emptyMaps 64) 0).2) :=
    Prod.ext (by decide +kernel) rfl
  obtain ⟨held, _⟩ := (Held.none (emptyMaps_ok 64) fun _ _ => show 64 ≤ 2 ^ 31 by decide).alloc alloc
    le_rfl
  exact ⟨fun _ => rfl, held.maps, held.small, held.taken 0 (mem_singleton_self _), fun _ => rfl⟩

/-- A new file with one record: its slot is 1, and the ghost slot is 2. -/
theorem formatted_written (allowed : LiveFile → Prop) : ∃ w file, Run (GhostStep allowed) formatted w ∧
    w.files 0 = some file ∧ w.broken 0 = false ∧ file.iLink = 1 ∧ file.inode.list = [0] ∧
    w.sbi.storage.next 1 = 2 ∧ (doInodeRelease w.sbi file.inode).storage.files.Has 1 ∧
    (doInodeRelease w.sbi file.inode).storage.files.used 1 = false := by
  have run : (created formatted.sbi).bind (fun f =>
      (inodeWriteAtomic firstFit f.2 f.1 (fun _ => 1#8) 4096 0).map fun out =>
        let files := (doInodeRelease out.2.2 out.2.1).storage.files
        (out.2.1.list, out.2.2.storage.next 1, decide (files.Has 1), files.used 1)) =
      some ([0], 2, true, false) := by
    decide +kernel
  obtain ⟨⟨inode, sbi⟩, create, last⟩ := bind_eq_some_iff.mp run
  obtain ⟨⟨ret, inode', sbi'⟩, call, eq⟩ := map_eq_some_iff.mp last
  simp only [Prod.mk.injEq, decide_eq_true_eq] at eq
  obtain ⟨list, next, has, unused⟩ := eq
  have create := inodeCreate_of_created create
  obtain ⟨_, _, _, _, storage⟩ := inodeCreate_new (fun _ => rfl) create
  obtain ⟨maps, served⟩ := firstFit_first (fun _ _ _ _ => True) trivial
  have spare : sbi.storage.files.Spare 1 := by
    rw [storage]
    exact ⟨[2], nodup_singleton 2, le_rfl, by decide +kernel⟩
  have alone (j : Nat) (file : LiveFile) (live : formatted.files j = some file) :
      file.inode.iNo ≠ inode.iNo := by
    cases live
  have first : GhostStep allowed formatted _ :=
    .create 0 firstFit true 0 _ _ inode sbi rfl (fun _ => rfl) alone create
  refine ⟨_, ⟨inode', 1⟩, .tail (.single first) (.write 0 ⟨inode, 1⟩ firstFit _ 4096 0 [(0, 1)] maps ret
    inode' sbi' ?_ rfl ?_ spare (by decide) nofun call), ?_, rfl, rfl, list, next, has, unused⟩
  · simp [LogWorld.set]
  · rw [LogWorld.set, storage]
    exact served
  · simp [LogWorld.set]

/-- In every run that releases no file that has records, ghost slots are known by
their `next`. -/
theorem ghosts_known {w w' : LogWorld} (zeroed : w.Zeroed)
    (run : Run (GhostStep fun file => file.inode.list = []) w w') : w'.GhostsKnown :=
  (Run.invariant (I := Ok) GhostStep.ok run zeroed.ok).ghostsKnown

/-- A file with a record. -/
theorem ghosts_known_first : formatted.Zeroed ∧ ∃ w file,
    Run (GhostStep fun file => file.inode.list = []) formatted w ∧ w.files 0 = some file ∧
    file.inode.list = [0] ∧ w.GhostsKnown := by
  obtain ⟨w, file, run, live, _, _, list, _⟩ := formatted_written fun file => file.inode.list = []
  exact ⟨formatted_zeroed, w, file, run, live, list, ghosts_known formatted_zeroed run⟩

/-- The release of a file with a record frees a slot that still names the next one. -/
theorem released_slot_names_next : formatted.Zeroed ∧ ∃ w, Run (GhostStep fun _ => True) formatted w ∧
    w.sbi.storage.files.Has 1 ∧ w.sbi.storage.files.used 1 = false ∧ w.sbi.storage.next 1 = 2 ∧
    ¬ w.GhostsKnown := by
  obtain ⟨w, file, run, live, intact, named, list, next, has, unused⟩ := formatted_written fun _ => True
  have unlink : GhostStep (fun _ => True) w _ := .unlink 0 file live (named ▸ Nat.one_pos)
  have release : GhostStep (fun _ => True)
      (w.set 0 (some ⟨file.inode, file.iLink - 1⟩) w.pmLogHead w.sbi) _ :=
    .release 0 ⟨file.inode, file.iLink - 1⟩ (by simp [LogWorld.set]) (by simp [named]) intact trivial
  have kept : (doInodeRelease w.sbi file.inode).storage.next 1 = 2 := by
    simp only [doInodeRelease, list]
    exact next
  refine ⟨formatted_zeroed, _, .tail (.tail run unlink) release, has, unused, kept, fun known => ?_⟩
  have zero := known.free 1 has unused
  exact absurd (zero.symm.trans kept) (by decide)

end SlotFs
