import SlotFs.EntryCounts
import SlotFs.GhostSlots

/-!
# What a file leaves behind

From its creation to its release a file takes a slot of `SLOT_INODE`, one of `SLOT_DIR` for
its name and those of `SLOT_FILE` for its records. `do_inode_release` gives back the slots of
the records on the list. The ghost slot, which has been taken for a record that never
comes, is on no list.
-/

namespace SlotFs
open CWord Runs List

variable {b : Maps} {before : Int → Prop} {env : Env} {file inode inode' : Inode} {name : List (BitVec 8)}
  {parent parent' : Dir} {rb : Rbtree} {s s' : DirStorage} {sbi sbi' : Sbi} {slot : Int} {writes : List Nat}

/-! ## Slots as sets -/

/-- Maps in order whose slot numbers fit 64 bits. -/
structure Maps.Sized (b : Maps) : Prop extends Maps.Ok b where
  small : b.Within (2 ^ 31)
  nonempty : 0 < (b.map 0).bitNum
  numbers : b.num * (b.map 0).bitNum < 2 ^ 64

section
variable (h : b.Sized)
include h

theorem Maps.Sized.set {i : Nat} {m : DramBitmap} (size : m.bitNum = (b.map i).bitNum) (ok : (b.set i m).Ok) :
    (b.set i m).Sized := by
  have first := Maps.set_bitNum size 0
  exact ⟨ok, h.small.set i size, first ▸ h.nonempty, first ▸ h.numbers⟩

theorem Maps.Sized.alloc {b' : Maps} {cpu : Nat} (call : doSlotAlloc b cpu = (slot, b')) :
    b'.Sized ∧ -1 ≤ slot ∧ ¬ InUse b slot ∧ ∀ x, InUse b' x ↔ InUse b x ∨ x = slot ∧ 0 ≤ x := by
  rcases doSlotAlloc_cases h.toOk h.small cpu with ⟨i, n, m, hi, _, free, taken, eq⟩ | ⟨eq, _⟩
  · obtain ⟨ok, _, has, unused, has', used⟩ := allocLocked_used h.toOk h.small hi free taken
    have size : m.bitNum = (b.map i).bitNum := by
      simp only [allocLocked] at taken
      split at taken
      · cases taken
        rfl
      · cases taken
    cases eq.symm.trans call
    refine ⟨h.set size ok, by omega, ?_, fun x => ⟨?_, ?_⟩⟩
    · rintro ⟨k, e, _, set⟩
      rw [← Int.ofNat_inj.mp e, unused] at set
      cases set
    · rintro ⟨k, rfl, hask, set⟩
      rw [used k ((has' k).mp hask), Bool.or_eq_true, decide_eq_true_eq] at set
      rcases set with rfl | set
      · exact .inr ⟨rfl, by omega⟩
      · exact .inl ⟨k, rfl, (has' k).mp hask, set⟩
    · rintro (⟨k, rfl, hask, set⟩ | ⟨rfl, _⟩)
      · exact ⟨k, rfl, (has' k).mpr hask, by rw [used k hask, set, Bool.or_true]⟩
      · exact ⟨_, rfl, (has' _).mpr has, by rw [used _ has]; simp⟩
  · cases eq.symm.trans call
    refine ⟨h, le_rfl, ?_, fun x => ⟨.inl, ?_⟩⟩
    · rintro ⟨k, e, _⟩
      omega
    · rintro (used | ⟨rfl, least⟩)
      · exact used
      · omega

theorem Maps.Sized.give (used : InUse b slot) :
    (doSlotFree b slot).Sized ∧ ∀ x, InUse (doSlotFree b slot) x ↔ InUse b x ∧ x ≠ slot := by
  obtain ⟨n, rfl, has, set⟩ := used
  obtain ⟨ok, _, has', used⟩ := doSlotFree_spec h.toOk h.small has set
  refine ⟨?_, fun x => ⟨?_, ?_⟩⟩
  · simp only [doSlotFree, toSize_natCast, if_pos has.1] at ok ⊢
    exact h.set rfl ok
  · rintro ⟨k, rfl, hask, set⟩
    rw [used k ((has' k).mp hask), Bool.and_eq_true, Bool.not_eq_true', decide_eq_false_iff_not] at set
    exact ⟨⟨k, rfl, (has' k).mp hask, set.2⟩, fun e => set.1 (Int.ofNat_inj.mp e)⟩
  · rintro ⟨⟨k, rfl, hask, set⟩, other⟩
    have apart : k ≠ n := fun e => other (e ▸ rfl)
    exact ⟨k, rfl, (has' k).mpr hask, by rw [used k hask, set]; simp [apart]⟩

theorem Maps.Sized.free_none (none : toSize slot = 2 ^ 64 - 1) : doSlotFree b slot = b ∧ ¬ InUse b slot := by
  have numbers := h.numbers
  have beyond : ¬ (2 ^ 64 - 1) / (b.map 0).bitNum < b.num := by
    rw [Nat.div_lt_iff_lt_mul h.nonempty]
    omega
  constructor
  · rw [doSlotFree, none, if_neg beyond]
  · rintro ⟨n, rfl, has, _⟩
    rw [toSize_natCast] at none
    exact beyond (none ▸ has.1)

theorem Maps.Sized.free (slots : InUse b slot ∨ toSize slot = 2 ^ 64 - 1) :
    (doSlotFree b slot).Sized ∧ ∀ x, InUse (doSlotFree b slot) x ↔ InUse b x ∧ x ≠ slot := by
  rcases slots with used | none
  · exact h.give used
  obtain ⟨same, unused⟩ := h.free_none none
  rw [same]
  refine ⟨h, fun x => ⟨fun used => ⟨used, ?_⟩, And.left⟩⟩
  rintro rfl
  exact unused used

end

/-! ## The slots of a file -/

/-- `before` are the slots in use for something else. Where there was no slot the file has
-1 instead. -/
structure FileSlots (before : Int → Prop) (inode : Inode) (files : Maps) : Prop where
  sized : files.Sized
  listed : Listed inode
  regular : inode.symlink = false
  used : ∀ x, InUse files x ↔ before x ∨ x ∈ inode.chainSlots ∧ 0 ≤ x
  apart : ∀ x ∈ inode.chainSlots, ¬ before x
  least : ∀ x ∈ inode.chainSlots, -1 ≤ x
  once : (inode.chainSlots.filter (0 ≤ ·)).Nodup

theorem FileSlots.congr {files : Maps} (h : FileSlots before inode files) (listed : Listed inode')
    (same : inode'.symlink = inode.symlink ∧ inode'.chainSlots = inode.chainSlots) :
    FileSlots before inode' files := by
  obtain ⟨kind, slots⟩ := same
  exact ⟨h.sized, listed, kind.trans h.regular, slots ▸ h.used, slots ▸ h.apart, slots ▸ h.least,
    slots ▸ h.once⟩

theorem FileSlots.append {before : Int → Prop} {env : Env} {inode inode' : Inode} {s s' : Storage}
    {entry : PmFilent} {r : Except Int Nat} (h : FileSlots before inode s.files)
    (call : fileAppendEntry env s inode entry = some (r, inode', s')) :
    FileSlots before inode' s'.files ∧ inode'.iNo = inode.iNo := by
  obtain ⟨c, inode1, files, inode2, data, choice, listed, entered, eq⟩ | ⟨num, eq⟩ :=
    fileAppendEntry_listed h.listed env s entry
  · cases eq.symm.trans call
    have kind : inode'.symlink = inode.symlink := entered.same.2.2.1
    refine ⟨?_, entered.same.1⟩
    rcases entered.slots_cases h.listed choice with
      ⟨slots, _, _, _, ghost, rfl⟩ | ⟨slots, _, _, _, alloc⟩
    · exact h.congr listed ⟨kind, by rw [Inode.chainSlots, slots, ghost]; rfl⟩
    rw [h.regular] at alloc
    obtain ⟨sized, least, free, used⟩ := h.sized.alloc alloc.symm
    have chain : inode'.chainSlots = inode.chainSlots ++ [inode'.ghostSlot] := by
      rw [Inode.chainSlots, slots]
      rfl
    have new : 0 ≤ inode'.ghostSlot → inode'.ghostSlot ∉ inode.chainSlots :=
      fun found member => free ((h.used _).mpr (.inr ⟨member, found⟩))
    refine ⟨sized, listed, kind.trans h.regular, fun x => ?_, ?_, ?_, ?_⟩ <;> rw [chain]
    · rw [used, h.used, mem_append, mem_singleton, or_and_right, or_assoc]
    · intro x hx
      rcases mem_append.mp hx with hx | hx
      · exact h.apart x hx
      · rw [mem_singleton.mp hx]
        exact fun old => free ((h.used _).mpr (.inl old))
    · intro x hx
      rcases mem_append.mp hx with hx | hx
      · exact h.least x hx
      · rw [mem_singleton.mp hx]
        exact least
    rw [filter_append]
    refine h.once.append ((nodup_singleton _).filter _) fun x hx hx' => ?_
    obtain ⟨member, found⟩ := mem_filter.mp hx
    rw [mem_singleton.mp (mem_filter.mp hx').1] at member found
    exact new (of_decide_eq_true found) member
  · cases eq.symm.trans call
    exact ⟨h.congr (h.listed.recount num) ⟨rfl, rfl⟩, rfl⟩

/-- The loop of `do_inode_release` gives back the slots of the entries it goes through. -/
theorem releaseExtent_files (inode : Inode) (list : List Nat) {s : Storage} (sized : s.files.Sized)
    (slots : ∀ fe ∈ list, InUse s.files (inode.fents fe).idx ∨ (inode.fents fe).idx = -1)
    (once : ((list.map fun fe => (inode.fents fe).idx).filter (0 ≤ ·)).Nodup) :
    ∀ x, InUse (list.foldl (releaseExtent inode) s).files x ↔
      InUse s.files x ∧ x ∉ list.map fun fe => (inode.fents fe).idx := by
  induction list generalizing s with
  | nil => simp
  | cons fe list ih =>
    have own : InUse s.files (inode.fents fe).idx ∨ toSize (inode.fents fe).idx = 2 ^ 64 - 1 :=
      (slots fe (mem_cons_self ..)).imp_right fun e => by rw [e]; rfl
    obtain ⟨sized', used⟩ := sized.free own
    rw [map_cons, filter_cons] at once
    have rest (o : Nat) (ho : o ∈ list) :
        InUse (releaseExtent inode s fe).files (inode.fents o).idx ∨ (inode.fents o).idx = -1 := by
      refine (slots o (mem_cons_of_mem _ ho)).imp_left fun inUse => (used _).mpr ⟨inUse, fun e => ?_⟩
      obtain ⟨n, idx, _⟩ := inUse
      have positive : 0 ≤ (inode.fents fe).idx := by omega
      rw [if_pos (decide_eq_true positive)] at once
      apply (nodup_cons.mp once).1
      rw [← e]
      exact mem_filter.mpr ⟨mem_map_of_mem ho, decide_eq_true (e ▸ positive)⟩
    have once : ((list.map fun fe => (inode.fents fe).idx).filter (0 ≤ ·)).Nodup := by
      split at once
      · exact (nodup_cons.mp once).2
      · exact once
    intro x
    rw [foldl_cons, ih sized' rest once, map_cons, mem_cons, not_or, ← and_assoc]
    exact and_congr_left fun _ => used x

/-- Of the slots of the file only the ghost slot stays in use. -/
theorem FileSlots.released (h : FileSlots before inode sbi.storage.files) (x : Int) :
    InUse (doInodeRelease sbi inode).storage.files x ↔ before x ∨ x = inode.ghostSlot ∧ 0 ≤ x := by
  have once := h.once
  rw [Inode.chainSlots, filter_append] at once
  obtain ⟨once, _, apart⟩ := nodup_append.mp once
  have own (fe : Nat) (member : fe ∈ inode.list) :
      InUse sbi.storage.files (inode.fents fe).idx ∨ (inode.fents fe).idx = -1 := by
    have chained : (inode.fents fe).idx ∈ inode.chainSlots :=
      mem_append_left _ (mem_map_of_mem member)
    have := h.least _ chained
    by_cases found : 0 ≤ (inode.fents fe).idx
    · exact .inl ((h.used _).mpr (.inr ⟨chained, found⟩))
    · exact .inr (by omega)
  refine (releaseExtent_files inode inode.list h.sized own once x).trans ?_
  rw [h.used]
  constructor
  · rintro ⟨old | ⟨chained, found⟩, gone⟩
    · exact .inl old
    · rcases mem_append.mp chained with member | member
      · exact absurd member gone
      · exact .inr ⟨mem_singleton.mp member, found⟩
  rintro (old | ⟨rfl, found⟩)
  · exact ⟨.inl old, fun member => h.apart x (mem_append_left _ member) old⟩
  refine ⟨.inr ⟨mem_append_right _ (mem_singleton_self _), found⟩, fun member => ?_⟩
  have found := decide_eq_true found
  exact apart _ (mem_filter.mpr ⟨member, found⟩) _
    (mem_filter.mpr ⟨mem_singleton_self _, found⟩) rfl

/-! ## The life of a file -/

/-- A write of any outcome. -/
inductive FileWrite : Inode × Sbi → Inode × Sbi → Prop
  | write (env : Env) (buf : Mem) (len offset : Nat) (ret : Int) (file file' : Inode) (sbi sbi' : Sbi)
      (call : inodeWriteAtomic env sbi file buf len offset = some (ret, file', sbi')) :
      FileWrite (file, sbi) (file', sbi')

/-- A file is created under a new name, written, removed from the directory by that name,
and released. Closing it does nothing to the maps, and no write touches the directory, so
it does not matter when the name is removed. -/
inductive FileLife (sbi : Sbi) (s : DirStorage) (parent : Dir) : Inode → Sbi → DirStorage → Dir → Prop
  | mk (rb : Rbtree) (env : Env) (name : List (BitVec 8)) (ts : Nat) (new : NewNode)
      (file file' : Inode) (sbi1 sbi2 : Sbi) (s1 s' : DirStorage) (parent1 parent' : Dir) (d : Nat)
      (regular : new.isDir = false) (supply : ∀ n, new.nodes n = true)
      (unnamed : direntLookup parent (bkdrHash name) = none)
      (create : nodeCreate rb env sbi s parent name ts new = some (.ok (.file file), parent1, sbi1, s1))
      (writes : Run FileWrite (file, sbi1) (file', sbi2))
      (lookup : direntLookup parent1 (bkdrHash name) = some d)
      (unlink : dirRemoveEntry rb s1 parent1 d = some (parent', s')) :
      FileLife sbi s parent file' (doInodeRelease sbi2 file') s' parent'

theorem inodeWriteAtomic_inodes {buf : Mem} {len offset : Nat} {ret : Int}
    (call : inodeWriteAtomic env sbi inode buf len offset = some (ret, inode', sbi')) :
    sbi'.inodes = sbi.inodes := by
  cases Wrote.of_call call with
  | journaled => rfl
  | logged mgr low w ret inode' sbi' other loop log =>
    obtain ⟨_, _, _, _, rfl, _⟩ := writeLog_cases log
    exact (writeLoop_sbi loop).2

theorem FileWrite.slots {inodes : Maps} {ino : Nat} {a b : Inode × Sbi}
    (h : FileSlots before a.1 a.2.storage.files ∧ a.1.iNo = ino ∧ a.2.inodes = inodes) (step : FileWrite a b) :
    FileSlots before b.1 b.2.storage.files ∧ b.1.iNo = ino ∧ b.2.inodes = inodes := by
  obtain ⟨slots, number, same⟩ := h
  cases step with
  | write env buf len offset ret file file' sbi sbi' call =>
    obtain ⟨slots', number'⟩ := inodeWriteAtomic_keeps
      (P := fun inode s => FileSlots before inode s.files ∧ inode.iNo = ino)
      (fun h call => ⟨(h.1.append call).1, (h.1.append call).2.trans h.2⟩) (fun _ h => h)
      (fun _ h => ⟨h.1.congr ⟨h.1.listed.tree, h.1.listed.values, h.1.listed.idle, h.1.listed.once,
        h.1.listed.asked⟩ ⟨rfl, rfl⟩, h.2⟩) ⟨slots, number⟩ call
    exact ⟨slots', number', (inodeWriteAtomic_inodes call).trans same⟩

theorem nodeCreate_file {ts : Nat} {new : NewNode} (regular : new.isDir = false)
    (call : nodeCreate rb env sbi s parent name ts new = some (.ok (.file file), parent', sbi', s')) :
    ∃ inode d entry, inodeCreate env sbi new.granted 0 new.nodes new.entries = some (.ok inode, sbi') ∧
      file = { inode with entryNum := EntryInode.entryNum entry } ∧
      dirAppendEntry rb env.cpu s parent ⟨inode.iNo, ts, 0⟩ name = (.ok d, parent', entry, s') := by
  obtain ⟨⟨_ | node, sbi1, s1⟩, make, eq⟩ := Option.map_eq_some_iff.mp call
  · cases eq
  rw [makeNode, regular, if_neg Bool.false_ne_true] at make
  obtain ⟨⟨_ | inode, _⟩, create, made⟩ := Option.map_eq_some_iff.mp make
  · cases made
  cases made
  dsimp only at eq
  generalize append : dirAppendEntry rb env.cpu s parent _ name = out at eq
  obtain ⟨_ | d, parent1, entry, s2⟩ := out
  · cases eq
  · cases eq
    exact ⟨inode, d, entry, create, rfl, append⟩

theorem inodeCreate_number {granted : Bool} {appended : Int} {nodes entries : Nat → Bool}
    (call : inodeCreate env sbi granted appended nodes entries = some (.ok inode, sbi')) :
    inode.iNo = toSize (doSlotAlloc sbi.inodes (env.cpu sbi.inodes)).1 ∧
    sbi'.inodes = (doSlotAlloc sbi.inodes (env.cpu sbi.inodes)).2 := by
  cases granted with
  | false => simp [inodeCreate] at call
  | true =>
    simp only [inodeCreate, if_true] at call
    obtain ⟨inode1, create, eq⟩ := Option.map_eq_some_iff.mp call
    obtain ⟨tree, _, rfl⟩ := Option.map_eq_some_iff.mp create
    split at eq
    · cases eq
    split at eq
    · cases eq
    · cases eq
      exact ⟨rfl, rfl⟩

/-- A new file holds one slot, its ghost slot. -/
theorem FileSlots.created {env : Env} {sbi sbi' : Sbi} {granted : Bool} {appended : Int}
    {nodes entries : Nat → Bool} {inode : Inode} (sized : sbi.storage.files.Sized) (supply : ∀ n, nodes n = true)
    (call : inodeCreate env sbi granted appended nodes entries = some (.ok inode, sbi')) (num : Nat) :
    FileSlots (InUse sbi.storage.files) { inode with entryNum := num } sbi'.storage.files := by
  obtain ⟨new, found, _, _, storage⟩ := inodeCreate_new supply call
  obtain ⟨sized', least, free, used⟩ := sized.alloc (show doSlotAlloc sbi.storage.files
    (env.cpu sbi.storage.files) = (inode.ghostSlot, sbi'.storage.files) by rw [storage, new.log.2])
  have chain : ({ inode with entryNum := num } : Inode).chainSlots = [inode.ghostSlot] := by
    rw [Inode.chainSlots, Inode.slots, new.list]
    rfl
  have listed := new.indexed.listed
  refine ⟨sized', ⟨listed.tree, listed.values, listed.idle, listed.once, listed.asked⟩, new.regular,
    fun x => ?_, ?_, ?_, ?_⟩ <;> rw [chain]
  · rw [used, mem_singleton]
  · intro x hx
    rw [mem_singleton.mp hx]
    exact free
  · intro x hx
    rw [mem_singleton.mp hx]
    exact least
  · exact (nodup_singleton _).filter _

theorem Maps.Sized.take_give {b' : Maps} (h : b.Sized) {cpu : Nat} (call : doSlotAlloc b cpu = (slot, b'))
    (x : Int) : InUse (doSlotFree b' (toSize slot)) x ↔ InUse b x := by
  obtain ⟨sized, least, free, used⟩ := h.alloc call
  by_cases found : 0 ≤ slot
  · obtain ⟨n, rfl⟩ := Int.eq_ofNat_of_zero_le found
    rw [toSize_natCast, (sized.free (Or.inl ((used n).mpr (Or.inr ⟨rfl, found⟩)))).2, used]
    constructor
    · rintro ⟨old | ⟨same, _⟩, other⟩
      · exact old
      · exact absurd same other
    intro old
    refine ⟨.inl old, ?_⟩
    rintro rfl
    exact free old
  obtain rfl : slot = -1 := by omega
  rw [(sized.free_none rfl).1, used]
  constructor
  · rintro (old | ⟨rfl, found⟩)
    · exact old
    · omega
  · exact .inl

theorem DirEntered.named_last {dir dir' : Dir} {inode : EntryInode} {d d' : Nat} {ghost : Int}
    (h : DirEntered dir inode name d ghost dir') (indexed : dir.Indexed)
    (unnamed : direntLookup dir (bkdrHash name) = none) (lookup : direntLookup dir' (bkdrHash name) = some d') :
    (dir'.dents d').idx = dir.ghostSlot := by
  obtain ⟨member, hash⟩ := h.indexed.lookup.mp lookup
  rw [h.list] at member
  rw [h.dents] at hash ⊢
  rcases mem_append.mp member with old | last
  · have other : d' ≠ d := by
      rintro rfl
      exact h.new old
    rw [Function.update_of_ne other] at hash
    exact absurd hash (indexed.absent unnamed d' old)
  · rw [mem_singleton.mp last, Function.update_self]

/-- The name of a new file goes to the ghost slot of the directory, and is given back with
it. -/
theorem dirEntry_slots {cpu : Maps → Nat} {s1 : DirStorage} {parent1 : Dir} {inode entry : EntryInode}
    {d d' : Nat} (sized : s.dirs.Sized) (indexed : parent.Indexed) (ghost : InUse s.dirs parent.ghostSlot)
    (unnamed : direntLookup parent (bkdrHash name) = none)
    (append : dirAppendEntry rb cpu s parent inode name = (.ok d, parent1, entry, s1))
    (lookup : direntLookup parent1 (bkdrHash name) = some d')
    (unlink : dirRemoveEntry rb s1 parent1 d' = some (parent', s')) (x : Int) :
    InUse s'.dirs x ↔ InUse s.dirs x ∧ x ≠ parent.ghostSlot ∨ x = parent'.ghostSlot ∧ 0 ≤ x := by
  obtain ⟨d1, slot, dirs, dir', alloc, entered, eq⟩ | eq :=
    dirAppendEntry_cases indexed rb cpu s inode (indexed.absent unnamed)
  · cases eq.symm.trans append
    obtain ⟨sized', least, free, used⟩ := sized.alloc alloc
    have own := entered.named_last indexed unnamed lookup
    obtain ⟨⟨logHead, pmLogHead, table⟩, _, eq⟩ := Option.map_eq_some_iff.mp unlink
    cases eq
    dsimp only
    rw [own, entered.ghost, (sized'.free (Or.inl ((used _).mpr (Or.inl ghost)))).2, used]
    constructor
    · rintro ⟨old | new, other⟩
      · exact .inl ⟨old, other⟩
      · exact .inr new
    rintro (⟨old, other⟩ | ⟨rfl, found⟩)
    · exact ⟨.inl old, other⟩
    · refine ⟨.inr ⟨rfl, found⟩, ?_⟩
      rintro rfl
      exact free ghost
  · cases eq.symm.trans append

/-! ## Concrete files -/

/-- The file `a` in a new directory is written, if asked for, and removed. -/
def lifeOfA (writes : List Nat) : Option (Inode × Sbi × DirStorage × Dir) :=
  match nodeCreate plainRb firstFit (blankSbi 64 0#8) emptyDir.storage emptyDir.dir [97#8] 0
      ⟨false, true, fun _ => true, fun _ => true⟩ with
  | some (.ok (.file file), parent, sbi, s) => do
    let (file, sbi) ← writes.foldlM (fun (file, sbi) len =>
      (inodeWriteAtomic firstFit sbi file (fun _ => 1#8) len 0).map Prod.snd) (file, sbi)
    let d ← direntLookup parent (bkdrHash [97#8])
    let (parent, s) ← dirRemoveEntry plainRb s parent d
    some (file, sbi, s, parent)
  | _ => none

theorem FileWrite.run_of_foldlM {file' : Inode} (call : writes.foldlM (fun (file, sbi) len =>
      (inodeWriteAtomic firstFit sbi file (fun _ => 1#8) len 0).map Prod.snd) (file, sbi) =
        some (file', sbi')) : Run FileWrite (file, sbi) (file', sbi') := by
  induction writes generalizing file sbi with
  | nil =>
    cases call
    exact .refl
  | cons len rest ih =>
    obtain ⟨⟨file1, sbi1⟩, first, call⟩ := Option.bind_eq_some_iff.mp call
    obtain ⟨⟨ret, _⟩, write, eq⟩ := Option.map_eq_some_iff.mp first
    cases eq
    exact .head (.write firstFit _ len 0 ret file file1 sbi sbi1 write) (ih call)

theorem FileLife.of_lifeOfA (call : lifeOfA writes = some (file, sbi, s, parent)) :
    FileLife (blankSbi 64 0#8) emptyDir.storage emptyDir.dir file (doInodeRelease sbi file) s parent := by
  unfold lifeOfA at call
  split at call
  · rename_i create
    obtain ⟨⟨file', sbi'⟩, run, call⟩ := Option.bind_eq_some_iff.mp call
    obtain ⟨d, lookup, call⟩ := Option.bind_eq_some_iff.mp call
    obtain ⟨⟨parent', s'⟩, unlink, call⟩ := Option.bind_eq_some_iff.mp call
    cases call
    exact .mk plainRb firstFit [97#8] 0 _ _ _ _ _ _ _ _ _ d rfl (fun _ => rfl) rfl create
      (FileWrite.run_of_foldlM run) lookup unlink
  · cases call

theorem emptyMaps_sized (bits : Nat) (positive : 0 < bits) (small : bits ≤ 2 ^ 31) : (emptyMaps bits).Sized := by
  refine ⟨emptyMaps_ok bits, fun _ _ => small, positive, ?_⟩
  have : (emptyMaps bits).num * ((emptyMaps bits).map 0).bitNum = bits := Nat.one_mul bits
  omega

end SlotFs
