import SlotFs.WriteLoop

/-!
# The log of a write

The extents of a write enter the index one after the other. A failure in between
leaves the ones before it entered.
-/

namespace SlotFs
open CWord List Option

variable {entries nodes : Nat → Bool} {env : Env} {inode inode' : Inode} {r : Except Int Unit}
  {runs : List (Nat × Nat)} {s s' : Storage} {ts : Nat} {u : EntryUnit} {units : List EntryUnit}

theorem Indexed.resize (h : Indexed inode) (size : Nat) : Indexed { inode with iSize := size } :=
  ⟨h.tree, ⟨h.booked.balanced, h.booked.cover⟩, h.once, h.asked⟩

/-- A file that has just been created. -/
structure NewFile (ghost : Int) (inode : Inode) : Prop where
  indexed : Indexed inode
  unmapped : ∀ k, btreeGet inode.bRoot k = none
  iSize : inode.iSize = 0
  list : inode.list = []
  log : inode.logHead = ghost ∧ inode.ghostSlot = ghost
  regular : inode.symlink = false

theorem newInode_new {iNo : Nat} {ghost : Int} (granted : ∀ n, nodes n = true)
    (call : newInode iNo ghost nodes entries = some inode) : NewFile ghost inode := by
  obtain ⟨inode', call', indexed, empty, list, _⟩ := newInode_indexed iNo ghost entries granted
  obtain rfl : inode' = inode := some.inj (call'.symm.trans call)
  obtain ⟨tree, _, rfl⟩ := map_eq_some_iff.mp call
  exact ⟨indexed, empty, rfl, list, ⟨rfl, rfl⟩, rfl⟩

/-- `inode_create` makes a new file, with a record slot of its own. -/
theorem inodeCreate_new {sbi sbi' : Sbi} {granted : Bool} {appended : Int} (supply : ∀ n, nodes n = true)
    (call : inodeCreate env sbi granted appended nodes entries = some (.ok inode, sbi')) :
    NewFile (doSlotAlloc sbi.storage.files (env.cpu sbi.storage.files)).1 inode ∧
    0 ≤ inode.ghostSlot ∧ sbi'.ts = sbi.ts ∧ sbi'.blocks = sbi.blocks ∧ sbi'.storage =
      { sbi.storage with files := (doSlotAlloc sbi.storage.files (env.cpu sbi.storage.files)).2 } := by
  cases granted with
  | false => simp [inodeCreate] at call
  | true =>
    simp only [inodeCreate, if_true] at call
    obtain ⟨inode1, create, eq⟩ := map_eq_some_iff.mp call
    have new := newInode_new supply create
    split at eq
    · cases eq
    rename_i slot
    split at eq
    · cases eq
    · cases eq
      have indexed : Indexed { inode1 with entryNum := 1 } :=
        ⟨new.indexed.tree, ⟨new.indexed.booked.balanced, new.indexed.booked.cover⟩, new.indexed.once, new.indexed.asked⟩
      exact ⟨⟨indexed, new.unmapped, new.iSize, new.list, new.log, new.regular⟩, by dsimp only; rw [new.log.2]; omega,
        rfl, rfl, rfl⟩

/-- A nonempty extent whose logical blocks have numbers below `2 ^ 31`. -/
structure EntryUnit.Keyed (u : EntryUnit) : Prop where
  nonempty : 1 ≤ u.blocks
  below : u.lIdx + u.blocks < 2 ^ 31

theorem EntryUnit.Keyed.record (h : u.Keyed) (ts : Nat) :
    (u.record ts).lIdx = u.lIdx ∧ (u.record ts).blocks = u.blocks := by
  have := h.below
  exact ⟨trunc32_of_lt (by omega), trunc32_of_lt (by omega)⟩

/-- An extent whose numbers all fit the log. -/
structure EntryUnit.Fits (u : EntryUnit) : Prop extends EntryUnit.Keyed u where
  place : u.pIdx < 2 ^ 32

/-- The storage after `file_append_entry` has filled in the entry `c`. -/
def Storage.appended (s : Storage) (inode inode1 inode' : Inode) (entry : PmFilent) (c : Chosen)
    (files : Maps) : Storage :=
  { data := (overwritten (btreeGet inode.bRoot) entry.lIdx entry.blocks (fillEntry inode1 c entry)
      s.data).2
    files
    fentTable := Function.update s.fentTable c.fno
      { entry with next := c.reuse.getD inode'.ghostSlot } }

/-- The rule for the log: `I` tells the extents that are yet to be entered. -/
theorem appendUnits_rule {I : List EntryUnit → Inode → Storage → Prop}
    (indexed : ∀ {rest inode s}, I rest inode s → Indexed inode)
    (append : ∀ {u rest inode s c inode1 files inode'}, I (u :: rest) inode s →
      Choice env s.files inode c inode1 files → Appended inode inode1 (u.record ts) c inode' →
      I rest inode' (s.appended inode inode1 inode' (u.record ts) c files))
    (refuse : ∀ {rest inode s} (num : Nat), I rest inode s → I rest { inode with
      invalidNum := num, arena := { inode.arena with asked := inode.arena.asked + 1 } } s)
    (keyed : ∀ u ∈ units, u.Keyed) (start : I units inode s)
    (call : appendUnits env ts units inode s = some (r, inode', s')) :
    ∃ rest, I rest inode' s' ∧ (r = .ok () → rest = []) := by
  induction units generalizing inode s with
  | nil =>
    cases call
    exact ⟨[], start, fun _ => rfl⟩
  | cons u rest ih =>
    obtain ⟨nonempty, below⟩ := keyed u (mem_cons_self ..)
    have blocks := ((keyed u (mem_cons_self ..)).record ts).2
    simp only [appendUnits] at call
    obtain ⟨c, inode1, files, inode2, choice, appended, eq⟩ | ⟨_, num, eq⟩ :=
      fileAppendEntry_cases (indexed start) (show 1 ≤ (u.record ts).blocks by omega)
        (show (u.record ts).blocks < 2 ^ 31 by omega) env s
    · rw [eq] at call
      exact ih (fun v hv => keyed v (mem_cons_of_mem _ hv)) (append start choice appended) call
    rw [eq] at call
    cases call
    refine ⟨u :: rest, refuse num start, fun ok => ?_⟩
    cases ok

/-- Physical blocks by logical block. -/
def Inode.phys (inode : Inode) : Nat → Option Nat := physOf (btreeGet inode.bRoot) inode.fents

/-- The physical blocks after extent `u` has been entered. -/
def entered (u : EntryUnit) (phys : Nat → Option Nat) : Nat → Option Nat :=
  fun k => if u.lIdx ≤ k ∧ k < u.lIdx + u.blocks then some (u.pIdx + (k - u.lIdx)) else phys k

def overlay (units : List EntryUnit) (phys : Nat → Option Nat) : Nat → Option Nat :=
  units.foldl (fun phys u => entered u phys) phys

theorem Appended.phys {inode1 : Inode} {c : Chosen} (appended : Appended inode inode1 (u.record ts) c inode')
    (fits : u.Fits) : inode'.phys = entered u inode.phys := by
  obtain ⟨hl, hb⟩ := fits.toKeyed.record ts
  have hp : (u.record ts).pIdx = u.pIdx := trunc32_of_lt fits.place
  obtain ⟨ref, filled⟩ := appended.filled
  have same (j fe : Nat) (hj : btreeGet inode.bRoot j = some fe) :
      (inode'.fents fe).pIdx = (inode.fents fe).pIdx ∧
      (inode'.fents fe).lIdx = (inode.fents fe).lIdx := by
    have other : fe ≠ c.fe := by
      rintro rfl
      exact appended.unmapped j hj
    obtain ⟨ref', eq⟩ := appended.kept fe other
    rw [eq]
    exact ⟨rfl, rfl⟩
  funext k
  rw [Inode.phys, appended.map, hl, hb, physOf_given (by rw [filled, hl]) (by rw [filled, hp]) same]
  rfl

/-- Of `units` all but `rest` have been entered in the file that was `inode`. -/
structure Entering (units : List EntryUnit) (inode : Inode) (rest : List EntryUnit) (inode' : Inode) :
    Prop where
  indexed : Indexed inode'
  phys : ∃ past, units = past ++ rest ∧ inode'.phys = overlay past inode.phys

theorem Entering.append {units rest : List EntryUnit} {u : EntryUnit} {ts : Nat} {c : Chosen}
    {inode inode1 inode2 inode' : Inode} (h : Entering units inode (u :: rest) inode1)
    (fits : ∀ u ∈ units, u.Fits) (appended : Appended inode1 inode2 (u.record ts) c inode') :
    Entering units inode rest inode' := by
  obtain ⟨past, split, phys⟩ := h.phys
  refine ⟨appended.indexed, past ++ [u], by simp [split], ?_⟩
  rw [appended.phys (fits u (by simp [split])), phys, overlay, overlay, foldl_append]
  rfl

/-- After the log the extents that were entered lie over the old blocks. -/
theorem appendUnits_phys (fits : ∀ u ∈ units, u.Fits) (indexed : Indexed inode)
    (call : appendUnits env ts units inode s = some (r, inode', s')) :
    ∃ rest, Entering units inode rest inode' ∧ (r = .ok () → rest = []) :=
  appendUnits_rule (I := fun rest inode' _ => Entering units inode rest inode')
    (fun h => h.indexed) (fun h _ appended => h.append fits appended)
    (fun num h => ⟨h.indexed.recount num, h.phys⟩) (fun u hu => (fits u hu).toKeyed)
    ⟨indexed, [], rfl, rfl⟩ call

/-! ## The blocks of the runs -/

theorem mem_layout {start : Nat} (h : u ∈ layout start runs) :
    start ≤ u.lIdx ∧ u.lIdx + u.blocks ≤ start + total runs ∧
      (u.pIdx, u.blocks) ∈ runs := by
  induction runs generalizing start with
  | nil => cases h
  | cons run rest ih =>
    obtain ⟨p, c⟩ := run
    rw [total_cons]
    rcases mem_cons.mp h with rfl | h
    · exact ⟨le_rfl, by dsimp only; omega, mem_cons_self ..⟩
    · obtain ⟨lo, hi, member⟩ := ih h
      exact ⟨by omega, by dsimp only; omega, mem_cons_of_mem _ member⟩

/-- The extents of a write that ends below block `2 ^ 31`. -/
theorem Served.keyed {ok : Maps → Nat → Nat → Nat → Prop} {b b' : Maps} {len offset : Nat}
    (served : Served env ok b (blockCount len offset) runs b') (far : offset + len ≤ (2 ^ 31 - 1) * 4096) :
    ∀ u ∈ layout (offset / 4096) runs, u.Keyed := by
  intro u hu
  obtain ⟨lo, hi, member⟩ := mem_layout hu
  have blocks := served.total
  rw [blockCount_eq (by omega)] at blocks
  exact ⟨served.positive _ member, by omega⟩

/-- Block `i` of some runs, counted through all of them. -/
def blockOf : List (Nat × Nat) → Nat → Nat
  | [], i => i
  | (p, c) :: rest, i => if i < c then p + i else blockOf rest (i - c)

theorem blockOf_append (a b : List (Nat × Nat)) (i : Nat) :
    blockOf (a ++ b) i = if i < total a then blockOf a i else blockOf b (i - total a) := by
  induction a generalizing i with
  | nil => simp
  | cons run rest ih =>
    obtain ⟨p, c⟩ := run
    simp only [cons_append, blockOf, total_cons, ih]
    by_cases first : i < c
    · simp [first, show i < c + total rest by omega]
    by_cases second : i - c < total rest
    · simp [first, second, show i < c + total rest by omega]
    · simp only [first, second, show ¬ i < c + total rest by omega, if_false]
      congr 1
      omega

theorem overlay_layout (start : Nat) (runs : List (Nat × Nat)) (phys : Nat → Option Nat) (k : Nat) :
    overlay (layout start runs) phys k =
      if start ≤ k ∧ k < start + total runs then some (blockOf runs (k - start)) else phys k := by
  induction runs generalizing start phys with
  | nil =>
    rw [if_neg (by rw [total_nil]; omega)]
    rfl
  | cons run rest ih =>
    obtain ⟨p, c⟩ := run
    have next : overlay (layout start ((p, c) :: rest)) phys k =
        overlay (layout (start + c) rest) (entered ⟨start, p, c⟩ phys) k := rfl
    rw [next, ih, total_cons]
    simp only [entered, blockOf]
    by_cases first : start ≤ k ∧ k < start + c
    · rw [if_neg (by omega), if_pos first, if_pos (by omega), if_pos (by omega)]
    by_cases later : start + c ≤ k ∧ k < start + c + total rest
    · rw [if_pos later, if_pos (by omega), if_neg (by omega)]
      congr 2
      omega
    · rw [if_neg later, if_neg first, if_neg (by omega)]

end SlotFs
