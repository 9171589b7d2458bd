import SlotFs.RecoverReplay

/-!
# The recovered bitmaps

What the bitmaps should be is said with the entries of the directories alone, where a
ghost slot is no entry. Recovery follows the ghost slots too, never marks slot 0, and
never sets a bit of the data map.
-/

namespace SlotFs
open CWord Chains Relation List Option Image LogOf

variable {fentTable : Int → PmFilent} {ghost : Int} {slots : List Int} {type : SlotType}

/-! ## What should be in use -/

/-- An entry of directory `d` names inode `c`. -/
def Image.Enters (image : Image) (d c : Nat) : Prop :=
  image.isDir d = true ∧ ∃ slots ghost, image.DirLog d slots ghost ∧ ∃ s ∈ slots, (image.dentTable s).ino = c

def Image.Reaches (image : Image) : Nat → Prop := ReflTransGen image.Enters 0

/-- Slot `b` is an entry or the ghost slot of a directory that can be reached. -/
def Image.DirSlot (image : Image) (b : Nat) : Prop :=
  ∃ d slots ghost, image.Reaches d ∧ image.isDir d = true ∧ image.DirLog d slots ghost ∧
    (b : Int) ∈ slots ++ [ghost]

def Image.FileSlot (image : Image) (b : Nat) : Prop :=
  ∃ f slots ghost, image.Reaches f ∧ image.isDir f = false ∧ image.FileLog f slots ghost ∧
    (b : Int) ∈ slots ++ [ghost]

/-- Block `b` is where the newest record for some block of a file that can be reached has
put it. -/
def Image.LiveBlock (image : Image) (b : Nat) : Prop :=
  ∃ f slots ghost k r, image.Reaches f ∧ image.isDir f = false ∧ image.FileLog f slots ghost ∧
    newestOf k (slots.map image.fentTable) = some r ∧ b = r.pIdx + (k - r.lIdx)

/-- An image that a crash may leave. Every inode that can be reached has a log, and a ghost
slot may hold the entry of any inode. -/
structure Image.WellFormed (image : Image) : Prop where
  small : image.slotNum .inode < 2 ^ 31
  indices : ∀ ino, -2 ^ 63 ≤ (image.inodes ino).logHead ∧ ∀ s, -2 ^ 63 ≤ image.nextSlot ino s
  inside : ∀ ino, image.Reaches ino → ino < image.slotNum .inode
  dirs : ∀ d, image.Reaches d → image.isDir d = true → ∃ slots ghost, image.DirLog d slots ghost ∧
    (image.dentTable ghost).ino < image.slotNum .inode
  files : ∀ f, image.Reaches f → image.isDir f = false → ∃ slots ghost, image.FileLog f slots ghost ∧
    DistinctTimes (slots.map image.fentTable) ∧
    ∀ r ∈ slots.map image.fentTable, 0 < r.pIdx ∧ r.pIdx + r.blocks ≤ image.slotNum .data

/-- What the ghost slot of a directory happens to hold names an inode in use. -/
def Image.GhostsKnown (image : Image) : Prop :=
  ∀ d slots ghost, image.Reaches d → image.isDir d = true → image.DirLog d slots ghost →
    image.Reaches (image.dentTable ghost).ino

/-- No file that can be reached has a block. -/
def Image.NoBlocks (image : Image) : Prop :=
  ∀ f slots ghost, image.Reaches f → image.isDir f = false → image.FileLog f slots ghost →
    ∀ r ∈ slots.map image.fentTable, r.blocks = 0

section
variable {image : Image} {d : Nat} {slots : List Int} {ghost : Int}

theorem Image.DirLog.log (h : image.DirLog d slots ghost) (dir : image.isDir d = true) :
    image.Log d (slots ++ [ghost]) := by
  have next : image.nextSlot d = fun s => (image.dentTable s).next := by
    funext s
    rw [nextSlot, if_pos dir]
  rw [Log, next]
  exact full h

/-- Recovery finds nothing else if the ghost slots lead nowhere else. -/
theorem Image.GhostsKnown.reaches (h : image.GhostsKnown) (wf : image.WellFormed)
    (visits : image.Visits d) : image.Reaches d := by
  induction visits with
  | refl => exact .refl
  | tail _ names ih =>
    obtain ⟨dir, slots', log', s, member, rfl⟩ := names
    obtain ⟨slots, ghost, log, _⟩ := wf.dirs _ ih dir
    rw [Chain.unique log' (log.log dir)] at member
    rcases mem_append.mp member with member | member
    · exact ih.tail ⟨dir, slots, ghost, log, s, member, rfl⟩
    · rw [mem_singleton.mp member]
      exact h _ slots ghost ih dir log

end

/-! ## A file system with one file -/

theorem isDir_fileImage (fentTable : Int → PmFilent) (ino : Nat) :
    (fileImage fentTable).isDir ino = decide (ino = 0) := by
  by_cases root : ino = 0 <;> simp [isDir, fileImage, root, sIfdir]

theorem fileImage_root (fentTable : Int → PmFilent) : (fileImage fentTable).DirLog 0 [1] 2 := by
  refine ⟨.step ?_ .done, fun s member => ?_, rfl⟩
  · change (1 : Int) ≠ 2
    decide
  · change 0 < s ∧ s < 16
    simp only [cons_append, nil_append, mem_cons, not_mem_nil, or_false] at member
    rcases member with rfl | rfl <;> decide

/-- Only the root and its file can be reached. -/
theorem fileImage_reaches {ino : Nat} (h : (fileImage fentTable).Reaches ino) : ino = 0 ∨ ino = 1 := by
  induction h with
  | refl => exact .inl rfl
  | tail _ enters _ =>
    obtain ⟨dir, slots, ghost, log, s, member, rfl⟩ := enters
    rw [isDir_fileImage, decide_eq_true_eq] at dir
    subst dir
    obtain ⟨rfl, rfl⟩ := unique log (fileImage_root fentTable)
    rw [mem_singleton.mp member]
    exact .inr rfl

theorem fileImage_entered (fentTable : Int → PmFilent) : (fileImage fentTable).Reaches 1 :=
  ReflTransGen.refl.tail ⟨by simp [isDir_fileImage], [1], 2, fileImage_root fentTable, 1, by simp, rfl⟩

theorem fileImage_wellFormed (log : (fileImage fentTable).FileLog 1 slots ghost)
    (distinct : DistinctTimes (slots.map fentTable))
    (bounds : ∀ r ∈ slots.map fentTable, 0 < r.pIdx ∧ r.pIdx + r.blocks ≤ 16)
    (indices : ∀ s, 0 ≤ (fentTable s).next) : (fileImage fentTable).WellFormed := by
  constructor
  · change 16 < 2 ^ 31
    decide
  · refine fun ino => ⟨?_, fun s => ?_⟩
    · change -2 ^ 63 ≤ (1 : Int)
      decide
    rw [nextSlot]
    split
    · simp only [fileImage]
      split <;> decide
    · exact le_trans (by decide) (indices s)
  · intro ino reaches
    change ino < 16
    rcases fileImage_reaches reaches with rfl | rfl <;> decide
  · intro d _ dir
    rw [isDir_fileImage, decide_eq_true_eq] at dir
    subst dir
    refine ⟨[1], 2, fileImage_root fentTable, ?_⟩
    change 0 < 16
    decide
  intro f reaches file
  rw [isDir_fileImage, decide_eq_false_iff_not] at file
  obtain rfl := (fileImage_reaches reaches).resolve_left file
  exact ⟨slots, ghost, log, distinct, bounds⟩

theorem fileImage_ghostsKnown (fentTable : Int → PmFilent) : (fileImage fentTable).GhostsKnown := by
  intro d slots ghost _ dir log
  rw [isDir_fileImage, decide_eq_true_eq] at dir
  subst dir
  obtain ⟨_, rfl⟩ := unique log (fileImage_root fentTable)
  exact .refl

theorem twoRecords_wellFormed (second : Fin 2) : (fileImage (twoRecords second)).WellFormed := by
  apply fileImage_wellFormed (twoRecords_log second) (twoRecords_distinct second)
  · intro r member
    simp only [map_cons, map_nil, mem_cons, not_mem_nil, or_false] at member
    rcases member with rfl | rfl <;> decide +revert
  intro s
  unfold twoRecords
  split
  · decide
  · split <;> decide +revert

/-! ## The metadata -/

/-- The bitmaps are exact, and slot 0 is reserved in all four. -/
structure MetadataExact (image image' : Image) : Prop where
  inodes : ∀ b, b < image.slotNum .inode → (bit (image'.bitmap .inode) b = true ↔ image.Reaches b)
  dirs : ∀ b, b < image.slotNum .dir → (bit (image'.bitmap .dir) b = true ↔ b = 0 ∨ image.DirSlot b)
  files : ∀ b, b < image.slotNum .file → (bit (image'.bitmap .file) b = true ↔ b = 0 ∨ image.FileSlot b)
  zero : bit (image'.bitmap .data) 0 = true

/-- The bits that no handling sets: those of the data, and slot 0 of the logs. -/
structure Rc.Unset (rc : Rc) : Prop where
  data : ∀ b, bit (rc.map .data) b = false
  dir : bit (rc.map .dir) 0 = false
  file : bit (rc.map .file) 0 = false

section
variable {mem : Malloced} {image image' : Image} {rc rc' : Rc} {fuel ino : Nat} {s : Int}

theorem bit_rcFlush {b : Nat} (inside : b < image.slotNum type) :
    bit ((rcFlush image rc).bitmap type) b = bit (rc.map type) b := by
  have byte : b / 8 < mapBytes (image.slotNum type) := by
    rw [mapBytes]
    omega
  simp only [rcFlush, bit, if_pos byte]

/-- The loop stops at slot 0, so it is other bits that it marks. -/
theorem rcLogLoop_unset (indices : ∀ s, -2 ^ 63 ≤ image.nextSlot ino s) (low : -2 ^ 63 ≤ s)
    (run : rcLogLoop mem image ino fuel rc s = some rc') (unset : rc.Unset) : rc'.Unset := by
  induction fuel generalizing rc s with
  | zero => cases run
  | succ fuel ih =>
    unfold rcLogLoop at run
    split at run
    · obtain rfl := some.inj run
      exact unset
    rename_i other
    have away : (0 : Nat) ≠ toSize s := by
      unfold toSize
      split <;> omega
    obtain ⟨⟨rc1, next⟩, slot, rest⟩ := bind_eq_some_iff.mp run
    have here := indices s
    split at slot <;> rename_i kind
    · obtain ⟨_, rfl, _, map, _⟩ := rcHandleDirent_cases slot
      rw [nextSlot, if_pos kind] at here
      refine ih here rest ⟨?_, ?_, ?_⟩
      · simpa [map] using unset.data
      · simp [map, bit_setBit, away, unset.dir]
      · simpa [map] using unset.file
    · obtain ⟨_, _, map, _, _, clears, rfl, rfl⟩ := rcHandleFilent_cases slot
      rw [nextSlot, if_neg kind] at here
      refine ih here rest ⟨fun b => ?_, ?_, ?_⟩
      · simpa using clears b (unset.data b)
      · simpa using unset.dir
      · simp [bit_setBit, away, unset.file]

theorem rcReplay_unset
    (indices : ∀ ino, -2 ^ 63 ≤ (image.inodes ino).logHead ∧ ∀ s, -2 ^ 63 ≤ image.nextSlot ino s)
    (run : rcReplay mem image fuel rc = some rc') (unset : rc.Unset) : rc'.Unset := by
  induction fuel generalizing rc with
  | zero => cases run
  | succ fuel ih =>
    unfold rcReplay at run
    split at run
    · obtain rfl := some.inj run
      exact unset
    rename_i idx queue _
    obtain ⟨rc1, handle, rest⟩ := bind_eq_some_iff.mp run
    have inside : toSize idx < image.slotNum .inode := by
      obtain ⟨_, found, _⟩ := bind_eq_some_iff.mp handle
      exact rcIget_inside found
    obtain ⟨inode, _, start⟩ := rcHandleInode_start inside
    obtain ⟨head, next⟩ := indices (toSize idx)
    exact ih rest (rcLogLoop_unset next head (start.symm.trans handle) ⟨unset.data, unset.dir, unset.file⟩)

theorem Image.WellFormed.pos (wf : image.WellFormed) : 0 < image.slotNum .inode := wf.inside 0 .refl

/-- No block is marked and no slot 0, whatever the memory held. -/
theorem recover_unset (wf : image.WellFormed) (run : recover mem image = some image') :
    ∃ rc, image' = rcFlush image rc ∧ rc.Unset := by
  rw [recover_eq wf.small wf.pos] at run
  obtain ⟨rc, replay, rfl⟩ := map_eq_some_iff.mp run
  exact ⟨rc, rfl, rcReplay_unset wf.indices replay ⟨by simp [replayStart, bit], by simp [replayStart, bit],
    by simp [replayStart, bit]⟩⟩

theorem recover_clears (wf : image.WellFormed) (run : recover mem image = some image') {b : Nat}
    (inside : b < image.slotNum .data) : bit (image'.bitmap .data) b = false := by
  obtain ⟨rc, rfl, unset⟩ := recover_unset wf run
  rw [bit_rcFlush inside, unset.data]

theorem recover_slot_zero (wf : image.WellFormed) (run : recover mem image = some image') (other : type ≠ .inode)
    (pos : 0 < image.slotNum type) : bit (image'.bitmap type) 0 = false := by
  obtain ⟨rc, rfl, unset⟩ := recover_unset wf run
  rw [bit_rcFlush pos]
  cases type with
  | inode => exact absurd rfl other
  | dir => exact unset.dir
  | file => exact unset.file
  | data => exact unset.data 0

theorem Image.GhostsKnown.followable (known : image.GhostsKnown) (wf : image.WellFormed)
    (logs : ∀ f slots ghost, image.Reaches f → image.isDir f = false → image.FileLog f slots ghost →
      Mergeable (mem.ref f) (image.slotNum .data) (slots.map image.fentTable))
    {d : Nat} (reaches : image.Reaches d) : Followable mem image d := by
  constructor
  · intro dir
    obtain ⟨slots, ghost, log, _⟩ := wf.dirs d reaches dir
    refine ⟨slots, ghost, log, fun s member => ?_⟩
    apply wf.inside
    rcases mem_append.mp member with member | member
    · exact reaches.tail ⟨dir, slots, ghost, log, s, member, rfl⟩
    · rw [mem_singleton.mp member]
      exact known d slots ghost reaches dir log
  · intro file
    obtain ⟨slots, ghost, log, distinct, _⟩ := wf.files d reaches file
    exact ⟨slots, ghost, log, distinct, logs d slots ghost reaches file log⟩

theorem recover_proceeds (wf : image.WellFormed) (noLinks : mem.NoLinks)
    (logs : ∀ f slots ghost, image.Reaches f → image.isDir f = false → image.FileLog f slots ghost →
      Mergeable (mem.ref f) (image.slotNum .data) (slots.map image.fentTable))
    (known : image.GhostsKnown) : ∃ image', recover mem image = some image' := by
  obtain ⟨rc, replay⟩ := (replayStart_replayed noLinks wf.pos).proceeds (image.slotNum .inode + 1)
    wf.small (fun d visits => known.followable wf logs (known.reaches wf visits)) (by simp)
  exact ⟨rcFlush image rc, by rw [recover_eq wf.small wf.pos, replay, map_some]⟩

end

/-- Whatever the image and the memory, a recovery that ends leaves slot 0 free in the three other
maps, so that the bitmaps are never exact. -/
theorem recovered_metadata_never_exact {mem : Malloced} {image image' : Image} (wf : image.WellFormed)
    (run : recover mem image = some image') :
    (∀ type, type ≠ .inode → 0 < image.slotNum type → bit (image'.bitmap type) 0 = false) ∧
      ¬ MetadataExact image image' := by
  have zero (type : SlotType) (other : type ≠ .inode) (pos : 0 < image.slotNum type) :
      bit (image'.bitmap type) 0 = false := recover_slot_zero wf run other pos
  refine ⟨zero, fun exact => ?_⟩
  by_cases dir : image.isDir 0 = true
  · obtain ⟨slots, ghost, log, _⟩ := wf.dirs 0 .refl dir
    have bounds := log.inside ghost (by simp)
    have pos : 0 < image.slotNum .dir := by omega
    cases (zero .dir (by decide) pos).symm.trans ((exact.dirs 0 pos).mpr (.inl rfl))
  · obtain ⟨slots, ghost, log, _⟩ := wf.files 0 .refl (Bool.not_eq_true _ ▸ dir)
    have bounds := log.inside ghost (by simp)
    have pos : 0 < image.slotNum .file := by omega
    cases (zero .file (by decide) pos).symm.trans ((exact.files 0 pos).mpr (.inl rfl))

/-- The only block of the file has been overwritten. -/
theorem recovered_metadata_never_exact_file : ∃ image', recover zeroed (fileImage (twoRecords 0)) = some image' ∧
    bit (image'.bitmap .dir) 0 = false ∧ ¬ MetadataExact (fileImage (twoRecords 0)) image' := by
  have ends : (recover zeroed (fileImage (twoRecords 0))).isSome := by decide +kernel
  obtain ⟨image', run⟩ := isSome_iff_exists.mp ends
  obtain ⟨zero, never⟩ := recovered_metadata_never_exact (twoRecords_wellFormed 0) run
  exact ⟨image', run, zero .dir (by decide) (by decide), never⟩

/-- The root is empty, and its ghost slot still names inode 1. -/
def staleImage : Image := { fileImage (twoRecords 1) with dentTable := fun _ => ⟨1, [0x66#8], 1, 1, 0⟩ }

theorem isDir_staleImage (ino : Nat) : staleImage.isDir ino = decide (ino = 0) :=
  isDir_fileImage (twoRecords 1) ino

theorem staleImage_root : staleImage.DirLog 0 [] 1 := by
  refine ⟨.done, fun s member => ?_, rfl⟩
  rw [mem_singleton.mp member]
  decide

theorem staleImage_reaches {ino : Nat} (h : staleImage.Reaches ino) : ino = 0 := by
  induction h with
  | refl => rfl
  | tail _ enters _ =>
    obtain ⟨dir, slots, ghost, log, s, member, _⟩ := enters
    rw [isDir_staleImage, decide_eq_true_eq] at dir
    subst dir
    obtain ⟨rfl, _⟩ := unique log staleImage_root
    cases member

theorem staleImage_wellFormed : staleImage.WellFormed := by
  constructor
  · decide
  · refine fun ino => ⟨by change -2 ^ 63 ≤ (1 : Int); decide, fun s => ?_⟩
    rw [nextSlot]
    split
    · change -2 ^ 63 ≤ (0 : Int)
      decide
    change -2 ^ 63 ≤ (twoRecords 1 s).next
    unfold twoRecords
    split
    · decide
    · split <;> decide
  · intro ino reaches
    rw [staleImage_reaches reaches]
    decide
  · intro d reaches _
    rw [staleImage_reaches reaches]
    exact ⟨[], 1, staleImage_root, by decide⟩
  · intro f reaches file
    rw [staleImage_reaches reaches] at file
    exact absurd file (by decide)

/-- Recovery marks the deleted inode, and it marks slot 0 of no other table. -/
theorem deleted_inode_recovered : staleImage.WellFormed ∧ ¬ staleImage.Reaches 1 ∧
    ∃ image', recover zeroed staleImage = some image' ∧ bit (image'.bitmap .inode) 1 = true ∧
      bit (image'.bitmap .dir) 0 = false ∧ bit (image'.bitmap .file) 0 = false ∧
      bit (image'.bitmap .data) 0 = false := by
  refine ⟨staleImage_wellFormed, fun reaches => absurd (staleImage_reaches reaches) (by decide), ?_⟩
  have run : ((recover zeroed staleImage).map fun image => (bit (image.bitmap .inode) 1,
      bit (image.bitmap .dir) 0, bit (image.bitmap .file) 0, bit (image.bitmap .data) 0)) =
      some (true, false, false, false) := by decide +kernel
  obtain ⟨image', recovered, bits⟩ := map_eq_some_iff.mp run
  simp only [Prod.mk.injEq] at bits
  exact ⟨image', recovered, bits⟩

/-! ## The data -/

section
variable {mem : Malloced} {image image' : Image} {rc rc' : Rc} {fuel ino : Nat} {s : Int}

/-- Where a file has a block, some block of the data is live. -/
theorem Image.WellFormed.liveBlock (wf : image.WellFormed) {f : Nat} (reaches : image.Reaches f)
    (file : image.isDir f = false) (log : image.FileLog f slots ghost) {r : PmFilent}
    (member : r ∈ slots.map image.fentTable) (nonempty : r.blocks ≠ 0) :
    ∃ b, 0 < b ∧ b < image.slotNum .data ∧ image.LiveBlock b := by
  obtain ⟨slots', ghost', log', _, bounds⟩ := wf.files f reaches file
  obtain ⟨rfl, rfl⟩ := unique log log'
  cases newest : newestOf r.lIdx (slots.map image.fentTable) with
  | none => exact absurd ⟨le_rfl, by omega⟩ (newestOf_eq_none newest r member)
  | some q =>
    obtain ⟨listed, covers⟩ := newestOf_mem newest
    obtain ⟨pos, below⟩ := bounds q listed
    have first := covers.1
    have last := covers.2
    exact ⟨q.pIdx + (r.lIdx - q.lIdx), by omega, by omega, f, slots, ghost, r.lIdx, q, reaches, file, log,
      newest, rfl⟩

theorem Image.NoBlocks.mergeable (none : image.NoBlocks) (zero : ∀ f o, mem.ref f o = 0) {f : Nat}
    (reaches : image.Reaches f) (file : image.isDir f = false) (log : image.FileLog f slots ghost) :
    Mergeable (mem.ref f) (image.slotNum .data) (slots.map image.fentTable) := by
  have empty (r : PmFilent) (member : r ∈ slots.map image.fentTable) (k : Nat) : ¬ r.Covers k := by
    intro covers
    have first := covers.1
    have last := covers.2
    rw [none f slots ghost reaches file log r member] at last
    omega
  constructor
  · exact fun r member k covers => absurd covers (empty r member k)
  · intro o r at_o
    rw [zero, none f slots ghost reaches file log r (mem_of_getElem? at_o)]
    rfl
  · exact fun o r k at_o covers => absurd covers (empty r (mem_of_getElem? at_o) k)

end

/-- A recovery that ends leaves the data bitmap empty: block 0 is not reserved, and the
other bits are right only if no file has a block. In that case recovery does end, with
zeroed memory and ghost slots that name inodes in use. -/
theorem recovered_data_bitmap (mem : Malloced) {image : Image} (wf : image.WellFormed)
    (pos : 0 < image.slotNum .data) :
    (∀ image', recover mem image = some image' → bit (image'.bitmap .data) 0 = false ∧
      ((∀ b, 0 < b → b < image.slotNum .data →
        (bit (image'.bitmap .data) b = true ↔ image.LiveBlock b)) ↔ image.NoBlocks)) ∧
    (mem.NoLinks → (∀ f o, mem.ref f o = 0) → image.GhostsKnown → image.NoBlocks →
      ∃ image', recover mem image = some image') := by
  refine ⟨fun image' run => ⟨recover_clears wf run pos, ?_, ?_⟩, fun noLinks zero known none => ?_⟩
  · intro exact f slots ghost reaches file log r member
    by_contra nonempty
    obtain ⟨b, first, last, live⟩ := wf.liveBlock reaches file log member nonempty
    have marked := (exact b first last).mpr live
    cases (recover_clears wf run last).symm.trans marked
  · intro none b _ inside
    rw [recover_clears wf run inside]
    refine ⟨fun marked => absurd marked Bool.false_ne_true, ?_⟩
    rintro ⟨f, slots, ghost, k, r, reaches, file, log, newest, _⟩
    obtain ⟨member, covers⟩ := newestOf_mem newest
    have first := covers.1
    have last := covers.2
    rw [none f slots ghost reaches file log r member] at last
    omega
  · exact recover_proceeds wf noLinks (fun f slots ghost => none.mergeable zero) known

/-- The log of the file holds only its ghost slot. -/
def emptyFile (_ : Int) : PmFilent := .zero

theorem emptyFile_log : (fileImage emptyFile).FileLog 1 [] 1 := by
  refine ⟨.done, fun s member => ?_, rfl⟩
  rw [mem_singleton.mp member]
  decide

theorem emptyFile_wellFormed : (fileImage emptyFile).WellFormed := by
  apply fileImage_wellFormed emptyFile_log .nil
  · exact fun _ member => absurd member not_mem_nil
  · exact fun _ => le_rfl

theorem emptyFile_noBlocks : (fileImage emptyFile).NoBlocks := by
  intro f slots ghost reaches file log r member
  rw [isDir_fileImage, decide_eq_false_iff_not] at file
  obtain rfl := (fileImage_reaches reaches).resolve_left file
  obtain ⟨rfl, _⟩ := unique log emptyFile_log
  cases member

theorem recovered_data_bitmap_empty : ∃ image', recover zeroed (fileImage emptyFile) = some image' ∧
    ∀ b, 0 < b → b < 16 → (bit (image'.bitmap .data) b = true ↔ (fileImage emptyFile).LiveBlock b) := by
  obtain ⟨exact, ends⟩ := recovered_data_bitmap zeroed emptyFile_wellFormed (by decide)
  obtain ⟨image', run⟩ := ends (fun _ => rfl) (fun _ _ => rfl) (fileImage_ghostsKnown _) emptyFile_noBlocks
  exact ⟨image', run, (exact image' run).2.mpr emptyFile_noBlocks⟩

/-- The first block of the file is live, and recovery leaves it free, as it does block 0. -/
theorem live_block_not_marked : (fileImage (twoRecords 1)).WellFormed ∧
    (fileImage (twoRecords 1)).LiveBlock 1 ∧
    ∃ image', recover zeroed (fileImage (twoRecords 1)) = some image' ∧
      bit (image'.bitmap .data) 1 = false ∧ bit (image'.bitmap .data) 0 = false := by
  refine ⟨twoRecords_wellFormed 1, ?_, ?_⟩
  · exact ⟨1, [1, 2], 3, 0, twoRecords 1 1, fileImage_entered _, by simp [isDir_fileImage], twoRecords_log 1,
      rfl, rfl⟩
  have run : ((recover zeroed (fileImage (twoRecords 1))).map fun image =>
      (bit (image.bitmap .data) 1, bit (image.bitmap .data) 0)) = some (false, false) := by
    decide +kernel
  obtain ⟨image', recovered, bits⟩ := map_eq_some_iff.mp run
  simp only [Prod.mk.injEq] at bits
  exact ⟨image', recovered, bits⟩

end SlotFs
