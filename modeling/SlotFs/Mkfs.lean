import SlotFs.JournalReplay
import SlotFs.Recover
import SlotFs.Lib.Checked
import SlotFs.Lib.Regions

/-!
# The layout of a new file system

`mkfs.c`: `mkfs_slot` divides the device behind the journal among four bitmaps and four slot
tables. The words are `Checked`, so that each value also says whether it was computed without
a wrap.
-/

namespace SlotFs
open Checked List

def pageShift : Nat := 12
def pageSize : Nat := 4096
def bitmapStart : Nat := bitmapMetaStart + 4096

def inodeSlotSize : Nat := 128
def dirSlotSize : Nat := 256
def fileSlotSize : Nat := 64
def inodeBitmapPages : Nat := 10
def dirBitmapPages : Nat := 10

structure PmSlot where
  slotTable : Checked
  slotNum : Checked
  slotSize : Checked
  slotPages : Checked
  bitmap : Checked
  bitmapPages : Checked

/-- The pages of `num` slots of `size` bytes. -/
def tablePages (size num : Checked) : Checked := (size * num + of pageSize - of 1) >>> pageShift

/-- What `mkfs_slot` computes from the size of the device. Nobody sets `slot_pages` of the data
slots: it is `stale`. -/
def mkfsSlot (size : Nat) (stale : Checked) : SlotType → PmSlot :=
  let remainPages := (of size - of bitmapStart) >>> pageShift
  let inodeNum := of inodeBitmapPages <<< (pageShift + 3)
  let dirNum := of dirBitmapPages <<< (pageShift + 3)
  let inodePages := tablePages (of inodeSlotSize) inodeNum
  let dirPages := tablePages (of dirSlotSize) dirNum
  let remainPages := remainPages - (of inodeBitmapPages + of dirBitmapPages + inodePages + dirPages)
  let fileNum := remainPages * of pageSize / (of pageSize + of fileSlotSize) * of 6 / of 5
  let filePages := tablePages (of fileSlotSize) fileNum
  let fileBitmapPages := (fileNum >>> (pageShift + 3)) + of 1
  let remainPages := remainPages - (fileBitmapPages + filePages)
  let dataBitmapPages := (remainPages >>> (pageShift + 3)) + of 1
  let dataNum := remainPages - dataBitmapPages
  let inodeBitmap := of bitmapStart
  let dirBitmap := inodeBitmap + of inodeBitmapPages <<< pageShift
  let fileBitmap := dirBitmap + of dirBitmapPages <<< pageShift
  let dataBitmap := fileBitmap + fileBitmapPages <<< pageShift
  let inodeTable := dataBitmap + dataBitmapPages <<< pageShift
  let dirTable := inodeTable + inodePages <<< pageShift
  let fileTable := dirTable + dirPages <<< pageShift
  let dataTable := fileTable + filePages <<< pageShift
  fun
    | .inode => ⟨inodeTable, inodeNum, of inodeSlotSize, inodePages, inodeBitmap, of inodeBitmapPages⟩
    | .dir => ⟨dirTable, dirNum, of dirSlotSize, dirPages, dirBitmap, of dirBitmapPages⟩
    | .file => ⟨fileTable, fileNum, of fileSlotSize, filePages, fileBitmap, fileBitmapPages⟩
    | .data => ⟨dataTable, dataNum, of 4096, stale, dataBitmap, dataBitmapPages⟩

/-! ## Soundness -/

def SlotType.all : List SlotType := [.inode, .dir, .file, .data]

def PmSlot.bitmapRegion (s : PmSlot) : Region := ⟨s.bitmap.value, s.bitmapPages.value * pageSize⟩

/-- The slot table. The data slots are pages. -/
def PmSlot.tableRegion (s : PmSlot) (type : SlotType) : Region :=
  ⟨s.slotTable.value, (if type = .data then s.slotNum.value else s.slotPages.value) * pageSize⟩

def layoutRegions (slots : SlotType → PmSlot) : List Region :=
  (SlotType.all.map fun t => (slots t).bitmapRegion) ++ SlotType.all.map fun t => (slots t).tableRegion t

/-- Every value of a slot type was computed without a wrap. -/
def PmSlot.Exact (s : PmSlot) (type : SlotType) : Prop :=
  s.slotTable.fits ∧ s.slotNum.fits ∧ s.slotSize.fits ∧ (type ≠ .data → s.slotPages.fits) ∧ s.bitmap.fits ∧
  s.bitmapPages.fits ∧ (s.slotSize * s.slotNum).fits ∧ (s.bitmapPages <<< pageShift).fits ∧
  (type ≠ .data → (s.slotPages <<< pageShift).fits)

structure LayoutSound (size : Nat) (slots : SlotType → PmSlot) : Prop where
  exact_ : ∀ t, (slots t).Exact t
  apart : (layoutRegions slots).Pairwise Region.Apart
  inside : ∀ r ∈ layoutRegions slots, bitmapMetaStart ≤ r.start ∧ r.stop ≤ size
  bits : ∀ t, (slots t).slotNum.value ≤ (slots t).bitmapPages.value * pageSize * 8
  room : ∀ t, (slots t).slotSize.value * (slots t).slotNum.value ≤ ((slots t).tableRegion t).length

/-! ## The values -/

/-- The pages that are left for the file and the data slots. -/
def remainPages (size : Nat) : Nat := (size - 1060864) / 4096 - 30740

def fileSlots (pages : Nat) : Nat := pages * 4096 / 4160 * 6 / 5
def fileSlotPages (pages : Nat) : Nat := (64 * fileSlots pages + 4096 - 1) / 4096
def fileMapPages (pages : Nat) : Nat := fileSlots pages / 32768 + 1
def dataPages (pages : Nat) : Nat := pages - (fileMapPages pages + fileSlotPages pages)
def dataMapPages (pages : Nat) : Nat := dataPages pages / 32768 + 1

theorem file_slots_fit {pages : Nat} (many : 1769 ≤ pages) :
    fileMapPages pages + fileSlotPages pages ≤ pages ∧ dataMapPages pages ≤ dataPages pages := by
  unfold dataMapPages dataPages fileMapPages fileSlotPages fileSlots
  omega

/-- The layout in exact numbers. -/
def exactSlots (pages : Nat) (stale : Checked) : SlotType → PmSlot :=
  let dirBitmap := 1060864 + 10 * 4096
  let fileBitmap := dirBitmap + 10 * 4096
  let dataBitmap := fileBitmap + fileMapPages pages * 4096
  let inodeTable := dataBitmap + dataMapPages pages * 4096
  let dirTable := inodeTable + 10240 * 4096
  let fileTable := dirTable + 20480 * 4096
  let dataTable := fileTable + fileSlotPages pages * 4096
  fun
    | .inode => ⟨of inodeTable, of 327680, of 128, of 10240, of 1060864, of 10⟩
    | .dir => ⟨of dirTable, of 327680, of 256, of 20480, of dirBitmap, of 10⟩
    | .file => ⟨of fileTable, of (fileSlots pages), of 64, of (fileSlotPages pages), of fileBitmap,
        of (fileMapPages pages)⟩
    | .data => ⟨of dataTable, of (dataPages pages - dataMapPages pages), of 4096, stale, of dataBitmap,
        of (dataMapPages pages)⟩

section
variable {size : Nat} {stale : Checked}

theorem remainPages_bounds (low : 2 ^ 27 ≤ size) (high : size ≤ 2 ^ 48) :
    1769 ≤ remainPages size ∧ remainPages size < 2 ^ 36 := by
  unfold remainPages
  omega

theorem tablePages_exact {slot num : Nat} (small : slot * num + 4096 < 2 ^ 64) :
    tablePages (of slot) (of num) = of ((slot * num + 4096 - 1) / 4096) := by
  unfold tablePages pageSize pageShift
  rw [of_mul (by omega), of_add small, of_sub (by omega) (by omega)]
  rfl

theorem mapPages_exact {num : Nat} (small : num < 2 ^ 48) :
    of num >>> (pageShift + 3) + of 1 = of (num / 32768 + 1) := by
  rw [of_shiftRight, of_add (by unfold pageShift; omega)]
  rfl

theorem after_exact {start pages : Nat} (small : start + pages * 4096 < 2 ^ 64) :
    of start + of pages <<< pageShift = of (start + pages * 4096) := by
  have bytes : of pages <<< pageShift = of (pages * 4096) := of_shiftLeft (by unfold pageShift; omega)
  rw [bytes, of_add small]

/-- Nothing wraps. -/
theorem mkfsSlot_eq (low : 2 ^ 27 ≤ size) (high : size ≤ 2 ^ 48) :
    mkfsSlot size stale = exactSlots (remainPages size) stale := by
  obtain ⟨many, few⟩ := remainPages_bounds low high
  obtain ⟨files, data⟩ := file_slots_fit many
  have device : (of size - of bitmapStart) >>> pageShift = of ((size - 1060864) / 4096) := by
    rw [of_sub (by unfold bitmapStart bitmapMetaStart journalStart journalNum; omega) (by omega)]
    rfl
  have num : of inodeBitmapPages <<< (pageShift + 3) = of 327680 := of_shiftLeft (by decide)
  have num' : of dirBitmapPages <<< (pageShift + 3) = of 327680 := of_shiftLeft (by decide)
  have inodes : tablePages (of inodeSlotSize) (of 327680) = of 10240 := tablePages_exact (by decide)
  have dirs : tablePages (of dirSlotSize) (of 327680) = of 20480 := tablePages_exact (by decide)
  have fixed : of inodeBitmapPages + of dirBitmapPages + of 10240 + of 20480 = of 30740 := by
    decide
  have left : of ((size - 1060864) / 4096) - of 30740 = of (remainPages size) :=
    of_sub (by unfold remainPages at many; omega) (by omega)
  have perSlot : of pageSize + of fileSlotSize = of 4160 := by decide
  generalize remainPages size = r at many few files data left ⊢
  have product : of r * of pageSize = of (r * 4096) := of_mul (by unfold pageSize; omega)
  have scaled : of (r * 4096) / of 4160 * of 6 / of 5 = of (fileSlots r) := by
    rw [of_div, of_mul (by omega), of_div]
    rfl
  have slots : fileSlots r < 2 ^ 37 := by
    unfold fileSlots
    omega
  have table : tablePages (of fileSlotSize) (of (fileSlots r)) = of (fileSlotPages r) :=
    tablePages_exact (by unfold fileSlotSize; omega)
  have fileMap : of (fileSlots r) >>> (pageShift + 3) + of 1 = of (fileMapPages r) :=
    mapPages_exact (by omega)
  have both : of (fileMapPages r) + of (fileSlotPages r) = of (fileMapPages r + fileSlotPages r) :=
    of_add (by omega)
  have rest : of r - of (fileMapPages r + fileSlotPages r) = of (dataPages r) := of_sub files (by omega)
  have dataFew : dataPages r < 2 ^ 36 := by
    unfold dataPages
    omega
  have dataMap : of (dataPages r) >>> (pageShift + 3) + of 1 = of (dataMapPages r) :=
    mapPages_exact (by omega)
  have dataNum : of (dataPages r) - of (dataMapPages r) = of (dataPages r - dataMapPages r) := of_sub data (by omega)
  simp only [mkfsSlot, device, num, num', inodes, dirs, fixed, left, perSlot, product, scaled, table, fileMap, both,
    rest, dataMap, dataNum]
  have start : of bitmapStart = of 1060864 := rfl
  have pages : of inodeBitmapPages = of 10 := rfl
  have pages' : of dirBitmapPages = of 10 := rfl
  rw [start, pages, pages', after_exact (by omega), after_exact (by omega), after_exact (by omega),
    after_exact (by omega), after_exact (by omega), after_exact (by omega), after_exact (by omega)]
  funext type
  cases type <;> rfl

theorem exactSlots_exact {pages : Nat} (many : 1769 ≤ pages) (few : pages < 2 ^ 36) (type : SlotType) :
    (exactSlots pages stale type).Exact type := by
  obtain ⟨files, data⟩ := file_slots_fit many
  have slots : fileSlots pages < 2 ^ 37 := by
    unfold fileSlots
    omega
  have whole : dataPages pages = pages - (fileMapPages pages + fileSlotPages pages) := rfl
  have fits : ∀ {a b : Nat}, a * b < 2 ^ 64 → (of a * of b).fits = true := by
    intro a b small
    rw [of_mul small]
    rfl
  have shifts : ∀ {a : Nat}, a < 2 ^ 40 → (of a <<< pageShift).fits = true := by
    intro a small
    rw [of_shiftLeft (by unfold pageShift; omega)]
    rfl
  cases type with
  | inode =>
    exact ⟨rfl, rfl, rfl, fun _ => rfl, rfl, rfl, fits (by omega), shifts (by omega), fun _ => shifts (by omega)⟩
  | dir =>
    exact ⟨rfl, rfl, rfl, fun _ => rfl, rfl, rfl, fits (by omega), shifts (by omega), fun _ => shifts (by omega)⟩
  | file =>
    exact ⟨rfl, rfl, rfl, fun _ => rfl, rfl, rfl, fits (by omega), shifts (by omega), fun _ => shifts (by omega)⟩
  | data =>
    exact ⟨rfl, rfl, rfl, fun other => absurd rfl other, rfl, rfl, fits (by omega), shifts (by omega),
      fun other => absurd rfl other⟩

theorem exactSlots_bits (pages : Nat) (type : SlotType) : (exactSlots pages stale type).slotNum.value ≤
    (exactSlots pages stale type).bitmapPages.value * pageSize * 8 := by
  cases type with
  | inode =>
    change 327680 ≤ 10 * 4096 * 8
    decide
  | dir =>
    change 327680 ≤ 10 * 4096 * 8
    decide
  | file =>
    change fileSlots pages ≤ fileMapPages pages * 4096 * 8
    unfold fileMapPages
    omega
  | data =>
    change dataPages pages - dataMapPages pages ≤ dataMapPages pages * 4096 * 8
    unfold dataMapPages
    omega

theorem exactSlots_room (pages : Nat) (type : SlotType) : (exactSlots pages stale type).slotSize.value *
    (exactSlots pages stale type).slotNum.value ≤ ((exactSlots pages stale type).tableRegion type).length := by
  cases type with
  | inode =>
    change 128 * 327680 ≤ 10240 * 4096
    decide
  | dir =>
    change 256 * 327680 ≤ 20480 * 4096
    decide
  | file =>
    change 64 * fileSlots pages ≤ fileSlotPages pages * 4096
    unfold fileSlotPages
    omega
  | data =>
    change 4096 * (dataPages pages - dataMapPages pages) ≤ (dataPages pages - dataMapPages pages) * 4096
    omega

/-- The regions stand one behind the other, from the first bitmap on. -/
theorem exactSlots_stacked (pages : Nat) : Region.Stacked 1060864 (layoutRegions (exactSlots pages stale))
    (1060864 + (30740 + fileMapPages pages + dataMapPages pages + fileSlotPages pages +
      (dataPages pages - dataMapPages pages)) * 4096) := by
  simp only [layoutRegions, SlotType.all, map_cons, map_nil, cons_append, nil_append,
    PmSlot.bitmapRegion, PmSlot.tableRegion, exactSlots, of, pageSize, reduceCtorEq, if_false, if_true,
    Region.Stacked, Region.stop, true_and]
  omega

/-- For every size from 128 MiB to 2 ^ 48 bytes the layout is sound. -/
theorem mkfs_layout_sound (low : 2 ^ 27 ≤ size) (high : size ≤ 2 ^ 48) :
    LayoutSound size (mkfsSlot size stale) := by
  rw [mkfsSlot_eq low high]
  obtain ⟨many, few⟩ := remainPages_bounds low high
  obtain ⟨files, data⟩ := file_slots_fit many
  have left : 1060864 + (30740 + remainPages size) * 4096 ≤ size := by
    have enough := many
    unfold remainPages at enough ⊢
    omega
  generalize remainPages size = pages at *
  have stacked := @exactSlots_stacked stale pages
  constructor
  · exact exactSlots_exact many few
  · exact stacked.apart
  · intro r mem
    obtain ⟨first, last⟩ := stacked.within mem
    have whole : dataPages pages = pages - (fileMapPages pages + fileSlotPages pages) := rfl
    exact ⟨Nat.le_trans (by decide) first, by omega⟩
  · exact exactSlots_bits pages
  · exact exactSlots_room pages

/-- A device of 1 GiB. -/
theorem mkfs_layout_sound_gib : LayoutSound (2 ^ 30) (mkfsSlot (2 ^ 30) (of 0)) :=
  mkfs_layout_sound (by decide) (by decide)

end
end SlotFs
