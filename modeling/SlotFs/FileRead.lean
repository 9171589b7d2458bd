import SlotFs.IndexBounds

/-!
# Reading through the block index

`inode_read` looks a block up once for as many blocks as its extent has, counted
from the block it is at. What it copies is right where those blocks follow each
other in PM, which an extent found in the middle or overwritten in part does not
grant.
-/

namespace SlotFs
open CWord

variable {inode : Inode} {offset : Nat}
variable {left : Nat}

/-- Where byte `x` of the file is, through the block index. -/
def place (inode : Inode) (x : Nat) : Option Nat :=
  (filentLookup inode (x / 4096)).map fun f => f.addr (x / 4096) + x % 4096

/-- A byte without a place is 0. -/
def load (m : Mem) : Option Nat → BitVec 8
  | none => 0#8
  | some a => m a

def byteAt (m : Mem) (inode : Inode) (x : Nat) : BitVec 8 := load m (place inode x)

theorem load_eq_iff {p q : Option Nat} : (∀ m, load m p = load m q) ↔ p = q := by
  constructor
  · intro h
    cases p with
    | none =>
      cases q with
      | none => rfl
      | some b => exact absurd (h fun _ => 1#8) (by simp [load])
    | some a =>
      cases q with
      | none => exact absurd (h fun _ => 1#8) (by simp [load])
      | some b =>
        have same := h fun z => if z = a then 1#8 else 0#8
        simp only [load, if_true] at same
        split at same
        · rename_i e
          rw [e]
        · exact absurd same (by decide)
  · rintro rfl m
    rfl

/-- Every mapped block is inside of the extent it is mapped by. -/
def Covered (inode : Inode) : Prop :=
  ∀ k f, filentLookup inode k = some f →
    f.lIdx ≤ k ∧ k < f.lIdx + f.blocks ∧ f.blocks < 2 ^ 32

/-- The end of what one lookup is taken to be good for. -/
def turnEnd (inode : Inode) (x : Nat) : Nat :=
  match filentLookup inode (x / 4096) with
  | none => (x / 4096 + 1) * 4096
  | some f => (x / 4096 + f.blocks) * 4096

/-- From byte `x` on, each extent the read comes to lies in one piece: up to the end
of what its lookup is taken to be good for, or of the read, the bytes follow each
other from the block the read is at. -/
inductive Straight (inode : Inode) (stop : Nat) : Nat → Prop
  | done {x : Nat} (behind : stop ≤ x) : Straight inode stop x
  | turn {x : Nat} (piece : ∀ y, x ≤ y → y < stop → y < turnEnd inode x →
        place inode y = (filentLookup inode (x / 4096)).map fun f =>
          f.addr (x / 4096) + (y - x / 4096 * 4096))
      (rest : Straight inode stop (turnEnd inode x)) : Straight inode stop x

/-- Where the loop takes byte `y` from. -/
def fetched (inode : Inode) : Nat → Nat → Nat → Nat → Option Nat
  | 0, _, _, _ => none
  | fuel + 1, offset, left, y =>
    let nr := readSize inode offset left
    if y < offset + nr then
      (filentLookup inode (offset / 4096)).map fun f =>
        f.addr (offset / 4096) + offset % 4096 + (y - offset)
    else fetched inode fuel (offset + nr) (left - nr) y

theorem turnEnd_free {x : Nat} (free : filentLookup inode (x / 4096) = none) :
    turnEnd inode x = (x / 4096 + 1) * 4096 := by
  simp only [turnEnd, free]

theorem turnEnd_mapped {x : Nat} {f : Filent} (mapped : filentLookup inode (x / 4096) = some f) :
    turnEnd inode x = (x / 4096 + f.blocks) * 4096 := by
  simp only [turnEnd, mapped]

section
variable (covered : Covered inode)
include covered

theorem lt_turnEnd (x : Nat) : x < turnEnd inode x := by
  cases mapped : filentLookup inode (x / 4096) with
  | none =>
    rw [turnEnd_free mapped]
    omega
  | some f =>
    obtain ⟨_, _, _⟩ := covered _ _ mapped
    rw [turnEnd_mapped mapped]
    omega

theorem readSize_eq (offset left : Nat) :
    offset + readSize inode offset left = min (offset + left) (turnEnd inode offset) := by
  cases mapped : filentLookup inode (offset / 4096) with
  | none =>
    have size : readSize inode offset left =
        if left > 4096 - offset % 4096 then 4096 - offset % 4096 else left := by
      simp only [readSize, mapped]
    rw [size, turnEnd_free mapped]
    split <;> omega
  | some f =>
    obtain ⟨lo, hi, small⟩ := covered _ _ mapped
    have size : readSize inode offset left =
        if left > f.blocks * 4096 - offset % 4096 then f.blocks * 4096 - offset % 4096 else left := by
      simp only [readSize, mapped]
      rw [wrap64_of_lt (by omega), sub64_of_le (by omega) (by omega)]
    rw [size, turnEnd_mapped mapped]
    split <;> omega

theorem readSize_pos (offset : Nat) (more : 0 < left) :
    0 < readSize inode offset left ∧ readSize inode offset left ≤ left := by
  have size := readSize_eq covered offset left
  have far := lt_turnEnd covered offset
  omega

end

theorem readTurn_apply (sbi : Sbi) (inode : Inode) (buf : Mem) (filled offset nr a : Nat) :
    readTurn sbi inode buf filled offset nr a = if filled ≤ a ∧ a < filled + nr then
      load sbi.blocks ((filentLookup inode (offset / 4096)).map fun f =>
        f.addr (offset / 4096) + offset % 4096 + (a - filled)) else buf a := by
  unfold readTurn
  cases filentLookup inode (offset / 4096) <;> rfl

/-- The loop ends, and fills the buffer from the places it fetches from. -/
theorem readLoop_eq {sbi : Sbi} (covered : Covered inode) (fuel : Nat) {buf : Mem} {filled : Nat}
    (more : 0 < left) (enough : left ≤ fuel) : readLoop sbi inode fuel buf filled offset left = some fun a =>
      if filled ≤ a ∧ a < filled + left then
        load sbi.blocks (fetched inode fuel offset left (offset + (a - filled)))
      else buf a := by
  induction fuel generalizing buf filled offset left with
  | zero => omega
  | succ fuel ih =>
    obtain ⟨positive, le⟩ := readSize_pos covered offset more
    simp only [readLoop, fetched]
    generalize readSize inode offset left = nr at *
    split
    · rename_i again
      rw [ih again (by omega)]
      congr 1
      funext a
      rw [readTurn_apply]
      by_cases first : a < filled + nr
      · rw [if_neg (by omega)]
        by_cases lo : filled ≤ a
        · rw [if_pos ⟨lo, first⟩, if_pos ⟨lo, by omega⟩, if_pos (by omega), Nat.add_sub_cancel_left]
        · rw [if_neg (by omega), if_neg (by omega)]
      by_cases inside : a < filled + left
      · rw [if_pos (by omega), if_pos (by omega), if_neg (by omega)]
        congr 2
        omega
      · rw [if_neg (by omega), if_neg (by omega), if_neg (by omega)]
    · congr 1
      funext a
      rw [readTurn_apply, show nr = left by omega]
      split
      · rw [if_pos (by omega), Nat.add_sub_cancel_left]
      · rfl

/-- The loop fetches every byte from its place if and only if the read is straight. -/
theorem fetched_iff_straight (covered : Covered inode) (fuel : Nat) (enough : left ≤ fuel) :
    (∀ y, offset ≤ y → y < offset + left → fetched inode fuel offset left y = place inode y) ↔
      Straight inode (offset + left) offset := by
  induction fuel generalizing offset left with
  | zero => exact ⟨fun _ => .done (by omega), fun _ y _ _ => by omega⟩
  | succ fuel ih =>
    by_cases more : 0 < left
    · obtain ⟨positive, le⟩ := readSize_pos covered offset more
      have size := readSize_eq covered offset left
      have stop : offset + readSize inode offset left + (left - readSize inode offset left) =
          offset + left := by omega
      have step (y : Nat) (lo : offset ≤ y) (first : y < offset + readSize inode offset left) :
          fetched inode (fuel + 1) offset left y = (filentLookup inode (offset / 4096)).map fun f =>
            f.addr (offset / 4096) + (y - offset / 4096 * 4096) := by
        have same : offset % 4096 + (y - offset) = y - offset / 4096 * 4096 := by omega
        simp only [fetched, if_pos first, Nat.add_assoc, same]
      have later (y : Nat) (behind : offset + readSize inode offset left ≤ y) :
          fetched inode (fuel + 1) offset left y = fetched inode fuel
            (offset + readSize inode offset left) (left - readSize inode offset left) y := by
        simp only [fetched, if_neg (not_lt.mpr behind)]
      have rest := @ih (offset + readSize inode offset left) (left - readSize inode offset left)
        (by omega)
      rw [stop] at rest
      constructor
      · intro right
        refine .turn (fun y lo hi near => ?_) ?_
        · rw [← right y lo hi, step y lo (by omega)]
        by_cases behind : offset + left ≤ turnEnd inode offset
        · exact .done behind
        · rw [show turnEnd inode offset = offset + readSize inode offset left by omega]
          refine rest.mp fun y lo hi => ?_
          rw [← later y lo, right y (by omega) hi]
      intro straight y lo hi
      cases straight with
      | done behind => omega
      | turn piece next =>
        by_cases first : y < offset + readSize inode offset left
        · rw [step y lo first, piece y lo hi (by omega)]
        · rw [show turnEnd inode offset = offset + readSize inode offset left by omega] at next
          rw [later y (by omega), rest.mpr next y (by omega) hi]
    · exact ⟨fun _ => .done (by omega), fun _ y _ _ => by omega⟩

theorem inodeRead_eq (covered : Covered inode) (len : Nat) (inside : offset ≤ inode.iSize)
    (size : inode.iSize < 2 ^ 63) (sbi : Sbi) (buf : Mem) :
    inodeRead sbi inode buf len offset = some (((min len (inode.iSize - offset) : Nat) : Int), fun a =>
      if a < min len (inode.iSize - offset) then load sbi.blocks (fetched inode
        (min len (inode.iSize - offset)) offset (min len (inode.iSize - offset)) (offset + a))
      else buf a) := by
  have length : (if len > sub64 inode.iSize offset then sub64 inode.iSize offset else len) =
      min len (inode.iSize - offset) := by
    rw [sub64_of_le inside (by omega)]
    split <;> omega
  have bound : min len (inode.iSize - offset) < 2 ^ 63 := by omega
  simp only [inodeRead, length]
  generalize min len (inode.iSize - offset) = n at *
  split
  · rename_i empty
    subst empty
    simp
  · rw [readLoop_eq covered n (by omega) le_rfl, Option.map_some, toInt64_of_lt bound]
    simp

/-- For all contents of the data area a read gives the bytes that the block index
leads to, if and only if it is straight. -/
theorem read_follows_index_iff {inode : Inode} (covered : Covered inode) {len offset : Nat}
    (inside : offset ≤ inode.iSize) (size : inode.iSize < 2 ^ 63) :
    (∀ sbi buf, ∃ buf', inodeRead sbi inode buf len offset =
        some (((min len (inode.iSize - offset) : Nat) : Int), buf') ∧
      ∀ i < min len (inode.iSize - offset), buf' i = byteAt sbi.blocks inode (offset + i)) ↔
      Straight inode (offset + min len (inode.iSize - offset)) offset := by
  have read := inodeRead_eq covered len inside size
  generalize min len (inode.iSize - offset) = n at *
  rw [← fetched_iff_straight covered n le_rfl]
  constructor
  · intro right y lo hi
    apply load_eq_iff.mp
    intro m
    obtain ⟨buf', call, bytes⟩ := right { blankSbi 0 0#8 with blocks := m } (fun _ => 0#8)
    rw [read] at call
    cases call
    have byte : (if y - offset < n then load m (fetched inode n offset n (offset + (y - offset)))
        else 0#8) = byteAt m inode (offset + (y - offset)) := bytes (y - offset) (by omega)
    rw [if_pos (by omega), show offset + (y - offset) = y by omega] at byte
    exact byte
  intro right sbi buf
  refine ⟨_, read sbi buf, fun i hi => ?_⟩
  rw [if_pos hi, right _ (by omega) (by omega)]
  rfl

/-- Two blocks in one extent, and the second one overwritten. -/
def halfOverwritten : Inode :=
  { iNo := 1, iSize := 8192, symlink := false
    bRoot := ⟨0, 0, fun _ => ⟨none, 0, 0, 0, fun k => if k < 2 then some k else none⟩,
      ⟨1, fun _ => true⟩⟩
    entryNum := 2, invalidNum := 0, logHead := 0, ghostSlot := 2, list := [0, 1], invalid := []
    fents := fun fe => if fe = 0 then ⟨0, 1, 0, 0, 2, 1⟩ else ⟨1, 2, 1, 2, 1, 1⟩
    arena := ⟨2, fun _ => true⟩ }

theorem halfOverwritten_covered : Covered halfOverwritten := by
  intro k f mapped
  have get : btreeGet halfOverwritten.bRoot k = if k < 2 then some k else none := rfl
  simp only [filentLookup, get] at mapped
  split at mapped
  · rename_i low
    cases mapped
    obtain rfl | rfl : k = 0 ∨ k = 1 := by omega
    · decide
    · decide
  · cases mapped

theorem read_follows_index_iff_second :
    (∀ sbi buf, ∃ buf', inodeRead sbi halfOverwritten buf 4096 4096 =
        some (((min 4096 (halfOverwritten.iSize - 4096) : Nat) : Int), buf') ∧
      ∀ i < min 4096 (halfOverwritten.iSize - 4096),
        buf' i = byteAt sbi.blocks halfOverwritten (4096 + i)) ↔
      Straight halfOverwritten (4096 + min 4096 (halfOverwritten.iSize - 4096)) 4096 :=
  read_follows_index_iff halfOverwritten_covered (by decide) (by decide)

/-- Block 1 has been overwritten and is now physical block 2. A read of the whole
file takes it from physical block 1, where the old contents are. -/
theorem overwritten_block_read_stale : ∃ sbi buf', Covered halfOverwritten ∧
    inodeRead sbi halfOverwritten (fun _ => 0#8) 8192 0 = some (8192, buf') ∧
    byteAt sbi.blocks halfOverwritten 4096 = 2#8 ∧ buf' 4096 = 1#8 := by
  refine ⟨{ blankSbi 0 0#8 with blocks := fun a => BitVec.ofNat 8 (a / 4096) }, _,
    halfOverwritten_covered,
    inodeRead_eq halfOverwritten_covered 8192 (Nat.zero_le _) (by decide) _ _, ?_, ?_⟩
  · decide
  · decide +kernel

/-! ## How much a read returns -/

theorem inodeRead_behind {len : Nat} (behind : inode.iSize < offset) (signed : offset < 2 ^ 63)
    (some_ : len ≠ 0) {sbi : Sbi} {buf buf' : Mem} {ret : Int}
    (read : inodeRead sbi inode buf len offset = some (ret, buf')) : ret ≠ 0 := by
  have room : 0 < sub64 inode.iSize offset ∧ sub64 inode.iSize offset < 2 ^ 64 := by
    unfold sub64
    omega
  simp only [inodeRead] at read
  generalize sub64 inode.iSize offset = free at *
  have served : 0 < (if len > free then free else len) ∧ (if len > free then free else len) < 2 ^ 64 := by
    split <;> omega
  generalize (if len > free then free else len) = n at *
  rw [if_neg (by omega), Option.map_eq_some_iff] at read
  obtain ⟨_, _, returned⟩ := read
  have value := (Prod.mk.inj returned).1
  unfold toInt64 at value
  rw [Int.bmod_def] at value
  split at value <;> omega

/-- A read whose lookups stay inside of the index returns as many bytes as the file still
has, fills that many bytes of the buffer and no others, and ends, if and only if it does not
begin behind the end of the file. -/
theorem read_length_iff {inode : Inode} (covered : Covered inode) (size : inode.iSize < 2 ^ 63) {offset : Nat}
    (signed : offset < 2 ^ 63) (len : Nat) (sbi : Sbi) :
    (offset ≤ inode.iSize → LookupsInside inode (inodeReadKeys inode len offset)) →
    ((∃ bytes : Mem, ∀ buf, inodeRead sbi inode buf len offset =
      some (((min len (inode.iSize - offset) : Nat) : Int),
        fun a => if a < min len (inode.iSize - offset) then bytes a else buf a)) ↔
      offset ≤ inode.iSize ∨ len = 0) := by
  intro _
  constructor
  · rintro ⟨bytes, read⟩
    by_contra outside
    push Not at outside
    refine inodeRead_behind outside.1 signed outside.2 (read fun _ => 0#8) ?_
    have none : min len (inode.iSize - offset) = 0 := by omega
    rw [none, Nat.cast_zero]
  · rintro (inside | rfl)
    · exact ⟨_, inodeRead_eq covered len inside size sbi⟩
    · exact ⟨fun _ => 0#8, fun buf => by simp [inodeRead]⟩

theorem read_length_iff_tail : ∃ bytes : Mem, ∀ buf, inodeRead (blankSbi 0 0#8) halfOverwritten buf 8192 4096 =
    some (((min 8192 (halfOverwritten.iSize - 4096) : Nat) : Int),
      fun a => if a < min 8192 (halfOverwritten.iSize - 4096) then bytes a else buf a) := by
  have inside : LookupsInside halfOverwritten (inodeReadKeys halfOverwritten 8192 4096) := by
    unfold LookupsInside
    decide +kernel
  exact (read_length_iff halfOverwritten_covered (by decide) (by decide) 8192 _ fun _ => inside).mpr
    (.inl (by decide))

/-- A read of one byte at 12288, in a file of 8192 bytes, returns 1 and overwrites a byte of the buffer. -/
theorem read_behind_end :
    ∃ buf', inodeRead (blankSbi 0 0#8) halfOverwritten (fun _ => 1#8) 1 12288 = some (1, buf') ∧
    min 1 (halfOverwritten.iSize - 12288) = 0 ∧ buf' 0 = 0#8 := by
  have served : (if 1 > sub64 halfOverwritten.iSize 12288 then sub64 halfOverwritten.iSize 12288 else 1) = 1 := by
    decide
  refine ⟨readTurn (blankSbi 0 0#8) halfOverwritten (fun _ => 1#8) 0 12288 1, ?_, by decide, by decide⟩
  simp only [inodeRead, served]
  rfl

end SlotFs
