import SlotFs.Lib.Word
import SlotFs.Lib.Search

/-!
# Bit operations on a byte-addressed bitmap

`bitops.h`. A bitmap is plain memory; bit `i` is bit `i % 8` of byte `i / 8`.
The range operations work on a partial first byte, whole bytes and a partial
last byte, and the searches return `int`.
-/

namespace SlotFs

/-- Memory from a base address on, one byte a place. -/
abbrev Mem := Nat → BitVec 8

def memset (m : Mem) (start : Nat) (value : BitVec 8) (length : Nat) : Mem :=
  fun a => if start ≤ a ∧ a < start + length then value else m a

def setByte (m : Mem) (i : Nat) (value : BitVec 8) : Mem :=
  fun a => if a = i then value else m a

/-- `1 << (nr % 8)`. -/
def bitMask (nr : Nat) : BitVec 8 := 1#8 <<< (nr % 8)

/-- `(1 << n) - 1`, the lowest `n` bits. -/
def lowMask (n : Nat) : BitVec 8 := (1#8 <<< n) - 1#8

def setBit (nr : Nat) (m : Mem) : Mem := setByte m (nr / 8) (m (nr / 8) ||| bitMask nr)

def clearBit (nr : Nat) (m : Mem) : Mem := setByte m (nr / 8) (m (nr / 8) &&& ~~~ bitMask nr)

def checkBit (nr : Nat) (m : Mem) : BitVec 8 := m (nr / 8) &&& bitMask nr

/-- Whole bytes from `start` on, then the bits left over in the last byte. -/
def setBitTail (start : Nat) (m : Mem) (length : Nat) : Mem :=
  let m := memset m start 0xff#8 (length / 8)
  let length := length % 8
  if length > 0 then setByte m start (m start ||| lowMask length) else m

def setBitRange (nr : Nat) (m : Mem) (length : Nat) : Mem :=
  let startByte := nr / 8
  let startBit := nr % 8
  if startBit ≠ 0 then
    let remaining := 8 - startBit
    let bits := if length < remaining then length else remaining
    setBitTail (startByte + 1)
      (setByte m startByte (m startByte ||| (lowMask bits <<< startBit))) (length - bits)
  else setBitTail startByte m length

def clearBitTail (start : Nat) (m : Mem) (length : Nat) : Mem :=
  let m := memset m start 0x00#8 (length / 8)
  let length := length % 8
  if length > 0 then setByte m start (m start &&& ~~~ lowMask length) else m

def clearBitRange (nr : Nat) (m : Mem) (length : Nat) : Mem :=
  let startByte := nr / 8
  let startBit := nr % 8
  if startBit ≠ 0 then
    let remaining := 8 - startBit
    let bits := if length < remaining then length else remaining
    clearBitTail (startByte + 1)
      (setByte m startByte (m startByte &&& ~~~ (lowMask bits <<< startBit))) (length - bits)
  else clearBitTail startByte m length

/-- The loop of `next_zero_bit`; its result passes through `int`. -/
def nextZeroBit (m : Mem) (size offset : Nat) : Int :=
  CWord.toInt32 (Search.scan (fun i => m (i / 8) &&& bitMask i == 0#8) size offset)

/-- The loop of `next_set_bit`. The masked byte is compared with `1`, so only
a set bit at a multiple of 8 is a hit. -/
def nextSetBit (m : Mem) (size offset : Nat) : Int :=
  CWord.toInt32 (Search.scan (fun i => m (i / 8) &&& bitMask i == 1#8) size offset)

/-! ## What the operations do to single bits -/

def bit (m : Mem) (i : Nat) : Bool := (m (i / 8)).getLsbD (i % 8)

theorem bitMask_getLsbD (n j : Nat) (hj : j < 8) : (bitMask n).getLsbD j = decide (j = n % 8) := by
  simp only [bitMask, BitVec.getLsbD_shiftLeft, BitVec.getLsbD_one]
  grind

theorem bitMask_masked (b : BitVec 8) (n : Nat) :
    b &&& bitMask n = if b.getLsbD (n % 8) then bitMask n else 0#8 := by
  apply BitVec.eq_of_getLsbD_eq
  intro j hj
  rw [BitVec.getLsbD_and, bitMask_getLsbD n j hj]
  split <;> rename_i hb
  · rw [bitMask_getLsbD n j hj]
    by_cases e : j = n % 8 <;> simp [e, hb]
  · by_cases e : j = n % 8 <;> simp [e, hb]

theorem bitMask_eq_one_iff (n : Nat) : bitMask n = 1#8 ↔ n % 8 = 0 := by
  have : n % 8 < 8 := Nat.mod_lt _ (by decide)
  unfold bitMask
  interval_cases n % 8 <;> decide

theorem bitMask_ne_zero (n : Nat) : bitMask n ≠ 0#8 := by
  have : n % 8 < 8 := Nat.mod_lt _ (by decide)
  unfold bitMask
  interval_cases n % 8 <;> decide

theorem zero_hit (m : Mem) (i : Nat) : (m (i / 8) &&& bitMask i == 0#8) = !bit m i := by
  rw [bitMask_masked]
  change _ = !(m (i / 8)).getLsbD (i % 8)
  cases (m (i / 8)).getLsbD (i % 8)
  · simp
  · simpa using bitMask_ne_zero i

theorem set_hit (m : Mem) (i : Nat) : (m (i / 8) &&& bitMask i == 1#8) = (decide (i % 8 = 0) && bit m i) := by
  rw [bitMask_masked]
  change _ = (decide (i % 8 = 0) && (m (i / 8)).getLsbD (i % 8))
  cases (m (i / 8)).getLsbD (i % 8)
  · simp
  have h := bitMask_eq_one_iff i
  by_cases e : i % 8 = 0
  · simp [e, h.mpr e]
  · simp [e, mt h.mp e]

theorem nextZeroBit_eq (m : Mem) (size offset : Nat) :
    nextZeroBit m size offset = CWord.toInt32 (Search.scan (fun i => !bit m i) size offset) := by
  simp only [nextZeroBit, zero_hit]

theorem nextSetBit_eq (m : Mem) (size offset : Nat) : nextSetBit m size offset =
      CWord.toInt32 (Search.scan (fun i => decide (i % 8 = 0) && bit m i) size offset) := by
  simp only [nextSetBit, set_hit]

theorem lowMask_getLsbD (n j : Nat) (hn : n ≤ 8) (hj : j < 8) : (lowMask n).getLsbD j = decide (j < n) := by
  unfold lowMask
  interval_cases n <;> interval_cases j <;> decide

theorem bit_setByte (m : Mem) (a : Nat) (v : BitVec 8) (i : Nat) :
    bit (setByte m a v) i = if i / 8 = a then v.getLsbD (i % 8) else bit m i := by
  simp only [bit, setByte]
  split <;> rfl

theorem bit_setBit (n : Nat) (m : Mem) (i : Nat) : bit (setBit n m) i = (decide (i = n) || bit m i) := by
  rw [setBit, bit_setByte]
  split <;> rename_i h
  · rw [BitVec.getLsbD_or, bitMask_getLsbD n _ (by omega), ← h]
    change (bit m i || _) = _
    rw [Bool.or_comm]
    congr 1
    exact decide_eq_decide.mpr (by omega)
  · simp [show i ≠ n by rintro rfl; exact h rfl]

theorem bit_clearBit (n : Nat) (m : Mem) (i : Nat) : bit (clearBit n m) i = (!decide (i = n) && bit m i) := by
  rw [clearBit, bit_setByte]
  split <;> rename_i h
  · rw [BitVec.getLsbD_and, BitVec.getLsbD_not, bitMask_getLsbD n _ (by omega), ← h]
    change (bit m i && _) = _
    rw [Bool.and_comm]
    congr 1
    simp only [show i % 8 < 8 by omega, decide_true, Bool.true_and]
    congr 1
    exact decide_eq_decide.mpr (by omega)
  · simp [show i ≠ n by rintro rfl; exact h rfl]

/-! ## The range operations

Neither range operation moves its byte pointer past the whole bytes before it
handles the remaining bits, so the last partial byte is left alone as soon as
there is a whole byte before it. `markedLength` is the number of bits, from
the start of the range, that are really written. -/

/-- Of `length` bits from a byte boundary on, those written. -/
def tailLength (length : Nat) : Nat := if length < 8 then length else length / 8 * 8

theorem tailLength_le (length : Nat) : tailLength length ≤ length := by
  unfold tailLength
  split <;> omega

def markedLength (nr length : Nat) : Nat :=
  if nr % 8 ≠ 0 then
    let bits := min length (8 - nr % 8)
    bits + tailLength (length - bits)
  else tailLength length

section
variable (start : Nat) (m : Mem)
include start m

theorem setBitTail_short {length : Nat} (h : length < 8) : setBitTail start m length =
      if length > 0 then setByte m start (m start ||| lowMask length) else m := by
  have hz : memset m start 0xff#8 0 = m := by
    funext a
    simp only [memset]
    rw [if_neg (by omega)]
  simp only [setBitTail, Nat.div_eq_of_lt h, Nat.mod_eq_of_lt h, hz]

theorem setBitTail_long {length : Nat} (h : 8 ≤ length) :
    setBitTail start m length = memset m start 0xff#8 (length / 8) := by
  have full (b : BitVec 8) : 0xff#8 ||| b = 0xff#8 := BitVec.allOnes_or
  simp only [setBitTail]
  split
  · funext a
    simp only [setByte]
    split
    · subst a
      simp only [memset, le_refl, true_and, if_pos (show start < start + length / 8 by omega), full]
    · rfl
  · rfl

theorem bit_setBitTail (length i : Nat) : bit (setBitTail start m length) i =
      (decide (8 * start ≤ i ∧ i < 8 * start + tailLength length) || bit m i) := by
  have h8 : i % 8 < 8 := Nat.mod_lt _ (by decide)
  by_cases hl : length < 8
  · have low := lowMask_getLsbD length (i % 8) (by omega) h8
    rw [setBitTail_short start m hl, tailLength, if_pos hl]
    split <;> rename_i hp
    · rw [bit_setByte]
      split <;> rename_i hs
      · rw [BitVec.getLsbD_or, low, ← hs, Bool.or_comm]
        change (_ || bit m i) = _
        congr 1
        exact decide_eq_decide.mpr (by omega)
      · rw [decide_eq_false (by omega), Bool.false_or]
    · rw [decide_eq_false (by omega), Bool.false_or]
  · have ones : (0xff#8).getLsbD (i % 8) = true := by interval_cases i % 8 <;> decide
    rw [setBitTail_long start m (by omega), tailLength, if_neg hl]
    simp only [bit, memset]
    split <;> rename_i hs
    · rw [ones, decide_eq_true (by omega), Bool.true_or]
    · rw [decide_eq_false (by omega), Bool.false_or]

end

theorem bit_setBitRange (nr : Nat) (m : Mem) (length i : Nat) : bit (setBitRange nr m length) i =
      (decide (nr ≤ i ∧ i < nr + markedLength nr length) || bit m i) := by
  simp only [setBitRange, markedLength]
  split <;> rename_i hs
  · have hmin : (if length < 8 - nr % 8 then length else 8 - nr % 8) = min length (8 - nr % 8) := by
      split <;> omega
    rw [hmin, bit_setBitTail, bit_setByte]
    generalize hb : min length (8 - nr % 8) = bits
    have htail := tailLength_le (length - bits)
    have hzero : length - bits = 0 ∨ bits = 8 - nr % 8 := by omega
    by_cases hi : i / 8 = nr / 8
    · have low := lowMask_getLsbD bits (i % 8 - nr % 8) (by omega) (by omega)
      rw [if_pos hi, BitVec.getLsbD_or, BitVec.getLsbD_shiftLeft, low, ← hi]
      change (_ || (bit m i || _)) = _
      rw [decide_eq_false (by omega), Bool.false_or, Bool.or_comm]
      congr 1
      rw [Bool.eq_iff_iff]
      simp only [Bool.and_eq_true, decide_eq_true_eq, Bool.not_eq_true', decide_eq_false_iff_not]
      omega
    · rw [if_neg hi]
      congr 1
      exact decide_eq_decide.mpr (by omega)
  · rw [bit_setBitTail]
    congr 1
    exact decide_eq_decide.mpr (by omega)

/-- Clearing a range is setting it in the complement. -/
theorem clearBitRange_compl (nr : Nat) (m : Mem) (length : Nat) :
    clearBitRange nr m length = fun a => ~~~ setBitRange nr (fun a => ~~~ m a) length a := by
  have mset (m : Mem) (s n : Nat) :
      memset (fun a => ~~~ m a) s 0xff#8 n = fun a => ~~~ memset m s 0x00#8 n a := by
    funext a
    simp only [memset]
    split <;> simp
  have sbyte (m : Mem) (i : Nat) (v : BitVec 8) :
      setByte (fun a => ~~~ m a) i (~~~ m i ||| v) =
        fun a => ~~~ setByte m i (m i &&& ~~~ v) a := by
    funext a
    simp only [setByte]
    split <;> simp [BitVec.not_and]
  have tail (m : Mem) (s n : Nat) :
      setBitTail s (fun a => ~~~ m a) n = fun a => ~~~ clearBitTail s m n a := by
    simp only [setBitTail, clearBitTail, mset]
    split
    · rw [sbyte]
    · rfl
  funext a
  simp only [clearBitRange, setBitRange, sbyte]
  split <;> simp [tail]

theorem bit_clearBitRange (nr : Nat) (m : Mem) (length i : Nat) : bit (clearBitRange nr m length) i =
      (!decide (nr ≤ i ∧ i < nr + markedLength nr length) && bit m i) := by
  have h8 : i % 8 < 8 := Nat.mod_lt _ (by decide)
  have flip (m : Mem) : bit (fun a => ~~~ m a) i = !bit m i := by
    simp [bit, h8]
  rw [clearBitRange_compl, flip, bit_setBitRange, flip]
  simp

/-- A range is written completely when nothing remains after its whole
bytes, or when it has no whole byte after the first partial one. -/
theorem markedLength_eq_iff (nr length : Nat) : markedLength nr length = length ↔
      let rest := length - (8 - nr % 8) % 8
      rest < 8 ∨ rest % 8 = 0 := by
  simp only [markedLength, tailLength]
  split <;> split <;> omega

theorem markedLength_le (nr length : Nat) : markedLength nr length ≤ length := by
  simp only [markedLength, tailLength]
  split <;> split <;> omega

theorem markedLength_one (nr : Nat) : markedLength nr 1 = 1 := by
  rw [markedLength_eq_iff]
  dsimp only
  omega

/-- Both range operations write all bits of the range, and no other bit. -/
structure RangeExact (nr : Nat) (m : Mem) (length : Nat) : Prop where
  set : ∀ i, bit (setBitRange nr m length) i = (decide (nr ≤ i ∧ i < nr + length) || bit m i)
  clear : ∀ i, bit (clearBitRange nr m length) i = (!decide (nr ≤ i ∧ i < nr + length) && bit m i)

/-- The bit behind those that are written cannot be both set and clear already. -/
theorem RangeExact.marked {nr length : Nat} {m : Mem} (h : RangeExact nr m length) :
    markedLength nr length = length := by
  by_contra short
  have inside : nr + markedLength nr length < nr + length := by
    have := markedLength_le nr length
    omega
  have set := h.set (nr + markedLength nr length)
  have clear := h.clear (nr + markedLength nr length)
  rw [bit_setBitRange] at set
  rw [bit_clearBitRange] at clear
  simp only [Nat.le_add_right, inside, lt_irrefl, and_self, and_false, decide_true, decide_false, Bool.true_or,
    Bool.false_or, Bool.not_true, Bool.not_false, Bool.false_and, Bool.true_and] at set clear
  cases set.symm.trans clear

theorem range_bits_exact_iff (nr : Nat) (m : Mem) (length : Nat) :
    RangeExact nr m length ↔
      length - (8 - nr % 8) % 8 < 8 ∨ (length - (8 - nr % 8) % 8) % 8 = 0 := by
  rw [← markedLength_eq_iff nr length]
  constructor
  · exact RangeExact.marked
  intro all
  refine ⟨fun i => ?_, fun i => ?_⟩
  · rw [bit_setBitRange, all]
  · rw [bit_clearBitRange, all]

/-- Of nine bits the last one stays clear. -/
theorem last_bit_not_set : bit (setBitRange 0 (fun _ => 0#8) 9) 8 = false ∧
    ¬ RangeExact 0 (fun _ => 0#8) 9 := by
  have clear : bit (setBitRange 0 (fun _ => 0#8) 9) 8 = false := by decide +kernel
  refine ⟨clear, fun whole => ?_⟩
  have set := whole.set 8
  cases clear.symm.trans set

/-! ## Searches -/

/-- The number returned is the first hit of `[offset, size)`, or `size` when there is none. -/
structure FirstHit (hit : Nat → Bool) (size offset : Nat) (r : Int) : Prop where
  inside : ∃ i : Nat, r = i ∧ offset ≤ i ∧ i ≤ size ∧ (i < size → hit i = true)
  before : ∀ j : Nat, offset ≤ j → j < r → hit j = false

theorem firstHit_iff {hit : Nat → Bool} {size offset n : Nat} (range : offset ≤ size) (le : n ≤ size)
    (small : size < 2 ^ 31) : FirstHit hit size offset (CWord.toInt32 n) ↔ n = Search.scan hit size offset := by
  rw [CWord.toInt32_of_lt (by omega)]
  constructor
  · rintro ⟨⟨i, eq, lo, _, found⟩, before⟩
    obtain rfl := Int.ofNat_inj.mp eq
    have before (j : Nat) (lo : offset ≤ j) (lt : j < n) := before j lo (by omega)
    rcases Nat.lt_or_eq_of_le le with lt | rfl
    · exact (Search.scan_eq_first hit lo lt (found lt) before).symm
    · exact (Search.scan_eq_size hit range before).symm
  rintro rfl
  rcases Search.scan_cases hit range with ⟨lo, lt, found, before⟩ | ⟨eq, none⟩
  · exact ⟨⟨_, rfl, lo, lt.le, fun _ => found⟩, fun j lo lt => before j lo (by omega)⟩
  · rw [eq]
    exact ⟨⟨size, rfl, range, le_rfl, fun bad => absurd bad (lt_irrefl _)⟩, fun j lo lt => none j lo (by omega)⟩

/-- Both searches find the first match if and only if the first set bit of the range, if there is
one, is the first of its byte. -/
theorem bit_searches_iff {m : Mem} {size offset : Nat} (range : offset ≤ size) (small : size < 2 ^ 31) :
    FirstHit (fun i => !bit m i) size offset (nextZeroBit m size offset) ∧
      FirstHit (bit m) size offset (nextSetBit m size offset) ↔
    ∀ i, offset ≤ i → i < size → bit m i = true → (∀ j, offset ≤ j → j < i → bit m j = false) → i % 8 = 0 := by
  rw [nextZeroBit_eq, nextSetBit_eq, firstHit_iff range (Search.scan_le _ range) small,
    firstHit_iff range (Search.scan_le _ range) small]
  constructor
  · rintro ⟨-, same⟩ i lo lt set before
    have stop := same.trans (Search.scan_eq_first _ lo lt set before)
    rcases Search.scan_cases (fun i => decide (i % 8 = 0) && bit m i) range with ⟨_, _, found, _⟩ | ⟨none, _⟩
    · rw [stop] at found
      simpa [set] using found
    · omega
  intro first
  refine ⟨rfl, ?_⟩
  rcases Search.scan_cases (bit m) range with ⟨lo, lt, found, before⟩ | ⟨eq, none⟩
  · refine Search.scan_eq_first _ lo lt ?_ fun j lo lt => ?_
    · rw [found, first _ lo lt found before]
      rfl
    · rw [before j lo lt, Bool.and_false]
  · rw [eq]
    refine Search.scan_eq_size _ range fun j lo lt => ?_
    rw [none j lo lt, Bool.and_false]

theorem bit_searches_iff_last : FirstHit (bit fun _ => 1#8) 9 1 (nextSetBit (fun _ => 1#8) 9 1) :=
  ((bit_searches_iff (m := fun _ => 1#8) (by decide) (by decide)).mpr (by decide)).2

/-- Bit 1 is set, but the search goes on to the end. -/
theorem second_bit_not_found : bit (fun _ => 2#8) 1 = true ∧ nextSetBit (fun _ => 2#8) 2 0 = 2 ∧
    ¬ FirstHit (bit fun _ => 2#8) 2 0 (nextSetBit (fun _ => 2#8) 2 0) := by
  have passed : nextSetBit (fun _ => 2#8) 2 0 = 2 := by decide +kernel
  refine ⟨by decide, passed, fun first => ?_⟩
  cases (first.before 1 (by decide) (passed ▸ by decide)).symm.trans (show bit (fun _ => 2#8) 1 = true by decide)

end SlotFs
