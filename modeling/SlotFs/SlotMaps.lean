import SlotFs.Slot

/-!
# The allocator invariant

`remain` is the number of clear bits of its map and `hint` lies within the
map. The maps lie side by side: all have the size of the first one, except that
the last may be shorter, and `bit_offset` is the sum of the earlier sizes, so
that dividing a slot number by the first map's size finds its map and bit.
-/

namespace SlotFs
open CWord Maps DramBitmap Search

variable {b : Maps} {i n : Nat} {m : DramBitmap}

@[simp] theorem Maps.set_num (b : Maps) (i : Nat) (m : DramBitmap) : (b.set i m).num = b.num := rfl

@[simp] theorem Maps.set_self (b : Maps) (i : Nat) (m : DramBitmap) : (b.set i m).map i = m := by
  simp [set]

theorem Maps.set_other (b : Maps) {j : Nat} (m : DramBitmap) (h : j ≠ i) : (b.set i m).map j = b.map j := by
  simp [set, h]

theorem Maps.set_bitNum (hn : m.bitNum = (b.map i).bitNum) (j : Nat) :
    ((b.set i m).map j).bitNum = (b.map j).bitNum := by
  by_cases e : j = i
  · subst e; simpa using hn
  · rw [set_other b m e]

/-- The number of clear bits. -/
def DramBitmap.clear (m : DramBitmap) : Nat := Nat.count (fun i => bit m.dram i = false) m.bitNum

def DramBitmap.Full (m : DramBitmap) : Prop := ∀ i < m.bitNum, bit m.dram i = true

structure DramBitmap.Exact (m : DramBitmap) : Prop where
  remain : m.remain = m.clear
  hint : m.hint ≤ m.bitNum

structure Maps.Laid (b : Maps) : Prop where
  pos : 0 < b.num
  size : ∀ i, i + 1 < b.num → (b.map i).bitNum = (b.map 0).bitNum
  last : ∀ i < b.num, (b.map i).bitNum ≤ (b.map 0).bitNum
  offset : ∀ i < b.num, (b.map i).bitOffset = i * (b.map 0).bitNum

structure Maps.Ok (b : Maps) : Prop extends Laid b where
  exact : ∀ i < b.num, (b.map i).Exact

/-- Slot `n` exists. -/
def Maps.Has (b : Maps) (n : Nat) : Prop :=
  n / (b.map 0).bitNum < b.num ∧ n % (b.map 0).bitNum < (b.map (n / (b.map 0).bitNum)).bitNum

instance (b : Maps) (n : Nat) : Decidable (b.Has n) :=
  inferInstanceAs (Decidable (_ ∧ _))

/-- The bit of slot `n`. -/
def Maps.used (b : Maps) (n : Nat) : Bool :=
  bit (b.map (n / (b.map 0).bitNum)).dram (n % (b.map 0).bitNum)

theorem DramBitmap.clear_eq_zero_iff (m : DramBitmap) : m.clear = 0 ↔ m.Full := by
  simp [clear, Full, Nat.count_iff_forall_not]

theorem DramBitmap.clear_pos_iff (m : DramBitmap) : 0 < m.clear ↔ ∃ i < m.bitNum, bit m.dram i = false := by
  rw [Nat.pos_iff_ne_zero]
  exact Nat.count_ne_iff_exists

theorem DramBitmap.clear_le (m : DramBitmap) : m.clear ≤ m.bitNum := Nat.count_le _

theorem Maps.Laid.set (h : b.Laid) (i : Nat) (hn : m.bitNum = (b.map i).bitNum)
    (ho : m.bitOffset = (b.map i).bitOffset) : (b.set i m).Laid := by
  have num := set_bitNum hn
  have off (j : Nat) : ((b.set i m).map j).bitOffset = (b.map j).bitOffset := by
    by_cases e : j = i
    · subst e; simpa using ho
    · rw [set_other b m e]
  constructor
  · exact h.pos
  · intro j hj; rw [num, num]; exact h.size j hj
  · intro j hj; rw [num, num]; exact h.last j hj
  · intro j hj; rw [off, num]; exact h.offset j hj

theorem Maps.Ok.set (h : b.Ok) (i : Nat) (hn : m.bitNum = (b.map i).bitNum)
    (ho : m.bitOffset = (b.map i).bitOffset) (he : i < b.num → m.Exact) : (b.set i m).Ok := by
  refine { h.toLaid.set i hn ho with exact := ?_ }
  intro j hj
  by_cases e : j = i
  · subst e; simpa using he hj
  · rw [set_other b m e]; exact h.exact j hj

/-- The slot number of a bit leads back to its map and bit. -/
theorem Maps.Laid.decode (h : b.Laid) (hi : i < b.num) (hn : n < (b.map i).bitNum) :
    (n + (b.map i).bitOffset) / (b.map 0).bitNum = i ∧ (n + (b.map i).bitOffset) % (b.map 0).bitNum = n := by
  have hlt : n < (b.map 0).bitNum := Nat.lt_of_lt_of_le hn (h.last i hi)
  rw [h.offset i hi]
  constructor
  · rw [Nat.add_mul_div_right _ _ (by omega), Nat.div_eq_of_lt hlt, Nat.zero_add]
  · rw [Nat.add_mul_mod_self_right, Nat.mod_eq_of_lt hlt]

theorem Maps.Laid.encode (h : b.Laid) (hn : b.Has n) :
    n % (b.map 0).bitNum + (b.map (n / (b.map 0).bitNum)).bitOffset = n := by
  rw [h.offset _ hn.1, Nat.mul_comm]
  exact Nat.mod_add_div n _

section
variable (h : b.Laid) (hi : i < b.num) (hn : n < (b.map i).bitNum)
include h hi hn

theorem Maps.Laid.has : b.Has (n + (b.map i).bitOffset) := by
  obtain ⟨hd, hm⟩ := h.decode hi hn
  exact ⟨by rw [hd]; exact hi, by rw [hd, hm]; exact hn⟩

theorem Maps.Laid.used_eq : b.used (n + (b.map i).bitOffset) = bit (b.map i).dram n := by
  obtain ⟨hd, hm⟩ := h.decode hi hn
  simp only [used, hd, hm]

end

theorem Maps.set_has (hn : m.bitNum = (b.map i).bitNum) (n : Nat) : (b.set i m).Has n ↔ b.Has n := by
  simp only [Has, set_num, set_bitNum hn]

/-- A change of the bits of one map, seen in slot numbers. -/
theorem Maps.set_used (hn : m.bitNum = (b.map i).bitNum) (n : Nat) : (b.set i m).used n =
      if n / (b.map 0).bitNum = i then bit m.dram (n % (b.map 0).bitNum) else b.used n := by
  simp only [used, set_bitNum hn]
  split <;> rename_i e
  · rw [e, set_self]
  · rw [set_other b m e]

theorem doSlotFree_num (b : Maps) (index : Int) : (doSlotFree b index).num = b.num := by
  simp only [doSlotFree]
  split <;> rfl

theorem doSlotAlloc_ge (b : Maps) (cpu : Nat) : -1 ≤ (doSlotAlloc b cpu).1 := by
  unfold doSlotAlloc
  split
  · exact (Int.negSucc_lt_zero 0).le.trans (Int.natCast_nonneg _)
  · exact le_rfl

/-- One map with all its bits clear. -/
def emptyMaps (bits : Nat) : Maps :=
  ⟨1, fun _ => ⟨fun _ => 0#8, 0, bits, bits, 0⟩⟩

theorem emptyMaps_ok (bits : Nat) : (emptyMaps bits).Ok := by
  refine ⟨⟨Nat.one_pos, fun _ _ => rfl, fun _ _ => le_rfl, ?_⟩, fun _ _ => ⟨?_, Nat.zero_le _⟩⟩
  · intro i hi
    obtain rfl : i = 0 := Nat.lt_one_iff.mp hi
    simp [emptyMaps]
  · exact (Nat.count_of_forall fun i _ => BitVec.getLsbD_zero).symm

/-- One map of three bits that are all set. -/
def fullMaps : Maps := ⟨1, fun _ => ⟨fun _ => 255#8, 0, 3, 0, 3⟩⟩

theorem fullMaps_ok : fullMaps.Ok := by
  refine ⟨⟨Nat.one_pos, fun _ _ => rfl, fun _ _ => le_rfl, ?_⟩, fun i _ => ⟨?_, le_rfl⟩⟩
  · intro i hi
    obtain rfl : i = 0 := Nat.lt_one_iff.mp hi
    rfl
  · decide +revert

/-! ## The search for a clear bit -/

section
variable (hint : m.hint ≤ m.bitNum) (small : m.bitNum ≤ 2 ^ 31)
include hint small

/-- With every position below `2 ^ 31` the search finds a clear bit whenever
there is one. -/
theorem searchZero_clear (free : ∃ i < m.bitNum, bit m.dram i = false) :
    searchZero m < m.bitNum ∧ bit m.dram (searchZero m) = false := by
  simp only [searchZero, nextZeroBit_eq]
  rcases scan_cases (fun i => !bit m.dram i) hint with ⟨_, hlt, found, _⟩ | ⟨he, none⟩
  · rw [toSize_toInt32 (by omega), if_neg (by omega)]
    exact ⟨hlt, by simpa using found⟩
  obtain ⟨i, hi, hz⟩ := free
  have hih : i < m.hint := by
    by_contra hn
    have := none i (by omega) hi
    simp [hz] at this
  have second := scan_lt_of_hit (fun i => !bit m.dram i) (Nat.zero_le i) hih (by simp [hz])
  have big : m.bitNum ≤ toSize (toInt32 m.bitNum) := by
    by_cases e : m.bitNum = 2 ^ 31
    · rw [e, toSize_toInt32_limit]; decide
    · rw [toSize_toInt32 (by omega)]
  rw [he, if_pos big, toSize_toInt32 (by omega)]
  exact ⟨by omega, by simpa using second.2⟩

/-- In a full map the search comes back with the hint, and that is a set bit
unless the hint stands at the end. -/
theorem searchZero_full (full : m.Full) : (m.hint < m.bitNum → searchZero m = m.hint) ∧
      (m.hint = m.bitNum → m.bitNum ≤ searchZero m) := by
  have none (lo : Nat) : ∀ j, lo ≤ j → j < m.bitNum → (!bit m.dram j) = false := by
    intro j _ hj
    simp [full j hj]
  have big : m.bitNum ≤ toSize (toInt32 m.bitNum) := by
    by_cases e : m.bitNum = 2 ^ 31
    · rw [e, toSize_toInt32_limit]; decide
    · rw [toSize_toInt32 (by omega)]
  simp only [searchZero, nextZeroBit_eq]
  rw [scan_eq_size _ hint (none _), if_pos big,
    scan_eq_size _ (Nat.zero_le _) (fun j h hj => none 0 j h (by omega))]
  constructor
  · intro inside
    exact toSize_toInt32 (by omega)
  · intro atEnd
    rw [atEnd]
    exact big

end

/-! ## One bit taken or given back -/

theorem allocLocked_exact (h : m.Exact) {m' : DramBitmap} (small : m.bitNum < 2 ^ 64)
    (hn : bit m.dram n = false) (taken : allocLocked m = some (n, m')) :
    m'.Exact ∧ m'.bitNum = m.bitNum ∧ m'.bitOffset = m.bitOffset ∧ n < m.bitNum ∧
    ∀ j, bit m'.dram j = (decide (j = n) || bit m.dram j) := by
  simp only [allocLocked] at taken
  split at taken
  · rename_i hlt
    simp only [Option.some.injEq, Prod.mk.injEq] at taken
    obtain ⟨hs, rfl⟩ := taken
    subst n
    have hbits (j : Nat) := bit_setBit (searchZero m) m.dram j
    refine ⟨⟨?_, by dsimp only; omega⟩, rfl, rfl, hlt, hbits⟩
    have step := count_remove (fun i => bit m.dram i = false)
      (fun i => bit (setBit (searchZero m) m.dram) i = false) (n := m.bitNum)
      (a := searchZero m) (c := 1) (by omega)
      (fun i hi hi' => by rw [show i = searchZero m by omega]; exact hn)
      (fun i _ => by
        rw [hbits, Bool.or_eq_false_iff, decide_eq_false_iff_not, and_comm]
        exact and_congr_right fun _ => by omega)
    have hle := m.clear_le
    have hr := h.remain
    simp only [clear] at hr hle ⊢
    rw [sub64_of_le (by omega) (by omega)]
    omega
  · cases taken

theorem clearBit_exact (h : m.Exact) (small : m.bitNum < 2 ^ 64) (hn : n < m.bitNum) (set : bit m.dram n = true) :
    { m with dram := clearBit n m.dram, remain := wrap64 (m.remain + 1) : DramBitmap }.Exact := by
  refine ⟨?_, h.hint⟩
  have step := count_remove (fun i => bit (clearBit n m.dram) i = false)
    (fun i => bit m.dram i = false) (n := m.bitNum) (a := n) (c := 1) (by omega)
    (fun i hi hi' => by rw [bit_clearBit, show i = n by omega]; simp)
    (fun i _ => by
      rw [bit_clearBit]
      by_cases e : i = n
      · subst e; simp [set]
      · simp only [e, decide_false, Bool.not_false, Bool.true_and]
        exact (and_iff_left (by omega)).symm)
  have hle : Nat.count (fun i => bit (clearBit n m.dram) i = false) m.bitNum ≤ m.bitNum :=
    Nat.count_le _
  have hr := h.remain
  simp only [clear] at hr ⊢
  rw [wrap64_of_lt (by omega)]
  omega

/-! ## Runs of bits, seen in slot numbers -/

theorem Maps.Laid.inside {b : Maps} (h : b.Laid) {i s c j : Nat} (hi : i < b.num)
    (hs : s + c ≤ (b.map i).bitNum) (lo : s + (b.map i).bitOffset ≤ j) (hj : j < s + (b.map i).bitOffset + c) :
    b.Has j ∧ b.used j = bit (b.map i).dram (j - (b.map i).bitOffset) := by
  have e : j - (b.map i).bitOffset + (b.map i).bitOffset = j := by omega
  have has := h.has hi (n := j - (b.map i).bitOffset) (by omega)
  have used := h.used_eq hi (n := j - (b.map i).bitOffset) (by omega)
  rw [e] at has used
  exact ⟨has, used⟩

/-- Marking a run of one map, seen in slot numbers. -/
theorem markRange_used (h : b.Laid) {s c : Nat} (hi : i < b.num) (hs : s + c ≤ (b.map i).bitNum) {j : Nat}
    (hj : b.Has j) : (b.set i (markRange (b.map i) s c)).used j =
      (decide (s + (b.map i).bitOffset ≤ j ∧ j < s + (b.map i).bitOffset + markedLength s c) ||
        b.used j) := by
  have enc := h.encode hj
  have le := markedLength_le s c
  rw [set_used (i := i) (m := markRange (b.map i) s c) rfl]
  split <;> rename_i hd
  · simp only [markRange, bit_setBitRange]
    rw [hd] at enc
    congr 1
    · exact decide_eq_decide.mpr (by omega)
    · simp only [used, hd]
  have outside : ¬ (s + (b.map i).bitOffset ≤ j ∧
      j < s + (b.map i).bitOffset + markedLength s c) := by
    rintro ⟨lo, hi'⟩
    have := (h.decode hi (n := j - (b.map i).bitOffset) (by omega)).1
    rw [show j - (b.map i).bitOffset + (b.map i).bitOffset = j by omega] at this
    exact hd this
  simp [outside]

theorem doSlotFreeRange_eq (b : Maps) (n c : Nat) : doSlotFreeRange b n c = b.set (n / (b.map 0).bitNum)
      (unmarkRange (b.map (n / (b.map 0).bitNum)) (n % (b.map 0).bitNum) c) := by
  simp only [doSlotFreeRange, toSize_natCast]

theorem doSlotFreeRange_used (h : b.Laid) {c : Nat} (has : b.Has n)
    (fits : n % (b.map 0).bitNum + c ≤ (b.map (n / (b.map 0).bitNum)).bitNum) :
    (doSlotFreeRange b n c).Laid ∧ (∀ j, (doSlotFreeRange b n c).Has j ↔ b.Has j) ∧
    ∀ j, b.Has j → (doSlotFreeRange b n c).used j =
      (!decide (n ≤ j ∧ j < n + markedLength (n % (b.map 0).bitNum) c) && b.used j) := by
  rw [doSlotFreeRange_eq]
  refine ⟨h.set _ rfl rfl, set_has rfl, fun j hj => ?_⟩
  have enc := h.encode has
  have encj := h.encode hj
  have le := markedLength_le (n % (b.map 0).bitNum) c
  have hi := has.1
  generalize n / (b.map 0).bitNum = i at *
  generalize n % (b.map 0).bitNum = s at *
  rw [set_used (i := i) (m := unmarkRange (b.map i) s c) rfl]
  split <;> rename_i hd
  · rw [hd] at encj
    simp only [unmarkRange, bit_clearBitRange]
    congr 1
    · congr 1
      exact decide_eq_decide.mpr (by omega)
    · simp only [used, hd]
  have outside : ¬ (n ≤ j ∧ j < n + markedLength s c) := by
    rintro ⟨lo, hj'⟩
    have := (h.decode hi (n := j - (b.map i).bitOffset) (by omega)).1
    rw [show j - (b.map i).bitOffset + (b.map i).bitOffset = j by omega] at this
    exact hd this
  simp [outside]

end SlotFs
