import SlotFs.Mount

/-!
# Splitting a bitmap

`shm_init_bitmap` for any number of maps, and the way in which `do_slot_free` finds the bit of an
index. All maps but the last have the same number of bits, rounded up to whole words, and the
last one has what is left.
-/

namespace SlotFs
open CWord Search

variable {bitmap : Mem} {num total per n j i start bits : Nat}

/-- The maps for `total` slots. -/
def splitMaps (bitmap : Mem) (num total : Nat) : Maps :=
  shmInitLoop bitmap num (roundUp (total / num) 64) num 0 total 0 0 { zeroMaps with num }

theorem shmInitBitmap_eq (slotNum : SlotType → Nat) (bitmap : SlotType → Mem) (type : SlotType) :
    shmInitBitmap slotNum bitmap type = splitMaps (bitmap type) mapNum (slotNum type) := rfl

/-- The maps are the slots below `total`, each is counted, and an index leads to its bit. -/
structure Maps.Splits (b : Maps) (total : Nat) : Prop where
  inside : ∀ j < b.num, (b.map j).bitOffset + (b.map j).bitNum ≤ total
  once : ∀ i < total, ∃! j, j < b.num ∧ (b.map j).bitOffset ≤ i ∧ i < (b.map j).bitOffset + (b.map j).bitNum
  remain : ∀ j < b.num, (b.map j).remain = (b.map j).clear
  hint : ∀ j < b.num, (b.map j).hint = scan (fun i => !bit (b.map j).dram i) (b.map j).bitNum 0
  decoded : ∀ i < total, i / (b.map 0).bitNum < b.num ∧
    i % (b.map 0).bitNum < (b.map (i / (b.map 0).bitNum)).bitNum ∧
    i % (b.map 0).bitNum + (b.map (i / (b.map 0).bitNum)).bitOffset = i

/-- A number that is not changed on its way through an `int`. -/
def Survives (n : Nat) : Prop := toSize (toInt32 n) = n

/-- The bits from `start` on can be counted: those behind them in the last byte are clear, and
what is found fits. -/
structure Countable (bitmap : Mem) (start n : Nat) : Prop where
  padding : ∀ i, n ≤ i → i < 8 * mapBytes n → bit bitmap (start + i) = false
  count : Survives (Nat.count (fun i => bit bitmap (start + i) = true) n)
  first : Survives (scan (fun i => !bit bitmap (start + i)) n 0)

def pieceBits (num total per j : Nat) : Nat := if j + 1 = num then total - j * per else per

/-- The maps before the last one are not too large, and not too small. -/
structure Splittable (bitmap : Mem) (num total : Nat) : Prop where
  enough : (num - 1) * roundUp (total / num) 64 ≤ total
  fits : total ≤ num * roundUp (total / num) 64
  counted : ∀ j < num, Countable bitmap (j * roundUp (total / num) 64)
    (pieceBits num total (roundUp (total / num) 64) j)

/-! ## One map -/

theorem popcount_eq (m : Mem) (a : Nat) : popcount (m a) = Nat.count (fun k => bit m (8 * a + k) = true) 8 := by
  have place (k : Nat) (small : k < 8) : bit m (8 * a + k) = (m a).getLsbD k := by
    rw [bit, show (8 * a + k) / 8 = a by omega, show (8 * a + k) % 8 = k by omega]
  rw [popcount, count_congr _ (fun k => (m a).getLsbD k = true) fun k small => by rw [place k small],
    Nat.count]
  simp

theorem countBits_eq (m : Mem) (len : Nat) : countBits m len = Nat.count (fun i => bit m i = true) (8 * len) := by
  induction len with
  | zero => rfl
  | succ len ih =>
    rw [countBits, List.range_succ, List.map_append, List.sum_append, ← countBits, ih, Nat.mul_succ, Nat.count_add,
      List.map_singleton, List.sum_singleton, popcount_eq]

theorem clear_add_set (m : Mem) (n : Nat) :
    Nat.count (fun i => bit m i = false) n + Nat.count (fun i => bit m i = true) n = n := by
  induction n with
  | zero => rfl
  | succ n ih =>
    rw [Nat.count_succ, Nat.count_succ]
    cases bit m n <;> simp <;> omega

/-- The bits of the padding are counted as well. -/
theorem remain_eq_iff {set pad left : Nat} (sum : left + set = bits) (small : bits < 2 ^ 64) (few : pad < 8) :
    sub64 bits (toSize (toInt32 (set + pad))) = left ↔ pad = 0 ∧ Survives set := by
  unfold Survives sub64 toSize toInt32
  rw [Int.bmod_def, Int.bmod_def]
  split <;> split <;> split <;> split <;> omega

section
variable {dram : Mem} (same : ∀ i < 8 * mapBytes bits, bit dram i = bit bitmap (start + i))

include same

theorem padding_clear (short : bits + n = 8 * mapBytes bits) :
    Nat.count (fun k => bit dram (bits + k) = true) n = 0 ↔
      ∀ i, bits ≤ i → i < 8 * mapBytes bits → bit bitmap (start + i) = false := by
  rw [Nat.count_iff_forall_not]
  constructor
  · intro none i low high
    have clear := none (i - bits) (by omega)
    rwa [show bits + (i - bits) = i by omega, same i high, Bool.not_eq_true] at clear
  · intro none k inside
    rw [same _ (by omega), Bool.not_eq_true]
    exact none _ (by omega) (by omega)

/-- A copy of the bits is counted as `shm_init_bitmap` does it. -/
theorem countable_iff (small : bits < 2 ^ 64) :
    sub64 bits (toSize (toInt32 (countBits dram (mapBytes bits)))) = Nat.count (fun i => bit dram i = false) bits ∧
      toSize (nextZeroBit dram bits 0) = scan (fun i => !bit dram i) bits 0 ↔
    Countable bitmap start bits := by
  obtain ⟨n, few, short⟩ : ∃ n < 8, bits + n = 8 * mapBytes bits :=
    ⟨8 * mapBytes bits - bits, by rw [mapBytes]; omega, by rw [mapBytes]; omega⟩
  have set : Nat.count (fun i => bit dram i = true) bits = Nat.count (fun i => bit bitmap (start + i) = true) bits :=
    count_congr _ _ fun i inside => by rw [same i (by omega)]
  have hits : scan (fun i => !bit dram i) bits 0 = scan (fun i => !bit bitmap (start + i)) bits 0 :=
    scan_congr fun i inside => by rw [same i (by omega)]
  have sum := clear_add_set dram bits
  have pads := @Nat.count_le (fun k => bit dram (bits + k) = true) _ n
  rw [countBits_eq, ← short, Nat.count_add, nextZeroBit_eq, hits]
  rw [set] at sum ⊢
  rw [remain_eq_iff sum small (by omega), padding_clear same short]
  exact ⟨fun h => ⟨h.1.1, h.1.2, h.2⟩, fun h => ⟨⟨h.padding, h.count⟩, h.first⟩⟩

end

theorem shmInitMap_counted {p off : Nat} (small : bits < 2 ^ 64) :
    (shmInitMap bitmap p bits off).remain = (shmInitMap bitmap p bits off).clear ∧
      (shmInitMap bitmap p bits off).hint =
        scan (fun i => !bit (shmInitMap bitmap p bits off).dram i) bits 0 ↔
    Countable bitmap (8 * p) bits := by
  have copied (i : Nat) (inside : i < 8 * mapBytes bits) :
      bit (shmInitMap bitmap p bits off).dram i = bit bitmap (8 * p + i) := by
    have near : i / 8 < mapBytes bits := by omega
    simp only [bit, shmInitMap, if_pos near]
    rw [show (8 * p + i) / 8 = p + i / 8 by omega, show (8 * p + i) % 8 = i % 8 by omega]
  rw [← countable_iff copied small]
  simp only [shmInitMap, DramBitmap.clear]

/-! ## All maps -/

theorem shmInitLoop_num {t o p : Nat} {maps : Maps} :
    (shmInitLoop bitmap num per n j t o p maps).num = maps.num := by
  induction n generalizing j t o p maps with
  | zero => rfl
  | succ n ih =>
    rw [shmInitLoop, ih]
    rfl

theorem shmInitLoop_front {t o p : Nat} {maps : Maps} (front : i < j) :
    (shmInitLoop bitmap num per n j t o p maps).map i = maps.map i := by
  induction n generalizing j t o p maps with
  | zero => rfl
  | succ n ih =>
    rw [shmInitLoop, ih (by omega)]
    exact if_neg (by omega)

/-- The map `i`, as long as those before it do not use up the slots. -/
def piece (bitmap : Mem) (num total per i : Nat) : DramBitmap :=
  shmInitMap bitmap (i * mapBytes per) (pieceBits num total per i) (i * per)

theorem shmInitLoop_piece (small : total < 2 ^ 64) {maps : Maps} (all : j + n = num) (behind : j ≤ i)
    (inside : i < num) (fits : i * per ≤ total) :
    (shmInitLoop bitmap num per n j (total - j * per) (j * per) (j * mapBytes per) maps).map i =
      piece bitmap num total per i := by
  induction n generalizing j maps with
  | zero => omega
  | succ n ih =>
    rw [shmInitLoop]
    rcases Nat.eq_or_lt_of_le behind with rfl | later
    · rw [shmInitLoop_front (Nat.lt_succ_self j)]
      exact if_pos rfl
    have next : (j + 1) * per ≤ total := (Nat.mul_le_mul_right per later).trans fits
    rw [Nat.succ_mul] at next
    rw [if_neg (by omega), sub64_of_le (by omega) (by omega), wrap64_of_lt (by omega), Nat.sub_sub,
      ← Nat.succ_mul, ← Nat.succ_mul]
    exact ih (by omega) later

theorem splitMaps_num : (splitMaps bitmap num total).num = num := shmInitLoop_num

theorem splitMaps_piece (small : total < 2 ^ 64) (inside : j < num) (fits : j * roundUp (total / num) 64 ≤ total) :
    (splitMaps bitmap num total).map j = piece bitmap num total (roundUp (total / num) 64) j := by
  have loop := @shmInitLoop_piece bitmap num total (roundUp (total / num) 64) num 0 j small { zeroMaps with num }
    (Nat.zero_add num) (Nat.zero_le j) inside fits
  rwa [Nat.zero_mul, Nat.zero_mul, Nat.sub_zero] at loop

theorem roundUp_words (n : Nat) : n ≤ roundUp n 64 ∧ 8 * mapBytes (roundUp n 64) = roundUp n 64 := by
  rw [mapBytes, roundUp]
  omega

section
variable (small : total < 2 ^ 64) (h : (splitMaps bitmap num total).Splits total)
include small h

/-- A map that is not the last one goes beyond the slots. -/
theorem Maps.Splits.enough : (num - 1) * roundUp (total / num) 64 ≤ total := by
  by_contra short
  rw [Nat.not_le] at short
  have pos : 0 < roundUp (total / num) 64 := Nat.pos_of_mul_pos_left (Nat.zero_lt_of_lt short)
  obtain ⟨j, low, high⟩ : ∃ j, j * roundUp (total / num) 64 ≤ total ∧
      total < j * roundUp (total / num) 64 + roundUp (total / num) 64 :=
    ⟨_, Nat.div_mul_le_self .., Nat.lt_div_mul_add pos⟩
  have before : j < num - 1 := Nat.lt_of_mul_lt_mul_right (Nat.lt_of_le_of_lt low short)
  have inside := h.inside j (by rw [splitMaps_num]; omega)
  rw [splitMaps_piece small (by omega) low, piece, pieceBits, if_neg (by omega)] at inside
  simp only [shmInitMap] at inside
  omega

/-- The index behind equal maps is decoded to a map that does not exist. -/
theorem Maps.Splits.fits (pos : 0 < num) : total ≤ num * roundUp (total / num) 64 := by
  by_cases one : num = 1
  · subst one
    rw [Nat.div_one, Nat.one_mul]
    exact (roundUp_words total).1
  by_contra many
  obtain ⟨place, inside, _⟩ := h.decoded (num * roundUp (total / num) 64) (by omega)
  rw [splitMaps_num] at place
  have first := @splitMaps_piece bitmap num total 0 small pos (by omega)
  rw [first, piece, pieceBits, if_neg (by omega)] at place inside
  simp only [shmInitMap] at place inside
  rcases Nat.eq_zero_or_pos (roundUp (total / num) 64) with zero | full
  · simp only [zero, Nat.mul_zero, Nat.zero_div, Nat.zero_mod] at inside
    rw [first, piece, pieceBits, if_neg (by omega), zero] at inside
    exact absurd inside (Nat.lt_irrefl 0)
  · rw [Nat.mul_div_cancel _ full] at place
    exact absurd place (Nat.lt_irrefl num)

end

section
variable (enough : (num - 1) * per ≤ total) (fits : total ≤ num * per)

include enough in
theorem piece_begins (inside : j < num) : j * per ≤ total :=
  (Nat.mul_le_mul_right per (Nat.le_sub_one_of_lt inside)).trans enough

include enough in
theorem piece_ends (inside : j < num) : j * per + pieceBits num total per j ≤ total := by
  have begins := piece_begins enough inside
  unfold pieceBits
  split
  · omega
  · have next := piece_begins enough (Nat.lt_of_le_of_ne inside ‹_›)
    rwa [Nat.succ_mul] at next

include fits in
theorem pieceBits_le : pieceBits num total per j ≤ per := by
  unfold pieceBits
  split
  · rename_i last
    rw [← last, Nat.succ_mul] at fits
    omega
  · exact Nat.le_refl per

include fits in
/-- The map of an index, and its bit. -/
theorem piece_holds (inside : i < total) : i / per < num ∧ i % per < pieceBits num total per (i / per) := by
  have place : i / per < num := Nat.div_lt_of_lt_mul (by rw [Nat.mul_comm]; omega)
  have pos : 0 < per := Nat.pos_of_ne_zero fun zero => by
    rw [zero, Nat.mul_zero] at fits
    omega
  have sum := Nat.div_add_mod' i per
  refine ⟨place, ?_⟩
  unfold pieceBits
  split
  · omega
  · exact Nat.mod_lt i pos

end

theorem splitMaps_counted (small : total < 2 ^ 64) (enough : (num - 1) * roundUp (total / num) 64 ≤ total)
    (inside : j < num) : ((splitMaps bitmap num total).map j).remain = ((splitMaps bitmap num total).map j).clear ∧
      ((splitMaps bitmap num total).map j).hint =
        scan (fun i => !bit ((splitMaps bitmap num total).map j).dram i)
          ((splitMaps bitmap num total).map j).bitNum 0 ↔
    Countable bitmap (j * roundUp (total / num) 64) (pieceBits num total (roundUp (total / num) 64) j) := by
  have words := (roundUp_words (total / num)).2
  have ends := piece_ends enough inside
  rw [splitMaps_piece small inside (piece_begins enough inside), piece, ← words, Nat.mul_left_comm, words]
  exact shmInitMap_counted (by omega)

theorem Splittable.splits (h : Splittable bitmap num total) (pos : 0 < num) (small : total < 2 ^ 64) :
    (splitMaps bitmap num total).Splits total := by
  obtain ⟨enough, fits, countable⟩ := h
  have map (j : Nat) (inside : j < num) := @splitMaps_piece bitmap num total j small inside (piece_begins enough inside)
  refine ⟨?_, ?_, ?_, ?_, ?_⟩ <;> simp only [splitMaps_num]
  · intro j inside
    rw [map j inside]
    exact piece_ends enough inside
  · intro i inside
    obtain ⟨place, bit⟩ := piece_holds fits inside
    have sum := Nat.div_add_mod' i (roundUp (total / num) 64)
    refine ⟨i / roundUp (total / num) 64, ?_, ?_⟩
    · simp only [map _ place, piece, shmInitMap]
      omega
    rintro j ⟨small, low, high⟩
    simp only [map j small, piece, shmInitMap] at low high
    have short := @pieceBits_le num total (roundUp (total / num) 64) j fits
    exact (Nat.div_eq_of_lt_le low (by rw [Nat.succ_mul]; omega)).symm
  · exact fun j inside => ((splitMaps_counted small enough inside).mpr (countable j inside)).1
  · exact fun j inside => ((splitMaps_counted small enough inside).mpr (countable j inside)).2
  intro i inside
  obtain ⟨place, bit⟩ := piece_holds fits inside
  have sum := Nat.div_add_mod' i (roundUp (total / num) 64)
  have first : ((splitMaps bitmap num total).map 0).bitNum = pieceBits num total (roundUp (total / num) 64) 0 := by
    rw [map 0 pos]
    rfl
  by_cases one : num = 1
  · have size : pieceBits num total (roundUp (total / num) 64) 0 = total := by simp [pieceBits, one]
    rw [first, size, Nat.div_eq_of_lt inside, Nat.mod_eq_of_lt inside, first, size, map 0 pos]
    simp only [piece, shmInitMap]
    omega
  have size : pieceBits num total (roundUp (total / num) 64) 0 = roundUp (total / num) 64 := if_neg (by omega)
  rw [first, size, map _ place]
  simp only [piece, shmInitMap]
  omega

/-- The maps divide the slots among them, and say the truth about them, exactly when they are
not too large or too small for that and can be counted. -/
theorem maps_split_iff (pos : 0 < num) (small : total < 2 ^ 64) :
    (splitMaps bitmap num total).Splits total ↔ Splittable bitmap num total := by
  constructor
  · intro h
    have enough := h.enough small
    refine ⟨enough, h.fits small pos, fun j inside => (splitMaps_counted small enough inside).mp ?_⟩
    rw [← @splitMaps_num bitmap num total] at inside
    exact ⟨h.remain j inside, h.hint j inside⟩
  · exact fun h => h.splits pos small

theorem maps_split_iff_words : (splitMaps (fun _ => 0#8) 2 128).Splits 128 := by
  refine (maps_split_iff (by decide) (by decide)).mpr ⟨by decide, by decide, fun j inside => ?_⟩
  have whole : 8 * mapBytes (pieceBits 2 128 (roundUp (128 / 2) 64) j) = pieceBits 2 128 (roundUp (128 / 2) 64) j := by
    interval_cases j <;> decide
  refine ⟨fun i low high => by omega, ?_, ?_⟩ <;> unfold Survives <;> interval_cases j <;> decide +kernel

/-- The last of 129 slots is decoded to a third map. -/
theorem index_beyond_maps : ¬ (splitMaps (fun _ => 0#8) 2 129).Splits 129 ∧
    128 / ((splitMaps (fun _ => 0#8) 2 129).map 0).bitNum = 2 := by
  have beyond : 128 / ((splitMaps (fun _ => 0#8) 2 129).map 0).bitNum = 2 := by decide +kernel
  refine ⟨fun h => ?_, beyond⟩
  have place := (h.decoded 128 (by decide)).1
  rw [beyond] at place
  exact absurd place (Nat.lt_irrefl 2)

end SlotFs
