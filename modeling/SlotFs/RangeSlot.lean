import SlotFs.SingleSlot

/-!
# Ranges of slots

Runs of `do_slot_alloc_range` and `do_slot_free_range`. `next_set_bit` sees a
set bit only at a multiple of 8, and `set_bit_range` leaves out the bits after
the whole bytes of a range, so an allocation is exact only when the free run it
cuts is `Clean`. The searches return `int`, which asks for maps of fewer than
`2 ^ 31` bits.
-/

namespace SlotFs
open CWord Runs List Search

variable {b : Maps} {c count : Nat} {m : DramBitmap} {x : Nat × Nat}

/-- The request cut to the map, from where the search stops. -/
def windowEnd (m : DramBitmap) (count : Nat) : Nat := min (searchZero m + count) m.bitNum

/-- The free run at the place where the search stops ends where the request
or the map ends, or at a set bit on a byte boundary, and is a run that
`set_bit_range` marks to its end. -/
def Clean (count : Nat) (m : DramBitmap) : Prop :=
  ∃ e, searchZero m < e ∧ e ≤ windowEnd m count ∧
    (∀ j, searchZero m ≤ j → j < e → bit m.dram j = false) ∧
    (e = windowEnd m count ∨ e % 8 = 0 ∧ bit m.dram e = true) ∧
    markedLength (searchZero m) (e - searchZero m) = e - searchZero m

/-- The first map with a free slot, counted from the map of the CPU. -/
def Lands (b : Maps) (cpu i : Nat) : Prop :=
  ∃ j < b.num, i = (cpu + j) % b.num ∧ 0 < (b.map i).remain ∧
    ∀ l < j, (b.map ((cpu + l) % b.num)).remain = 0

/-- A refused request finds every map full and changes nothing; a granted one
takes between one and `count` free slots in a row, and no other. -/
def AllocatesRange (b : Maps) (cpu count : Nat) : Prop :=
  let r := doSlotAllocRange b cpu count
  (r.1 = -1 → r.2.1 = 0 ∧ r.2.2 = b ∧ ∀ i < b.num, (b.map i).Full) ∧
  (r.1 ≠ -1 → ∃ n : Nat, r.1 = n ∧ 1 ≤ r.2.1 ∧ r.2.1 ≤ count ∧
    (∀ j, n ≤ j → j < n + r.2.1 → b.Has j ∧ b.used j = false) ∧
    (∀ j, b.Has j → r.2.2.used j = (decide (n ≤ j ∧ j < n + r.2.1) || b.used j)) ∧ r.2.2.Ok)

/-! ## One map -/

/-- The run `[searchZero m, e)` that a visit of the map comes back with. -/
structure Found (count : Nat) (m : DramBitmap) (e : Nat) : Prop where
  pos : searchZero m < e
  within : e ≤ windowEnd m count
  free : bit m.dram (searchZero m) = false
  stop : e = windowEnd m count ∨ e % 8 = 0 ∧ bit m.dram e = true
  skipped : ∀ j, searchZero m ≤ j → j < e → ¬ (j % 8 = 0 ∧ bit m.dram j = true)

theorem windowEnd_le (m : DramBitmap) (count : Nat) : windowEnd m count ≤ m.bitNum :=
  Nat.min_le_right _ _

theorem windowEnd_eq (start : searchZero m ≤ m.bitNum) (small : m.bitNum < 2 ^ 31) (count : Nat) :
    wrap64 (searchZero m + (if count > sub64 m.bitNum (searchZero m) then
      sub64 m.bitNum (searchZero m) else count)) = windowEnd m count := by
  rw [sub64_of_le start (by omega), windowEnd]
  split <;> rw [wrap64_of_lt (by omega)] <;> omega

theorem rangeVisit_found (h : m.Exact) (small : m.bitNum < 2 ^ 31) (positive : 1 ≤ count) (remain : 0 < m.remain) :
    ∃ e, rangeVisit count m = some (searchZero m, e - searchZero m) ∧ Found count m e := by
  have found := searchZero_clear h.hint (by omega) (m.clear_pos_iff.mp (h.remain ▸ remain))
  have hwb := windowEnd_le m count
  have hsw : searchZero m < windowEnd m count := by rw [windowEnd]; omega
  have size := windowEnd_eq found.1.le small count
  generalize hit : (fun i => decide (i % 8 = 0) && bit m.dram i) = hits
  have lo := offset_le_scan hits hsw.le
  have hi := scan_le hits hsw.le
  have cases := scan_cases hits hsw.le
  have miss : hits (searchZero m) = false := by rw [← hit]; simp [found.2]
  generalize he : scan hits (windowEnd m count) (searchZero m) = e at lo hi cases
  have hse : searchZero m < e := by
    rcases cases with ⟨_, _, hh, _⟩ | ⟨h', _⟩
    · by_contra hn
      rw [show e = searchZero m by omega, miss] at hh
      cases hh
    · omega
  refine ⟨e, ?_, hse, hi, found.2, ?_, ?_⟩
  · simp only [rangeVisit, remain, if_true, size, nextSetBit_eq, hit, he]
    rw [toSize_toInt32 (by omega), sub64_of_le (by omega) (by omega), if_neg (by omega)]
  · rcases cases with ⟨_, _, hh, _⟩ | ⟨h', _⟩
    · rw [← hit] at hh
      exact .inr (by simpa using hh)
    · exact .inl h'
  rintro j hj hje ⟨h8, hb⟩
  have := scan_lt_of_hit hits hj (show j < windowEnd m count by omega)
    (by rw [← hit]; simp [h8, hb])
  omega

/-- Only one run can be the clean one, and it is the one that is found. -/
theorem Found.clean_iff {e : Nat} (h : Found count m e) :
    Clean count m ↔ (∀ j, searchZero m ≤ j → j < e → bit m.dram j = false) ∧
      markedLength (searchZero m) (e - searchZero m) = e - searchZero m := by
  constructor
  · rintro ⟨e', pos, within, free, stop, marked⟩
    have later : ¬ e < e' := by
      intro hlt
      rcases h.stop with hw | ⟨_, set⟩
      · omega
      · cases (free e h.pos.le hlt).symm.trans set
    have earlier : ¬ e' < e := by
      intro hlt
      rcases stop with hw | hit
      · have := h.within
        omega
      · exact h.skipped e' pos.le hlt hit
    obtain rfl : e' = e := by omega
    exact ⟨free, marked⟩
  · rintro ⟨free, marked⟩
    exact ⟨e, h.pos, h.within, free, h.stop, marked⟩

theorem markRange_exact (h : m.Exact) (small : m.bitNum < 2 ^ 31) {s : Nat} (fits : s + c ≤ m.bitNum)
    (free : ∀ j, s ≤ j → j < s + c → bit m.dram j = false) (marked : markedLength s c = c) :
    (markRange m s c).Exact := by
  have hbits (i : Nat) := bit_setBitRange s m.dram c i
  rw [marked] at hbits
  have step := count_remove (fun i => bit m.dram i = false)
    (fun i => bit (setBitRange s m.dram c) i = false) fits free
    (fun i _ => by
      rw [hbits, Bool.or_eq_false_iff, decide_eq_false_iff_not, and_comm])
  have hle := m.clear_le
  have hr := h.remain
  simp only [DramBitmap.clear] at hle hr
  refine ⟨?_, by simp only [markRange]; rw [wrap64_of_lt (by omega)]; exact fits⟩
  change sub64 m.remain c = Nat.count (fun i => bit (setBitRange s m.dram c) i = false) m.bitNum
  rw [sub64_of_le (by omega) (by omega)]
  omega

theorem unmarkRange_exact (h : m.Exact) (small : m.bitNum < 2 ^ 31) {s : Nat} (fits : s + c ≤ m.bitNum)
    (set : ∀ j, s ≤ j → j < s + c → bit m.dram j = true) (marked : markedLength s c = c) :
    (unmarkRange m s c).Exact := by
  have hbits (i : Nat) := bit_clearBitRange s m.dram c i
  rw [marked] at hbits
  have step := count_remove (fun i => bit (clearBitRange s m.dram c) i = false)
    (fun i => bit m.dram i = false) fits
    (fun i lo hi => by simp [hbits, lo, hi])
    (fun i _ => by
      rw [hbits]
      by_cases inside : s ≤ i ∧ i < s + c
      · simp [inside, set i inside.1 inside.2]
      · simp [inside])
  have hle : Nat.count (fun i => bit (clearBitRange s m.dram c) i = false) m.bitNum ≤ m.bitNum :=
    Nat.count_le _
  have hr := h.remain
  refine ⟨?_, h.hint⟩
  change wrap64 (m.remain + c) = Nat.count (fun i => bit (clearBitRange s m.dram c) i = false) m.bitNum
  simp only [DramBitmap.clear] at hr
  rw [wrap64_of_lt (by omega)]
  omega

/-! ## One request -/

theorem Lands.unique {cpu i i' : Nat} (h : Lands b cpu i) (h' : Lands b cpu i') : i' = i := by
  obtain ⟨j, _, hi, pos, before⟩ := h
  obtain ⟨j', _, hi', pos', before'⟩ := h'
  have hj : j = j' := by
    rcases Nat.lt_trichotomy j j' with lt | e | lt
    · have := before' j lt
      rw [← hi] at this
      omega
    · exact e
    · have := before j' lt
      rw [← hi'] at this
      omega
  rw [hi, hi', hj]

/-- The requests that `do_slot_alloc_range` serves exactly. -/
def CleanRequest (b : Maps) (cpu count : Nat) : Prop := ∀ i, Lands b cpu i → Clean count (b.map i)

section
variable (ok : b.Ok) (small : b.Within (2 ^ 31 - 1)) (cpu : Nat) (positive : 1 ≤ count)
include ok small cpu positive

theorem doSlotAllocRange_cases : (∃ i e, i < b.num ∧ Lands b cpu i ∧ Found count (b.map i) e ∧
      doSlotAllocRange b cpu count =
        (((searchZero (b.map i) + (b.map i).bitOffset : Nat) : Int), e - searchZero (b.map i),
          b.set i (markRange (b.map i) (searchZero (b.map i)) (e - searchZero (b.map i))))) ∨
    (doSlotAllocRange b cpu count = (-1, 0, b) ∧ ∀ i < b.num, (b.map i).remain = 0) := by
  have visit (i : Nat) (hi : i < b.num) (pos : 0 < (b.map i).remain) :=
    rangeVisit_found (ok.exact i hi) (by have := small i hi; omega) positive pos
  have idle (i : Nat) (hi : i < b.num) (none : rangeVisit count (b.map i) = none) :
      (b.map i).remain = 0 := by
    by_contra hr
    obtain ⟨e, he, _⟩ := visit i hi (by omega)
    cases he.symm.trans none
  rcases visitMaps_cases (rangeVisit count) b cpu ok.pos with ⟨j, a, hj, ha, hr, first⟩ | ⟨hr, none⟩
  · have hi (l : Nat) : (cpu + l) % b.num < b.num := Nat.mod_lt _ ok.pos
    have pos : 0 < (b.map ((cpu + j) % b.num)).remain := by
      by_contra hz
      simp [rangeVisit, show (b.map ((cpu + j) % b.num)).remain = 0 by omega] at ha
    obtain ⟨e, he, found⟩ := visit _ (hi j) pos
    refine .inl ⟨(cpu + j) % b.num, e, hi j,
      ⟨j, hj, rfl, pos, fun l hl => idle _ (hi l) (first l hl)⟩, found, ?_⟩
    rw [ha] at he
    simp only [doSlotAllocRange, hr, Option.some.inj he, takeRange]
  · exact Or.inr ⟨by simp only [doSlotAllocRange, hr, takeRange], fun i hi => idle i hi (none i hi)⟩

/-- A request is served exactly when it is a clean one. -/
theorem allocates_range_iff : AllocatesRange b cpu count ↔ CleanRequest b cpu count := by
  rcases doSlotAllocRange_cases ok small cpu positive with ⟨i, e, hi, lands, found, hr⟩ | ⟨hr, idle⟩
  · have clean : CleanRequest b cpu count ↔ Clean count (b.map i) :=
      ⟨fun h => h i lands, fun h i' l => lands.unique l ▸ h⟩
    have hb := small i hi
    have hpos := found.pos
    have hw := found.within.trans (windowEnd_le _ _)
    have hcount : e - searchZero (b.map i) ≤ count := by
      have := found.within
      rw [windowEnd] at this
      omega
    rw [clean, found.clean_iff]
    simp only [AllocatesRange, hr]
    generalize hs : searchZero (b.map i) = s at *
    generalize hc : e - s = c at *
    have hsc : s + c ≤ (b.map i).bitNum := by omega
    constructor
    · intro spec
      obtain ⟨n, hn, _, _, free, after, _⟩ := spec.2 (by omega)
      obtain rfl : s + (b.map i).bitOffset = n := Int.ofNat_inj.mp hn
      have bits (j : Nat) (lo : s ≤ j) (hj : j < e) : bit (b.map i).dram j = false := by
        have := (free (j + (b.map i).bitOffset) (by omega) (by omega)).2
        rwa [ok.used_eq hi (by omega)] at this
      refine ⟨bits, Nat.le_antisymm (markedLength_le s c) ?_⟩
      by_contra hlt
      have inside := ok.toLaid.inside hi hsc
        (j := s + (b.map i).bitOffset + markedLength s c) (by omega) (by omega)
      have set := after _ inside.1
      rw [markRange_used ok.toLaid hi hsc inside.1, inside.2, bits _ (by omega) (by omega)] at set
      simp at set
      omega
    · rintro ⟨free, marked⟩
      refine ⟨by intro h; omega, fun _ => ⟨s + (b.map i).bitOffset, rfl, by omega, hcount, ?_, ?_, ?_⟩⟩
      · intro j lo hj
        have inside := ok.toLaid.inside hi hsc lo hj
        exact ⟨inside.1, by rw [inside.2]; exact free _ (by omega) (by omega)⟩
      · intro j hj
        rw [markRange_used ok.toLaid hi hsc hj, marked]
      · exact ok.set i rfl rfl fun _ => markRange_exact (ok.exact i hi) (by omega) hsc
          (fun j lo hj => free j lo (by omega)) marked
  · have full (i : Nat) (hi : i < b.num) : (b.map i).Full := by
      rw [← DramBitmap.clear_eq_zero_iff, ← (ok.exact i hi).remain]
      exact idle i hi
    constructor
    · rintro _ i ⟨j, hj, rfl, pos, _⟩
      have := idle ((cpu + j) % b.num) (Nat.mod_lt _ ok.pos)
      omega
    · intro _
      rw [AllocatesRange, hr]
      exact ⟨fun _ => ⟨rfl, rfl, full⟩, fun h => absurd rfl h⟩

end

/-! ## Runs -/

/-- The maps, and the runs of slots that callers hold, as first slot and
number of slots. -/
structure RangeState where
  maps : Maps
  out : List (Nat × Nat)

/-- The steps of a run in which every request is `allowed`. -/
inductive RangeStep (allowed : Maps → Nat → Nat → Prop) (s : RangeState) : RangeState → Prop
  | refuse (cpu count : Nat) (positive : 1 ≤ count) (ask : allowed s.maps cpu count)
      (none : (doSlotAllocRange s.maps cpu count).1 = -1) :
      RangeStep allowed s { s with maps := (doSlotAllocRange s.maps cpu count).2.2 }
  | alloc (cpu count n : Nat) (positive : 1 ≤ count) (ask : allowed s.maps cpu count)
      (got : (doSlotAllocRange s.maps cpu count).1 = n) :
      RangeStep allowed s ⟨(doSlotAllocRange s.maps cpu count).2.2,
        (n, (doSlotAllocRange s.maps cpu count).2.1) :: s.out⟩
  | free (n c : Nat) (held : (n, c) ∈ s.out) :
      RangeStep allowed s ⟨doSlotFreeRange s.maps n c, s.out.erase (n, c)⟩

def Apart (x y : Nat × Nat) : Prop := x.1 + x.2 ≤ y.1 ∨ y.1 + y.2 ≤ x.1

instance : DecidableRel Apart := fun _ _ => inferInstanceAs (Decidable (_ ∨ _))

/-- A run of slots in one map, all of them used, which `clear_bit_range`
clears to its end. -/
structure Maps.Holds (b : Maps) (x : Nat × Nat) : Prop where
  has : b.Has x.1
  pos : 1 ≤ x.2
  fits : x.1 % (b.map 0).bitNum + x.2 ≤ (b.map (x.1 / (b.map 0).bitNum)).bitNum
  used : ∀ j, x.1 ≤ j → j < x.1 + x.2 → b.used j = true
  marked : markedLength (x.1 % (b.map 0).bitNum) x.2 = x.2

structure RangeState.Ok (s : RangeState) : Prop where
  maps : s.maps.Ok
  apart : s.out.Pairwise Apart
  held : ∀ x ∈ s.out, s.maps.Holds x

theorem Maps.Holds.set (h : b.Holds x) {i : Nat} (hn : m.bitNum = (b.map i).bitNum)
    (kept : ∀ j, x.1 ≤ j → j < x.1 + x.2 → (b.set i m).used j = true) : (b.set i m).Holds x := by
  have num := Maps.set_bitNum hn
  exact ⟨(Maps.set_has hn _).mpr h.has, h.pos, by rw [num, num]; exact h.fits, kept,
    by rw [num]; exact h.marked⟩

theorem Maps.Holds.has_all (laid : b.Laid) (h : b.Holds x) {j : Nat} (lo : x.1 ≤ j) (hj : j < x.1 + x.2) :
    b.Has j := by
  have enc := laid.encode h.has
  have fits := h.fits
  exact (laid.inside h.has.1 fits (by omega) (by omega)).1

theorem doSlotFreeRange_spec (ok : b.Ok) (small : b.Within (2 ^ 31 - 1)) (h : b.Holds x) :
    ∃ i m, m.bitNum = (b.map i).bitNum ∧ m.bitOffset = (b.map i).bitOffset ∧
      m.Exact ∧ doSlotFreeRange b x.1 x.2 = b.set i m ∧
      ∀ j, b.Has j → (b.set i m).used j = (!decide (x.1 ≤ j ∧ j < x.1 + x.2) && b.used j) := by
  have enc := ok.encode h.has
  have fits := h.fits
  have hb := small _ h.has.1
  have used := (doSlotFreeRange_used ok.toLaid h.has fits).2.2
  have set (j : Nat) (lo : x.1 % (b.map 0).bitNum ≤ j) (hj : j < x.1 % (b.map 0).bitNum + x.2) :
      bit (b.map (x.1 / (b.map 0).bitNum)).dram j = true := by
    have := h.used (j + (b.map (x.1 / (b.map 0).bitNum)).bitOffset) (by omega) (by omega)
    rwa [ok.used_eq h.has.1 (by omega)] at this
  rw [h.marked, doSlotFreeRange_eq] at used
  exact ⟨x.1 / (b.map 0).bitNum,
    unmarkRange (b.map (x.1 / (b.map 0).bitNum)) (x.1 % (b.map 0).bitNum) x.2, rfl, rfl,
    unmarkRange_exact (ok.exact _ h.has.1) (by omega) fits set h.marked,
    doSlotFreeRange_eq b x.1 x.2, used⟩

/-- A run of slots that was free is apart from every run that is held. -/
theorem Maps.Holds.apart (h : b.Holds x) {n : Nat} (pos : 1 ≤ c)
    (free : ∀ j, n ≤ j → j < n + c → b.used j = false) : Apart (n, c) x := by
  by_contra overlap
  simp only [Apart, not_or, not_le] at overlap
  have hpos := h.pos
  have held := h.used (max n x.1) (by omega) (by omega)
  cases (free (max n x.1) (by omega) (by omega)).symm.trans held

theorem RangeStep.ok {s t : RangeState} (h : s.Ok ∧ s.maps.Within (2 ^ 31 - 1))
    (step : RangeStep CleanRequest s t) : t.Ok ∧ t.maps.Within (2 ^ 31 - 1) := by
  obtain ⟨ok, small⟩ := h
  cases step with
  | refuse cpu count positive ask none =>
    have spec := (allocates_range_iff ok.maps small cpu positive).mpr ask
    obtain ⟨_, same, _⟩ := spec.1 none
    simp only [same]
    exact ⟨ok, small⟩
  | alloc cpu count n positive ask got =>
    have spec := (allocates_range_iff ok.maps small cpu positive).mpr ask
    obtain ⟨n', hn', one, _, free, after, ok'⟩ := spec.2 (by rw [got]; omega)
    obtain rfl : n = n' := by rw [got] at hn'; exact Int.ofNat_inj.mp hn'
    rcases doSlotAllocRange_cases ok.maps small cpu positive with
      ⟨i, e, hi, lands, found, hr⟩ | ⟨hr, _⟩
    · have clean := found.clean_iff.mp (ask i lands)
      have hw := found.within.trans (windowEnd_le _ _)
      have hpos := found.pos
      rw [hr] at after ok' got one free
      simp only [hr]
      simp only at after ok' got one free
      obtain rfl := Int.ofNat_inj.mp got
      have dec := ok.maps.decode hi (n := searchZero (s.maps.map i)) (by omega)
      generalize hm : markRange (s.maps.map i) (searchZero (s.maps.map i))
        (e - searchZero (s.maps.map i)) = m at *
      have hnum : m.bitNum = (s.maps.map i).bitNum := by rw [← hm]; rfl
      have num := Maps.set_bitNum hnum
      refine ⟨⟨ok', pairwise_cons.mpr ⟨fun x hx => ?_, ok.apart⟩, ?_⟩, small.set i hnum⟩
      · exact (ok.held x hx).apart one fun j lo hj => (free j lo hj).2
      intro x hx
      rcases mem_cons.mp hx with rfl | hx
      · refine ⟨(Maps.set_has hnum _).mpr (free _ le_rfl (by omega)).1, one, ?_, ?_, ?_⟩
        · simp only [num, dec]
          omega
        · intro j lo hj
          rw [after j (free j lo hj).1, decide_eq_true ⟨lo, hj⟩, Bool.true_or]
        · simp only [num, dec]
          exact clean.2
      · refine (ok.held x hx).set hnum fun j lo hj => ?_
        rw [after j ((ok.held x hx).has_all ok.maps.toLaid lo hj), (ok.held x hx).used j lo hj,
          Bool.or_true]
    · rw [hr] at got
      omega
  | free n c held =>
    have holds := ok.held (n, c) held
    obtain ⟨i, m, hnum, hoff, exact, hfree, after⟩ := doSlotFreeRange_spec ok.maps small holds
    simp only at hfree after
    rw [hfree]
    have rest : List.Pairwise Apart ((n, c) :: s.out.erase (n, c)) :=
      (perm_cons_erase held).pairwise ok.apart (fun h => h.symm)
    refine ⟨⟨ok.maps.set i hnum hoff fun _ => exact, (pairwise_cons.mp rest).2, ?_⟩,
      small.set i hnum⟩
    intro x hx
    have hx' := ok.held x (mem_of_mem_erase hx)
    refine hx'.set hnum fun j lo hj => ?_
    have apart := (pairwise_cons.mp rest).1 x hx
    simp only [Apart] at apart
    rw [after j (hx'.has_all ok.maps.toLaid lo hj), hx'.used j lo hj, Bool.and_true,
      decide_eq_false (by omega), Bool.not_false]

/-- In every run of clean requests over maps of fewer than `2 ^ 31` bits what
is handed out stays apart and `remain` stays exact; and wherever such a run leads,
the next request is served exactly if and only if it is a clean one. -/
theorem range_slot_runs {b : Maps} {t : RangeState} (ok : b.Ok) (small : b.Within (2 ^ 31 - 1))
    (run : Run (RangeStep CleanRequest) ⟨b, []⟩ t) :
    t.Ok ∧ ∀ cpu count, 1 ≤ count → (AllocatesRange t.maps cpu count ↔ CleanRequest t.maps cpu count) := by
  have start : (⟨b, []⟩ : RangeState).Ok := ⟨ok, .nil, fun _ h => nomatch h⟩
  have inv := Run.invariant (I := fun s : RangeState => s.Ok ∧ s.maps.Within (2 ^ 31 - 1))
    RangeStep.ok run ⟨start, small⟩
  exact ⟨inv.1, fun cpu count positive => allocates_range_iff inv.1.maps inv.2 cpu positive⟩

theorem range_slot_runs_byte :
    (⟨(doSlotAllocRange (emptyMaps 16) 0 8).2.2, [(0, 8)]⟩ : RangeState).Ok ∧
    ∀ cpu count, 1 ≤ count →
      (AllocatesRange (doSlotAllocRange (emptyMaps 16) 0 8).2.2 cpu count ↔
        CleanRequest (doSlotAllocRange (emptyMaps 16) 0 8).2.2 cpu count) := by
  have clean : Clean 8 ((emptyMaps 16).map 0) :=
    ⟨8, by decide, by decide, fun _ _ _ => BitVec.getLsbD_zero, .inl (by decide), by decide⟩
  exact range_slot_runs (emptyMaps_ok 16) (fun _ _ => show 16 ≤ 2 ^ 31 - 1 by decide)
    (.single (.alloc 0 8 0 (by decide) (fun _ _ => clean) (by decide)))

/-- The ninth slot of the first extent is never marked, so once the hint has
wrapped it is handed out a second time. -/
theorem tail_slot_reissued :
    ¬ AllocatesRange (emptyMaps 16) 0 9 ∧
    ∃ t, Run (RangeStep fun _ _ _ => True) ⟨emptyMaps 16, []⟩ t ∧ t.out = [(8, 1), (0, 9)] ∧
      ¬ t.out.Pairwise Apart := by
  refine ⟨fun h => ?_, ?_⟩
  · obtain ⟨n, hn, _, _, _, after, _⟩ := h.2 (by decide)
    obtain rfl : 0 = n := Int.ofNat_inj.mp ((show (0 : Int) = _ by decide).trans hn)
    have set := after 8 ⟨by decide, by decide⟩
    revert set
    decide
  · refine ⟨_, .tail (.tail (.tail (.single (.alloc 0 9 0 ?_ trivial ?_)) (.alloc 0 7 9 ?_ trivial ?_))
      (.free 9 7 ?_)) (.alloc 0 1 8 ?_ trivial ?_), ?_, ?_⟩
    all_goals decide

end SlotFs
