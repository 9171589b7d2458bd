import SlotFs.Lib.Runs
import SlotFs.SlotMaps

/-!
# Single slots

Sequential runs of `do_slot_alloc` and `do_slot_free`. The search returns its
position as an `int`, so the results below ask for maps of at most `2 ^ 31`
bits; `wide_map_reissues` is what happens one bit further.
-/

namespace SlotFs
open CWord Runs List Maps

variable {b : Maps} {m : DramBitmap} {n : Nat} {s : SlotState}

/-- The maps, and the slots that callers have been given and not given back. -/
structure SlotState where
  maps : Maps
  out : List Nat

inductive SlotStep (s : SlotState) : SlotState → Prop
  | refuse (cpu : Nat) (none : (doSlotAlloc s.maps cpu).1 = -1) :
      SlotStep s { s with maps := (doSlotAlloc s.maps cpu).2 }
  | alloc (cpu n : Nat) (got : (doSlotAlloc s.maps cpu).1 = n) :
      SlotStep s ⟨(doSlotAlloc s.maps cpu).2, n :: s.out⟩
  | free (n : Nat) (held : n ∈ s.out) :
      SlotStep s ⟨doSlotFree s.maps n, s.out.erase n⟩

structure SlotState.Ok (s : SlotState) : Prop where
  maps : s.maps.Ok
  once : s.out.Nodup
  held : ∀ n ∈ s.out, s.maps.Has n ∧ s.maps.used n = true

/-- An allocation is refused exactly when every map is full, and otherwise
takes one free slot, and nothing else. -/
def AllocatesExactly (b : Maps) (cpu : Nat) : Prop :=
  let r := doSlotAlloc b cpu
  (r.1 = -1 ↔ ∀ i < b.num, (b.map i).Full) ∧ (r.1 = -1 → r.2 = b) ∧
  (r.1 ≠ -1 → ∃ n : Nat, r.1 = n ∧ b.Has n ∧ b.used n = false ∧
    (∀ j, b.Has j → r.2.used j = (decide (j = n) || b.used j)) ∧ r.2.Ok)

def Maps.Within (b : Maps) (limit : Nat) : Prop := ∀ i < b.num, (b.map i).bitNum ≤ limit

theorem Maps.Within.set {limit : Nat} (h : b.Within limit) (i : Nat) (hn : m.bitNum = (b.map i).bitNum) :
    (b.set i m).Within limit := by
  intro j hj
  rw [set_bitNum hn]
  exact h j hj

section
variable (ok : b.Ok) (small : b.Within (2 ^ 31))
include ok small

/-- What `do_slot_alloc` does to maps that satisfy the invariant. -/
theorem doSlotAlloc_cases (cpu : Nat) : (∃ i n m, i < b.num ∧ n < (b.map i).bitNum ∧ bit (b.map i).dram n = false ∧
      allocLocked (b.map i) = some (n, m) ∧
      doSlotAlloc b cpu = (((n + (b.map i).bitOffset : Nat) : Int), b.set i m)) ∨
    (doSlotAlloc b cpu = (-1, b) ∧ ∀ i < b.num, (b.map i).Full) := by
  have visited (i : Nat) (hi : i < b.num) : allocVisit (b.map i) = none → (b.map i).Full := by
    intro none
    rw [← DramBitmap.clear_eq_zero_iff, ← (ok.exact i hi).remain]
    by_contra hr
    have hpos : 0 < (b.map i).remain := by omega
    have free := (b.map i).clear_pos_iff.mp ((ok.exact i hi).remain ▸ hpos)
    have found := searchZero_clear (ok.exact i hi).hint (small i hi) free
    simp [allocVisit, hpos, allocLocked, found.1] at none
  rcases visitMaps_cases allocVisit b cpu ok.pos with ⟨j, a, _, ha, hr, _⟩ | ⟨hr, none⟩
  · obtain ⟨n, m⟩ := a
    generalize hi : (cpu + j) % b.num = i at ha hr
    have hib : i < b.num := hi ▸ Nat.mod_lt _ ok.pos
    simp only [allocVisit] at ha
    split at ha
    · rename_i hpos
      have free := (b.map i).clear_pos_iff.mp ((ok.exact i hib).remain ▸ hpos)
      have found := searchZero_clear (ok.exact i hib).hint (small i hib) free
      have hn : n = searchZero (b.map i) ∧ m.bitOffset = (b.map i).bitOffset := by
        simp only [allocLocked, found.1, if_true, Option.some.injEq, Prod.mk.injEq] at ha
        obtain ⟨rfl, rfl⟩ := ha
        exact ⟨rfl, rfl⟩
      refine Or.inl ⟨i, n, m, hib, hn.1 ▸ found.1, hn.1 ▸ found.2, ha, ?_⟩
      simp only [doSlotAlloc, hr, hn.2]
    · cases ha
  · exact Or.inr ⟨by simp only [doSlotAlloc, hr], fun i hi => visited i hi (none i hi)⟩

theorem allocLocked_used {i : Nat} (hi : i < b.num) (free : bit (b.map i).dram n = false)
    (taken : allocLocked (b.map i) = some (n, m)) :
    (b.set i m).Ok ∧ (b.set i m).Within (2 ^ 31) ∧ b.Has (n + (b.map i).bitOffset) ∧
    b.used (n + (b.map i).bitOffset) = false ∧ (∀ j, (b.set i m).Has j ↔ b.Has j) ∧
    ∀ j, b.Has j → (b.set i m).used j = (decide (j = n + (b.map i).bitOffset) || b.used j) := by
  have hb := small i hi
  obtain ⟨exact, hnum, hoff, hn, hbits⟩ := allocLocked_exact (ok.exact i hi) (by omega) free taken
  refine ⟨ok.set i hnum hoff fun _ => exact, small.set i hnum, ok.has hi hn,
    (ok.used_eq hi hn).trans free, set_has hnum, fun j hj => ?_⟩
  have enc := ok.encode hj
  rw [set_used hnum]
  split <;> rename_i hd
  · rw [hbits]
    simp only [hd] at enc
    congr 1
    · exact decide_eq_decide.mpr (by omega)
    · simp only [used, hd]
  have hne : j ≠ n + (b.map i).bitOffset := by
    rintro rfl
    exact hd (ok.decode hi hn).1
  simp [hne]

/-- A call that succeeds takes a free slot. -/
theorem doSlotAlloc_took {b' : Maps} {cpu : Nat} {slot : Int} (call : doSlotAlloc b cpu = (slot, b'))
    (found : 0 ≤ slot) : ∃ n : Nat, slot = n ∧ b.Has n ∧ b.used n = false ∧ b'.Ok ∧ b'.Within (2 ^ 31) ∧
      (∀ j, b'.Has j ↔ b.Has j) ∧
      ∀ j, b.Has j → b'.used j = (decide (j = n) || b.used j) := by
  rcases doSlotAlloc_cases ok small cpu with ⟨i, n, m, hi, _, hz, taken, eq⟩ | ⟨eq, _⟩
  · obtain ⟨ok', small', has, free, has', used⟩ := allocLocked_used ok small hi hz taken
    cases eq.symm.trans call
    exact ⟨_, rfl, has, free, ok', small', has', used⟩
  · cases eq.symm.trans call
    omega

theorem allocates_exactly (cpu : Nat) : AllocatesExactly b cpu := by
  simp only [AllocatesExactly]
  rcases doSlotAlloc_cases ok small cpu with ⟨i, n, m, hi, hn, hz, taken, hr⟩ | ⟨hr, full⟩
  · obtain ⟨ok', _, has, free, _, after⟩ := allocLocked_used ok small hi hz taken
    have notFull : ¬ ∀ i < b.num, (b.map i).Full := by
      intro full
      have := full i hi n hn
      simp [hz] at this
    rw [hr]
    exact ⟨⟨by intro h; omega, fun h => absurd h notFull⟩, by intro h; omega,
      fun _ => ⟨n + (b.map i).bitOffset, rfl, has, free, after, ok'⟩⟩
  · rw [hr]
    exact ⟨⟨fun _ => full, fun _ => rfl⟩, fun _ => rfl, fun h => absurd rfl h⟩

theorem doSlotFree_spec (hn : b.Has n) (set : b.used n = true) :
    (doSlotFree b n).Ok ∧ (doSlotFree b n).Within (2 ^ 31) ∧ (∀ j, (doSlotFree b n).Has j ↔ b.Has j) ∧
    ∀ j, b.Has j → (doSlotFree b n).used j = (!decide (j = n) && b.used j) := by
  have hi := hn.1
  have hsmall := small _ hi
  have he := clearBit_exact (ok.exact _ hi) (by omega) hn.2 set
  have hfree : doSlotFree b n = b.set (n / (b.map 0).bitNum)
      { b.map (n / (b.map 0).bitNum) with
        dram := clearBit (n % (b.map 0).bitNum) (b.map (n / (b.map 0).bitNum)).dram
        remain := wrap64 ((b.map (n / (b.map 0).bitNum)).remain + 1) } := by
    simp only [doSlotFree, toSize_natCast, hi, if_true]
  generalize hm : n / (b.map 0).bitNum = i at *
  generalize hm' : { b.map i with
    dram := clearBit (n % (b.map 0).bitNum) (b.map i).dram
    remain := wrap64 ((b.map i).remain + 1) : DramBitmap } = m' at *
  rw [hfree]
  have hnum : m'.bitNum = (b.map i).bitNum := by rw [← hm']
  have hoff : m'.bitOffset = (b.map i).bitOffset := by rw [← hm']
  refine ⟨ok.set i hnum hoff (fun _ => he), small.set i hnum, set_has hnum, ?_⟩
  intro j hj
  rw [set_used hnum, ← hm']
  split <;> rename_i hd
  · rw [bit_clearBit]
    have e1 := ok.encode hn
    have e2 := ok.encode hj
    rw [hm] at e1
    rw [hd] at e2
    congr 1
    · congr 1
      exact decide_eq_decide.mpr (by omega)
    · simp only [used, hd]
  have hne : j ≠ n := by
    rintro rfl
    exact hd hm
  simp [hne]

end

theorem SlotState.Ok.take (ok : s.Ok) (small : s.maps.Within (2 ^ 31)) {i : Nat} (hi : i < s.maps.num)
    (free : bit (s.maps.map i).dram n = false) (taken : allocLocked (s.maps.map i) = some (n, m)) :
    (⟨s.maps.set i m, (n + (s.maps.map i).bitOffset) :: s.out⟩ : SlotState).Ok ∧
    (s.maps.set i m).Within (2 ^ 31) := by
  obtain ⟨ok', within, has, clear, has', after⟩ := allocLocked_used ok.maps small hi free taken
  refine ⟨⟨ok', nodup_cons.mpr ⟨fun held => ?_, ok.once⟩, ?_⟩, within⟩
  · have := (ok.held _ held).2
    simp [clear] at this
  intro j hj
  cases hj with
  | head => exact ⟨(has' _).mpr has, by rw [after _ has]; simp⟩
  | tail _ hj =>
    have held := ok.held j hj
    exact ⟨(has' j).mpr held.1, by rw [after j held.1]; simp [held.2]⟩

theorem SlotState.Ok.give (ok : s.Ok) (small : s.maps.Within (2 ^ 31)) (held : n ∈ s.out) :
    (⟨doSlotFree s.maps n, s.out.erase n⟩ : SlotState).Ok ∧ (doSlotFree s.maps n).Within (2 ^ 31) := by
  obtain ⟨hn, set⟩ := ok.held n held
  obtain ⟨ok', within, has', after⟩ := doSlotFree_spec ok.maps small hn set
  refine ⟨⟨ok', ok.once.erase n, ?_⟩, within⟩
  intro j hj
  obtain ⟨hne, hm⟩ := (List.Nodup.mem_erase_iff ok.once).mp hj
  have hold := ok.held j hm
  exact ⟨(has' j).mpr hold.1, by rw [after j hold.1]; simp [hne, hold.2]⟩

theorem SlotStep.ok {t : SlotState} (h : s.Ok ∧ s.maps.Within (2 ^ 31)) (step : SlotStep s t) :
    t.Ok ∧ t.maps.Within (2 ^ 31) := by
  obtain ⟨ok, small⟩ := h
  cases step with
  | refuse cpu none =>
    have same := (allocates_exactly ok.maps small cpu).2.1 none
    simp only [same]
    exact ⟨ok, small⟩
  | alloc cpu n got =>
    rcases doSlotAlloc_cases ok.maps small cpu with ⟨i, k, m, hi, hk, hz, taken, hr⟩ | ⟨hr, _⟩
    · rw [hr] at got ⊢
      obtain rfl := Int.ofNat_inj.mp got
      exact ok.take small hi hz taken
    · rw [hr] at got
      omega
  | free n held => exact ok.give small held

/-- In every run over maps of at most `2 ^ 31` bits no slot is outstanding
twice, `remain` stays exact, and every allocation takes one free slot as long as
there is one, whichever map its CPU starts at. -/
theorem single_slot_runs {s t : SlotState} (ok : s.Ok) (small : s.maps.Within (2 ^ 31))
    (run : Run SlotStep s t) : t.Ok ∧ ∀ cpu, AllocatesExactly t.maps cpu := by
  have inv := Run.invariant (I := fun s => s.Ok ∧ s.maps.Within (2 ^ 31)) SlotStep.ok run ⟨ok, small⟩
  exact ⟨inv.1, allocates_exactly inv.1.maps inv.2⟩

theorem single_slot_runs_once :
    (⟨(doSlotAlloc (emptyMaps 8) 0).2, [0]⟩ : SlotState).Ok ∧
    ∀ cpu, AllocatesExactly (doSlotAlloc (emptyMaps 8) 0).2 cpu :=
  single_slot_runs (s := ⟨emptyMaps 8, []⟩)
    ⟨emptyMaps_ok 8, nodup_nil, fun _ h => nomatch h⟩ (fun _ _ => show 8 ≤ 2 ^ 31 by decide)
    (.single (SlotStep.alloc 0 0 (by decide)))

/-- A map of `2 ^ 31 + 1` bits in which only the last bit is clear. -/
def wideMap : DramBitmap where
  dram := fun a => if a < 2 ^ 28 then 0xff#8 else 0#8
  bitOffset := 0
  bitNum := 2 ^ 31 + 1
  remain := 1
  hint := 0

theorem wideMap_bit (i : Nat) : bit wideMap.dram i = decide (i < 2 ^ 31) := by
  have h8 : i % 8 < 8 := Nat.mod_lt _ (by decide)
  have ones : (0xff#8).getLsbD (i % 8) = true := by interval_cases i % 8 <;> decide
  simp only [bit, wideMap]
  by_cases h : i < 2 ^ 31
  · rw [if_pos (by omega), decide_eq_true h, ones]
  · rw [if_neg (by omega), decide_eq_false h, BitVec.getLsbD_zero]

theorem wideMap_exact : wideMap.Exact := by
  refine ⟨?_, by decide⟩
  have last (n : Nat) (before : ∀ i < n, bit wideMap.dram i = true)
      (free : bit wideMap.dram n = false) :
      Nat.count (fun i => bit wideMap.dram i = false) (n + 1) = 1 := by
    have none : Nat.count (fun i => bit wideMap.dram i = false) n = 0 :=
      Nat.count_iff_forall_not.mpr fun i hi => by simp [before i hi]
    rw [Nat.count_succ, none, if_pos free]
  refine (last (2 ^ 31) ?_ ?_).symm
  · intro i hi
    rw [wideMap_bit, decide_eq_true hi]
  · rw [wideMap_bit, decide_eq_false (lt_irrefl _)]

theorem searchZero_beyond (hint : m.hint = 0) (size : m.bitNum = 2 ^ 31 + 1)
    (bits : ∀ i, bit m.dram i = decide (i < 2 ^ 31)) : searchZero m = 0 := by
  have hscan : Search.scan (fun i => !bit m.dram i) (2 ^ 31 + 1) 0 = 2 ^ 31 := by
    rcases Search.scan_cases (fun i => !bit m.dram i) (Nat.zero_le (2 ^ 31 + 1)) with
      ⟨_, hlt, found, _⟩ | ⟨_, none⟩
    · rw [bits] at found
      simp only [Bool.not_eq_true', decide_eq_false_iff_not] at found
      omega
    · have := none (2 ^ 31) (Nat.zero_le _) (by omega)
      rw [bits, decide_eq_false (lt_irrefl _)] at this
      cases this
  have big : 2 ^ 31 + 1 ≤ 2 ^ 64 - 2 ^ 31 := by decide
  simp only [searchZero, nextZeroBit_eq, hint, size]
  rw [hscan, toSize_toInt32_limit, if_pos big, Search.scan_eq_size _ le_rfl (by omega),
    toSize_toInt32 (by decide)]

/-- A single map whose search comes back with a set bit hands that slot out
again. -/
theorem single_map_reissues (exact : m.Exact) (offset : m.bitOffset = 0) (found : searchZero m = 0)
    (size : 0 < m.bitNum) (remain : m.remain > 0) (set : bit m.dram 0 = true) :
    let s : SlotState := ⟨⟨1, fun _ => m⟩, [0]⟩
    s.Ok ∧ SlotStep s ⟨(doSlotAlloc s.maps 0).2, [0, 0]⟩ ∧
    ¬ (⟨(doSlotAlloc s.maps 0).2, [0, 0]⟩ : SlotState).Ok ∧ ¬ AllocatesExactly s.maps 0 := by
  intro s
  have got : (doSlotAlloc s.maps 0).1 = (0 : Nat) := by
    simp [s, doSlotAlloc, visitMaps, visitLoop, allocVisit, allocLocked, found, size, remain, offset]
  have used : s.maps.used 0 = true := by
    simpa [s, used] using set
  refine ⟨⟨⟨⟨Nat.one_pos, fun _ _ => rfl, fun _ _ => le_rfl, ?_⟩, fun _ _ => exact⟩,
    nodup_singleton 0, ?_⟩, SlotStep.alloc 0 0 got, fun h => ?_, fun h => ?_⟩
  · intro i hi
    obtain rfl : i = 0 := Nat.lt_one_iff.mp hi
    simpa using offset
  · intro n hn
    rw [mem_singleton.mp hn]
    exact ⟨⟨by simp [s], by simpa [s] using size⟩, used⟩
  · simpa using h.once
  obtain ⟨n, hn, _, clear, _⟩ := h.2.2 (by rw [got]; decide)
  rw [got] at hn
  rw [← Int.ofNat_inj.mp hn, used] at clear
  cases clear

/-- One bit beyond `2 ^ 31` the only free position comes back negative, the
second search has nothing to look at, and slot 0 is handed out although it is
already outstanding. -/
theorem wide_map_reissues :
    let s : SlotState := ⟨⟨1, fun _ => wideMap⟩, [0]⟩
    s.Ok ∧ SlotStep s ⟨(doSlotAlloc s.maps 0).2, [0, 0]⟩ ∧
    ¬ (⟨(doSlotAlloc s.maps 0).2, [0, 0]⟩ : SlotState).Ok ∧ ¬ AllocatesExactly s.maps 0 :=
  single_map_reissues wideMap_exact rfl (searchZero_beyond rfl rfl wideMap_bit) (Nat.succ_pos _)
    Nat.one_pos (wideMap_bit 0)

end SlotFs
