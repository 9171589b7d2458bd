import SlotFs.ExtentBlocks

/-!
# Runs of `file_append_entry`

Any sequence of extents entered in one file. Between two calls the blocks of the
next extent are taken from the bitmap; a call that fails leaves them taken.
-/

namespace SlotFs
open CWord Runs

variable {b : Maps} {fents : Nat → Filent} {m : Nat → Option Nat} {outside : Nat → Prop} {s : AppendState}

/-- The maps `b'` are `b` with the free slots `p` to `p + n` taken. -/
structure Taken (b : Maps) (p n : Nat) (b' : Maps) : Prop where
  laid : b'.Laid
  has : ∀ j, b'.Has j ↔ b.Has j
  free : ∀ j, p ≤ j → j < p + n → b.Has j ∧ b.used j = false
  used : ∀ j, b.Has j → (b'.used j = true ↔ b.used j = true ∨ p ≤ j ∧ j < p + n)

theorem Taken.placed {b' : Maps} {p n : Nat} (h : Taken b p n b') (placed : Placed outside m fents b) :
    Placed (fun b => outside b ∨ p ≤ b ∧ b < p + n) m fents b' := by
  refine ⟨placed.apart, h.laid, fun b hb => ?_, fun b hb => ?_⟩
  · obtain ⟨has, inside⟩ := placed.owns b hb
    refine ⟨(h.has b).mpr has, ?_⟩
    rintro (ho | ⟨lo, hi⟩)
    · exact inside ho
    · have set := (placed.bits b has).mpr (.inr hb)
      cases ((h.free b lo hi).2).symm.trans set
  · have has := (h.has b).mp hb
    rw [h.used b has, placed.bits b has, or_right_comm]

theorem Taken.new {b' : Maps} {p n : Nat} (h : Taken b p n b') (placed : Placed outside m fents b) (j : Nat)
    (lo : p ≤ j) (hi : j < p + n) : b'.Has j ∧ ¬ outside j := by
  obtain ⟨has, free⟩ := h.free j lo hi
  refine ⟨(h.has j).mpr has, fun ho => ?_⟩
  have set := (placed.bits j has).mpr (.inl ho)
  cases free.symm.trans set

theorem Taken.of_mark (h : b.Laid) {i s c : Nat} (hi : i < b.num) (fits : s + c ≤ (b.map i).bitNum)
    (free : ∀ j, s ≤ j → j < s + c → bit (b.map i).dram j = false) (marked : markedLength s c = c) :
    Taken b (s + (b.map i).bitOffset) c (b.set i (markRange (b.map i) s c)) := by
  refine ⟨h.set i rfl rfl, Maps.set_has rfl, fun j lo hj => ?_, fun j hj => ?_⟩
  · obtain ⟨has, used⟩ := h.inside hi fits lo hj
    exact ⟨has, by rw [used]; exact free _ (by omega) (by omega)⟩
  · rw [markRange_used h hi fits hj, marked]
    simp [or_comm]

/-- One file under a sequence of calls. History keeps the blocks that are in use
for something else and the extents entered so far. -/
structure AppendState where
  storage : Storage
  inode : Inode
  outside : Nat → Prop
  installed : List (Nat × Nat)

/-- The storage in which the maps of the data blocks are `maps`. -/
def Storage.withMaps (s : Storage) (maps : Maps) : Storage :=
  { s with data := { s.data with maps } }

inductive AppendStep (allowed : PmFilent → Prop) (s : AppendState) : AppendState → Prop
  | append (env : Env) (entry : PmFilent) (maps : Maps) (fe : Nat) (inode : Inode) (storage : Storage)
      (nonempty : 1 ≤ entry.blocks) (ask : allowed entry)
      (fresh : Taken s.storage.data.maps entry.pIdx entry.blocks maps)
      (call : fileAppendEntry env (s.storage.withMaps maps) s.inode entry =
        some (.ok fe, inode, storage)) :
      AppendStep allowed s
        ⟨storage, inode, s.outside, (entry.pIdx, entry.blocks) :: s.installed⟩
  | fail (env : Env) (entry : PmFilent) (maps : Maps) (e : Int) (inode : Inode) (storage : Storage)
      (nonempty : 1 ≤ entry.blocks) (ask : allowed entry)
      (fresh : Taken s.storage.data.maps entry.pIdx entry.blocks maps)
      (call : fileAppendEntry env (s.storage.withMaps maps) s.inode entry =
        some (.error e, inode, storage)) :
      AppendStep allowed s
        ⟨storage, inode, fun b => s.outside b ∨ entry.pIdx ≤ b ∧ b < entry.pIdx + entry.blocks,
          s.installed⟩

structure AppendState.Ok (s : AppendState) : Prop where
  indexed : Indexed s.inode
  placed : Placed s.outside (btreeGet s.inode.bRoot) s.inode.fents s.storage.data.maps
  accounted : Accounted s.installed s.storage.data.freed (btreeGet s.inode.bRoot) s.inode.fents

/-- The tree, the counts, the reusable entries and the bitmap agree: every key
leads to a listed entry whose extent covers it, `ref` counts the keys of an entry,
`invalid` lists the entries without keys, each block was given back once for every
time it was entered unless it is mapped now, and a block in use is mapped or in use
for something else. -/
structure AppendState.Consistent (s : AppendState) : Prop where
  cover : ∀ k fe, btreeGet s.inode.bRoot k = some fe → fe ∈ s.inode.list ∧
    (s.inode.fents fe).lIdx ≤ k ∧ k < (s.inode.fents fe).lIdx + (s.inode.fents fe).blocks
  ref : ∀ fe ∈ s.inode.list,
    (s.inode.fents fe).ref = {k | btreeGet s.inode.bRoot k = some fe}.ncard
  invalid : s.inode.invalid.Nodup ∧
    ∀ fe, fe ∈ s.inode.invalid ↔ fe ∈ s.inode.list ∧ (s.inode.fents fe).ref = 0
  freed : Accounted s.installed s.storage.data.freed (btreeGet s.inode.bRoot) s.inode.fents
  bits : ∀ b, s.storage.data.maps.Has b → (s.storage.data.maps.used b = true ↔
    s.outside b ∨ Mapped (btreeGet s.inode.bRoot) s.inode.fents b)

theorem AppendState.Ok.consistent (ok : s.Ok) : s.Consistent where
  cover := fun k fe hk => ⟨ok.indexed.booked.balanced.owned k fe hk, ok.indexed.booked.cover k fe hk⟩
  ref := ok.indexed.booked.balanced.counts
  invalid := ⟨ok.indexed.booked.balanced.once, ok.indexed.booked.balanced.idles⟩
  freed := ok.accounted
  bits := ok.placed.bits

theorem AppendStep.ok {t : AppendState} (ok : s.Ok) (step : AppendStep IntSized s t) : t.Ok := by
  cases step with
  | append env entry maps fe inode storage nonempty sized fresh call =>
    obtain ⟨c, inode1, files, inode', choice, appended, eq⟩ | ⟨refused, num, eq⟩ :=
      fileAppendEntry_cases ok.indexed nonempty sized.2 env (s.storage.withMaps maps)
    · cases eq.symm.trans call
      have taken : Placed (fun b => s.outside b ∨ entry.pIdx ≤ b ∧ b < entry.pIdx + entry.blocks)
          (btreeGet s.inode.bRoot) s.inode.fents (s.storage.withMaps maps).data.maps :=
        fresh.placed ok.placed
      exact ⟨appended.indexed,
        (appended.placed choice ok.indexed sized taken (fresh.new ok.placed)).1,
        appended.accounted choice ok.indexed sized taken ok.accounted⟩
    · cases eq.symm.trans call
  | fail env entry maps e inode storage nonempty sized fresh call =>
    obtain ⟨c, inode1, files, inode', choice, appended, eq⟩ | ⟨refused, num, eq⟩ :=
      fileAppendEntry_cases ok.indexed nonempty sized.2 env (s.storage.withMaps maps)
    · cases eq.symm.trans call
    · cases eq.symm.trans call
      exact ⟨ok.indexed.recount num, fresh.placed ok.placed, ok.accounted⟩

/-- Whatever the floating-point test says, every run of calls whose extents have
`int`-sized block numbers keeps the extent index consistent. -/
theorem extent_index_runs {s t : AppendState} (ok : s.Ok) (run : Run (AppendStep IntSized) s t) :
    t.Consistent :=
  (Run.invariant (I := AppendState.Ok) AppendStep.ok run ok).consistent

/-! ## Concrete files -/

/-- Nothing stored yet, with maps of `bits` slots. -/
def blankStorage (bits : Nat) : Storage :=
  ⟨⟨emptyMaps bits, []⟩, emptyMaps bits, fun _ => .zero⟩

/-- Always append, and never find a run of blocks. -/
def plainEnv : Env := ⟨fun _ _ => none, fun _ => 0, fun _ _ _ => true⟩

theorem emptyMaps_used (bits n : Nat) : (emptyMaps bits).used n = false := BitVec.getLsbD_zero

/-- A new file on blank storage. -/
theorem blank_ok {inode : Inode} (h : Indexed inode) (empty : ∀ k, btreeGet inode.bRoot k = none)
    (bits : Nat) : (⟨blankStorage bits, inode, fun _ => False, []⟩ : AppendState).Ok := by
  have unmapped (b : Nat) : ¬ Mapped (btreeGet inode.bRoot) inode.fents b := by
    rintro ⟨k, hk⟩
    simp [physOf, empty] at hk
  refine ⟨h, ⟨?_, (emptyMaps_ok bits).toLaid, ?_, ?_⟩, fun b => ⟨?_, fun _ => rfl⟩⟩
  · intro k j b hk
    exact absurd ⟨k, hk⟩ (unmapped b)
  · exact fun b hb => absurd hb (unmapped b)
  · intro b _
    simp only [blankStorage, emptyMaps_used, unmapped b]
    simp
  · exact fun hb => absurd hb (unmapped b)

/-- A granted call is a step. -/
theorem AppendStep.exists (allowed : PmFilent → Prop) (s : AppendState) (indexed : Indexed s.inode)
    (granted : ∀ n, s.inode.arena.grants n = true) (entry : PmFilent) (nonempty : 1 ≤ entry.blocks)
    (small : entry.blocks < 2 ^ 31) (ask : allowed entry) {maps : Maps}
    (fresh : Taken s.storage.data.maps entry.pIdx entry.blocks maps) :
    ∃ c inode1 t, AppendStep allowed s t ∧ Appended s.inode inode1 entry c t.inode ∧
      t.outside = s.outside ∧ t.installed = (entry.pIdx, entry.blocks) :: s.installed ∧
      (∀ fe, fe ≠ c.fe → (fillEntry inode1 c entry).fents fe = s.inode.fents fe) ∧
      t.storage.data = (overwritten (btreeGet s.inode.bRoot) entry.lIdx entry.blocks
        (fillEntry inode1 c entry) ⟨maps, s.storage.data.freed⟩).2 := by
  obtain ⟨c, inode1, files, inode', choice, appended, eq⟩ | ⟨refused, _⟩ :=
    fileAppendEntry_cases indexed nonempty small plainEnv (s.storage.withMaps maps)
  · exact ⟨c, inode1, _, .append plainEnv entry maps _ _ _ nonempty ask fresh eq, appended,
      rfl, rfl, fun fe other => choice.fill_other entry other, rfl⟩
  · rw [granted] at refused
    cases refused

theorem extent_index_runs_once :
    ∃ s t : AppendState, s.Ok ∧ Run (AppendStep IntSized) s t ∧ t.installed = [(8, 2)] ∧
      t.Consistent := by
  obtain ⟨inode, _, indexed, empty, _, granted⟩ :=
    newInode_indexed 1 0 (fun _ => true) (fun _ => rfl)
  have ok := blank_ok indexed empty 64
  have fresh : Taken (emptyMaps 64) 8 2 _ := Taken.of_mark (emptyMaps_ok 64).toLaid (i := 0) (s := 8)
    (c := 2) (by decide) (by decide) (fun _ _ _ => BitVec.getLsbD_zero) (by decide)
  obtain ⟨_, _, t, step, _, _, installed, _⟩ := AppendStep.exists IntSized
    ⟨blankStorage 64, inode, fun _ => False, []⟩ indexed (by simp [granted])
    ⟨0, 8, 2, 1, 0, by decide⟩ (by decide) (by decide) ⟨by decide, by decide⟩ fresh
  exact ⟨_, t, ok, .single step, installed, extent_index_runs ok (.single step)⟩

/-- Block `2 ^ 31` is written twice. The callback is told that block `-2 ^ 31`
was overwritten, and block 10 stays in use although nothing leads to it. -/
theorem far_block_not_freed :
    ∃ s t : AppendState, s.Ok ∧ Run (AppendStep fun _ => True) s t ∧
      t.installed = [(11, 1), (10, 1)] ∧ t.storage.data.freed = [(10 - 2 ^ 32, 1)] ∧
      ¬ t.Consistent := by
  obtain ⟨inode, _, indexed, empty, _, granted⟩ :=
    newInode_indexed 1 0 (fun _ => true) (fun _ => rfl)
  have ok := blank_ok indexed empty 64
  have fresh : Taken (emptyMaps 64) 10 1 _ := Taken.of_mark (emptyMaps_ok 64).toLaid (i := 0) (s := 10)
    (c := 1) (by decide) (by decide) (fun _ _ _ => BitVec.getLsbD_zero) (by decide)
  obtain ⟨c, _, s, step, appended, _, installed, _, data⟩ := AppendStep.exists (fun _ => True)
    ⟨blankStorage 64, inode, fun _ => False, []⟩ indexed (by simp [granted])
    ⟨2 ^ 31, 10, 1, 1, 0, by decide⟩ (by decide) (by decide) trivial fresh
  simp only [overwritten, overRange, empty] at data
  obtain ⟨maps, fresh'⟩ : ∃ maps, Taken s.storage.data.maps 11 1 maps := by
    rw [data]
    exact ⟨_, Taken.of_mark fresh.laid (i := 0) (s := 11) (c := 1) (by decide) (by decide)
      (fun j lo hi => by rw [show j = 11 by omega]; decide) (by decide)⟩
  obtain ⟨c', _, t, step', appended', _, installed', others, data'⟩ :=
    AppendStep.exists (fun _ => True) s appended.indexed
    (by simp [appended.same.2.2.2.2, granted]) ⟨2 ^ 31, 11, 1, 2, 0, by decide⟩ (by decide) (by decide)
    trivial fresh'
  obtain ⟨ref, filled⟩ := appended.filled
  obtain ⟨ref', filled'⟩ := appended'.filled
  have mapped : btreeGet s.inode.bRoot (2 ^ 31) = some c.fe := by
    rw [appended.map]
    simp [given]
  have other : c.fe ≠ c'.fe := fun e => appended'.unmapped _ (e ▸ mapped)
  have freed : t.storage.data.freed = [(10 - 2 ^ 32, 1)] := by
    simp only [data', overwritten, overRange, mapped, filentInsertCallback, slotDataFree,
      others _ other, filled, data, blankStorage, Filent.block]
    decide
  have both : t.installed = [(11, 1), (10, 1)] := by rw [installed', installed]
  refine ⟨_, t, ok, .tail (.single step) step', both, freed, fun bad => ?_⟩
  have unmapped : ¬ Mapped (btreeGet t.inode.bRoot) t.inode.fents 10 := by
    rintro ⟨k, hk⟩
    rw [appended'.map, appended.map] at hk
    by_cases e : k = 2 ^ 31
    · subst e
      simp [physOf, given, filled'] at hk
    · have outside : ¬ (2 ^ 31 ≤ k ∧ k < 2 ^ 31 + 1) := by omega
      simp only [physOf, given, if_neg outside, empty] at hk
      cases hk
  have count := (bad.freed 10).2 unmapped
  rw [both, freed] at count
  exact absurd count (by decide)

end SlotFs
