import SlotFs.ScatterLog
import SlotFs.WriteContent

/-!
# A crash between the log updates of a write

Every extent of a write is one update of the log, and nothing in a record says how
many there are. After a crash the log is what recovery finds in PM: the chain of
records, of which the newest counts for each block.
-/

namespace SlotFs
open CWord Chains List Option

variable {inode inode' : Inode} {k : Nat} {r : PmFilent} {records : List PmFilent} {s s' : Storage}

/-! ## What the log says -/

instance (r : PmFilent) (k : Nat) : Decidable (r.Covers k) :=
  inferInstanceAs (Decidable (r.lIdx ≤ k ∧ k < r.lIdx + r.blocks))

/-- The newest record for block `k`. -/
def newestOf (k : Nat) : List PmFilent → Option PmFilent
  | [] => none
  | r :: rest =>
    match newestOf k rest with
    | none => if r.Covers k then some r else none
    | some best => if r.Covers k ∧ best.ts < r.ts then some r else some best

theorem newestOf_none (free : ∀ r ∈ records, ¬ r.Covers k) : newestOf k records = none := by
  induction records with
  | nil => rfl
  | cons r rest ih =>
    obtain ⟨first, later⟩ := forall_mem_cons.mp free
    simp [newestOf, ih later, first]

theorem newestOf_eq_none (none : newestOf k records = none) : ∀ r ∈ records, ¬ r.Covers k := by
  induction records with
  | nil => exact fun _ member => absurd member not_mem_nil
  | cons a rest ih =>
    simp only [newestOf] at none
    split at none
    · split at none
      · cases none
      · exact forall_mem_cons.mpr ⟨by assumption, ih (by assumption)⟩
    · split at none <;> cases none

theorem newestOf_mem (found : newestOf k records = some r) : r ∈ records ∧ r.Covers k := by
  induction records generalizing r with
  | nil => cases found
  | cons a rest ih =>
    simp only [newestOf] at found
    split at found
    · split at found
      · cases found
        exact ⟨mem_cons_self .., by assumption⟩
      · cases found
    rename_i best eq
    split at found
    · rename_i newer
      cases found
      exact ⟨mem_cons_self .., newer.1⟩
    · cases found
      obtain ⟨member, covers⟩ := ih eq
      exact ⟨mem_cons_of_mem _ member, covers⟩

theorem newestOf_eq (member : r ∈ records) (covers : r.Covers k)
    (newest : ∀ o ∈ records, o.Covers k → o = r ∨ o.ts < r.ts) : newestOf k records = some r := by
  induction records with
  | nil => cases member
  | cons a rest ih =>
    obtain ⟨first, later⟩ := forall_mem_cons.mp newest
    rcases mem_cons.mp member with rfl | inside
    · simp only [newestOf]
      split
      · rw [if_pos covers]
      rename_i best eq
      obtain ⟨listed, covered⟩ := newestOf_mem eq
      rcases later best listed covered with rfl | older
      · simp
      · rw [if_pos ⟨covers, older⟩]
    simp only [newestOf, ih inside later]
    split
    · rename_i newer
      rcases first newer.1 with rfl | older
      · rfl
      · omega
    · rfl

/-- `phys` is the mapping that the records on the chain give, from `log_head` to the
ghost slot. -/
def ChainMaps (inode : Inode) (s : Storage) (phys : Nat → Option Nat) : Prop :=
  ∃ slots, Chain s.next inode.ghostSlot inode.logHead slots ∧
    ∀ k, phys k = (newestOf k (slots.map s.fentTable)).map fun r => r.pIdx + (k - r.lIdx)

theorem ChainMaps.unique {phys phys' : Nat → Option Nat} (h : ChainMaps inode s phys)
    (h' : ChainMaps inode s phys') : phys = phys' := by
  obtain ⟨slots, chain, eq⟩ := h
  obtain ⟨slots', chain', eq'⟩ := h'
  obtain rfl := chain.unique chain'
  funext k
  rw [eq, eq']

theorem ScatterLog.chainMaps (h : ScatterLog inode s) : ChainMaps inode s inode.phys := by
  obtain ⟨chain, mapped, free⟩ := h.determines
  refine ⟨inode.slots, chain, fun k => ?_⟩
  cases found : filentLookup inode k with
  | none =>
    rw [newestOf_none (forall_mem_map.mpr ((free k).mp found))]
    simpa [Inode.phys, physOf, filentLookup] using found
  | some f =>
    obtain ⟨slot, member, _, records, covers, newest⟩ := mapped k f found
    have best : newestOf k (inode.slots.map s.fentTable) = some (s.fentTable slot) := by
      apply newestOf_eq (mem_map_of_mem member) covers
      rintro _ listed covered
      obtain ⟨other, inside, rfl⟩ := mem_map.mp listed
      by_cases e : other = slot
      · exact .inl (e ▸ rfl)
      · exact .inr (newest other inside e covered)
    obtain ⟨fe, hk, rfl⟩ := map_eq_some_iff.mp found
    rw [best, Inode.phys, physOf, hk, map_some, map_some, records.pIdx, records.lIdx]

/-! ## Crash points -/

/-- The log after at most `n` of the updates that follow the loop of a write. -/
def crashBlocks (env : Env) (sbi : Sbi) (inode : Inode) (buf : Mem) (len offset n : Nat) :
    Option (Except Int Unit × Inode × Storage) :=
  (writeLoop env buf len offset (ebufSize + 2)
    ⟨sbi, inode, offset, len, 0, blockCount len offset, []⟩).bind fun w =>
      appendUnits env (wrap64 (w.sbi.ts + 1)) (w.ebuf.take n) w.inode w.sbi.storage

/-- `inode_write_atomic` up to a crash after at most `n` updates of the log. -/
def inodeWriteCrash (env : Env) (sbi : Sbi) (inode : Inode) (buf : Mem) (len offset n : Nat) :
    Option (Except Int Unit × Inode × Storage) :=
  if inode.journals len offset then
    let (ret, sbi) := inodeWriteJournal sbi inode buf len offset
    if ret > 0 then some (.ok (), inode, sbi.storage)
    else crashBlocks env sbi inode buf len offset n
  else crashBlocks env sbi inode buf len offset n

/-- At every crash point the log gives the mapping before the write or the one after it,
which leaves the file as `inode'` over `s'`. -/
def CrashAtomic (env : Env) (sbi : Sbi) (inode : Inode) (buf : Mem) (len offset : Nat) (inode' : Inode)
    (s' : Storage) : Prop :=
  ∀ n r inode1 s1, inodeWriteCrash env sbi inode buf len offset n = some (r, inode1, s1) →
    ∀ phys, ChainMaps inode1 s1 phys → ChainMaps inode sbi.storage phys ∨ ChainMaps inode' s' phys

/-- The first answer of the allocator serves the whole request. -/
def AtOnce (env : Env) (b : Maps) (n : Nat) : Prop := n = 0 ∨ ∃ i s, env.pick b n = some (i, s, n)

theorem Served.atOnce_iff {env : Env} {ok : Maps → Nat → Nat → Nat → Prop} {b b' : Maps} {n : Nat}
    {runs : List (Nat × Nat)} (served : Served env ok b n runs b') : AtOnce env b n ↔ runs.length ≤ 1 := by
  cases served with
  | done => simp [AtOnce]
  | @more _ _ _ i s c runs pick least most good rest =>
    have few : (((s + (b.map i).bitOffset, c) :: runs).length ≤ 1) ↔ n - c = 0 := by
      constructor
      · intro short
        obtain rfl : runs = [] := length_eq_zero_iff.mp (by simpa using short)
        exact rest.total.symm
      · intro whole
        obtain rfl : runs = [] := total_eq_zero rest.positive (rest.total.trans whole)
        simp
    rw [few]
    constructor
    · rintro (zero | ⟨_, _, whole⟩)
      · omega
      · cases pick.symm.trans whole
        omega
    · intro whole
      obtain rfl : c = n := by omega
      exact .inr ⟨i, s, pick⟩

/-! ## A prefix of the log -/

theorem layout_take (start n : Nat) (runs : List (Nat × Nat)) :
    (layout start runs).take n = layout start (runs.take n) := by
  induction runs generalizing start n with
  | nil => simp [layout]
  | cons run rest ih =>
    cases n with
    | zero => simp [layout]
    | succ n => simp [layout, ih]

theorem appendUnits_take {env : Env} {ts n : Nat} {units : List EntryUnit}
    (call : appendUnits env ts units inode s = some (.ok (), inode', s')) :
    ∃ inode1 s1, appendUnits env ts (units.take n) inode s = some (.ok (), inode1, s1) := by
  induction units generalizing inode s n with
  | nil => exact ⟨inode, s, by simp [appendUnits]⟩
  | cons u rest ih =>
    cases n with
    | zero => exact ⟨inode, s, rfl⟩
    | succ n =>
      simp only [take_succ_cons, appendUnits] at call ⊢
      split at call
      · cases call
      · cases call
      · exact ih call

theorem inodeWriteCrash_path (env : Env) (sbi : Sbi) (inode : Inode) (buf : Mem) (len offset : Nat) :
    (∃ ret sbi', inodeWriteAtomic env sbi inode buf len offset = some (ret, inode, sbi') ∧
      sbi'.storage = sbi.storage ∧ blockCount len offset = 1 ∧
      ∀ n, inodeWriteCrash env sbi inode buf len offset n = some (.ok (), inode, sbi.storage)) ∨
    ∃ sbi1 : Sbi, sbi1.storage = sbi.storage ∧ sbi1.ts = sbi.ts ∧
      inodeWriteAtomic env sbi inode buf len offset =
        writeBlocks env sbi1 inode buf len offset (blockCount len offset) ∧
      ∀ n, inodeWriteCrash env sbi inode buf len offset n = crashBlocks env sbi1 inode buf len offset n := by
  have shared : (inodeWriteJournal sbi inode buf len offset).2.storage = sbi.storage ∧
      (inodeWriteJournal sbi inode buf len offset).2.ts = sbi.ts := by
    unfold inodeWriteJournal
    split <;> exact ⟨rfl, rfl⟩
  unfold inodeWriteAtomic inodeWriteCrash
  split
  · rename_i small
    have one : blockCount len offset = 1 := by
      simp only [Inode.journals, Bool.and_eq_true, beq_iff_eq] at small
      exact small.1.1
    generalize inodeWriteJournal sbi inode buf len offset = out at shared
    obtain ⟨ret, sbi1⟩ := out
    dsimp only at shared ⊢
    split
    · exact Or.inl ⟨ret, sbi1, rfl, shared.1, one, fun _ => by rw [shared.1]⟩
    · exact .inr ⟨sbi1, shared.1, shared.2, rfl, fun _ => rfl⟩
  · exact .inr ⟨sbi, rfl, rfl, rfl, fun _ => rfl⟩

section
variable {env : Env} {sbi sbi' : Sbi} {inode inode' : Inode} {buf : Mem} {len offset : Nat}
  {runs : List (Nat × Nat)} {maps : Maps} {ret : Int}

/-- A write goes in place, with nothing to crash between, or its crash points are the
beginnings of its log. -/
theorem inodeWriteCrash_cases
    (served : Served env (fun _ _ _ _ => True) sbi.storage.data.maps (blockCount len offset) runs maps)
    (far : offset + len < 2 ^ 63)
    (call : inodeWriteAtomic env sbi inode buf len offset = some (ret, inode', sbi')) (done : 0 ≤ ret) :
    (blockCount len offset ≤ 1 ∧ ∀ n, ∃ size, inodeWriteCrash env sbi inode buf len offset n =
      some (.ok (), { inode with iSize := size }, sbi.storage)) ∨
    ∃ inode1 size, inode' = { inode1 with iSize := size } ∧
      appendUnits env (wrap64 (sbi.ts + 1)) (layout (offset / 4096) runs) inode
        (sbi.storage.withMaps maps) = some (.ok (), inode1, sbi'.storage) ∧
      ∀ n, inodeWriteCrash env sbi inode buf len offset n = appendUnits env (wrap64 (sbi.ts + 1))
        (layout (offset / 4096) (runs.take n)) inode (sbi.storage.withMaps maps) := by
  obtain ⟨_, _, _, _, one, crash⟩ | ⟨sbi1, same, clock, path, crash⟩ :=
    inodeWriteCrash_path env sbi inode buf len offset
  · exact .inl ⟨one.le, fun n => ⟨inode.iSize, crash n⟩⟩
  rw [path] at call
  obtain ⟨w, loop, log⟩ := bind_eq_some_iff.mp call
  rw [← same] at served
  have points (n : Nat) : inodeWriteCrash env sbi inode buf len offset n =
      appendUnits env (wrap64 (w.sbi.ts + 1)) (w.ebuf.take n) w.inode w.sbi.storage := by
    rw [crash, crashBlocks, loop, bind_some]
  rcases writeLoop_rule (J := fun _ _ => True) (by exact served) far trivial
    (fun _ _ _ _ _ _ _ _ _ => trivial) loop with inPlace | ⟨progress, _⟩
  · refine .inl ⟨?_, fun n => ⟨max inode.iSize (offset + len), ?_⟩⟩
    · have fits := inPlace.fits
      rw [blockCount_eq far]
      omega
    · rw [points, inPlace.ebuf, inPlace.file, inPlace.shared.1, same, take_nil]
      rfl
  obtain ⟨r, inode1, storage, append, rfl, result⟩ := writeLog_cases log
  have shared := progress.shared
  have final : w.sbi.storage.data.maps = maps := progress.served.maps
  have ts : w.sbi.ts = sbi.ts := by rw [shared]; exact clock
  have before : w.sbi.storage = sbi.storage.withMaps maps := by
    rw [shared, final, same]
  rw [progress.ebuf, progress.file, ts, before] at append
  obtain ⟨rfl, _⟩ | ⟨rfl, _, rfl⟩ := result
  · exact absurd (appendUnits_negative append) (by omega)
  · refine .inr ⟨inode1, _, rfl, append, fun n => ?_⟩
    rw [points, progress.ebuf, progress.file, ts, before, layout_take]

/-- The log after some extents of a write: they lie over the old blocks. -/
theorem appendUnits_chainMaps (ok : (⟨inode, sbi⟩ : LogFile).Ok) {start : Nat}
    (keyed : ∀ u ∈ layout start runs, u.Keyed) (low : ∀ run ∈ runs, run.1 + run.2 ≤ 2 ^ 32)
    (spare : sbi.storage.files.Spare runs.length) (clock : sbi.ts + 1 < 2 ^ 64)
    (call : appendUnits env (wrap64 (sbi.ts + 1)) (layout start runs) inode (sbi.storage.withMaps maps) =
      some (.ok (), inode', s')) : ChainMaps inode' s' (overlay (layout start runs) inode.phys) := by
  have tick : wrap64 (sbi.ts + 1) = sbi.ts + 1 := wrap64_of_lt clock
  have logged : (⟨inode', { sbi with storage := s', ts := wrap64 (sbi.ts + 1) }⟩ : LogFile).Ok :=
    .appendUnits ok keyed spare (show sbi.ts < wrap64 (sbi.ts + 1) by omega) rfl call
  have fits : ∀ u ∈ layout start runs, u.Fits := by
    intro u hu
    have below := low _ (mem_layout hu).2.2
    have some := (keyed u hu).nonempty
    exact ⟨keyed u hu, by dsimp only at below; omega⟩
  obtain ⟨rest, ⟨_, past, split, phys⟩, whole⟩ := appendUnits_phys fits ok.log.indexed call
  rw [whole rfl, append_nil] at split
  rw [split, ← phys]
  exact logged.log.chainMaps

theorem Fresh.torn {p c q d : Nat} {rest : List (Nat × Nat)}
    (fresh : Fresh inode ((p, c) :: (q, d) :: rest)) (first : 1 ≤ c) (second : 1 ≤ d) (start : Nat) :
    overlay (layout start [(p, c)]) inode.phys ≠ inode.phys ∧ overlay (layout start [(p, c)]) inode.phys ≠
      overlay (layout start ((p, c) :: (q, d) :: rest)) inode.phys := by
  constructor
  · intro same
    have block := congrFun same start
    have least : 0 < c := first
    rw [overlay_layout, if_pos (by simp; omega), Nat.sub_self, blockOf, if_pos least] at block
    apply fresh.free 0 (by simp; omega) start
    rw [blockOf, if_pos least, block]
  intro same
  have block := congrFun same (start + c)
  rw [overlay_layout, overlay_layout, if_neg (by simp), if_pos (by simp; omega),
    Nat.add_sub_cancel_left] at block
  exact fresh.free c (by simp; omega) (start + c) block

theorem runs_short (positive : ∀ run ∈ runs, 1 ≤ run.2) (few : total runs ≤ 1) : runs.length ≤ 1 := by
  rcases runs with _ | ⟨⟨p, c⟩, _ | ⟨⟨q, d⟩, rest⟩⟩
  · simp
  · simp
  have first := positive (p, c) (by simp)
  have second := positive (q, d) (by simp)
  simp only [total_cons] at few
  omega

/-- A write of several extents is not atomic. -/
theorem not_crashAtomic (ok : (⟨inode, sbi⟩ : LogFile).Ok)
    (served : Served env (fun _ _ _ _ => True) sbi.storage.data.maps (blockCount len offset) runs maps)
    (fresh : Fresh inode runs) (spare : sbi.storage.files.Spare runs.length)
    (far : offset + len ≤ (2 ^ 31 - 1) * 4096) (clock : sbi.ts + 1 < 2 ^ 64)
    (call : inodeWriteAtomic env sbi inode buf len offset = some (ret, inode', sbi')) (done : 0 ≤ ret)
    (several : 1 < runs.length) : ¬ CrashAtomic env sbi inode buf len offset inode' sbi'.storage := by
  intro atomic
  have positive := served.positive
  have keyed := served.keyed far
  rcases inodeWriteCrash_cases served (by omega) call done with
    ⟨one, _⟩ | ⟨inode2, size, rfl, whole, points⟩
  · have := runs_short positive (served.total ▸ one)
    omega
  obtain ⟨inode1, s1, part⟩ := appendUnits_take (n := 1) whole
  rw [layout_take] at part
  have after := appendUnits_chainMaps ok keyed fresh.low spare clock whole
  have between := appendUnits_chainMaps ok
    (fun u hu => keyed u (mem_of_mem_take (layout_take .. ▸ hu)))
    (fun run hr => fresh.low run (mem_of_mem_take hr))
    (spare.le (length_take_le' ..)) clock part
  obtain _ | ⟨⟨p, c⟩, _ | ⟨⟨q, d⟩, rest⟩⟩ := runs
  · simp at several
  · simp at several
  obtain ⟨changed, unfinished⟩ := fresh.torn (positive (p, c) (by simp))
    (positive (q, d) (by simp)) (offset / 4096)
  rcases atomic 1 _ inode1 s1 ((points 1).trans part) _ between with old | new
  · exact changed (old.unique ok.log.chainMaps)
  · exact unfinished (new.unique after)

theorem NewFile.fresh {ghost : Int} (new : NewFile ghost inode)
    (apart : ∀ i < total runs, ∀ j < total runs, blockOf runs i = blockOf runs j → i = j)
    (low : ∀ run ∈ runs, run.1 + run.2 ≤ 2 ^ 32) : Fresh inode runs := by
  refine ⟨fun i j hi hj => apart i hi j hj, fun i _ k => ?_, low⟩
  simp [Inode.phys, physOf, new.unmapped]

/-- A write is atomic under crashes between its log updates exactly if the allocator
finds all its blocks at once. -/
theorem write_crash_atomic_iff (ok : (⟨inode, sbi⟩ : LogFile).Ok)
    (served : Served env (fun _ _ _ _ => True) sbi.storage.data.maps (blockCount len offset) runs maps)
    (fresh : Fresh inode runs) (spare : sbi.storage.files.Spare runs.length)
    (far : offset + len ≤ (2 ^ 31 - 1) * 4096) (clock : sbi.ts + 1 < 2 ^ 64)
    (call : inodeWriteAtomic env sbi inode buf len offset = some (ret, inode', sbi')) (done : 0 ≤ ret) :
    CrashAtomic env sbi inode buf len offset inode' sbi'.storage ↔
      AtOnce env sbi.storage.data.maps (blockCount len offset) := by
  rw [served.atOnce_iff]
  constructor
  · intro atomic
    by_contra several
    exact not_crashAtomic ok served fresh spare far clock call done (by omega) atomic
  intro short n r inode1 s1 crash phys survives
  rcases inodeWriteCrash_cases served (by omega) call done with
    ⟨_, points⟩ | ⟨inode2, size, rfl, whole, points⟩
  · obtain ⟨size, point⟩ := points n
    cases point.symm.trans crash
    exact .inl survives
  rw [points] at crash
  by_cases none : runs.take n = []
  · rw [none] at crash
    cases crash
    exact .inl survives
  have all : runs.take n = runs := by
    apply take_of_length_le
    have : n ≠ 0 := by
      rintro rfl
      exact none rfl
    omega
  rw [all, whole] at crash
  cases crash
  exact .inr survives

end

/-- A new file and the result of a first write. -/
def firstWrite (sbi : Sbi) (len : Nat) : Option (Inode × Sbi × Int × Inode × Sbi) :=
  match inodeCreate firstFit sbi true 0 (fun _ => true) (fun _ => true) with
  | some (.ok inode, sbi) => (inodeWriteAtomic firstFit sbi inode (fun _ => 1#8) len 0).map
      fun out => (inode, sbi, out)
  | _ => none

theorem firstWrite_spec {sbi0 sbi sbi' : Sbi} {len : Nat} {ret : Int} (ok : sbi0.storage.files.Ok)
    (small : sbi0.storage.files.Within (2 ^ 31))
    (call : firstWrite sbi0 len = some (inode, sbi, ret, inode', sbi')) :
    (⟨inode, sbi⟩ : LogFile).Ok ∧ (∃ ghost, NewFile ghost inode) ∧ sbi.ts = sbi0.ts ∧
    sbi.storage = { sbi0.storage with files := (doSlotAlloc sbi0.storage.files 0).2 } ∧
    inodeWriteAtomic firstFit sbi inode (fun _ => 1#8) len 0 = some (ret, inode', sbi') := by
  unfold firstWrite at call
  split at call
  · rename_i create
    obtain ⟨_, write, eq⟩ := map_eq_some_iff.mp call
    cases eq
    obtain ⟨new, _, ts, _, storage⟩ := inodeCreate_new (fun _ => rfl) create
    exact ⟨inodeCreate_logged (fun _ => rfl) create ok small, ⟨_, new⟩, ts, storage, write⟩
  · cases call

/-- Two blocks that are found at once. -/
theorem write_crash_atomic_iff_once : ∃ inode sbi inode' sbi',
    inodeWriteAtomic firstFit sbi inode (fun _ => 1#8) 8192 0 = some (8192, inode', sbi') ∧
    CrashAtomic firstFit sbi inode (fun _ => 1#8) 8192 0 inode' sbi'.storage := by
  have run : (firstWrite (blankSbi 64 0#8) 8192).map (fun out => out.2.2.1) = some 8192 := by
    decide +kernel
  obtain ⟨⟨inode, sbi, _, inode', sbi'⟩, call, rfl⟩ := map_eq_some_iff.mp run
  obtain ⟨ok, ⟨_, new⟩, ts, storage, write⟩ := firstWrite_spec (emptyMaps_ok 64)
    (fun _ _ => show 64 ≤ 2 ^ 31 by decide) call
  have two : blockCount 8192 0 = 2 := by decide
  have pick : firstFit.pick (emptyMaps 64) 2 = some (0, 0, 2) := by decide
  have served : Served firstFit (fun _ _ _ _ => True) (emptyMaps 64) 2 [(0, 2)] _ :=
    .more pick (by decide) le_rfl trivial (.done _)
  have data : sbi.storage.data.maps = emptyMaps 64 := by rw [storage]; rfl
  have spare : sbi.storage.files.Spare 1 := by
    rw [storage]
    exact ⟨[1], nodup_singleton 1, le_rfl, by decide +kernel⟩
  have fresh : Fresh inode [(0, 2)] := new.fresh (by decide) (by decide)
  refine ⟨inode, sbi, inode', sbi', write, ?_⟩
  rw [← two, ← data] at served
  apply (write_crash_atomic_iff ok served fresh spare (by decide) (by rw [ts]; decide) write
    (by decide)).mpr
  rw [two, data]
  exact .inr ⟨0, 0, pick⟩

/-- A file system in which data block 8 is in use. -/
def holed : Sbi :=
  { blankSbi 64 0#8 with
    storage := (blankStorage 64).withMaps
      ⟨1, fun _ => ⟨setBit 8 fun _ => 0#8, 0, 64, 63, 0⟩⟩ }

/-- Nine blocks around the one in use are two updates of the log. After the first of
them blocks 0 to 7 are new and block 8 is missing. -/
theorem fragmented_write_torn : ∃ inode sbi inode' sbi', (⟨inode, sbi⟩ : LogFile).Ok ∧
    inodeWriteAtomic firstFit sbi inode (fun _ => 1#8) 36864 0 = some (36864, inode', sbi') ∧
    ¬ CrashAtomic firstFit sbi inode (fun _ => 1#8) 36864 0 inode' sbi'.storage := by
  have run : (firstWrite holed 36864).map (fun out => out.2.2.1) = some 36864 := by
    decide +kernel
  obtain ⟨⟨inode, sbi, _, inode', sbi'⟩, call, rfl⟩ := map_eq_some_iff.mp run
  obtain ⟨ok, ⟨_, new⟩, ts, storage, write⟩ := firstWrite_spec (emptyMaps_ok 64)
    (fun _ _ => show 64 ≤ 2 ^ 31 by decide) call
  have nine : blockCount 36864 0 = 9 := by decide
  have served : Served firstFit (fun _ _ _ _ => True) holed.storage.data.maps 9 [(0, 8), (9, 1)] _ :=
    .more (i := 0) (s := 0) (by decide +kernel) (by decide) (by decide) trivial
      (.more (i := 0) (s := 9) (by decide +kernel) (by decide) (by decide) trivial (.done _))
  have data : sbi.storage.data.maps = holed.storage.data.maps := by rw [storage]
  have spare : sbi.storage.files.Spare 2 := by
    rw [storage]
    exact ⟨[1, 2], by decide, le_rfl, by decide +kernel⟩
  have fresh : Fresh inode [(0, 8), (9, 1)] := new.fresh (by decide) (by decide)
  refine ⟨inode, sbi, inode', sbi', ok, write, ?_⟩
  rw [← nine, ← data] at served
  exact not_crashAtomic ok served fresh spare (by decide) (by rw [ts]; decide) write (by decide)
    (by decide)

end SlotFs
