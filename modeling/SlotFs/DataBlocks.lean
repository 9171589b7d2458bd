import SlotFs.FileHoles
import SlotFs.Resize

/-!
# Data blocks in use

The bit of a data block is set when a write or a larger size takes the block. It is
cleared by the callback of an overwrite, block by block, and by the release of the file,
extent by extent. An entry that a smaller size removes takes its blocks with it.
-/

namespace SlotFs
open CWord Runs List Maps EntryUnit World

variable {b b' maps : Maps} {env : Env} {i n newSize start ts x : Nat} {inode inode' : Inode}
  {outside : Nat → Prop} {r : Except Int Unit} {runs : List (Nat × Nat)} {s s' : Storage} {sbi sbi' : Sbi}
  {units : List EntryUnit} {w : World}

/-! ## Runs that can be cleared -/

/-- The maps have the same slots, whatever their bits say. -/
structure Maps.Alike (b b' : Maps) : Prop where
  num : b'.num = b.num
  bits : ∀ i, (b'.map i).bitNum = (b.map i).bitNum
  offset : ∀ i, (b'.map i).bitOffset = (b.map i).bitOffset

theorem Maps.Alike.refl (b : Maps) : b.Alike b := ⟨rfl, fun _ => rfl, fun _ => rfl⟩

theorem Maps.Alike.trans {a c : Maps} (h : a.Alike b) (h' : b.Alike c) : a.Alike c :=
  ⟨h'.num.trans h.num, fun i => (h'.bits i).trans (h.bits i), fun i => (h'.offset i).trans (h.offset i)⟩

theorem Maps.Alike.set (b : Maps) (i : Nat) {m : DramBitmap} (bits : m.bitNum = (b.map i).bitNum)
    (offset : m.bitOffset = (b.map i).bitOffset) : b.Alike (b.set i m) := by
  refine ⟨rfl, set_bitNum bits, fun j => ?_⟩
  by_cases e : j = i
  · subst e
    rw [set_self, offset]
  · rw [set_other b m e]

theorem Maps.Alike.free (b : Maps) (n c : Nat) : b.Alike (doSlotFreeRange b n c) := by
  rw [doSlotFreeRange_eq]
  exact .set b _ rfl rfl

theorem Maps.Alike.has (h : b.Alike b') (x : Nat) : b'.Has x ↔ b.Has x := by
  simp only [Has, h.num, h.bits]

theorem Maps.Alike.laid (h : b.Alike b') (laid : b.Laid) : b'.Laid := by
  constructor
  · rw [h.num]
    exact laid.pos
  · intro i hi
    rw [h.bits, h.bits]
    exact laid.size i (h.num ▸ hi)
  · intro i hi
    rw [h.bits, h.bits]
    exact laid.last i (h.num ▸ hi)
  · intro i hi
    rw [h.offset, h.bits]
    exact laid.offset i (h.num ▸ hi)

/-- A run of slots in one map that `clear_bit_range` clears to its end. -/
structure Maps.Clears (b : Maps) (p n : Nat) : Prop where
  has : b.Has p
  fits : p % (b.map 0).bitNum + n ≤ (b.map (p / (b.map 0).bitNum)).bitNum
  marked : markedLength (p % (b.map 0).bitNum) n = n

theorem Maps.Alike.clears (h : b.Alike b') {p : Nat} (clears : b.Clears p n) : b'.Clears p n := by
  refine ⟨(h.has p).mpr clears.has, ?_, ?_⟩
  · rw [h.bits, h.bits]
    exact clears.fits
  · rw [h.bits]
    exact clears.marked

theorem FreeRun.clears {s c : Nat} (h : FreeRun b i s c) (laid : b.Laid) (least : 1 ≤ c) :
    b.Clears (s + (b.map i).bitOffset) c := by
  have inside := h.inside
  have first : s < (b.map i).bitNum := by omega
  obtain ⟨map, slot⟩ := laid.decode h.map first
  refine ⟨laid.has h.map first, ?_, ?_⟩
  · rw [map, slot]
    exact inside
  · rw [slot]
    exact h.marked

theorem Maps.Clears.freed {p : Nat} (h : b.Clears p n) (laid : b.Laid) (has : b.Has x) (lo : p ≤ x)
    (hi : x < p + n) : (doSlotFreeRange b p n).used x = false := by
  rw [(doSlotFreeRange_used laid h.has h.fits).2.2 x has, h.marked, decide_eq_true ⟨lo, hi⟩]
  rfl

theorem doSlotFreeRange_sets_none {c : Nat} (used : (doSlotFreeRange b n c).used x = true) : b.used x = true := by
  rw [doSlotFreeRange_eq, set_used (m := unmarkRange _ _ _) rfl] at used
  split at used
  · rename_i same
    rw [unmarkRange, bit_clearBitRange, Bool.and_eq_true] at used
    rw [Maps.used, same]
    exact used.2
  · exact used

/-- The runs that serve a request can be cleared, and only their bits have been set. -/
theorem Served.clears (served : Served env FreeRun b n runs b') (laid : b.Laid) :
    b.Alike b' ∧ (∀ x, b.Has x → b'.used x = true → b.used x = true ∨ InRuns runs x) ∧
    ∀ run ∈ runs, run.1 + run.2 ≤ 2 ^ 32 ∧ b.Clears run.1 run.2 := by
  induction served with
  | done => exact ⟨.refl _, fun _ _ used => .inl used, fun _ member => nomatch member⟩
  | @more b b' n i s c runs pick least most good rest ih =>
    have taken := good.taken laid
    have alike : b.Alike (b.set i (markRange (b.map i) s c)) := .set b i rfl rfl
    obtain ⟨alike', used, clears⟩ := ih taken.laid
    refine ⟨alike.trans alike', fun x has set => ?_, fun run member => ?_⟩
    · rw [inRuns_cons, ← or_assoc]
      rcases used x ((alike.has x).mpr has) set with old | new
      · exact .inl ((taken.used x has).mp old)
      · exact .inr new
    rcases mem_cons.mp member with rfl | member
    · exact ⟨good.narrow, good.clears laid least⟩
    · obtain ⟨narrow, later⟩ := clears run member
      exact ⟨narrow, (alike.has _).mp later.has, by simpa only [alike.bits] using later.fits,
        by simpa only [alike.bits] using later.marked⟩

/-! ## The blocks of an overwrite -/

/-- What the callbacks have done to the bits by the time that `m0` has become `m`. -/
structure Erased (m0 : Nat → Option Nat) (inode : Inode) (b : Maps) (m : Nat → Option Nat)
    (s : Inode × DataSlots) : Prop where
  recounted : Recounted inode s.1
  alike : b.Alike s.2.maps
  rest : ∀ k fe, m k = some fe → m0 k = some fe
  used : ∀ x, s.2.maps.used x = true → b.used x = true
  freed : ∀ k x, b.Has x → physOf m0 inode.fents k = some x → s.2.maps.used x = true → m k = m0 k

section
variable {m0 m : Nat → Option Nat} {inode : Inode} {b : Maps} {s : Inode × DataSlots} {k fe : Nat}

theorem Erased.erase (h : Erased m0 inode b m s) (laid : b.Laid) (hk : m k = some fe)
    (inside : (inode.fents fe).lIdx ≤ k) (small : k < 2 ^ 31) :
    Erased m0 inode b (Ledger.erase m k) (filentInsertCallback fe (toInt32 k) s) := by
  have same := h.recounted.fents fe
  have freed := filentInsertCallback_data fe s (by rw [same]; exact inside) small
  have place : physOf m0 inode.fents k =
      some ((s.1.fents fe).pIdx + (k - (s.1.fents fe).lIdx)) := by
    rw [physOf, h.rest k fe hk, same]
    rfl
  generalize (s.1.fents fe).pIdx + (k - (s.1.fents fe).lIdx) = p at freed place
  refine ⟨h.recounted.trans (filentInsertCallback_recounted _ _ _), ?_, ?_, ?_, ?_⟩
  · rw [freed]
    exact h.alike.trans (.free _ p 1)
  · intro j o hj
    exact h.rest j o (Ledger.erase_eq_some.mp hj).2
  · rw [freed]
    exact fun x set => h.used x (doSlotFreeRange_sets_none set)
  rw [freed]
  intro j x has hj set
  have other : j ≠ k := by
    rintro rfl
    obtain rfl : p = x := Option.some.inj (place.symm.trans hj)
    have there := (h.alike.has p).mpr has
    have clear := (doSlotFreeRange_used (c := 1) (h.alike.laid laid) there there.2).2.2 p there
    rw [markedLength_one, decide_eq_true (by omega)] at clear
    exact Bool.false_ne_true (clear.symm.trans set)
  rw [Ledger.erase, Function.update_of_ne other]
  exact h.freed j x has hj (doSlotFreeRange_sets_none set)

end

/-- After an overwrite the blocks of its keys are free. -/
theorem overwritten_frees {m : Nat → Option Nat} {data : DataSlots} (laid : data.maps.Laid)
    (inside : ∀ k fe, m k = some fe → (inode.fents fe).lIdx ≤ k) (small : start + n ≤ 2 ^ 31) :
    data.maps.Alike (overwritten m start n inode data).2.maps ∧
    ∀ x, data.maps.Has x → (overwritten m start n inode data).2.maps.used x = true →
      data.maps.used x = true ∧ ∀ k, start ≤ k → k < start + n → physOf m inode.fents k ≠ some x := by
  have erased : Erased m inode data.maps (without m start n) (overwritten m start n inode data) := by
    apply overRange_erase filentInsertCallback (I := Erased m inode data.maps)
    · intro m' k fe s _ hi hk erased
      exact erased.erase laid hk (inside k fe (erased.rest k fe hk)) (by omega)
    · exact ⟨.refl _, .refl _, fun _ _ hk => hk, fun _ used => used, fun _ _ _ _ _ => rfl⟩
  refine ⟨erased.alike, fun x has used => ⟨erased.used x used, fun k lo hi place => ?_⟩⟩
  have gone := erased.freed k x has place used
  rw [without, if_pos ⟨lo, hi⟩] at gone
  rw [physOf, ← gone] at place
  cases place

/-! ## The blocks of one file -/

def EntryUnit.run (u : EntryUnit) : Nat × Nat := (u.pIdx, u.blocks)

theorem layout_runs (start : Nat) (runs : List (Nat × Nat)) : (layout start runs).map run = runs := by
  induction runs generalizing start with
  | nil => rfl
  | cons run runs ih => rw [layout, map_cons, ih]; rfl

theorem stacked_runs (start : Nat) (runs : List (Nat × Nat)) : (stacked start runs).map run = runs := by
  rw [stacked, map_map]
  exact map_id runs

/-- `filent_alloc` finds an entry whenever it is asked. -/
def Inode.Granted (inode : Inode) : Prop := ∀ n, inode.arena.grants n = true

/-- Then all extents get into the log. -/
theorem appendUnits_granted (keyed : ∀ u ∈ units, u.Keyed) (indexed : Indexed inode) (granted : inode.Granted)
    (call : appendUnits env ts units inode s = some (r, inode', s')) : r = .ok () := by
  induction units generalizing inode s with
  | nil =>
    cases call
    rfl
  | cons u rest ih =>
    obtain ⟨nonempty, below⟩ := keyed u (mem_cons_self ..)
    have blocks := ((keyed u (mem_cons_self ..)).record ts).2
    obtain ⟨c, inode1, files, inode2, choice, appended, eq⟩ | ⟨refused, _⟩ :=
      fileAppendEntry_cases indexed (show 1 ≤ (u.record ts).blocks by omega)
        (show (u.record ts).blocks < 2 ^ 31 by omega) env s
    · have granted2 : inode2.Granted := fun n => appended.same.2.2.2.2 ▸ granted n
      simp only [appendUnits, eq] at call
      exact ih (fun v hv => keyed v (mem_cons_of_mem _ hv)) appended.indexed granted2 call
    · rw [granted] at refused
      cases refused

/-- Every block in use is in `outside` or has its place in the file. The extents of the
file can be cleared. -/
structure Inode.Accounts (inode : Inode) (outside : Nat → Prop) (b : Maps) : Prop where
  indexed : Indexed inode
  granted : inode.Granted
  extents : ∀ fe ∈ inode.list, b.Clears (inode.fents fe).pIdx (inode.fents fe).blocks
  known : ∀ x, b.Has x → b.used x = true → outside x ∨ ∃ k, inode.phys k = some x

/-- The extents that an append leaves on the list. -/
theorem Appended.extents {files files' : Maps} {inode1 : Inode} {c : Chosen} {entry : PmFilent}
    (choice : Choice env files inode c inode1 files') (indexed : Indexed inode)
    (appended : Appended inode inode1 entry c inode') (clears : b.Clears entry.pIdx entry.blocks)
    (old : ∀ fe ∈ inode.list, b.Clears (inode.fents fe).pIdx (inode.fents fe).blocks) :
    ∀ fe ∈ inode'.list, b.Clears (inode'.fents fe).pIdx (inode'.fents fe).blocks := by
  intro fe member
  by_cases chosen : fe = c.fe
  · obtain ⟨ref, filled⟩ := appended.filled
    rw [chosen, filled]
    exact clears
  obtain ⟨ref, kept⟩ := appended.kept fe chosen
  rw [kept]
  apply old
  have members := (choice.members indexed.listed).2.2
  rw [← appended.list] at members
  have member : fe ∈ {fe | fe ∈ inode'.list} := member
  rw [members] at member
  exact (Set.mem_of_mem_insert_of_ne member chosen).1

theorem Inode.Accounts.append {env : Env} {outside : Nat → Prop} {u : EntryUnit} {rest : List EntryUnit}
    {ts : Nat} {s : Storage} {inode inode1 inode' : Inode} {c : Chosen} {files : Maps}
    (h : inode.Accounts (fun x => outside x ∨ InRuns ((u :: rest).map run) x) s.data.maps)
    (laid : s.data.maps.Laid) (fits : u.Fits) (clears : s.data.maps.Clears u.pIdx u.blocks)
    (choice : Choice env s.files inode c inode1 files) (appended : Appended inode inode1 (u.record ts) c inode') :
    let maps := (s.appended inode inode1 inode' (u.record ts) c files).data.maps
    s.data.maps.Alike maps ∧
    inode'.Accounts (fun x => outside x ∨ InRuns (rest.map run) x) maps := by
  obtain ⟨hl, hb⟩ := fits.toKeyed.record ts
  have hp : (u.record ts).pIdx = u.pIdx := trunc32_of_lt fits.place
  have phys := appended.phys fits
  have below := fits.below
  obtain ⟨alike, used⟩ := overwritten_frees (n := (u.record ts).blocks) laid
    (fun k fe hk => ((choice.booked h.indexed (u.record ts)).2.cover k fe hk).1)
    (show (u.record ts).lIdx + (u.record ts).blocks ≤ 2 ^ 31 by omega)
  rw [appended.fill_physOf choice] at used
  refine ⟨alike, appended.indexed, fun n => appended.same.2.2.2.2 ▸ h.granted n, ?_, fun x has set => ?_⟩
  · exact appended.extents choice h.indexed (by rw [hp, hb]; exact alike.clears clears)
      fun fe member => alike.clears (h.extents fe member)
  have has := (alike.has x).mp has
  obtain ⟨before, others⟩ := used x has set
  rcases h.known x has before with (out | run) | ⟨k, place⟩
  · exact .inl (.inl out)
  · rw [map_cons, EntryUnit.run, inRuns_cons] at run
    rcases run with ⟨lo, hi⟩ | later
    · refine .inr ⟨u.lIdx + (x - u.pIdx), ?_⟩
      rw [phys, entered, if_pos (by omega)]
      congr 1
      omega
    · exact .inl (.inr later)
  refine .inr ⟨k, ?_⟩
  have past : ¬ (u.lIdx ≤ k ∧ k < u.lIdx + u.blocks) := by
    intro inside
    exact others k (by omega) (by omega) place
  rw [phys, entered, if_neg past, place]

/-- Once all extents have been entered no block is without a place. -/
theorem appendUnits_accounts (laid : b.Laid) (alike : b.Alike s.data.maps)
    (good : ∀ u ∈ units, u.Fits ∧ b.Clears u.pIdx u.blocks)
    (h : inode.Accounts (fun x => outside x ∨ InRuns (units.map run) x) s.data.maps)
    (call : appendUnits env ts units inode s = some (r, inode', s')) :
    b.Alike s'.data.maps ∧ inode'.Accounts outside s'.data.maps := by
  have keyed (u : EntryUnit) (member : u ∈ units) : u.Keyed := (good u member).1.toKeyed
  have entered := appendUnits_granted keyed h.indexed h.granted call
  obtain ⟨rest, ⟨alike', h', _⟩, done⟩ := appendUnits_rule
    (I := fun rest inode s => b.Alike s.data.maps ∧
      inode.Accounts (fun x => outside x ∨ InRuns (rest.map run) x) s.data.maps ∧
      ∀ u ∈ rest, u.Fits ∧ b.Clears u.pIdx u.blocks)
    (fun h => h.2.1.indexed)
    (fun ⟨alike, h, good⟩ choice appended => by
      obtain ⟨fits, clears⟩ := good _ (mem_cons_self ..)
      obtain ⟨next, h'⟩ := h.append (alike.laid laid) fits (alike.clears clears) choice appended
      exact ⟨alike.trans next, h', fun v hv => good v (mem_cons_of_mem _ hv)⟩)
    (fun num ⟨alike, h, good⟩ => ⟨alike, ⟨h.indexed.recount num, h.granted, h.extents, h.known⟩, good⟩)
    keyed ⟨alike, h, good⟩ call
  refine ⟨alike', h'.indexed, h'.granted, h'.extents, fun x has used => (h'.known x has used).imp_left ?_⟩
  rintro (out | ⟨_, member, _⟩)
  · exact out
  · rw [done entered] at member
    cases member

/-- The requests of a call have been served by `runs`, and their extents are entered. -/
theorem Served.accounts (served : Served env FreeRun s.data.maps n runs maps) (laid : s.data.maps.Laid)
    (same : units.map run = runs) (keyed : ∀ u ∈ units, u.Keyed) (h : inode.Accounts outside s.data.maps)
    (call : appendUnits env ts units inode (s.withMaps maps) = some (r, inode', s')) :
    s.data.maps.Alike s'.data.maps ∧ inode'.Accounts outside s'.data.maps := by
  obtain ⟨alike, used, clears⟩ := served.clears laid
  refine appendUnits_accounts laid alike (fun u member => ?_) ?_ call
  · obtain ⟨narrow, clears⟩ := clears u.run (same ▸ mem_map_of_mem member)
    have positive := (keyed u member).nonempty
    refine ⟨⟨keyed u member, ?_⟩, clears⟩
    simp only [run] at narrow
    omega
  refine ⟨h.indexed, h.granted, fun fe member => alike.clears (h.extents fe member), fun x has set => ?_⟩
  have has := (alike.has x).mp has
  rw [same]
  rcases used x has set with old | new
  · exact (h.known x has old).imp_left .inl
  · exact .inl (.inr new)

theorem inodeWriteAtomic_accounts {buf : Mem} {len offset : Nat} {ret : Int}
    (h : inode.Accounts outside sbi.storage.data.maps) (laid : sbi.storage.data.maps.Laid)
    (served : Served env FreeRun sbi.storage.data.maps (blockCount len offset) runs maps)
    (far : offset + len ≤ (2 ^ 31 - 1) * 4096)
    (call : inodeWriteAtomic env sbi inode buf len offset = some (ret, inode', sbi')) :
    sbi.storage.data.maps.Alike sbi'.storage.data.maps ∧ inode'.Accounts outside sbi'.storage.data.maps := by
  have outcome := (Wrote.of_call call).outcome (J := fun _ _ => True) served (by omega) trivial
    (fun _ _ _ _ _ _ _ _ _ => trivial)
  cases outcome with
  | inPlace _ size _ fe fits mapped blocks storage ts grown =>
    rw [storage]
    exact ⟨.refl _, h.indexed.resize size, h.granted, h.extents, h.known⟩
  | failed _ _ _ append ts content =>
    exact served.accounts laid (layout_runs _ _) (served.keyed far) h append
  | logged inode1 _ append ts content =>
    obtain ⟨alike, h'⟩ := served.accounts laid (layout_runs _ _) (served.keyed far) h append
    exact ⟨alike, h'.indexed.resize _, h'.granted, h'.extents, h'.known⟩

theorem extendRange_end (larger : inode.iSize < newSize) (far : newSize ≤ (2 ^ 31 - 2) * 4096)
    (range : extendRange inode newSize = some (start, n)) : start + n < 2 ^ 31 := by
  have more : sub64 newSize inode.iSize = newSize - inode.iSize := sub64_of_le larger.le (by omega)
  rw [extendRange, more, sizeBlocks_eq (by omega), sizeBlocks_eq (by omega)] at range
  split at range
  · obtain ⟨_, _, eq⟩ := Option.map_eq_some_iff.mp range
    obtain ⟨rfl, rfl⟩ := Prod.mk.inj eq
    rw [wrap64_of_lt (by omega), sub64_of_le (by omega) (by omega)]
    omega
  · obtain ⟨rfl, rfl⟩ := Prod.mk.inj (Option.some.inj range)
    omega

/-- The blocks that a larger size asks for are found. -/
def Inode.Supplied (env : Env) (b : Maps) (inode : Inode) (newSize : Nat) : Prop :=
  ∀ start n, extendRange inode newSize = some (start, n) → ∃ runs maps, Served env FreeRun b n runs maps

theorem inodeResize_accounts {pmLogHead : Int} {links : Links} {ret : Int}
    (h : inode.Accounts outside sbi.storage.data.maps) (laid : sbi.storage.data.maps.Laid)
    (nothing : newSize < inode.iSize → inode.CutsNothing newSize)
    (supplied : inode.iSize < newSize → inode.Supplied env sbi.storage.data.maps newSize)
    (far : newSize ≤ (2 ^ 31 - 2) * 4096)
    (call : inodeResize env ts pmLogHead links sbi inode newSize = some (ret, inode', sbi')) :
    sbi.storage.data.maps.Alike sbi'.storage.data.maps ∧ inode'.Accounts outside sbi'.storage.data.maps := by
  by_cases larger : inode.iSize < newSize
  · rw [inodeResize, if_neg (by omega), if_neg (by omega)] at call
    obtain ⟨⟨start, n⟩, range, _⟩ := Option.bind_eq_some_iff.mp call
    obtain ⟨runs, maps, served⟩ := supplied larger start n range
    have last := extendRange_end larger far range
    obtain ⟨r, append, _⟩ := inodeExtend_served range served (by omega) call
    refine served.accounts laid (stacked_runs start runs) (fun u member => ?_) h append
    obtain ⟨run, found, rfl⟩ := mem_map.mp member
    have count := served.total
    have le := le_sum_of_mem (mem_map_of_mem (f := Prod.snd) found)
    rw [total] at count
    exact ⟨served.positive run found, by dsimp only; omega⟩
  · obtain ⟨rfl, same⟩ := inodeResize_nothing (by omega) nothing call
    rw [same]
    exact ⟨.refl _, h⟩

/-! ## The blocks of all files -/

/-- One call, as in `FileStep` or a change of the size, with memory for what it asks for;
`allowed` says to which smaller sizes a file may be cut. -/
inductive DataStep (allowed : Inode → Nat → Prop) (w : World) : World → Prop
  | create (i : Nat) (env : Env) (granted : Bool) (appended : Int) (nodes entries : Nat → Bool)
      (inode : Inode) (sbi : Sbi) (new : w.files i = none) (supply : ∀ n, nodes n = true)
      (full : ∀ n, entries n = true)
      (call : inodeCreate env w.sbi granted appended nodes entries = some (.ok inode, sbi)) :
      DataStep allowed w (w.set i (some ⟨inode, 1⟩) sbi)
  | createFailed (env : Env) (granted : Bool) (appended : Int) (nodes entries : Nat → Bool)
      (e : Int) (sbi : Sbi)
      (call : inodeCreate env w.sbi granted appended nodes entries = some (.error e, sbi)) :
      DataStep allowed w { w with sbi }
  | write (i : Nat) (file : LiveFile) (env : Env) (buf : Mem) (len offset : Nat)
      (runs : List (Nat × Nat)) (maps : Maps) (ret : Int) (inode : Inode) (sbi : Sbi)
      (live : w.files i = some file)
      (served : Served env FreeRun w.maps (blockCount len offset) runs maps)
      (far : offset + len ≤ (2 ^ 31 - 1) * 4096)
      (call : inodeWriteAtomic env w.sbi file.inode buf len offset = some (ret, inode, sbi)) :
      DataStep allowed w (w.set i (some { file with inode }) sbi)
  | resize (i : Nat) (file : LiveFile) (env : Env) (ts : Nat) (pmLogHead : Int) (links : Links)
      (newSize : Nat) (ret : Int) (inode : Inode) (sbi : Sbi) (live : w.files i = some file)
      (cut : newSize < file.inode.iSize → allowed file.inode newSize)
      (supplied : file.inode.iSize < newSize → file.inode.Supplied env w.maps newSize)
      (far : newSize ≤ (2 ^ 31 - 2) * 4096)
      (call : inodeResize env ts pmLogHead links w.sbi file.inode newSize = some (ret, inode, sbi)) :
      DataStep allowed w (w.set i (some { file with inode }) sbi)
  | unlink (i : Nat) (file : LiveFile) (live : w.files i = some file) (named : 0 < file.iLink) :
      DataStep allowed w (w.set i (some { file with iLink := file.iLink - 1 }) w.sbi)
  | release (i : Nat) (file : LiveFile) (live : w.files i = some file) (unnamed : file.iLink = 0) :
      DataStep allowed w (w.set i none (doInodeRelease w.sbi file.inode))

/-- Every block in use is the reserved block 0 or has its place in some file. -/
def World.NoneLost (w : World) : Prop :=
  ∀ x, w.maps.Has x → w.maps.used x = true → x = 0 ∨ ∃ i k, w.Owns i k x

/-- The blocks that are in use for something else than file `i`. -/
def World.Outside (w : World) (i x : Nat) : Prop := x = 0 ∨ ∃ j k, j ≠ i ∧ w.Owns j k x

structure World.Held (w : World) : Prop where
  laid : w.maps.Laid
  indexed : ∀ i file, w.files i = some file → Indexed file.inode
  granted : ∀ i file, w.files i = some file → file.inode.Granted
  extents : ∀ i file, w.files i = some file → ∀ fe ∈ file.inode.list,
    w.maps.Clears (file.inode.fents fe).pIdx (file.inode.fents fe).blocks
  known : w.NoneLost

theorem World.Held.accounts (h : w.Held) {file : LiveFile} (live : w.files i = some file) :
    file.inode.Accounts (w.Outside i) w.maps := by
  refine ⟨h.indexed i file live, h.granted i file live, h.extents i file live, fun x has used => ?_⟩
  rcases h.known x has used with zero | ⟨j, k, owns⟩
  · exact .inl (.inl zero)
  by_cases other : j = i
  · subst other
    obtain ⟨file', live', place⟩ := owns
    obtain rfl : file' = file := Option.some.inj (live'.symm.trans live)
    exact .inr ⟨k, place⟩
  · exact .inl (.inr ⟨j, k, other, owns⟩)

/-- One file changes, and no block gets lost with it. -/
theorem World.Held.set (h : w.Held) {file : Option LiveFile} (alike : w.maps.Alike sbi.storage.data.maps)
    (own : ∀ f, file = some f → f.inode.Accounts (w.Outside i) sbi.storage.data.maps)
    (gone : ∀ x, file = none → sbi.storage.data.maps.Has x → sbi.storage.data.maps.used x = true →
      w.Outside i x) : (w.set i file sbi).Held := by
  have outside {x : Nat} (out : w.Outside i x) : x = 0 ∨ ∃ j k, (w.set i file sbi).Owns j k x := by
    refine out.imp_right fun ⟨j, k, other, owns⟩ => ⟨j, k, ?_⟩
    rw [set_owns, if_neg other]
    exact owns
  refine ⟨alike.laid h.laid, fun j f live => ?_, fun j f live => ?_, fun j f live => ?_,
    fun x has used => ?_⟩
  · by_cases e : j = i
    · subst e
      exact (own f (by simpa [set] using live)).indexed
    · exact h.indexed j f (by simpa [World.set, e] using live)
  · by_cases e : j = i
    · subst e
      exact (own f (by simpa [set] using live)).granted
    · exact h.granted j f (by simpa [World.set, e] using live)
  · by_cases e : j = i
    · subst e
      exact (own f (by simpa [set] using live)).extents
    · intro fe member
      exact alike.clears (h.extents j f (by simpa [World.set, e] using live) fe member)
  cases file with
  | none => exact outside (gone x rfl has used)
  | some f =>
    rcases (own f rfl).known x has used with out | ⟨k, place⟩
    · exact outside out
    · refine .inr ⟨i, k, ?_⟩
      rw [set_owns, if_pos rfl]
      exact ⟨f, rfl, place⟩

theorem World.Held.change (h : w.Held) {iLink : Nat} (alike : w.maps.Alike sbi.storage.data.maps)
    (own : inode.Accounts (w.Outside i) sbi.storage.data.maps) : (w.set i (some ⟨inode, iLink⟩) sbi).Held := by
  apply h.set alike
  · rintro f ⟨⟩
    exact own
  · rintro x ⟨⟩

/-- Of the extents on the list no block is in use after the release. -/
theorem doInodeRelease_clears {list : List Nat} (laid : s.data.maps.Laid)
    (extents : ∀ fe ∈ list, s.data.maps.Clears (inode.fents fe).pIdx (inode.fents fe).blocks) :
    s.data.maps.Alike (list.foldl (releaseExtent inode) s).data.maps ∧
    ∀ x, s.data.maps.Has x → (list.foldl (releaseExtent inode) s).data.maps.used x = true →
      s.data.maps.used x = true ∧ ∀ fe ∈ list, ¬ ((inode.fents fe).pIdx ≤ x ∧
        x < (inode.fents fe).pIdx + (inode.fents fe).blocks) := by
  induction list generalizing s with
  | nil => exact ⟨.refl _, fun x _ used => ⟨used, fun _ member => nomatch member⟩⟩
  | cons fe list ih =>
    have first := extents fe (mem_cons_self ..)
    have alike : s.data.maps.Alike (releaseExtent inode s fe).data.maps := .free _ _ _
    obtain ⟨alike', used⟩ := ih (s := releaseExtent inode s fe) (alike.laid laid)
      fun o member => alike.clears (extents o (mem_cons_of_mem _ member))
    refine ⟨alike.trans alike', fun x has set => ?_⟩
    obtain ⟨left, later⟩ := used x ((alike.has x).mpr has) set
    refine ⟨doSlotFreeRange_sets_none left, fun o member inside => ?_⟩
    rcases mem_cons.mp member with rfl | member
    · exact absurd (left.symm.trans (first.freed laid has inside.1 inside.2)) nofun
    · exact later o member inside

theorem inodeCreate_granted {granted : Bool} {appended : Int} {nodes entries : Nat → Bool}
    (full : ∀ n, entries n = true)
    (call : inodeCreate env sbi granted appended nodes entries = some (.ok inode, sbi')) : inode.Granted := by
  cases granted with
  | false => simp [inodeCreate] at call
  | true =>
    simp only [inodeCreate, if_true] at call
    obtain ⟨inode1, create, eq⟩ := Option.map_eq_some_iff.mp call
    obtain ⟨tree, _, rfl⟩ := Option.map_eq_some_iff.mp create
    split_ifs at eq <;> cases eq
    exact full

theorem DataStep.held {w' : World} (h : w.Held) (step : DataStep Inode.CutsNothing w w') : w'.Held := by
  cases step with
  | create i env granted appended nodes entries inode sbi new supply full call =>
    have fresh := (inodeCreate_new supply call).1
    have data : sbi.storage.data = w.sbi.storage.data := by
      rcases inodeCreate_storage call with eq | eq <;> rw [eq]
    apply h.set
    · rw [data]
      exact .refl _
    · rintro f ⟨⟩
      refine ⟨fresh.indexed, inodeCreate_granted full call, fun fe member => ?_, fun x has used => ?_⟩
      · rw [fresh.list] at member
        cases member
      rw [data] at has used
      rcases h.known x has used with zero | ⟨j, k, file, live, place⟩
      · exact .inl (.inl zero)
      · refine .inl (.inr ⟨j, k, ?_, file, live, place⟩)
        rintro rfl
        cases new.symm.trans live
    · rintro x ⟨⟩
  | createFailed env granted appended nodes entries e sbi call =>
    have maps : ({ w with sbi } : World).maps = w.maps := by
      rcases inodeCreate_storage call with eq | eq <;> simp only [maps, eq]
    exact ⟨maps ▸ h.laid, h.indexed, h.granted, maps ▸ h.extents,
      fun x has used => h.known x (maps ▸ has) (maps ▸ used)⟩
  | write i file env buf len offset runs maps ret inode sbi live served far call =>
    obtain ⟨alike, own⟩ := inodeWriteAtomic_accounts (h.accounts live) h.laid served far call
    exact h.change alike own
  | resize i file env ts pmLogHead links newSize ret inode sbi live cut supplied far call =>
    obtain ⟨alike, own⟩ := inodeResize_accounts (h.accounts live) h.laid cut supplied far call
    exact h.change alike own
  | unlink i file live named => exact h.change (.refl _) (h.accounts live)
  | release i file live unnamed =>
    have own := h.accounts live
    obtain ⟨alike, used⟩ := doInodeRelease_clears h.laid own.extents
    refine h.set alike ?_ ?_
    · rintro f ⟨⟩
    intro x _ has set
    have has := (alike.has x).mp has
    obtain ⟨before, clear⟩ := used x has set
    rcases own.known x has before with out | ⟨k, place⟩
    · exact out
    · obtain ⟨fe, mapped, rfl⟩ := Option.map_eq_some_iff.mp place
      have cover := own.indexed.booked.cover k fe mapped
      exact absurd ⟨by omega, by omega⟩ (clear fe (own.indexed.booked.balanced.owned k fe mapped))

/-! ## Concrete runs -/

/-- Four data blocks, of which block 0 is reserved. -/
def fourBlocks : Sbi :=
  { blankSbi 64 0#8 with
    storage := (blankStorage 64).withMaps (takeRange (emptyMaps 4) (some (0, 0, 1))).2.2 }

theorem fourBlocks_laid : fourBlocks.storage.data.maps.Laid :=
  (Alike.set (emptyMaps 4) 0 (m := markRange ((emptyMaps 4).map 0) 0 1) rfl rfl).laid
    (emptyMaps_ok 4).toLaid

theorem fourBlocks_reserved (x : Nat) (has : fourBlocks.storage.data.maps.Has x)
    (used : fourBlocks.storage.data.maps.used x = true) : x = 0 := by
  have below : x < 4 := (Nat.div_lt_iff_lt_mul (by decide)).mp has.1
  revert used
  interval_cases x <;> decide

/-- A new file with one block. -/
def oneBlock : Option (Inode × Sbi) :=
  (created fourBlocks).bind fun (inode, sbi) =>
    (inodeWriteAtomic firstFit sbi inode (fun _ => 1#8) 4096 0).bind fun (_, inode', sbi') =>
      if servesAtOnce firstFit sbi.storage.data.maps 1 then some (inode', sbi') else none

theorem DataStep.of_oneBlock {allowed : Inode → Nat → Prop} (call : oneBlock = some (inode, sbi)) :
    ∃ w : World, w.sbi = sbi ∧ w.files 0 = some ⟨inode, 1⟩ ∧
      (∀ i, i ≠ 0 → w.files i = none) ∧ Run (DataStep allowed) ⟨fourBlocks, fun _ => none⟩ w ∧
      Indexed inode ∧ ∀ k, 1 ≤ k → btreeGet inode.bRoot k = none := by
  obtain ⟨⟨inode0, sbi0⟩, create, call⟩ := Option.bind_eq_some_iff.mp call
  obtain ⟨⟨ret, inode', sbi'⟩, write, call⟩ := Option.bind_eq_some_iff.mp call
  obtain ⟨once, eq⟩ := Option.ite_none_right_eq_some.mp call
  cases eq
  have create := inodeCreate_of_created create
  have new := (inodeCreate_new (fun _ => rfl) create).1
  obtain ⟨runs, maps, served⟩ := Served.of_once once
  have only := ((Wrote.of_call write).outcome (J := fun _ _ => True) served (by decide) trivial
    (fun _ _ _ _ _ _ _ _ _ => trivial)).mapsOnly new.indexed served (by decide)
  refine ⟨_, rfl, ?_, ?_,
    .tail (.single (.create 0 firstFit true 0 _ _ inode0 sbi0 rfl (fun _ => rfl) (fun _ => rfl) create))
      (.write 0 ⟨inode0, 1⟩ firstFit _ 4096 0 runs maps ret inode sbi (by simp [World.set]) served
        (by decide) write), only.indexed, fun k far => only.only k ?_ (new.unmapped k)⟩
  · simp [World.set]
  · intro i other
    simp [World.set, other]
  · rw [show blockCount 4096 0 = 1 by decide]
    omega

end SlotFs
