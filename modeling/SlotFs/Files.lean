import SlotFs.WriteIndex

/-!
# Files that share the data area

Any number of files that are created, written, unlinked and released over one set
of bitmaps. An overwrite gives back the blocks it replaces one by one, and
`do_inode_release` gives back whole extents, the replaced blocks included.
-/

namespace SlotFs
open CWord Runs List

variable {allowed : World → Nat → LiveFile → Prop} {b : Maps} {env : Env} {file : Option LiveFile} {i : Nat}
  {inode inode' : Inode} {outside : Nat → Prop} {runs : List (Nat × Nat)} {sbi : Sbi} {w : World}

/-- A file that has not been released; `iLink` counts its names. -/
structure LiveFile where
  inode : Inode
  iLink : Nat

/-- The files by the place of their inodes in DRAM. -/
structure World where
  sbi : Sbi
  files : Nat → Option LiveFile

def World.set (w : World) (i : Nat) (file : Option LiveFile) (sbi : Sbi) : World :=
  ⟨sbi, Function.update w.files i file⟩

def World.maps (w : World) : Maps := w.sbi.storage.data.maps

/-- Block `b` belongs to logical block `k` of file `i`. -/
def World.Owns (w : World) (i k b : Nat) : Prop :=
  ∃ file, w.files i = some file ∧ file.inode.phys k = some b

/-- A run of free bits inside of one map that `set_bit_range` marks to its end, with
block numbers that fit a record. -/
structure FreeRun (b : Maps) (i s c : Nat) : Prop where
  map : i < b.num
  inside : s + c ≤ (b.map i).bitNum
  free : ∀ j < c, bit (b.map i).dram (s + j) = false
  marked : markedLength s c = c
  narrow : s + (b.map i).bitOffset + c ≤ 2 ^ 32

theorem FreeRun.taken {s c : Nat} (h : FreeRun b i s c) (laid : b.Laid) :
    Taken b (s + (b.map i).bitOffset) c (b.set i (markRange (b.map i) s c)) := by
  refine .of_mark laid h.map h.inside (fun j lo hi => ?_) h.marked
  have free := h.free (j - s) (by omega)
  rwa [Nat.add_sub_cancel' lo] at free

/-- One call. A write ends below block `2 ^ 31` and has its requests for blocks
served by free runs; `allowed` says which files may be released. -/
inductive FileStep (allowed : World → Nat → LiveFile → Prop) (w : World) : World → Prop
  | create (i : Nat) (env : Env) (granted : Bool) (appended : Int) (nodes entries : Nat → Bool)
      (inode : Inode) (sbi : Sbi) (new : w.files i = none) (supply : ∀ n, nodes n = true)
      (call : inodeCreate env w.sbi granted appended nodes entries = some (.ok inode, sbi)) :
      FileStep allowed w (w.set i (some ⟨inode, 1⟩) sbi)
  | createFailed (env : Env) (granted : Bool) (appended : Int) (nodes entries : Nat → Bool)
      (e : Int) (sbi : Sbi)
      (call : inodeCreate env w.sbi granted appended nodes entries = some (.error e, sbi)) :
      FileStep allowed w { w with sbi }
  | write (i : Nat) (file : LiveFile) (env : Env) (buf : Mem) (len offset : Nat)
      (runs : List (Nat × Nat)) (maps : Maps) (ret : Int) (inode : Inode) (sbi : Sbi)
      (live : w.files i = some file)
      (served : Served env FreeRun w.maps (blockCount len offset) runs maps)
      (far : offset + len ≤ (2 ^ 31 - 1) * 4096)
      (call : inodeWriteAtomic env w.sbi file.inode buf len offset = some (ret, inode, sbi)) :
      FileStep allowed w (w.set i (some { file with inode }) sbi)
  | unlink (i : Nat) (file : LiveFile) (live : w.files i = some file) (named : 0 < file.iLink) :
      FileStep allowed w (w.set i (some { file with iLink := file.iLink - 1 }) w.sbi)
  | release (i : Nat) (file : LiveFile) (live : w.files i = some file) (unnamed : file.iLink = 0)
      (ask : allowed w i file) :
      FileStep allowed w (w.set i none (doInodeRelease w.sbi file.inode))

/-- Every block of a live file is in use, and it belongs to one block of one file. -/
structure World.Safe (w : World) : Prop where
  used : ∀ i k b, w.Owns i k b → w.maps.Has b ∧ w.maps.used b = true
  apart : ∀ i j k l b, w.Owns i k b → w.Owns j l b → i = j ∧ k = l

structure World.Ok (w : World) : Prop where
  indexed : ∀ i file, w.files i = some file → Indexed file.inode
  laid : w.maps.Laid
  safe : w.Safe

/-- No extent on the list of the file holds a block of another file. -/
def ReleasesOwn (w : World) (i : Nat) (file : LiveFile) : Prop :=
  ∀ fe ∈ file.inode.list, ∀ b, (file.inode.fents fe).pIdx ≤ b →
    b < (file.inode.fents fe).pIdx + (file.inode.fents fe).blocks → ∀ j k, j ≠ i → ¬ w.Owns j k b

theorem World.set_owns {j k b : Nat} : (w.set i file sbi).Owns j k b ↔
      if j = i then ∃ f, file = some f ∧ f.inode.phys k = some b else w.Owns j k b := by
  by_cases e : j = i
  · subst e
    simp [World.Owns, World.set]
  · simp [World.Owns, World.set, e]

/-! ## The blocks of a write -/

/-- Block `b` is in one of the runs. -/
def InRuns (runs : List (Nat × Nat)) (b : Nat) : Prop := ∃ run ∈ runs, run.1 ≤ b ∧ b < run.1 + run.2

theorem inRuns_cons {p c b : Nat} : InRuns ((p, c) :: runs) b ↔ (p ≤ b ∧ b < p + c) ∨ InRuns runs b := by
  simp [InRuns]

/-- The blocks of `runs` have been taken for the file and are yet to be entered. -/
structure Claimed (outside : Nat → Prop) (runs : List (Nat × Nat)) (inode : Inode) (maps : Maps) :
    Prop where
  placed : Placed (fun b => outside b ∨ InRuns runs b) (btreeGet inode.bRoot) inode.fents maps
  new : ∀ b, InRuns runs b → maps.Has b ∧ ¬ outside b
  apart : runs.Pairwise fun r q => ∀ b, r.1 ≤ b → b < r.1 + r.2 → ¬ (q.1 ≤ b ∧ b < q.1 + q.2)
  narrow : ∀ run ∈ runs, run.1 + run.2 ≤ 2 ^ 32

theorem Placed.congr {outside' : Nat → Prop} {m : Nat → Option Nat} {fents : Nat → Filent} {maps : Maps}
    (h : Placed outside m fents maps) (same : ∀ b, outside' b ↔ outside b) : Placed outside' m fents maps := by
  obtain rfl : outside' = outside := funext fun b => propext (same b)
  exact h

theorem Served.claimed {b' : Maps} {n : Nat} (served : Served env FreeRun b n runs b')
    (placed : Placed outside (btreeGet inode.bRoot) inode.fents b) :
    Claimed outside runs inode b' ∧ ∀ x, b'.Has x ↔ b.Has x := by
  induction served generalizing outside with
  | done =>
    refine ⟨⟨placed.congr fun x => ?_, ?_, .nil, ?_⟩, fun _ => Iff.rfl⟩
    · simp [InRuns]
    · rintro x ⟨_, hr, _⟩
      cases hr
    · exact fun run hr => nomatch hr
  | @more b b' n i s c runs pick least most good rest ih =>
    have taken := good.taken placed.laid
    obtain ⟨⟨placed', new, apart, narrow⟩, has⟩ := ih (taken.placed placed)
    refine ⟨⟨placed'.congr fun x => ?_, fun x hx => ?_, .cons ?_ apart, ?_⟩,
      fun x => (has x).trans (taken.has x)⟩
    · rw [inRuns_cons, or_assoc]
    · rcases inRuns_cons.mp hx with range | later
      · obtain ⟨there, free⟩ := taken.new placed x range.1 range.2
        exact ⟨(has x).mpr there, free⟩
      · obtain ⟨there, free⟩ := new x later
        exact ⟨there, fun ho => free (.inl ho)⟩
    · intro q hq x lo hi inside
      exact (new x ⟨q, hq, inside⟩).2 (.inr ⟨lo, hi⟩)
    intro run hr
    rcases mem_cons.mp hr with rfl | hr
    · exact good.narrow
    · exact narrow run hr

/-- The next run becomes an extent of the file. -/
theorem Claimed.append {env : Env} {outside : Nat → Prop} {start p n ts : Nat}
    {runs : List (Nat × Nat)} {s : Storage} {inode inode1 inode' : Inode} {c : Chosen} {files : Maps}
    (h : Claimed outside ((p, n) :: runs) inode s.data.maps) (indexed : Indexed inode)
    (keyed : (⟨start, p, n⟩ : EntryUnit).Keyed) (choice : Choice env s.files inode c inode1 files)
    (appended : Appended inode inode1 ((⟨start, p, n⟩ : EntryUnit).record ts) c inode') :
    let maps := (s.appended inode inode1 inode' ((⟨start, p, n⟩ : EntryUnit).record ts) c
      files).data.maps
    Claimed outside runs inode' maps ∧ ∀ b, maps.Has b ↔ s.data.maps.Has b := by
  obtain ⟨first, apart⟩ := pairwise_cons.mp h.apart
  obtain ⟨hl, hb⟩ := keyed.record ts
  obtain ⟨nonempty, below⟩ := keyed
  have narrow := h.narrow (p, n) (mem_cons_self ..)
  dsimp only at hl hb nonempty below narrow
  have free {b : Nat} (lo : p ≤ b) (hi : b < p + n) : ¬ InRuns runs b := by
    rintro ⟨q, hq, inside⟩
    exact first q hq b lo hi inside
  have taken : Placed (fun b => (outside b ∨ InRuns runs b) ∨ p ≤ b ∧ b < p + n)
      (btreeGet inode.bRoot) inode.fents s.data.maps :=
    h.placed.congr fun b => by rw [inRuns_cons, or_assoc, or_comm (a := InRuns runs b)]
  have new (b : Nat) (lo : p ≤ b) (hi : b < p + n) :
      s.data.maps.Has b ∧ ¬ (outside b ∨ InRuns runs b) := by
    obtain ⟨there, unused⟩ := h.new b (inRuns_cons.mpr (.inl ⟨lo, hi⟩))
    exact ⟨there, fun h => h.elim unused (free lo hi)⟩
  have hp : ((⟨start, p, n⟩ : EntryUnit).record ts).pIdx = p :=
    trunc32_of_lt (show p < 2 ^ 32 by omega)
  have sized : IntSized ((⟨start, p, n⟩ : EntryUnit).record ts) := by
    rw [IntSized, hl, hb]
    omega
  rw [← hp, ← hb] at taken new
  obtain ⟨placed, has⟩ := appended.placed choice indexed sized taken new
  refine ⟨⟨placed, fun b hb => ?_, apart, fun run hr => h.narrow run (mem_cons_of_mem _ hr)⟩, has⟩
  obtain ⟨there, unused⟩ := h.new b (inRuns_cons.mpr (.inr hb))
  exact ⟨(has b).mpr there, unused⟩

/-- A write of a file moves blocks between `outside` and the file, but a block that was
outside stays there and stays in use. -/
structure Rewritten (outside : Nat → Prop) (b : Maps) (inode : Inode) (maps : Maps) : Prop where
  indexed : Indexed inode
  placed : ∃ outside', (∀ x, outside x → outside' x) ∧
    Placed outside' (btreeGet inode.bRoot) inode.fents maps
  has : ∀ x, maps.Has x ↔ b.Has x

theorem appendUnits_rewritten {start ts : Nat} {s s' : Storage} {r : Except Int Unit}
    (keyed : ∀ u ∈ layout start runs, u.Keyed) (indexed : Indexed inode)
    (claimed : Claimed outside runs inode s.data.maps) (has : ∀ x, s.data.maps.Has x ↔ b.Has x)
    (call : appendUnits env ts (layout start runs) inode s = some (r, inode', s')) :
    Rewritten outside b inode' s'.data.maps := by
  obtain ⟨_, ⟨indexed', has', _, _, rfl, claimed', _⟩, _⟩ := appendUnits_rule
    (I := fun rest inode s => Indexed inode ∧ (∀ x, s.data.maps.Has x ↔ b.Has x) ∧
      ∃ start runs, rest = layout start runs ∧ Claimed outside runs inode s.data.maps ∧
        ∀ u ∈ rest, u.Keyed)
    (fun h => h.1)
    (fun {u rest inode s c inode1 files inode'} h choice appended => by
      obtain ⟨indexed, has, start, runs, eq, claimed, keyed⟩ := h
      obtain _ | ⟨⟨p, n⟩, runs⟩ := runs
      · cases eq
      cases eq
      obtain ⟨claimed', has'⟩ := claimed.append indexed (keyed _ (mem_cons_self ..)) choice
        appended
      exact ⟨appended.indexed, fun x => (has' x).trans (has x), _, runs, rfl, claimed',
        fun v hv => keyed v (mem_cons_of_mem _ hv)⟩)
    (fun num ⟨indexed, has, start, runs, eq, claimed, keyed⟩ =>
      ⟨indexed.recount num, has, start, runs, eq,
        ⟨claimed.placed, claimed.new, claimed.apart, claimed.narrow⟩, keyed⟩)
    keyed ⟨indexed, has, start, runs, rfl, claimed, keyed⟩ call
  exact ⟨indexed', ⟨_, fun _ => .inl, claimed'.placed⟩, has'⟩

theorem Rewritten.resize {maps : Maps} (h : Rewritten outside b inode maps) (size : Nat) :
    Rewritten outside b { inode with iSize := size } maps :=
  ⟨h.indexed.resize size, h.placed, h.has⟩

theorem inodeWriteAtomic_rewritten {sbi' : Sbi} {buf : Mem} {len offset : Nat} {b' : Maps} {ret : Int}
    (call : inodeWriteAtomic env sbi inode buf len offset = some (ret, inode', sbi'))
    (served : Served env FreeRun sbi.storage.data.maps (blockCount len offset) runs b')
    (far : offset + len ≤ (2 ^ 31 - 1) * 4096) (indexed : Indexed inode)
    (placed : Placed outside (btreeGet inode.bRoot) inode.fents sbi.storage.data.maps) :
    Rewritten outside sbi.storage.data.maps inode' sbi'.storage.data.maps := by
  obtain ⟨claimed, has⟩ := served.claimed placed
  have outcome := (Wrote.of_call call).outcome (J := fun _ _ => True) served (by omega) trivial
    (fun _ _ _ _ _ _ _ _ _ => trivial)
  cases outcome with
  | inPlace _ size _ fe fits mapped blocks storage ts grown =>
    rw [storage]
    exact ⟨indexed.resize size, ⟨outside, fun _ ho => ho, placed⟩, fun _ => Iff.rfl⟩
  | failed _ _ _ append ts content =>
    exact appendUnits_rewritten (served.keyed far) indexed claimed has append
  | logged inode1 _ append ts content =>
    exact (appendUnits_rewritten (served.keyed far) indexed claimed has append).resize _

/-! ## The release of a file -/

theorem doSlotFreeRange_keeps (b : Maps) (n c : Nat) {j : Nat} (outside : ¬ (n ≤ j ∧ j < n + c)) :
    (doSlotFreeRange b n c).used j = b.used j := by
  rw [doSlotFreeRange_eq, Maps.set_used (m := unmarkRange _ _ _) rfl]
  split
  · rename_i same
    have le := markedLength_le (n % (b.map 0).bitNum) c
    have en := Nat.div_add_mod n (b.map 0).bitNum
    have ej := Nat.div_add_mod j (b.map 0).bitNum
    rw [same] at ej
    simp only [unmarkRange, bit_clearBitRange]
    rw [decide_eq_false (by omega), Maps.used, same]
    simp
  · rfl

/-- One turn of the loop of `do_inode_release`. -/
def releaseExtent (inode : Inode) (s : Storage) (fe : Nat) : Storage :=
  { s with
    data := slotDataFree s.data (inode.fents fe).pIdx (inode.fents fe).blocks
    files := doSlotFree s.files (inode.fents fe).idx }

theorem doInodeRelease_laid (inode : Inode) (list : List Nat) (s : Storage)
    (laid : s.data.maps.Laid) : (list.foldl (releaseExtent inode) s).data.maps.Laid := by
  induction list generalizing s with
  | nil => exact laid
  | cons fe list ih =>
    apply ih
    rw [releaseExtent, slotDataFree, doSlotFreeRange_eq]
    exact laid.set _ rfl rfl

theorem doInodeRelease_maps (inode : Inode) (list : List Nat) (s : Storage) {b : Nat}
    (apart : ∀ fe ∈ list, ¬ ((inode.fents fe).pIdx ≤ b ∧
      b < (inode.fents fe).pIdx + (inode.fents fe).blocks)) :
    ((list.foldl (releaseExtent inode) s).data.maps.Has b ↔ s.data.maps.Has b) ∧
    (list.foldl (releaseExtent inode) s).data.maps.used b = s.data.maps.used b := by
  induction list generalizing s with
  | nil => exact ⟨Iff.rfl, rfl⟩
  | cons fe list ih =>
    obtain ⟨has, used⟩ := ih (releaseExtent inode s fe) fun o ho => apart o (mem_cons_of_mem _ ho)
    refine ⟨has.trans ?_, used.trans ?_⟩
    · rw [releaseExtent, slotDataFree, doSlotFreeRange_eq]
      exact Maps.set_has (m := unmarkRange _ _ _) rfl b
    · exact doSlotFreeRange_keeps _ _ _ (apart fe (mem_cons_self ..))

/-! ## Runs -/

/-- One file changes, and the blocks of the others stay in use. -/
theorem World.Ok.set (ok : w.Ok) (indexed : ∀ f, file = some f → Indexed f.inode)
    (laid : sbi.storage.data.maps.Laid) (kept : ∀ j k b, j ≠ i → w.Owns j k b →
      sbi.storage.data.maps.Has b ∧ sbi.storage.data.maps.used b = true)
    (own : ∀ f k b, file = some f → f.inode.phys k = some b →
      (sbi.storage.data.maps.Has b ∧ sbi.storage.data.maps.used b = true) ∧
      (∀ l, f.inode.phys l = some b → k = l) ∧ ∀ j l, j ≠ i → ¬ w.Owns j l b) : (w.set i file sbi).Ok := by
  refine ⟨fun j f live => ?_, laid, fun j k b hb => ?_, fun j j' k l b hb hb' => ?_⟩
  · by_cases e : j = i
    · subst e
      exact indexed f (by simpa [World.set] using live)
    · exact ok.indexed j f (by simpa [World.set, e] using live)
  · rw [World.set_owns] at hb
    split at hb
    · obtain ⟨f, hf, phys⟩ := hb
      exact (own f k b hf phys).1
    · rename_i other
      exact kept j k b other hb
  rw [World.set_owns] at hb hb'
  split at hb <;> rename_i hj <;> split at hb' <;> rename_i hj'
  · obtain ⟨f, hf, phys⟩ := hb
    obtain ⟨f', hf', phys'⟩ := hb'
    obtain rfl : f = f' := Option.some.inj (hf.symm.trans hf')
    exact ⟨hj.trans hj'.symm, (own f k b hf phys).2.1 l phys'⟩
  · obtain ⟨f, hf, phys⟩ := hb
    exact absurd hb' ((own f k b hf phys).2.2 j' l hj')
  · obtain ⟨f, hf, phys⟩ := hb'
    exact absurd hb ((own f l b hf phys).2.2 j k hj)
  · exact ok.safe.apart j j' k l b hb hb'

/-- What one file sees: everything else in use is outside. -/
theorem World.Ok.placed (ok : w.Ok) {file : LiveFile} (live : w.files i = some file) :
    Placed (fun b => w.maps.used b = true ∧ ∀ k, ¬ w.Owns i k b) (btreeGet file.inode.bRoot)
      file.inode.fents w.maps := by
  have owns {k b : Nat} (h : file.inode.phys k = some b) : w.Owns i k b := ⟨file, live, h⟩
  have mapped {b : Nat} : (∃ k, w.Owns i k b) ↔ ∃ k, file.inode.phys k = some b := by
    constructor
    · rintro ⟨k, file', live', phys⟩
      obtain rfl : file' = file := Option.some.inj (live'.symm.trans live)
      exact ⟨k, phys⟩
    · rintro ⟨k, phys⟩
      exact ⟨k, owns phys⟩
  refine ⟨fun k l b hk hl => (ok.safe.apart i i k l b (owns hk) (owns hl)).2, ok.laid, ?_, ?_⟩
  · rintro b ⟨k, phys⟩
    exact ⟨(ok.safe.used i k b (owns phys)).1, fun h => h.2 k (owns phys)⟩
  intro b has
  constructor
  · intro used
    by_cases inside : ∃ k, w.Owns i k b
    · exact .inr (mapped.mp inside)
    · exact .inl ⟨used, fun k hk => inside ⟨k, hk⟩⟩
  · rintro (⟨used, _⟩ | ⟨k, phys⟩)
    · exact used
    · exact (ok.safe.used i k b (owns phys)).2

/-- A call of any outcome takes a record slot at most. -/
theorem inodeCreate_storage {sbi' : Sbi} {granted : Bool} {appended : Int} {nodes entries : Nat → Bool}
    {r : Except Int Inode} (call : inodeCreate env sbi granted appended nodes entries = some (r, sbi')) :
    sbi'.storage = sbi.storage ∨ sbi'.storage =
      { sbi.storage with files := (doSlotAlloc sbi.storage.files (env.cpu sbi.storage.files)).2 } := by
  cases granted with
  | false =>
    simp only [inodeCreate, Bool.false_eq_true, if_false, Option.some.injEq, Prod.mk.injEq] at call
    rw [← call.2]
    exact .inl rfl
  | true =>
    simp only [inodeCreate, if_true] at call
    obtain ⟨inode, _, eq⟩ := Option.map_eq_some_iff.mp call
    split at eq
    · cases eq
      exact .inl rfl
    · split at eq <;> cases eq <;> exact .inr rfl

theorem FileStep.ok {w' : World} (ok : w.Ok) (step : FileStep ReleasesOwn w w') : w'.Ok := by
  cases step with
  | create i env granted appended nodes entries inode sbi new supply call =>
    have fresh := (inodeCreate_new supply call).1
    have data : sbi.storage.data = w.sbi.storage.data := by
      rcases inodeCreate_storage call with eq | eq <;> rw [eq]
    apply ok.set
    · rintro f ⟨⟩
      exact fresh.indexed
    · rw [data]
      exact ok.laid
    · intro j k b _ owns
      rw [data]
      exact ok.safe.used j k b owns
    · rintro f k b ⟨⟩ phys
      simp [Inode.phys, physOf, fresh.unmapped] at phys
  | createFailed env granted appended nodes entries e sbi call =>
    have maps : ({ w with sbi } : World).maps = w.maps := by
      rcases inodeCreate_storage call with eq | eq <;> simp only [World.maps, eq]
    refine ⟨ok.indexed, by rw [maps]; exact ok.laid, ?_, ok.safe.apart⟩
    rw [maps]
    exact ok.safe.used
  | write i file env buf len offset runs maps ret inode sbi live served far call =>
    obtain ⟨indexed, ⟨outside, keeps, placed⟩, has⟩ :=
      inodeWriteAtomic_rewritten call served far (ok.indexed i file live) (ok.placed live)
    have others {j k b : Nat} (other : j ≠ i) (owns : w.Owns j k b) : outside b :=
      keeps b ⟨(ok.safe.used j k b owns).2, fun l hl => other (ok.safe.apart j i k l b owns hl).1⟩
    apply ok.set
    · rintro f ⟨⟩
      exact indexed
    · exact placed.laid
    · intro j k b other owns
      have there := (has b).mpr (ok.safe.used j k b owns).1
      exact ⟨there, (placed.bits b there).mpr (.inl (others other owns))⟩
    rintro f k b ⟨⟩ phys
    obtain ⟨there, inside⟩ := placed.owns b ⟨k, phys⟩
    exact ⟨⟨there, (placed.bits b there).mpr (.inr ⟨k, phys⟩)⟩,
      fun l hl => placed.apart k l b phys hl, fun j l other owns => inside (others other owns)⟩
  | unlink i file live named =>
    apply ok.set
    · rintro f ⟨⟩
      exact ok.indexed i file live
    · exact ok.laid
    · exact fun j k b _ owns => ok.safe.used j k b owns
    rintro f k b ⟨⟩ phys
    have owns : w.Owns i k b := ⟨file, live, phys⟩
    exact ⟨ok.safe.used i k b owns,
      fun l hl => (ok.safe.apart i i k l b owns ⟨file, live, hl⟩).2,
      fun j l other owns' => other (ok.safe.apart j i l k b owns' owns).1⟩
  | release i file live unnamed own =>
    apply ok.set
    · rintro f ⟨⟩
    · exact (doInodeRelease_laid file.inode file.inode.list w.sbi.storage ok.laid)
    · intro j k b other owns
      have maps := doInodeRelease_maps file.inode file.inode.list w.sbi.storage (b := b)
        fun fe member inside => own fe member b inside.1 inside.2 j k other owns
      obtain ⟨there, used⟩ := ok.safe.used j k b owns
      exact ⟨maps.1.mpr there, maps.2.trans used⟩
    · rintro f k b ⟨⟩

/-! ## Concrete runs -/

instance (b : Maps) (i s c : Nat) : Decidable (FreeRun b i s c) :=
  decidable_of_iff (i < b.num ∧ s + c ≤ (b.map i).bitNum ∧
      (∀ j < c, bit (b.map i).dram (s + j) = false) ∧ markedLength s c = c ∧
      s + (b.map i).bitOffset + c ≤ 2 ^ 32)
    ⟨fun ⟨h1, h2, h3, h4, h5⟩ => ⟨h1, h2, h3, h4, h5⟩, fun h => ⟨h.1, h.2, h.3, h.4, h.5⟩⟩

/-- The first answer of the allocator serves the whole request. -/
def servesAtOnce (env : Env) (b : Maps) (n : Nat) : Bool :=
  match env.pick b n with
  | some (i, s, c) => decide (c = n ∧ 1 ≤ c ∧ FreeRun b i s c)
  | none => false

theorem Served.of_once {n : Nat} (h : servesAtOnce env b n = true) :
    ∃ runs b', Served env FreeRun b n runs b' := by
  unfold servesAtOnce at h
  split at h
  · rename_i i s c pick
    obtain ⟨rfl, least, good⟩ := of_decide_eq_true h
    exact ⟨_, _, .more pick least le_rfl good (by rw [Nat.sub_self]; exact .done _)⟩
  · cases h

/-- A file system with three data blocks. -/
def crowded : Sbi :=
  { blankSbi 64 0#8 with storage := (blankStorage 64).withMaps (emptyMaps 3) }

/-- A write for which the allocator finds all blocks at once. -/
def rewritten (sbi : Sbi) (inode : Inode) (len : Nat) : Option (Inode × Sbi) :=
  if servesAtOnce firstFit sbi.storage.data.maps (blockCount len 0) then
    (inodeWriteAtomic firstFit sbi inode (fun _ => 1#8) len 0).map Prod.snd
  else none

theorem FileStep.of_created (new : w.files i = none) (call : created w.sbi = some (inode, sbi)) :
    FileStep allowed w (w.set i (some ⟨inode, 1⟩) sbi) :=
  .create i firstFit true 0 _ _ inode sbi new (fun _ => rfl) (inodeCreate_of_created call)

theorem FileStep.of_rewritten {file : LiveFile} (live : w.files i = some file) {len : Nat}
    (far : len ≤ (2 ^ 31 - 1) * 4096) (call : rewritten w.sbi file.inode len = some (inode, sbi)) :
    FileStep allowed w (w.set i (some { file with inode }) sbi) := by
  unfold rewritten at call
  split at call
  · rename_i once
    obtain ⟨⟨ret, _, _⟩, write, eq⟩ := Option.map_eq_some_iff.mp call
    cases eq
    obtain ⟨runs, maps, served⟩ := Served.of_once once
    exact .write i file firstFit _ len 0 runs maps ret inode sbi live served (by omega) write
  · cases call

theorem World.Ok.empty (laid : sbi.storage.data.maps.Laid) : (⟨sbi, fun _ => none⟩ : World).Ok := by
  refine ⟨fun _ _ live => (nomatch live), laid, fun i k b owns => ?_, fun i j k l b owns => ?_⟩ <;>
  · obtain ⟨_, live, _⟩ := owns
    cases live

end SlotFs
