import SlotFs.Lib.Stamped
import SlotFs.RecoverFile

/-!
# A crash while a record is written

`file_append_entry` writes its record to PM field by field, `next` last. In the ghost slot the
record is not part of the log until its `next` is there. A reused record is part of the log all
the time, so that each of its half-written states competes with the other records.
-/

namespace SlotFs
open CWord Chains Stamped Function List Option

variable {entry : PmFilent} {env : Env} {inode : Inode} {s s' : Storage}

/-! ## The stores -/

/-- The stores of `avx_cpy` to a record, in their order. -/
def recordStores (entry : PmFilent) : List (PmFilent → PmFilent) :=
  [fun r => { r with lIdx := entry.lIdx, narrow := ⟨entry.narrow.1, r.narrow.2⟩ },
    fun r => { r with pIdx := entry.pIdx, narrow := ⟨r.narrow.1, entry.narrow.2.1, r.narrow.2.2⟩ },
    fun r => { r with blocks := entry.blocks, narrow := ⟨r.narrow.1, r.narrow.2.1, entry.narrow.2.2⟩ },
    fun r => { r with ts := entry.ts },
    fun r => { r with next := entry.next }]

/-- A record after the first `n` stores. -/
def writeRecord (n : Nat) (entry r : PmFilent) : PmFilent :=
  ((recordStores entry).take n).foldl (fun r store => store r) r

/-- The records in PM when `file_append_entry` crashes after `n` stores. -/
def fileAppendCrash (env : Env) (s : Storage) (inode : Inode) (entry : PmFilent) (n : Nat) :
    Option (Int → PmFilent) :=
  match chooseEntry env s.files inode (trunc32 (entry.blocks * 4096)) with
  | (.error _, _, _) => some s.fentTable
  | (.ok c, inode, _) =>
    (fileIndexInsert (fillEntry inode c entry) s.data c.fe).map fun (_, inode, _) =>
      update s.fentTable c.fno
        (writeRecord n { entry with next := c.reuse.getD inode.ghostSlot } (s.fentTable c.fno))

theorem writeRecord_all (n : Nat) (entry r : PmFilent) : writeRecord (n + 5) entry r = entry := by
  rw [writeRecord, take_of_length_le (by simp [recordStores])]
  rfl

theorem writeRecord_next {n : Nat} {r : PmFilent} (kept : n < 5 ∨ entry.next = r.next) :
    (writeRecord n entry r).next = r.next := by
  by_cases short : n < 5
  · interval_cases n <;> rfl
  · obtain ⟨n, rfl⟩ := Nat.exists_eq_add_of_le' (not_lt.mp short)
    rw [writeRecord_all]
    exact kept.resolve_left short

/-- Where a call writes its record: nowhere, to the ghost slot or over a record that no block
refers to. -/
theorem fileAppendCrash_cases {inode' : Inode} {r : Except Int Nat}
    (call : fileAppendEntry env s inode entry = some (r, inode', s')) :
    ((filentDispatch env inode (trunc32 (entry.blocks * 4096))).1 = none ∧
      ((∀ n, fileAppendCrash env s inode entry n = some s.fentTable) ∨
        ∃ next, s'.fentTable = update s.fentTable inode.ghostSlot { entry with next } ∧
          ∀ n, fileAppendCrash env s inode entry n = some (update s.fentTable inode.ghostSlot
            (writeRecord n { entry with next } (s.fentTable inode.ghostSlot))))) ∨
    ∃ fe ∈ inode.invalid, (filentDispatch env inode (trunc32 (entry.blocks * 4096))).1 = some fe ∧
      s'.fentTable = update s.fentTable (inode.fents fe).idx
        { entry with next := reuseNext inode fe } ∧
      ∀ n, fileAppendCrash env s inode entry n = some (update s.fentTable (inode.fents fe).idx
        (writeRecord n { entry with next := reuseNext inode fe } (s.fentTable (inode.fents fe).idx))) := by
  unfold fileAppendEntry at call
  unfold fileAppendCrash
  obtain ⟨fe, rest, idle, dispatch⟩ | ⟨num, dispatch⟩ :=
    filentDispatch_cases env inode (trunc32 (entry.blocks * 4096))
  · refine Or.inr ⟨fe, by rw [idle]; exact mem_cons_self .., by rw [dispatch], ?_⟩
    simp only [chooseEntry, dispatch] at call ⊢
    obtain ⟨out, insert, eq⟩ := map_eq_some_iff.mp call
    cases eq
    refine ⟨rfl, fun n => ?_⟩
    rw [insert]
    rfl
  refine Or.inl ⟨by rw [dispatch], ?_⟩
  generalize chosen : chooseEntry env s.files inode (trunc32 (entry.blocks * 4096)) = out at call
  obtain ⟨_ | c, inode1, files⟩ := out
  · exact .inl fun _ => rfl
  obtain ⟨inserted, insert, eq⟩ := map_eq_some_iff.mp call
  cases eq
  have here : c.fno = inode.ghostSlot := by
    simp only [chooseEntry, dispatch] at chosen
    generalize (if inode.symlink then (0, s.files) else doSlotAlloc s.files (env.cpu s.files)) = got
      at chosen
    split at chosen
    · cases chosen
    · split at chosen <;> cases chosen
      rfl
  refine Or.inr ⟨c.reuse.getD inserted.2.1.ghostSlot, by rw [here], fun n => ?_⟩
  dsimp only
  rw [insert, ← here]
  rfl

/-! ## The log after a crash -/

/-- Where the records of a log lead. The newest record counts, and of two that are as new the
one that `rc_handle_filent` has met first. -/
def logPhys (records : List PmFilent) : Nat → Option Nat :=
  resolve PmFilent.Covers PmFilent.ts (fun r k => r.pIdx + (k - r.lIdx)) records

/-- `phys` is what the records from `head` up to the first slot with `next = 0` say. -/
def LogMaps (table : Int → PmFilent) (num : Nat) (head : Int) (phys : Nat → Option Nat) : Prop :=
  ∃ slots ghost, LogOf (fun s => (table s).next) num head slots ghost ∧ phys = logPhys (slots.map table)

/-- At every crash point the log says what it said before the call or what it says after it. -/
def AppendAtomic (env : Env) (s : Storage) (inode : Inode) (entry : PmFilent) (num : Nat) (s' : Storage) :
    Prop :=
  ∀ n table, fileAppendCrash env s inode entry n = some table →
    LogMaps table num inode.logHead = LogMaps s.fentTable num inode.logHead ∨
    LogMaps table num inode.logHead = LogMaps s'.fentTable num inode.logHead

/-- A file whose log in PM, of slots below `num`, agrees with its index. -/
structure PmLogged (inode : Inode) (s : Storage) (num : Nat) : Prop where
  indexed : Indexed inode
  newest : Newest inode
  records : ∀ fe ∈ inode.list, (s.fentTable (inode.fents fe).idx).Records (inode.fents fe)
  log : LogOf s.next num inode.logHead inode.slots inode.ghostSlot

section
variable {table : Int → PmFilent} {num : Nat} {head ghost slot : Int} {slots : List Int} {r : PmFilent}

section
variable (log : LogOf (fun s => (table s).next) num head slots ghost)
include log

theorem LogOf.maps_eq : LogMaps table num head = fun phys => phys = logPhys (slots.map table) := by
  funext phys
  apply propext
  constructor
  · rintro ⟨slots', ghost', log', rfl⟩
    rw [(log.unique log').1]
  · rintro rfl
    exact ⟨slots, ghost, log, rfl⟩

theorem LogOf.update (same : r.next = (table slot).next) :
    LogOf (fun s => (update table slot r s).next) num head slots ghost := by
  have next : (fun s => (Function.update table slot r s).next) = fun s => (table s).next := by
    funext x
    by_cases here : x = slot
    · rw [here, update_self, same]
    · rw [update_of_ne here]
  rwa [next]

theorem LogOf.ghost_apart : ghost ∉ slots :=
  fun member => disjoint_of_nodup_append log.full.nodup member (mem_singleton_self _)

theorem LogOf.maps_ghost (same : r.next = (table ghost).next) :
    LogMaps (Function.update table ghost r) num head = LogMaps table num head := by
  rw [log.maps_eq, (log.update same).maps_eq]
  have others : slots.map (Function.update table ghost r) = slots.map table := by
    refine List.map_congr_left fun s member => Function.update_of_ne ?_ _ _
    rintro rfl
    exact log.ghost_apart member
  rw [others]

end

theorem LogOf.maps_update {front back : List Int}
    (log : LogOf (fun s => (table s).next) num head (front ++ slot :: back) ghost)
    (same : r.next = (table slot).next) : LogMaps (Function.update table slot r) num head =
      fun phys => phys = logPhys (front.map table ++ r :: back.map table) := by
  rw [(log.update same).maps_eq]
  have once := log.chain.nodup
  have others (l : List Int) (apart : slot ∉ l) : l.map (Function.update table slot r) = l.map table := by
    refine List.map_congr_left fun s member => Function.update_of_ne ?_ _ _
    rintro rfl
    exact apart member
  have outside := (List.nodup_cons.mp (List.nodup_middle.mp once)).1
  rw [List.map_append, List.map_cons, Function.update_self,
    others front fun member => outside (List.mem_append_left _ member),
    others back fun member => outside (List.mem_append_right _ member)]

end

/-! ## Overwriting a record -/

/-- A record with timestamp `ts` in the place of `fe` counts for block `k`. -/
def Inode.Counts (inode : Inode) (fe ts k : Nat) : Prop :=
  ∀ o ∈ inode.list, o ≠ fe → (inode.fents o).Covers k → (inode.fents o).ts < ts ∨
    (inode.fents o).ts = ts ∧ inode.list.idxOf fe < inode.list.idxOf o

/-- The record of `fe`, moved to where `entry` begins, counts for block `k`. -/
def Inode.Moved (inode : Inode) (fe : Nat) (entry : PmFilent) (k : Nat) : Prop :=
  (entry.lIdx ≤ k ∧ k < entry.lIdx + (inode.fents fe).blocks) ∧ inode.Counts fe (inode.fents fe).ts k

/-- Block `k` of `entry` is not the one that the file has there already. -/
def Inode.Differs (inode : Inode) (entry : PmFilent) (k : Nat) : Prop :=
  entry.Covers k ∧ inode.phys k ≠ some (entry.pIdx + (k - entry.lIdx))

/-- What the stores to the record of `fe` show before they are complete. `p_idx` is the same
or shows nothing new; beyond the end of `entry` the old length shows nothing new; and the blocks
of `entry` come to count all at once, with `ts`, with `p_idx` or with `blocks`. -/
structure Inode.Overwritable (inode : Inode) (fe : Nat) (entry : PmFilent) : Prop where
  place : (inode.fents fe).pIdx = entry.pIdx ∨
    ∀ k, inode.Moved fe entry k → inode.phys k = some ((inode.fents fe).pIdx + (k - entry.lIdx))
  beyond : ∀ k, inode.Moved fe entry k → ¬ entry.Covers k →
    inode.phys k = some (entry.pIdx + (k - entry.lIdx))
  once : (∀ k, inode.Differs entry k → ¬ inode.Counts fe (inode.fents fe).ts k) ∨
    (∀ k, inode.Differs entry k →
      (inode.Counts fe (inode.fents fe).ts k ↔ inode.Counts fe entry.ts k) ∧
      (inode.Counts fe (inode.fents fe).ts k → k < entry.lIdx + (inode.fents fe).blocks)) ∨
    ∀ k, inode.Differs entry k →
      (inode.Counts fe (inode.fents fe).ts k ↔ inode.Counts fe entry.ts k) ∧
      (inode.Counts fe (inode.fents fe).ts k → entry.lIdx + (inode.fents fe).blocks ≤ k)

section
variable {inode : Inode} {s : Storage} {num fe : Nat} {before after : List Nat}

theorem PmLogged.logPhys_eq (h : PmLogged inode s num) : logPhys (inode.slots.map s.fentTable) = inode.phys := by
  obtain ⟨_, mapped, free⟩ := h.newest.determines h.indexed h.log.chain h.records
  funext k
  cases found : filentLookup inode k with
  | none =>
    have none : (inode.slots.map s.fentTable).filter (fun r => r.Covers k) = [] := by
      refine filter_eq_nil_iff.mpr (forall_mem_map.mpr fun slot member => ?_)
      simpa using (free k).mp found slot member
    rw [logPhys, resolve, none]
    simpa [Inode.phys, physOf, filentLookup] using found
  | some f =>
    obtain ⟨slot, member, _, records, covers, newest⟩ := mapped k f found
    have best : ((inode.slots.map s.fentTable).filter fun r => r.Covers k).argmax PmFilent.ts =
        some (s.fentTable slot) := by
      apply argmax_eq_of_lt
      · exact mem_filter.mpr ⟨mem_map_of_mem member, decide_eq_true covers⟩
      intro r candidate
      obtain ⟨listed, covered⟩ := mem_filter.mp candidate
      obtain ⟨other, inside, rfl⟩ := mem_map.mp listed
      by_cases e : other = slot
      · exact Or.inl (e ▸ rfl)
      · exact Or.inr (newest other inside e (of_decide_eq_true covered))
    obtain ⟨fe, hk, rfl⟩ := map_eq_some_iff.mp found
    rw [logPhys, resolve, best, Inode.phys, physOf, hk, map_some, map_some, records.pIdx,
      records.lIdx]

/-- What is in front of `fe` has to be older and what is behind it no newer. -/
theorem Inode.counts_iff (once : inode.list.Nodup) (list : inode.list = before ++ fe :: after)
    {ts k : Nat} : inode.Counts fe ts k ↔
      (∀ o ∈ before, (inode.fents o).Covers k → (inode.fents o).ts < ts) ∧
      ∀ o ∈ after, (inode.fents o).Covers k → (inode.fents o).ts ≤ ts := by
  rw [list] at once
  obtain ⟨outside, _⟩ := nodup_cons.mp (nodup_middle.mp once)
  have apart := disjoint_of_nodup_append once
  have here : inode.list.idxOf fe = before.length := by
    rw [list, idxOf_append_of_notMem fun member => outside (mem_append_left _ member),
      idxOf_cons_self, Nat.add_zero]
  have front (o : Nat) (member : o ∈ before) : inode.list.idxOf o < before.length := by
    rw [list, idxOf_append_of_mem member]
    exact idxOf_lt_length_of_mem member
  have back (o : Nat) (member : o ∈ after) : before.length < inode.list.idxOf o := by
    have other : fe ≠ o := fun e => outside (mem_append_right _ (e ▸ member))
    rw [list, idxOf_append_of_notMem fun earlier => apart earlier (mem_cons_of_mem _ member),
      idxOf_cons_ne _ other]
    omega
  rw [Counts, here]
  constructor
  · intro counts
    constructor
    · intro o member covers
      have other : o ≠ fe := fun e => outside (mem_append_left _ (e ▸ member))
      rcases counts o (list ▸ mem_append_left _ member) other covers with older | ⟨_, behind⟩
      · exact older
      · have := front o member
        omega
    intro o member covers
    have other : o ≠ fe := fun e => outside (mem_append_right _ (e ▸ member))
    have listed : o ∈ inode.list := list ▸ mem_append_right _ (mem_cons_of_mem _ member)
    exact (counts o listed other covers).elim le_of_lt fun same => same.1.le
  · rintro ⟨older, no_newer⟩ o member other covers
    rw [list] at member
    rcases mem_append.mp member with earlier | later
    · exact .inl (older o earlier covers)
    · have later := (mem_cons.mp later).resolve_left other
      exact (no_newer o later covers).lt_or_eq.imp_right fun same => ⟨same, back o later⟩

/-- The records of some entries of the file. -/
def Storage.recordsOf (s : Storage) (inode : Inode) (fes : List Nat) : List PmFilent :=
  fes.map fun fe => s.fentTable (inode.fents fe).idx

theorem PmLogged.deciding_eq (h : PmLogged inode s num) (list : inode.list = before ++ fe :: after)
    (ts : Nat) : deciding PmFilent.Covers PmFilent.ts (s.recordsOf inode before) (s.recordsOf inode after) ts =
      {k | inode.Counts fe ts k} := by
  have covers {o : Nat} (member : o ∈ inode.list) (k : Nat) :
      (s.fentTable (inode.fents o).idx).Covers k ↔ (inode.fents o).Covers k := by
    obtain ⟨hl, _, hb, _⟩ := h.records o member
    rw [PmFilent.Covers, hl, hb, Filent.Covers]
  have front {o : Nat} (member : o ∈ before) : o ∈ inode.list := list ▸ List.mem_append_left _ member
  have back {o : Nat} (member : o ∈ after) : o ∈ inode.list :=
    list ▸ List.mem_append_right _ (List.mem_cons_of_mem _ member)
  ext k
  simp only [deciding, Storage.recordsOf, List.forall_mem_map, Set.mem_ofPred_eq,
    Inode.counts_iff h.indexed.once list]
  refine and_congr (forall₂_congr fun o member => ?_) (forall₂_congr fun o member => ?_)
  · rw [covers (front member), (h.records o (front member)).ts]
  · rw [covers (back member), (h.records o (back member)).ts]

theorem slots_records (list : inode.list = before ++ fe :: after) : inode.slots.map s.fentTable =
    s.recordsOf inode before ++ s.fentTable (inode.fents fe).idx :: s.recordsOf inode after := by
  rw [Inode.slots, list, List.map_map, List.map_append]
  rfl

section
variable (h : PmLogged inode s num) (list : inode.list = before ++ fe :: after) (idle : fe ∈ inode.invalid)
include h list idle

theorem PmLogged.others : logPhys (s.recordsOf inode before ++ s.recordsOf inode after) = inode.phys := by
  have member : fe ∈ inode.list := h.indexed.listed.idle fe idle
  have whole := h.logPhys_eq
  rw [slots_records list, logPhys, resolve_middle, h.deciding_eq list] at whole
  rw [← whole]
  funext k
  refine (patch_of_not_mem ?_).symm
  rintro ⟨covers, counts⟩
  have records := h.records fe member
  have counts : inode.Counts fe (inode.fents fe).ts k := records.ts ▸ counts
  have covers : (inode.fents fe).Covers k := by
    rw [Filent.Covers, ← records.lIdx, ← records.blocks]
    exact covers
  cases hk : btreeGet inode.bRoot k with
  | none => exact h.newest.free k hk fe member covers
  | some best =>
    have other : best ≠ fe := by
      rintro rfl
      exact h.indexed.booked.balanced.free_of_idle idle k hk
    have newer := h.newest.mapped k best hk fe member other.symm covers
    rcases counts best (h.indexed.booked.balanced.owned k best hk) other
      (h.indexed.booked.cover k best hk) with older | ⟨same, _⟩ <;> omega

theorem PmLogged.logPhys_update (r : PmFilent) :
    logPhys (s.recordsOf inode before ++ r :: s.recordsOf inode after) =
      patch ({k | r.Covers k} ∩ {k | inode.Counts fe r.ts k}) (fun k => r.pIdx + (k - r.lIdx)) inode.phys := by
  rw [logPhys, resolve_middle, h.deciding_eq list]
  exact congrArg _ (h.others list idle)

end

/-- What the log says with a half-written record in the place of `fe`. -/
def Storage.reading (s : Storage) (inode : Inode) (before : List Nat) (fe : Nat) (after : List Nat)
    (entry : PmFilent) (n : Nat) : Nat → Option Nat :=
  logPhys (s.recordsOf inode before ++
    writeRecord n entry (s.fentTable (inode.fents fe).idx) :: s.recordsOf inode after)

/-- The half-written states of a reused record. -/
theorem PmLogged.overwritable_iff (h : PmLogged inode s num) (list : inode.list = before ++ fe :: after)
    (idle : fe ∈ inode.invalid) (entry : PmFilent) (next : Int) :
    (∀ n, s.reading inode before fe after { entry with next } n = inode.phys ∨
      s.reading inode before fe after { entry with next } n = s.reading inode before fe after { entry with next } 5) ↔
    inode.Overwritable fe entry := by
  obtain ⟨_, hp, hb, ht⟩ := h.records fe (h.indexed.listed.idle fe idle)
  let old : Set Nat := {k | entry.lIdx ≤ k ∧ k < entry.lIdx + (inode.fents fe).blocks}
  let new : Set Nat := {k | entry.Covers k}
  let early : Set Nat := {k | inode.Counts fe (inode.fents fe).ts k}
  let late : Set Nat := {k | inode.Counts fe entry.ts k}
  let f (k : Nat) := (inode.fents fe).pIdx + (k - entry.lIdx)
  let g (k : Nat) := entry.pIdx + (k - entry.lIdx)
  have same_iff : f = g ↔ (inode.fents fe).pIdx = entry.pIdx :=
    ⟨fun same => by simpa [f, g] using congrFun same entry.lIdx, fun same => by simp only [f, g, same]⟩
  have apart : f = g ∨ ∀ k, f k ≠ g k := by
    rw [same_iff]
    refine or_iff_not_imp_left.mpr fun other k same => other ?_
    simpa [f, g] using same
  have zero : s.reading inode before fe after { entry with next } 0 = inode.phys := by
    rw [← h.logPhys_eq, slots_records list]
    rfl
  have one : s.reading inode before fe after { entry with next } 1 = patch (old ∩ early) f inode.phys := by
    simp only [old, early, f, ← hp, ← hb, ← ht]
    exact h.logPhys_update list idle _
  have two : s.reading inode before fe after { entry with next } 2 = patch (old ∩ early) g inode.phys := by
    simp only [old, early, ← hb, ← ht]
    exact h.logPhys_update list idle _
  have three : s.reading inode before fe after { entry with next } 3 = patch (new ∩ early) g inode.phys := by
    simp only [early, ← ht]
    exact h.logPhys_update list idle _
  have four : s.reading inode before fe after { entry with next } 4 = patch (new ∩ late) g inode.phys :=
    h.logPhys_update list idle _
  have five (n : Nat) : s.reading inode before fe after { entry with next } (n + 5) = patch (new ∩ late) g inode.phys := by
    rw [Storage.reading, writeRecord_all]
    exact h.logPhys_update list idle _
  have all : (∀ n, s.reading inode before fe after { entry with next } n = inode.phys ∨
      s.reading inode before fe after { entry with next } n = s.reading inode before fe after { entry with next } 5) ↔
      (patch (old ∩ early) f inode.phys = inode.phys ∨
        patch (old ∩ early) f inode.phys = patch (new ∩ late) g inode.phys) ∧
      (patch (old ∩ early) g inode.phys = inode.phys ∨
        patch (old ∩ early) g inode.phys = patch (new ∩ late) g inode.phys) ∧
      (patch (new ∩ early) g inode.phys = inode.phys ∨
        patch (new ∩ early) g inode.phys = patch (new ∩ late) g inode.phys) := by
    rw [five 0, ← one, ← two, ← three]
    refine ⟨fun each => ⟨each 1, each 2, each 3⟩, fun each n => ?_⟩
    rcases n with _ | _ | _ | _ | _ | n
    · exact .inl zero
    · exact each.1
    · exact each.2.1
    · exact each.2.2
    · exact .inr four
    · exact .inr (five n)
  rw [all, stages_iff apart, same_iff]
  constructor
  · rintro ⟨place, beyond, once⟩
    refine ⟨place, beyond, once.imp ?_ (.imp ?_ ?_)⟩
    · exact fun hidden k differs => hidden k differs.1 differs.2
    · intro shown k differs
      obtain ⟨counts, inside⟩ := shown k differs.1 differs.2
      exact ⟨counts, fun now => (inside now).2⟩
    · intro shown k differs
      obtain ⟨counts, outside⟩ := shown k differs.1 differs.2
      exact ⟨counts, fun now => not_lt.mp fun below => outside now ⟨differs.1.1, below⟩⟩
  rintro ⟨place, beyond, once⟩
  refine ⟨place, beyond, once.imp ?_ (.imp ?_ ?_)⟩
  · exact fun hidden k covers differs => hidden k ⟨covers, differs⟩
  · intro shown k covers differs
    obtain ⟨counts, below⟩ := shown k ⟨covers, differs⟩
    exact ⟨counts, fun now => ⟨covers.1, below now⟩⟩
  · intro shown k covers differs
    obtain ⟨counts, above⟩ := shown k ⟨covers, differs⟩
    exact ⟨counts, fun now inside => absurd inside.2 (not_lt.mpr (above now))⟩

/-- A reused record and the states in which it is found after a crash. -/
theorem PmLogged.reuse_iff (logged : PmLogged inode s num) (idle : fe ∈ inode.invalid)
    (whole : s'.fentTable = update s.fentTable (inode.fents fe).idx
      { entry with next := reuseNext inode fe })
    (points : ∀ n, fileAppendCrash env s inode entry n = some (update s.fentTable (inode.fents fe).idx
      (writeRecord n { entry with next := reuseNext inode fe } (s.fentTable (inode.fents fe).idx)))) :
    AppendAtomic env s inode entry num s' ↔ inode.Overwritable fe entry := by
  have member : fe ∈ inode.list := logged.indexed.listed.idle fe idle
  obtain ⟨before, after, list⟩ := append_of_mem member
  have next : reuseNext inode fe = (s.fentTable (inode.fents fe).idx).next :=
    reuseNext_eq logged.log.chain logged.indexed.once member
  have log := logged.log
  rw [Inode.slots, list, map_append] at log
  have point (n : Nat) : LogMaps (update s.fentTable (inode.fents fe).idx
      (writeRecord n { entry with next := reuseNext inode fe } (s.fentTable (inode.fents fe).idx)))
      num inode.logHead = fun phys =>
        phys = s.reading inode before fe after { entry with next := reuseNext inode fe } n := by
    rw [log.maps_update (writeRecord_next (Or.inr next)), List.map_map, List.map_map]
    rfl
  have old : LogMaps s.fentTable num inode.logHead = fun phys => phys = inode.phys := by
    rw [logged.log.maps_eq, logged.logPhys_eq]
  have new := point 5
  rw [writeRecord_all 0, ← whole] at new
  have equal (a b : Nat → Option Nat) : ((fun phys => phys = a) = fun phys => phys = b) ↔ a = b :=
    ⟨fun same => (congrFun same a).mp rfl, fun same => by rw [same]⟩
  rw [← logged.overwritable_iff list idle entry (reuseNext inode fe)]
  simp only [AppendAtomic, points, some.injEq, forall_eq', point, old, new, equal]

/-- Whether it appends a record or reuses one, `file_append_entry` is atomic under crashes
exactly if a record that it reuses can be overwritten field by field. -/
theorem append_crash_atomic_iff {env : Env} {inode' : Inode} {s' : Storage} {entry : PmFilent}
    {r : Except Int Nat} (logged : PmLogged inode s num)
    (call : fileAppendEntry env s inode entry = some (r, inode', s')) :
    AppendAtomic env s inode entry num s' ↔
      ∀ fe, (filentDispatch env inode (trunc32 (entry.blocks * 4096))).1 = some fe →
        inode.Overwritable fe entry := by
  obtain ⟨new, stores⟩ | ⟨fe, idle, reuse, whole, points⟩ := fileAppendCrash_cases call
  · refine iff_of_true ?_ fun fe reuse => ?_
    · rcases stores with points | ⟨next, whole, points⟩
      · intro n table crash
        rw [points] at crash
        cases crash
        exact .inl rfl
      -- A record that goes to the ghost slot is not part of the log until it is complete.
      · intro n table crash
        rw [points] at crash
        cases crash
        by_cases short : n < 5
        · exact .inl (logged.log.maps_ghost (writeRecord_next (.inl short)))
        · obtain ⟨n, rfl⟩ := Nat.exists_eq_add_of_le' (not_lt.mp short)
          rw [writeRecord_all, whole]
          exact .inr rfl
    · cases new.symm.trans reuse
  rw [logged.reuse_iff idle whole points]
  constructor
  · intro fits other same
    cases reuse.symm.trans same
    exact fits
  · exact fun fits => fits fe reuse

end

/-! ## Samples -/

instance (f : Filent) (k : Nat) : Decidable (f.Covers k) :=
  inferInstanceAs (Decidable (f.lIdx ≤ k ∧ k < f.lIdx + f.blocks))

instance (inode : Inode) (fe ts k : Nat) : Decidable (inode.Counts fe ts k) :=
  inferInstanceAs (Decidable (∀ o ∈ inode.list, o ≠ fe → (inode.fents o).Covers k → _))

theorem ScatterLog.append {env : Env} {inode inode' : Inode} {s s' : Storage} {entry : PmFilent} {fe n : Nat}
    (log : ScatterLog inode s) (spare : s.files.Spare (n + 1)) (nonempty : 1 ≤ entry.blocks)
    (small : entry.blocks < 2 ^ 31) (later : ∀ o ∈ inode.list, (inode.fents o).ts < entry.ts)
    (call : fileAppendEntry env s inode entry = some (.ok fe, inode', s')) :
    ScatterLog inode' s' ∧ s'.files.Spare n ∧ ∀ o ∈ inode'.list, (inode'.fents o).ts ≤ entry.ts := by
  obtain ⟨c, inode1, files, inode2, choice, appended, eq⟩ | ⟨_, _, eq⟩ :=
    fileAppendEntry_cases log.indexed nonempty small env s
  · cases eq.symm.trans call
    obtain ⟨onChain, fewer⟩ :=
      log.onChain.append log.indexed.listed log.regular choice appended.toEntered spare _
    refine ⟨⟨appended.indexed, appended.same.2.2.1.trans log.regular,
      log.newest.append appended fun o member _ _ _ _ => later o member, onChain⟩, fewer, fun o member => ?_⟩
    by_cases here : o = c.fe
    · obtain ⟨ref, filled⟩ := appended.filled
      rw [here, filled]
    · obtain ⟨ref, kept⟩ := appended.kept o here
      rw [kept]
      exact (later o (appended.toEntered.old member here)).le
  · cases eq.symm.trans call

/-- A record of one block. -/
def blockRecord (l p ts : Fin 64) : PmFilent :=
  ⟨l, p, 1, ts, 0, l.isLt.trans (by decide), p.isLt.trans (by decide), by decide⟩

/-- Slot 0 is reserved, and slot 1 is the ghost slot of a new file. -/
def reservedStorage : Storage :=
  ⟨⟨emptyMaps 64, []⟩, (doSlotAlloc (doSlotAlloc (emptyMaps 64) 0).2 0).2, fun _ => .zero⟩

def appendedBlock (f : Inode × Storage) (entry : PmFilent) : Option (Inode × Storage) :=
  match fileAppendEntry plainEnv f.2 f.1 entry with
  | some (.ok _, inode, s) => some (inode, s)
  | _ => none

/-- A file whose first block has been written twice. -/
def twiceWritten : Option (Inode × Storage) :=
  (newInode 1 1 (fun _ => true) (fun _ => true)).bind fun inode =>
    (appendedBlock (inode, reservedStorage) (blockRecord 0 8 1)).bind fun f => appendedBlock f (blockRecord 0 9 2)

theorem appendedBlock_log {f f' : Inode × Storage} {n : Nat} (log : ScatterLog f.1 f.2)
    (spare : f.2.files.Spare (n + 1)) (one : entry.blocks = 1)
    (later : ∀ o ∈ f.1.list, (f.1.fents o).ts < entry.ts) (call : appendedBlock f entry = some f') :
    ScatterLog f'.1 f'.2 ∧ f'.2.files.Spare n ∧ ∀ o ∈ f'.1.list, (f'.1.fents o).ts ≤ entry.ts := by
  unfold appendedBlock at call
  split at call
  · rename_i append
    cases call
    exact log.append spare (by omega) (by omega) later append
  · cases call

theorem twiceWritten_log (run : twiceWritten = some (inode, s)) : ScatterLog inode s := by
  obtain ⟨new, create, run⟩ := bind_eq_some_iff.mp run
  obtain ⟨f, first, second⟩ := bind_eq_some_iff.mp run
  obtain ⟨_, create', indexed, unmapped, list, _⟩ :=
    @newInode_indexed 1 1 (fun _ => true) (fun _ => true) fun _ => rfl
  rw [create] at create'
  cases create'
  have plain : new.symlink = false ∧ new.logHead = new.ghostSlot ∧ new.ghostSlot = 1 := by
    obtain ⟨_, _, rfl⟩ := map_eq_some_iff.mp create
    exact ⟨rfl, rfl, rfl⟩
  have small : (emptyMaps 64).Within (2 ^ 31) := fun _ _ => show 64 ≤ 2 ^ 31 by decide
  have zero : doSlotAlloc (emptyMaps 64) 0 = (0, (doSlotAlloc (emptyMaps 64) 0).2) :=
    Prod.ext (by decide +kernel) rfl
  have one : doSlotAlloc (doSlotAlloc (emptyMaps 64) 0).2 0 = (1, reservedStorage.files) :=
    Prod.ext (by decide +kernel) rfl
  obtain ⟨reserved, _⟩ := (Held.none (emptyMaps_ok 64) small).alloc zero le_rfl
  obtain ⟨held, _⟩ := (Held.none reserved.maps reserved.small).alloc one (by decide)
  have log : ScatterLog new reservedStorage :=
    .start indexed plain.1 unmapped list plain.2.1 (by rw [plain.2.2]; exact held)
  have spare : reservedStorage.files.Spare (1 + 1) :=
    ⟨[2, 3], by decide, le_rfl, by decide +kernel⟩
  have nobody : ∀ o ∈ new.list, (new.fents o).ts < (blockRecord 0 8 1).ts := by
    intro o member
    rw [list] at member
    cases member
  obtain ⟨log, spare, times⟩ := appendedBlock_log log spare rfl nobody first
  exact (appendedBlock_log log spare rfl (fun o member => (times o member).trans_lt (by decide)) second).1

/-- Always reuse a record. -/
def reuseEnv : Env := ⟨fun _ _ => none, fun _ => 0, fun _ _ _ => false⟩

theorem reuseEnv_dispatch {fe : Nat} {rest : List Nat} (idle : inode.invalid = fe :: rest) (size : Nat) :
    (filentDispatch reuseEnv inode size).1 = some fe := by
  simp [filentDispatch, reuseEnv, filentTryReuse, idle]

/-- Of the two records the first is not in use any more. Both are about block 0. -/
theorem twiceWritten_logged (l : Fin 64) : ∃ inode s out, PmLogged inode s 64 ∧ inode.invalid = [0] ∧
    fileAppendEntry reuseEnv s inode (blockRecord l 10 3) = some out ∧
    inode.phys 5 = none ∧ (inode.fents 0).pIdx = 8 ∧ (inode.fents 0).blocks = 1 ∧
    inode.Counts 0 (inode.fents 0).ts 5 ∧ ¬ inode.Counts 0 (inode.fents 0).ts 0 := by
  have run : twiceWritten.map (fun f => decide ((f.1.slots = [1, 2] ∧ f.1.ghostSlot = 3 ∧ f.2.next 3 = 0) ∧
      f.1.invalid = [0] ∧ f.1.phys 5 = none ∧ (f.1.fents 0).pIdx = 8 ∧ (f.1.fents 0).blocks = 1 ∧
      f.1.Counts 0 (f.1.fents 0).ts 5 ∧ ¬ f.1.Counts 0 (f.1.fents 0).ts 0)) = some true := by
    decide +kernel
  obtain ⟨⟨inode, s⟩, written, eq⟩ := map_eq_some_iff.mp run
  obtain ⟨⟨slots, ghost, ended⟩, idle, unmapped, place, length, shown, hidden⟩ := of_decide_eq_true eq
  have log := twiceWritten_log written
  have inside : ∀ slot ∈ inode.slots ++ [inode.ghostSlot], 0 < slot ∧ slot < ((64 : Nat) : Int) := by
    rw [slots, ghost]
    decide
  have logged : PmLogged inode s 64 :=
    ⟨log.indexed, log.newest, log.onChain.records, log.onChain.chain, inside, by rw [ghost]; exact ended⟩
  obtain ⟨_, _, _, _, _, _, call⟩ | ⟨_, _, call⟩ :=
    @fileAppendEntry_cases _ log.indexed (blockRecord l 10 3) le_rfl (show 1 < 2 ^ 31 by decide) reuseEnv s
  all_goals
    exact ⟨inode, s, _, logged, idle, call, unmapped, place, length, shown, hidden⟩

/-- Block 0 is written a third time, in the place of the first record: while the new record is
not complete the second one counts. -/
theorem append_crash_atomic_iff_hidden : ∃ inode s r inode' s', PmLogged inode s 64 ∧ inode.invalid = [0] ∧
    fileAppendEntry reuseEnv s inode (blockRecord 0 10 3) = some (r, inode', s') ∧
    AppendAtomic reuseEnv s inode (blockRecord 0 10 3) 64 s' := by
  obtain ⟨inode, s, ⟨r, inode', s'⟩, logged, idle, call, _, _, length, _, hidden⟩ := twiceWritten_logged 0
  refine ⟨inode, s, r, inode', s', logged, idle, call, (append_crash_atomic_iff logged call).mpr ?_⟩
  intro fe reuse
  rw [reuseEnv_dispatch idle] at reuse
  cases reuse
  have unmoved (k : Nat) : ¬ inode.Moved 0 (blockRecord 0 10 3) k := by
    rintro ⟨⟨_, below⟩, counts⟩
    rw [length] at below
    obtain rfl : k = 0 := Nat.lt_one_iff.mp below
    exact hidden counts
  refine ⟨.inr fun k moved => absurd moved (unmoved k), fun k moved => absurd moved (unmoved k), .inl ?_⟩
  rintro k ⟨⟨_, below⟩, _⟩
  obtain rfl : k = 0 := Nat.lt_one_iff.mp below
  exact hidden

/-- Block 5, which the file does not have, is written in the place of the first record. When the
crash comes after `l_idx` the log leads from block 5 to the block that record had before. -/
theorem reused_record_torn : ∃ inode s r inode' s', PmLogged inode s 64 ∧
    fileAppendEntry reuseEnv s inode (blockRecord 5 10 3) = some (r, inode', s') ∧
    ¬ AppendAtomic reuseEnv s inode (blockRecord 5 10 3) 64 s' := by
  obtain ⟨inode, s, ⟨r, inode', s'⟩, logged, idle, call, unmapped, place, length, shown, _⟩ :=
    twiceWritten_logged 5
  refine ⟨inode, s, r, inode', s', logged, call, ?_⟩
  obtain ⟨new, _⟩ | ⟨fe, member, _, whole, points⟩ := fileAppendCrash_cases call
  · rw [reuseEnv_dispatch idle] at new
    cases new
  rw [logged.reuse_iff member whole points]
  rw [idle] at member
  obtain rfl := mem_singleton.mp member
  rintro ⟨same | here, _, _⟩
  · cases place.symm.trans same
  have moved : inode.Moved 0 (blockRecord 5 10 3) 5 :=
    ⟨⟨le_rfl, by rw [length]; exact Nat.lt_succ_self 5⟩, shown⟩
  have block := here 5 moved
  cases unmapped.symm.trans block

end SlotFs
