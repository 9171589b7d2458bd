import SlotFs.LogChain
import SlotFs.WriteIndex

/-!
# The log determines the index

A reused record keeps its place on the chain, so the order of the chain is not the
order of time. The newest of the records that cover a block is the one the index
leads to.
-/

namespace SlotFs
open CWord Runs Chains List Option

variable {inode : Inode} {s : Storage}

/-! ## The newest entry of a block -/

def Filent.Covers (f : Filent) (k : Nat) : Prop := f.lIdx ≤ k ∧ k < f.lIdx + f.blocks

/-- The index leads to the newest of the entries that cover a block, and to none if
no entry covers it. -/
structure Newest (inode : Inode) : Prop where
  mapped : ∀ k fe, btreeGet inode.bRoot k = some fe → ∀ o ∈ inode.list, o ≠ fe →
    (inode.fents o).Covers k → (inode.fents o).ts < (inode.fents fe).ts
  free : ∀ k, btreeGet inode.bRoot k = none → ∀ o ∈ inode.list, ¬ (inode.fents o).Covers k

/-- The entry that is filled in may have been in use before, but no block led to it
any more. -/
theorem Newest.append {inode inode1 inode' : Inode} {entry : PmFilent} {c : Chosen}
    (h : Newest inode) (appended : Appended inode inode1 entry c inode')
    (later : ∀ o ∈ inode.list, ∀ k, entry.lIdx ≤ k → k < entry.lIdx + entry.blocks →
      (inode.fents o).Covers k → (inode.fents o).ts < entry.ts) : Newest inode' := by
  obtain ⟨ref, filled⟩ := appended.filled
  have old {o k : Nat} (member : o ∈ inode'.list) (other : o ≠ c.fe)
      (covers : (inode'.fents o).Covers k) : o ∈ inode.list ∧ (inode.fents o).Covers k ∧
        (inode'.fents o).ts = (inode.fents o).ts := by
    obtain ⟨ref', eq⟩ := appended.kept o other
    rw [eq] at covers ⊢
    exact ⟨appended.toEntered.old member other, covers, rfl⟩
  have apart {o k : Nat} (outside : ¬ (entry.lIdx ≤ k ∧ k < entry.lIdx + entry.blocks))
      (covers : (inode'.fents o).Covers k) : o ≠ c.fe := by
    rintro rfl
    rw [filled] at covers
    exact outside covers
  constructor
  · intro k fe hk o member other covers
    rw [appended.map, given] at hk
    split at hk <;> rename_i inside
    · cases hk
      obtain ⟨member, covers, ts⟩ := old member other covers
      rw [filled, ts]
      exact later o member k inside.1 inside.2 covers
    have kept : fe ≠ c.fe := by
      rintro rfl
      exact appended.unmapped k hk
    obtain ⟨ref', eq⟩ := appended.kept fe kept
    obtain ⟨member, covers, ts⟩ := old member (apart inside covers) covers
    rw [ts, eq]
    exact h.mapped k fe hk o member other covers
  · intro k hk o member covers
    rw [appended.map, given] at hk
    split at hk <;> rename_i inside
    · cases hk
    · obtain ⟨member, covers, _⟩ := old member (apart inside covers) covers
      exact h.free k hk o member covers

/-! ## Writes -/

/-- The log and the index of a regular file agree. -/
structure ScatterLog (inode : Inode) (s : Storage) : Prop where
  indexed : Indexed inode
  regular : inode.symlink = false
  newest : Newest inode
  onChain : OnChain inode s

theorem ScatterLog.resize (h : ScatterLog inode s) (size : Nat) : ScatterLog { inode with iSize := size } s :=
  ⟨h.indexed.resize size, h.regular, ⟨h.newest.mapped, h.newest.free⟩,
    ⟨h.onChain.chain, h.onChain.records, h.onChain.held⟩⟩

/-- The extents `rest` of a write with timestamp `ts` have not been entered yet. Of
those that have been every one ends in front of them. -/
structure Logging (ts : Nat) (rest : List EntryUnit) (inode : Inode) (s : Storage) : Prop where
  log : ScatterLog inode s
  spare : s.files.Spare rest.length
  keyed : ∀ u ∈ rest, u.Keyed
  order : ∃ start runs, rest = layout start runs ∧ ∀ fe ∈ inode.list, (inode.fents fe).ts < ts ∨
    (inode.fents fe).ts = ts ∧ (inode.fents fe).lIdx + (inode.fents fe).blocks ≤ start

theorem Logging.append {env : Env} {ts : Nat} {u : EntryUnit} {rest : List EntryUnit}
    {inode inode1 inode' : Inode} {s : Storage} {c : Chosen} {files : Maps}
    (h : Logging ts (u :: rest) inode s) (choice : Choice env s.files inode c inode1 files)
    (appended : Appended inode inode1 (u.record ts) c inode') :
    Logging ts rest inode' (s.appended inode inode1 inode' (u.record ts) c files) := by
  obtain ⟨start, runs, rest_eq, order⟩ := h.order
  obtain _ | ⟨⟨p, n⟩, runs⟩ := runs
  · cases rest_eq
  cases rest_eq
  obtain ⟨hl, hb⟩ := (h.keyed _ (mem_cons_self ..)).record ts
  have regular : inode'.symlink = false := appended.same.2.2.1.trans h.log.regular
  have newest : Newest inode' := by
    refine h.log.newest.append appended fun o member k low _ covers => ?_
    rcases order o member with earlier | ⟨_, ends⟩
    · exact earlier
    · rw [hl] at low
      exact absurd covers.2 (not_lt.mpr (ends.trans low))
  obtain ⟨onChain, spare⟩ := h.log.onChain.append h.log.indexed.listed h.log.regular choice
    appended.toEntered h.spare _
  refine ⟨⟨appended.indexed, regular, newest, onChain⟩, spare,
    fun v hv => h.keyed v (mem_cons_of_mem _ hv), start + n, runs, rfl, fun fe member => ?_⟩
  by_cases e : fe = c.fe
  · obtain ⟨ref, filled⟩ := appended.filled
    rw [e, filled, hl, hb]
    exact Or.inr ⟨rfl, le_rfl⟩
  obtain ⟨ref, kept⟩ := appended.kept fe e
  rw [kept]
  exact (order fe (appended.toEntered.old member e)).imp_right fun ⟨same, ends⟩ =>
    ⟨same, ends.trans (Nat.le_add_right _ _)⟩

/-- A regular file under writes. -/
structure LogFile where
  inode : Inode
  sbi : Sbi

structure LogFile.Ok (s : LogFile) : Prop where
  log : ScatterLog s.inode s.sbi.storage
  past : ∀ fe ∈ s.inode.list, (s.inode.fents fe).ts ≤ s.sbi.ts

/-- The log of a write keeps the file in order, whether it succeeds or not. -/
theorem LogFile.Ok.appendUnits {env : Env} {s : LogFile} (ok : s.Ok) {start ts : Nat} {runs : List (Nat × Nat)}
    {maps : Maps} {r : Except Int Unit} {sbi : Sbi} (keyed : ∀ u ∈ layout start runs, u.Keyed)
    (spare : s.sbi.storage.files.Spare runs.length) (later : s.sbi.ts < ts) (now : sbi.ts = ts)
    (call : appendUnits env ts (layout start runs) s.inode (s.sbi.storage.withMaps maps) =
      some (r, inode, sbi.storage)) : (⟨inode, sbi⟩ : LogFile).Ok := by
  have old : ∀ fe ∈ s.inode.list, (s.inode.fents fe).ts < ts ∨ (s.inode.fents fe).ts = ts ∧
      (s.inode.fents fe).lIdx + (s.inode.fents fe).blocks ≤ start :=
    fun fe member => Or.inl ((ok.past fe member).trans_lt later)
  have log : ScatterLog s.inode (s.sbi.storage.withMaps maps) :=
    ⟨ok.log.indexed, ok.log.regular, ok.log.newest, ⟨ok.log.onChain.chain, ok.log.onChain.records,
      ok.log.onChain.held⟩⟩
  obtain ⟨_, ⟨log', _, _, _, _, _, order⟩, _⟩ := appendUnits_rule (I := Logging ts)
    (fun h => h.log.indexed) (fun h => h.append)
    (fun num h => ⟨⟨h.log.indexed.recount num, h.log.regular, ⟨h.log.newest.mapped, h.log.newest.free⟩,
      ⟨h.log.onChain.chain, h.log.onChain.records, h.log.onChain.held⟩⟩, h.spare, h.keyed, h.order⟩)
    keyed ⟨log, by rw [layout_length]; exact spare, keyed, start, runs, rfl, old⟩ call
  refine ⟨log', fun fe member => ?_⟩
  rw [now]
  exact (order fe member).elim le_of_lt fun h => h.1.le

/-- A write of any outcome that finds blocks and slots, below block `2 ^ 31` and
before the clock turns over. -/
inductive LogStep (s : LogFile) : LogFile → Prop
  | write (env : Env) (buf : Mem) (len offset : Nat) (runs : List (Nat × Nat)) (maps : Maps)
      (ret : Int) (inode : Inode) (sbi : Sbi)
      (served : Served env (fun _ _ _ _ => True) s.sbi.storage.data.maps (blockCount len offset)
        runs maps)
      (spare : s.sbi.storage.files.Spare runs.length)
      (far : offset + len ≤ (2 ^ 31 - 1) * 4096) (clock : s.sbi.ts + 1 < 2 ^ 64)
      (call : inodeWriteAtomic env s.sbi s.inode buf len offset = some (ret, inode, sbi)) :
      LogStep s ⟨inode, sbi⟩

theorem LogStep.ok {s t : LogFile} (ok : s.Ok) (step : LogStep s t) : t.Ok := by
  cases step with
  | write env buf len offset runs maps ret inode sbi served spare far clock call =>
    have tick : wrap64 (s.sbi.ts + 1) = s.sbi.ts + 1 := wrap64_of_lt clock
    have outcome := (Wrote.of_call call).outcome (J := fun _ _ => True) served (by omega) trivial
      (fun _ _ _ _ _ _ _ _ _ => trivial)
    have later : s.sbi.ts < wrap64 (s.sbi.ts + 1) := by omega
    cases outcome with
    | inPlace _ size _ fe fits mapped blocks storage ts grown =>
      refine ⟨?_, fun fe member => (ok.past fe member).trans ?_⟩
      · rw [storage]
        exact ok.log.resize size
      · dsimp only
        rcases ts with ts | ts <;> omega
    | failed _ _ _ append ts content => exact ok.appendUnits (served.keyed far) spare later ts append
    | logged inode1 _ append ts content =>
      have ok' := ok.appendUnits (served.keyed far) spare later ts append
      exact ⟨ok'.log.resize _, ok'.past⟩

def PmFilent.Covers (r : PmFilent) (k : Nat) : Prop := r.lIdx ≤ k ∧ k < r.lIdx + r.blocks

/-- The records of the file in PM, followed from `log_head` to the ghost slot, are
those at `slots`. A block leads to the entry of the newest record that covers it, of
which there is only one, and to none exactly if no record covers it. -/
structure Determines (slots : List Int) (s : Storage) (inode : Inode) : Prop where
  chain : Chain s.next inode.ghostSlot inode.logHead slots
  mapped : ∀ k f, filentLookup inode k = some f → ∃ slot ∈ slots, f.idx = slot ∧
    (s.fentTable slot).Records f ∧ (s.fentTable slot).Covers k ∧
    ∀ other ∈ slots, other ≠ slot → (s.fentTable other).Covers k →
      (s.fentTable other).ts < (s.fentTable slot).ts
  free : ∀ k, filentLookup inode k = none ↔ ∀ slot ∈ slots, ¬ (s.fentTable slot).Covers k

theorem Newest.determines (indexed : Indexed inode) (newest : Newest inode)
    (chain : Chain s.next inode.ghostSlot inode.logHead inode.slots)
    (records : ∀ fe ∈ inode.list, (s.fentTable (inode.fents fe).idx).Records (inode.fents fe)) :
    Determines inode.slots s inode := by
  have covers {fe : Nat} (member : fe ∈ inode.list) (k : Nat) :
      (s.fentTable (inode.fents fe).idx).Covers k ↔ (inode.fents fe).Covers k := by
    obtain ⟨hl, _, hb, _⟩ := records fe member
    rw [PmFilent.Covers, hl, hb, Filent.Covers]
  refine ⟨chain, fun k f found => ?_, fun k => ?_⟩
  · obtain ⟨fe, hk, rfl⟩ := Option.map_eq_some_iff.mp found
    have member := indexed.booked.balanced.owned k fe hk
    refine ⟨_, List.mem_map_of_mem member, rfl, records fe member,
      (covers member k).mpr (indexed.booked.cover k fe hk), ?_⟩
    intro other inside distinct covered
    obtain ⟨o, listed, rfl⟩ := List.mem_map.mp inside
    rw [(records fe member).ts, (records o listed).ts]
    refine newest.mapped k fe hk o listed ?_ ((covers listed k).mp covered)
    rintro rfl
    exact distinct rfl
  simp only [filentLookup, Option.map_eq_none_iff, Inode.slots, List.forall_mem_map]
  constructor
  · intro free fe listed covered
    exact newest.free k free fe listed ((covers listed k).mp covered)
  intro none
  cases hk : btreeGet inode.bRoot k with
  | none => rfl
  | some fe =>
    have member := indexed.booked.balanced.owned k fe hk
    exact absurd ((covers member k).mpr (indexed.booked.cover k fe hk)) (none fe member)

theorem ScatterLog.determines (h : ScatterLog inode s) : Determines inode.slots s inode :=
  h.newest.determines h.indexed h.onChain.chain h.onChain.records

theorem ScatterLog.start {inode : Inode} {s : Storage} (indexed : Indexed inode)
    (regular : inode.symlink = false) (unmapped : ∀ k, btreeGet inode.bRoot k = none) (list : inode.list = [])
    (log : inode.logHead = inode.ghostSlot) (held : Held s.files [inode.ghostSlot]) : ScatterLog inode s := by
  refine ⟨indexed, regular, ⟨fun k fe hk => ?_, fun k _ o member => ?_⟩, .start list log held⟩
  · rw [unmapped] at hk
    cases hk
  · rw [list] at member
    cases member

theorem inodeCreate_logged {env : Env} {sbi sbi' : Sbi} {granted : Bool} {appended : Int}
    {nodes entries : Nat → Bool} (supply : ∀ n, nodes n = true)
    (call : inodeCreate env sbi granted appended nodes entries = some (.ok inode, sbi'))
    (maps : sbi.storage.files.Ok) (small : sbi.storage.files.Within (2 ^ 31)) : (⟨inode, sbi'⟩ : LogFile).Ok := by
  obtain ⟨new, found, _, _, storage⟩ := inodeCreate_new supply call
  have alloc : doSlotAlloc sbi.storage.files (env.cpu sbi.storage.files) =
      (inode.ghostSlot, sbi'.storage.files) := by
    rw [new.log.2, storage]
  obtain ⟨held, _⟩ := (Held.none maps small).alloc alloc found
  refine ⟨.start new.indexed new.regular new.unmapped new.list (new.log.1.trans new.log.2.symm) held,
    fun fe member => ?_⟩
  rw [new.list] at member
  cases member

end SlotFs
