import SlotFs.ExtentIndex
import SlotFs.SlotChain

/-!
# The chain of records

The records of a file in PM form a chain from `log_head` to `ghost_slot`, in the
order of the list of entries. `file_append_entry` writes a new record into the ghost
slot and takes another slot for the next one, or it writes over the record of an
entry that is reused, which keeps its place on the chain. Nothing here depends on
the reference counts being right.
-/

namespace SlotFs
open CWord Runs Chains Function List Option

variable {inode inode1 : Inode} {live : Set Nat}

/-! ## One entry -/

theorem Listed.recount (h : Listed inode) (num : Nat) : Listed { inode with
      invalidNum := num
      arena := { inode.arena with asked := inode.arena.asked + 1 } } :=
  ⟨h.tree, h.values, h.idle, h.once, fun fe hf => Nat.lt_succ_of_lt (h.asked fe hf)⟩

/-- An overwrite makes reusable only what some key led to. -/
theorem overwritten_idle {m : Nat → Option Nat} (values : ∀ k v, m k = some v → v ∈ live)
    (idle : ∀ fe ∈ inode.invalid, fe ∈ live) (data : DataSlots) (start n : Nat) :
    Recounted inode (overwritten m start n inode data).1 ∧
    ∀ fe ∈ (overwritten m start n inode data).1.invalid, fe ∈ live := by
  suffices all : (∀ k v, without m start n k = some v → v ∈ live) ∧
      Recounted inode (overwritten m start n inode data).1 ∧
      ∀ fe ∈ (overwritten m start n inode data).1.invalid, fe ∈ live from all.2
  apply overRange_erase filentInsertCallback (I := fun m s => (∀ k v, m k = some v → v ∈ live) ∧
    Recounted inode s.1 ∧ ∀ fe ∈ s.1.invalid, fe ∈ live)
  · rintro m k v s _ _ hk ⟨values, recounted, idle⟩
    refine ⟨fun j o hj => values j o (Ledger.erase_eq_some.mp hj).2,
      recounted.trans (filentInsertCallback_recounted _ _ _), fun fe member => ?_⟩
    simp only [filentInsertCallback] at member
    split at member
    · rcases mem_append.mp member with member | member
      · exact idle fe member
      · rw [mem_singleton.mp member]
        exact values k v hk
    · exact idle fe member
  · exact ⟨values, .refl inode, idle⟩

/-- The insertion of any extent, the empty one included. -/
theorem fileIndexInsert_listed {base : Nat → Nat} (shape : Shape inode.bRoot base)
    (values : ∀ k v, btreeGet inode.bRoot k = some v → v ∈ live) (idle : ∀ fe ∈ inode.invalid, fe ∈ live)
    {fe : Nat} (member : fe ∈ live) (low : (inode.fents fe).lIdx + (inode.fents fe).blocks < 256 ^ 7)
    (data : DataSlots) :
    ∃ r tree inode3 data', fileIndexInsert inode data fe = some (r, { inode3 with bRoot := tree }, data') ∧
      (∃ base', Shape tree base') ∧ (∀ k v, btreeGet tree k = some v → v ∈ live) ∧
      Recounted inode inode3 ∧ ∀ fe ∈ inode3.invalid, fe ∈ live := by
  by_cases empty : (inode.fents fe).blocks = 0
  · refine ⟨-1, inode.bRoot, inode, data, ?_, ⟨base, shape⟩, values, .refl inode, idle⟩
    have stop : wrap64 ((inode.fents fe).lIdx + (inode.fents fe).blocks) = (inode.fents fe).lIdx := by
      rw [wrap64_of_lt (low.trans (by decide)), empty, Nat.add_zero]
    simp only [fileIndexInsert, stop, btreeSetRangeCallback, ge_iff_le, le_refl, if_true,
      map_some]
  obtain ⟨tree, base', shape', get, insert⟩ := fileIndexInsert_eq shape fe (by omega) low data
  obtain ⟨recounted, idle'⟩ := overwritten_idle values idle data (inode.fents fe).lIdx
    (inode.fents fe).blocks
  refine ⟨0, tree, _, _, insert, ⟨base', shape'⟩, fun k v hk => ?_, recounted, idle'⟩
  rw [get, given] at hk
  split at hk
  · cases hk
    exact member
  · exact values k v hk

theorem Choice.member {env : Env} {files files' : Maps} {c : Chosen}
    (choice : Choice env files inode c inode1 files') (h : Listed inode) (fe : Nat) :
    fe ∈ (if c.reuse.isSome then inode.list else inode.list ++ [c.fe]) ↔
      fe = c.fe ∨ fe ∈ inode.list := by
  have members := Set.ext_iff.mp (choice.members h).2.2 fe
  refine members.trans ?_
  by_cases e : fe = c.fe <;> simp [e]

/-- `file_append_entry` with any extent. -/
theorem fileAppendEntry_listed (h : Listed inode) (env : Env) (s : Storage) (entry : PmFilent) :
    (∃ c inode1 files inode' data, Choice env s.files inode c inode1 files ∧ Listed inode' ∧
      Entered inode inode1 entry c inode' ∧
      fileAppendEntry env s inode entry = some (.ok c.fe, inode', ⟨data, files,
        update s.fentTable c.fno { entry with next := c.reuse.getD inode'.ghostSlot }⟩)) ∨
    ∃ num, fileAppendEntry env s inode entry = some (.error enomem, { inode with
      invalidNum := num
      arena := { inode.arena with asked := inode.arena.asked + 1 } }, s) := by
  obtain ⟨c, inode1, files, eq, choice⟩ | ⟨refused, num, eq⟩ :=
    chooseEntry_cases env s.files inode (trunc32 (entry.blocks * 4096))
  · obtain ⟨base, shape⟩ := h.tree
    obtain ⟨_, root, _⟩ := choice.kept
    obtain ⟨once, asked, _⟩ := choice.members h
    have member := choice.member h
    have narrow := entry.narrow
    generalize filled : fillEntry inode1 c entry = inode2
    have tree : inode2.bRoot = inode.bRoot := by
      rw [← filled]
      exact root
    have own : inode2.fents c.fe =
        ⟨c.fno, entry.ts, entry.lIdx, entry.pIdx, entry.blocks, toInt32 entry.blocks⟩ := by
      rw [← filled]
      simp [fillEntry, Inode.setFent]
    have values : ∀ k v, btreeGet inode2.bRoot k = some v → v ∈ {fe | fe = c.fe ∨ fe ∈ inode.list} := by
      rw [tree]
      exact fun k v hk => .inr (h.values k v hk)
    have idle : ∀ fe ∈ inode2.invalid, fe ∈ {fe | fe = c.fe ∨ fe ∈ inode.list} := by
      rw [← filled]
      intro fe hf
      cases choice with
      | reuse fe' rest idle => exact Or.inr (h.idle fe (by rw [idle]; exact mem_cons_of_mem _ hf))
      | append => exact .inr (h.idle fe hf)
    obtain ⟨r, tree', inode3, data, insert, shape', values', recounted, idle'⟩ :=
      fileIndexInsert_listed (tree ▸ shape) values idle (.inl rfl)
        (by rw [own]; dsimp only; omega) s.data
    have entered := choice.entered (filled ▸ recounted) tree'
      (if c.reuse.isSome then inode3.entryNum else wrap64 (inode3.entryNum + 1))
    refine .inl ⟨c, inode1, files, _, data, choice, ⟨shape', ?_, ?_, ?_, ?_⟩, entered, ?_⟩
    · intro k v hk
      rw [entered.list]
      exact (member v).mpr (values' k v hk)
    · intro fe hf
      rw [entered.list]
      exact (member fe).mpr (idle' fe hf)
    · rw [entered.list]
      exact once
    · rw [entered.list, recounted.rest, ← filled]
      exact asked
    · simp only [fileAppendEntry, eq, filled, insert, map_some]
  · exact Or.inr ⟨num, by simp only [fileAppendEntry, eq]⟩

/-! ## The chain -/

/-- What a record in PM says about an entry. -/
structure PmFilent.Records (r : PmFilent) (f : Filent) : Prop where
  lIdx : r.lIdx = f.lIdx
  pIdx : r.pIdx = f.pIdx
  blocks : r.blocks = f.blocks
  ts : r.ts = f.ts

def Storage.next (s : Storage) (slot : Int) : Int := (s.fentTable slot).next

/-- The slots of the entries, in the order of the list. -/
def Inode.slots (inode : Inode) : List Int := inode.list.map fun fe => (inode.fents fe).idx

structure OnChain (inode : Inode) (s : Storage) : Prop where
  chain : Chain s.next inode.ghostSlot inode.logHead inode.slots
  records : ∀ fe ∈ inode.list, (s.fentTable (inode.fents fe).idx).Records (inode.fents fe)
  held : Held s.files (inode.slots ++ [inode.ghostSlot])

theorem reuseNext_eq {next : Int → Int} {head : Int} (chain : Chain next inode.ghostSlot head inode.slots)
    (once : inode.list.Nodup) {fe : Nat} (member : fe ∈ inode.list) :
    reuseNext inode fe = next (inode.fents fe).idx :=
  nextOf_slot chain once member

section
variable {env : Env} {s : Storage} {inode inode1 inode' : Inode} {entry : PmFilent} {c : Chosen}
  {files files' : Maps}

theorem Entered.old (h : Entered inode inode1 entry c inode') {o : Nat} (member : o ∈ inode'.list)
    (other : o ≠ c.fe) : o ∈ inode.list := by
  rw [h.list] at member
  split at member
  · exact member
  · simpa [other] using member

theorem Choice.slot (choice : Choice env files inode c inode1 files') (h : Listed inode) :
    (c.fe ∈ inode.list ∧ c.fno = (inode.fents c.fe).idx ∧ c.reuse = some (reuseNext inode c.fe) ∧
      inode1.ghostSlot = inode.ghostSlot ∧ files' = files) ∨
    (c.fe ∉ inode.list ∧ c.fno = inode.ghostSlot ∧ c.reuse = none ∧
      (inode1.ghostSlot, files') = if inode.symlink then (0, files) else doSlotAlloc files (env.cpu files)) := by
  cases choice with
  | reuse fe rest idle =>
    exact Or.inl ⟨h.idle fe (by rw [idle]; exact mem_cons_self ..), rfl, rfl, rfl, rfl⟩
  | append num granted ghost files' call =>
    exact .inr ⟨fun hm => Nat.lt_irrefl _ (h.asked _ hm), rfl, rfl, call⟩

section
variable (h : Entered inode inode1 entry c inode')
include h

theorem Entered.slots (idx : ∀ fe ∈ inode.list, fe = c.fe → (inode.fents fe).idx = c.fno) :
    inode'.slots = if c.reuse.isSome then inode.slots else inode.slots ++ [c.fno] := by
  have old (fe : Nat) (member : fe ∈ inode.list) : (inode'.fents fe).idx = (inode.fents fe).idx := by
    by_cases e : fe = c.fe
    · obtain ⟨ref, filled⟩ := h.filled
      rw [idx fe member e, e, filled]
    · obtain ⟨ref, kept⟩ := h.kept fe e
      rw [kept]
  have map : inode.list.map (fun fe => (inode'.fents fe).idx) = inode.slots :=
    map_congr_left old
  obtain ⟨ref, filled⟩ := h.filled
  rw [Inode.slots, h.list]
  split
  · exact map
  · rw [map_append, map, map_singleton, filled]

section
variable (listed : Listed inode) (choice : Choice env files inode c inode1 files')
include listed choice

/-- The slots after a call: those before it, or one more. -/
theorem Entered.slots_cases :
    (inode'.slots = inode.slots ∧ c.reuse = some (reuseNext inode c.fe) ∧ c.fe ∈ inode.list ∧
      c.fno = (inode.fents c.fe).idx ∧ inode'.ghostSlot = inode.ghostSlot ∧ files' = files) ∨
    (inode'.slots = inode.slots ++ [inode.ghostSlot] ∧ c.reuse = none ∧ c.fe ∉ inode.list ∧
      c.fno = inode.ghostSlot ∧ (inode'.ghostSlot, files') =
        if inode.symlink then (0, files) else doSlotAlloc files (env.cpu files)) := by
  rcases choice.slot listed with ⟨member, fno, reuse, ghost, same⟩ | ⟨new, fno, reuse, call⟩
  · have slots := h.slots fun fe _ e => by rw [e, fno]
    rw [reuse] at slots
    exact .inl ⟨slots, reuse, member, fno, h.ghost.trans ghost, same⟩
  have slots := h.slots fun fe hf e => absurd (e ▸ hf) new
  rw [reuse, fno] at slots
  rw [← h.ghost] at call
  exact .inr ⟨slots, reuse, new, fno, call⟩

/-- Whichever record was written, the chain leads through the slots of the list. -/
theorem Entered.chain {next : Int → Int} {head : Int} (chain : Chain next inode.ghostSlot head inode.slots)
    (new : c.reuse = none → inode'.ghostSlot ∉ inode.slots ++ [inode.ghostSlot]) :
    Chain (update next c.fno (c.reuse.getD inode'.ghostSlot)) inode'.ghostSlot head
      inode'.slots := by
  rcases h.slots_cases listed choice with
    ⟨slots, reuse, member, fno, ghost, _⟩ | ⟨slots, reuse, _, fno, _⟩
  · rw [slots, ghost, reuse, getD_some, reuseNext_eq chain listed.once member, fno,
      update_eq_self]
    exact chain
  have free := new reuse
  rw [slots, reuse, fno]
  refine chain.extend (fun hm => free (mem_append_left _ hm)) fun e => ?_
  exact free (mem_append_right _ (mem_singleton.mpr e))

end

theorem Entered.records {table : Int → PmFilent} {next : Int}
    (records : ∀ fe ∈ inode.list, (table (inode.fents fe).idx).Records (inode.fents fe))
    (fresh : ∀ fe ∈ inode.list, fe ≠ c.fe → (inode.fents fe).idx ≠ c.fno) :
    ∀ fe ∈ inode'.list, (update table c.fno { entry with next }
      (inode'.fents fe).idx).Records (inode'.fents fe) := by
  intro fe member
  by_cases e : fe = c.fe
  · obtain ⟨ref, filled⟩ := h.filled
    rw [e, filled, update_self]
    exact ⟨rfl, rfl, rfl, rfl⟩
  obtain ⟨ref, kept⟩ := h.kept fe e
  have old := h.old member e
  obtain ⟨hl, hp, hb, ht⟩ := records fe old
  rw [kept, update_of_ne (fresh fe old e)]
  exact ⟨hl, hp, hb, ht⟩

end

theorem update_next (s : Storage) (data : DataSlots) (files : Maps) (slot : Int) (r : PmFilent) :
    Storage.next ⟨data, files, update s.fentTable slot r⟩ =
      update s.next slot r.next := by
  funext x
  by_cases e : x = slot
  · subst e
    simp [Storage.next]
  · simp [Storage.next, e]

theorem OnChain.append (h : OnChain inode s) (listed : Listed inode)
    (regular : inode.symlink = false) (choice : Choice env s.files inode c inode1 files)
    (entered : Entered inode inode1 entry c inode') {n : Nat} (spare : s.files.Spare (n + 1)) (data : DataSlots) :
    OnChain inode' ⟨data, files, update s.fentTable c.fno
      { entry with next := c.reuse.getD inode'.ghostSlot }⟩ ∧ files.Spare n := by
  obtain ⟨distinct, _, last⟩ := nodup_append.mp h.held.once
  have head : inode'.logHead = inode.logHead := entered.same.2.2.2.1
  rcases entered.slots_cases listed choice with
    ⟨slots, reuse, member, fno, ghost, rfl⟩ | ⟨slots, reuse, new, fno, call⟩
  · refine ⟨⟨?_, entered.records h.records fun o ho other same => ?_, ?_⟩, spare.le (Nat.le_succ n)⟩
    · rw [update_next, head]
      exact entered.chain listed choice h.chain fun none => nomatch none.symm.trans reuse
    · rw [fno] at same
      exact other (inj_on_of_nodup_map distinct ho member same)
    · rw [slots, ghost]
      exact h.held
  rw [regular] at call
  have found := spare.found h.held.maps h.held.small call.symm
  obtain ⟨held, fewer⟩ := h.held.alloc call.symm found
  obtain ⟨_, _, unused⟩ := nodup_append.mp held.once
  have free : inode'.ghostSlot ∉ inode.slots ++ [inode.ghostSlot] :=
    fun hm => unused _ hm _ (mem_singleton_self _) rfl
  refine ⟨⟨?_, entered.records h.records fun o ho _ same => ?_, ?_⟩, fewer n spare⟩
  · rw [update_next, head]
    exact entered.chain listed choice h.chain fun _ => free
  · rw [fno] at same
    exact last _ (mem_map_of_mem ho) _ (mem_singleton_self _) same
  · rw [slots]
    exact held

end

/-! ## Runs -/

/-- A file under calls of `file_append_entry`; `pmLogHead` is `log_head` of its inode
in PM, which the calls do not write. -/
structure ChainFile where
  inode : Inode
  storage : Storage
  pmLogHead : Int

/-- A call of any outcome with any extent, while there is a free slot for records. What
else happens to the data blocks before the call does not matter. -/
inductive ChainStep (s : ChainFile) : ChainFile → Prop
  | append (env : Env) (entry : PmFilent) (data : DataSlots) (r : Except Int Nat) (inode : Inode)
      (storage : Storage) (spare : s.storage.files.Spare 1)
      (call : fileAppendEntry env { s.storage with data } s.inode entry = some (r, inode, storage)) :
      ChainStep s { s with inode, storage }

structure ChainFile.Ok (s : ChainFile) : Prop where
  listed : Listed s.inode
  regular : s.inode.symlink = false
  onChain : OnChain s.inode s.storage
  head : s.pmLogHead = s.inode.logHead

/-- From `log_head` in PM to the ghost slot the chain visits the slots of the list in
its order, and each record says what its entry says. -/
structure ChainFile.Follows (s : ChainFile) : Prop where
  visits : Chain s.storage.next s.inode.ghostSlot s.pmLogHead s.inode.slots
  records : ∀ fe ∈ s.inode.list,
    (s.storage.fentTable (s.inode.fents fe).idx).Records (s.inode.fents fe)

theorem ChainStep.ok {s t : ChainFile} (ok : s.Ok) (step : ChainStep s t) : t.Ok := by
  cases step with
  | append env entry data r inode storage spare call =>
    have before : OnChain s.inode { s.storage with data } :=
      ⟨ok.onChain.chain, ok.onChain.records, ok.onChain.held⟩
    obtain ⟨c, inode1, files, inode', data', choice, listed, entered, eq⟩ | ⟨num, eq⟩ :=
      fileAppendEntry_listed ok.listed env { s.storage with data } entry
    · cases eq.symm.trans call
      exact ⟨listed, entered.same.2.2.1.trans ok.regular,
        (before.append ok.listed ok.regular choice entered spare data').1,
        ok.head.trans entered.same.2.2.2.1.symm⟩
    · cases eq.symm.trans call
      exact ⟨ok.listed.recount num, ok.regular, ⟨before.chain, before.records, before.held⟩, ok.head⟩

/-- In every run, with any mixture of new and reused records, the chain follows the
list. -/
theorem chain_follows_list {s t : ChainFile} (ok : s.Ok) (run : Run ChainStep s t) : t.Follows := by
  obtain ⟨_, _, onChain, head⟩ := Run.invariant (I := ChainFile.Ok) ChainStep.ok run ok
  exact ⟨head ▸ onChain.chain, onChain.records⟩

theorem OnChain.start {inode : Inode} {s : Storage} (list : inode.list = [])
    (log : inode.logHead = inode.ghostSlot) (held : Held s.files [inode.ghostSlot]) : OnChain inode s := by
  have slots : inode.slots = [] := by rw [Inode.slots, list]; rfl
  refine ⟨?_, fun fe hf => ?_, ?_⟩
  · rw [slots, log]
    exact .done
  · rw [list] at hf
    cases hf
  · rw [slots]
    exact held

theorem chain_follows_list_first : ∃ s t : ChainFile, s.Ok ∧ Run ChainStep s t ∧ t.Follows := by
  obtain ⟨inode, create, indexed, _, list, _⟩ := newInode_indexed 1 0 (fun _ => true) (fun _ => rfl)
  obtain ⟨tree, _, rfl⟩ := map_eq_some_iff.mp create
  have alloc : doSlotAlloc (emptyMaps 64) 0 = (0, (doSlotAlloc (emptyMaps 64) 0).2) :=
    Prod.ext (by decide +kernel) rfl
  obtain ⟨held, _⟩ := (Held.none (emptyMaps_ok 64) fun _ _ => show 64 ≤ 2 ^ 31 by decide).alloc alloc
    le_rfl
  have spare : (doSlotAlloc (emptyMaps 64) 0).2.Spare 1 :=
    ⟨[1], nodup_singleton 1, le_rfl, by decide +kernel⟩
  let storage : Storage :=
    ⟨⟨emptyMaps 64, []⟩, (doSlotAlloc (emptyMaps 64) 0).2, fun _ => .zero⟩
  have ok : ChainFile.Ok ⟨_, storage, 0⟩ := ⟨indexed.listed, rfl, .start list rfl held, rfl⟩
  obtain ⟨_, _, _, _, _, _, _, _, eq⟩ | ⟨_, eq⟩ := fileAppendEntry_listed indexed.listed
    ⟨fun _ _ => none, fun _ => 0, fun _ _ _ => true⟩ storage ⟨0, 8, 2, 1, 0, by decide⟩
  all_goals
    have run := Relation.ReflTransGen.single (ChainStep.append (s := ⟨_, storage, 0⟩) _ _ _ _ _ _ spare eq)
    exact ⟨_, _, ok, run, chain_follows_list ok run⟩

end SlotFs
