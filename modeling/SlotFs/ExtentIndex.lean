import SlotFs.BtreeMap
import SlotFs.FileLog
import SlotFs.SlotMaps

/-!
# The extent index

What `file_append_entry` keeps between the radix tree, the reference counts and
the list of reusable entries. An overwrite erases the keys of its range one by
one, each through `filent_insert_callback`, and then gives the range to the new
entry.
-/

namespace SlotFs
open CWord Function List Ledger

variable {base : Nat → Nat} {c : Chosen} {env : Env} {fe : Nat} {files files' : Maps} {inode inode1 : Inode}

/-- The map `m` from keys to entries agrees with the reference counts of the
`live` entries and with the extents they stand for. -/
structure Booked (live : Set Nat) (m : Nat → Option Nat) (inode : Inode) : Prop where
  balanced : Balanced m live (fun fe => (inode.fents fe).ref) inode.invalid
  cover : ∀ k fe, m k = some fe →
    (inode.fents fe).lIdx ≤ k ∧ k < (inode.fents fe).lIdx + (inode.fents fe).blocks

/-- The extent index of a file between two calls. -/
structure Indexed (inode : Inode) : Prop where
  tree : ∃ base, Shape inode.bRoot base
  booked : Booked {fe | fe ∈ inode.list} (btreeGet inode.bRoot) inode
  once : inode.list.Nodup
  asked : ∀ fe ∈ inode.list, fe < inode.arena.asked

/-- The entries are listed, whatever the reference counts say. -/
structure Listed (inode : Inode) : Prop where
  tree : ∃ base, Shape inode.bRoot base
  values : ∀ k fe, btreeGet inode.bRoot k = some fe → fe ∈ inode.list
  idle : ∀ fe ∈ inode.invalid, fe ∈ inode.list
  once : inode.list.Nodup
  asked : ∀ fe ∈ inode.list, fe < inode.arena.asked

theorem Indexed.listed (h : Indexed inode) : Listed inode :=
  ⟨h.tree, h.booked.balanced.owned, fun fe hf => ((h.booked.balanced.idles fe).mp hf).1, h.once,
    h.asked⟩

theorem newInode_indexed (iNo : Nat) (ghost : Int) {nodes : Nat → Bool} (entries : Nat → Bool)
    (granted : ∀ n, nodes n = true) : ∃ inode, newInode iNo ghost nodes entries = some inode ∧ Indexed inode ∧
      (∀ k, btreeGet inode.bRoot k = none) ∧ inode.list = [] ∧ inode.arena = ⟨0, entries⟩ := by
  obtain ⟨tree, create, shape, empty⟩ := btreeCreate_spec granted
  refine ⟨_, by rw [newInode, create]; rfl, ⟨⟨_, shape⟩, ⟨?_, ?_⟩, nodup_nil, ?_⟩, empty, rfl, rfl⟩
  · constructor
    · intro k fe hk
      simp [empty] at hk
    · intro fe
      simp [keysOf, empty]
    · intro fe hf
      cases hf
    · exact nodup_nil
    · intro fe
      simp
  · intro k fe hk
    simp [empty] at hk
  · intro fe hf
    cases hf

/-- A call that fails has asked for an entry and may have lowered `invalid_num`. -/
theorem Indexed.recount (h : Indexed inode) (num : Nat) : Indexed { inode with
      invalidNum := num
      arena := { inode.arena with asked := inode.arena.asked + 1 } } :=
  ⟨h.tree, ⟨h.booked.balanced, h.booked.cover⟩, h.once, fun fe hf => Nat.lt_succ_of_lt (h.asked fe hf)⟩

/-- Between `a` and `b` nothing has changed but reference counts and the list
of reusable entries. -/
structure Recounted (a b : Inode) : Prop where
  rest : b = { a with fents := b.fents, invalid := b.invalid, invalidNum := b.invalidNum }
  fents : ∀ fe, b.fents fe = { a.fents fe with ref := (b.fents fe).ref }

theorem Recounted.refl (a : Inode) : Recounted a a := ⟨rfl, fun _ => rfl⟩

theorem Recounted.trans {a b c : Inode} (h : Recounted a b) (h' : Recounted b c) : Recounted a c := by
  refine ⟨?_, fun fe => ?_⟩
  · rw [h'.rest, h.rest]
  · rw [h'.fents fe, h.fents fe]

section
variable {live : Set Nat} {m : Nat → Option Nat} {inode : Inode} {data : DataSlots}

theorem Booked.congr (h : Booked live m inode) {inode' : Inode}
    (same : ∀ fe ∈ live, inode'.fents fe = inode.fents fe) (idle : inode'.invalid = inode.invalid) :
    Booked live m inode' := by
  refine ⟨?_, fun k fe hk => ?_⟩
  · rw [idle]
    exact h.balanced.congr fun fe hf => by rw [same fe hf]
  · rw [same fe (h.balanced.owned k fe hk)]
    exact h.cover k fe hk

theorem filentInsertCallback_recounted (fe : Nat) (idx : Int) (s : Inode × DataSlots) :
    Recounted s.1 (filentInsertCallback fe idx s).1 := by
  have fents (j : Nat) : update s.1.fents fe
      { s.1.fents fe with ref := (s.1.fents fe).ref - 1 } j = { s.1.fents j with
        ref := (update s.1.fents fe
          { s.1.fents fe with ref := (s.1.fents fe).ref - 1 } j).ref } := by
    by_cases e : j = fe
    · subst e; simp
    · simp [e]
  simp only [filentInsertCallback]
  split
  · exact ⟨rfl, fents⟩
  · exact ⟨rfl, fents⟩

theorem Booked.erase (h : Booked live m inode) {k : Nat} (hk : m k = some fe) (idx : Int) :
    Booked live (erase m k) (filentInsertCallback fe idx (inode, data)).1 := by
  have recounted := filentInsertCallback_recounted fe idx (inode, data)
  have ref : (fun j => ((filentInsertCallback fe idx (inode, data)).1.fents j).ref) =
      update (fun j => (inode.fents j).ref) fe ((inode.fents fe).ref - 1) := by
    funext j
    simp only [filentInsertCallback]
    split <;> by_cases e : j = fe <;> simp [Inode.setFent, e]
  have idle : (filentInsertCallback fe idx (inode, data)).1.invalid =
      if (inode.fents fe).ref - 1 = 0 then inode.invalid ++ [fe] else inode.invalid := by
    simp only [filentInsertCallback]
    split <;> rfl
  constructor
  · rw [ref, idle]
    exact h.balanced.erase hk
  · intro j o hj
    rw [recounted.fents o]
    exact h.cover j o (erase_eq_some.mp hj).2

/-- The map `m` without the `n` keys from `start` on. -/
def without (m : Nat → Option Nat) (start n : Nat) : Nat → Option Nat :=
  fun k => if start ≤ k ∧ k < start + n then none else m k

/-- The callbacks of an overwrite, in ascending order of the keys. -/
def overwritten (m : Nat → Option Nat) (start n : Nat) (inode : Inode) (data : DataSlots) :
    Inode × DataSlots :=
  overRange filentInsertCallback m start n (inode, data)

theorem filentInsertCallback_other {j : Nat} (other : j ≠ fe) (idx : Int) (s : Inode × DataSlots) :
    (filentInsertCallback fe idx s).1.fents j = s.1.fents j := by
  simp only [filentInsertCallback]
  split <;> simp [Inode.setFent, other]

theorem Booked.overwritten (h : Booked live m inode) (data : DataSlots) (start n : Nat) :
    Booked live (without m start n) (overwritten m start n inode data).1 ∧
    Recounted inode (overwritten m start n inode data).1 ∧
    ∀ fe, fe ∉ live → (overwritten m start n inode data).1.fents fe = inode.fents fe := by
  apply overRange_erase filentInsertCallback (I := fun m s => Booked live m s.1 ∧
    Recounted inode s.1 ∧ ∀ fe, fe ∉ live → s.1.fents fe = inode.fents fe)
  · rintro m k v s _ _ hk ⟨booked, recounted, others⟩
    refine ⟨booked.erase hk (toInt32 k),
      recounted.trans (filentInsertCallback_recounted _ _ s), fun fe hf => ?_⟩
    have other : fe ≠ v := by
      rintro rfl
      exact hf (booked.balanced.owned k _ hk)
    rw [filentInsertCallback_other other, others fe hf]
  · exact ⟨h, .refl inode, fun _ _ => rfl⟩

/-- After the range has been given to `fe`. -/
def given (m : Nat → Option Nat) (start n fe : Nat) : Nat → Option Nat :=
  fun k => if start ≤ k ∧ k < start + n then some fe else m k

theorem given_eq_fill (m : Nat → Option Nat) (start n fe : Nat) :
    given m start n fe = fill (without m start n) (Finset.Ico start (start + n)) fe := by
  funext k
  by_cases h : start ≤ k ∧ k < start + n <;> simp [given, fill, without, h]

theorem Booked.given (h : Booked live (without m start n) inode) (new : fe ∉ live) (nonempty : 1 ≤ n)
    (hl : (inode.fents fe).lIdx = start) (hb : (inode.fents fe).blocks = n) (hr : (inode.fents fe).ref = n) :
    Booked (insert fe live) (given m start n fe) inode := by
  rw [given_eq_fill]
  constructor
  · refine h.balanced.fill new ⟨start, by simp; omega⟩ (fun k hk => ?_) (fun _ _ => rfl) ?_
    · rw [without, if_pos (Finset.mem_Ico.mp hk)]
    · rw [Nat.card_Ico, hr]
      congr 1
      omega
  intro k o hk
  obtain ⟨inside, rfl⟩ | ⟨_, old⟩ := fill_eq_some.mp hk
  · rw [hl, hb]
    exact Finset.mem_Ico.mp inside
  · exact h.cover k o old

end

/-! ## Entering an extent -/

/-- The insertion of `fe` into a well-shaped index. -/
theorem fileIndexInsert_eq (shape : Shape inode.bRoot base) (fe : Nat) (nonempty : 1 ≤ (inode.fents fe).blocks)
    (low : (inode.fents fe).lIdx + (inode.fents fe).blocks < 256 ^ 7) (data : DataSlots) :
    ∃ tree base', Shape tree base' ∧
      btreeGet tree = given (btreeGet inode.bRoot) (inode.fents fe).lIdx (inode.fents fe).blocks fe ∧
      fileIndexInsert inode data fe = some (0,
        { (overwritten (btreeGet inode.bRoot) (inode.fents fe).lIdx (inode.fents fe).blocks inode
            data).1 with bRoot := tree },
        (overwritten (btreeGet inode.bRoot) (inode.fents fe).lIdx (inode.fents fe).blocks inode
          data).2) := by
  have stop : wrap64 ((inode.fents fe).lIdx + (inode.fents fe).blocks) =
      (inode.fents fe).lIdx + (inode.fents fe).blocks :=
    wrap64_of_lt (low.trans (by decide))
  obtain ⟨tree, base', set, shape', get⟩ := shape.set_range filentInsertCallback (some fe)
    (show (inode.fents fe).lIdx < (inode.fents fe).lIdx + (inode.fents fe).blocks by omega) low
    (inode, data)
  rw [Nat.add_sub_cancel_left] at set
  refine ⟨tree, base', shape', funext get, ?_⟩
  simp only [fileIndexInsert, stop, set, Option.map_some]
  rfl

/-- The ways to choose an entry that succeed. -/
inductive Choice (env : Env) (files : Maps) (inode : Inode) : Chosen → Inode → Maps → Prop
  | reuse (fe : Nat) (rest : List Nat) (idle : inode.invalid = fe :: rest) :
      Choice env files inode ⟨fe, (inode.fents fe).idx, some (reuseNext inode fe)⟩
        { inode with invalid := rest, invalidNum := sub64 (sub64 inode.invalidNum 1) 1 } files
  | append (num : Nat) (granted : inode.arena.grants inode.arena.asked = true)
      (ghost : Int) (files' : Maps)
      (next : (ghost, files') = if inode.symlink then (0, files) else doSlotAlloc files (env.cpu files)) :
      Choice env files inode ⟨inode.arena.asked, inode.ghostSlot, none⟩
        { inode with
          invalidNum := num
          arena := { inode.arena with asked := inode.arena.asked + 1 }
          ghostSlot := ghost } files'

theorem filentDispatch_cases (env : Env) (inode : Inode) (size : Nat) :
    (∃ fe rest, inode.invalid = fe :: rest ∧ filentDispatch env inode size = (some fe,
      { inode with invalid := rest, invalidNum := sub64 (sub64 inode.invalidNum 1) 1 })) ∨
    ∃ num, filentDispatch env inode size = (none, { inode with invalidNum := num }) := by
  unfold filentDispatch
  split
  · exact .inr ⟨inode.invalidNum, rfl⟩
  unfold filentTryReuse
  cases idle : inode.invalid with
  | nil => exact .inr ⟨sub64 inode.invalidNum 1, rfl⟩
  | cons fe rest => exact .inl ⟨fe, rest, rfl, rfl⟩

/-- The only failure is an entry that is not granted: `do_slot_alloc` returns at
least `-1`, so the test `ghost_slot < -1` never succeeds. -/
theorem chooseEntry_cases (env : Env) (files : Maps) (inode : Inode) (size : Nat) :
    (∃ c inode' files', chooseEntry env files inode size = (.ok c, inode', files') ∧
      Choice env files inode c inode' files') ∨
    inode.arena.grants inode.arena.asked = false ∧ ∃ num,
      chooseEntry env files inode size = (.error enomem, { inode with
        invalidNum := num
        arena := { inode.arena with asked := inode.arena.asked + 1 } }, files) := by
  unfold chooseEntry
  obtain ⟨fe, rest, idle, eq⟩ | ⟨num, eq⟩ := filentDispatch_cases env inode size
  · rw [eq]
    refine .inl ⟨_, _, _, ?_, .reuse fe rest idle⟩
    simp only [reuseNext]
  rw [eq]
  cases granted : inode.arena.grants inode.arena.asked with
  | false => exact Or.inr ⟨rfl, num, by simp only [Arena.alloc, granted]; rfl⟩
  | true =>
    simp only [Arena.alloc, granted, if_true]
    have least : -1 ≤ (if inode.symlink then (0, files) else doSlotAlloc files (env.cpu files)).1 := by
      split
      · simp
      · exact doSlotAlloc_ge files _
    generalize next : (if inode.symlink then (0, files) else doSlotAlloc files (env.cpu files)) = got
      at least
    obtain ⟨ghost, files'⟩ := got
    refine .inl ⟨⟨inode.arena.asked, inode.ghostSlot, none⟩, _, files', ?_,
      .append num granted ghost files' next.symm⟩
    simp only [show ¬ ghost < -1 from not_lt.mpr least, if_false]

section
variable (choice : Choice env files inode c inode1 files')
include choice

/-- What choosing an entry leaves as it was. -/
theorem Choice.kept : inode1.fents = inode.fents ∧ inode1.bRoot = inode.bRoot ∧ inode1.list = inode.list ∧
    inode1.iNo = inode.iNo ∧ inode1.iSize = inode.iSize ∧ inode1.symlink = inode.symlink ∧
    inode1.logHead = inode.logHead ∧ inode1.arena.grants = inode.arena.grants := by
  cases choice <;> exact ⟨rfl, rfl, rfl, rfl, rfl, rfl, rfl, rfl⟩

theorem Choice.fill_other (entry : PmFilent) (other : fe ≠ c.fe) :
    (fillEntry inode1 c entry).fents fe = inode.fents fe := by
  simp [fillEntry, Inode.setFent, other, choice.kept.1]

/-- No key leads to the chosen entry, and without it the books are in order. -/
theorem Choice.booked (h : Indexed inode) (entry : PmFilent) : (∀ k, btreeGet inode.bRoot k ≠ some c.fe) ∧
    Booked ({fe | fe ∈ inode.list} \ {c.fe}) (btreeGet inode.bRoot) (fillEntry inode1 c entry) := by
  have fents : ∀ fe ∈ {fe | fe ∈ inode.list} \ {c.fe},
      (fillEntry inode1 c entry).fents fe = inode.fents fe := by
    intro fe hf
    exact choice.fill_other entry fun e => hf.2 e
  cases choice with
  | reuse fe rest idle =>
    have balanced := h.booked.balanced
    rw [idle] at balanced
    have retired : Booked ({fe | fe ∈ inode.list} \ {fe}) (btreeGet inode.bRoot)
        { inode with invalid := rest } := ⟨balanced.retire, h.booked.cover⟩
    exact ⟨balanced.free_of_idle (mem_cons_self ..), retired.congr fents rfl⟩
  | append num granted ghost files' next =>
    have new : inode.arena.asked ∉ {fe | fe ∈ inode.list} :=
      fun hm => Nat.lt_irrefl _ (h.asked _ hm)
    rw [Set.sdiff_singleton_eq_self new] at fents ⊢
    exact ⟨fun k hk => new (h.booked.balanced.owned k _ hk), h.booked.congr fents rfl⟩

end

/-- What `file_append_entry` does to the list when it fills in an entry. -/
structure Entered (inode inode1 : Inode) (entry : PmFilent) (c : Chosen) (inode' : Inode) : Prop where
  filled : ∃ ref, inode'.fents c.fe = ⟨c.fno, entry.ts, entry.lIdx, entry.pIdx, entry.blocks, ref⟩
  kept : ∀ fe, fe ≠ c.fe → ∃ ref, inode'.fents fe = { inode.fents fe with ref }
  list : inode'.list = if c.reuse.isSome then inode.list else inode.list ++ [c.fe]
  ghost : inode'.ghostSlot = inode1.ghostSlot
  same : inode'.iNo = inode.iNo ∧ inode'.iSize = inode.iSize ∧ inode'.symlink = inode.symlink ∧
    inode'.logHead = inode.logHead ∧ inode'.arena.grants = inode.arena.grants

/-- The file after `file_append_entry` has entered an extent. -/
structure Appended (inode inode1 : Inode) (entry : PmFilent) (c : Chosen) (inode' : Inode) : Prop
    extends Entered inode inode1 entry c inode' where
  indexed : Indexed inode'
  map : btreeGet inode'.bRoot = given (btreeGet inode.bRoot) entry.lIdx entry.blocks c.fe
  unmapped : ∀ k, btreeGet inode.bRoot k ≠ some c.fe

section
variable (choice : Choice env files inode c inode1 files')
include choice

theorem Choice.members (h : Listed inode) : let list := if c.reuse.isSome then inode.list else inode.list ++ [c.fe]
    list.Nodup ∧ (∀ fe ∈ list, fe < inode1.arena.asked) ∧
    {fe | fe ∈ list} = insert c.fe ({fe | fe ∈ inode.list} \ {c.fe}) := by
  cases choice with
  | reuse fe rest idle =>
    have member : fe ∈ inode.list := h.idle fe (by rw [idle]; exact mem_cons_self ..)
    refine ⟨h.once, h.asked, ?_⟩
    rw [Set.insert_sdiff_singleton]
    exact (Set.insert_eq_of_mem (show fe ∈ {fe | fe ∈ inode.list} from member)).symm
  | append num granted ghost files' next =>
    have new : inode.arena.asked ∉ inode.list := fun hm => Nat.lt_irrefl _ (h.asked _ hm)
    refine ⟨?_, ?_, ?_⟩
    · exact nodup_append.mpr ⟨h.once, nodup_singleton _, by
        intro a ha b hb
        rw [mem_singleton.mp hb]
        rintro rfl
        exact new ha⟩
    · intro fe hf
      rcases mem_append.mp hf with hf | hf
      · exact Nat.lt_succ_of_lt (h.asked fe hf)
      · rw [mem_singleton.mp hf]
        exact Nat.lt_succ_self _
    · ext fe
      simp [new, or_comm]

theorem Choice.entered {inode3 : Inode} {entry : PmFilent}
    (recounted : Recounted (fillEntry inode1 c entry) inode3) (tree : Btree) (num : Nat) :
    Entered inode inode1 entry c { inode3 with bRoot := tree, entryNum := num } := by
  obtain ⟨_, _, hl, same⟩ := choice.kept
  have rest := recounted.rest
  constructor
  · refine ⟨(inode3.fents c.fe).ref, (recounted.fents c.fe).trans ?_⟩
    simp [fillEntry, Inode.setFent]
  · intro fe other
    refine ⟨(inode3.fents fe).ref, (recounted.fents fe).trans ?_⟩
    rw [choice.fill_other entry other]
  · rw [rest, ← hl]
    rfl
  · rw [rest]
    rfl
  · rw [rest]
    exact same

/-- The chosen entry after the callbacks and the new tree. -/
theorem Choice.appended (h : Indexed inode) {entry : PmFilent} (nonempty : 1 ≤ entry.blocks)
    (small : entry.blocks < 2 ^ 31) {tree : Btree} (shape : Shape tree base) (data : DataSlots) (num : Nat)
    (get : btreeGet tree = given (btreeGet inode.bRoot) entry.lIdx entry.blocks c.fe) :
    Appended inode inode1 entry c
      { (overwritten (btreeGet inode.bRoot) entry.lIdx entry.blocks (fillEntry inode1 c entry)
          data).1 with bRoot := tree, entryNum := num } := by
  obtain ⟨unmapped, booked⟩ := choice.booked h entry
  obtain ⟨once, asked, members⟩ := choice.members h.listed
  obtain ⟨booked', recounted, others⟩ := booked.overwritten data entry.lIdx entry.blocks
  generalize overwritten (btreeGet inode.bRoot) entry.lIdx entry.blocks (fillEntry inode1 c entry)
    data = s at booked' recounted others
  obtain ⟨inode3, data3⟩ := s
  simp only at booked' recounted others
  have entered := choice.entered recounted tree num
  have list : inode3.list = _ := entered.list
  have filled : inode3.fents c.fe =
      ⟨c.fno, entry.ts, entry.lIdx, entry.pIdx, entry.blocks, toInt32 entry.blocks⟩ := by
    rw [others c.fe (fun hm => hm.2 rfl)]
    simp [fillEntry, Inode.setFent]
  refine ⟨entered, ⟨⟨base, shape⟩, ?_, ?_, ?_⟩, get, unmapped⟩
  · have count : (toInt32 entry.blocks : Int) = entry.blocks := toInt32_of_lt small
    have final := booked'.given (show c.fe ∉ _ from fun hm => hm.2 rfl) nonempty (by rw [filled])
      (by rw [filled]) (by rw [filled, ← count])
    rw [← members, ← list] at final
    rw [get]
    exact ⟨final.balanced, final.cover⟩
  · rw [list]
    exact once
  · rw [list, recounted.rest]
    exact asked

end

/-- `file_append_entry` enters the extent and keeps the index in order, or
returns an error before it has touched the index. -/
theorem fileAppendEntry_cases {inode : Inode} (h : Indexed inode) {entry : PmFilent}
    (nonempty : 1 ≤ entry.blocks) (small : entry.blocks < 2 ^ 31) (env : Env) (s : Storage) :
    (∃ c inode1 files inode', Choice env s.files inode c inode1 files ∧
      Appended inode inode1 entry c inode' ∧
      fileAppendEntry env s inode entry = some (.ok c.fe, inode',
        { data := (overwritten (btreeGet inode.bRoot) entry.lIdx entry.blocks
            (fillEntry inode1 c entry) s.data).2
          files
          fentTable := update s.fentTable c.fno
            { entry with next := c.reuse.getD inode'.ghostSlot } })) ∨
    inode.arena.grants inode.arena.asked = false ∧ ∃ num,
      fileAppendEntry env s inode entry = some (.error enomem, { inode with
        invalidNum := num
        arena := { inode.arena with asked := inode.arena.asked + 1 } }, s) := by
  obtain ⟨c, inode1, files, eq, choice⟩ | ⟨refused, num, eq⟩ :=
    chooseEntry_cases env s.files inode (trunc32 (entry.blocks * 4096))
  · obtain ⟨base, shape⟩ := h.tree
    have own : (fillEntry inode1 c entry).fents c.fe =
        ⟨c.fno, entry.ts, entry.lIdx, entry.pIdx, entry.blocks, toInt32 entry.blocks⟩ := by
      simp [fillEntry, Inode.setFent]
    have tree : (fillEntry inode1 c entry).bRoot = inode.bRoot := choice.kept.2.1
    have narrow := entry.narrow
    have low : entry.lIdx + entry.blocks < 256 ^ 7 := by omega
    obtain ⟨tree', base', shape', get, insert⟩ := fileIndexInsert_eq (tree ▸ shape) c.fe
      (by rw [own]; exact nonempty) (by rw [own]; exact low) s.data
    simp only [own, tree] at get insert
    generalize hs : overwritten (btreeGet inode.bRoot) entry.lIdx entry.blocks
      (fillEntry inode1 c entry) s.data = done at insert
    have appended := choice.appended h nonempty small shape' s.data
      (if c.reuse.isSome then done.1.entryNum else wrap64 (done.1.entryNum + 1)) get
    rw [hs] at appended
    refine .inl ⟨c, inode1, files, _, choice, appended, ?_⟩
    simp only [fileAppendEntry, eq, insert, Option.map_some]
    rw [hs]
  · exact Or.inr ⟨refused, num, by simp only [fileAppendEntry, eq]⟩

end SlotFs
