import SlotFs.FileData
import SlotFs.JournalPages
import SlotFs.JournalRecords

/-!
# The replay of the journal

`journal_replay` and the undo of a write in place. PM is reached through virtual addresses:
it is mapped from `DAX_START` on, and a relative pointer is an offset in it. The handlers
are called with the relative pointer of a page where they expect a virtual address. `none`
is an access to an address that is not mapped, or `assert(0)`.
-/

namespace SlotFs
open CWord Bytes List Option Store JnlRecord

variable {bytes : List (BitVec 8)} {n : Nat} {out : Int × Mem}

def daxStart : Nat := 0x780000000000

def rel2abs (rel : Nat) : Nat := wrap64 (rel + daxStart)

def vmRead (vm : Nat → Option Nat) (pm : Mem) (addr : Nat) : Nat → Option (List (BitVec 8))
  | 0 => some []
  | n + 1 =>
    (vm addr).bind fun a => (vmRead vm pm (addr + 1) n).map fun bytes => pm a :: bytes

def vmWrite (vm : Nat → Option Nat) (pm : Mem) (addr : Nat) : List (BitVec 8) → Option Mem
  | [] => some pm
  | b :: bytes => (vm addr).bind fun a => vmWrite vm (setByte pm a b) (addr + 1) bytes

def vmField (vm : Nat → Option Nat) (pm : Mem) (fields : List Field) (jnl i size : Nat) : Option Nat :=
  (vmRead vm pm (jnl + offset fields i) size).map decode

def journalReplayWrite (vm : Nat → Option Nat) (pm : Mem) (jnl : Nat) : Option (Int × Mem) := do
  let start ← vmField vm pm writeJnlT jnl 3 8
  let len ← vmField vm pm writeJnlT jnl 4 8
  let saved ← vmRead vm pm (savedAt jnl) len
  let pm ← vmWrite vm pm (rel2abs start) saved
  some (0, pm)

/-- `journal_replay_rename` and `journal_replay_truncate` -/
structure ReplayHandlers where
  rename : Mem → Nat → Option (Int × Mem)
  truncate : Mem → Nat → Option (Int × Mem)

def replayRecord (others : ReplayHandlers) (vm : Nat → Option Nat) (pm : Mem) (jnl : Nat) (type : Int) :
    Option (Int × Mem) :=
  if type = jnlWrite then journalReplayWrite vm pm jnl
  else if type = jnlRename then others.rename pm jnl
  else if type = jnlTruncate then others.truncate pm jnl
  else none

/-- What follows the handler. The flush goes to the relative pointer too. -/
def replayed (vm : Nat → Option Nat) (jnl : Nat) (ret : Int) (pm : Mem) : Option (Int × Mem) :=
  if ret ≠ 0 then some (ret, pm)
  else do
    let pm ← vmWrite vm pm (rel2abs jnl) [0#8]
    let _ ← vm jnl
    some (0, pm)

def replayPage (others : ReplayHandlers) (vm : Nat → Option Nat) (pm : Mem) (i : Nat) :
    Option (Int × Mem) := do
  let jnl := pageAt i
  let valid ← vmField vm pm journalT (rel2abs jnl) 0 1
  if valid = 0 then some (0, pm)
  else do
    let type ← vmField vm pm journalT (rel2abs jnl) 1 4
    let (ret, pm) ← replayRecord others vm pm jnl (toInt32 type)
    replayed vm jnl ret pm

/-- The pages from `i` on. -/
def replayLoop (others : ReplayHandlers) (vm : Nat → Option Nat) : Nat → Nat → Mem → Option (Int × Mem)
  | 0, _, pm => some (0, pm)
  | n + 1, i, pm =>
    (replayPage others vm pm i).bind fun (ret, pm) =>
      if ret ≠ 0 then some (ret, pm) else replayLoop others vm n (i + 1) pm

def journalReplay (others : ReplayHandlers) (vm : Nat → Option Nat) (pm : Mem) : Option (Int × Mem) :=
  replayLoop others vm journalNum 0 pm

/-! ## Mapped memory -/

/-- `BITMAP_META_START`, the end of the journal. -/
def bitmapMetaStart : Nat := journalStart + journalNum * 4096

/-- PM of `size` bytes is mapped. -/
structure DaxMapped (vm : Nat → Option Nat) (size : Nat) : Prop where
  mapped : ∀ a, a < size → vm (daxStart + a) = some a
  journal : bitmapMetaStart ≤ size
  small : size ≤ 2 ^ 48

/-- At the relative pointers of the journal nothing is mapped but the journal. -/
def JournalOnly (vm : Nat → Option Nat) : Prop :=
  ∀ a b, journalStart ≤ a → a < bitmapMetaStart → vm a = some b → b = a

/-- The relative pointers that the replay of a write of `len` bytes goes through: `begin`,
`len`, the saved bytes, and the byte that is flushed in the end. -/
def ReplayReads (jnl len a : Nat) : Prop :=
  (jnl + offset writeJnlT 3 ≤ a ∧ a < jnl + offset writeJnlT 3 + 8) ∨
  (jnl + offset writeJnlT 4 ≤ a ∧ a < jnl + offset writeJnlT 4 + 8) ∨
  (savedAt jnl ≤ a ∧ a < savedAt jnl + len) ∨ a = jnl

section
variable {vm : Nat → Option Nat} {pm : Mem} {addr p n : Nat}

theorem vmRead_mapped (mapped : ∀ i, i < n → vm (addr + i) = some (p + i)) :
    vmRead vm pm addr n = some (read pm p n) := by
  induction n generalizing addr p with
  | zero => rfl
  | succ n ih =>
    have first := mapped 0 (by omega)
    have rest : vmRead vm pm (addr + 1) n = some (read pm (p + 1) n) := by
      apply ih
      intro i inside
      rw [Nat.add_assoc, Nat.add_assoc, Nat.add_comm 1]
      exact mapped (i + 1) (by omega)
    rw [Nat.add_zero, Nat.add_zero] at first
    rw [vmRead, first, bind_some, rest, map_some, read_succ]

/-- What has been read is mapped. -/
theorem vmRead_some (call : vmRead vm pm addr n = some bytes) : ∀ i, i < n → ∃ a, vm (addr + i) = some a := by
  induction n generalizing addr bytes with
  | zero =>
    intro i none
    omega
  | succ n ih =>
    obtain ⟨a, first, call⟩ := bind_eq_some_iff.mp call
    obtain ⟨_, rest, _⟩ := map_eq_some_iff.mp call
    intro i inside
    cases i with
    | zero => exact ⟨a, first⟩
    | succ i =>
      rw [Nat.add_comm i, ← Nat.add_assoc]
      exact ih rest i (by omega)

theorem vmWrite_mapped (mapped : ∀ i, i < bytes.length → vm (addr + i) = some (p + i)) :
    vmWrite vm pm addr bytes = some (run pm ⟨p, bytes⟩) := by
  rw [← runAll_copy]
  induction bytes generalizing addr p pm with
  | nil => rfl
  | cons b bytes ih =>
    have first := mapped 0 (by simp)
    rw [Nat.add_zero, Nat.add_zero] at first
    rw [vmWrite, first, bind_some, setByte_eq_store, ih]
    · rfl
    · intro i inside
      rw [Nat.add_assoc, Nat.add_assoc, Nat.add_comm 1]
      exact mapped (i + 1) (by simpa using inside)

end

theorem rel2abs_eq {rel : Nat} (small : rel < 2 ^ 48) : rel2abs rel = daxStart + rel := by
  rw [rel2abs, wrap64_of_lt, Nat.add_comm]
  unfold daxStart
  omega

theorem pageAt_inside {i : Nat} (inside : i < journalNum) :
    journalStart ≤ pageAt i ∧ pageAt i + 4096 ≤ bitmapMetaStart := by
  unfold pageAt bitmapMetaStart
  omega

section
variable {others : ReplayHandlers} {vm : Nat → Option Nat} {size : Nat} {pm : Mem} {i : Nat}

section
variable (dax : DaxMapped vm size)
include dax

theorem DaxMapped.at {jnl a : Nat} (inside : jnl + a < size) : vm (rel2abs jnl + a) = some (jnl + a) := by
  have small := dax.small
  rw [rel2abs_eq (by omega), Nat.add_assoc]
  exact dax.mapped _ inside

theorem DaxMapped.field (inside : i < journalNum) {fields : List Field} {k : Nat}
    (fits : offset fields k + n ≤ 4096) :
    vmField vm pm fields (rel2abs (pageAt i)) k n = some (loadField pm fields (pageAt i) k n) := by
  have page := pageAt_inside inside
  have journal := dax.journal
  rw [vmField, vmRead_mapped (p := pageAt i + offset fields k)]
  · rfl
  · intro j below
    rw [Nat.add_assoc, Nat.add_assoc]
    exact dax.at (by omega)

theorem replayPage_idle (inside : i < journalNum) (idle : pm (pageAt i) = 0#8) :
    replayPage others vm pm i = some (0, pm) := by
  have valid : loadField pm journalT (pageAt i) 0 1 = 0 := by
    change decode [pm (pageAt i)] = 0
    rw [idle]
    rfl
  simp only [replayPage, bind_eq_bind]
  rw [dax.field inside (by decide), valid, bind_some, if_pos rfl]

end

section
variable {ino start : Nat} {saved : List (BitVec 8)} (dax : DaxMapped vm size)
  (held : (write ino start saved).Held pm (pageAt i))
include dax held

/-- The record of a write is found. -/
theorem replayPage_record (inside : i < journalNum) : replayPage others vm pm i =
    (journalReplayWrite vm pm (pageAt i)).bind fun out => replayed vm (pageAt i) out.1 out.2 := by
  have valid := held.field writeJnlT 0 1 1 (by simp [whole]) (by decide)
  have type := held.field writeJnlT 1 4 jnlWrite (by simp [whole]) (by decide)
  have record : replayRecord others vm pm (pageAt i) (toInt32 jnlWrite) =
      journalReplayWrite vm pm (pageAt i) := by
    rw [replayRecord, if_pos (toInt32_of_lt (by decide))]
  simp only [replayPage, bind_eq_bind]
  rw [dax.field inside (by decide)]
  change (Option.bind (some (loadField pm writeJnlT (pageAt i) 0 1)) _) = _
  rw [valid, bind_some, if_neg Nat.one_ne_zero, dax.field inside (by decide)]
  change (Option.bind (some (loadField pm writeJnlT (pageAt i) 1 4)) _) = _
  rw [type, bind_some, record]

variable (fits : (write ino start saved).Fits)
include fits

theorem journalReplayWrite_held (mapped : ∀ a, ReplayReads (pageAt i) saved.length a → vm a = some a)
    (within : start + saved.length ≤ size) :
    journalReplayWrite vm pm (pageAt i) = some (0, run pm ⟨start, saved⟩) := by
  obtain ⟨_, hs, short⟩ := fits
  have first := held.field writeJnlT 3 8 start (by simp [whole]) hs
  have length := held.field writeJnlT 4 8 saved.length (by simp [whole]) (by omega)
  have bytes := held ⟨savedAt (pageAt i), saved⟩ (by simp [whole])
  have readStart : vmField vm pm writeJnlT (pageAt i) 3 8 = some start := by
    rw [vmField, vmRead_mapped fun j below => mapped _ (Or.inl ⟨by omega, by omega⟩)]
    exact congrArg some first
  have readLength : vmField vm pm writeJnlT (pageAt i) 4 8 = some saved.length := by
    rw [vmField, vmRead_mapped fun j below => mapped _ (Or.inr (Or.inl ⟨by omega, by omega⟩))]
    exact congrArg some length
  have copied : vmRead vm pm (savedAt (pageAt i)) saved.length = some saved := by
    rw [vmRead_mapped fun j below => mapped _ (Or.inr (Or.inr (Or.inl ⟨by omega, by omega⟩))), bytes]
  have restored : vmWrite vm pm (rel2abs start) saved = some (run pm ⟨start, saved⟩) := by
    apply vmWrite_mapped
    intro j below
    exact dax.at (by omega)
  simp only [journalReplayWrite, bind_eq_bind]
  rw [readStart, bind_some, readLength, bind_some, copied, bind_some, restored,
    bind_some]

theorem replayPage_held (inside : i < journalNum)
    (mapped : ∀ a, ReplayReads (pageAt i) saved.length a → vm a = some a) (within : start + saved.length ≤ size) :
    replayPage others vm pm i = some (0, setByte (run pm ⟨start, saved⟩) (pageAt i) 0#8) := by
  have page := pageAt_inside inside
  have journal := dax.journal
  have committed : vmWrite vm (run pm ⟨start, saved⟩) (rel2abs (pageAt i)) [0#8] =
      some (setByte (run pm ⟨start, saved⟩) (pageAt i) 0#8) := by
    rw [setByte_eq_store]
    apply vmWrite_mapped
    intro j below
    rw [length_singleton] at below
    exact dax.at (by omega)
  rw [replayPage_record dax held inside, journalReplayWrite_held dax held fits mapped within,
    bind_some]
  simp only [replayed, ne_eq, not_true_eq_false, if_false, bind_eq_bind]
  rw [committed, bind_some, mapped _ (Or.inr (Or.inr (Or.inr rfl))), bind_some]

/-- What the replay goes through is mapped, if it gets to an end. -/
theorem replayPage_reads (inside : i < journalNum) (only : JournalOnly vm)
    (call : replayPage others vm pm i = some out) :
    ∀ a, ReplayReads (pageAt i) saved.length a → vm a = some a := by
  obtain ⟨_, _, short⟩ := fits
  have page := pageAt_inside inside
  have mapped {k n : Nat} {bytes : List (BitVec 8)} (below : k + n ≤ 4096)
      (read : vmRead vm pm (pageAt i + k) n = some bytes) (a : Nat)
      (inside : pageAt i + k ≤ a ∧ a < pageAt i + k + n) : vm a = some a := by
    obtain ⟨b, there⟩ := vmRead_some read (a - (pageAt i + k)) (by omega)
    rw [Nat.add_sub_cancel' inside.1] at there
    rw [there, only a b (by omega) (by omega) there]
  rw [replayPage_record dax held inside] at call
  obtain ⟨⟨ret, pm1⟩, write, flush⟩ := bind_eq_some_iff.mp call
  simp only [journalReplayWrite, bind_eq_bind] at write
  obtain ⟨start', readStart, write⟩ := bind_eq_some_iff.mp write
  obtain ⟨len, readLength, write⟩ := bind_eq_some_iff.mp write
  obtain ⟨saved', readSaved, write⟩ := bind_eq_some_iff.mp write
  obtain ⟨_, _, eq⟩ := bind_eq_some_iff.mp write
  cases eq
  obtain ⟨_, readStart, _⟩ := map_eq_some_iff.mp readStart
  obtain ⟨bytes, readLength, eq⟩ := map_eq_some_iff.mp readLength
  have length := mapped (by decide) readLength
  have same : saved.length = len := by
    have field := held.field writeJnlT 4 8 saved.length (by simp [whole]) (by omega)
    rw [vmRead_mapped fun j below => length _ ⟨by omega, by omega⟩] at readLength
    rw [← field, ← eq, ← some.inj readLength]
    rfl
  subst same
  have flushed : ∃ b, vm (pageAt i) = some b := by
    simp only [replayed, ne_eq, not_true_eq_false, if_false, bind_eq_bind] at flush
    obtain ⟨_, _, flush⟩ := bind_eq_some_iff.mp flush
    obtain ⟨b, there, _⟩ := bind_eq_some_iff.mp flush
    exact ⟨b, there⟩
  rintro a (start | length' | bytes | rfl)
  · exact mapped (by decide) readStart a start
  · exact length a length'
  · refine mapped ?_ readSaved a bytes
    simp only [writeJnlT_offsets]
    omega
  · obtain ⟨b, there⟩ := flushed
    rw [there, only _ b page.1 (by omega) there]

end

section
variable (dax : DaxMapped vm size) (range : i + n ≤ journalNum)
include dax range

theorem replayLoop_idle (idle : ∀ j, i ≤ j → j < i + n → pm (pageAt j) = 0#8) :
    replayLoop others vm n i pm = some (0, pm) := by
  induction n generalizing i with
  | zero => rfl
  | succ n ih =>
    rw [replayLoop, replayPage_idle dax (by omega) (idle i (le_refl i) (by omega)), bind_some]
    exact ih (by omega) fun j lo hi => idle j (by omega) (by omega)

/-- In front of page `p` there is nothing to replay. -/
theorem replayLoop_reaches {p : Nat} (lo : i ≤ p) (hi : p < i + n)
    (idle : ∀ j, i ≤ j → j < p → pm (pageAt j) = 0#8) (call : replayLoop others vm n i pm = some out) :
    ∃ out', replayPage others vm pm p = some out' := by
  induction n generalizing i with
  | zero => omega
  | succ n ih =>
    by_cases here : i = p
    · subst here
      obtain ⟨out', page, _⟩ := bind_eq_some_iff.mp call
      exact ⟨out', page⟩
    · rw [replayLoop, replayPage_idle dax (by omega) (idle i (le_refl i) (by omega)),
        bind_some] at call
      exact ih (by omega) (by omega) (by omega) (fun j above below => idle j (by omega) below) call

/-- Only page `p` has something to replay. -/
theorem replayLoop_one {p : Nat} {pm' : Mem} (lo : i ≤ p) (hi : p < i + n)
    (page : replayPage others vm pm p = some (0, pm')) (idle : ∀ j, i ≤ j → j < p → pm (pageAt j) = 0#8)
    (later : ∀ j, p < j → j < i + n → pm' (pageAt j) = 0#8) : replayLoop others vm n i pm = some (0, pm') := by
  induction n generalizing i with
  | zero => omega
  | succ n ih =>
    by_cases here : i = p
    · subst here
      rw [replayLoop, page, bind_some]
      exact replayLoop_idle dax (by omega) fun j above below => later j (by omega) (by omega)
    · rw [replayLoop, replayPage_idle dax (by omega) (idle i (le_refl i) (by omega)), bind_some]
      exact ih (by omega) (by omega) (by omega) (fun j above below => idle j (by omega) below)
        fun j above below => later j above (by omega)

end

end

/-! ## A write in place that is cut off -/

/-- All of PM; `between` is what lies between the journal and the data area. -/
def pmImage (sbi : Sbi) (between : Mem) : Mem :=
  fun a =>
    if a < bitmapMetaStart then sbi.low a
    else if a < sbi.dataTable then between a
    else sbi.blocks (a - sbi.dataTable)

/-- `inode_write_journal` is between `journal_write` and `journal_commit`: some of the bytes
from `addr` on have been written. -/
structure JournaledCrash (sbi : Sbi) (inode : Inode) (buf : Mem) (len offset jnl addr : Nat)
    (sbi' : Sbi) : Prop where
  mapped : ∃ fe, filentLookup inode (offset / 4096) = some fe ∧
    addr = fe.addr (offset / 4096) + offset % 4096
  page : (journalAlloc sbi.jnlMgr).1 = jnl
  low : sbi'.low = journalWrite sbi.low jnl inode.iNo (sbi.dataTable + addr) sbi.blocks addr len
  blocks : ∀ a, sbi'.blocks a = sbi.blocks a ∨
    (addr ≤ a ∧ a < addr + len ∧ sbi'.blocks a = buf (a - addr))
  table : sbi'.dataTable = sbi.dataTable

/-- The write ends with the commit of such a state. -/
theorem inodeWriteJournal_crash {sbi : Sbi} {inode : Inode} {buf : Mem} {len offset : Nat} {fe : Filent}
    (mapped : filentLookup inode (offset / 4096) = some fe) :
    ∃ jnl addr sbi', JournaledCrash sbi inode buf len offset jnl addr sbi' ∧
      (inodeWriteJournal sbi inode buf len offset).2 =
        { sbi' with
          low := (journalCommit sbi'.low sbi'.jnlMgr jnl).1
          jnlMgr := (journalCommit sbi'.low sbi'.jnlMgr jnl).2 } := by
  let addr := fe.addr (offset / 4096) + offset % 4096
  let jnl := (journalAlloc sbi.jnlMgr).1
  refine ⟨jnl, addr, { sbi with
    jnlMgr := (journalAlloc sbi.jnlMgr).2
    low := journalWrite sbi.low jnl inode.iNo (sbi.dataTable + addr) sbi.blocks addr len
    blocks := memcpy sbi.blocks addr buf 0 len }, ⟨⟨fe, mapped, rfl⟩, rfl, rfl, fun a => ?_, rfl⟩, ?_⟩
  · by_cases inside : addr ≤ a ∧ a < addr + len
    · refine Or.inr ⟨inside.1, inside.2, ?_⟩
      simp [memcpy, inside]
    · exact Or.inl (if_neg inside)
  · simp only [inodeWriteJournal, mapped]
    rfl

theorem whole_inside {ino start jnl : Nat} {saved : List (BitVec 8)} (short : saved.length < 1024) {s : Store}
    (member : s ∈ (write ino start saved).whole jnl) : jnl ≤ s.addr ∧ s.addr + s.bytes.length ≤ jnl + 4096 := by
  simp only [whole, storeField, savedAt, offset, writeJnlT_offsets, mem_cons,
    not_mem_nil, or_false] at member
  rcases member with rfl | rfl | rfl | rfl | rfl | rfl <;> (simp; try omega)

/-- The old bytes are back, nothing else has changed but `valid`, and a second replay finds
nothing to do. -/
def WriteUndone (others : ReplayHandlers) (vm : Nat → Option Nat) (sbi sbi' : Sbi) (between : Mem)
    (jnl addr len : Nat) : Prop :=
  ∃ pm, journalReplay others vm (pmImage sbi' between) = some (0, pm) ∧
    (∀ j, j < len → pm (sbi.dataTable + addr + j) = pmImage sbi between (sbi.dataTable + addr + j)) ∧
    (∀ a, a ≠ jnl → a < sbi.dataTable + addr ∨ sbi.dataTable + addr + len ≤ a →
      pm a = pmImage sbi' between a) ∧
    journalReplay others vm pm = some (0, pm)

section
variable {sbi sbi' : Sbi} {inode : Inode} {buf : Mem} {len offset jnl addr : Nat}
  (crash : JournaledCrash sbi inode buf len offset jnl addr sbi')
include crash

theorem JournaledCrash.placed : jnl = 0 ∨ ∃ i, i < journalNum ∧ jnl = pageAt i := by
  rcases journalAlloc_cases sbi.jnlMgr with ⟨i, inside, _, _, call⟩ | none
  · exact Or.inr ⟨i, inside, by rw [← crash.page, call]⟩
  · exact Or.inl (by rw [← crash.page, none])

variable (short : len < 1024)
include short

theorem JournaledCrash.held (low : jnl + 4096 ≤ bitmapMetaStart) (number : inode.iNo < 2 ^ 64)
    (start : sbi.dataTable + addr < 2 ^ 64) (between : Mem) :
    (write inode.iNo (sbi.dataTable + addr) (read sbi.blocks addr len)).Held
      (pmImage sbi' between) jnl := by
  have fits : (write inode.iNo (sbi.dataTable + addr) (read sbi.blocks addr len)).Fits :=
    ⟨number, start, by rwa [read_length]⟩
  intro s member
  have within := whole_inside fits.2.2 member
  have held := held_stores sbi.low jnl fits s member
  rw [← journalWrite_stores, ← crash.low] at held
  rw [← held]
  nth_rewrite 1 [held]
  apply read_congr
  intro a lo hi
  rw [pmImage, if_pos (by omega)]

/-- The other pages have no record. -/
theorem JournaledCrash.quiet (idle : ∀ i, i < journalNum → pageAt i ≠ jnl → sbi.low (pageAt i) = 0#8)
    {j : Nat} (below : j < journalNum) (other : pageAt j ≠ jnl) (between : Mem) :
    pmImage sbi' between (pageAt j) = 0#8 := by
  have page := pageAt_inside below
  have outside : pageAt j < jnl ∨ jnl + 4096 ≤ pageAt j := by
    rcases crash.placed with zero | ⟨i, _, rfl⟩
    · exact Or.inr (by unfold journalStart at page; omega)
    · unfold pageAt at *
      omega
  rw [pmImage, if_pos (by omega), ← idle j below other, crash.low, journalWrite_stores,
    runAll_stores]
  apply runAll_clear
  intro s member
  have within := whole_inside (by rwa [read_length]) member
  rcases outside with front | behind
  · exact Or.inr (by omega)
  · exact Or.inl (by omega)

variable {vm : Nat → Option Nat} {size : Nat} (dax : DaxMapped vm size)
  (idle : ∀ i, i < journalNum → pageAt i ≠ jnl → sbi.low (pageAt i) = 0#8)
  (others : ReplayHandlers) (between : Mem)
include dax idle

/-- With a record in the journal, everything depends on what is mapped at the relative
pointers. -/
theorem JournaledCrash.undone (found : jnl ≠ 0) (number : inode.iNo < 2 ^ 64)
    (area : bitmapMetaStart ≤ sbi.dataTable) (within : sbi.dataTable + addr + len ≤ size)
    (mapped : ∀ a, ReplayReads jnl len a → vm a = some a) :
    WriteUndone others vm sbi sbi' between jnl addr len := by
  obtain ⟨i, inside, rfl⟩ := crash.placed.resolve_left found
  have small := dax.small
  have page := pageAt_inside inside
  have held := crash.held short page.2 number (by omega) between
  have replay : replayPage others vm _ i = _ :=
    replayPage_held dax held ⟨number, by omega, by rwa [read_length]⟩ inside (by rwa [read_length])
      (by rwa [read_length])
  have quiet (j : Nat) (below : j < journalNum) (other : j ≠ i) : pmImage sbi' between (pageAt j) = 0#8 :=
    crash.quiet short idle below (fun same => other (pageAt_inj.mp same)) between
  unfold WriteUndone
  generalize pmImage sbi' between = pm1 at *
  rw [← memcpy_eq_store] at replay
  generalize done : setByte (memcpy pm1 (sbi.dataTable + addr) sbi.blocks addr len) (pageAt i) 0#8 = pm
    at replay
  have restored (j : Nat) (below : j < len) :
      pm (sbi.dataTable + addr + j) = pmImage sbi between (sbi.dataTable + addr + j) := by
    rw [← done, setByte, if_neg (by omega), memcpy_inside pm1 sbi.blocks addr below]
    rw [pmImage, if_neg (by omega), if_neg (by omega), Nat.add_assoc, Nat.add_sub_cancel_left]
  have kept (a : Nat) (other : a ≠ pageAt i)
      (outside : a < sbi.dataTable + addr ∨ sbi.dataTable + addr + len ≤ a) : pm a = pm1 a := by
    rw [← done, setByte, if_neg other, memcpy_outside pm1 sbi.blocks addr outside]
  have silent (j : Nat) (below : j < journalNum) : pm (pageAt j) = 0#8 := by
    have there := pageAt_inside below
    by_cases same : j = i
    · rw [same, ← done, setByte, if_pos rfl]
    · rw [kept _ (fun e => same (pageAt_inj.mp e)) (by omega), quiet j below same]
  refine ⟨pm, ?_, restored, kept, ?_⟩
  · exact replayLoop_one dax (by omega) (Nat.zero_le i) (by omega) replay
      (fun j _ before => quiet j (by omega) (by omega)) fun j _ below => silent j (by omega)
  · exact replayLoop_idle dax (by omega) fun j _ below => silent j (by omega)

theorem JournaledCrash.reads (found : jnl ≠ 0) (number : inode.iNo < 2 ^ 64)
    (within : sbi.dataTable + addr + len ≤ size) (only : JournalOnly vm)
    (call : journalReplay others vm (pmImage sbi' between) = some out) :
    ∀ a, ReplayReads jnl len a → vm a = some a := by
  obtain ⟨i, inside, rfl⟩ := crash.placed.resolve_left found
  have small := dax.small
  have held := crash.held short (pageAt_inside inside).2 number (by omega) between
  obtain ⟨out', page⟩ := replayLoop_reaches dax (by omega) (Nat.zero_le i) (by omega)
    (fun j _ before => crash.quiet short idle (by omega) (fun e => by have := pageAt_inj.mp e; omega) between)
    call
  have reads := replayPage_reads dax held ⟨number, by omega, by rwa [read_length]⟩ inside only page
  rwa [read_length] at reads

/-- Without a page for the record nothing is replayed. -/
theorem JournaledCrash.undone_zero (zero : jnl = 0) (area : bitmapMetaStart ≤ sbi.dataTable) :
    WriteUndone others vm sbi sbi' between jnl addr len ↔
    ∀ j, j < len → sbi'.blocks (addr + j) = sbi.blocks (addr + j) := by
  have silent : journalReplay others vm (pmImage sbi' between) = some (0, pmImage sbi' between) := by
    apply replayLoop_idle dax (by omega)
    intro j _ below
    have page := pageAt_inside (show j < journalNum by omega)
    exact crash.quiet short idle (by omega) (by unfold journalStart at page; omega) between
  have image (sbi' : Sbi) (table : sbi'.dataTable = sbi.dataTable) (j : Nat) :
      pmImage sbi' between (sbi.dataTable + addr + j) = sbi'.blocks (addr + j) := by
    rw [pmImage, table, if_neg (by omega), if_neg (by omega), Nat.add_assoc, Nat.add_sub_cancel_left]
  constructor
  · rintro ⟨pm, replay, restored, _⟩ j below
    obtain rfl : pmImage sbi' between = pm := (Prod.mk.inj (some.inj (silent.symm.trans replay))).2
    rw [← image sbi' crash.table, ← image sbi rfl]
    exact restored j below
  · intro same
    refine ⟨_, silent, fun j below => ?_, fun _ _ _ => rfl, silent⟩
    rw [image sbi' crash.table, image sbi rfl, same j below]

end

/-- A file of one block, which is block 1 of the data area. -/
def oneBlockInode : Inode where
  iNo := 1
  iSize := 4096
  symlink := false
  bRoot := ⟨0, 0, fun _ => ⟨none, 0, 0, 0, fun k => if k = 0 then some 0 else none⟩, ⟨1, fun _ => true⟩⟩
  entryNum := 1
  invalidNum := 0
  logHead := 1
  ghostSlot := 2
  list := [0]
  invalid := []
  fents := fun _ => ⟨1, 1, 0, 1, 1, 1⟩
  arena := ⟨1, fun _ => true⟩

/-- The journal is empty, and the data area begins at 2 MiB. -/
def journalSbi : Sbi where
  inodes := ⟨1, fun _ => ⟨fun _ => 0#8, 0, 64, 64, 0⟩⟩
  storage := ⟨⟨⟨1, fun _ => ⟨fun _ => 0#8, 0, 64, 64, 0⟩⟩, []⟩, ⟨1, fun _ => ⟨fun _ => 0#8, 0, 64, 64, 0⟩⟩,
    fun _ => .zero⟩
  ts := 1
  jnlMgr := journalMgrInit ⟨fun _ => false, 0⟩
  low := fun _ => 0#8
  dataTable := 2097152
  blocks := fun _ => 7#8
  pmSize := fun _ => 0

/-- The first of two bytes has been written. -/
def halfWritten : Sbi :=
  { journalSbi with
    low := journalWrite journalSbi.low 8192 1 (2097152 + 4096) journalSbi.blocks 4096 2
    blocks := setByte journalSbi.blocks 4096 9#8 }

theorem halfWritten_crash : JournaledCrash journalSbi oneBlockInode (fun _ => 9#8) 2 0 8192 4096 halfWritten := by
  refine ⟨⟨⟨1, 1, 0, 1, 1, 1⟩, rfl, by decide⟩, rfl, rfl, fun a => ?_, rfl⟩
  by_cases same : a = 4096
  · refine Or.inr ⟨by omega, by omega, ?_⟩
    rw [same]
    rfl
  · exact Or.inl (if_neg same)

def daxOnly : Nat → Option Nat :=
  fun a => if daxStart ≤ a ∧ a < daxStart + 4194304 then some (a - daxStart) else none

def daxAndJournal : Nat → Option Nat :=
  fun a => if a < bitmapMetaStart then some a else daxOnly a

theorem daxOnly_mapped : DaxMapped daxOnly 4194304 := by
  refine ⟨fun a below => ?_, by decide, by decide⟩
  rw [daxOnly, if_pos (by omega), Nat.add_sub_cancel_left]

theorem daxAndJournal_mapped : DaxMapped daxAndJournal 4194304 := by
  refine ⟨fun a below => ?_, by decide, by decide⟩
  have high : bitmapMetaStart ≤ daxStart := by decide
  rw [daxAndJournal, if_neg (by omega)]
  exact daxOnly_mapped.mapped a below

theorem daxOnly_only : JournalOnly daxOnly := by
  intro a b _ below there
  have high : bitmapMetaStart ≤ daxStart := by decide
  rw [daxOnly, if_neg (by omega)] at there
  cases there

theorem daxAndJournal_only : JournalOnly daxAndJournal := by
  intro a b _ below there
  rw [daxAndJournal, if_pos below] at there
  exact (some.inj there).symm

/-- A write in place that was cut off is undone if and only if its record is in a page and the
replay finds what it goes through at the relative pointers, or nothing has been written. -/
theorem journaled_write_undone {sbi sbi' : Sbi} {inode : Inode} {buf : Mem} {len offset jnl addr : Nat}
    (crash : JournaledCrash sbi inode buf len offset jnl addr sbi') (number : inode.iNo < 2 ^ 64)
    (short : len < 1024) (area : bitmapMetaStart ≤ sbi.dataTable) {vm : Nat → Option Nat} {size : Nat}
    (dax : DaxMapped vm size) (only : JournalOnly vm) (within : sbi.dataTable + addr + len ≤ size)
    (idle : ∀ i, i < journalNum → pageAt i ≠ jnl → sbi.low (pageAt i) = 0#8)
    (others : ReplayHandlers) (between : Mem) :
    WriteUndone others vm sbi sbi' between jnl addr len ↔
      (jnl ≠ 0 ∧ ∀ a, ReplayReads jnl len a → vm a = some a) ∨
      (jnl = 0 ∧ ∀ j, j < len → sbi'.blocks (addr + j) = sbi.blocks (addr + j)) := by
  by_cases found : jnl = 0
  · rw [crash.undone_zero short dax idle others between found area]
    simp [found]
  have whole := crash.undone short dax idle others between found number area within
  constructor
  · rintro ⟨pm, replay, _⟩
    exact Or.inl ⟨found, crash.reads short dax idle others between found number within only replay⟩
  · rintro (⟨_, mapped⟩ | ⟨zero, _⟩)
    · exact whole mapped
    · exact absurd zero found

theorem journaled_write_undone_half :
    WriteUndone ⟨fun _ _ => none, fun _ _ => none⟩ daxAndJournal journalSbi halfWritten (fun _ => 0#8)
      8192 4096 2 := by
  have mapped (a : Nat) (reads : ReplayReads 8192 2 a) : daxAndJournal a = some a := by
    apply if_pos
    simp only [ReplayReads, offset, savedAt, writeJnlT_offsets, getD_cons_succ,
      getD_cons_zero] at reads
    unfold bitmapMetaStart journalStart journalNum
    omega
  have undone := journaled_write_undone halfWritten_crash (by decide) (by decide) (by decide)
    daxAndJournal_mapped daxAndJournal_only (by decide) (fun _ _ _ => rfl)
    ⟨fun _ _ => none, fun _ _ => none⟩ fun _ => 0#8
  exact undone.mpr (Or.inl ⟨by decide, mapped⟩)

/-- With PM mapped from `DAX_START` on only, the replay does not get through. -/
theorem replay_reads_unmapped :
    JournaledCrash journalSbi oneBlockInode (fun _ => 9#8) 2 0 8192 4096 halfWritten ∧
      DaxMapped daxOnly 4194304 ∧
      ∀ others between, journalReplay others daxOnly (pmImage halfWritten between) = none := by
  refine ⟨halfWritten_crash, daxOnly_mapped, fun others between => ?_⟩
  cases call : journalReplay others daxOnly (pmImage halfWritten between) with
  | none => rfl
  | some out =>
    have flushed := halfWritten_crash.reads (by decide) daxOnly_mapped (fun _ _ _ => rfl) others between
      (by decide) (by decide) (by decide) daxOnly_only call 8192 (Or.inr (Or.inr (Or.inr rfl)))
    exact absurd flushed (by decide)

end SlotFs
