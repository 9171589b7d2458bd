import SlotFs.Journal
import SlotFs.Lib.Bytes

/-!
# Journal records

`journal.h` and the writers of `journal.c`. Three kinds of records share a page, each with a
struct of its own, and `journal_replay` reads the head of the page through a fourth one.
64-bit fields are given by their bits, as natural numbers below `2 ^ 64`.
-/

namespace SlotFs
open CWord Bytes List Store

variable {fields : List Field} {i ino n newParent oldParent size start : Nat}
  {newName oldName saved : List (BitVec 8)} {r : JnlRecord}

def jnlRename : Nat := 2
def jnlTruncate : Nat := 3

/-- `valid`, `type` -/
def journalT : List Field := [cBool, cInt]

/-- `valid`, `type`, `ino`, `begin`, `len`, `ts` -/
def writeJnlT : List Field := [cBool, cInt, cLong, cLong, cLong, cLong]

/-- `valid`, `type`, `old_parent`, `new_parent`, `old_name`, `old_len`, `new_name`, `new_len`, `ts` -/
def renameJnlT : List Field :=
  [cBool, cInt, cLong, cLong, cChars 64, cInt, cChars 64, cInt, cLong]

/-- `valid`, `type`, `ino`, `size`; here `type` is a `bool`. -/
def truncateJnlT : List Field := [cBool, cBool, cLong, cLong]

inductive JnlRecord
  | write (ino start : Nat) (saved : List (BitVec 8))
  | rename (oldParent newParent : Nat) (oldName newName : List (BitVec 8))
  | truncate (ino size : Nat)
  deriving DecidableEq

/-- The old bytes are put behind 40 records, not behind one: the source adds
`sizeof(write_jnl_t)` to a `write_jnl_t *`. -/
def savedAt (jnl : Nat) : Nat := jnl + structSize writeJnlT * structSize writeJnlT

/-- The number `n` in field `i` of a struct at `jnl`. -/
def storeField (fields : List Field) (jnl i size n : Nat) : Store :=
  ⟨jnl + offset fields i, encode size n⟩

/-- The stores of `journal_write`, `journal_rename` and `journal_truncate` to a page, in
their order; `memcpy` goes byte by byte. As a `bool` every `type` is 1. -/
def JnlRecord.stores (jnl : Nat) : JnlRecord → List Store
  | .write ino start saved =>
    copy (savedAt jnl) saved ++
      [storeField writeJnlT jnl 0 1 1, storeField writeJnlT jnl 1 4 jnlWrite,
        storeField writeJnlT jnl 2 8 ino, storeField writeJnlT jnl 3 8 start,
        storeField writeJnlT jnl 4 8 saved.length]
  | .rename oldParent newParent oldName newName =>
    [storeField renameJnlT jnl 0 1 1, storeField renameJnlT jnl 1 4 jnlRename,
        storeField renameJnlT jnl 2 8 oldParent, storeField renameJnlT jnl 3 8 newParent] ++
      copy (jnl + offset renameJnlT 4) oldName ++ [storeField renameJnlT jnl 5 4 oldName.length] ++
      copy (jnl + offset renameJnlT 6) newName ++ [storeField renameJnlT jnl 7 4 newName.length]
  | .truncate ino size =>
    [storeField truncateJnlT jnl 0 1 1,
      storeField truncateJnlT jnl 1 1 (if jnlTruncate = 0 then 0 else 1),
      storeField truncateJnlT jnl 2 8 ino, storeField truncateJnlT jnl 3 8 size]

def journalRename (low : Mem) (jnl oldParent newParent : Nat) (oldName newName : List (BitVec 8)) :
    Mem :=
  runAll low ((JnlRecord.rename oldParent newParent oldName newName).stores jnl)

def journalTruncate (low : Mem) (jnl ino size : Nat) : Mem :=
  runAll low ((JnlRecord.truncate ino size).stores jnl)

/-! ## Reading -/

def loadField (low : Mem) (fields : List Field) (jnl i size : Nat) : Nat :=
  decode (read low (jnl + offset fields i) size)

/-- `type`, as `journal_replay` reads it. -/
def journalType (low : Mem) (jnl : Nat) : Int := toInt32 (loadField low journalT jnl 1 4)

def readWriteJnl (low : Mem) (jnl : Nat) : JnlRecord :=
  .write (loadField low writeJnlT jnl 2 8) (loadField low writeJnlT jnl 3 8)
    (read low (savedAt jnl) (loadField low writeJnlT jnl 4 8))

def readRenameJnl (low : Mem) (jnl : Nat) : JnlRecord :=
  .rename (loadField low renameJnlT jnl 2 8) (loadField low renameJnlT jnl 3 8)
    (read low (jnl + offset renameJnlT 4) (loadField low renameJnlT jnl 5 4))
    (read low (jnl + offset renameJnlT 6) (loadField low renameJnlT jnl 7 4))

def readTruncateJnl (low : Mem) (jnl : Nat) : JnlRecord :=
  .truncate (loadField low truncateJnlT jnl 2 8) (loadField low truncateJnlT jnl 3 8)

/-- What the handler that `journal_replay` chooses reads; `none` is `assert(0)`. -/
def journalRead (low : Mem) (jnl : Nat) : Option JnlRecord :=
  let type := journalType low jnl
  if type = jnlWrite then some (readWriteJnl low jnl)
  else if type = jnlRename then some (readRenameJnl low jnl)
  else if type = jnlTruncate then some (readTruncateJnl low jnl)
  else none

/-! ## What is read after a record has been written -/

/-- The numbers fit their fields, names are of at most 64 bytes, and fewer than 1024 bytes
are saved. -/
def JnlRecord.Fits : JnlRecord → Prop
  | .write ino start saved => ino < 2 ^ 64 ∧ start < 2 ^ 64 ∧ saved.length < 1024
  | .rename oldParent newParent oldName newName =>
    oldParent < 2 ^ 64 ∧ newParent < 2 ^ 64 ∧ oldName.length ≤ 64 ∧ newName.length ≤ 64
  | .truncate ino size => ino < 2 ^ 64 ∧ size < 2 ^ 64

/-- The stores of a record with each `memcpy` as one. -/
def JnlRecord.whole (jnl : Nat) : JnlRecord → List Store
  | .write ino start saved =>
    [⟨savedAt jnl, saved⟩, storeField writeJnlT jnl 0 1 1, storeField writeJnlT jnl 1 4 jnlWrite,
      storeField writeJnlT jnl 2 8 ino, storeField writeJnlT jnl 3 8 start,
      storeField writeJnlT jnl 4 8 saved.length]
  | .rename oldParent newParent oldName newName =>
    [storeField renameJnlT jnl 0 1 1, storeField renameJnlT jnl 1 4 jnlRename,
      storeField renameJnlT jnl 2 8 oldParent, storeField renameJnlT jnl 3 8 newParent,
      ⟨jnl + offset renameJnlT 4, oldName⟩, storeField renameJnlT jnl 5 4 oldName.length,
      ⟨jnl + offset renameJnlT 6, newName⟩, storeField renameJnlT jnl 7 4 newName.length]
  | .truncate ino size => (JnlRecord.truncate ino size).stores jnl

theorem JnlRecord.runAll_stores (low : Mem) (jnl : Nat) (r : JnlRecord) :
    runAll low (r.stores jnl) = runAll low (r.whole jnl) := by
  cases r with
  | write ino start saved =>
    rw [JnlRecord.stores, runAll_append, runAll_copy]
    rfl
  | rename oldParent newParent oldName newName =>
    simp only [JnlRecord.stores, runAll_append, runAll_copy]
    rfl
  | truncate ino size => rfl

theorem writeJnlT_offsets : offsets 0 writeJnlT = [0, 4, 8, 16, 24, 32] ∧ structSize writeJnlT = 40 := by
  decide

theorem renameJnlT_offsets : offsets 0 renameJnlT = [0, 4, 8, 16, 24, 88, 92, 156, 160] := by decide

theorem truncateJnlT_offsets : offsets 0 truncateJnlT = [0, 1, 8, 16] := by decide

theorem JnlRecord.whole_apart (jnl : Nat) (fits : r.Fits) :
    (r.whole jnl).Pairwise fun s t => t.Clear s.addr s.bytes.length := by
  cases r with
  | write ino start saved =>
    simp only [JnlRecord.whole, storeField, savedAt, offset, writeJnlT_offsets, Clear,
      pairwise_cons, encode_length]
    simp
  | rename oldParent newParent oldName newName =>
    obtain ⟨_, _, short, short'⟩ := fits
    simp only [JnlRecord.whole, storeField, offset, renameJnlT_offsets, Clear,
      pairwise_cons, encode_length]
    simp
    omega
  | truncate ino size =>
    simp only [JnlRecord.whole, JnlRecord.stores, storeField, offset, truncateJnlT_offsets, Clear,
      pairwise_cons, encode_length]
    simp

/-- All that the record stores is in the page. -/
def JnlRecord.Held (low : Mem) (jnl : Nat) (r : JnlRecord) : Prop :=
  ∀ s ∈ r.whole jnl, read low s.addr s.bytes.length = s.bytes

theorem JnlRecord.held_stores (low : Mem) (jnl : Nat) (fits : r.Fits) :
    r.Held (runAll low (r.stores jnl)) jnl := by
  intro s member
  rw [JnlRecord.runAll_stores]
  exact read_runAll_mem (JnlRecord.whole_apart jnl fits) member

section
variable {low : Mem} {jnl : Nat}

theorem loadField_eq (fits : n < 256 ^ size) :
    loadField low fields jnl i size = n ↔ (storeField fields jnl i size n).Held low := by
  rw [Held, storeField, encode_length, read_eq_encode fits, loadField]

theorem JnlRecord.Held.field (held : r.Held low jnl) (fields : List Field) (i size n : Nat)
    (member : storeField fields jnl i size n ∈ r.whole jnl) (fits : n < 256 ^ size) :
    loadField low fields jnl i size = n := (loadField_eq fits).mpr (held _ member)

theorem journalType_eq (fields : List Field) (same : offset fields 1 = offset journalT 1) (small : n < 2 ^ 31) :
    journalType low jnl = n ↔ (storeField fields jnl 1 4 n).Held low := by
  have below := decode_lt (read low (jnl + offset journalT 1) 4)
  rw [read_length] at below
  rw [← loadField_eq (by omega), loadField, same]
  exact toInt32_eq below small

theorem readWriteJnl_eq (fits : (JnlRecord.write ino start saved).Fits) :
    readWriteJnl low jnl = .write ino start saved ↔ (storeField writeJnlT jnl 2 8 ino).Held low ∧
      (storeField writeJnlT jnl 3 8 start).Held low ∧
      (storeField writeJnlT jnl 4 8 saved.length).Held low ∧ Held low ⟨savedAt jnl, saved⟩ := by
  obtain ⟨hi, hs, hl⟩ := fits
  rw [← loadField_eq hi, ← loadField_eq hs, ← loadField_eq (by omega), readWriteJnl, JnlRecord.write.injEq,
    read_eq_bytes]

theorem readRenameJnl_eq (fits : (JnlRecord.rename oldParent newParent oldName newName).Fits) :
    readRenameJnl low jnl = .rename oldParent newParent oldName newName ↔
      (storeField renameJnlT jnl 2 8 oldParent).Held low ∧
      (storeField renameJnlT jnl 3 8 newParent).Held low ∧
      ((storeField renameJnlT jnl 5 4 oldName.length).Held low ∧
        Held low ⟨jnl + offset renameJnlT 4, oldName⟩) ∧
      (storeField renameJnlT jnl 7 4 newName.length).Held low ∧
        Held low ⟨jnl + offset renameJnlT 6, newName⟩ := by
  obtain ⟨ho, hn, short, short'⟩ := fits
  rw [← loadField_eq ho, ← loadField_eq hn, ← loadField_eq (by omega), ← loadField_eq (by omega),
    readRenameJnl, JnlRecord.rename.injEq, read_eq_bytes, read_eq_bytes]

theorem readTruncateJnl_eq (fits : (JnlRecord.truncate ino size).Fits) :
    readTruncateJnl low jnl = .truncate ino size ↔ (storeField truncateJnlT jnl 2 8 ino).Held low ∧
      (storeField truncateJnlT jnl 3 8 size).Held low := by
  rw [← loadField_eq fits.1, ← loadField_eq fits.2, readTruncateJnl, JnlRecord.truncate.injEq]

theorem journalRead_write : journalRead low jnl = some (.write ino start saved) ↔
      journalType low jnl = jnlWrite ∧ readWriteJnl low jnl = .write ino start saved := by
  simp only [journalRead]
  split_ifs <;> simp_all [readRenameJnl, readTruncateJnl]

theorem journalRead_rename : journalRead low jnl = some (.rename oldParent newParent oldName newName) ↔
      journalType low jnl = jnlRename ∧
      readRenameJnl low jnl = .rename oldParent newParent oldName newName := by
  have other : (jnlWrite : Int) ≠ jnlRename := by decide
  simp only [journalRead]
  split_ifs <;> simp_all [readWriteJnl, readTruncateJnl]

theorem journalRead_truncate : journalRead low jnl = some (.truncate ino size) ↔
      journalType low jnl = jnlTruncate ∧ readTruncateJnl low jnl = .truncate ino size := by
  have other : (jnlWrite : Int) ≠ jnlTruncate ∧ (jnlRename : Int) ≠ jnlTruncate := by decide
  simp only [journalRead]
  split_ifs <;> simp_all [readWriteJnl, readRenameJnl]

/-- The bytes that a record of a truncation leaves alone say that it is one. -/
def JnlRecord.Typed (low : Mem) (jnl : Nat) : JnlRecord → Prop
  | .truncate .. => journalType low jnl = jnlTruncate
  | _ => True

theorem storeField_behind (behind : 2 ≤ offset fields i) :
    jnl + 2 ≤ (storeField fields jnl i size n).addr := Nat.add_le_add_left behind jnl

theorem storeField_front (front : offset fields i < 2) : ¬ jnl + 2 ≤ (storeField fields jnl i size n).addr :=
  fun behind => absurd (Nat.le_of_add_le_add_left behind) (not_le.mpr front)

theorem copy_behind {addr : Nat} {bytes : List (BitVec 8)} (behind : jnl + 2 ≤ addr) :
    (∀ s ∈ copy addr bytes, jnl + 2 ≤ s.addr → s.Held low) ↔ Held low ⟨addr, bytes⟩ := by
  rw [← held_copy]
  exact ⟨fun held s member => held s member (behind.trans (copy_addr member)),
    fun held s member _ => held s member⟩

/-- A record is read when the page holds what it stores. The first two bytes are not
looked at: `valid`, and `type` in the struct of a truncation. -/
theorem JnlRecord.read_iff (fits : r.Fits) : journalRead low jnl = some r ↔
    r.Typed low jnl ∧ ∀ s ∈ r.stores jnl, jnl + 2 ≤ s.addr → s.Held low := by
  cases r with
  | write ino start saved =>
    have saved' : jnl + 2 ≤ savedAt jnl := by
      simp only [savedAt, writeJnlT_offsets]
      omega
    rw [journalRead_write, journalType_eq writeJnlT rfl (by decide), readWriteJnl_eq fits]
    simp (disch := decide) only [JnlRecord.Typed, JnlRecord.stores, forall_mem_append, copy_behind saved',
      forall_mem_cons, not_mem_nil, storeField_behind, storeField_front, forall_const, false_implies,
      implies_true, true_and, and_true]
    tauto
  | rename oldParent newParent oldName newName =>
    have old' : jnl + 2 ≤ jnl + offset renameJnlT 4 := Nat.add_le_add_left (by decide) jnl
    have new' : jnl + 2 ≤ jnl + offset renameJnlT 6 := Nat.add_le_add_left (by decide) jnl
    rw [journalRead_rename, journalType_eq renameJnlT rfl (by decide), readRenameJnl_eq fits]
    simp (disch := decide) only [JnlRecord.Typed, JnlRecord.stores, forall_mem_append, copy_behind old',
      copy_behind new', forall_mem_cons, not_mem_nil, storeField_behind, storeField_front,
      forall_const, false_implies, implies_true, true_and, and_true]
    tauto
  | truncate ino size =>
    rw [journalRead_truncate, readTruncateJnl_eq fits]
    simp (disch := decide) only [JnlRecord.Typed, JnlRecord.stores, forall_mem_cons, not_mem_nil,
      storeField_behind, storeField_front, forall_const, false_implies, implies_true, true_and, and_true]

end

theorem memcpy_eq_store (low : Mem) (dest : Nat) (old : Mem) (addr len : Nat) :
    memcpy low dest old addr len = run low ⟨dest, read old addr len⟩ := by
  funext a
  by_cases inside : dest ≤ a ∧ a < dest + len
  · have there : a - dest < len := by omega
    simp [memcpy, run, Bytes.read, inside, there]
  rw [memcpy, if_neg inside, run_outside]
  rw [Clear, read_length]
  dsimp only
  omega

theorem setByte_eq_store (low : Mem) (a : Nat) (b : BitVec 8) : setByte low a b = run low ⟨a, [b]⟩ := by
  funext x
  by_cases same : x = a
  · subst same
    simp [setByte, run]
  rw [setByte, if_neg same, run_outside]
  rw [Clear]
  dsimp only [length_singleton]
  omega

theorem storeInt_eq_store (low : Mem) (addr size n : Nat) :
    storeInt low addr size n = run low ⟨addr, encode size n⟩ := by
  funext a
  by_cases inside : addr ≤ a ∧ a < addr + size
  · simp [storeInt, run, inside, encode_get (show a - addr < size by omega)]
  rw [storeInt, if_neg inside, run_outside]
  rw [Clear, encode_length]
  dsimp only
  omega

theorem journalWrite_stores (low : Mem) (jnl ino start : Nat) (old : Mem) (addr len : Nat) :
    journalWrite low jnl ino start old addr len =
      runAll low ((JnlRecord.write ino start (read old addr len)).stores jnl) := by
  rw [JnlRecord.runAll_stores]
  simp only [journalWrite, memcpy_eq_store, setByte_eq_store, storeInt_eq_store]
  simp only [JnlRecord.whole, storeField, savedAt, offset, writeJnlT_offsets, read_length]
  rfl

theorem JnlRecord.stores_apart (jnl : Nat) (fits : r.Fits) :
    (r.stores jnl).Pairwise fun s t => t.Clear s.addr s.bytes.length := by
  have apart := JnlRecord.whole_apart jnl fits
  cases r with
  | write ino start saved => exact pairwise_copy [] apart
  | rename oldParent newParent oldName newName =>
    rw [JnlRecord.stores, append_assoc]
    apply pairwise_copy
    rw [append_assoc, append_assoc]
    exact pairwise_copy [_, _, _, _] apart
  | truncate ino size => exact apart

/-- The page after the first `k` stores. -/
def JnlRecord.cut (low : Mem) (jnl k : Nat) (r : JnlRecord) : Mem := runAll low ((r.stores jnl).take k)

/-- The `type` that `journal_replay` reads is not one that `journal_truncate` stores. -/
theorem JnlRecord.typed_cut (low : Mem) (jnl k : Nat) (r : JnlRecord) :
    r.Typed (r.cut low jnl k) jnl ↔ r.Typed low jnl := by
  cases r with
  | write | rename => exact Iff.rfl
  | truncate ino size =>
    have clear : ∀ s ∈ (JnlRecord.truncate ino size).stores jnl, s.Clear (jnl + offset journalT 1) 4 := by
      simp [JnlRecord.stores, storeField, offset, truncateJnlT_offsets, Clear, journalT, offsets, cBool,
        cInt, roundUp]
    have same := read_runAll_clear (m := low) fun s member =>
      clear s (mem_of_mem_take (i := k) member)
    rw [JnlRecord.Typed, JnlRecord.Typed, journalType, journalType, loadField, loadField, JnlRecord.cut, same]

/-- A record that is written in part is read when the page held the rest of it before. -/
theorem JnlRecord.read_cut (low : Mem) (jnl : Nat) (fits : r.Fits) (k : Nat) :
    journalRead (r.cut low jnl k) jnl = some r ↔
      r.Typed low jnl ∧ ∀ s ∈ (r.stores jnl).drop k, jnl + 2 ≤ s.addr → s.Held low := by
  rw [JnlRecord.read_iff fits, JnlRecord.typed_cut, JnlRecord.cut,
    held_runAll_take (P := fun s => jnl + 2 ≤ s.addr) (JnlRecord.stores_apart jnl fits)]

theorem JnlRecord.read_stores {low : Mem} {jnl : Nat} (fits : r.Fits) :
    journalRead (runAll low (r.stores jnl)) jnl = some r ↔ r.Typed low jnl := by
  have read := JnlRecord.read_cut low jnl fits (r.stores jnl).length
  rw [JnlRecord.cut, take_length, drop_length] at read
  rw [read]
  exact and_iff_left (forall_mem_nil _)

/-- Records of writes and renames are read back as they were written, whatever the page
held; a record of a truncation is if and only if the page held the type of one. -/
theorem journal_records_decode (low : Mem) (jnl : Nat) :
    (∀ ino start old addr len, ino < 2 ^ 64 → start < 2 ^ 64 → len < 1024 →
      journalRead (journalWrite low jnl ino start old addr len) jnl =
        some (.write ino start (read old addr len))) ∧
    (∀ oldParent newParent oldName newName, oldParent < 2 ^ 64 → newParent < 2 ^ 64 →
      oldName.length ≤ 64 → newName.length ≤ 64 →
      journalRead (journalRename low jnl oldParent newParent oldName newName) jnl =
        some (.rename oldParent newParent oldName newName)) ∧
    (∀ ino size, ino < 2 ^ 64 → size < 2 ^ 64 →
      (journalRead (journalTruncate low jnl ino size) jnl = some (.truncate ino size) ↔
        journalType low jnl = jnlTruncate)) := by
  refine ⟨?_, ?_, ?_⟩
  · intro ino start old addr len hi hs hl
    rw [journalWrite_stores]
    refine (JnlRecord.read_stores ?_).mpr trivial
    exact ⟨hi, hs, by rwa [read_length]⟩
  · intro oldParent newParent oldName newName ho hn short short'
    refine (JnlRecord.read_stores ?_).mpr trivial
    exact ⟨ho, hn, short, short'⟩
  · intro ino size hi hs
    exact JnlRecord.read_stores ⟨hi, hs⟩

theorem journal_records_decode_zeroed :
    journalRead (journalWrite (fun _ => 0#8) 8192 7 2097152 (fun _ => 5#8) 0 2) 8192 =
        some (.write 7 2097152 [5#8, 5#8]) ∧
      journalRead (journalRename (fun _ => 0#8) 8192 0 3 [0x61#8] [0x62#8]) 8192 =
        some (.rename 0 3 [0x61#8] [0x62#8]) :=
  have decode := journal_records_decode (fun _ => 0#8) 8192
  ⟨decode.1 7 2097152 (fun _ => 5#8) 0 2 (by decide) (by decide) (by decide),
    decode.2.1 0 3 [0x61#8] [0x62#8] (by decide) (by decide) (by decide) (by decide)⟩

/-- Over a record of a write that has been committed, the record of a truncation is taken
for a write; in a page of zeros it is taken for nothing. -/
theorem truncate_read_as_write :
    journalRead (journalTruncate
      (setByte (journalWrite (fun _ => 0#8) 8192 7 2097152 (fun _ => 5#8) 0 2) 8192 0#8) 8192 9 100) 8192 =
        some (.write 9 100 [5#8, 5#8]) ∧
      journalRead (journalTruncate (fun _ => 0#8) 8192 9 100) 8192 = none := by
  decide +kernel

/-! ## A record that is written in part -/

/-- The number of stores in front of the one to `valid`. -/
def JnlRecord.lead : JnlRecord → Nat
  | .write _ _ saved => saved.length
  | _ => 0

theorem JnlRecord.cut_valid (low : Mem) (jnl : Nat) {k : Nat} (early : k ≤ r.lead) :
    r.cut low jnl k jnl = low jnl := by
  cases r with
  | write ino start saved =>
    apply runAll_clear
    intro s member
    rw [JnlRecord.stores, take_append_of_le_length (by rwa [copy_length])] at member
    apply copy_clear (Or.inr _) (mem_of_mem_take member)
    simp only [savedAt, writeJnlT_offsets]
    omega
  | rename | truncate =>
    obtain rfl : k = 0 := Nat.le_zero.mp early
    rfl

theorem JnlRecord.stores_lead (jnl : Nat) (r : JnlRecord) : (r.stores jnl)[r.lead]? = some ⟨jnl, [1#8]⟩ := by
  cases r with
  | write ino start saved =>
    rw [JnlRecord.stores, JnlRecord.lead, List.getElem?_append_right (by rw [copy_length]), copy_length,
      Nat.sub_self]
    rfl
  | rename | truncate => rfl

theorem JnlRecord.cut_valid_late (low : Mem) (jnl : Nat) (fits : r.Fits) {k : Nat} (late : r.lead < k) :
    r.cut low jnl k jnl = 1#8 := by
  have stored : ⟨jnl, [1#8]⟩ ∈ (r.stores jnl).take k := by
    apply mem_of_getElem? (i := r.lead)
    rw [List.getElem?_take_of_lt late, JnlRecord.stores_lead]
  have held := read_runAll_mem (m := low) ((JnlRecord.stores_apart jnl fits).sublist (take_sublist ..))
    stored
  exact (List.cons.inj held).1

/-- A page whose `valid` is 1 holds the whole new record if and only if the stores stop in
front of the one to `valid`, in a page that was not valid, or the page held before what has
not been stored yet. -/
theorem valid_record_complete {low : Mem} {jnl : Nat} {r : JnlRecord} (fits : r.Fits) (k : Nat) :
    (r.cut low jnl k jnl = 1#8 → journalRead (r.cut low jnl k) jnl = some r) ↔
      k ≤ r.lead ∧ low jnl ≠ 1#8 ∨
      r.Typed low jnl ∧ ∀ s ∈ (r.stores jnl).drop k, jnl + 2 ≤ s.addr → s.Held low := by
  rw [← JnlRecord.read_cut low jnl fits]
  by_cases early : k ≤ r.lead
  · rw [JnlRecord.cut_valid low jnl early]
    constructor
    · intro complete
      by_cases valid : low jnl = 1#8
      · exact Or.inr (complete valid)
      · exact Or.inl ⟨early, valid⟩
    · rintro (⟨_, idle⟩ | whole) valid
      · exact absurd valid idle
      · exact whole
  · have valid := JnlRecord.cut_valid_late low jnl fits (not_le.mp early)
    rw [or_iff_right fun stopped => early stopped.1]
    exact ⟨fun complete => complete valid, fun whole _ => whole⟩

theorem valid_record_complete_rename :
    journalRead ((JnlRecord.rename 0 3 [0x61#8] [0x62#8]).cut (fun _ => 0#8) 8192 8) 8192 =
      some (.rename 0 3 [0x61#8] [0x62#8]) :=
  have fits : (JnlRecord.rename 0 3 [0x61#8] [0x62#8]).Fits := ⟨by decide, by decide, by decide, by decide⟩
  (valid_record_complete fits 8).mpr (Or.inr ⟨trivial, forall_mem_nil _⟩) (by decide +kernel)

/-- A page with the record of a write of one byte that has been committed. -/
def committedPage : Mem :=
  setByte (journalWrite (fun _ => 0#8) 8192 7 2097152 (fun _ => 5#8) 0 1) 8192 0#8

/-- After the store to `valid` a rename in a page of zeros has no type yet, and a write over
the record of another one has the old inode and the old address. -/
theorem record_torn :
    (JnlRecord.rename 0 3 [0x61#8] [0x62#8]).cut (fun _ => 0#8) 8192 1 8192 = 1#8 ∧
      journalRead ((JnlRecord.rename 0 3 [0x61#8] [0x62#8]).cut (fun _ => 0#8) 8192 1) 8192 = none ∧
      (JnlRecord.write 8 4194304 [6#8]).cut committedPage 8192 2 8192 = 1#8 ∧
      journalRead ((JnlRecord.write 8 4194304 [6#8]).cut committedPage 8192 2) 8192 =
        some (.write 7 2097152 [6#8]) := by
  decide +kernel

end SlotFs
