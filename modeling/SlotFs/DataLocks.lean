import SlotFs.Resize
import SlotFs.Lib.LockProg

/-!
# The locks of the data operations

`inode_write_atomic` takes an entry buffer and then the inode, `inode_extend` the inode and then
an entry buffer. Which buffer `ebuf_alloc` gives out depends on the CPU.
-/

namespace SlotFs
open CWord Locks Relation List Option Prog

inductive DataLock
  | inode (ino : Nat)
  | ebuf (k : Nat)
  deriving DecidableEq

/-- Files by the number of their inode. -/
structure DataState where
  sbi : Sbi
  files : Nat → Inode

def DataState.setFile (s : DataState) (ino : Nat) (out : Inode × Sbi) : DataState :=
  ⟨out.2, Function.update s.files ino out.1⟩

abbrev DataProg := Prog DataState DataLock Unit

def ebufNum : Nat := 128

/-- The buffer of the CPU, locked. -/
def ebufAlloc (cpu : Nat) : DataProg Nat := do
  lock (.ebuf (cpu % ebufNum))
  pure (cpu % ebufNum)

def ebufPut (ebuf : Nat) : DataProg Unit := unlock (.ebuf ebuf)

/-- The journaled write, with 0 where it is not tried. -/
def tryJournal (ino : Nat) (buf : Mem) (len offset : Nat) (s : DataState) : Int × DataState :=
  if (s.files ino).journals len offset then
    let (ret, sbi) := inodeWriteJournal s.sbi (s.files ino) buf len offset
    (ret, { s with sbi })
  else (0, s)

/-- The blocks and the log of a write, under the locks. -/
def writeLocked (env : Env) (ino : Nat) (buf : Mem) (len offset : Nat) (s : DataState) :
    Option (Except Int Unit × DataState) :=
  (writeLoop env buf len offset (ebufSize + 2)
    ⟨s.sbi, s.files ino, offset, len, 0, blockCount len offset, []⟩).bind fun w =>
      (appendUnits env (wrap64 (w.sbi.ts + 1)) w.ebuf w.inode w.sbi.storage).map fun out =>
        (out.1, s.setFile ino (out.2.1, { w.sbi with storage := out.2.2, ts := wrap64 (w.sbi.ts + 1) }))

/-- The size, when the locks have been given back. -/
def writeSize (ino len offset : Nat) (s : DataState) : DataState :=
  s.setFile ino ({ s.files ino with iSize := max (s.files ino).iSize (wrap64 (offset + len)) }, s.sbi)

/-- `inode_write_atomic` behind the journaled write. When `file_append_entry` fails, the inode is
unlocked twice. -/
def lockedWriteBlocks (env : Env) (ino cpu : Nat) (buf : Mem) (len offset : Nat) : DataProg Int := do
  let ebuf ← ebufAlloc cpu
  lock (.inode ino)
  match ← look (writeLocked env ino buf len offset) with
  | .error e =>
    unlock (.inode ino)
    unlock (.inode ino)
    ebufPut ebuf
    pure e
  | .ok () =>
    unlock (.inode ino)
    ebufPut ebuf
    look fun s => some ((), writeSize ino len offset s)
    pure (toInt64 len)

def lockedWriteAtomic (env : Env) (ino cpu : Nat) (buf : Mem) (len offset : Nat) : DataProg Int := do
  let ret ← look fun s => some (tryJournal ino buf len offset s)
  if ret > 0 then pure ret else lockedWriteBlocks env ino cpu buf len offset

/-- The size is read before the lock is taken. -/
def extendLocked (env : Env) (ts ino size newSize : Nat) (s : DataState) : Option (Int × DataState) :=
  (inodeExtend env ts s.sbi { s.files ino with iSize := size } newSize).map fun out =>
    (out.1, s.setFile ino ({ out.2.1 with iSize := (s.files ino).iSize }, out.2.2))

def lockedExtend (env : Env) (ts ino cpu newSize : Nat) : DataProg Int := do
  let size ← look fun s => some ((s.files ino).iSize, s)
  lock (.inode ino)
  let ebuf ← ebufAlloc cpu
  let ret ← look (extendLocked env ts ino size newSize)
  ebufPut ebuf
  unlock (.inode ino)
  pure ret

/-! ## Deadlocks -/

inductive DataOp
  | write (env : Env) (ino cpu : Nat) (buf : Mem) (len offset : Nat)
  | extend (env : Env) (ts ino cpu newSize : Nat)

def DataOp.code : DataOp → DataProg Unit
  | write env ino cpu buf len offset => do
    let _ ← lockedWriteAtomic env ino cpu buf len offset
  | extend env ts ino cpu newSize => do
    let _ ← lockedExtend env ts ino cpu newSize

/-- The lock that is taken first, and the one that is taken while it is held. -/
def DataOp.nests : DataOp → DataLock × DataLock
  | write _ ino cpu _ _ _ => (.ebuf (cpu % ebufNum), .inode ino)
  | extend _ _ ino cpu _ => (.inode ino, .ebuf (cpu % ebufNum))

def Nested (allowed : DataOp → Prop) (a b : DataLock) : Prop := ∃ op, allowed op ∧ op.nests = (a, b)

/-- Nothing is asked of the state. -/
def dataDiscipline (allowed : DataOp → Prop) : Discipline DataState DataLock Unit where
  inv := fun _ => True
  le := fun _ _ => True
  before := Nested allowed
  allowed := fun _ => True
  le_refl := fun _ => trivial
  le_trans := fun _ _ => trivial

theorem DataOp.safe {allowed : DataOp → Prop} (op : DataOp) (known : allowed op) (s : DataState) :
    op.code.Safe (dataDiscipline allowed) (fun _ _ held => held = []) s [] := by
  cases op with
  | write env ino cpu buf len offset =>
    have order : Nested allowed (.ebuf (cpu % ebufNum)) (.inode ino) := ⟨_, known, rfl⟩
    simp only [code, lockedWriteAtomic, lockedWriteBlocks, safe_bind]
    refine .look fun _ _ _ ret _ _ => ⟨trivial, trivial, ?_⟩
    split
    · rfl
    simp only [dataDiscipline, ebufAlloc, ebufPut, safe_pure, safe_bind, safe_lock,
      not_mem_nil, IsEmpty.forall_iff, implies_true, mem_cons, or_false, forall_eq, order,
      true_and]
    refine .look fun _ _ _ r _ _ => ⟨trivial, trivial, ?_⟩
    cases r with
    | error e => simp
    | ok =>
      simp only [safe_bind, safe_pure, safe_unlock, erase_cons_head]
      exact .look fun _ _ _ _ _ _ => ⟨trivial, trivial, rfl⟩
  | extend env ts ino cpu newSize =>
    have order : Nested allowed (.inode ino) (.ebuf (cpu % ebufNum)) := ⟨_, known, rfl⟩
    simp only [code, lockedExtend, safe_bind]
    refine .look fun _ _ _ size _ _ => ⟨trivial, trivial, ?_⟩
    simp only [dataDiscipline, ebufAlloc, ebufPut, safe_pure, safe_unlock, safe_bind,
      safe_lock, not_mem_nil, IsEmpty.forall_iff, implies_true, mem_cons, or_false,
      forall_eq, order, true_and]
    refine .look fun _ _ _ ret _ _ => ⟨trivial, trivial, ?_⟩
    simp

/-- Threads that run operations of a kind. -/
def DataOps (allowed : DataOp → Prop) (p : DataProg Unit) : Prop := ∃ op, allowed op ∧ p = op.code

/-- No thread runs anything. -/
def idleData (s : DataState) : System Nat DataState DataLock Unit := ⟨s, fun _ => false, fun _ => ⟨[], .done ()⟩⟩

/-- Any number of threads run operations that are allowed, where these do not nest their locks
in a circle: they do not wait in a circle. -/
theorem data_ops_do_not_deadlock {allowed : DataOp → Prop} (acyclic : ∀ l, ¬ TransGen (Nested allowed) l l)
    {s : DataState} {y : System Nat DataState DataLock Unit}
    (run : Runs.Run (Step (DataOps allowed) fun _ => True) (idleData s) y) : ¬ y.Deadlocked := by
  have start : (idleData s).Ordered (dataDiscipline allowed) := ⟨trivial, fun _ => rfl⟩
  refine no_deadlock (D := dataDiscipline allowed) ?_ acyclic start run
  rintro p ⟨op, known, rfl⟩ s _
  exact op.safe known s

def DataOp.isWrite : DataOp → Bool
  | write .. => true
  | extend .. => false

theorem nested_writes {l m : DataLock} (chain : TransGen (Nested fun op => op.isWrite = true) l m) :
    (∃ k, l = .ebuf k) ∧ ∃ ino, m = .inode ino := by
  have edge {a b : DataLock} (nested : Nested (fun op => op.isWrite = true) a b) :
      (∃ k, a = .ebuf k) ∧ ∃ ino, b = .inode ino := by
    obtain ⟨op, known, eq⟩ := nested
    cases op with
    | write env ino cpu buf len offset =>
      cases eq
      exact ⟨⟨_, rfl⟩, _, rfl⟩
    | extend env ts ino cpu newSize => cases known
  induction chain with
  | single first => exact edge first
  | tail _ last ih => exact ⟨ih.1, (edge last).2⟩

/-- Files without content. -/
def emptyData : DataState where
  sbi := blankSbi 64 0#8
  files := fun ino =>
    { iNo := ino, iSize := 0, symlink := false
      bRoot := ⟨0, 0, fun _ => ⟨none, 0, 0, 0, fun _ => none⟩, ⟨0, fun _ => true⟩⟩
      entryNum := 0, invalidNum := 0, logHead := 0, ghostSlot := 0, list := [], invalid := []
      fents := fun _ => ⟨0, 0, 0, 0, 0, 0⟩, arena := ⟨0, fun _ => true⟩ }

/-- One block is written to file 0. -/
def writeOp (cpu : Nat) : DataOp := .write firstFit 0 cpu (fun _ => 1#8) 4096 0

/-- File 0 gets longer on CPU 0. -/
def extendOp : DataOp := .extend firstFit 0 0 0 4096

/-- Two writes on different CPUs: the first one has its buffer and the inode, and the second one
has its own buffer and waits. -/
theorem data_ops_do_not_deadlock_writing : ∃ y,
    Runs.Run (Step (DataOps fun op => op.isWrite = true) fun _ => True) (idleData emptyData) y ∧
    (y.thread 0).held = [.inode 0, .ebuf 0] ∧ (y.thread 1).held = [.ebuf 1] ∧
    (y.thread 1).code.asks = some (.inode 0) ∧ ¬ y.Deadlocked := by
  have moved : (((idleData emptyData).start 0 1 (writeOp 0).code (writeOp 1).code).schedule
      (fun _ => true) [0, 1, 0, 1, 0]).map (fun y =>
        ((y.thread 0).held, (y.thread 1).held, (y.thread 1).code.asks)) =
      some ([.inode 0, .ebuf 0], [.ebuf 1], some (.inode 0)) := by
    decide +kernel
  obtain ⟨y, schedule, eq⟩ := map_eq_some_iff.mp moved
  simp only [Prod.mk.injEq] at eq
  obtain ⟨held, held', asks⟩ := eq
  have run : Runs.Run (Step (DataOps fun op => op.isWrite = true) fun _ => True) (idleData emptyData) y :=
    (System.start_run (fun _ => rfl) (by decide) ⟨writeOp 0, rfl, rfl⟩ ⟨writeOp 1, rfl, rfl⟩).trans
      (System.schedule_run (fun _ _ => trivial) schedule)
  refine ⟨y, run, held, held', asks, data_ops_do_not_deadlock (fun l circle => ?_) run⟩
  obtain ⟨⟨k, ebuf⟩, ino, inode⟩ := nested_writes circle
  cases ebuf.symm.trans inode

/-- Thread 0 has the buffer of CPU 0 and asks for the inode, which thread 1 has; thread 1 asks
for the buffer. -/
theorem write_and_extend_deadlock : ∃ y,
    Runs.Run (Step (DataOps fun _ => True) fun _ => True) (idleData emptyData) y ∧ y.Deadlocked := by
  have moved : (((idleData emptyData).start 0 1 (writeOp 0).code extendOp.code).schedule
      (fun _ => true) [0, 0, 1, 1]).map (fun y =>
        ((y.thread 0).code.asks, (y.thread 0).held, (y.thread 1).code.asks, (y.thread 1).held)) =
      some (some (.inode 0), [.ebuf 0], some (.ebuf 0), [.inode 0]) := by
    decide +kernel
  obtain ⟨y, schedule, eq⟩ := map_eq_some_iff.mp moved
  simp only [Prod.mk.injEq] at eq
  obtain ⟨asks, held, asks', held'⟩ := eq
  refine ⟨y, (System.start_run (fun _ => rfl) (by decide) ⟨writeOp 0, trivial, rfl⟩
    ⟨extendOp, trivial, rfl⟩).trans (System.schedule_run (fun _ _ => trivial) schedule), ?_⟩
  exact System.deadlocked_pair asks (by simp [held']) asks' (by simp [held])

end SlotFs
