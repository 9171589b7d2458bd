import SlotFs.NoSpace
import SlotFs.IndexBounds

/-!
# The offset of a descriptor

`slotfs_pread` and `slotfs_pwrite` move the offset of the descriptor as `slotfs_read` and
`slotfs_write` do. All four keep what has been transferred in an `int`.
-/

namespace SlotFs
open CWord

/-- The `f_header_t` of an open file, and the file. -/
structure OpenFile where
  offset : Int
  inode : Inode
  sbi : Sbi

open OpenFile

variable {f g : OpenFile} {buf : Mem} {count : Nat} {offset : Int} {env : Env}

def OpenFile.inodeRead (f : OpenFile) (buf : Mem) (count : Nat) (offset : Int) : Option (Int × OpenFile) :=
  (SlotFs.inodeRead f.sbi f.inode buf count (toSize offset)).map fun got => (got.1, f)

def OpenFile.inodeWrite (f : OpenFile) (env : Env) (buf : Mem) (count : Nat) (offset : Int) :
    Option (Int × OpenFile) :=
  (inodeWriteAtomic env f.sbi f.inode buf count (toSize offset)).map fun got =>
    (got.1, ⟨f.offset, got.2.1, got.2.2⟩)

/-- The part that the four calls share: `ret` is an `int`. -/
def OpenFile.moved (f : OpenFile) (n : Int) : Int × OpenFile :=
  let ret := n.bmod (2 ^ 32)
  (ret, if ret > 0 then { f with offset := f.offset + ret } else f)

def slotfsPread (f : OpenFile) (buf : Mem) (count : Nat) (offset : Int) : Option (Int × OpenFile) :=
  (f.inodeRead buf count offset).map fun got => got.2.moved got.1

def slotfsRead (f : OpenFile) (buf : Mem) (count : Nat) : Option (Int × OpenFile) :=
  slotfsPread f buf count f.offset

def slotfsPwrite (f : OpenFile) (env : Env) (buf : Mem) (count : Nat) (offset : Int) :
    Option (Int × OpenFile) :=
  (f.inodeWrite env buf count offset).map fun got => got.2.moved got.1

def slotfsWrite (f : OpenFile) (env : Env) (buf : Mem) (count : Nat) : Option (Int × OpenFile) :=
  slotfsPwrite f env buf count f.offset

def slotfsLseek (f : OpenFile) (offset : Int) (whence : Nat) : Int × OpenFile :=
  if whence = 0 then (0, { f with offset })
  else if whence = 1 then (0, { f with offset := f.offset + offset })
  else if whence = 2 then (0, { f with offset := f.inode.iSize + offset })
  else (-1, f)

inductive RwCall
  | read (buf : Mem) (count : Nat)
  | pread (buf : Mem) (count : Nat) (offset : Int)
  | write (env : Env) (buf : Mem) (count : Nat)
  | pwrite (env : Env) (buf : Mem) (count : Nat) (offset : Int)
  | lseek (offset : Int) (whence : Nat)

open RwCall

def RwCall.run (f : OpenFile) : RwCall → Option OpenFile
  | read buf count => (slotfsRead f buf count).map Prod.snd
  | pread buf count offset => (slotfsPread f buf count offset).map Prod.snd
  | write env buf count => (slotfsWrite f env buf count).map Prod.snd
  | pwrite env buf count offset => (slotfsPwrite f env buf count offset).map Prod.snd
  | lseek offset whence => some (slotfsLseek f offset whence).2

/-- The byte stream: `read` and `write` go on behind what they have transferred. -/
def RwCall.stream (f : OpenFile) : RwCall → Option OpenFile
  | read buf count => (f.inodeRead buf count f.offset).map fun got =>
      { got.2 with offset := f.offset + max got.1 0 }
  | pread buf count offset => (f.inodeRead buf count offset).map Prod.snd
  | write env buf count => (f.inodeWrite env buf count f.offset).map fun got =>
      { got.2 with offset := f.offset + max got.1 0 }
  | pwrite env buf count offset => (f.inodeWrite env buf count offset).map Prod.snd
  | lseek offset whence => some { f with
      offset := if whence = 0 then offset else if whence = 1 then f.offset + offset
        else if whence = 2 then f.inode.iSize + offset else f.offset }

/-- A call with a place of its own has nothing to transfer, another one fewer than `2 ^ 31` bytes. -/
def RwCall.Steady (f : OpenFile) : RwCall → Prop
  | read _ count => readLen f.inode count (toSize f.offset) < 2 ^ 31
  | pread _ count offset => readLen f.inode count (toSize offset) = 0
  | write _ _ count => count < 2 ^ 31
  | pwrite _ _ count _ => count = 0
  | lseek _ _ => True

/-- Every call finds the file as `Steady` asks for. -/
def SteadyRun : List RwCall → OpenFile → Prop
  | [], _ => True
  | call :: rest, f => call.Steady f ∧ ∀ g, call.run f = some g → SteadyRun rest g

/-- `n` tells that `k` bytes have been transferred, or that there is no memory. -/
structure OpenFile.Counts (f : OpenFile) (k : Nat) (n : Int) (g : OpenFile) : Prop where
  offset : g.offset = f.offset
  count : n = enomem ∨ n = k

theorem OpenFile.Counts.moved {k : Nat} {n : Int} (h : f.Counts k n g) (small : k < 2 ^ 31) :
    (g.moved n).2 = { g with offset := f.offset + max n 0 } := by
  have count := h.count
  have same : n.bmod (2 ^ 32) = n := by
    rw [Int.bmod_def]
    simp only [enomem] at count
    omega
  simp only [OpenFile.moved, same, ← h.offset]
  split
  · rw [max_eq_left (by omega)]
  · rw [max_eq_right (by omega), add_zero]

theorem OpenFile.Counts.stays {n : Int} (h : f.Counts 0 n g) : (g.moved n).2 = g := by
  have none : max n 0 = 0 := by
    rcases h.count with rfl | rfl <;> rfl
  rw [h.moved (by decide), none, add_zero, ← h.offset]

theorem OpenFile.inodeRead_counts {n : Int} (small : readLen f.inode count (toSize offset) < 2 ^ 31)
    (call : f.inodeRead buf count offset = some (n, g)) :
    f.Counts (readLen f.inode count (toSize offset)) n g := by
  have fits : readLen f.inode count (toSize offset) < 2 ^ 63 := by omega
  obtain ⟨got, read, eq⟩ := Option.map_eq_some_iff.mp call
  cases eq
  refine ⟨rfl, .inr ?_⟩
  rw [SlotFs.inodeRead, ← readLen] at read
  split at read
  · next none =>
    cases read
    rw [none]
    rfl
  · obtain ⟨_, _, eq⟩ := Option.map_eq_some_iff.mp read
    have back : got.1 = toInt64 (readLen f.inode count (toSize offset)) := by rw [← eq]
    exact back.trans (toInt64_of_lt fits)

theorem OpenFile.inodeWrite_counts {n : Int} (small : count < 2 ^ 31)
    (call : f.inodeWrite env buf count offset = some (n, g)) : f.Counts count n g := by
  obtain ⟨⟨_, _, _⟩, write, eq⟩ := Option.map_eq_some_iff.mp call
  cases eq
  refine ⟨rfl, ?_⟩
  cases Wrote.of_call write with
  | journaled => exact .inr rfl
  | logged mgr low w ret inode' sbi' other loop log =>
    obtain ⟨r, inode1, storage, append, _, ⟨failed, _⟩ | ⟨_, back, _⟩⟩ := writeLog_cases log
    · exact .inl ((appendUnits_size append).2 _ failed)
    · exact .inr (back.trans (toInt64_of_lt (by omega)))

theorem RwCall.Steady.run_eq {call : RwCall} (steady : call.Steady f) : call.run f = call.stream f := by
  cases call with
  | read buf count =>
    simp only [run, slotfsRead, slotfsPread, stream, Option.map_map]
    exact Option.map_congr fun got call => (inodeRead_counts steady call).moved steady
  | pread buf count offset =>
    simp only [run, slotfsPread, stream, Option.map_map]
    refine Option.map_congr fun got call => Counts.stays (f := f) ?_
    have counts := inodeRead_counts (steady.trans_lt (by decide)) call
    rwa [steady] at counts
  | write env buf count =>
    simp only [run, slotfsWrite, slotfsPwrite, stream, Option.map_map]
    exact Option.map_congr fun got call => (inodeWrite_counts steady call).moved steady
  | pwrite env buf count offset =>
    obtain rfl : count = 0 := steady
    simp only [run, slotfsPwrite, stream, Option.map_map]
    exact Option.map_congr fun got call => (inodeWrite_counts (by decide) call).stays
  | lseek offset whence =>
    simp only [run, stream, slotfsLseek]
    split_ifs <;> rfl

/-- The offset is the one of the byte stream after each call, as long as every call is steady. -/
theorem offsets_follow_stream {calls done : List RwCall} (steady : SteadyRun calls f) (part : done <+: calls) :
    done.foldlM run f = done.foldlM stream f := by
  obtain ⟨rest, rfl⟩ := part
  induction done generalizing f with
  | nil => simp only [List.foldlM_nil]
  | cons call done ih =>
    rw [List.foldlM_cons, List.foldlM_cons, ← steady.1.run_eq]
    exact Option.bind_congr fun g step => ih (steady.2 g step)

/-- Five bytes are read, and the descriptor is set back by two. -/
theorem offsets_follow_stream_seek : ∃ f calls, SteadyRun calls f ∧ calls.length = 2 ∧
    calls.foldlM run f = calls.foldlM stream f := by
  have steady : SteadyRun [.read (fun _ => 0#8) 5, .lseek (-2) 1] ⟨0, tiledFile 3 1, fullSbi⟩ :=
    ⟨show readLen (tiledFile 3 1) 5 0 < 2 ^ 31 by decide, fun _ _ => ⟨trivial, fun _ _ => trivial⟩⟩
  exact ⟨_, _, steady, rfl, offsets_follow_stream steady ⟨[], List.append_nil _⟩⟩

/-- Where five bytes are read at the beginning of the file, the descriptor goes on behind them. -/
theorem pread_moves_offset : ∃ f : OpenFile, f.offset = 0 ∧
    ((pread (fun _ => 0#8) 5 0).run f).map OpenFile.offset = some 5 ∧
    ((pread (fun _ => 0#8) 5 0).stream f).map OpenFile.offset = some 0 :=
  ⟨⟨0, tiledFile 3 1, fullSbi⟩, rfl, by decide +kernel, by decide +kernel⟩

end SlotFs
