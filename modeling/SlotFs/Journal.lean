import SlotFs.Bitops

/-!
# The journal

`journal.c`, as far as a write in place uses it. The journal pages lie in the low
part of PM, in front of the bitmaps; `jnl_mgr` says which of them are in use.
-/

namespace SlotFs
open CWord Function

def memcpy (m : Mem) (dest : Nat) (source : Mem) (src n : Nat) : Mem :=
  fun a => if dest ≤ a ∧ a < dest + n then source (src + (a - dest)) else m a

theorem memcpy_inside (m source : Mem) (src : Nat) {dest n i : Nat} (h : i < n) :
    memcpy m dest source src n (dest + i) = source (src + i) := by
  rw [memcpy, if_pos (by omega), Nat.add_sub_cancel_left]

theorem memcpy_outside (m source : Mem) (src : Nat) {dest n a : Nat}
    (h : a < dest ∨ dest + n ≤ a) : memcpy m dest source src n a = m a := by
  rw [memcpy, if_neg (by omega)]

/-- An integer of `size` bytes, the lowest byte first. -/
def storeInt (m : Mem) (addr size value : Nat) : Mem :=
  fun a => if addr ≤ a ∧ a < addr + size then BitVec.ofNat 8 (value / 256 ^ (a - addr)) else m a

structure JnlMgr where
  use : Nat → Bool
  count : Int

def journalNum : Nat := 256

def journalStart : Nat := 8192

/-- The first page is handed out without being counted. Without a free page the
result is 0, the address of the super block. -/
def journalAlloc (mgr : JnlMgr) : Nat × JnlMgr :=
  if mgr.count = 0 then (journalStart, { mgr with use := update mgr.use 0 true })
  else
    match (List.range journalNum).find? (fun i => !mgr.use i) with
    | some i => (journalStart + i * 4096, ⟨update mgr.use i true, mgr.count + 1⟩)
    | none => (0, mgr)

def journalFree (mgr : JnlMgr) (jnl : Nat) : JnlMgr :=
  ⟨update mgr.use (sub64 jnl journalStart / 4096) false, mgr.count - 1⟩

def jnlWrite : Nat := 1

/-- The old bytes go 40 records behind the record, not behind it: the source adds
`sizeof(write_jnl_t)` to a `write_jnl_t *`. -/
def journalWrite (low : Mem) (jnl ino start : Nat) (old : Mem) (addr len : Nat) : Mem :=
  let low := memcpy low (jnl + 40 * 40) old addr len
  let low := setByte low jnl 1#8
  let low := storeInt low (jnl + 4) 4 jnlWrite
  let low := storeInt low (jnl + 8) 8 ino
  let low := storeInt low (jnl + 16) 8 start
  storeInt low (jnl + 24) 8 len

def journalCommit (low : Mem) (mgr : JnlMgr) (jnl : Nat) : Mem × JnlMgr :=
  (setByte low jnl 0#8, journalFree mgr jnl)

end SlotFs
