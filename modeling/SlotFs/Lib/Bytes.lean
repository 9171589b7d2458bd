import Mathlib

/-!
# Bytes, stores and struct layouts

Memory is one byte a place. A store puts some bytes at an address, and a list of stores is
run in order, so that a prefix of the list is what is there when the program stops early.
Numbers are stored with the lowest byte first. A C struct is laid out field after field,
each at the next multiple of its alignment.
-/

namespace Bytes
open List

variable {addr n size : Nat} {bytes : List (BitVec 8)} {m : Nat → BitVec 8} {s : Store}

/-! ## Numbers -/

def encode : Nat → Nat → List (BitVec 8)
  | 0, _ => []
  | size + 1, n => BitVec.ofNat 8 n :: encode size (n / 256)

def decode : List (BitVec 8) → Nat
  | [] => 0
  | b :: bytes => b.toNat + 256 * decode bytes

@[simp] theorem encode_length (size n : Nat) : (encode size n).length = size := by
  induction size generalizing n with
  | zero => rfl
  | succ size ih => rw [encode, length_cons, ih]

theorem decode_encode (fits : n < 256 ^ size) : decode (encode size n) = n := by
  induction size generalizing n with
  | zero =>
    rw [pow_zero, Nat.lt_one_iff] at fits
    exact fits.symm
  | succ size ih =>
    have rest : n / 256 < 256 ^ size := by
      rw [pow_succ] at fits
      exact Nat.div_lt_of_lt_mul (by omega)
    rw [encode, decode, ih rest, BitVec.toNat_ofNat]
    omega

theorem encode_decode (bytes : List (BitVec 8)) : encode bytes.length (decode bytes) = bytes := by
  induction bytes with
  | nil => rfl
  | cons b bytes ih =>
    have low := b.isLt
    have first : BitVec.ofNat 8 (decode (b :: bytes)) = b := by
      apply BitVec.eq_of_toNat_eq
      rw [BitVec.toNat_ofNat, decode]
      omega
    have rest : decode (b :: bytes) / 256 = decode bytes := by
      rw [decode]
      omega
    rw [length_cons, encode, first, rest, ih]

theorem decode_lt (bytes : List (BitVec 8)) : decode bytes < 256 ^ bytes.length := by
  induction bytes with
  | nil => exact Nat.one_pos
  | cons b bytes ih =>
    have low := b.isLt
    rw [decode, length_cons, pow_succ]
    omega

theorem encode_get {i : Nat} (inside : i < size) : (encode size n)[i]? = some (BitVec.ofNat 8 (n / 256 ^ i)) := by
  induction size generalizing n i with
  | zero => omega
  | succ size ih =>
    cases i with
    | zero => simp [encode]
    | succ i =>
      rw [encode, List.getElem?_cons_succ, ih (by omega), Nat.div_div_eq_div_mul, pow_succ']

/-! ## Stores -/

def read (m : Nat → BitVec 8) (addr n : Nat) : List (BitVec 8) :=
  (List.range n).map fun i => m (addr + i)

@[simp] theorem read_length (m : Nat → BitVec 8) (addr n : Nat) : (read m addr n).length = n := by
  simp [read]

theorem read_succ (m : Nat → BitVec 8) (addr n : Nat) : read m addr (n + 1) = m addr :: read m (addr + 1) n := by
  simp only [read, range_succ_eq_map, map_cons, map_map, Nat.add_zero, List.cons.injEq,
    true_and]
  apply map_congr_left
  intro i _
  rw [Function.comp_apply, Nat.succ_eq_add_one, Nat.add_assoc, Nat.add_comm 1]

theorem read_congr {m' : Nat → BitVec 8} (same : ∀ a, addr ≤ a → a < addr + n → m' a = m a) :
    read m' addr n = read m addr n := by
  apply map_congr_left
  intro i inside
  have := mem_range.mp inside
  exact same _ (by omega) (by omega)

theorem read_eq_encode (fits : n < 256 ^ size) :
    read m addr size = encode size n ↔ decode (read m addr size) = n := by
  constructor
  · intro same
    rw [same, decode_encode fits]
  rintro rfl
  have bytes := encode_decode (read m addr size)
  rw [read_length] at bytes
  exact bytes.symm

structure Store where
  addr : Nat
  bytes : List (BitVec 8)

open Store

def Store.run (m : Nat → BitVec 8) (s : Store) : Nat → BitVec 8 :=
  fun a => if s.addr ≤ a then (s.bytes[a - s.addr]?).getD (m a) else m a

/-- What is stored is there. -/
def Store.Held (m : Nat → BitVec 8) (s : Store) : Prop := read m s.addr s.bytes.length = s.bytes

theorem read_eq_bytes : read m addr n = bytes ↔ n = bytes.length ∧ Held m ⟨addr, bytes⟩ := by
  constructor
  · rintro rfl
    rw [Held, read_length]
    exact ⟨rfl, rfl⟩
  · rintro ⟨rfl, held⟩
    exact held

/-- None of `n` places from `addr` on is stored to. -/
def Store.Clear (s : Store) (addr n : Nat) : Prop := s.addr + s.bytes.length ≤ addr ∨ addr + n ≤ s.addr

section
variable {m : Nat → BitVec 8} {s : Store} {addr n a : Nat}

theorem Store.run_inside {i : Nat} (inside : i < s.bytes.length) : s.run m (s.addr + i) = s.bytes[i] := by
  simp [run, inside]

theorem Store.run_outside (clear : s.Clear a 1) : s.run m a = m a := by
  rcases clear with behind | front
  · simp [run, List.getElem?_eq_none (show s.bytes.length ≤ a - s.addr by omega)]
  · simp [run, show ¬ s.addr ≤ a by omega]

theorem read_run_self (m : Nat → BitVec 8) (s : Store) : read (s.run m) s.addr s.bytes.length = s.bytes := by
  apply ext_getElem (read_length _ _ _)
  intro i _ inside
  simp only [read, getElem_map, getElem_range]
  exact run_inside inside

theorem read_run_clear (clear : s.Clear addr n) : read (s.run m) addr n = read m addr n := by
  apply read_congr
  intro a lo hi
  apply run_outside
  rcases clear with behind | front
  · exact Or.inl (by omega)
  · exact Or.inr (by omega)

end

/-! ## Numbers in memory -/

section
variable {m m' : Nat → BitVec 8} {addr size n a k : Nat}

def load (m : Nat → BitVec 8) (addr size : Nat) : Nat := decode (read m addr size)

/-- Of a number that is too large only the low bytes are stored. -/
def store (m : Nat → BitVec 8) (addr size n : Nat) : Nat → BitVec 8 := run m ⟨addr, encode size n⟩

theorem load_congr (same : ∀ x, a ≤ x → x < a + k → m' x = m x) : load m' a k = load m a k := by
  rw [load, read_congr same, load]

theorem load_store (fits : n < 256 ^ size) : load (store m addr size n) addr size = n := by
  have same := read_run_self m ⟨addr, encode size n⟩
  rw [encode_length] at same
  rw [load, store, same, decode_encode fits]

theorem store_apart (apart : a < addr ∨ addr + size ≤ a) : store m addr size n a = m a := by
  apply run_outside
  simp only [Clear, encode_length]
  omega

theorem load_store_apart (apart : a + k ≤ addr ∨ addr + size ≤ a) : load (store m addr size n) a k = load m a k :=
  load_congr fun _ _ _ => store_apart (by omega)

end

/-! ## Lists of stores -/

def runAll (m : Nat → BitVec 8) (stores : List Store) : Nat → BitVec 8 := stores.foldl run m

theorem runAll_append (m : Nat → BitVec 8) (front back : List Store) :
    runAll m (front ++ back) = runAll (runAll m front) back := foldl_append

section
variable {m : Nat → BitVec 8} {stores : List Store} {addr n : Nat}

theorem read_runAll_clear (clear : ∀ s ∈ stores, s.Clear addr n) :
    read (runAll m stores) addr n = read m addr n := by
  induction stores generalizing m with
  | nil => rfl
  | cons s stores ih =>
    change read (runAll (s.run m) stores) addr n = read m addr n
    rw [ih fun t member => clear t (mem_cons_of_mem s member),
      read_run_clear (clear s mem_cons_self)]

theorem runAll_clear {a : Nat} (clear : ∀ s ∈ stores, s.Clear a 1) : runAll m stores a = m a := by
  have same := read_runAll_clear (m := m) clear
  simpa [read] using same

section
variable (apart : stores.Pairwise fun s t => t.Clear s.addr s.bytes.length)
include apart

/-- What has been stored is there, if nothing later is stored over it. -/
theorem read_runAll_mem (member : s ∈ stores) : read (runAll m stores) s.addr s.bytes.length = s.bytes := by
  obtain ⟨front, back, rfl⟩ := append_of_mem member
  have later := (pairwise_cons.mp (pairwise_append.mp apart).2.1).1
  rw [runAll_append]
  change read (runAll (s.run (runAll m front)) back) _ _ = _
  rw [read_runAll_clear later, read_run_self]

/-- After the first of some stores, those are held that have been made, or that were held
before. -/
theorem held_runAll_take {P : Store → Prop} (k : Nat) : (∀ s ∈ stores, P s → s.Held (runAll m (stores.take k))) ↔
      ∀ s ∈ stores.drop k, P s → s.Held m := by
  obtain ⟨made, _, across⟩ := pairwise_append.mp ((take_append_drop k stores).symm ▸ apart)
  have left (s : Store) (member : s ∈ stores.drop k) : s.Held (runAll m (stores.take k)) ↔ s.Held m := by
    have clear : ∀ t ∈ stores.take k, t.Clear s.addr s.bytes.length :=
      fun t taken => (across t taken s member).symm
    rw [Held, read_runAll_clear clear, Held]
  constructor
  · intro held s member here
    exact (left s member).mp (held s (mem_of_mem_drop member) here)
  intro before s member here
  rw [← take_append_drop k stores, mem_append] at member
  rcases member with taken | rest
  · exact read_runAll_mem made taken
  · exact (left s rest).mpr (before s rest here)

end

end

/-- Byte after byte. -/
def copy (addr : Nat) : List (BitVec 8) → List Store
  | [] => []
  | b :: bytes => ⟨addr, [b]⟩ :: copy (addr + 1) bytes

@[simp] theorem copy_length (addr : Nat) (bytes : List (BitVec 8)) : (copy addr bytes).length = bytes.length := by
  induction bytes generalizing addr with
  | nil => rfl
  | cons b bytes ih => rw [copy, length_cons, length_cons, ih]

theorem copy_clear {start : Nat} (clear : addr + bytes.length ≤ start ∨ start + n ≤ addr)
    (member : s ∈ copy addr bytes) : s.Clear start n := by
  induction bytes generalizing addr with
  | nil => cases member
  | cons b bytes ih =>
    rw [length_cons] at clear
    rcases mem_cons.mp member with rfl | member
    · rcases clear with behind | front
      · exact Or.inl (show addr + 1 ≤ start by omega)
      · exact Or.inr front
    · exact ih (by omega) member

theorem copy_addr (member : s ∈ copy addr bytes) : addr ≤ s.addr := by
  induction bytes generalizing addr with
  | nil => cases member
  | cons b bytes ih =>
    rcases mem_cons.mp member with rfl | member
    · exact le_rfl
    · exact (Nat.le_succ addr).trans (ih member)

theorem copy_apart (addr : Nat) (bytes : List (BitVec 8)) :
    (copy addr bytes).Pairwise fun s t => t.Clear s.addr s.bytes.length := by
  induction bytes generalizing addr with
  | nil => exact List.Pairwise.nil
  | cons b bytes ih => exact pairwise_cons.mpr ⟨fun t => copy_clear (Or.inr le_rfl), ih (addr + 1)⟩

/-- One of the stores may be made byte by byte. -/
theorem pairwise_copy (front : List Store) {back : List Store}
    (apart : (front ++ ⟨addr, bytes⟩ :: back).Pairwise fun s t => t.Clear s.addr s.bytes.length) :
    (front ++ (copy addr bytes ++ back)).Pairwise fun s t => t.Clear s.addr s.bytes.length := by
  obtain ⟨first, rest, across⟩ := pairwise_append.mp apart
  obtain ⟨later, last⟩ := pairwise_cons.mp rest
  refine pairwise_append.mpr ⟨first, pairwise_append.mpr ⟨copy_apart addr bytes, last, ?_⟩, ?_⟩
  · intro s member t behind
    exact (copy_clear (later t behind).symm member).symm
  intro s front t member
  rcases mem_append.mp member with copied | behind
  · exact copy_clear (across s front _ mem_cons_self) copied
  · exact across s front t (mem_cons_of_mem _ behind)

theorem held_copy : (∀ s ∈ copy addr bytes, s.Held m) ↔ Held m ⟨addr, bytes⟩ := by
  induction bytes generalizing addr with
  | nil => simp [copy, Held, read]
  | cons b bytes ih =>
    rw [copy, forall_mem_cons, ih]
    simp only [Held, length_cons, length_nil, read_succ, List.cons.injEq]
    simp [read]

theorem runAll_copy (m : Nat → BitVec 8) (addr : Nat) (bytes : List (BitVec 8)) :
    runAll m (copy addr bytes) = run m ⟨addr, bytes⟩ := by
  induction bytes generalizing addr m with
  | nil =>
    funext a
    simp [copy, runAll, run]
  | cons b bytes ih =>
    change runAll (run m ⟨addr, [b]⟩) (copy (addr + 1) bytes) = _
    rw [ih]
    funext a
    by_cases first : a = addr
    · subst first
      simp [run]
    by_cases behind : addr + 1 ≤ a
    · obtain ⟨i, rfl⟩ := Nat.exists_eq_add_of_le behind
      have skip : addr + 1 + i - addr = i + 1 := by omega
      simp [run, skip, show addr ≤ addr + 1 + i by omega]
    · simp [run, behind, show ¬ addr ≤ a by omega]

/-! ## Layouts -/

structure Field where
  size : Nat
  align : Nat

def roundUp (n align : Nat) : Nat := (n + align - 1) / align * align

/-- Where the fields are, when the first `pos` bytes are taken. -/
def offsets (pos : Nat) : List Field → List Nat
  | [] => []
  | f :: fields => roundUp pos f.align :: offsets (roundUp pos f.align + f.size) fields

def used (pos : Nat) : List Field → Nat
  | [] => pos
  | f :: fields => used (roundUp pos f.align + f.size) fields

def structSize (fields : List Field) : Nat :=
  roundUp (used 0 fields) ((fields.map Field.align).foldl max 1)

def offset (fields : List Field) (i : Nat) : Nat := (offsets 0 fields).getD i 0

/-- The first `n` bytes of a struct hold field `i`. -/
def covers (fields : List Field) (n i : Nat) : Bool :=
  match fields[i]? with
  | some f => offset fields i + f.size ≤ n
  | none => false

/-! The types of the x86-64 ABI. -/

def cBool : Field := ⟨1, 1⟩
def cInt : Field := ⟨4, 4⟩
def cLong : Field := ⟨8, 8⟩
def cChars (n : Nat) : Field := ⟨n, 1⟩
def cLongs (n : Nat) : Field := ⟨8 * n, 8⟩

end Bytes
