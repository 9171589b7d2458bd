import SlotFs.Journal

/-!
# The streaming copy

`avx_cpy`: bytes up to the next line of 64 bytes, whole lines past the cache, and the bytes that
are left. The bytes go through the cache and are flushed behind each of the two byte loops.
-/

namespace SlotFs

/-- An access to PM; `stream` is a store of 64 bytes that does not go through the cache. -/
inductive PmAccess
  | store (addr : Nat)
  | stream (addr : Nat)
  | flush (addr : Nat)

/-- The memory and the pointers of `avx_cpy`, and its accesses so far. -/
structure Copying where
  mem : Mem
  dest : Nat
  src : Nat
  done : List PmAccess

namespace Copying

/-- `k` bytes go from `src` to `dest`, and both pointers go on. -/
def move (k : Nat) (access : Nat → PmAccess) (c : Copying) : Copying :=
  ⟨memcpy c.mem c.dest c.mem c.src k, c.dest + k, c.src + k, c.done ++ [access c.dest]⟩

def loop (k : Nat) (access : Nat → PmAccess) : Nat → Copying → Copying
  | 0, c => c
  | n + 1, c => loop k access n (c.move k access)

def flushByte (c : Copying) (addr : Nat) : Copying := { c with done := c.done ++ [.flush addr] }

/-- From the assertion on; `none` when it fails. -/
def body (size : Nat) (c : Copying) : Option Copying :=
  if c.dest % 64 = 0 then
    let c := c.loop 64 .stream (size / 64)
    let size := size % 64
    if size ≠ 0 then
      let c := c.loop 1 .store size
      some (c.flushByte (c.dest - 1))
    else some c
  else none

end Copying

/-- The bytes in front of the first whole line. -/
def Copying.head (cnt : Nat) (c : Copying) : Copying :=
  let c := c.loop 1 .store cnt
  c.flushByte c.dest

def avxCpy (m : Mem) (dest src size : Nat) : Option Copying :=
  let c : Copying := ⟨m, dest, src, []⟩
  let cnt := dest % 64
  if cnt > 0 then
    let cnt := 64 - cnt
    let (cnt, size) := if cnt > size then (size, 0) else (cnt, size - cnt)
    let c := c.head cnt
    if size = 0 then some c else c.body size
  else c.body size

namespace Copying
variable {c : Copying} {m : Mem} {dest n size src : Nat}

theorem loop_done (k : Nat) (access : Nat → PmAccess) (turns : Nat) (c : Copying) :
    (c.loop k access turns).dest = c.dest + k * turns ∧
    (c.loop k access turns).done = c.done ++ (List.range turns).map fun i => access (c.dest + k * i) := by
  induction turns generalizing c with
  | zero => simp [loop]
  | succ turns ih =>
    obtain ⟨dest, done⟩ := ih (c.move k access)
    rw [loop, dest, done]
    simp [move, List.range_succ_eq_map, Nat.mul_add, Nat.add_assoc, Nat.add_comm k, Function.comp_def]

/-- The first `n` bytes have been copied. -/
structure At (m : Mem) (dest src n : Nat) (c : Copying) : Prop where
  mem : c.mem = memcpy m dest m src n
  dest : c.dest = dest + n
  src : c.src = src + n

section
variable (apart : dest + size ≤ src ∨ src + size ≤ dest)
include apart

theorem At.move (k : Nat) (access : Nat → PmAccess) (h : c.At m dest src n) (inside : n + k ≤ size) :
    (c.move k access).At m dest src (n + k) where
  mem := by
    funext a
    simp only [Copying.move, h.mem, h.dest, h.src, memcpy]
    split_ifs <;> first | rfl | omega | (congr 1; omega)
  dest := by simp only [Copying.move, h.dest, Nat.add_assoc]
  src := by simp only [Copying.move, h.src, Nat.add_assoc]

theorem At.loop (k : Nat) (access : Nat → PmAccess) (turns : Nat) (h : c.At m dest src n)
    (inside : n + k * turns ≤ size) : (c.loop k access turns).At m dest src (n + k * turns) := by
  induction turns generalizing c n with
  | zero => exact h
  | succ turns ih =>
    rw [Nat.mul_succ] at inside ⊢
    have rest := ih (h.move apart k access (by omega)) (by omega)
    rwa [Nat.add_assoc, Nat.add_comm k] at rest

theorem At.body (h : c.At m dest src n) (aligned : (dest + n) % 64 = 0) (total : n ≤ size) :
    ∃ c', c.body (size - n) = some c' ∧ c'.At m dest src size := by
  have parts := Nat.div_add_mod (size - n) 64
  have lines := h.loop apart 64 .stream ((size - n) / 64) (by omega)
  rw [Copying.body, h.dest, if_pos aligned]
  dsimp only
  split
  · have bytes := lines.loop apart 1 .store ((size - n) % 64) (by omega)
    rw [show n + 64 * ((size - n) / 64) + 1 * ((size - n) % 64) = size by omega] at bytes
    exact ⟨_, rfl, bytes.mem, bytes.dest, bytes.src⟩
  · rw [show n + 64 * ((size - n) / 64) = size by omega] at lines
    exact ⟨_, rfl, lines⟩

theorem At.head (h : c.At m dest src 0) (inside : n ≤ size) : (c.head n).At m dest src n := by
  have bytes := h.loop apart 1 .store n (by omega)
  rw [show 0 + 1 * n = n by omega] at bytes
  exact ⟨bytes.mem, bytes.dest, bytes.src⟩

end

end Copying

/-- A copy ends inside of its first line, or goes on with whole lines. -/
theorem avxCpy_cases (m : Mem) (dest src size : Nat) :
    dest % 64 = 0 ∧ avxCpy m dest src size = Copying.body size ⟨m, dest, src, []⟩ ∨
    0 < dest % 64 ∧ dest % 64 + size < 64 ∧
      avxCpy m dest src size = some (Copying.head size ⟨m, dest, src, []⟩) ∨
    0 < dest % 64 ∧ 64 ≤ dest % 64 + size ∧ avxCpy m dest src size =
      (Copying.head (64 - dest % 64) ⟨m, dest, src, []⟩).body (size - (64 - dest % 64)) := by
  by_cases inner : dest % 64 > 0
  · rw [avxCpy, if_pos inner]
    by_cases short : 64 - dest % 64 > size
    · simp only [if_pos short]
      exact .inr (.inl ⟨inner, by omega, rfl⟩)
    · simp only [if_neg short]
      refine .inr (.inr ⟨inner, by omega, ?_⟩)
      split_ifs with all
      · have aligned : (dest + (64 - dest % 64)) % 64 = 0 := by omega
        simp [all, Copying.body, Copying.head, Copying.flushByte, Copying.loop_done, Copying.loop, aligned]
      · rfl
  · exact .inl ⟨by omega, by rw [avxCpy, if_neg inner]⟩

/-- The assertion holds, and the copy is what `memcpy` does. -/
theorem stream_copy_copies {m : Mem} {dest src size : Nat} (apart : dest + size ≤ src ∨ src + size ≤ dest) :
    ∃ c, avxCpy m dest src size = some c ∧ c.mem = memcpy m dest m src size := by
  have start : Copying.At m dest src 0 ⟨m, dest, src, []⟩ :=
    ⟨by funext a; rw [memcpy, if_neg (by omega)], rfl, rfl⟩
  rcases avxCpy_cases m dest src size with ⟨aligned, call⟩ | ⟨_, _, call⟩ | ⟨_, _, call⟩
  · obtain ⟨c, body, whole⟩ := start.body apart aligned (Nat.zero_le _)
    exact ⟨c, call.trans body, whole.mem⟩
  · exact ⟨_, call, (start.head apart le_rfl).mem⟩
  · obtain ⟨c, body, whole⟩ := (start.head apart (n := 64 - dest % 64) (by omega)).body apart (by omega) (by omega)
    exact ⟨c, call.trans body, whole.mem⟩

theorem stream_copy_copies_short :
    ∃ c, avxCpy (BitVec.ofNat 8) 60 200 9 = some c ∧ c.mem = memcpy (BitVec.ofNat 8) 60 (BitVec.ofNat 8) 200 9 :=
  stream_copy_copies (by decide)

/-! ## Flushes -/

/-- Behind every store through the cache comes a flush of its line. -/
def Flushed : List PmAccess → Prop
  | [] => True
  | .store addr :: rest => (∃ a, .flush a ∈ rest ∧ a / 64 = addr / 64) ∧ Flushed rest
  | _ :: rest => Flushed rest

theorem Flushed.line {l : List PmAccess} {x : Nat} (h : Flushed l) (member : .store x ∈ l) :
    ∃ a, .flush a ∈ l ∧ a / 64 = x / 64 := by
  induction l with
  | nil => cases member
  | cons e l ih =>
    rcases List.mem_cons.mp member with rfl | later
    · obtain ⟨a, flush, line⟩ := h.1
      exact ⟨a, List.mem_cons_of_mem _ flush, line⟩
    · have rest : Flushed l := by
        cases e with
        | store => exact h.2
        | stream => exact h
        | flush => exact h
      obtain ⟨a, flush, line⟩ := ih rest later
      exact ⟨a, List.mem_cons_of_mem _ flush, line⟩

namespace Copying
variable {c : Copying} {dest size x : Nat} {l : List Nat} {rest : List PmAccess}

/-- The accesses of `body`. -/
def tail (dest size : Nat) : List PmAccess :=
  (List.range (size / 64)).map (fun i => .stream (dest + 64 * i)) ++
    if size % 64 ≠ 0 then (List.range (size % 64)).map (fun i => .store (dest + 64 * (size / 64) + 1 * i)) ++
      [.flush (dest + 64 * (size / 64) + 1 * (size % 64) - 1)] else []

theorem body_done (size : Nat) (aligned : c.dest % 64 = 0) :
    ∃ c', c.body size = some c' ∧ c'.done = c.done ++ tail c.dest size := by
  rw [body, if_pos aligned]
  dsimp only
  split_ifs with bytes
  · exact ⟨_, rfl, by simp [flushByte, loop_done, tail, bytes]⟩
  · exact ⟨_, rfl, by simp [loop_done, tail, bytes]⟩

theorem head_done (n : Nat) (c : Copying) : (c.head n).dest = c.dest + n ∧ (c.head n).done =
    c.done ++ ((List.range n).map (fun i => .store (c.dest + i)) ++ [.flush (c.dest + n)]) := by
  simp [head, flushByte, loop_done]

theorem flushed_stores {f : Nat → Nat} (near : ∀ i ∈ l, f i / 64 = x / 64) (after : Flushed rest) :
    Flushed (l.map (fun i => .store (f i)) ++ .flush x :: rest) := by
  induction l with
  | nil => exact after
  | cons i l ih =>
    exact ⟨⟨x, by simp, (near i List.mem_cons_self).symm⟩, ih fun j member => near j (List.mem_cons_of_mem i member)⟩

theorem flushed_tail (aligned : dest % 64 = 0) : Flushed (tail dest size) := by
  have streams {rest : List PmAccess} (n : Nat) (h : Flushed rest) :
      Flushed ((List.range n).map (fun i => .stream (dest + 64 * i)) ++ rest) := by
    induction List.range n with
    | nil => exact h
    | cons i l ih => exact ih
  refine streams _ ?_
  split
  · refine flushed_stores (fun i member => ?_) trivial
    rw [List.mem_range] at member
    omega
  · trivial

theorem flush_tail (member : .flush x ∈ tail dest size) : dest ≤ x := by
  rcases List.mem_append.mp member with stream | last
  · simp at stream
  · split at last
    · simp at last
      omega
    · cases last

end Copying

/-- Every line is flushed behind its stores if and only if the copy begins with a line or ends
inside of its first one. -/
theorem stream_copy_flushed_iff (m : Mem) (dest src size : Nat) : ∃ c, avxCpy m dest src size = some c ∧
    (Flushed c.done ↔ dest % 64 = 0 ∨ dest % 64 + size < 64) := by
  rcases avxCpy_cases m dest src size with ⟨aligned, call⟩ | ⟨inner, short, call⟩ | ⟨inner, long, call⟩
  · obtain ⟨c, body, done⟩ := Copying.body_done size (c := ⟨m, dest, src, []⟩) aligned
    refine ⟨c, call.trans body, iff_of_true ?_ (.inl aligned)⟩
    rw [done]
    exact Copying.flushed_tail aligned
  · refine ⟨_, call, iff_of_true ?_ (.inr short)⟩
    rw [(Copying.head_done ..).2]
    refine Copying.flushed_stores (fun i member => ?_) trivial
    rw [List.mem_range] at member
    dsimp only
    omega
  · obtain ⟨dest', done'⟩ := Copying.head_done (64 - dest % 64) ⟨m, dest, src, []⟩
    obtain ⟨c, body, done⟩ := Copying.body_done (size - (64 - dest % 64)) (by rw [dest']; dsimp only; omega)
    refine ⟨c, call.trans body, iff_of_false (fun flushed => ?_) (by omega)⟩
    rw [done, done', dest'] at flushed
    obtain ⟨a, flush, line⟩ := flushed.line (x := dest) (by simp; omega)
    have behind : dest + (64 - dest % 64) ≤ a := by
      rcases List.mem_append.mp flush with head | rest
      · simp at head
        omega
      · exact Copying.flush_tail rest
    omega

/-- Four bytes at the end of a line are stored, and the line behind it is flushed. -/
theorem head_line_not_flushed : (avxCpy (fun _ => 0#8) 60 200 4).map Copying.done =
      some [.store 60, .store 61, .store 62, .store 63, .flush 64] ∧
    ¬ Flushed [.store 60, .store 61, .store 62, .store 63, .flush 64] :=
  ⟨rfl, fun flushed => by simp [Flushed] at flushed⟩

end SlotFs
