import SlotFs.FileRead
import SlotFs.WriteIndex

/-!
# The contents after a write

A turn of the loop fills the new blocks with the bytes of the write and, around
them, with the bytes of the old blocks where there are any. The old blocks stay as
they are until the log takes the new ones over.
-/

namespace SlotFs
open CWord Option

variable {a i len o offset : Nat} {inode : Inode} {past : List (Nat × Nat)}

/-- What is at address `a` after byte `y` of the file has been copied there. -/
def carried (inode : Inode) (m : Mem) (y a : Nat) : BitVec 8 :=
  match place inode y with
  | some b => m b
  | none => m a

theorem carried_congr {m m' : Mem} {y : Nat} (old : ∀ b, place inode y = some b → m' b = m b) (new : m' a = m a) :
    carried inode m' y a = carried inode m y a := by
  unfold carried
  cases mapped : place inode y with
  | none => exact new
  | some b => exact old b mapped

theorem place_in_block {k : Nat} (h : o < 4096) :
    place inode (k * 4096 + o) = (filentLookup inode k).map fun f => f.addr k + o := by
  rw [place, show (k * 4096 + o) / 4096 = k by omega, show (k * 4096 + o) % 4096 = o by omega]

section
variable {inode : Inode} {m : Mem} {c nr : Nat}

theorem copyHead_inside (h : o < c % 4096) : copyHead inode m c nr (nr * 4096 + o) =
    carried inode m (c / 4096 * 4096 + o) (nr * 4096 + o) := by
  rw [copyHead, if_pos (by omega), carried, place_in_block (by omega)]
  cases filentLookup inode (c / 4096) with
  | none => rfl
  | some old => exact memcpy_inside _ _ _ h

theorem copyHead_outside (h : a < nr * 4096 ∨ nr * 4096 + c % 4096 ≤ a) : copyHead inode m c nr a = m a := by
  unfold copyHead
  split
  · cases filentLookup inode (c / 4096) with
    | none => rfl
    | some old => exact memcpy_outside _ _ _ h
  · rfl

variable {len offset d bytes : Nat} (far : offset + len < 2 ^ 63)
  (words : nr + (d + 1) < 2 ^ 64 ∧ c / 4096 + (d + 1) < 2 ^ 64)
include far words

/-- With `d + 1` new blocks the last one is block `d` of them. -/
theorem copyTail_eq : copyTail inode m len offset c nr (d + 1) bytes = if wrap64 (c % 4096 + bytes) % 4096 ≠ 0 then
      match filentLookup inode (c / 4096 + d) with
      | some old => memcpy m ((nr + d) * 4096 + (offset + len) % 4096) m
          (old.addr (c / 4096 + d) + (offset + len) % 4096) (4096 - (offset + len) % 4096)
      | none => m
    else m := by
  have last : sub64 (wrap64 (c / 4096 + (d + 1))) 1 = c / 4096 + d := by
    rw [wrap64_of_lt words.2, sub64_of_le (by omega) words.2]
    rfl
  have last' : sub64 (wrap64 (nr + (d + 1))) 1 = nr + d := by
    rw [wrap64_of_lt words.1, sub64_of_le (by omega) words.1]
    rfl
  rewrite [copyTail, last, last', wrap64_of_lt (show offset + len < 2 ^ 64 by omega)]
  rfl

theorem copyTail_inside (partly : wrap64 (c % 4096 + bytes) % 4096 ≠ 0) (lo : (offset + len) % 4096 ≤ o)
    (hi : o < 4096) : copyTail inode m len offset c nr (d + 1) bytes ((nr + d) * 4096 + o) =
      carried inode m ((c / 4096 + d) * 4096 + o) ((nr + d) * 4096 + o) := by
  rw [copyTail_eq far words, if_pos partly, carried, place_in_block hi]
  cases filentLookup inode (c / 4096 + d) with
  | none => rfl
  | some old =>
    have shift (x : Nat) : x + (offset + len) % 4096 + (o - (offset + len) % 4096) = x + o := by omega
    have copied : memcpy m ((nr + d) * 4096 + (offset + len) % 4096) m
        (old.addr (c / 4096 + d) + (offset + len) % 4096) (4096 - (offset + len) % 4096)
        ((nr + d) * 4096 + (offset + len) % 4096 + (o - (offset + len) % 4096)) =
          m (old.addr (c / 4096 + d) + (offset + len) % 4096 + (o - (offset + len) % 4096)) :=
      memcpy_inside _ _ _ (by omega)
    rw [shift, shift] at copied
    exact copied

theorem copyTail_outside (h : wrap64 (c % 4096 + bytes) % 4096 = 0 ∨
      a < (nr + d) * 4096 + (offset + len) % 4096 ∨ (nr + (d + 1)) * 4096 ≤ a) :
    copyTail inode m len offset c nr (d + 1) bytes a = m a := by
  rw [copyTail_eq far words]
  split
  · rename_i partly
    have range : a < (nr + d) * 4096 + (offset + len) % 4096 ∨
        (nr + d) * 4096 + (offset + len) % 4096 + (4096 - (offset + len) % 4096) ≤ a := by
      have := h.resolve_left partly
      clear h partly
      omega
    cases filentLookup inode (c / 4096 + d) with
    | none => rfl
    | some old => exact memcpy_outside _ _ _ range
  · rfl

end

/-- What is at address `a`, in a new block, for byte `y` of the file. -/
def newByte (inode : Inode) (m buf : Mem) (len offset y a : Nat) : BitVec 8 :=
  if offset ≤ y ∧ y < offset + len then buf (y - offset) else carried inode m y a

theorem Turn.bytes {d x : Nat} (turn : Turn len offset past (d + 1) x) : ∃ bytes,
    min (4096 * (d + 1) - x % 4096) (offset + len - x) = bytes ∧
    x % 4096 + bytes ≤ 4096 * (d + 1) ∧ x + bytes ≤ offset + len ∧
    (x % 4096 + bytes = 4096 * (d + 1) ∨ x + bytes = offset + len) := by
  have first : x % 4096 + (4096 * (d + 1) - x % 4096) = 4096 * (d + 1) :=
    Nat.add_sub_of_le ((Nat.mod_lt x (by decide)).le.trans (Nat.le_mul_of_pos_right _ d.succ_pos))
  have second : x + (offset + len - x) = offset + len := Nat.add_sub_of_le turn.high
  generalize 4096 * (d + 1) - x % 4096 = room at first ⊢
  generalize offset + len - x = left at second ⊢
  exact ⟨min room left, rfl, by omega, by omega, by omega⟩

section
variable {inode : Inode} {m buf : Mem} {len offset p d x : Nat} {past : List (Nat × Nat)}
  (turn : Turn len offset past (d + 1) x) (far : offset + len < 2 ^ 63) (word : p + (d + 1) < 2 ^ 64)
include turn far word

theorem turnBlocks_outside (h : a < p * 4096 ∨ (p + (d + 1)) * 4096 ≤ a) :
    turnBlocks inode m buf len offset p (d + 1) x a = m a := by
  obtain ⟨bytes, hb, room, left, _⟩ := turn.bytes
  obtain ⟨_, low, high, _, _, needed⟩ := turn
  have words : p + (d + 1) < 2 ^ 64 ∧ x / 4096 + (d + 1) < 2 ^ 64 := ⟨word, by omega⟩
  rw [turnBlocks, copyBlocks, hb]
  rcases h with h | h
  · have last : p * 4096 ≤ (p + d) * 4096 := Nat.mul_le_mul_right _ (Nat.le_add_right p d)
    rw [memcpy_outside _ _ _ (Or.inl (h.trans_le (Nat.le_add_right _ _))),
      copyTail_outside far words (Or.inr (Or.inl (h.trans_le (last.trans (Nat.le_add_right _ _))))),
      copyHead_outside (Or.inl h)]
  · rw [memcpy_outside _ _ _ (Or.inr (by omega)), copyTail_outside far words (Or.inr (Or.inr h)),
      copyHead_outside (Or.inr (by omega))]

theorem turnBlocks_inside (fresh : ∀ y b, place inode y = some b → b < p * 4096 ∨ (p + (d + 1)) * 4096 ≤ b)
    {y : Nat} (hi : i ≤ d) (ho : o < 4096) (hy : y = (x / 4096 + i) * 4096 + o) :
    turnBlocks inode m buf len offset p (d + 1) x ((p + i) * 4096 + o) =
      newByte inode m buf len offset y ((p + i) * 4096 + o) := by
  obtain ⟨bytes, hb, room, left, which⟩ := turn.bytes
  obtain ⟨_, low, high, _, aligned, needed⟩ := turn
  have words : p + (d + 1) < 2 ^ 64 ∧ x / 4096 + (d + 1) < 2 ^ 64 := ⟨word, by omega⟩
  have small : x % 4096 + bytes < 2 ^ 64 := by omega
  rw [turnBlocks, copyBlocks, newByte, hb]
  by_cases inside : offset ≤ y ∧ y < offset + len
  · have addr : (p + i) * 4096 + o = p * 4096 + x % 4096 + (y - x) := by omega
    rw [if_pos inside, addr, memcpy_inside _ _ _ (by omega)]
    congr 1
    omega
  rw [if_neg inside, memcpy_outside _ _ _ (by omega)]
  by_cases head : y < x
  · obtain rfl : i = 0 := by omega
    have outside : wrap64 (x % 4096 + bytes) % 4096 = 0 ∨
        (p + 0) * 4096 + o < (p + d) * 4096 + (offset + len) % 4096 ∨
        (p + (d + 1)) * 4096 ≤ (p + 0) * 4096 + o := by
      rw [wrap64_of_lt small]
      omega
    rw [copyTail_outside far words outside, Nat.add_zero, copyHead_inside (by omega),
      show x / 4096 * 4096 + o = y by omega]
  obtain rfl : i = d := by omega
  have partly : wrap64 (x % 4096 + bytes) % 4096 ≠ 0 := by
    rw [wrap64_of_lt small]
    omega
  rw [copyTail_inside far words partly (by omega) ho, ← hy]
  apply carried_congr
  · intro b mapped
    have := fresh y b mapped
    exact copyHead_outside (by omega)
  · exact copyHead_outside (by omega)

end

/-! ## New blocks and old blocks -/

theorem Indexed.place_eq (h : Indexed inode) (x : Nat) :
    place inode x = (inode.phys (x / 4096)).map fun b => b * 4096 + x % 4096 := by
  cases mapped : btreeGet inode.bRoot (x / 4096) with
  | none => simp [place, filentLookup, Inode.phys, physOf, mapped]
  | some fe =>
    have cover := h.booked.cover _ _ mapped
    have block : (inode.fents fe).block ((x / 4096 : Nat) : Int) =
        (((inode.fents fe).pIdx + (x / 4096 - (inode.fents fe).lIdx) : Nat) : Int) := by
      rw [Filent.block]
      omega
    simp only [place, filentLookup, Inode.phys, physOf, mapped, map_some, Filent.addr, block,
      toSize_natCast]

/-- Runs of blocks that are all different and that the file does not have. -/
structure Fresh (inode : Inode) (runs : List (Nat × Nat)) : Prop where
  apart : ∀ i j, i < total runs → j < total runs → blockOf runs i = blockOf runs j → i = j
  free : ∀ i < total runs, ∀ k, inode.phys k ≠ some (blockOf runs i)
  low : ∀ run ∈ runs, run.1 + run.2 ≤ 2 ^ 32

/-- The blocks of `past` hold what they are to hold, and all others what was in
the data area `old`. -/
structure Filled (inode : Inode) (old buf : Mem) (len offset : Nat) (past : List (Nat × Nat)) (m : Mem) :
    Prop where
  filled : ∀ i < total past, ∀ o < 4096, m (blockOf past i * 4096 + o) = newByte inode old buf len
    offset ((offset / 4096 + i) * 4096 + o) (blockOf past i * 4096 + o)
  frame : ∀ a, (∀ i < total past, a / 4096 ≠ blockOf past i) → m a = old a

theorem blockOf_past (rest : List (Nat × Nat)) (run : Nat × Nat) (h : i < total past) :
    blockOf (past ++ run :: rest) i = blockOf past i := by
  rw [blockOf_append, if_pos h]

theorem blockOf_next (past rest : List (Nat × Nat)) (p : Nat) {c : Nat} (h : i < c) :
    blockOf (past ++ (p, c) :: rest) (total past + i) = p + i := by
  rw [blockOf_append, if_neg (by omega), Nat.add_sub_cancel_left, blockOf, if_pos h]

theorem Filled.turn {inode : Inode} {old buf m : Mem} {len offset p c x : Nat}
    {past rest : List (Nat × Nat)} (h : Filled inode old buf len offset past m)
    (indexed : Indexed inode) (fresh : Fresh inode (past ++ (p, c) :: rest))
    (turn : Turn len offset past c x) (far : offset + len < 2 ^ 63) :
    Filled inode old buf len offset (past ++ [(p, c)]) (turnBlocks inode m buf len offset p c x) := by
  obtain ⟨d, rfl⟩ : ∃ d, c = d + 1 := ⟨c - 1, by have := turn.least; omega⟩
  have word : p + (d + 1) < 2 ^ 64 := by
    have := fresh.low (p, d + 1) (by simp)
    omega
  have count : total (past ++ (p, d + 1) :: rest) = total past + (d + 1) + total rest := by
    rw [total_append, total_cons]
    omega
  -- a block of the new run is neither an earlier one nor one of the file
  have other {i j : Nat} (hi : i ≤ d) (hj : j < total past) : p + i ≠ blockOf past j := by
    intro e
    rw [← blockOf_next past rest p (show i < d + 1 by omega), ← blockOf_past rest (p, d + 1) hj] at e
    have := fresh.apart _ _ (by omega) (by omega) e
    omega
  have unmapped {y b : Nat} (mapped : place inode y = some b) :
      (∀ i ≤ d, b / 4096 ≠ p + i) ∧ ∀ i < total past, b / 4096 ≠ blockOf past i := by
    rw [indexed.place_eq] at mapped
    obtain ⟨q, phys, rfl⟩ := map_eq_some_iff.mp mapped
    rw [show (q * 4096 + y % 4096) / 4096 = q by omega]
    refine ⟨fun i hi e => fresh.free (total past + i) (by omega) (y / 4096) ?_, fun i hi e =>
      fresh.free i (by omega) (y / 4096) ?_⟩
    · rw [blockOf_next past rest p (by omega), phys, e]
    · rw [blockOf_past _ _ hi, phys, e]
  have away {a : Nat} (h : ∀ i ≤ d, a / 4096 ≠ p + i) : a < p * 4096 ∨ (p + (d + 1)) * 4096 ≤ a := by
    by_contra inside
    exact h (a / 4096 - p) (by omega) (by omega)
  constructor
  · intro i hi o ho
    rw [total_append, total_cons, total_nil] at hi
    by_cases earlier : i < total past
    · rw [blockOf_append, if_pos earlier, turnBlocks_outside turn far word (away fun j hj e =>
        other hj earlier (by omega)), h.filled i earlier o ho]
    obtain ⟨j, rfl⟩ : ∃ j, i = total past + j := ⟨i - total past, by omega⟩
    rw [blockOf_next past [] p (by omega), turnBlocks_inside turn far word
      (fun y b mapped => away (unmapped mapped).1) (show j ≤ d by omega) ho
      (show (offset / 4096 + (total past + j)) * 4096 + o = (x / 4096 + j) * 4096 + o by
        rw [turn.block, Nat.add_assoc]), newByte, newByte]
    congr 1
    apply carried_congr
    · exact fun b mapped => h.frame b (unmapped mapped).2
    · exact h.frame _ fun i hi e => other (show j ≤ d by omega) hi (by omega)
  · intro a outside
    rw [total_append, total_cons, total_nil] at outside
    rw [turnBlocks_outside turn far word (away fun i hi e => outside (total past + i) (by omega)
      (by rw [blockOf_next past [] p (by omega), e]))]
    exact h.frame a fun i hi e => outside i (by omega) (by rw [blockOf_past _ _ hi, e])

/-! ## The law -/

/-- Byte `x` after a write: the byte of `buf` inside of it, and unchanged outside if
it had a place. -/
structure ByteWritten (inode inode' : Inode) (m m' buf : Mem) (len offset x : Nat) : Prop where
  inside : offset ≤ x → x < offset + len →
    (place inode' x).isSome ∧ byteAt m' inode' x = buf (x - offset)
  outside : ¬ (offset ≤ x ∧ x < offset + len) → (place inode x).isSome →
    byteAt m' inode' x = byteAt m inode x

/-- A write in place changes its bytes and, as no two blocks are at one place, no
others. -/
theorem byteWritten_inPlace (indexed : Indexed inode)
    (apart : ∀ k j b, inode.phys k = some b → inode.phys j = some b → k = j) (m buf : Mem)
    (fits : offset % 4096 + len ≤ 4096) {fe : Filent} (mapped : filentLookup inode (offset / 4096) = some fe)
    (x : Nat) : ByteWritten inode inode m (memcpy m (fe.addr (offset / 4096) + offset % 4096) buf 0 len) buf
      len offset x := by
  have here : place inode offset = some (fe.addr (offset / 4096) + offset % 4096) := by
    simp [place, mapped]
  constructor
  · intro lo hi
    have same : x / 4096 = offset / 4096 := by omega
    have at_x : place inode x = some (fe.addr (offset / 4096) + offset % 4096 + (x - offset)) := by
      have add : x % 4096 = offset % 4096 + (x - offset) := by omega
      rw [place, same, mapped, map_some, add, Nat.add_assoc]
    refine ⟨by rw [at_x]; rfl, ?_⟩
    rw [byteAt, at_x, load, memcpy_inside _ _ _ (by omega), Nat.zero_add]
  intro out some_place
  obtain ⟨a, ha⟩ := isSome_iff_exists.mp some_place
  rw [byteAt, byteAt, ha, load, load]
  apply memcpy_outside
  by_contra within
  rw [indexed.place_eq] at ha here
  obtain ⟨b, phys, rfl⟩ := map_eq_some_iff.mp ha
  obtain ⟨b', phys', addr⟩ := map_eq_some_iff.mp here
  rw [← addr] at within
  obtain rfl : b = b' := by omega
  have same := apart _ _ b phys phys'
  exact out (by omega)

/-- New blocks that hold what they are to hold, once the index leads to them. -/
theorem Filled.byteWritten {inode' : Inode} {m m' buf : Mem} {runs : List (Nat × Nat)}
    (h : Filled inode m buf len offset runs m') (indexed : Indexed inode) (indexed' : Indexed inode')
    (fresh : Fresh inode runs) (phys : inode'.phys = overlay (layout (offset / 4096) runs) inode.phys)
    (count : total runs = (len + offset % 4096 + 4095) / 4096) (x : Nat) :
    ByteWritten inode inode' m m' buf len offset x := by
  have at_x : inode'.phys (x / 4096) = if offset / 4096 ≤ x / 4096 ∧
      x / 4096 < offset / 4096 + total runs then some (blockOf runs (x / 4096 - offset / 4096))
      else inode.phys (x / 4096) := by
    rw [phys, overlay_layout]
  by_cases touched : offset / 4096 ≤ x / 4096 ∧ x / 4096 < offset / 4096 + total runs
  · rw [if_pos touched] at at_x
    have here : place inode' x =
        some (blockOf runs (x / 4096 - offset / 4096) * 4096 + x % 4096) := by
      rw [indexed'.place_eq, at_x, map_some]
    have byte : byteAt m' inode' x = newByte inode m buf len offset x
        (blockOf runs (x / 4096 - offset / 4096) * 4096 + x % 4096) := by
      rw [byteAt, here, load, h.filled _ (by omega) _ (by omega)]
      congr 1
      omega
    constructor
    · intro lo hi
      exact ⟨by rw [here]; rfl, by rw [byte, newByte, if_pos ⟨lo, hi⟩]⟩
    intro out some_place
    obtain ⟨a, ha⟩ := isSome_iff_exists.mp some_place
    rw [byte, newByte, if_neg out, carried, byteAt, ha]
    rfl
  · rw [if_neg touched] at at_x
    have here : place inode' x = place inode x := by
      rw [indexed'.place_eq, indexed.place_eq, at_x]
    constructor
    · intro lo hi
      exact absurd (by omega) touched
    intro _ some_place
    obtain ⟨a, ha⟩ := isSome_iff_exists.mp some_place
    rw [byteAt, byteAt, here, ha, load, load]
    apply h.frame
    intro i hi e
    rw [indexed.place_eq] at ha
    obtain ⟨b, old, rfl⟩ := map_eq_some_iff.mp ha
    exact fresh.free i hi _ (by rw [old, ← e]; congr 1; omega)

section
variable {env : Env} {sbi sbi' : Sbi} {inode inode' : Inode} {buf : Mem} {len offset : Nat}
  {runs : List (Nat × Nat)}
  {maps : Maps}

/-- A write changes blocks of the file and new ones only. If it returns its length, nothing is
unmapped, and the bytes are written. -/
theorem inodeWriteAtomic_bytes {ok : Maps → Nat → Nat → Nat → Prop} {ret : Int} (indexed : Indexed inode)
    (apart : ∀ k j b, inode.phys k = some b → inode.phys j = some b → k = j)
    (far : offset + len ≤ (2 ^ 31 - 1) * 4096)
    (served : Served env ok sbi.storage.data.maps (blockCount len offset) runs maps) (fresh : Fresh inode runs)
    (call : inodeWriteAtomic env sbi inode buf len offset = some (ret, inode', sbi')) :
    (∀ b o, (∀ k, inode.phys k ≠ some b) → (∀ i < total runs, blockOf runs i ≠ b) → o < 4096 →
      sbi'.blocks (b * 4096 + o) = sbi.blocks (b * 4096 + o)) ∧
    (ret = len → ∀ x, ((place inode x).isSome → (place inode' x).isSome) ∧
      ByteWritten inode inode' sbi.blocks sbi'.blocks buf len offset x) := by
  have outcome := (Wrote.of_call call).outcome (J := Filled inode sbi.blocks buf len offset) served
    (by omega) ⟨fun i hi => absurd hi (by simp), fun _ _ => rfl⟩
    (fun past p c rest x m split turn filled =>
      filled.turn indexed (split ▸ fresh) turn (by omega))
  have frame {m : Mem} (content : Filled inode sbi.blocks buf len offset runs m) (b o : Nat)
      (new : ∀ i < total runs, blockOf runs i ≠ b) (low : o < 4096) :
      m (b * 4096 + o) = sbi.blocks (b * 4096 + o) :=
    content.frame _ fun i hi same => new i hi (by omega)
  cases outcome with
  | inPlace _ size sbi' fe fits mapped blocks storage ts grown =>
    rw [blocks]
    refine ⟨fun b o old _ low => memcpy_outside _ _ _ ?_, fun _ x => ⟨id, ?_⟩⟩
    · have here : place inode offset = some (fe.addr (offset / 4096) + offset % 4096) := by
        simp [place, mapped]
      rw [indexed.place_eq] at here
      obtain ⟨b', phys, addr⟩ := map_eq_some_iff.mp here
      have differ : b ≠ b' := by
        rintro rfl
        exact old _ phys
      omega
    · obtain ⟨inside, outside⟩ := byteWritten_inPlace indexed apart sbi.blocks buf fits mapped x
      exact ⟨inside, outside⟩
  | failed _ _ _ append ts content =>
    have := appendUnits_negative append
    exact ⟨fun b o _ => frame content b o, fun _ => by omega⟩
  | logged inode1 _ append ts content =>
    have fits (u : EntryUnit) (hu : u ∈ layout (offset / 4096) runs) : u.Fits := by
      have keyed := served.keyed far u hu
      have low := fresh.low _ (mem_layout hu).2.2
      exact ⟨keyed, by have := keyed.nonempty; dsimp only at low; omega⟩
    obtain ⟨rest, entering, done⟩ := appendUnits_phys fits indexed append
    obtain rfl := done rfl
    obtain ⟨past, split, phys⟩ := entering.phys
    rw [List.append_nil] at split
    subst split
    refine ⟨fun b o _ => frame content b o, fun _ x => ⟨fun mapped => ?_, ?_⟩⟩
    · rw [indexed.place_eq, isSome_map] at mapped
      have entered : (place inode1 x).isSome := by
        rw [entering.indexed.place_eq, isSome_map, phys, overlay_layout]
        split
        · rfl
        · exact mapped
      exact entered
    · obtain ⟨inside, outside⟩ := content.byteWritten indexed entering.indexed fresh phys
        (by rw [served.total, blockCount_eq (by omega)]) x
      exact ⟨inside, outside⟩

/-- A write that returns its length has put the bytes of `buf` into the file, and
has left every other byte of a block that was mapped as it was: under the journal, in
place behind the end, or in new blocks, however the request for them was split. -/
theorem write_content_law {env : Env} {sbi sbi' : Sbi} {inode inode' : Inode} {buf : Mem}
    {len offset : Nat} {runs : List (Nat × Nat)} {maps : Maps} (indexed : Indexed inode)
    (apart : ∀ k j b, inode.phys k = some b → inode.phys j = some b → k = j)
    (far : offset + len ≤ (2 ^ 31 - 1) * 4096)
    (served : Served env (fun _ _ _ _ => True) sbi.storage.data.maps (blockCount len offset) runs maps)
    (fresh : Fresh inode runs)
    (call : inodeWriteAtomic env sbi inode buf len offset = some ((len : Int), inode', sbi')) (x : Nat) :
    ByteWritten inode inode' sbi.blocks sbi'.blocks buf len offset x :=
  ((inodeWriteAtomic_bytes indexed apart far served fresh call).2 rfl x).2

end

/-- The first write of a new file, in the middle of a block. -/
theorem write_content_law_first : ∃ inode sbi inode' sbi',
    inodeWriteAtomic firstFit sbi inode (fun i => BitVec.ofNat 8 i) 5 10 = some (5, inode', sbi') ∧
    ∀ x, ByteWritten inode inode' sbi.blocks sbi'.blocks (fun i => BitVec.ofNat 8 i) 5 10 x := by
  have run : (created (blankSbi 64 0xaa#8)).bind (fun f =>
      (inodeWriteAtomic firstFit f.2 f.1 (fun i => BitVec.ofNat 8 i) 5 10).map fun out => out.1) =
      some 5 := by
    decide +kernel
  obtain ⟨⟨inode, sbi⟩, create, last⟩ := bind_eq_some_iff.mp run
  obtain ⟨⟨ret, inode', sbi'⟩, call, rfl⟩ := map_eq_some_iff.mp last
  obtain ⟨new, _, _, _, storage⟩ := inodeCreate_new (fun _ => rfl) (inodeCreate_of_created create)
  obtain ⟨maps, served⟩ := firstFit_first (fun _ _ _ _ => True) trivial
  have one : blockCount 5 10 = 1 := by decide
  have unmapped (k b : Nat) : inode.phys k ≠ some b := by
    simp [Inode.phys, physOf, new.unmapped]
  have fresh : Fresh inode [(0, 1)] := by
    refine ⟨fun i j hi hj _ => ?_, fun _ _ k => unmapped k _, by simp⟩
    simp only [total_cons, total_nil] at hi hj
    omega
  exact ⟨inode, sbi, inode', sbi', call, fun x => write_content_law new.indexed
    (fun k _ b hk => absurd hk (unmapped k b)) (by decide) (by rw [one, storage]; exact served)
    fresh call x⟩

end SlotFs
