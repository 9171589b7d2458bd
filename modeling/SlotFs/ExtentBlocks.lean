import SlotFs.ExtentIndex
import SlotFs.Lib.Runs

/-!
# The blocks of the extents

The physical side of the extent index: a block that some key leads to has its bit
set, belongs to that key alone, and is given back exactly once, when its key is
overwritten. `filent_insert_callback` gets the key as an `int`, so the extents
must end at block `2 ^ 31` at the latest.
-/

namespace SlotFs
open CWord Runs Ledger

variable {b k : Nat} {fents fents' : Nat → Filent} {installed : List (Nat × Nat)} {m : Nat → Option Nat}
  {maps : Maps} {outside : Nat → Prop}

/-- The physical block of logical block `k`, through the map `m` from keys to
entries. -/
def physOf (m : Nat → Option Nat) (fents : Nat → Filent) (k : Nat) : Option Nat :=
  (m k).map fun fe => (fents fe).pIdx + (k - (fents fe).lIdx)

def Mapped (m : Nat → Option Nat) (fents : Nat → Filent) (b : Nat) : Prop :=
  ∃ k, physOf m fents k = some b

/-- The mapped blocks belong to one key each, and their bits are set. `outside`
are the blocks that are in use for something else. -/
structure Placed (outside : Nat → Prop) (m : Nat → Option Nat) (fents : Nat → Filent)
    (maps : Maps) : Prop where
  apart : ∀ k j b, physOf m fents k = some b → physOf m fents j = some b → k = j
  laid : maps.Laid
  owns : ∀ b, Mapped m fents b → maps.Has b ∧ ¬ outside b
  bits : ∀ b, maps.Has b → (maps.used b = true ↔ outside b ∨ Mapped m fents b)

theorem physOf_congr (same : ∀ k fe, m k = some fe → (fents' fe).pIdx = (fents fe).pIdx ∧
      (fents' fe).lIdx = (fents fe).lIdx) : physOf m fents' = physOf m fents := by
  funext k
  cases hk : m k with
  | none => simp [physOf, hk]
  | some fe =>
    obtain ⟨hp, hl⟩ := same k fe hk
    simp [physOf, hk, hp, hl]

theorem Mapped.congr {m' : Nat → Option Nat} (same : physOf m' fents' = physOf m fents) :
    Mapped m' fents' = Mapped m fents := by
  funext b
  rw [Mapped, Mapped, same]

theorem physOf_erase (m : Nat → Option Nat) (fents : Nat → Filent) (k : Nat) :
    physOf (erase m k) fents = erase (physOf m fents) k := by
  funext j
  by_cases e : j = k <;> simp [physOf, erase, e]

theorem Recounted.physOf {a b : Inode} (h : Recounted a b) (m : Nat → Option Nat) :
    physOf m b.fents = SlotFs.physOf m a.fents :=
  physOf_congr fun _ fe _ => by rw [h.fents fe]; exact ⟨rfl, rfl⟩

theorem Filent.block_eq (f : Filent) (inside : f.lIdx ≤ k) (small : k < 2 ^ 31) :
    f.block (toInt32 k) = ((f.pIdx + (k - f.lIdx) : Nat) : Int) := by
  rw [Filent.block, toInt32_of_lt small]
  omega

/-- The callback gives back the block of its key. -/
theorem filentInsertCallback_data (fe : Nat) (s : Inode × DataSlots) (inside : (s.1.fents fe).lIdx ≤ k)
    (small : k < 2 ^ 31) : (filentInsertCallback fe (toInt32 k) s).2 =
      slotDataFree s.2 ((s.1.fents fe).pIdx + (k - (s.1.fents fe).lIdx) : Nat) 1 := by
  simp only [filentInsertCallback, (s.1.fents fe).block_eq inside small]

section
variable {outside : Nat → Prop} {m : Nat → Option Nat} {fents : Nat → Filent} {maps : Maps}

section
variable (h : Placed outside m fents maps) (hk : physOf m fents k = some b)
include h hk

theorem Placed.mapped_erase (c : Nat) : Mapped (erase m k) fents c ↔ Mapped m fents c ∧ c ≠ b := by
  simp only [Mapped, physOf_erase, erase_eq_some]
  constructor
  · rintro ⟨j, hj, hc⟩
    refine ⟨⟨j, hc⟩, ?_⟩
    rintro rfl
    exact hj (h.apart j k c hc hk)
  rintro ⟨⟨j, hc⟩, other⟩
  refine ⟨j, ?_, hc⟩
  rintro rfl
  exact other (Option.some.inj (hc.symm.trans hk))

/-- Giving back the block of a key that is erased. -/
theorem Placed.erase : Placed outside (erase m k) fents (doSlotFreeRange maps b 1) ∧
    ∀ j, (doSlotFreeRange maps b 1).Has j ↔ maps.Has j := by
  obtain ⟨has, _⟩ := h.owns b ⟨k, hk⟩
  obtain ⟨laid, has', used⟩ := doSlotFreeRange_used (c := 1) h.laid has has.2
  have mapped := h.mapped_erase hk
  refine ⟨⟨?_, laid, ?_, ?_⟩, has'⟩
  · intro i j c hi hj
    rw [physOf_erase, erase_eq_some] at hi hj
    exact h.apart i j c hi.2 hj.2
  · intro c hc
    obtain ⟨hm, other⟩ := (mapped c).mp hc
    exact ⟨(has' c).mpr (h.owns c hm).1, (h.owns c hm).2⟩
  intro c hc
  have old := h.bits c ((has' c).mp hc)
  have range : (b ≤ c ∧ c < b + 1) ↔ c = b := by omega
  have not_outside := (h.owns b ⟨k, hk⟩).2
  rw [used c ((has' c).mp hc), markedLength_one, mapped]
  simp only [range, Bool.and_eq_true, Bool.not_eq_true', decide_eq_false_iff_not, old]
  constructor
  · rintro ⟨other, ho | hm⟩
    · exact .inl ho
    · exact .inr ⟨hm, other⟩
  rintro (ho | ⟨hm, other⟩)
  · refine ⟨?_, .inl ho⟩
    rintro rfl
    exact not_outside ho
  · exact ⟨other, .inr hm⟩

end

end

/-- How often block `b` has been given back. -/
def frees (freed : List (Int × Nat)) (b : Nat) : Nat :=
  freed.countP fun x => decide (x.1 ≤ (b : Int) ∧ (b : Int) < x.1 + x.2)

/-- How often block `b` has been entered as part of an extent. -/
def installs (installed : List (Nat × Nat)) (b : Nat) : Nat :=
  installed.countP fun x => decide (x.1 ≤ b ∧ b < x.1 + x.2)

/-- Every time a block was entered it has been given back once, unless it is
still mapped. -/
def Accounted (installed : List (Nat × Nat)) (freed : List (Int × Nat)) (m : Nat → Option Nat)
    (fents : Nat → Filent) : Prop :=
  ∀ b, (Mapped m fents b → installs installed b = frees freed b + 1) ∧
    (¬ Mapped m fents b → installs installed b = frees freed b)

theorem Accounted.erase {freed : List (Int × Nat)} (h : Accounted installed freed m fents)
    (placed : Placed outside m fents maps) (hk : physOf m fents k = some b) :
    Accounted installed (((b : Int), 1) :: freed) (erase m k) fents := by
  intro c
  have mapped := placed.mapped_erase hk c
  have range : ((b : Int) ≤ c ∧ (c : Int) < b + 1) ↔ c = b := by omega
  have count : frees (((b : Int), 1) :: freed) c = frees freed c + if c = b then 1 else 0 := by
    simp only [frees, List.countP_cons, Nat.cast_one, range, decide_eq_true_eq]
  by_cases e : c = b
  · subst e
    have := (h c).1 ⟨k, hk⟩
    rw [mapped, count, if_pos rfl]
    exact ⟨fun hm => absurd rfl hm.2, fun _ => this⟩
  · rw [mapped, count, if_neg e, Nat.add_zero]
    exact ⟨fun hm => (h c).1 hm.1, fun hm => (h c).2 fun hm' => hm ⟨hm', e⟩⟩

/-- What an overwrite keeps on both sides of the index, for the entries and
places of `inode`. -/
structure Kept (live : Set Nat) (outside : Nat → Prop) (inode : Inode) (maps : Maps)
    (m : Nat → Option Nat) (s : Inode × DataSlots) : Prop where
  booked : Booked live m s.1
  recounted : Recounted inode s.1
  has : ∀ b, s.2.maps.Has b ↔ maps.Has b
  placed : Placed outside m inode.fents s.2.maps

section
variable {live : Set Nat} {outside : Nat → Prop} {inode : Inode} {data : DataSlots} {maps : Maps}
  {m : Nat → Option Nat} {s : Inode × DataSlots} {k fe start n : Nat}

section
variable (h : Kept live outside inode maps m s) (hk : m k = some fe) (small : k < 2 ^ 31)
include h hk small

theorem Kept.freed : ∃ b : Nat, physOf m inode.fents k = some b ∧
      (filentInsertCallback fe (toInt32 k) s).2 = slotDataFree s.2 b 1 := by
  have inside := h.booked.cover k fe hk
  refine ⟨(s.1.fents fe).pIdx + (k - (s.1.fents fe).lIdx), ?_, ?_⟩
  · rw [← h.recounted.physOf]
    simp [physOf, hk]
  · exact filentInsertCallback_data fe s inside.1 small

theorem Kept.erase : Kept live outside inode maps (erase m k) (filentInsertCallback fe (toInt32 k) s) := by
  obtain ⟨b, place, freed⟩ := h.freed hk small
  obtain ⟨placed, has⟩ := h.placed.erase place
  refine ⟨h.booked.erase hk _, h.recounted.trans (filentInsertCallback_recounted _ _ _), ?_, ?_⟩
  · rw [freed]
    exact fun c => (has c).trans (h.has c)
  · rw [freed]
    exact placed

end

section
variable (h : Kept live outside inode maps m (inode, data)) (small : start + n ≤ 2 ^ 31)
include h small

theorem Kept.overwritten :
    Kept live outside inode maps (without m start n) (overwritten m start n inode data) := by
  apply overRange_erase filentInsertCallback (I := Kept live outside inode maps)
  · intro m k fe s _ hi hk kept
    exact kept.erase hk (by omega)
  · exact h

theorem Kept.accounted (accounted : Accounted installed data.freed m inode.fents) :
    Accounted installed (SlotFs.overwritten m start n inode data).2.freed (without m start n)
      inode.fents := by
  suffices both : Kept live outside inode maps (without m start n)
      (SlotFs.overwritten m start n inode data) ∧ Accounted installed
        (SlotFs.overwritten m start n inode data).2.freed (without m start n) inode.fents from both.2
  apply overRange_erase filentInsertCallback (I := fun m s =>
    Kept live outside inode maps m s ∧ Accounted installed s.2.freed m inode.fents)
  · rintro m k fe s _ hi hk ⟨kept, accounted⟩
    have below : k < 2 ^ 31 := by omega
    obtain ⟨b, place, freed⟩ := kept.freed hk below
    refine ⟨kept.erase hk below, ?_⟩
    rw [freed]
    exact accounted.erase kept.placed place
  · exact ⟨h, accounted⟩

end

end

/-! ## A new extent -/

section
variable {m : Nat → Option Nat} {fents fents' : Nat → Filent} {start n fe p : Nat}

theorem physOf_without (k : Nat) : physOf (without m start n) fents k =
    if start ≤ k ∧ k < start + n then none else physOf m fents k := by
  split <;> rename_i inside <;> simp [physOf, without, inside]

variable (hl : (fents' fe).lIdx = start) (hp : (fents' fe).pIdx = p)
  (same : ∀ k fe', m k = some fe' → (fents' fe').pIdx = (fents fe').pIdx ∧
    (fents' fe').lIdx = (fents fe').lIdx)
include hl hp same

/-- The places after keys `start` to `start + n` have been given to an entry
whose blocks are those from `p` on. -/
theorem physOf_given (k : Nat) : physOf (given m start n fe) fents' k =
      if start ≤ k ∧ k < start + n then some (p + (k - start)) else physOf m fents k := by
  split <;> rename_i inside
  · simp [physOf, given, inside, hl, hp]
  · rw [← physOf_congr same]
    simp [physOf, given, inside]

theorem mapped_given (b : Nat) : Mapped (given m start n fe) fents' b ↔
      (p ≤ b ∧ b < p + n) ∨ Mapped (without m start n) fents b := by
  simp only [Mapped, physOf_given hl hp same, physOf_without]
  constructor
  · rintro ⟨k, hk⟩
    split at hk <;> rename_i inside
    · have := Option.some.inj hk
      exact .inl (by omega)
    · exact Or.inr ⟨k, by rw [if_neg inside, hk]⟩
  rintro (range | ⟨k, hk⟩)
  · exact ⟨start + (b - p), by rw [if_pos (by omega)]; congr 1; omega⟩
  split at hk
  · cases hk
  · rename_i outside
    exact ⟨k, by rw [if_neg outside, hk]⟩

/-- The blocks of the new extent, in use so far for something else, become
blocks of the file. -/
theorem Placed.given (h : Placed (fun b => outside b ∨ p ≤ b ∧ b < p + n) (without m start n) fents maps)
    (new : ∀ b, p ≤ b → b < p + n → maps.Has b ∧ ¬ outside b) :
    Placed outside (given m start n fe) fents' maps := by
  have mapped := mapped_given (n := n) hl hp same
  have fresh {k b : Nat} (hk : ¬ (start ≤ k ∧ k < start + n)) (hb : physOf m fents k = some b) :
      ¬ (p ≤ b ∧ b < p + n) := by
    intro range
    exact (h.owns b ⟨k, by rw [physOf_without, if_neg hk, hb]⟩).2 (Or.inr range)
  refine ⟨?_, h.laid, ?_, ?_⟩
  · intro k j b hk hj
    rw [physOf_given hl hp same] at hk hj
    split at hk <;> rename_i ik <;> split at hj <;> rename_i ij
    · have := (Option.some.inj hk).trans (Option.some.inj hj).symm
      omega
    · have := Option.some.inj hk
      exact absurd ⟨by omega, by omega⟩ (fresh ij hj)
    · have := Option.some.inj hj
      exact absurd ⟨by omega, by omega⟩ (fresh ik hk)
    · exact h.apart k j b (by rw [physOf_without, if_neg ik, hk])
        (by rw [physOf_without, if_neg ij, hj])
  · intro b hb
    rcases (mapped b).mp hb with range | old
    · exact new b range.1 range.2
    · exact ⟨(h.owns b old).1, fun ho => (h.owns b old).2 (.inl ho)⟩
  · intro b hb
    rw [h.bits b hb, mapped, or_assoc]

theorem Accounted.given {freed : List (Int × Nat)} (h : Accounted installed freed (without m start n) fents)
    (placed : Placed (fun b => outside b ∨ p ≤ b ∧ b < p + n) (without m start n) fents maps) :
    Accounted ((p, n) :: installed) freed (given m start n fe) fents' := by
  intro b
  have count : installs ((p, n) :: installed) b =
      installs installed b + if p ≤ b ∧ b < p + n then 1 else 0 := by
    simp only [installs, List.countP_cons, decide_eq_true_eq]
  rw [mapped_given hl hp same, count]
  by_cases range : p ≤ b ∧ b < p + n
  · have free : ¬ Mapped (without m start n) fents b :=
      fun hm => (placed.owns b hm).2 (.inr range)
    have := (h b).2 free
    rw [if_pos range, this]
    exact ⟨fun _ => rfl, fun hn => absurd (.inl range) hn⟩
  · rw [if_neg range, Nat.add_zero]
    exact ⟨fun hm => (h b).1 (hm.resolve_left range), fun hn => (h b).2 fun hm => hn (.inr hm)⟩

end

/-- An extent whose block numbers fit an `int`. -/
def IntSized (entry : PmFilent) : Prop :=
  entry.lIdx + entry.blocks ≤ 2 ^ 31 ∧ entry.blocks < 2 ^ 31

section
variable {env : Env} {files files' : Maps} {inode inode1 inode' : Inode} {c : Chosen}
  {entry : PmFilent} {outside : Nat → Prop} {data : DataSlots}

section
variable (choice : Choice env files inode c inode1 files')
include choice

section
variable (appended : Appended inode inode1 entry c inode')
include appended

/-- The entry that is filled in has no block so far, so the places are what they were. -/
theorem Appended.fill_physOf : physOf (btreeGet inode.bRoot) (fillEntry inode1 c entry).fents =
      physOf (btreeGet inode.bRoot) inode.fents := by
  apply physOf_congr
  intro k fe hk
  have other : fe ≠ c.fe := by
    rintro rfl
    exact appended.unmapped k hk
  rw [choice.fill_other entry other]
  exact ⟨rfl, rfl⟩

theorem Appended.same_places (k fe : Nat) (hk : btreeGet inode.bRoot k = some fe) :
    (inode'.fents fe).pIdx = ((fillEntry inode1 c entry).fents fe).pIdx ∧
    (inode'.fents fe).lIdx = ((fillEntry inode1 c entry).fents fe).lIdx := by
  have other : fe ≠ c.fe := by
    rintro rfl
    exact appended.unmapped k hk
  obtain ⟨ref, eq⟩ := appended.kept fe other
  rw [eq, choice.fill_other entry other]
  exact ⟨rfl, rfl⟩

end

section
variable (h : Indexed inode) (appended : Appended inode inode1 entry c inode')
include h appended

/-- Before the callbacks. -/
theorem Appended.start (placed : Placed outside (btreeGet inode.bRoot) inode.fents data.maps) :
    Kept ({fe | fe ∈ inode.list} \ {c.fe}) outside (fillEntry inode1 c entry) data.maps
      (btreeGet inode.bRoot) (fillEntry inode1 c entry, data) := by
  have phys := appended.fill_physOf choice
  refine ⟨(choice.booked h entry).2, .refl _, fun _ => Iff.rfl, ?_⟩
  exact ⟨by rw [phys]; exact placed.apart, placed.laid, by rw [Mapped.congr phys]; exact placed.owns,
    by rw [Mapped.congr phys]; exact placed.bits⟩

/-- Entering an extent whose blocks have just been taken. -/
theorem Appended.placed (sized : IntSized entry)
    (placed : Placed (fun b => outside b ∨ entry.pIdx ≤ b ∧ b < entry.pIdx + entry.blocks)
      (btreeGet inode.bRoot) inode.fents data.maps)
    (new : ∀ b, entry.pIdx ≤ b → b < entry.pIdx + entry.blocks → data.maps.Has b ∧ ¬ outside b) :
    let data' := (overwritten (btreeGet inode.bRoot) entry.lIdx entry.blocks
      (fillEntry inode1 c entry) data).2
    Placed outside (btreeGet inode'.bRoot) inode'.fents data'.maps ∧
    ∀ b, data'.maps.Has b ↔ data.maps.Has b := by
  intro data'
  have kept := (appended.start choice h placed).overwritten sized.1
  obtain ⟨ref, filled⟩ := appended.filled
  rw [appended.map]
  exact ⟨Placed.given (by rw [filled]) (by rw [filled]) (appended.same_places choice) kept.placed
    (fun b lo hi => ⟨(kept.has b).mpr (new b lo hi).1, (new b lo hi).2⟩), kept.has⟩

theorem Appended.accounted (sized : IntSized entry)
    (placed : Placed (fun b => outside b ∨ entry.pIdx ≤ b ∧ b < entry.pIdx + entry.blocks)
      (btreeGet inode.bRoot) inode.fents data.maps)
    (accounted : Accounted installed data.freed (btreeGet inode.bRoot) inode.fents) :
    Accounted ((entry.pIdx, entry.blocks) :: installed)
      (overwritten (btreeGet inode.bRoot) entry.lIdx entry.blocks (fillEntry inode1 c entry)
        data).2.freed (btreeGet inode'.bRoot) inode'.fents := by
  have start := appended.start choice h placed
  obtain ⟨ref, filled⟩ := appended.filled
  rw [appended.map]
  refine Accounted.given (by rw [filled]) (by rw [filled]) (appended.same_places choice) ?_
    (start.overwritten sized.1).placed
  apply start.accounted sized.1
  rw [Accounted, Mapped.congr (appended.fill_physOf choice)]
  exact accounted

end

end

end

end SlotFs
