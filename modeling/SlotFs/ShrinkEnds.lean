import SlotFs.Lib.Loops
import SlotFs.TruncateReplay

/-!
# Where `inode_shrink` ends

The loop goes from entry to entry. At a block that is not mapped it says `continue`, and
the next turn looks the same block up again.
-/

namespace SlotFs
open CWord Loops Function Option LinkedFile

variable {now t : Nat × LinkedFile}

/-- One turn of the loop of `inode_shrink`. -/
def shrinkTurn (endBlk : Nat) (now : Nat × LinkedFile) : Pass (Nat × LinkedFile) :=
  if now.1 < endBlk then
    match btreeGet now.2.inode.bRoot now.1 with
    | none => .again now
    | some fe =>
      let next := wrap64 (now.1 + (now.2.inode.fents fe).blocks)
      if endBlk < next then .stop now
      else match now.2.fileRemoveEntry fe with
        | none => .crash
        | some s => .again (next, s)
  else .stop now

theorem shrinkLoop_halts {endBlk fuel startBlk : Nat} {s s' : LinkedFile}
    (call : shrinkLoop endBlk fuel startBlk s = some s') :
    ∃ startBlk', Halts (shrinkTurn endBlk) (startBlk, s) (startBlk', s') := by
  induction fuel generalizing startBlk s with
  | zero => cases call
  | succ fuel ih =>
    rw [shrinkLoop] at call
    split at call <;> rename_i more
    · split at call
      · cases call
      next fe found =>
      dsimp only at call
      split at call <;> rename_i beyond
      · cases call
        exact ⟨startBlk, .stop (by simp [shrinkTurn, more, found, beyond])⟩
      · obtain ⟨s1, remove, call⟩ := bind_eq_some_iff.mp call
        obtain ⟨startBlk', rest⟩ := ih call
        exact ⟨startBlk', .again (by simp [shrinkTurn, more, found, beyond, remove]) rest⟩
    · cases call
      exact ⟨startBlk, .stop (by simp [shrinkTurn, more])⟩

/-! ## The walk over the entries -/

/-- From block `p` on, the blocks that the loop comes to are mapped: it goes from one to the
next by the length of the entry there, up to `stop` or to an entry that ends behind it. -/
inductive Stairs (m : Nat → Option Nat) (fents : Nat → Filent) (stop : Nat) : Nat → Prop
  | past {p : Nat} (past : stop ≤ p) : Stairs m fents stop p
  | beyond {p fe : Nat} (mapped : m p = some fe) (beyond : stop < p + (fents fe).blocks) : Stairs m fents stop p
  | next {p fe : Nat} (mapped : m p = some fe) (inside : p + (fents fe).blocks ≤ stop)
      (rest : Stairs m fents stop (p + (fents fe).blocks)) : Stairs m fents stop p

/-- The loop removes an entry in its first turn. -/
def Removes (m : Nat → Option Nat) (fents : Nat → Filent) (stop p : Nat) : Prop :=
  p < stop ∧ ∃ fe, m p = some fe ∧ p + (fents fe).blocks ≤ stop

/-- The entries of the index cover the blocks that lead to them. -/
structure Inode.Mapped (inode : Inode) : Prop where
  tree : ∃ base, Shape inode.bRoot base
  covers : ∀ k fe, btreeGet inode.bRoot k = some fe → (inode.fents fe).Covers k
  low : inode.Low

/-- The links of the entries of the index lead somewhere: `file_remove_entry` finds what
stands in front of an entry and behind it. -/
structure LinkedFile.Joined (s : LinkedFile) : Prop where
  next : ∀ k fe, btreeGet s.inode.bRoot k = some fe → s.links.next (.entry fe) ≠ .bad
  prev : ∀ k fe, btreeGet s.inode.bRoot k = some fe → s.links.prev (.entry fe) ≠ .bad
  first : ∀ k fe, btreeGet s.inode.bRoot k = some fe → s.links.prev (.entry fe) = .head →
    s.inode.logHead = (s.inode.fents fe).idx
  free : ∀ k fe, btreeGet s.inode.bRoot k = some fe → s.links.freeList ≠ .entry fe

section
variable {s s' : LinkedFile} {fe k p stop : Nat}

/-- A list in order is joined. -/
theorem LinkedFile.Joined.of_ring (ring : s.links.Ring s.inode.list)
    (listed : ∀ k fe, btreeGet s.inode.bRoot k = some fe → fe ∈ s.inode.list)
    (head : ∀ fe ∈ s.inode.list, prevOf s.inode.list fe = none → s.inode.logHead = (s.inode.fents fe).idx)
    (free : ∀ fe ∈ s.inode.list, s.links.freeList ≠ .entry fe) : s.Joined := by
  constructor
  · intro k fe mapped
    rw [ring.next fe (listed k fe mapped)]
    cases nextOf s.inode.list fe <;> simp [linkTo]
  · intro k fe mapped
    rw [ring.prev fe (listed k fe mapped)]
    cases prevOf s.inode.list fe <;> simp [linkTo]
  · intro k fe mapped first
    rw [ring.prev fe (listed k fe mapped)] at first
    refine head fe (listed k fe mapped) ?_
    cases here : prevOf s.inode.list fe with
    | none => rfl
    | some prev =>
      rw [here] at first
      cases first
  · exact fun k fe mapped => free fe (listed k fe mapped)

/-! ## One removal -/

/-- Giving an entry back and taking it off the list, in this order. -/
theorem listDel_filentFree_eq {l l' : Links} (del : listDel (filentFree l fe) fe = some l') :
    l.freeList ≠ .bad ∧ l'.freeList = .entry fe ∧
    ∀ g, g ≠ fe → (l'.next (.entry g) = l.next (.entry g) ∨ l'.next (.entry g) = l.freeList) ∧
      (l.freeList ≠ .entry g → l'.prev (.entry g) = l.prev (.entry g)) := by
  unfold listDel filentFree at del
  simp only [update_self] at del
  split at del <;> rename_i lost
  · cases del
  obtain rfl := (some.inj del).symm
  push Not at lost
  refine ⟨lost.1, rfl, fun g other => ⟨?_, fun free => ?_⟩⟩
  · have apart : Link.entry g ≠ .entry fe := fun same => other (Link.entry.inj same)
    simp only [update_of_ne apart, update_apply]
    split
    · exact .inr rfl
    · exact .inl rfl
  · have apart : Link.entry g ≠ .entry fe := fun same => other (Link.entry.inj same)
    simp only [update_of_ne apart, update_of_ne free.symm]

theorem LinkedFile.fileRemoveEntry_cases (call : s.fileRemoveEntry fe = some s') :
    s.links.freeList ≠ .bad ∧ s'.links.freeList = .entry fe ∧ s'.inode.logHead = s.inode.logHead ∧
    ∀ g, g ≠ fe → (s'.links.next (.entry g) = s.links.next (.entry g) ∨
        s'.links.next (.entry g) = s.links.freeList) ∧
      (s.links.freeList ≠ .entry g → s'.links.prev (.entry g) = s.links.prev (.entry g)) := by
  obtain ⟨_, _, call⟩ := bind_eq_some_iff.mp call
  obtain ⟨⟨_, _⟩, _, call⟩ := bind_eq_some_iff.mp call
  obtain ⟨⟨_, _⟩, _, call⟩ := bind_eq_some_iff.mp call
  obtain ⟨links, del, rfl⟩ := map_eq_some_iff.mp call
  obtain ⟨free, first, others⟩ := listDel_filentFree_eq del
  exact ⟨free, first, rfl, others⟩

theorem LinkedFile.Joined.removes (h : s.Joined) (ok : s.inode.Mapped) (free : s.links.freeList ≠ .bad)
    (mapped : btreeGet s.inode.bRoot k = some fe) : ∃ s', s.fileRemoveEntry fe = some s' := by
  have next := h.next k fe mapped
  have prev := h.prev k fe mapped
  obtain ⟨slot, behind⟩ : ∃ slot, s.nextSlot fe = some slot := by
    unfold nextSlot
    cases there : s.links.next (.entry fe) with
    | head => exact ⟨_, rfl⟩
    | entry g => exact ⟨_, rfl⟩
    | bad => exact absurd there next
  obtain ⟨⟨table, head⟩, relinked⟩ : ∃ out, s.relink fe slot = some out := by
    unfold relink
    split <;> rename_i own
    · exact ⟨_, rfl⟩
    cases there : s.links.prev (.entry fe) with
    | head => exact absurd (h.first k fe mapped there) own
    | entry g => exact ⟨_, rfl⟩
    | bad => exact absurd there prev
  obtain ⟨_, shape⟩ := ok.tree
  obtain ⟨r, tree, erased, _⟩ := shape.erase_range (ok.low k fe mapped)
  have del : ∃ links, listDel (filentFree s.links fe) fe = some links := by
    simp [listDel, filentFree, free, prev]
  obtain ⟨links, del⟩ := del
  simp only [fileRemoveEntry, behind, relinked, erased, del, bind_some, map_some]
  exact ⟨_, rfl⟩

/-- What is left of the index behind a removal. -/
theorem LinkedFile.fileRemoveEntry_mapped (ok : s.inode.Mapped)
    (mapped : btreeGet s.inode.bRoot p = some fe) (call : s.fileRemoveEntry fe = some s') :
    s'.inode.Mapped ∧ s'.inode.fents = s.inode.fents ∧
    (∀ k, p + (s.inode.fents fe).blocks ≤ k → btreeGet s'.inode.bRoot k = btreeGet s.inode.bRoot k) ∧
    ∀ k g, btreeGet s'.inode.bRoot k = some g → btreeGet s.inode.bRoot k = some g ∧ g ≠ fe := by
  obtain ⟨tree, get, fents, _⟩ := s.fileRemoveEntry_index ok.tree (ok.low p fe mapped) call
  have left (k g : Nat) (here : btreeGet s'.inode.bRoot k = some g) :
      btreeGet s.inode.bRoot k = some g ∧ g ≠ fe := by
    rw [get, without] at here
    split at here <;> rename_i outside
    · cases here
    · refine ⟨here, fun same => outside ?_⟩
      rw [← same]
      exact ok.covers k g here
  refine ⟨⟨tree, fun k g here => ?_, fun k g here => ?_⟩, fents, fun k far => ?_, left⟩
  · rw [fents]
    exact ok.covers k g (left k g here).1
  · rw [fents]
    exact ok.low k g (left k g here).1
  have covers := ok.covers p fe mapped
  rw [get, without, if_neg]
  unfold Filent.Covers at covers
  omega

theorem LinkedFile.Joined.keep (h : s.Joined) (ok : s.inode.Mapped)
    (mapped : btreeGet s.inode.bRoot p = some fe) (call : s.fileRemoveEntry fe = some s') : s'.Joined := by
  obtain ⟨_, fents, _, left⟩ := fileRemoveEntry_mapped ok mapped call
  obtain ⟨free, first, head, others⟩ := fileRemoveEntry_cases call
  constructor
  · intro k g here
    obtain ⟨before, other⟩ := left k g here
    rcases (others g other).1 with same | free'
    · rw [same]
      exact h.next k g before
    · rw [free']
      exact free
  · intro k g here
    obtain ⟨before, other⟩ := left k g here
    rw [(others g other).2 (h.free k g before)]
    exact h.prev k g before
  · intro k g here
    obtain ⟨before, other⟩ := left k g here
    rw [(others g other).2 (h.free k g before), head, fents]
    exact h.first k g before
  intro k g here
  obtain ⟨before, other⟩ := left k g here
  rw [first]
  exact fun same => other (Link.entry.inj same).symm

/-! ## The turns -/

theorem Inode.Mapped.next_eq {inode : Inode} (ok : inode.Mapped) (mapped : btreeGet inode.bRoot p = some fe) :
    wrap64 (p + (inode.fents fe).blocks) = p + (inode.fents fe).blocks := by
  have low := ok.low p fe mapped
  have covers := ok.covers p fe mapped
  unfold Filent.Covers at covers
  exact wrap64_of_lt (by omega)

theorem shrinkTurn_stop (turn : shrinkTurn stop now = .stop t) :
    stop ≤ now.1 ∨ ∃ fe, btreeGet now.2.inode.bRoot now.1 = some fe ∧
      stop < wrap64 (now.1 + (now.2.inode.fents fe).blocks) := by
  unfold shrinkTurn at turn
  split at turn <;> rename_i more
  · split at turn
    · cases turn
    next fe mapped =>
    dsimp only at turn
    split at turn <;> rename_i beyond
    · exact .inr ⟨fe, mapped, beyond⟩
    · split at turn <;> cases turn
  · exact .inl (not_lt.mp more)

theorem shrinkTurn_again (turn : shrinkTurn stop now = .again t) :
    t = now ∨ ∃ fe, btreeGet now.2.inode.bRoot now.1 = some fe ∧
      wrap64 (now.1 + (now.2.inode.fents fe).blocks) ≤ stop ∧
      t.1 = wrap64 (now.1 + (now.2.inode.fents fe).blocks) ∧ now.2.fileRemoveEntry fe = some t.2 := by
  unfold shrinkTurn at turn
  split at turn
  · split at turn
    · cases turn
      exact .inl rfl
    next fe mapped =>
    dsimp only at turn
    split at turn <;> rename_i beyond
    · cases turn
    split at turn
    · cases turn
    · next s remove =>
      cases turn
      exact .inr ⟨fe, mapped, not_lt.mp beyond, rfl, remove⟩
  · cases turn

theorem Stairs.congr {m m' : Nat → Option Nat} {fents : Nat → Filent} (h : Stairs m fents stop p)
    (same : ∀ k, p ≤ k → m' k = m k) : Stairs m' fents stop p := by
  induction h with
  | past past => exact .past past
  | beyond mapped beyond => exact .beyond ((same _ le_rfl).trans mapped) beyond
  | next mapped inside _ ih =>
    exact .next ((same _ le_rfl).trans mapped) inside (ih fun k far => same k (by omega))

/-- What the loop needs of the state it starts from. -/
def LinkedFile.CutEnds (s : LinkedFile) (stop p : Nat) : Prop :=
  Stairs (btreeGet s.inode.bRoot) s.inode.fents stop p ∧
  (Removes (btreeGet s.inode.bRoot) s.inode.fents stop p → s.links.freeList ≠ .bad)

theorem cutEnds_of_halts (halts : Halts (shrinkTurn stop) now t) (ok : now.2.inode.Mapped) :
    now.2.CutEnds stop now.1 := by
  induction halts with
  | @stop now t last =>
    rcases shrinkTurn_stop last with past | ⟨fe, mapped, beyond⟩
    · exact ⟨.past past, fun removes => absurd removes.1 (not_lt.mpr past)⟩
    rw [ok.next_eq mapped] at beyond
    refine ⟨.beyond mapped beyond, ?_⟩
    rintro ⟨_, fe', mapped', inside⟩
    obtain rfl := some.inj (mapped.symm.trans mapped')
    omega
  | @again now s1 t first _ ih =>
    rcases shrinkTurn_again first with same | ⟨fe, mapped, inside, pos, remove⟩
    · rw [← same]
      exact ih (same ▸ ok)
    rw [ok.next_eq mapped] at inside pos
    obtain ⟨ok1, fents, ahead, _⟩ := fileRemoveEntry_mapped ok mapped remove
    have rest := (ih ok1).1
    rw [pos, fents] at rest
    exact ⟨.next mapped inside (rest.congr fun k far => (ahead k far).symm),
      fun _ => (fileRemoveEntry_cases remove).1⟩

theorem shrinkLoop_stops (ok : s.inode.Mapped) {fuel : Nat}
    (stops : stop ≤ p ∨ ∃ fe, btreeGet s.inode.bRoot p = some fe ∧ stop < p + (s.inode.fents fe).blocks) :
    shrinkLoop stop (fuel + 1) p s = some s := by
  by_cases more : p < stop
  · obtain ⟨fe, mapped, beyond⟩ := stops.resolve_left (not_le.mpr more)
    simp only [shrinkLoop, if_pos more, mapped, ok.next_eq mapped, if_pos beyond]
  · rw [shrinkLoop, if_neg more]

/-- Every turn goes on by a block at least. -/
theorem Stairs.shrinkLoop {m : Nat → Option Nat} {fents : Nat → Filent} (h : Stairs m fents stop p)
    {fuel : Nat} (ok : s.inode.Mapped) (joined : s.Joined) (free : s.links.freeList ≠ .bad)
    (same : s.inode.fents = fents) (ahead : ∀ k, p ≤ k → btreeGet s.inode.bRoot k = m k)
    (enough : stop - p < fuel) : ∃ s', SlotFs.shrinkLoop stop fuel p s = some s' := by
  induction h generalizing s fuel with
  | @past p past =>
    obtain ⟨fuel, rfl⟩ : ∃ n, fuel = n + 1 := ⟨fuel - 1, by omega⟩
    exact ⟨s, shrinkLoop_stops ok (.inl past)⟩
  | @beyond p fe mapped beyond =>
    obtain ⟨fuel, rfl⟩ : ∃ n, fuel = n + 1 := ⟨fuel - 1, by omega⟩
    rw [← ahead p le_rfl] at mapped
    subst same
    exact ⟨s, shrinkLoop_stops ok (.inr ⟨fe, mapped, beyond⟩)⟩
  | @next p fe mapped inside _ ih =>
    obtain ⟨fuel, rfl⟩ : ∃ n, fuel = n + 1 := ⟨fuel - 1, by omega⟩
    rw [← ahead p le_rfl] at mapped
    subst same
    have covers := ok.covers p fe mapped
    unfold Filent.Covers at covers
    obtain ⟨s1, remove⟩ := joined.removes ok free mapped
    obtain ⟨ok1, fents, ahead1, _⟩ := fileRemoveEntry_mapped ok mapped remove
    have free1 : s1.links.freeList ≠ .bad := by
      rw [(fileRemoveEntry_cases remove).2.1]
      exact Link.noConfusion
    obtain ⟨s', rest⟩ := @ih s1 fuel ok1 (joined.keep ok mapped remove) free1 fents
      (fun k far => (ahead1 k far).trans (ahead k (by omega))) (by omega)
    refine ⟨s', ?_⟩
    simp only [SlotFs.shrinkLoop, if_pos (show p < stop by omega), mapped, ok.next_eq mapped,
      if_neg (not_lt.mpr inside), remove, bind_some, rest]

theorem LinkedFile.CutEnds.shrinkLoop (h : s.CutEnds stop p) (ok : s.inode.Mapped) (joined : s.Joined) :
    ∃ s', SlotFs.shrinkLoop stop (stop - p + 1) p s = some s' := by
  by_cases free : s.links.freeList = .bad
  · have none := fun removes => h.2 removes free
    refine ⟨s, shrinkLoop_stops ok ?_⟩
    cases h.1 with
    | past past => exact .inl past
    | beyond mapped beyond => exact .inr ⟨_, mapped, beyond⟩
    | next mapped inside _ => exact .inl (not_lt.mp fun more => none ⟨more, _, mapped, inside⟩)
  · exact h.1.shrinkLoop ok joined free rfl (fun _ _ => rfl) (Nat.lt_succ_self _)

end

/-- The loop of `inode_shrink` ends where it comes to mapped blocks only, and the arena has a free
entry if one is removed. -/
theorem shrink_ends_iff {s : LinkedFile} (ok : s.inode.Mapped) (joined : s.Joined) (newSize : Nat) :
    ((∃ t, Halts (shrinkTurn (sizeBlocks s.inode.iSize)) (sizeBlocks newSize, s) t) ↔
      s.CutEnds (sizeBlocks s.inode.iSize) (sizeBlocks newSize)) ∧
    ((inodeShrink s newSize).isSome ↔ s.CutEnds (sizeBlocks s.inode.iSize) (sizeBlocks newSize)) := by
  constructor
  · constructor
    · rintro ⟨t, halts⟩
      exact cutEnds_of_halts halts ok
    intro ends
    obtain ⟨s', loop⟩ := ends.shrinkLoop ok joined
    obtain ⟨p, halts⟩ := shrinkLoop_halts loop
    exact ⟨(p, s'), halts⟩
  rw [inodeShrink, isSome_map, isSome_iff_exists]
  constructor
  · rintro ⟨s', loop⟩
    obtain ⟨p, halts⟩ := shrinkLoop_halts loop
    exact cutEnds_of_halts halts ok
  intro ends
  have started : CutEnds { s with sbi := { s.sbi with
      low := journalTruncate s.sbi.low (journalAlloc s.sbi.jnlMgr).1 s.inode.iNo newSize
      jnlMgr := (journalAlloc s.sbi.jnlMgr).2 } } (sizeBlocks s.inode.iSize) (sizeBlocks newSize) := ends
  exact started.shrinkLoop ok ⟨joined.next, joined.prev, joined.first, joined.free⟩

theorem threeEntries_value {k fe : Nat} (mapped : btreeGet threeEntries.inode.bRoot k = some fe) :
    fe = k ∧ k < 3 := by
  rw [threeEntries, tiledFile_get] at mapped
  split at mapped <;> rename_i inside
  · exact ⟨by rw [← some.inj mapped, Nat.div_one], inside⟩
  · cases mapped

theorem threeEntries_mapped : threeEntries.inode.Mapped := by
  refine ⟨threeEntries_shape, fun k fe mapped => ?_, threeEntries_low⟩
  obtain ⟨rfl, inside⟩ := threeEntries_value mapped
  interval_cases fe <;> exact ⟨by decide, by decide⟩

theorem threeEntries_joined : threeEntries.Joined := by
  refine .of_ring ⟨fun _ _ => rfl, fun _ _ => rfl⟩ ?_ ?_ ?_
  · intro k fe mapped
    obtain ⟨rfl, inside⟩ := threeEntries_value mapped
    interval_cases fe <;> decide
  · decide
  · decide

/-- Two of three entries are cut off. -/
theorem shrink_ends_iff_entries :
    (∃ t, Halts (shrinkTurn (sizeBlocks threeEntries.inode.iSize)) (sizeBlocks 4096, threeEntries) t) ∧
    (inodeShrink threeEntries 4096).isSome := by
  obtain ⟨loop, call⟩ := shrink_ends_iff threeEntries_mapped threeEntries_joined 4096
  have ends : threeEntries.CutEnds (sizeBlocks threeEntries.inode.iSize) (sizeBlocks 4096) := by
    refine ⟨?_, fun _ => Link.noConfusion⟩
    have one : btreeGet threeEntries.inode.bRoot 1 = some 1 := by decide
    have two : btreeGet threeEntries.inode.bRoot 2 = some 2 := by decide
    exact .next one (by decide) (.next two (by decide) (.past (by decide)))
  exact ⟨loop.mpr ends, call.mpr ends⟩

/-- One byte has been written into the second block of a new file. No block in front of it is
mapped, and cutting the file off does not end, whatever the links. -/
theorem shrink_hangs_at_hole : ∃ inode sbi,
    written (blankSbi 64 0#8) (fun _ => 1#8) [(1, 4096)] = some (inode, sbi) ∧ inode.iSize = 4097 ∧
    ∀ pmLogHead links, ¬ ∃ t, Halts (shrinkTurn (sizeBlocks inode.iSize))
      (sizeBlocks 0, ⟨sbi, inode, pmLogHead, links⟩) t := by
  have run : (written (blankSbi 64 0#8) (fun _ => 1#8) [(1, 4096)]).map
      (fun out => (out.1.iSize, btreeGet out.1.bRoot 0)) = some (4097, none) := by
    decide +kernel
  obtain ⟨⟨inode, sbi⟩, call, eq⟩ := map_eq_some_iff.mp run
  simp only [Prod.mk.injEq] at eq
  obtain ⟨size, hole⟩ := eq
  refine ⟨inode, sbi, call, size, ?_⟩
  rintro pmLogHead links ⟨t, halts⟩
  have first : sizeBlocks 0 = 0 := by decide
  have more : 0 < sizeBlocks inode.iSize := by
    rw [size]
    decide
  refine not_halts_of_same ?_ halts
  simp only [shrinkTurn, first, if_pos more, hole]

end SlotFs
