import SlotFs.LogChain
import SlotFs.Resize

/-!
# Removing entries from the log of a file

`file_remove_entry` gives an entry back to its arena before it takes it off the list, and
`arena_free` writes to the word that `list_del` then follows. The front of the list is led to
the free list of the arena, and no later removal leads it back.
-/

namespace SlotFs
open CWord Chains Function List Option LinkedFile

/-- The calls of `file_remove_entry`, one after the other. -/
def LinkedFile.removeEntries : List Nat → LinkedFile → Option LinkedFile
  | [], s => some s
  | fe :: rest, s => (s.fileRemoveEntry fe).bind (removeEntries rest)

/-- The list, the chain in PM and the two heads agree. -/
structure LinkedFile.Intact (s : LinkedFile) : Prop where
  head : s.inode.logHead = s.pmLogHead
  chain : Chain s.sbi.storage.next s.inode.ghostSlot s.pmLogHead s.inode.slots
  forward : Chain s.links.next .head (s.links.next .head) (s.inode.list.map .entry)
  backward : Chain s.links.prev .head (s.links.prev .head) (s.inode.list.reverse.map .entry)

/-- What is on the free list of the arena is not on the list. -/
def LinkedFile.FreeApart (s : LinkedFile) : Prop := s.links.freeList ∉ Link.head :: s.inode.list.map .entry

/-- Only the front of the list is linked up; from its last entry a link leads to `stop`. -/
structure LinkedFile.Torn (s : LinkedFile) (front back : List Nat) (stop : Link) : Prop where
  list : s.inode.list = front ++ back
  once : s.inode.list.Nodup
  forward : Chain s.links.next stop (s.links.next .head) (front.map .entry)
  backward : ∀ before fe after, front = before ++ fe :: after →
    (Link.head :: before.map .entry).getLast? = some (s.links.prev (.entry fe))
  behind : ∀ fe ∈ back, s.links.prev (.entry fe) ∉ Link.head :: front.map .entry
  outside : stop ∉ s.inode.list.map .entry
  torn : stop = .head → back = []
  free : s.FreeApart

section
variable {s s' : LinkedFile} {front back : List Nat} {stop : Link} {fe : Nat}

theorem mem_entries_iff {list : List Nat} : Link.entry fe ∈ list.map Link.entry ↔ fe ∈ list :=
  mem_map_of_injective fun _ _ eq => Link.entry.inj eq

theorem entries_nodup {list : List Nat} (once : list.Nodup) : (Link.head :: list.map .entry).Nodup := by
  refine nodup_cons.mpr ⟨?_, once.map fun _ _ eq => Link.entry.inj eq⟩
  intro mem
  obtain ⟨_, _, eq⟩ := mem_map.mp mem
  cases eq

theorem LinkedFile.Intact.torn (intact : s.Intact) (free : s.FreeApart) : s.Torn s.inode.list [] .head := by
  have once : s.inode.list.Nodup := intact.forward.nodup.of_map _
  refine ⟨(append_nil _).symm, once, intact.forward, ?_, by simp, (nodup_cons.mp (entries_nodup once)).1,
    fun _ => rfl, free⟩
  intro before fe after eq
  have chain := intact.backward
  rw [eq, reverse_append, reverse_cons, append_assoc, singleton_append, map_append,
    map_cons] at chain
  rw [chain.next_eq, map_reverse, List.head?_reverse, List.getLast?_cons]

/-- What a removal leaves of the links. -/
structure LinkedFile.Removed (s : LinkedFile) (fe : Nat) (s' : LinkedFile) : Prop where
  list : s'.inode.list = s.inode.list.erase fe
  next : ∀ x ≠ .entry fe, s'.links.next x =
    if x = s.links.prev (.entry fe) then s.links.freeList else s.links.next x
  prev : ∀ x ≠ .entry fe, x ≠ s.links.freeList → s'.links.prev x = s.links.prev x
  free : s'.links.freeList = .entry fe

theorem LinkedFile.fileRemoveEntry_removed (call : s.fileRemoveEntry fe = some s') : s.Removed fe s' := by
  obtain ⟨_, _, call⟩ := bind_eq_some_iff.mp call
  obtain ⟨_, _, call⟩ := bind_eq_some_iff.mp call
  obtain ⟨_, _, call⟩ := bind_eq_some_iff.mp call
  obtain ⟨links, del, eq⟩ := map_eq_some_iff.mp call
  unfold listDel filentFree at del
  dsimp only at del
  split at del
  · cases del
  cases del
  cases eq
  refine ⟨rfl, fun x other => ?_, fun x other apart => ?_, rfl⟩
  · dsimp only
    rw [update_of_ne other, update_self]
    by_cases here : x = s.links.prev (.entry fe)
    · rw [if_pos here, here, update_self]
    · rw [if_neg here, update_of_ne here, update_of_ne other]
  · dsimp only
    rw [update_of_ne other, update_self, update_of_ne apart]

section
variable (removed : s.Removed fe s')
include removed

theorem LinkedFile.Removed.prev_eq (free : s.FreeApart) {x : Nat} (member : x ∈ s.inode.list) (other : x ≠ fe) :
    s'.links.prev (.entry x) = s.links.prev (.entry x) := by
  refine removed.prev _ (fun eq => other (Link.entry.inj eq)) fun eq => free ?_
  rw [← eq]
  exact mem_cons_of_mem _ (mem_entries_iff.mpr member)

theorem LinkedFile.Removed.free_apart (once : s.inode.list.Nodup) : s'.FreeApart := by
  rw [FreeApart, removed.free, removed.list, mem_cons, mem_entries_iff]
  rintro (eq | member)
  · cases eq
  · exact once.not_mem_erase member

theorem LinkedFile.Removed.subset {x : Link} (outside : x ∉ s.inode.list.map .entry) :
    x ∉ s'.inode.list.map .entry := by
  rw [removed.list]
  exact fun member => outside (map_subset _ erase_subset member)

end

/-- The removal of an entry of the front cuts the list there. -/
theorem LinkedFile.Torn.remove_front {after : List Nat} (torn : s.Torn (front ++ fe :: after) back stop)
    (removed : s.Removed fe s') : s'.Torn front (after ++ back) s.links.freeList := by
  have last := torn.backward front fe after rfl
  have once := torn.once
  rw [torn.list, append_assoc, cons_append] at once
  have apart : fe ∉ front := fun member => disjoint_of_nodup_append once member (mem_cons_self ..)
  have apart' : .entry fe ∉ Link.head :: front.map .entry := by
    rw [mem_cons, mem_entries_iff]
    rintro (eq | member)
    · cases eq
    · exact apart member
  have inFront : ∀ x ∈ front, x ∈ s.inode.list ∧ x ≠ fe := fun x member =>
    ⟨by rw [torn.list]; simp [member], fun eq => apart (eq ▸ member)⟩
  have inBack : ∀ x ∈ after ++ back, x ∈ s.inode.list ∧ x ≠ fe := fun x member =>
    ⟨by rw [torn.list, append_assoc, cons_append]; simp [member], fun eq =>
      (nodup_cons.mp once.of_append_right).1 (eq ▸ member)⟩
  refine ⟨?_, ?_, ?_, ?_, ?_, ?_, ?_, removed.free_apart torn.once⟩
  · rw [removed.list, torn.list, append_assoc, erase_append_right _ apart, cons_append,
      erase_cons_head]
  · rw [removed.list]
    exact torn.once.erase fe
  · have chain := torn.forward
    rw [map_append] at chain
    refine chain.cut (entries_nodup once.of_append_left) ?_ ?_ ?_
    · intro member
      refine torn.free (mem_cons_of_mem _ ?_)
      rw [torn.list, append_assoc, map_append]
      exact mem_append_left _ member
    · intro a member other
      rw [removed.next a fun eq => apart' (eq ▸ member), if_neg]
      rintro rfl
      exact other last.symm
    · intro a eq
      obtain rfl := some.inj (last.symm.trans eq)
      rw [removed.next _ fun eq => apart' (eq ▸ mem_of_getLast? last), if_pos rfl]
  · rintro before x later rfl
    rw [removed.prev_eq torn.free (inFront x (by simp)).1 (inFront x (by simp)).2]
    exact torn.backward before x (later ++ fe :: after) (by simp)
  · intro x member
    rw [removed.prev_eq torn.free (inBack x member).1 (inBack x member).2]
    rcases mem_append.mp member with member | member
    · obtain ⟨before, later, rfl⟩ := append_of_mem member
      have link := torn.backward (front ++ fe :: before) x later (by simp)
      have last : ((fe :: before).map Link.entry).getLast? = some (s.links.prev (.entry x)) := by
        rw [← link, map_append, ← cons_append, List.getLast?_append]
        simp [List.getLast?_cons]
      obtain ⟨y, near, eq⟩ := mem_map.mp (mem_of_getLast? last)
      rw [← eq, mem_cons, mem_entries_iff]
      rintro (eq | far)
      · cases eq
      refine disjoint_of_nodup_append once far ?_
      rcases mem_cons.mp near with rfl | near
      · exact mem_cons_self ..
      · simp [near]
    · intro inside
      refine torn.behind x member ?_
      rw [map_append]
      rcases mem_cons.mp inside with eq | inside
      · exact mem_cons.mpr (.inl eq)
      · exact mem_cons_of_mem _ (mem_append_left _ inside)
  · exact removed.subset fun member => torn.free (mem_cons_of_mem _ member)
  · exact fun eq => absurd (eq ▸ mem_cons_self ..) torn.free

section
variable (torn : s.Torn front back stop)
include torn

/-- The removal of an entry behind it leaves the front as it is. -/
theorem LinkedFile.Torn.remove_back (member : fe ∈ back) (removed : s.Removed fe s') :
    s'.Torn front (back.erase fe) stop := by
  have once := torn.once
  rw [torn.list] at once
  have apart : fe ∉ front := fun inFront => disjoint_of_nodup_append once inFront member
  have behind := torn.behind fe member
  have next : ∀ x ∈ Link.head :: front.map .entry, s'.links.next x = s.links.next x := by
    intro x inside
    have other : x ≠ .entry fe := by
      rintro rfl
      rcases mem_cons.mp inside with eq | inFront
      · cases eq
      · exact apart (mem_entries_iff.mp inFront)
    rw [removed.next x other, if_neg]
    rintro rfl
    exact behind inside
  have prev : ∀ x ∈ front ++ back, x ≠ fe → s'.links.prev (.entry x) = s.links.prev (.entry x) :=
    fun x member other => removed.prev_eq torn.free (torn.list ▸ member) other
  refine ⟨?_, ?_, ?_, ?_, ?_, removed.subset torn.outside, ?_, removed.free_apart torn.once⟩
  · rw [removed.list, torn.list, erase_append_right _ apart]
  · rw [removed.list]
    exact torn.once.erase fe
  · rw [next .head (mem_cons_self ..)]
    exact torn.forward.congr fun x inside => next x (mem_cons_of_mem _ inside)
  · rintro before x later rfl
    rw [prev x (by simp) fun eq => apart (by simp [eq])]
    exact torn.backward before x later rfl
  · intro x inside
    rw [prev x (mem_append_right _ (mem_of_mem_erase inside)) fun eq => by
      subst eq
      exact (once.of_append_right).not_mem_erase inside]
    exact torn.behind x (mem_of_mem_erase inside)
  · intro eq
    rw [torn.torn eq] at member
    cases member

/-- After a removal the front ends outside of the list. -/
theorem LinkedFile.Torn.remove (member : fe ∈ s.inode.list) (call : s.fileRemoveEntry fe = some s') :
    ∃ front' back' stop', s'.Torn front' back' stop' ∧ stop' ≠ .head := by
  have removed := fileRemoveEntry_removed call
  rw [torn.list] at member
  rcases mem_append.mp member with near | far
  · obtain ⟨before, after, rfl⟩ := append_of_mem near
    exact ⟨before, after ++ back, _, torn.remove_front removed, fun eq => torn.free (eq ▸ mem_cons_self ..)⟩
  · refine ⟨front, back.erase fe, stop, torn.remove_back far removed, fun eq => ?_⟩
    rw [torn.torn eq] at far
    cases far

theorem LinkedFile.Torn.removeEntries {fes : List Nat} (some_ : stop = .head → fes ≠ []) (once : fes.Nodup)
    (members : ∀ fe ∈ fes, fe ∈ s.inode.list) (call : removeEntries fes s = some s') :
    ∃ front' back' stop', s'.Torn front' back' stop' ∧ stop' ≠ .head := by
  induction fes generalizing s front back stop with
  | nil =>
    cases call
    exact ⟨front, back, stop, torn, fun eq => some_ eq rfl⟩
  | cons fe rest ih =>
    obtain ⟨s1, remove, call⟩ := bind_eq_some_iff.mp call
    obtain ⟨first, once⟩ := nodup_cons.mp once
    obtain ⟨front', back', stop', torn', broken'⟩ := torn.remove (members fe (mem_cons_self ..)) remove
    refine ih torn' (fun eq => absurd eq broken') once (fun x member => ?_) call
    rw [(fileRemoveEntry_removed remove).list]
    refine (mem_erase_of_ne ?_).mpr (members x (mem_cons_of_mem _ member))
    rintro rfl
    exact first member

theorem LinkedFile.Torn.not_intact (broken : stop ≠ .head) : ¬ s.Intact := by
  intro intact
  have chain := intact.forward
  rw [torn.list, map_append] at chain
  have rest := torn.forward.strip chain
  cases eq : back.map Link.entry with
  | nil =>
    rw [eq] at rest
    exact broken rest.nil
  | cons x later =>
    rw [eq] at rest
    refine torn.outside ?_
    rw [torn.list, map_append, eq, rest.tail.1]
    exact mem_append_right _ (mem_cons_self ..)

end

/-- The log stays intact exactly when nothing is removed. -/
theorem removals_keep_log {fes : List Nat} (intact : s.Intact) (free : s.FreeApart) (once : fes.Nodup)
    (members : ∀ fe ∈ fes, fe ∈ s.inode.list) :
    (∃ s', removeEntries fes s = some s' ∧ s'.Intact) ↔ fes = [] := by
  constructor
  · rintro ⟨s', call, intact'⟩
    by_contra more
    obtain ⟨front, back, stop, torn, broken⟩ := (intact.torn free).removeEntries (fun _ => more) once members call
    exact torn.not_intact broken intact'
  · rintro rfl
    exact ⟨s, rfl, intact⟩

end
/-! ## A file of two entries -/

/-- Slots 1 and 2 are on the chain, slot 3 is the ghost slot, and entry 2 of the arena is free. -/
def twoEntries : LinkedFile where
  sbi :=
    let sbi := blankSbi 64 0#8
    { sbi with storage := { sbi.storage with
        fentTable := fun slot => { PmFilent.zero with next := if slot < 3 then slot + 1 else 0 } } }
  inode := tiledFile 2 1
  pmLogHead := 1
  links := .ofList [0, 1] 2

theorem twoEntries_intact : twoEntries.Intact where
  head := rfl
  chain := .step (by decide) (.step (by decide) .done)
  forward := .step (by decide) (.step (by decide) .done)
  backward := .step (by decide) (.step (by decide) .done)

theorem twoEntries_free : twoEntries.FreeApart := by
  unfold FreeApart
  decide

theorem removals_keep_log_last : twoEntries.Intact ∧
    ¬ ∃ s', removeEntries [1] twoEntries = some s' ∧ s'.Intact := by
  refine ⟨twoEntries_intact, fun keeps => ?_⟩
  cases (removals_keep_log twoEntries_intact twoEntries_free (by decide) (by decide)).mp keeps

/-- The first entry is removed: `log_head` stays behind its twin in PM, and the list begins with an
entry that is free. -/
theorem removal_breaks_log : twoEntries.Intact ∧ 0 ∈ twoEntries.inode.list ∧
    ¬ ∃ s', removeEntries [0] twoEntries = some s' ∧ s'.Intact := by
  refine ⟨twoEntries_intact, by decide, ?_⟩
  rintro ⟨s', call, intact⟩
  have heads : (removeEntries [0] twoEntries).map (fun s => (s.inode.logHead, s.pmLogHead)) =
      some (1, 2) := by decide +kernel
  rw [call, map_some, some.injEq, Prod.mk.injEq] at heads
  have := intact.head
  omega

end SlotFs
