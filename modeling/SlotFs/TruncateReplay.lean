import SlotFs.Resize
import SlotFs.ScatterLog

/-!
# Replaying a truncation

`journal_replay_truncate` of `journal.c`. A crash in `inode_shrink` leaves the record of
`journal_truncate` behind, with some of the entries removed. The handler writes the size
of the record into `i_size` before it calls `inode_resize`, which then has nothing to do.
-/

namespace SlotFs
open CWord Option

/-- The record's inode is `inode`, as `iget` gives it. -/
def journalReplayTruncate (env : Env) (ts : Nat) (pmLogHead : Int) (links : Links) (sbi : Sbi)
    (inode : Inode) (size : Nat) : Option (Int × Inode × Sbi) :=
  inodeResize env ts pmLogHead links sbi { inode with iSize := size } size

theorem journalReplayTruncate_eq (env : Env) (ts : Nat) (pmLogHead : Int) (links : Links) (sbi : Sbi)
    (inode : Inode) (size : Nat) : journalReplayTruncate env ts pmLogHead links sbi inode size =
      some (0, { inode with iSize := size }, sbi) := by
  rw [journalReplayTruncate, inodeResize, if_pos rfl]

/-! ## The turns before the crash -/

/-- Every extent of the index ends in front of the last key. -/
def Inode.Low (inode : Inode) : Prop :=
  ∀ k fe, btreeGet inode.bRoot k = some fe → (inode.fents fe).lIdx + (inode.fents fe).blocks < 256 ^ 7

theorem ShrinkTurns.mapped_iff {endBlk startBlk : Nat} {s s' : LinkedFile} {gone : List Nat}
    (turns : ShrinkTurns endBlk startBlk s gone s') (shape : ∃ base, Shape s.inode.bRoot base)
    (low : s.inode.Low) (k : Nat) : (filentLookup s'.inode k).isSome ↔
      (filentLookup s.inode k).isSome ∧ ∀ fe ∈ gone, ¬ (s.inode.fents fe).Covers k := by
  induction turns with
  | crash => simp
  | @turn startBlk fe gone s s1 s' more found fits remove rest ih =>
    obtain ⟨shape1, get, fents, _⟩ := s.fileRemoveEntry_index shape (low _ _ found) remove
    have low1 : s1.inode.Low := by
      intro j o mapped
      rw [get, without] at mapped
      split at mapped
      · cases mapped
      · rw [fents]
        exact low j o mapped
    have first : (filentLookup s1.inode k).isSome ↔
        (filentLookup s.inode k).isSome ∧ ¬ (s.inode.fents fe).Covers k := by
      rw [filentLookup, get, without, fents, filentLookup, Filent.Covers]
      split <;> simp [*]
    rw [ih shape1 low1, first, fents, List.forall_mem_cons, and_assoc]

/-! ## After the replay -/

/-- Blocks behind the cut stay mapped after the replay where their entry was not removed
before the crash. -/
theorem truncate_replay_iff {env : Env} {ts newSize : Nat} {pmLogHead : Int} {links : Links} {sbi : Sbi}
    {s s' : LinkedFile} {gone : List Nat} {inode : Inode} (shape : ∃ base, Shape s.inode.bRoot base)
    (low : s.inode.Low)
    (turns : ShrinkTurns (sizeBlocks s.inode.iSize) (sizeBlocks newSize) s gone s')
    (recovered : ∀ k, (filentLookup inode k).isSome ↔ (filentLookup s'.inode k).isSome) :
    (∃ ret inode' sbi',
      journalReplayTruncate env ts pmLogHead links sbi inode newSize = some (ret, inode', sbi') ∧
      inode'.iSize = newSize ∧ ∀ k, (newSize + 4095) / 4096 ≤ k → filentLookup inode' k = none) ↔
    ∀ k, (newSize + 4095) / 4096 ≤ k → (filentLookup s.inode k).isSome →
      ∃ fe ∈ gone, (s.inode.fents fe).Covers k := by
  have left (k : Nat) : filentLookup inode k = none ↔
      ((filentLookup s.inode k).isSome → ∃ fe ∈ gone, (s.inode.fents fe).Covers k) := by
    rw [← not_isSome_iff_eq_none, recovered, turns.mapped_iff shape low k]
    push Not
    rfl
  constructor
  · rintro ⟨ret, inode', sbi', replay, _, unmapped⟩ k far
    rw [journalReplayTruncate_eq] at replay
    cases replay
    exact (left k).mp (unmapped k far)
  · intro covered
    exact ⟨0, _, sbi, journalReplayTruncate_eq .., rfl, fun k far => (left k).mpr (covered k far)⟩

/-- Three entries of a block each. -/
def threeEntries : LinkedFile := ⟨blankSbi 64 0#8, tiledFile 3 1, 1, .ofList [0, 1, 2] 3⟩

theorem threeEntries_low : threeEntries.inode.Low := by
  intro k fe mapped
  have inside : k < 3 * 1 := by
    by_contra outside
    rw [threeEntries, tiledFile_get, if_neg outside] at mapped
    cases mapped
  rw [threeEntries, tiledFile_get, if_pos inside] at mapped
  cases mapped
  rw [Nat.div_one]
  interval_cases k <;> decide

theorem threeEntries_shape : ∃ base, Shape threeEntries.inode.bRoot base :=
  ⟨_, tiledFile_shape (by decide)⟩

/-- The last entry is cut off, and the crash comes between its removal and
`journal_commit`. -/
theorem truncate_replay_iff_removed : ∃ s', threeEntries.fileRemoveEntry 2 = some s' ∧
    ∃ ret inode' sbi',
      journalReplayTruncate firstFit 0 1 (.ofList [0, 1] 2) s'.sbi s'.inode 8192 = some (ret, inode', sbi') ∧
      inode'.iSize = 8192 ∧ ∀ k, 2 ≤ k → filentLookup inode' k = none := by
  have run : (threeEntries.fileRemoveEntry 2).isSome := by decide +kernel
  obtain ⟨s', remove⟩ := isSome_iff_exists.mp run
  have turns : ShrinkTurns (sizeBlocks threeEntries.inode.iSize) (sizeBlocks 8192) threeEntries [2] s' :=
    .turn (by decide) (show btreeGet threeEntries.inode.bRoot 2 = some 2 by decide) (by decide) remove .crash
  refine ⟨s', remove, (truncate_replay_iff threeEntries_shape threeEntries_low turns fun k => Iff.rfl).mpr ?_⟩
  intro k far mapped
  refine ⟨2, by decide, far, ?_⟩
  by_contra behind
  rw [threeEntries, tiledFile_end (not_lt.mp behind)] at mapped
  cases mapped

/-- Two entries are cut off, and the crash comes when the first of them has been removed.
The replay leaves the other. -/
theorem truncate_replay_keeps_entry : ∃ s',
    ShrinkTurns (sizeBlocks threeEntries.inode.iSize) (sizeBlocks 4096) threeEntries [1] s' ∧
    ∃ inode' sbi',
      journalReplayTruncate firstFit 0 1 (.ofList [0, 2] 1) s'.sbi s'.inode 4096 = some (0, inode', sbi') ∧
      inode'.iSize = 4096 ∧ (filentLookup inode' 2).isSome := by
  have run : (threeEntries.fileRemoveEntry 1).map (fun s' => (filentLookup s'.inode 2).isSome) =
      some true := by
    decide +kernel
  obtain ⟨s', remove, mapped⟩ := map_eq_some_iff.mp run
  exact ⟨s', .turn (by decide) (show btreeGet threeEntries.inode.bRoot 1 = some 1 by decide) (by decide)
    remove .crash, _, s'.sbi, journalReplayTruncate_eq .., rfl, mapped⟩

end SlotFs
