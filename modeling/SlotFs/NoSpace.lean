import SlotFs.Resize

/-!
# A write without space

`do_slot_alloc_range` reports that it has found nothing by -1 and a count of 0.
`inode_write_atomic` keeps the index in an unsigned variable, so its test for a negative one
never succeeds: it copies to what it takes for a block, enters an extent without blocks, and
asks again.
-/

namespace SlotFs
open CWord Option

/-- The number of free slots. -/
def Maps.clear (b : Maps) : Nat := ∑ i ∈ Finset.range b.num, (b.map i).clear

/-- `slot_data_alloc` searches the maps from the map of some CPU on. -/
def Env.Searches (env : Env) : Prop := ∀ b n, ∃ cpu, env.pick b n = visitMaps (rangeVisit n) b cpu

/-- The blocks that a write has to allocate: none where it goes in place, under the journal or
behind the end of the file. -/
def blocksNeeded (inode : Inode) (len offset : Nat) : Nat :=
  if inode.journals len offset = true ∧ 0 < len ∧ (filentLookup inode (offset / 4096)).isSome then 0
  else if offset = inode.iSize ∧ offset % 4096 ≠ 0 ∧ blockCount len offset = 1 then 0
  else blockCount len offset

/-- The log of a file, in DRAM and in PM. -/
structure SameLog (inode inode' : Inode) (table table' : Int → PmFilent) : Prop where
  head : inode'.logHead = inode.logHead
  ghost : inode'.ghostSlot = inode.ghostSlot
  list : inode'.list = inode.list
  fents : inode'.fents = inode.fents
  entryNum : inode'.entryNum = inode.entryNum
  records : table' = table

/-- The write returns `-ENOSPC` and has changed nothing. -/
structure RefusedCleanly (env : Env) (sbi : Sbi) (inode : Inode) (buf : Mem) (len offset : Nat)
    (inode' : Inode) (sbi' : Sbi) : Prop where
  call : inodeWriteAtomic env sbi inode buf len offset = some (enospc, inode', sbi')
  size : inode'.iSize = inode.iSize
  index : ∀ k, btreeGet inode'.bRoot k = btreeGet inode.bRoot k
  log : SameLog inode inode' sbi.storage.fentTable sbi'.storage.fentTable
  bytes : ∀ x, byteAt sbi'.blocks inode' x = byteAt sbi.blocks inode x
  allocated : ∀ n, sbi'.storage.data.maps.used n = sbi.storage.data.maps.used n

section
variable {env : Env} {sbi sbi' : Sbi} {inode inode' : Inode} {buf : Mem} {len offset fuel : Nat} {b : Maps}
  {w : Write} {ret : Int}

theorem Env.Searches.none (search : env.Searches) (ok : b.Ok) (full : b.clear = 0) (n : Nat) :
    env.pick b n = none := by
  obtain ⟨cpu, eq⟩ := search b n
  rw [eq]
  have idle (i : Nat) (inside : i < b.num) : rangeVisit n (b.map i) = Option.none := by
    have clear : (b.map i).clear = 0 :=
      Finset.sum_eq_zero_iff.mp full i (Finset.mem_range.mpr inside)
    rw [rangeVisit, (ok.exact i inside).remain, clear, if_neg (by decide)]
  rcases visitMaps_cases (rangeVisit n) b cpu ok.pos with ⟨j, a, _, found, _, _⟩ | ⟨nothing, _⟩
  · cases (idle _ (Nat.mod_lt _ ok.pos)).symm.trans found
  · exact nothing

theorem writeExtent_none (buf : Mem) (len offset : Nat)
    (nothing : env.pick w.sbi.storage.data.maps w.numBlk = none) :
    (writeExtent env buf len offset w).sbi.storage = w.sbi.storage ∧
    (writeExtent env buf len offset w).numBlk = sub64 w.numBlk 0 ∧ (writeExtent env buf len offset w).c =
      wrap64 (w.c + if sub64 0 (w.c % 4096) > w.count then w.count else sub64 0 (w.c % 4096)) := by
  simp only [writeExtent, slotDataAlloc, nothing, takeRange, Nat.mul_zero]
  exact ⟨trivial, trivial, rfl⟩

theorem writeLoop_stuck {n : Nat} (nothing : env.pick w.sbi.storage.data.maps n = none) (left : w.numBlk = n)
    (positive : 0 < n) (few : n < 2 ^ 64) (between : w.c % 4096 = 0) :
    writeLoop env buf len offset fuel w = none := by
  induction fuel generalizing w with
  | zero => rfl
  | succ fuel ih =>
    have apart : w.appends = false := by simp [Write.appends, between]
    rw [writeLoop, if_neg (by omega), writeNext, apart, if_neg (by decide)]
    split
    · obtain ⟨storage, numBlk, c⟩ := writeExtent_none buf len offset (left ▸ nothing)
      have room : sub64 0 0 = 0 := by decide
      rw [bind_some]
      have same : sub64 n 0 = n := sub64_of_le (Nat.zero_le n) few
      refine ih (by rw [storage]; exact nothing) (by rw [numBlk, left, same]) ?_
      rw [c, between, room, if_neg (Nat.not_lt_zero _), Nat.add_zero, wrap64]
      omega
    · rfl

/-- For a length that would be returned as `-ENOSPC` the loop does not end. -/
theorem writeLoop_huge (nothing : env.pick sbi.storage.data.maps 1 = none) (huge : len = 2 ^ 64 - 28)
    (one : blockCount len offset = 1) (other : ¬ (offset = inode.iSize ∧ offset % 4096 ≠ 0)) :
    writeLoop env buf len offset fuel ⟨sbi, inode, offset, len, 0, 1, []⟩ = none := by
  cases fuel with
  | zero => rfl
  | succ fuel =>
    have inside : 29 ≤ offset % 4096 := by
      rw [blockCount, wrap64] at one
      omega
    have apart : Write.appends ⟨sbi, inode, offset, len, 0, 1, []⟩ = false := by
      by_cases size : offset = inode.iSize
      · exact absurd ⟨size, by omega⟩ other
      · simp [Write.appends, size]
    obtain ⟨storage, numBlk, c⟩ := @writeExtent_none env ⟨sbi, inode, offset, len, 0, 1, []⟩ buf len offset
      nothing
    have one' : sub64 1 0 = 1 := by decide
    have room : sub64 0 (offset % 4096) = 2 ^ 64 - offset % 4096 := by
      rw [sub64]
      omega
    simp only [writeLoop, one_ne_zero, if_false, writeNext, apart, Bool.false_eq_true, List.length_nil,
      ebufSize, Nat.ofNat_pos, if_true, bind_some]
    refine writeLoop_stuck (by rw [storage]; exact nothing) (numBlk.trans one') one_pos (by decide) ?_
    rw [c]
    simp only [room]
    rw [if_neg (by omega), wrap64]
    omega

theorem len_of_enospc (small : len < 2 ^ 64) (code : toInt64 len = enospc) : len = 2 ^ 64 - 28 := by
  unfold toInt64 enospc at code
  rw [Int.bmod_def] at code
  omega

theorem blocksNeeded_huge (huge : len = 2 ^ 64 - 28) (needs : 0 < blocksNeeded inode len offset) :
    blocksNeeded inode len offset = 1 ∧ blockCount len offset = 1 ∧
    ¬ (offset = inode.iSize ∧ offset % 4096 ≠ 0) := by
  have most : blockCount len offset ≤ 1 := by
    rw [blockCount, wrap64]
    omega
  rw [blocksNeeded] at needs ⊢
  split_ifs at needs ⊢ with journaled appended
  · cases needs
  · cases needs
  have one : blockCount len offset = 1 := by omega
  exact ⟨one, one, fun stop => appended ⟨stop.1, stop.2, one⟩⟩

theorem writeBlocks_code (call : inodeWriteAtomic env sbi inode buf len offset = some (ret, inode', sbi'))
    (needs : 0 < blocksNeeded inode len offset) :
    (ret = enomem ∨ ret = toInt64 len) ∧ ∃ mgr low w, writeLoop env buf len offset (ebufSize + 2)
      ⟨{ sbi with jnlMgr := mgr, low }, inode, offset, len, 0, blockCount len offset, []⟩ = some w := by
  cases Wrote.of_call call with
  | journaled fe mgr low small positive mapped =>
    rw [blocksNeeded, if_pos ⟨small, positive, by rw [mapped]; rfl⟩] at needs
    cases needs
  | logged mgr low w ret inode' sbi' other loop log =>
    refine ⟨?_, mgr, low, w, loop⟩
    obtain ⟨r, inode1, storage, append, _, ⟨failed, _⟩ | ⟨_, back, _⟩⟩ := writeLog_cases log
    · exact .inl ((appendUnits_size append).2 ret failed)
    · exact .inr back

end

/-- A write for which there are too few blocks never returns `-ENOSPC`: where it returns, it
reports that everything has been written, or that there is no memory for an entry. -/
theorem no_space_not_reported {env : Env} {sbi : Sbi} {inode : Inode} {buf : Mem} {len offset : Nat}
    (search : env.Searches) (ok : sbi.storage.data.maps.Ok) (small : len < 2 ^ 64)
    (short : sbi.storage.data.maps.clear < blocksNeeded inode len offset) :
    (¬ ∃ inode' sbi', RefusedCleanly env sbi inode buf len offset inode' sbi') ∧
    ∀ ret inode' sbi', inodeWriteAtomic env sbi inode buf len offset = some (ret, inode', sbi') →
      ret = enomem ∨ ret = toInt64 len := by
  constructor
  · rintro ⟨inode', sbi', refused⟩
    obtain ⟨code, mgr, low, w, loop⟩ := writeBlocks_code refused.call (Nat.zero_lt_of_lt short)
    have huge : toInt64 len = enospc := (code.resolve_left (by decide)).symm
    have length := len_of_enospc small huge
    obtain ⟨needed, one, other⟩ := blocksNeeded_huge length (Nat.zero_lt_of_lt short)
    have nothing := search.none ok (by omega) 1
    rw [one] at loop
    cases loop.symm.trans (writeLoop_huge nothing length one other)
  · intro ret inode' sbi' call
    exact (writeBlocks_code call (Nat.zero_lt_of_lt short)).1

/-- A file system of three data blocks, all in use. -/
def fullSbi : Sbi := { blankSbi 3 0#8 with storage := (blankStorage 3).withMaps fullMaps }

/-- The first block of a file is written anew. -/
theorem no_space_not_reported_full : fullSbi.storage.data.maps.clear = 0 ∧
    ¬ ∃ inode' sbi', RefusedCleanly firstFit fullSbi (tiledFile 3 1) (fun _ => 1#8) 4096 0 inode' sbi' := by
  have full : fullSbi.storage.data.maps.clear = 0 := by decide
  refine ⟨full, (no_space_not_reported (fun _ _ => ⟨0, rfl⟩) fullMaps_ok (by decide) ?_).1⟩
  rw [full]
  decide

/-- All three data blocks belong to a file that ends inside of its last block. Writing the end of
that block anew returns the length, though nothing of the file has changed but its log. -/
theorem lost_write_reported : ∃ inode sbi inode' sbi',
    written (blankSbi 3 0#8) (fun _ => 1#8) [(9692, 0)] = some (inode, sbi) ∧
    sbi.storage.data.maps.clear = 0 ∧ blocksNeeded inode 1400 8292 = 1 ∧
    inodeWriteAtomic firstFit sbi inode (fun _ => 2#8) 1400 8292 = some (1400, inode', sbi') ∧
    byteAt sbi'.blocks inode' 8292 = 1#8 ∧ inode.entryNum = 2 ∧ inode'.entryNum = 3 := by
  have run : (written (blankSbi 3 0#8) (fun _ => 1#8) [(9692, 0)]).bind (fun before =>
      (inodeWriteAtomic firstFit before.2 before.1 (fun _ => 2#8) 1400 8292).map fun out =>
        (before.2.storage.data.maps.clear, blocksNeeded before.1 1400 8292, out.1,
          byteAt out.2.2.blocks out.2.1 8292, before.1.entryNum, out.2.1.entryNum)) =
      some (0, 1, 1400, 1#8, 2, 3) := by
    decide +kernel
  obtain ⟨⟨inode, sbi⟩, before, run⟩ := bind_eq_some_iff.mp run
  obtain ⟨⟨ret, inode', sbi'⟩, call, eq⟩ := map_eq_some_iff.mp run
  simp only [Prod.mk.injEq] at eq
  obtain ⟨full, needs, rfl, byte, first, second⟩ := eq
  exact ⟨inode, sbi, inode', sbi', before, full, needs, call, byte, first, second⟩

end SlotFs
