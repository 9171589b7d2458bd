import SlotFs.ExtentRuns
import SlotFs.FileData

/-!
# The paths of a write, and the size of the file

A write ends on one of two paths: under the journal, which leaves the inode alone,
or through the loop and the log, which raise `i_size` to the end of the write.
-/

namespace SlotFs
open CWord Option

variable {buf : Mem} {env : Env} {inode inode' : Inode} {len offset start ts : Nat} {ptr : Option Nat}
  {r ret : Int} {s s' : Storage} {sbi sbi' : Sbi} {units : List EntryUnit} {w w' : Write}

/-! ## Rules for the loops -/

/-- What every call of the callback keeps, setting a range keeps. -/
theorem setRangeLoop_keeps {σ : Type} {I : σ → Prop} {callback : Nat → Int → σ → Int × σ}
    (keeps : ∀ v k s, I s → I (callback v k s).2) {stop : Nat} (fuel : Nat) {t t' : Btree} {s s' : σ}
    {pos : Nat × Nat} (hs : I s) (call : setRangeLoop callback ptr stop fuel t s pos start = some (r, t', s')) :
    I s' := by
  induction fuel generalizing t s pos start with
  | zero => cases call
  | succ fuel ih =>
    obtain ⟨node, index⟩ := pos
    rw [setRangeLoop] at call
    split at call
    rename_i ret s1 turn
    have first : I s1 := by
      split at turn
      · rename_i v _
        have kept := keeps v (toInt32 start) s hs
        rwa [turn] at kept
      · cases turn
        exact hs
    split at call
    · cases call
      exact first
    split at call
    split at call
    · cases call
      exact first
    split at call
    · obtain ⟨pos, _, call⟩ := bind_eq_some_iff.mp call
      exact ih first call
    · cases call
      exact first

theorem btreeSetRangeCallback_keeps {σ : Type} {I : σ → Prop} {callback : Nat → Int → σ → Int × σ}
    (keeps : ∀ v k s, I s → I (callback v k s).2) {t t' : Btree} {stop : Nat} {s s' : σ} (hs : I s)
    (call : btreeSetRangeCallback t start stop ptr callback s = some (r, t', s')) : I s' := by
  unfold btreeSetRangeCallback at call
  split at call
  · cases call
    exact hs
  obtain ⟨t1, _, call⟩ := bind_eq_some_iff.mp call
  split at call
  split at call
  · cases call
    exact hs
  · obtain ⟨pos, _, call⟩ := bind_eq_some_iff.mp call
    exact setRangeLoop_keeps keeps _ hs call

theorem writeLoop_keeps {I : Write → Prop}
    (keeps : ∀ w w', I w → w.numBlk ≠ 0 → writeNext env buf len offset w = some w' → I w') (fuel : Nat)
    (start : I w) (call : writeLoop env buf len offset fuel w = some w') : I w' ∧ w'.numBlk = 0 := by
  induction fuel generalizing w with
  | zero => cases call
  | succ fuel ih =>
    simp only [writeLoop] at call
    split at call
    · rename_i stop
      cases call
      exact ⟨start, stop⟩
    · rename_i more
      obtain ⟨w1, next, rest⟩ := bind_eq_some_iff.mp call
      exact ih (keeps w w1 start more next) rest

/-! ## Paths -/

/-- The outcome of a write: `inode_write_journal` did it all, or it went through
the loop, with the journal perhaps used for nothing. -/
inductive Wrote (env : Env) (sbi : Sbi) (inode : Inode) (buf : Mem) (len offset : Nat) :
    Int → Inode → Sbi → Prop
  | journaled (fe : Filent) (mgr : JnlMgr) (low : Mem) (small : inode.journals len offset = true)
      (positive : 0 < len) (mapped : filentLookup inode (offset / 4096) = some fe) :
      Wrote env sbi inode buf len offset len inode
        { sbi with
          jnlMgr := mgr, low
          blocks := memcpy sbi.blocks (fe.addr (offset / 4096) + offset % 4096) buf 0 len }
  | logged (mgr : JnlMgr) (low : Mem) (w : Write) (ret : Int) (inode' : Inode) (sbi' : Sbi)
      (other : ¬ (inode.journals len offset = true ∧ 0 < len ∧
        (filentLookup inode (offset / 4096)).isSome))
      (loop : writeLoop env buf len offset (ebufSize + 2)
        ⟨{ sbi with jnlMgr := mgr, low }, inode, offset, len, 0, blockCount len offset, []⟩ = some w)
      (log : writeLog env len offset w = some (ret, inode', sbi')) :
      Wrote env sbi inode buf len offset ret inode' sbi'

theorem Wrote.of_writeBlocks (mgr : JnlMgr) (low : Mem) (other : ¬ (inode.journals len offset = true ∧ 0 < len ∧
      (filentLookup inode (offset / 4096)).isSome))
    (call : writeBlocks env { sbi with jnlMgr := mgr, low } inode buf len offset
      (blockCount len offset) = some (ret, inode', sbi')) :
    Wrote env sbi inode buf len offset ret inode' sbi' := by
  obtain ⟨w, loop, log⟩ := bind_eq_some_iff.mp call
  exact .logged mgr low w ret inode' sbi' other loop log

theorem memcpy_zero (m source : Mem) (dest src : Nat) : memcpy m dest source src 0 = m := by
  funext a
  exact memcpy_outside m source src (by omega)

theorem inodeWriteJournal_maps (sbi : Sbi) (inode : Inode) (buf : Mem) (len offset : Nat) :
    (inodeWriteJournal sbi inode buf len offset).2.storage = sbi.storage := by
  unfold inodeWriteJournal
  split <;> rfl

theorem Wrote.of_call (call : inodeWriteAtomic env sbi inode buf len offset = some (ret, inode', sbi')) :
    Wrote env sbi inode buf len offset ret inode' sbi' := by
  unfold inodeWriteAtomic at call
  split at call
  · rename_i small
    have short : len < 1024 := by
      simp only [Inode.journals, Bool.and_eq_true, decide_eq_true_eq] at small
      exact small.1.2
    cases mapped : filentLookup inode (offset / 4096) with
    | none =>
      simp only [inodeWriteJournal, mapped] at call
      exact .of_writeBlocks sbi.jnlMgr sbi.low (by simp [mapped]) call
    | some fe =>
      have count : toInt32 len = len := toInt32_of_lt (by omega)
      simp only [inodeWriteJournal, mapped, count] at call
      split at call
      · rename_i positive
        cases call
        exact .journaled fe _ _ small (by omega) mapped
      rename_i zero
      obtain rfl : len = 0 := by omega
      rw [memcpy_zero] at call
      exact .of_writeBlocks _ _ (by simp) call
  · rename_i large
    exact .of_writeBlocks sbi.jnlMgr sbi.low (fun h => large h.1) call

/-! ## The size -/

theorem fileIndexInsert_recounted {data data' : DataSlots} {fe : Nat}
    (call : fileIndexInsert inode data fe = some (r, inode', data')) :
    ∃ tree inode1, inode' = { inode1 with bRoot := tree } ∧ Recounted inode inode1 := by
  obtain ⟨⟨_, tree, inode1, _⟩, set, eq⟩ := map_eq_some_iff.mp call
  cases eq
  refine ⟨tree, inode1, rfl, ?_⟩
  apply btreeSetRangeCallback_keeps (I := fun s => Recounted inode s.1) ?_ (.refl inode) set
  intro v k s hs
  exact hs.trans (filentInsertCallback_recounted v k s)

/-- Entering an extent leaves the size alone, and its errors are negative. -/
theorem fileAppendEntry_size {entry : PmFilent} {r : Except Int Nat}
    (call : fileAppendEntry env s inode entry = some (r, inode', s')) :
    inode'.iSize = inode.iSize ∧ ∀ e, r = .error e → e = enomem := by
  obtain ⟨c, inode1, files, eq, choice⟩ | ⟨_, num, eq⟩ :=
    chooseEntry_cases env s.files inode (trunc32 (entry.blocks * 4096))
  · simp only [fileAppendEntry, eq] at call
    obtain ⟨⟨_, inode2, _⟩, insert, rest⟩ := map_eq_some_iff.mp call
    cases rest
    constructor
    · obtain ⟨tree, inode3, rfl, recounted⟩ := fileIndexInsert_recounted insert
      exact (congrArg Inode.iSize recounted.rest).trans choice.kept.2.2.2.2.1
    · intro e he
      cases he
  simp only [fileAppendEntry, eq] at call
  cases call
  refine ⟨rfl, fun e he => ?_⟩
  cases he
  rfl

theorem appendUnits_size {r : Except Int Unit} (call : appendUnits env ts units inode s = some (r, inode', s')) :
    inode'.iSize = inode.iSize ∧ ∀ e, r = .error e → e = enomem := by
  induction units generalizing inode s with
  | nil =>
    cases call
    exact ⟨rfl, fun e he => nomatch he⟩
  | cons u rest ih =>
    simp only [appendUnits] at call
    split at call
    · cases call
    · rename_i e inode1 s1 first
      cases call
      obtain ⟨size, code⟩ := fileAppendEntry_size first
      refine ⟨size, fun e' he => ?_⟩
      cases he
      exact code e rfl
    · rename_i first
      obtain ⟨size, code⟩ := ih call
      exact ⟨size.trans (fileAppendEntry_size first).1, code⟩

theorem appendUnits_negative {e : Int} (call : appendUnits env ts units inode s = some (.error e, inode', s')) :
    e < 0 := by
  rw [(appendUnits_size call).2 e rfl]
  decide

theorem writeNext_cases (call : writeNext env buf len offset w = some w') :
    (∃ blocks pmSize, w'.sbi = { w.sbi with blocks, pmSize } ∧
      w'.inode = { w.inode with iSize := max w.inode.iSize (wrap64 (offset + len)) }) ∨
    ∃ maps blocks, w'.sbi = { w.sbi with storage := w.sbi.storage.withMaps maps, blocks } ∧
      w'.inode = w.inode := by
  unfold writeNext at call
  split at call
  · obtain ⟨fe, _, eq⟩ := map_eq_some_iff.mp call
    cases eq
    exact Or.inl ⟨_, _, rfl, rfl⟩
  split at call
  · cases call
    exact Or.inr ⟨_, _, rfl, rfl⟩
  · cases call

theorem writeLoop_size {fuel : Nat} (loop : writeLoop env buf len offset fuel w = some w') :
    w'.inode.iSize = w.inode.iSize ∨ w'.inode.iSize = max w.inode.iSize (wrap64 (offset + len)) := by
  have keeps (v v' : Write) (hv : v.inode.iSize = w.inode.iSize ∨
      v.inode.iSize = max w.inode.iSize (wrap64 (offset + len))) (_ : v.numBlk ≠ 0)
      (next : writeNext env buf len offset v = some v') : v'.inode.iSize = w.inode.iSize ∨
        v'.inode.iSize = max w.inode.iSize (wrap64 (offset + len)) := by
    obtain ⟨_, _, _, inode⟩ | ⟨_, _, _, inode⟩ := writeNext_cases next
    · rw [inode]
      dsimp only
      omega
    · rw [inode]
      exact hv
  exact (writeLoop_keeps keeps fuel (Or.inl rfl) loop).1

theorem writeLoop_sbi {fuel : Nat} {w w' : Write} (loop : writeLoop env buf len offset fuel w = some w') :
    w'.sbi.ts = w.sbi.ts ∧ w'.sbi.inodes = w.sbi.inodes := by
  have keeps (v v' : Write) (same : v.sbi.ts = w.sbi.ts ∧ v.sbi.inodes = w.sbi.inodes) (_ : v.numBlk ≠ 0)
      (next : writeNext env buf len offset v = some v') : v'.sbi.ts = w.sbi.ts ∧ v'.sbi.inodes = w.sbi.inodes := by
    obtain ⟨_, _, sbi, _⟩ | ⟨_, _, sbi, _⟩ := writeNext_cases next
    · rw [sbi]
      exact same
    · rw [sbi]
      exact same
  exact (writeLoop_keeps keeps fuel ⟨rfl, rfl⟩ loop).1

/-- The log is taken over whole, or up to an entry that fails. -/
theorem writeLog_cases (log : writeLog env len offset w = some (ret, inode', sbi')) :
    ∃ r inode1 storage, appendUnits env (wrap64 (w.sbi.ts + 1)) w.ebuf w.inode w.sbi.storage =
        some (r, inode1, storage) ∧
      sbi' = { w.sbi with storage, ts := wrap64 (w.sbi.ts + 1) } ∧
      (r = .error ret ∧ inode' = inode1 ∨ r = .ok () ∧ ret = toInt64 len ∧
        inode' = { inode1 with iSize := max inode1.iSize (wrap64 (offset + len)) }) := by
  obtain ⟨⟨r, inode1, storage⟩, append, eq⟩ := map_eq_some_iff.mp log
  refine ⟨r, inode1, storage, append, ?_⟩
  cases r with
  | error e =>
    simp only [Prod.mk.injEq] at eq
    obtain ⟨rfl, rfl, rfl⟩ := eq
    exact ⟨rfl, Or.inl ⟨rfl, rfl⟩⟩
  | ok _ =>
    simp only [Prod.mk.injEq] at eq
    obtain ⟨rfl, rfl, rfl⟩ := eq
    exact ⟨rfl, Or.inr ⟨rfl, rfl, rfl⟩⟩

section
variable {P : Inode → Storage → Prop} {env : Env}
  (append : ∀ {inode inode' : Inode} {s s' : Storage} {entry : PmFilent} {r : Except Int Nat}, P inode s →
    fileAppendEntry env s inode entry = some (r, inode', s') → P inode' s')

include append

theorem appendUnits_keeps {r : Except Int Unit} (start : P inode s)
    (call : appendUnits env ts units inode s = some (r, inode', s')) : P inode' s' := by
  induction units generalizing inode s with
  | nil =>
    cases call
    exact start
  | cons u rest ih =>
    simp only [appendUnits] at call
    split at call
    · cases call
    · cases call
      exact append start (by assumption)
    · exact ih (append start (by assumption)) call

/-- What a write of any outcome keeps: taking blocks, moving the end of the file, and
entering extents do. -/
theorem inodeWriteAtomic_keeps (alloc : ∀ {inode : Inode} {s : Storage} (maps : Maps), P inode s →
      P inode (s.withMaps maps))
    (resize : ∀ {inode : Inode} {s : Storage} (size : Nat), P inode s → P { inode with iSize := size } s)
    (start : P inode sbi.storage)
    (call : inodeWriteAtomic env sbi inode buf len offset = some (ret, inode', sbi')) :
    P inode' sbi'.storage := by
  cases Wrote.of_call call with
  | journaled => exact start
  | logged mgr low w ret inode' sbi' other loop log =>
    have turn (w w' : Write) (hw : P w.inode w.sbi.storage) (_ : w.numBlk ≠ 0)
        (next : writeNext env buf len offset w = some w') : P w'.inode w'.sbi.storage := by
      obtain ⟨_, _, sbi, inode⟩ | ⟨_, _, sbi, inode⟩ := writeNext_cases next
      · rw [sbi, inode]
        exact resize _ hw
      · rw [sbi, inode]
        exact alloc _ hw
    have before : P w.inode w.sbi.storage :=
      (writeLoop_keeps (I := fun w => P w.inode w.sbi.storage) turn _ start loop).1
    obtain ⟨r, inode1, storage, units, rfl, ⟨_, rfl⟩ | ⟨_, _, rfl⟩⟩ := writeLog_cases log
    · exact appendUnits_keeps append before units
    · exact resize _ (appendUnits_keeps append before units)

end

/-- Through the log the size becomes the end of the write, if that is larger and
nothing fails. -/
theorem writeLog_size {fuel : Nat} (loop : writeLoop env buf len offset fuel w = some w')
    (log : writeLog env len offset w' = some (ret, inode, sbi)) :
    inode.iSize ≤ max w.inode.iSize (wrap64 (offset + len)) ∧
    (0 ≤ ret → ret = toInt64 len ∧ inode.iSize = max w.inode.iSize (wrap64 (offset + len))) := by
  have size := writeLoop_size loop
  obtain ⟨r, inode1, storage, units, _, ⟨rfl, rfl⟩ | ⟨_, back, rfl⟩⟩ := writeLog_cases log
  · have kept := (appendUnits_size units).1
    refine ⟨by omega, fun ok => ?_⟩
    exact absurd (appendUnits_negative units) (by omega)
  have kept := (appendUnits_size units).1
  have same : max inode1.iSize (wrap64 (offset + len)) =
      max w.inode.iSize (wrap64 (offset + len)) := by omega
  exact ⟨same.le, fun _ => ⟨back, same⟩⟩

/-- When the size follows the write. A short write within a mapped block is not to
end behind the end of the file, unless it begins there. An empty write is not to
begin behind it. -/
def SizeFollows (inode : Inode) (len offset : Nat) : Prop :=
  if len = 0 then offset ≤ inode.iSize
  else offset % 4096 + len ≤ 4096 → len < 1024 → offset ≠ inode.iSize →
    (filentLookup inode (offset / 4096)).isSome → offset + len ≤ inode.iSize

theorem journals_iff (inode : Inode) (positive : 0 < len) (short : len < 2 ^ 63) :
    inode.journals len offset = true ↔
      offset % 4096 + len ≤ 4096 ∧ len < 1024 ∧ offset ≠ inode.iSize := by
  have one : blockCount len offset = 1 ↔ offset % 4096 + len ≤ 4096 := by
    rw [blockCount, wrap64_of_lt (by omega)]
    omega
  simp [Inode.journals, one, and_assoc]

/-- A write that looks up no block behind the keys of the tree and returns its length leaves
the size as it should be if and only if the size follows. -/
theorem write_size_iff {env : Env} {sbi sbi' : Sbi} {inode inode' : Inode} {buf : Mem}
    {len offset : Nat} (start : offset < 2 ^ 63) (word : len < 2 ^ 64)
    (call : inodeWriteAtomic env sbi inode buf len offset = some ((len : Int), inode', sbi')) :
    inode.HasKeys len offset →
      ((inode'.iSize = if len = 0 then inode.iSize else max inode.iSize (offset + len)) ↔
        SizeFollows inode len offset) := by
  intro _
  generalize hr : (len : Int) = ret at call
  cases Wrote.of_call call with
  | journaled fe mgr low small positive mapped =>
    have short : len < 1024 := by
      simp only [Inode.journals, Bool.and_eq_true, decide_eq_true_eq] at small
      exact small.1.2
    obtain ⟨inside, _, other⟩ := (journals_iff inode positive (by omega)).mp small
    have size : SizeFollows inode len offset ↔ offset + len ≤ inode.iSize := by
      rw [SizeFollows, if_neg (by omega), mapped]
      exact ⟨fun h => h inside short other rfl, fun h _ _ _ _ => h⟩
    rw [size, if_neg (by omega)]
    omega
  | logged mgr low w ret inode' sbi' other loop log =>
    subst hr
    obtain ⟨back, size⟩ := (writeLog_size loop log).2 (by omega)
    have short : len < 2 ^ 63 := (toInt64_eq_iff word).mp back.symm
    rw [wrap64_of_lt (by omega)] at size
    change inode'.iSize = max inode.iSize (offset + len) at size
    by_cases empty : len = 0
    · subst empty
      rw [SizeFollows, if_pos rfl, if_pos rfl]
      omega
    rw [SizeFollows, if_neg empty, if_neg empty]
    refine ⟨fun _ inside small away mapped => ?_, fun _ => size⟩
    exact absurd ⟨(journals_iff inode (by omega) short).mpr ⟨inside, small, away⟩, by omega, mapped⟩
      other

/-! ## Concrete files -/

/-- The allocator of the source, on CPU 0. -/
def firstFit : Env := ⟨fun b n => visitMaps (rangeVisit n) b 0, fun _ => 0, fun _ _ _ => true⟩

/-- A new file system. Its data blocks hold what was in them before. -/
def blankSbi (bits : Nat) (stale : BitVec 8) : Sbi :=
  ⟨emptyMaps bits, blankStorage bits, 0, ⟨fun _ => false, 0⟩, fun _ => 0#8, 0, fun _ => stale,
    fun _ => 0⟩

/-- A new file. -/
def created (sbi : Sbi) : Option (Inode × Sbi) :=
  match inodeCreate firstFit sbi true 0 (fun _ => true) (fun _ => true) with
  | some (.ok inode, sbi) => some (inode, sbi)
  | _ => none

theorem inodeCreate_of_created (call : created sbi = some (inode, sbi')) :
    inodeCreate firstFit sbi true 0 (fun _ => true) (fun _ => true) = some (.ok inode, sbi') := by
  unfold created at call
  split at call
  · cases call
    assumption
  · cases call

/-- A new file after some writes of `buf`, given by length and offset. -/
def written (sbi : Sbi) (buf : Mem) (writes : List (Nat × Nat)) : Option (Inode × Sbi) :=
  match inodeCreate firstFit sbi true 0 (fun _ => true) (fun _ => true) with
  | some (.ok inode, sbi) => writes.foldlM (fun (inode, sbi) (len, offset) =>
      (inodeWriteAtomic firstFit sbi inode buf len offset).map Prod.snd) (inode, sbi)
  | _ => none

theorem write_size_iff_append : ∃ inode sbi inode' sbi',
    inodeWriteAtomic firstFit sbi inode (fun _ => 1#8) 5 10 = some (5, inode', sbi') ∧
    inode.iSize = 10 ∧ inode.HasKeys 5 10 ∧
    ((inode'.iSize = if 5 = 0 then inode.iSize else max inode.iSize (10 + 5)) ↔ SizeFollows inode 5 10) := by
  have run : (written (blankSbi 64 0#8) (fun _ => 1#8) [(10, 0)]).bind (fun (inode, sbi) =>
      (inodeWriteAtomic firstFit sbi inode (fun _ => 1#8) 5 10).map fun out =>
        (inode.iSize, inode.bRoot.height, out.1)) = some (10, 0, 5) := by
    decide +kernel
  obtain ⟨⟨inode, sbi⟩, _, last⟩ := bind_eq_some_iff.mp run
  obtain ⟨⟨ret, inode', sbi'⟩, call, eq⟩ := map_eq_some_iff.mp last
  simp only [Prod.mk.injEq] at eq
  obtain ⟨size, height, rfl⟩ := eq
  have keys : inode.HasKeys 5 10 := by
    unfold Inode.HasKeys
    rw [height]
    decide
  exact ⟨inode, sbi, inode', sbi', call, size, keys, write_size_iff (by decide) (by decide) call keys⟩

/-- Ten bytes have been written, and five more at offset 20 of the same block: the
journaled write leaves the size at 10. -/
theorem short_write_behind_end : ∃ inode sbi inode' sbi',
    written (blankSbi 64 0#8) (fun _ => 1#8) [(10, 0)] = some (inode, sbi) ∧ inode.iSize = 10 ∧
    inodeWriteAtomic firstFit sbi inode (fun _ => 1#8) 5 20 = some (5, inode', sbi') ∧
    inode'.iSize = 10 := by
  have run : (written (blankSbi 64 0#8) (fun _ => 1#8) [(10, 0)]).bind (fun (inode, sbi) =>
      (inodeWriteAtomic firstFit sbi inode (fun _ => 1#8) 5 20).map fun out =>
        (inode.iSize, out.1, out.2.1.iSize)) = some (10, 5, 10) := by
    decide +kernel
  obtain ⟨⟨inode, sbi⟩, first, last⟩ := bind_eq_some_iff.mp run
  obtain ⟨⟨ret, inode', sbi'⟩, call, eq⟩ := map_eq_some_iff.mp last
  simp only [Prod.mk.injEq] at eq
  obtain ⟨size, rfl, size'⟩ := eq
  exact ⟨inode, sbi, inode', sbi', first, size, call, size'⟩

end SlotFs
