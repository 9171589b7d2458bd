import SlotFs.FileSize
import SlotFs.LogChain

/-!
# What `invalid_num` counts

`filent_insert_callback` puts an entry without blocks on the list `invalid` and counts it, and
`filent_try_reuse` takes the first one off and counts it off. But `filent_dispatch` has already
counted one off when it calls `filent_try_reuse`, so that `invalid_num` falls behind by one with
every call that is sent there.
-/

namespace SlotFs
open CWord List Option

/-- The test of `filent_dispatch` sends the call to `filent_try_reuse`. -/
def Env.reuses (env : Env) (inode : Inode) (entry : PmFilent) : Bool :=
  !env.appends inode.invalidNum inode.entryNum (trunc32 (entry.blocks * 4096))

/-- The count is `k` behind the list. -/
structure Behind (k : Nat) (inode : Inode) : Prop where
  word : inode.invalidNum < 2 ^ 64
  count : (inode.invalidNum + k) % 2 ^ 64 = inode.invalid.length % 2 ^ 64

/-- No entry is on the list twice, and none of them has blocks. -/
structure Spent (inode : Inode) : Prop where
  once : inode.invalid.Nodup
  blocks : ∀ fe ∈ inode.invalid, (inode.fents fe).ref ≤ 0

section
variable {env : Env} {inode : Inode} {k : Nat}

theorem Behind.dispatch (h : Behind k inode) (entry : PmFilent) : Behind (k + (env.reuses inode entry).toNat)
      (filentDispatch env inode (trunc32 (entry.blocks * 4096))).2 := by
  obtain ⟨word, count⟩ := h
  unfold filentDispatch Env.reuses
  cases env.appends inode.invalidNum inode.entryNum (trunc32 (entry.blocks * 4096)) with
  | true => exact ⟨word, count⟩
  | false =>
    simp only [Bool.not_false, Bool.toNat_true, Bool.false_eq_true, if_false]
    unfold filentTryReuse
    cases idle : inode.invalid with
    | nil =>
      rw [idle, length_nil] at count
      refine ⟨Nat.mod_lt _ (by decide), ?_⟩
      simp only [sub64, length_nil]
      omega
    | cons fe rest =>
      rw [idle, length_cons] at count
      refine ⟨Nat.mod_lt _ (by decide), ?_⟩
      simp only [sub64]
      omega

theorem chooseEntry_invalid (files : Maps) (size : Nat) :
    (chooseEntry env files inode size).2.1.invalid = (filentDispatch env inode size).2.invalid ∧
    (chooseEntry env files inode size).2.1.invalidNum = (filentDispatch env inode size).2.invalidNum := by
  unfold chooseEntry
  split
  · rename_i choice
    rw [choice]
    exact ⟨rfl, rfl⟩
  rename_i choice
  rw [choice]
  split
  · exact ⟨rfl, rfl⟩
  · split
    split <;> exact ⟨rfl, rfl⟩

theorem Behind.callback (h : Behind k inode) (fe : Nat) (idx : Int) (data : DataSlots) :
    Behind k (filentInsertCallback fe idx (inode, data)).1 := by
  obtain ⟨word, count⟩ := h
  simp only [filentInsertCallback]
  split
  · refine ⟨Nat.mod_lt _ (by decide), ?_⟩
    simp only [wrap64, length_append, length_singleton, Inode.setFent]
    omega
  · exact ⟨word, count⟩

theorem Spent.callback (h : Spent inode) (fe : Nat) (idx : Int) (data : DataSlots) :
    Spent (filentInsertCallback fe idx (inode, data)).1 := by
  have less (o : Nat) : (((inode.setFent fe { inode.fents fe with ref := (inode.fents fe).ref - 1 }).fents o).ref
      ≤ (inode.fents o).ref) := by
    by_cases own : o = fe
    · subst own
      simp [Inode.setFent]
    · simp [Inode.setFent, own]
  simp only [filentInsertCallback]
  split
  · rename_i last
    have new : fe ∉ inode.invalid := by
      intro member
      have := h.blocks fe member
      omega
    refine ⟨nodup_append.mpr ⟨h.once, nodup_singleton fe, ?_⟩, fun o member => ?_⟩
    · rintro a inside b only rfl
      exact new (mem_singleton.mp only ▸ inside)
    rcases mem_append.mp member with old | only
    · exact (less o).trans (h.blocks o old)
    · obtain rfl := mem_singleton.mp only
      simpa [Inode.setFent] using last.le
  · exact ⟨h.once, fun o member => (less o).trans (h.blocks o member)⟩

/-- What every callback keeps, the insertion keeps. -/
theorem fileIndexInsert_keeps {I : Inode → Prop} {inode' : Inode} {data data' : DataSlots} {fe : Nat}
    {r : Int} (callback : ∀ fe idx inode data, I inode → I (filentInsertCallback fe idx (inode, data)).1)
    (start : I inode) (call : fileIndexInsert inode data fe = some (r, inode', data')) :
    ∃ tree inode1, inode' = { inode1 with bRoot := tree } ∧ I inode1 := by
  obtain ⟨⟨ret, tree, inode1, data1⟩, set, eq⟩ := map_eq_some_iff.mp call
  cases eq
  exact ⟨tree, inode1, rfl, btreeSetRangeCallback_keeps (I := fun s => I s.1)
    (fun v idx s held => callback v idx s.1 s.2 held) start set⟩

theorem Spent.fill (h : Spent inode) {c : Chosen} (off : c.fe ∉ inode.invalid) (entry : PmFilent) :
    Spent (fillEntry inode c entry) := by
  refine ⟨h.once, fun fe member => ?_⟩
  have other : fe ≠ c.fe := fun same => off (same ▸ member)
  have kept : (fillEntry inode c entry).fents fe = inode.fents fe := by
    simp [fillEntry, Inode.setFent, other]
  rw [kept]
  exact h.blocks fe member

end

/-- Calls of `file_append_entry` on one file, `n` in all and `k` of them sent to
`filent_try_reuse`. What else happens to the storage does not matter. -/
inductive AppendCalls (inode0 : Inode) : Nat → Nat → Inode → Prop
  | start : AppendCalls inode0 0 0 inode0
  | call {n k : Nat} {inode inode' : Inode} (past : AppendCalls inode0 n k inode) (env : Env)
      (s s' : Storage) (entry : PmFilent) (r : Except Int Nat)
      (append : fileAppendEntry env s inode entry = some (r, inode', s')) :
      AppendCalls inode0 (n + 1) (k + (env.reuses inode entry).toNat) inode'

/-! ## How far the count is behind -/

section
variable {env : Env} {s s' : Storage} {inode inode' : Inode} {entry : PmFilent} {n k : Nat}

/-- One call falls behind by one if it is sent to `filent_try_reuse`, whether or not there is an
entry to take. -/
theorem Behind.append (h : Behind k inode) {r : Except Int Nat}
    (call : fileAppendEntry env s inode entry = some (r, inode', s')) :
    Behind (k + (env.reuses inode entry).toNat) inode' := by
  have dispatched := @Behind.dispatch env inode k h entry
  obtain ⟨invalid, invalidNum⟩ :=
    @chooseEntry_invalid env inode s.files (trunc32 (entry.blocks * 4096))
  unfold fileAppendEntry at call
  generalize chooseEntry env s.files inode (trunc32 (entry.blocks * 4096)) = out at call invalid invalidNum
  obtain ⟨choice, inode1, files⟩ := out
  have chosen : Behind (k + (env.reuses inode entry).toNat) inode1 :=
    ⟨invalidNum ▸ dispatched.word, invalidNum ▸ invalid ▸ dispatched.count⟩
  cases choice with
  | error e =>
    cases call
    exact chosen
  | ok c =>
    obtain ⟨⟨ret, inode2, data⟩, insert, rest⟩ := map_eq_some_iff.mp call
    cases rest
    have filled : Behind (k + (env.reuses inode entry).toNat) (fillEntry inode1 c entry) :=
      ⟨chosen.word, chosen.count⟩
    obtain ⟨tree, inode3, rfl, done⟩ := fileIndexInsert_keeps (I := Behind _)
      (fun fe idx inode data held => held.callback fe idx data) filled insert
    exact ⟨done.word, done.count⟩

theorem AppendCalls.behind {inode0 : Inode} (calls : AppendCalls inode0 n k inode) (start : Behind 0 inode0) :
    Behind k inode := by
  induction calls with
  | start => exact start
  | call past env s s' entry r append ih => exact ih.append append

end

/-! ## How long the list can get -/

/-- A file after `n` calls. -/
structure Tally (n : Nat) (inode : Inode) : Prop where
  listed : Listed inode
  spent : Spent inode
  length : inode.list.length ≤ n
  entryNum : inode.entryNum = wrap64 inode.list.length

section
variable {env : Env} {s s' : Storage} {inode inode' : Inode} {entry : PmFilent} {n k : Nat}

theorem Choice.off_list {files files' : Maps} {inode1 : Inode} {c : Chosen} (listed : Listed inode)
    (spent : Spent inode) (choice : Choice env files inode c inode1 files') :
    Spent inode1 ∧ c.fe ∉ inode1.invalid ∧ inode1.list = inode.list ∧ inode1.entryNum = inode.entryNum := by
  cases choice with
  | reuse fe rest idle =>
    have once := spent.once
    rw [idle] at once
    obtain ⟨off, once⟩ := nodup_cons.mp once
    refine ⟨⟨once, fun o member => spent.blocks o ?_⟩, off, rfl, rfl⟩
    rw [idle]
    exact mem_cons_of_mem _ member
  | append num granted ghost files' next =>
    refine ⟨⟨spent.once, spent.blocks⟩, fun member => ?_, rfl, rfl⟩
    exact absurd (listed.asked _ (listed.idle _ member)) (lt_irrefl _)

theorem Listed.append (h : Listed inode) {r : Except Int Nat}
    (call : fileAppendEntry env s inode entry = some (r, inode', s')) : Listed inode' := by
  obtain ⟨_, _, _, _, _, _, listed, _, same⟩ | ⟨num, same⟩ := fileAppendEntry_listed h env s entry
  · cases call.symm.trans same
    exact listed
  · cases call.symm.trans same
    exact h.recount num

theorem Tally.append (h : Tally n inode) {r : Except Int Nat}
    (call : fileAppendEntry env s inode entry = some (r, inode', s')) : Tally (n + 1) inode' := by
  have length := h.length
  have listed := h.listed.append call
  obtain ⟨c, inode1, files, eq, choice⟩ | ⟨refused, num, eq⟩ :=
    chooseEntry_cases env s.files inode (trunc32 (entry.blocks * 4096))
  · obtain ⟨spent, off, list, entryNum⟩ := choice.off_list h.listed h.spent
    simp only [fileAppendEntry, eq] at call
    obtain ⟨⟨ret, inode2, data⟩, insert, rest⟩ := map_eq_some_iff.mp call
    cases rest
    have filled : Spent (fillEntry inode1 c entry) ∧
        (fillEntry inode1 c entry).list = (if c.reuse.isSome then inode.list else inode.list ++ [c.fe]) ∧
        (fillEntry inode1 c entry).entryNum = wrap64 inode.list.length :=
      ⟨spent.fill off entry, by rw [← list]; rfl, entryNum.trans h.entryNum⟩
    obtain ⟨tree, inode3, rfl, spent', list', entryNum'⟩ := fileIndexInsert_keeps
      (I := fun inode3 => Spent inode3 ∧
        inode3.list = (if c.reuse.isSome then inode.list else inode.list ++ [c.fe]) ∧
        inode3.entryNum = wrap64 inode.list.length)
      (fun fe idx inode data held => ⟨held.1.callback fe idx data, by
        rw [(filentInsertCallback_recounted fe idx (inode, data)).rest]
        exact held.2⟩) filled insert
    refine ⟨listed, ⟨spent'.once, spent'.blocks⟩, ?_, ?_⟩
    · simp only [list']
      split
      · omega
      · rw [length_append, length_singleton]
        omega
    simp only [list', entryNum']
    split
    · rfl
    · rw [length_append, length_singleton, wrap64, wrap64, wrap64, Nat.mod_add_mod]
  · simp only [fileAppendEntry, eq] at call
    cases call
    exact ⟨listed, ⟨h.spent.once, h.spent.blocks⟩, length.trans (Nat.le_succ n), h.entryNum⟩

theorem AppendCalls.tally {inode0 : Inode} (calls : AppendCalls inode0 n k inode) (start : Tally 0 inode0) :
    Tally n inode := by
  induction calls with
  | start => exact start
  | call past env s s' entry r append ih => exact ih.append append

theorem newInode_tally {iNo : Nat} {ghost : Int} {nodes entries : Nat → Bool}
    (granted : ∀ n, nodes n = true) (new : newInode iNo ghost nodes entries = some inode) : Tally 0 inode := by
  obtain ⟨inode', new', indexed, _⟩ := newInode_indexed iNo ghost entries granted
  cases new.symm.trans new'
  obtain ⟨tree, _, rfl⟩ := map_eq_some_iff.mp new
  exact ⟨indexed.listed, ⟨nodup_nil, fun fe member => absurd member not_mem_nil⟩, le_rfl, rfl⟩

end

/-- `space_ratio` of `filent_dispatch`, without the rounding. -/
def spaceRatio (inode : Inode) : ℚ := 1 - (inode.invalidNum : ℚ) / inode.entryNum

theorem spaceRatio_mem {inode : Inode} (le : inode.invalidNum ≤ inode.entryNum) :
    0 ≤ spaceRatio inode ∧ spaceRatio inode ≤ 1 := by
  have quotient : (inode.invalidNum : ℚ) / inode.entryNum ≤ 1 :=
    div_le_one_of_le₀ (by exact_mod_cast le) (Nat.cast_nonneg _)
  have nonneg : (0 : ℚ) ≤ (inode.invalidNum : ℚ) / inode.entryNum :=
    div_nonneg (Nat.cast_nonneg _) (Nat.cast_nonneg _)
  exact ⟨by rw [spaceRatio]; linarith, by rw [spaceRatio]; linarith⟩

/-- After any calls on a new file `invalid_num` is the length of the list, in 64 bits, just when the
number of calls that were sent to `filent_try_reuse` is 0, in 64 bits. If there was none, it is no
more than `entry_num`. -/
theorem invalid_num_counts_iff {iNo : Nat} {ghost : Int} {nodes entries : Nat → Bool} {inode0 inode : Inode}
    (new : newInode iNo ghost nodes entries = some inode0) {n k : Nat}
    (calls : AppendCalls inode0 n k inode) :
    (inode.invalidNum = wrap64 inode.invalid.length ↔ k % 2 ^ 64 = 0) ∧
    ((∀ n, nodes n = true) → n < 2 ^ 64 → inode.invalid.length < 2 ^ 64 ∧
      (k = 0 → inode.invalidNum = inode.invalid.length ∧ inode.invalidNum ≤ inode.entryNum ∧
        0 ≤ spaceRatio inode ∧ spaceRatio inode ≤ 1)) := by
  have start : Behind 0 inode0 := by
    obtain ⟨tree, _, rfl⟩ := map_eq_some_iff.mp new
    exact ⟨Nat.two_pow_pos 64, rfl⟩
  have behind := calls.behind start
  have word := behind.word
  have count := behind.count
  refine ⟨?_, fun granted few => ?_⟩
  · rw [wrap64, ← count]
    omega
  have tally := calls.tally (newInode_tally granted new)
  have shorter : inode.invalid.length ≤ inode.list.length :=
    (tally.spent.once.subperm tally.listed.idle).length_le
  have length := tally.length
  refine ⟨by omega, fun none => ?_⟩
  subst none
  have le : inode.invalidNum ≤ inode.entryNum := by
    rw [tally.entryNum, wrap64_of_lt (by omega)]
    omega
  exact ⟨by omega, le, spaceRatio_mem le⟩

/-- Seven blocks at the beginning of a file. -/
def firstExtent : PmFilent := ⟨0, 8, 7, 1, 0, by decide⟩

/-- One call that is not sent to `filent_try_reuse`. -/
theorem invalid_num_counts_iff_first : ∃ inode0 inode, newInode 1 1 (fun _ => true) (fun _ => true) = some inode0 ∧
    AppendCalls inode0 1 0 inode ∧ inode.invalidNum = inode.invalid.length ∧ inode.entryNum = 1 := by
  have ran : ((newInode 1 1 (fun _ => true) (fun _ => true)).bind fun inode0 =>
      fileAppendEntry firstFit (blankStorage 64) inode0 firstExtent).map
        (fun out => out.2.1.entryNum) = some 1 := by decide +kernel
  obtain ⟨⟨r, inode, s'⟩, call, entryNum⟩ := map_eq_some_iff.mp ran
  obtain ⟨inode0, new, append⟩ := bind_eq_some_iff.mp call
  have calls : AppendCalls inode0 1 0 inode := .call .start firstFit _ s' _ r append
  have counted := (invalid_num_counts_iff new calls).2 (fun _ => rfl) (by decide)
  exact ⟨inode0, inode, new, calls, (counted.2 rfl).1, entryNum⟩

/-- With `invalid_num` 0 the test appends what is shorter than 25600 bytes. The first call on a new
file, for seven blocks, is sent to `filent_try_reuse`, which has nothing: the count wraps. -/
theorem invalid_num_wraps :
    ((created (blankSbi 64 0#8)).bind fun f =>
      (fileAppendEntry { firstFit with appends := fun _ _ size => decide (size < 25600) } f.2.storage f.1
        firstExtent).map fun out => (f.1.entryNum, out.2.1.invalidNum, out.2.1.invalid)) =
      some (1, 2 ^ 64 - 1, []) := by
  decide +kernel

end SlotFs
