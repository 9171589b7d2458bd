import SlotFs.FileSize

/-!
# The loop of a write

`inode_write_atomic` asks for blocks until it has as many as the write touches. The
runs it gets are laid out one after the other from the first block on, and the
loop is at the end of the last of them, or at the end of the write.
-/

namespace SlotFs
open CWord List

variable {J : List (Nat × Nat) → Mem → Prop} {b b' : Maps} {env : Env} {n : Nat}
  {ok : Maps → Nat → Nat → Nat → Prop} {runs : List (Nat × Nat)}

/-- How many blocks some runs have together. -/
def total (runs : List (Nat × Nat)) : Nat := (runs.map Prod.snd).sum

@[simp] theorem total_nil : total [] = 0 := rfl

@[simp] theorem total_cons (run : Nat × Nat) (runs : List (Nat × Nat)) :
    total (run :: runs) = run.2 + total runs := by
  simp [total]

@[simp] theorem total_append (a b : List (Nat × Nat)) : total (a ++ b) = total a + total b := by
  simp [total]

/-- Runs of physical blocks as the extents of a file, from block `start` on. -/
def layout (start : Nat) : List (Nat × Nat) → List EntryUnit
  | [] => []
  | (p, c) :: rest => ⟨start, p, c⟩ :: layout (start + c) rest

@[simp] theorem layout_length (start : Nat) (runs : List (Nat × Nat)) :
    (layout start runs).length = runs.length := by
  induction runs generalizing start with
  | nil => rfl
  | cons run rest ih => exact congrArg Nat.succ (ih _)

theorem layout_append (start : Nat) (a b : List (Nat × Nat)) :
    layout start (a ++ b) = layout start a ++ layout (start + total a) b := by
  induction a generalizing start with
  | nil => rfl
  | cons run rest ih =>
    simp only [cons_append, layout, ih, total_cons, Nat.add_assoc]

/-- Requests for `n` blocks, served by runs that all satisfy `ok`; the maps are `b`
before and `b'` afterwards. -/
inductive Served (env : Env) (ok : Maps → Nat → Nat → Nat → Prop) :
    Maps → Nat → List (Nat × Nat) → Maps → Prop
  | done (b : Maps) : Served env ok b 0 [] b
  | more {b b' : Maps} {n i s c : Nat} {runs : List (Nat × Nat)}
      (pick : env.pick b n = some (i, s, c)) (least : 1 ≤ c) (most : c ≤ n) (good : ok b i s c)
      (rest : Served env ok (b.set i (markRange (b.map i) s c)) (n - c) runs b') :
      Served env ok b n ((s + (b.map i).bitOffset, c) :: runs) b'

/-- The first block of an empty map. -/
theorem firstFit_first (ok : Maps → Nat → Nat → Nat → Prop) (good : ok (emptyMaps 64) 0 0 1) :
    ∃ maps, Served firstFit ok (emptyMaps 64) 1 [(0, 1)] maps :=
  ⟨_, .more (i := 0) (s := 0) (by decide) le_rfl le_rfl good (.done _)⟩

theorem Served.total (h : Served env ok b n runs b') : total runs = n := by
  induction h with
  | done => rfl
  | more _ _ most _ _ ih =>
    rw [total_cons, ih]
    omega

theorem Served.maps (h : Served env ok b n [] b') : b = b' := by
  cases h
  rfl

theorem Served.positive (h : Served env ok b n runs b') : ∀ run ∈ runs, 1 ≤ run.2 := by
  induction h with
  | done => exact fun run hr => nomatch hr
  | more _ least _ _ _ ih =>
    intro run hr
    rcases mem_cons.mp hr with rfl | hr
    · exact least
    · exact ih run hr

/-- The loop has taken the runs `past` and is going to take the runs `rest`. -/
structure Progress (env : Env) (ok : Maps → Nat → Nat → Nat → Prop) (sbi : Sbi) (inode : Inode)
    (len offset : Nat) (b' : Maps) (past rest : List (Nat × Nat)) (w : Write) : Prop where
  file : w.inode = inode
  shared : w.sbi = { sbi with
    storage := sbi.storage.withMaps w.sbi.storage.data.maps, blocks := w.sbi.blocks }
  served : Served env ok w.sbi.storage.data.maps w.numBlk rest b'
  positive : ∀ run ∈ past, 1 ≤ run.2
  numBlk : blockCount len offset = SlotFs.total past + w.numBlk
  ebuf : w.ebuf = layout (offset / 4096) past
  c : w.c = min (offset + len) (max offset ((offset / 4096 + SlotFs.total past) * 4096))
  count : w.count = offset + len - w.c
  done : w.done = w.c - offset
  untouched : past = [] → w.sbi = sbi

theorem blockCount_eq {len offset : Nat} (far : offset + len < 2 ^ 63) :
    blockCount len offset = (len + offset % 4096 + 4095) / 4096 := by
  rw [blockCount, wrap64_of_lt (by omega)]

section
variable {env : Env} {ok : Maps → Nat → Nat → Nat → Prop} {sbi : Sbi} {inode : Inode} {buf : Mem}
  {len offset : Nat} {b' : Maps} {past rest : List (Nat × Nat)} {w : Write}

theorem Progress.start (served : Served env ok sbi.storage.data.maps (blockCount len offset) rest b') :
    Progress env ok sbi inode len offset b' [] rest
      ⟨sbi, inode, offset, len, 0, blockCount len offset, []⟩ := by
  constructor
  · rfl
  · rfl
  · exact served
  · exact fun run hr => nomatch hr
  · simp
  · rfl
  · simp only [total_nil]
    omega
  · simp
  · simp
  · exact fun _ => rfl

/-- Between two turns the loop is inside of the write. With more than nothing done
it is at the beginning of a block. -/
theorem Progress.position (h : Progress env ok sbi inode len offset b' past rest w)
    (far : offset + len < 2 ^ 63) (more : w.numBlk ≠ 0) :
    w.c = max offset ((offset / 4096 + SlotFs.total past) * 4096) ∧ w.c ≤ offset + len ∧
    w.c / 4096 = offset / 4096 + SlotFs.total past ∧
    (w.numBlk - 1) * 4096 < w.c % 4096 + w.count ∧ w.c % 4096 + w.count ≤ w.numBlk * 4096 := by
  have blocks := h.numBlk
  rw [blockCount_eq far] at blocks
  have c := h.c
  have count := h.count
  omega

/-- With blocks to get there is a run to take. -/
theorem Progress.rest_cons (h : Progress env ok sbi inode len offset b' past rest w) (more : w.numBlk ≠ 0) :
    ∃ p c rest', rest = (p, c) :: rest' := by
  cases rest with
  | nil => exact absurd h.served.total.symm more
  | cons run rest => exact ⟨run.1, run.2, rest, rfl⟩

/-- What a turn with a new run of `c` blocks writes at most. -/
def turnBytes (w : Write) (c : Nat) : Nat := min (4096 * c - w.c % 4096) w.count

section
variable {p c : Nat} (h : Progress env ok sbi inode len offset b' past ((p, c) :: rest) w)
  (far : offset + len < 2 ^ 63)
include h far

theorem Progress.turnBytes_eq : (if sub64 (wrap64 (4096 * c)) (w.c % 4096) > w.count then w.count
    else sub64 (wrap64 (4096 * c)) (w.c % 4096)) = turnBytes w c := by
  have blocks := h.numBlk
  have split := h.served.total
  have least := h.served.positive (p, c) (mem_cons_self ..)
  rw [blockCount_eq far] at blocks
  rw [total_cons] at split
  rw [wrap64_of_lt (by omega), sub64_of_le (by omega) (by omega), turnBytes]
  split <;> omega

/-- One turn takes the next run and fills its blocks. -/
theorem Progress.extent (buf : Mem) :
    Progress env ok sbi inode len offset b' (past ++ [(p, c)]) rest (writeExtent env buf len offset w) ∧
    (writeExtent env buf len offset w).sbi.blocks = copyBlocks inode w.sbi.blocks buf len offset w.c
      w.done p c (turnBytes w c) := by
  have served := h.served
  generalize hm : w.sbi.storage.data.maps = b at served
  generalize hn : w.numBlk = n at served
  cases served with
  | more pick least most good served =>
    rename_i i s
    obtain ⟨position, inside, block, lower, upper⟩ := h.position far (by omega)
    have blocks := h.numBlk
    rw [blockCount_eq far] at blocks
    have eq : writeExtent env buf len offset w =
        { sbi := { w.sbi with
            storage := w.sbi.storage.withMaps (b.set i (markRange (b.map i) s c))
            blocks := copyBlocks w.inode w.sbi.blocks buf len offset w.c w.done
              (s + (b.map i).bitOffset) c (turnBytes w c) }
          inode := w.inode, c := wrap64 (w.c + turnBytes w c), count := w.count - turnBytes w c
          done := w.done + turnBytes w c, numBlk := sub64 w.numBlk c
          ebuf := w.ebuf ++ [⟨w.c / 4096, s + (b.map i).bitOffset, c⟩] } := by
      simp only [writeExtent, slotDataAlloc, hm, hn, pick, takeRange, toSize_natCast,
        h.turnBytes_eq far]
      rfl
    have turn : turnBytes w c = min (4096 * c - w.c % 4096) w.count := rfl
    have count := h.count
    have done := h.done
    rw [eq]
    refine ⟨⟨h.file, ?_, ?_, ?_, ?_, ?_, ?_, ?_, ?_, fun empty => ?_⟩, by rw [h.file]⟩
    · rw [h.shared]
      rfl
    · rw [sub64_of_le (by omega) (by omega), hn]
      exact served
    · intro run hr
      rcases mem_append.mp hr with hr | hr
      · exact h.positive run hr
      · rw [mem_singleton.mp hr]
        exact least
    · rw [sub64_of_le (by omega) (by omega), h.numBlk]
      simp only [total_append, total_cons, total_nil]
      omega
    · rw [h.ebuf, layout_append, block]
      rfl
    · rw [wrap64_of_lt (by omega)]
      simp only [total_append, total_cons, total_nil]
      omega
    · rw [wrap64_of_lt (by omega)]
      simp only
      omega
    · rw [wrap64_of_lt (by omega)]
      simp only
      omega
    · simp at empty

end

/-- The whole write has gone in place, behind the end of the file. -/
structure InPlace (sbi : Sbi) (inode : Inode) (buf : Mem) (len offset : Nat) (w : Write) : Prop where
  start : offset = inode.iSize
  fits : offset % 4096 + len ≤ 4096
  mapped : ∃ fe, filentLookup inode (offset / 4096) = some fe ∧ w.sbi.blocks =
    memcpy sbi.blocks (fe.addr (offset / 4096) + offset % 4096) buf 0 len
  shared : w.sbi.storage = sbi.storage ∧ w.sbi.ts = sbi.ts
  file : w.inode = { inode with iSize := max inode.iSize (offset + len) }
  ebuf : w.ebuf = []
  numBlk : w.numBlk = 0

theorem total_eq_zero (positive : ∀ run ∈ runs, 1 ≤ run.2) (zero : SlotFs.total runs = 0) : runs = [] := by
  cases runs with
  | nil => rfl
  | cons run runs =>
    have := positive run (mem_cons_self ..)
    rw [total_cons] at zero
    omega

/-- The test for a write in place succeeds in the first turn only. -/
theorem Progress.appends_first (h : Progress env ok sbi inode len offset b' past rest w)
    (far : offset + len < 2 ^ 63) (appends : w.appends = true) :
    past = [] ∧ w.c = offset ∧ offset = inode.iSize ∧ offset % 4096 ≠ 0 ∧ w.numBlk = 1 ∧
      offset % 4096 + len ≤ 4096 := by
  simp only [Write.appends, Bool.and_eq_true, beq_iff_eq, bne_iff_ne] at appends
  obtain ⟨⟨begins, unaligned⟩, one⟩ := appends
  obtain ⟨position, inside, block, lower, upper⟩ := h.position far (by omega)
  obtain rfl : past = [] := total_eq_zero h.positive (by omega)
  rw [total_nil] at position
  have c : w.c = offset := by omega
  have count := h.count
  rw [c] at unaligned upper count
  rw [c, h.file] at begins
  exact ⟨rfl, c, begins, unaligned, one, by omega⟩

theorem Progress.inPlace (h : Progress env ok sbi inode len offset b' past rest w)
    (far : offset + len < 2 ^ 63) {w' : Write} (appends : w.appends = true)
    (call : writeInPlace buf len offset w = some w') : InPlace sbi inode buf len offset w' := by
  obtain ⟨rfl, c, begins, unaligned, one, fits⟩ := h.appends_first far appends
  have count := h.count
  have done := h.done
  rw [c] at count done
  have bytes : (if 4096 - offset % 4096 > w.count then w.count else 4096 - offset % 4096) = len := by
    split <;> omega
  obtain ⟨fe, mapped, rfl⟩ := Option.map_eq_some_iff.mp call
  rw [h.file, c] at mapped
  simp only [c, h.file, h.untouched rfl, bytes, show w.done = 0 by omega, one,
    wrap64_of_lt (show offset + len < 2 ^ 64 by omega)]
  exact ⟨begins, fits, ⟨fe, mapped, rfl⟩, ⟨rfl, rfl⟩, rfl, h.ebuf, rfl⟩

/-- A turn that takes `c` blocks for the bytes from `x` on, behind the runs `past`. -/
structure Turn (len offset : Nat) (past : List (Nat × Nat)) (c x : Nat) : Prop where
  least : 1 ≤ c
  low : offset ≤ x
  high : x ≤ offset + len
  block : x / 4096 = offset / 4096 + SlotFs.total past
  aligned : x = offset ∨ x % 4096 = 0
  needed : 4096 * c + x < x % 4096 + offset + len + 4096

/-- The data area after a turn. -/
def turnBlocks (inode : Inode) (m buf : Mem) (len offset p c x : Nat) : Mem :=
  copyBlocks inode m buf len offset x (x - offset) p c (min (4096 * c - x % 4096) (offset + len - x))

theorem Progress.turn {p c : Nat}
    (h : Progress env ok sbi inode len offset b' past ((p, c) :: rest) w) (far : offset + len < 2 ^ 63) :
    Turn len offset past c w.c := by
  have count := h.count
  have split := h.served.total
  rw [total_cons] at split
  have least := h.served.positive (p, c) (mem_cons_self ..)
  obtain ⟨position, inside, block, lower, upper⟩ := h.position far (by omega)
  exact ⟨least, by omega, inside, block, by omega, by omega⟩

section
variable (served : Served env ok sbi.storage.data.maps (blockCount len offset) runs b')
  (far : offset + len < 2 ^ 63) (start : J [] sbi.blocks)
  (turn : ∀ past p c rest x m, runs = past ++ (p, c) :: rest → Turn len offset past c x →
    J past m → J (past ++ [(p, c)]) (turnBlocks inode m buf len offset p c x))
include served far start turn

/-- The rule for the loop: `J` is what the turns do to the data area. -/
theorem writeLoop_rule {fuel : Nat} (loop : writeLoop env buf len offset fuel
      ⟨sbi, inode, offset, len, 0, blockCount len offset, []⟩ = some w) :
    InPlace sbi inode buf len offset w ∨
    Progress env ok sbi inode len offset b' runs [] w ∧ J runs w.sbi.blocks := by
  have keeps (w w' : Write) (inv : InPlace sbi inode buf len offset w ∨ ∃ past rest,
      runs = past ++ rest ∧ Progress env ok sbi inode len offset b' past rest w ∧ J past w.sbi.blocks)
      (more : w.numBlk ≠ 0) (next : writeNext env buf len offset w = some w') :
      InPlace sbi inode buf len offset w' ∨ ∃ past rest, runs = past ++ rest ∧
        Progress env ok sbi inode len offset b' past rest w' ∧ J past w'.sbi.blocks := by
    obtain inPlace | ⟨past, rest, split, progress, content⟩ := inv
    · exact absurd inPlace.numBlk more
    unfold writeNext at next
    split at next
    · rename_i appends
      exact .inl (progress.inPlace far appends next)
    split at next
    · cases next
      obtain ⟨p, c, rest, rfl⟩ := progress.rest_cons more
      obtain ⟨progress', blocks⟩ := progress.extent far buf
      refine Or.inr ⟨past ++ [(p, c)], rest, by simp [split], progress', ?_⟩
      rw [blocks, progress.done, turnBytes, progress.count]
      exact turn past p c rest w.c _ split (progress.turn far) content
    · cases next
  obtain ⟨inPlace | ⟨past, rest, split, progress, content⟩, stop⟩ :=
    writeLoop_keeps keeps fuel (.inr ⟨[], runs, rfl, .start served, start⟩) loop
  · exact .inl inPlace
  have served := progress.served
  rw [stop] at served
  obtain rfl : rest = [] := total_eq_zero served.positive served.total
  rw [append_nil] at split
  subst split
  exact .inr ⟨progress, content⟩

/-- How a write ends: in place in the one block it touches, or with new blocks that
hold what `J` says and that the log has taken over as far as `result` says. -/
inductive Outcome (env : Env) (sbi : Sbi) (inode : Inode) (buf : Mem) (len offset : Nat)
    (runs : List (Nat × Nat)) (b' : Maps) (J : List (Nat × Nat) → Mem → Prop) :
    Int → Inode → Sbi → Prop
  | inPlace (ret : Int) (size : Nat) (sbi' : Sbi) (fe : Filent)
      (fits : offset % 4096 + len ≤ 4096)
      (mapped : filentLookup inode (offset / 4096) = some fe)
      (blocks : sbi'.blocks =
        memcpy sbi.blocks (fe.addr (offset / 4096) + offset % 4096) buf 0 len)
      (storage : sbi'.storage = sbi.storage) (ts : sbi'.ts = sbi.ts ∨ sbi'.ts = wrap64 (sbi.ts + 1))
      (grown : size = inode.iSize ∨ offset = inode.iSize ∧ size = max inode.iSize (offset + len)) :
      Outcome env sbi inode buf len offset runs b' J ret { inode with iSize := size } sbi'
  | failed (e : Int) (inode' : Inode) (sbi' : Sbi)
      (append : appendUnits env (wrap64 (sbi.ts + 1)) (layout (offset / 4096) runs) inode
        (sbi.storage.withMaps b') = some (.error e, inode', sbi'.storage))
      (ts : sbi'.ts = wrap64 (sbi.ts + 1)) (content : J runs sbi'.blocks) :
      Outcome env sbi inode buf len offset runs b' J e inode' sbi'
  | logged (inode' : Inode) (sbi' : Sbi)
      (append : appendUnits env (wrap64 (sbi.ts + 1)) (layout (offset / 4096) runs) inode
        (sbi.storage.withMaps b') = some (.ok (), inode', sbi'.storage))
      (ts : sbi'.ts = wrap64 (sbi.ts + 1)) (content : J runs sbi'.blocks) :
      Outcome env sbi inode buf len offset runs b' J (toInt64 len)
        { inode' with iSize := max inode'.iSize (offset + len) } sbi'

theorem Wrote.outcome {ret : Int} {inode' : Inode} {sbi' : Sbi}
    (wrote : Wrote env sbi inode buf len offset ret inode' sbi') :
    Outcome env sbi inode buf len offset runs b' J ret inode' sbi' := by
  cases wrote with
  | journaled fe mgr low small positive mapped =>
    have fits := (journals_iff inode positive (by omega)).mp small
    exact .inPlace len inode.iSize _ fe fits.1 mapped rfl rfl (.inl rfl) (.inl rfl)
  | logged mgr low w ret inode' sbi' other loop log =>
    obtain ⟨r, inode1, storage, append, rfl, result⟩ := writeLog_cases log
    have stop : wrap64 (offset + len) = offset + len := wrap64_of_lt (by omega)
    rw [stop] at result
    rcases writeLoop_rule (by exact served) far (by exact start) turn loop with inPlace | ⟨progress, content⟩
    · obtain ⟨fe, mapped, blocks⟩ := inPlace.mapped
      obtain ⟨same, ts⟩ := inPlace.shared
      rw [inPlace.ebuf] at append
      obtain ⟨rfl, rfl, rfl⟩ : r = .ok () ∧ inode1 = w.inode ∧ storage = w.sbi.storage := by
        cases append
        exact ⟨rfl, rfl, rfl⟩
      obtain ⟨bad, _⟩ | ⟨_, _, rfl⟩ := result
      · cases bad
      rw [inPlace.file]
      refine .inPlace ret _ _ fe inPlace.fits mapped blocks same ?_ ?_
      · exact .inr (congrArg (fun t => wrap64 (t + 1)) ts)
      · exact .inr ⟨inPlace.start, by simp⟩
    · have shared := progress.shared
      have maps : w.sbi.storage.data.maps = b' := progress.served.maps
      rw [maps] at shared
      rw [progress.ebuf, progress.file, shared] at append
      have ts : w.sbi.ts = sbi.ts := by rw [shared]
      obtain ⟨failed, rfl⟩ | ⟨done, back, rfl⟩ := result
      · rw [failed] at append
        exact .failed ret _ _ append (congrArg (fun t => wrap64 (t + 1)) ts) content
      · rw [done] at append
        rw [back]
        exact .logged _ _ append (congrArg (fun t => wrap64 (t + 1)) ts) content

end

end

end SlotFs
