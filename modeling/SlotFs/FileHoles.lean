import SlotFs.FileRead
import SlotFs.WriteIndex

/-!
# Bytes that were never written

A new block keeps what was in it before wherever the write does not cover it and
there is no old block to copy from. Such a byte must stay behind the end of the
file, so a byte below the end that no write has covered must have no block at all.
-/

namespace SlotFs
open CWord Runs Option

variable {env : Env} {inode inode' : Inode} {offset : Nat} {runs : List (Nat × Nat)}

/-- A file under writes. History keeps the bytes that some write has covered. -/
structure CoveredFile where
  inode : Inode
  sbi : Sbi
  covered : Nat → Prop

/-- The size a write that succeeds leaves. -/
def sizeAfter (inode : Inode) (len offset : Nat) : Nat :=
  if inode.journals len offset && decide (0 < len) && (filentLookup inode (offset / 4096)).isSome
  then inode.iSize else max inode.iSize (offset + len)

/-- The write looks up no block behind the keys of the tree, and every byte in front of the
end that will not have been covered is in a block that neither is mapped nor is touched by
the write. -/
def LeavesHoles (s : CoveredFile) (len offset : Nat) : Prop :=
  s.inode.HasKeys len offset ∧
  ∀ x < sizeAfter s.inode len offset, ¬ s.covered x → ¬ (offset ≤ x ∧ x < offset + len) →
    filentLookup s.inode (x / 4096) = none ∧
    ¬ (offset / 4096 ≤ x / 4096 ∧ x / 4096 < offset / 4096 + blockCount len offset)

/-- A write of any outcome, below block `2 ^ 31` and with its requests for blocks
served. -/
inductive CoverStep (allowed : CoveredFile → Nat → Nat → Prop) (s : CoveredFile) : CoveredFile → Prop
  | write (env : Env) (buf : Mem) (len offset : Nat) (runs : List (Nat × Nat)) (maps : Maps)
      (ret : Int) (inode : Inode) (sbi : Sbi)
      (served : Served env (fun _ _ _ _ => True) s.sbi.storage.data.maps (blockCount len offset)
        runs maps)
      (far : offset + len ≤ (2 ^ 31 - 1) * 4096) (ask : allowed s len offset)
      (call : inodeWriteAtomic env s.sbi s.inode buf len offset = some (ret, inode, sbi)) :
      CoverStep allowed s ⟨inode, sbi, fun x => s.covered x ∨ offset ≤ x ∧ x < offset + len⟩

/-- Below the end of the file a byte that no write has covered has no block. -/
structure CoveredFile.Ok (s : CoveredFile) : Prop where
  indexed : Indexed s.inode
  holes : ∀ x < s.inode.iSize, ¬ s.covered x → filentLookup s.inode (x / 4096) = none

/-- Between `a` and `b` the blocks of `[lo, hi)` may have been mapped, and no others. -/
structure MapsOnly (lo hi : Nat) (a b : Inode) : Prop where
  indexed : Indexed b
  only : ∀ k, ¬ (lo ≤ k ∧ k < hi) → btreeGet a.bRoot k = none → btreeGet b.bRoot k = none

theorem MapsOnly.append {lo hi : Nat} {a b b1 b' : Inode} {u : EntryUnit} {ts : Nat} {c : Chosen}
    (h : MapsOnly lo hi a b) (keyed : u.Keyed) (inside : lo ≤ u.lIdx ∧ u.lIdx + u.blocks ≤ hi)
    (appended : Appended b b1 (u.record ts) c b') : MapsOnly lo hi a b' := by
  obtain ⟨hl, hb⟩ := keyed.record ts
  refine ⟨appended.indexed, fun k outside free => ?_⟩
  rw [appended.map, given, hl, hb, if_neg (by omega)]
  exact h.only k outside free

theorem appendUnits_mapsOnly {ts start : Nat} (keyed : ∀ u ∈ layout start runs, u.Keyed) {s s' : Storage}
    {r : Except Int Unit} (indexed : Indexed inode)
    (call : appendUnits env ts (layout start runs) inode s = some (r, inode', s')) :
    MapsOnly start (start + total runs) inode inode' := by
  obtain ⟨_, ⟨mapped, _⟩, _⟩ := appendUnits_rule
    (I := fun rest b _ => MapsOnly start (start + total runs) inode b ∧
      ∀ u ∈ rest, u ∈ layout start runs)
    (fun h => h.1.indexed)
    (fun h _ appended =>
      have member := h.2 _ (List.mem_cons_self ..)
      ⟨h.1.append (keyed _ member) ⟨(mem_layout member).1, (mem_layout member).2.1⟩ appended,
        fun u hu => h.2 u (List.mem_cons_of_mem _ hu)⟩)
    (fun num h => ⟨⟨h.1.indexed.recount num, h.1.only⟩, h.2⟩)
    keyed ⟨⟨indexed, fun _ _ free => free⟩, fun _ hu => hu⟩ call
  exact mapped

theorem Wrote.size_le {sbi sbi' : Sbi} {buf : Mem} {len : Nat} {ret : Int}
    (wrote : Wrote env sbi inode buf len offset ret inode' sbi') (far : offset + len < 2 ^ 63) :
    inode'.iSize ≤ sizeAfter inode len offset := by
  cases wrote with
  | journaled fe mgr low small positive mapped => simp [sizeAfter, small, positive, mapped]
  | logged mgr low w ret inode' sbi' other loop log =>
    have size := (writeLog_size loop log).1
    rw [wrap64_of_lt (by omega)] at size
    rw [sizeAfter, if_neg (by simpa [and_assoc] using other)]
    exact size

theorem Outcome.mapsOnly {ok : Maps → Nat → Nat → Nat → Prop} {sbi sbi' : Sbi} {buf : Mem} {len : Nat}
    {b' : Maps} {J : List (Nat × Nat) → Mem → Prop} {ret : Int}
    (h : Outcome env sbi inode buf len offset runs b' J ret inode' sbi') (indexed : Indexed inode)
    (served : Served env ok sbi.storage.data.maps (blockCount len offset) runs b')
    (far : offset + len ≤ (2 ^ 31 - 1) * 4096) :
    MapsOnly (offset / 4096) (offset / 4096 + blockCount len offset) inode inode' := by
  rw [← served.total]
  cases h with
  | inPlace _ size sbi' fe fits mapped blocks storage ts grown =>
    exact ⟨indexed.resize size, fun _ _ free => free⟩
  | failed _ _ _ append ts content => exact appendUnits_mapsOnly (served.keyed far) indexed append
  | logged inode1 _ append ts content =>
    obtain ⟨indexed', only⟩ := appendUnits_mapsOnly (served.keyed far) indexed append
    exact ⟨indexed'.resize _, only⟩

theorem CoverStep.ok {s t : CoveredFile} (ok : s.Ok) (step : CoverStep LeavesHoles s t) : t.Ok := by
  cases step with
  | write env buf len offset runs maps ret inode sbi served far allowed call =>
    obtain ⟨_, holes⟩ := allowed
    have wrote := Wrote.of_call call
    have size := wrote.size_le (by omega)
    have mapped := (wrote.outcome (J := fun _ _ => True) served (by omega) trivial
      (fun _ _ _ _ _ _ _ _ _ => trivial)).mapsOnly ok.indexed served far
    refine ⟨mapped.indexed, fun x below never => ?_⟩
    obtain ⟨free, outside⟩ := holes x (by dsimp only at below; omega)
      (fun h => never (Or.inl h)) (fun h => never (Or.inr h))
    have none_before : btreeGet s.inode.bRoot (x / 4096) = none := by
      simpa [filentLookup] using free
    simp [filentLookup, mapped.only _ outside none_before]

/-- In every run whose writes leave holes, the lookup of a byte below the end of the file
that no write has covered stays inside of the index, if its block is a key of the tree, and
the byte reads as 0, whatever is in the data area. -/
theorem unwritten_bytes_zero {s t : CoveredFile} (ok : s.Ok)
    (run : Run (CoverStep LeavesHoles) s t) (x : Nat) (below : x < t.inode.iSize)
    (never : ¬ t.covered x) (low : x / 4096 < maxKeys t.inode.bRoot.height) :
    (∀ i ∈ btreeGetIndices t.inode.bRoot (x / 4096), i < 256) ∧ byteAt t.sbi.blocks t.inode x = 0#8 := by
  have ok' := Run.invariant (I := CoveredFile.Ok) CoverStep.ok run ok
  obtain ⟨base, shape⟩ := ok'.indexed.tree
  refine ⟨(shape.indices_inside_iff _).mpr low, ?_⟩
  simp [byteAt, place, ok'.holes x below never, load]

theorem NewFile.covered {ghost : Int} (new : NewFile ghost inode) (sbi : Sbi) :
    (⟨inode, sbi, fun _ => False⟩ : CoveredFile).Ok :=
  ⟨new.indexed, fun x below => absurd below (by dsimp only; rw [new.iSize]; omega)⟩

/-- A write of block 2 of a new file, on a data area full of old bytes. -/
theorem unwritten_bytes_zero_gap : ∃ s t : CoveredFile, s.Ok ∧ Run (CoverStep LeavesHoles) s t ∧
    t.inode.iSize = 12288 ∧ byteAt t.sbi.blocks t.inode 0 = 0#8 := by
  have run : (created (blankSbi 64 0xaa#8)).bind (fun f =>
      (inodeWriteAtomic firstFit f.2 f.1 (fun _ => 1#8) 4096 8192).map fun out =>
        (out.2.1.iSize, out.2.1.bRoot.height)) = some (12288, 0) := by
    decide +kernel
  obtain ⟨⟨inode, sbi⟩, create, last⟩ := bind_eq_some_iff.mp run
  obtain ⟨⟨ret, inode', sbi'⟩, call, eq⟩ := map_eq_some_iff.mp last
  obtain ⟨size, height⟩ := Prod.mk.inj eq
  obtain ⟨new, _, _, _, storage⟩ := inodeCreate_new (fun _ => rfl) (inodeCreate_of_created create)
  obtain ⟨maps, served⟩ := firstFit_first (fun _ _ _ _ => True) trivial
  have one : blockCount 4096 8192 = 1 := by decide
  have holes : LeavesHoles ⟨inode, sbi, fun _ => False⟩ 4096 8192 := by
    refine ⟨nofun, fun x below _ outside => ?_⟩
    have behind : sizeAfter inode 4096 8192 ≤ 12288 := by
      unfold sizeAfter
      split <;> simp [new.iSize]
    refine ⟨by simp [filentLookup, new.unmapped], ?_⟩
    rw [one]
    dsimp only at below
    omega
  have step : CoverStep LeavesHoles ⟨inode, sbi, fun _ => False⟩ _ :=
    .write firstFit (fun _ => 1#8) 4096 8192 [(0, 1)] maps ret inode' sbi'
      (by rw [one, storage]; exact served) (by decide) holes call
  refine ⟨_, _, new.covered sbi, .single step, size, ?_⟩
  have low : 0 / 4096 < maxKeys inode'.bRoot.height := by
    rw [show inode'.bRoot.height = 0 from height]
    decide
  exact (unwritten_bytes_zero (new.covered sbi) (.single step) 0 (by dsimp only at size ⊢; omega)
    (by simp) low).2

/-- One byte is written at offset 10 of a new file. Byte 0 shows what was in the
block before. -/
theorem stale_byte_exposed : ∃ inode sbi inode' sbi',
    written (blankSbi 64 0xaa#8) (fun _ => 1#8) [] = some (inode, sbi) ∧ inode.iSize = 0 ∧
    inodeWriteAtomic firstFit sbi inode (fun _ => 1#8) 1 10 = some (1, inode', sbi') ∧
    0 < inode'.iSize ∧ byteAt sbi'.blocks inode' 0 = 0xaa#8 := by
  have run : (written (blankSbi 64 0xaa#8) (fun _ => 1#8) []).bind (fun f =>
      (inodeWriteAtomic firstFit f.2 f.1 (fun _ => 1#8) 1 10).map fun out =>
        (f.1.iSize, out.1, decide (0 < out.2.1.iSize), byteAt out.2.2.blocks out.2.1 0)) =
          some (0, 1, true, 0xaa#8) := by
    decide +kernel
  obtain ⟨⟨inode, sbi⟩, first, last⟩ := bind_eq_some_iff.mp run
  obtain ⟨⟨ret, inode', sbi'⟩, call, eq⟩ := map_eq_some_iff.mp last
  simp only [Prod.mk.injEq, decide_eq_true_eq] at eq
  obtain ⟨size, rfl, size', byte⟩ := eq
  exact ⟨inode, sbi, inode', sbi', first, size, call, size', byte⟩

end SlotFs
