import SlotFs.Files
import SlotFs.WriteContent

/-!
# The bytes of the files

Files share the data area, and the blocks that one of them gives up are given to others. What
has been written to a file stays there all the same, until the file itself is written again.
-/

namespace SlotFs
open CWord Runs List Option Function

/-- What is known of the bytes of each file. -/
abbrev Contents := Nat → Nat → Option (BitVec 8)

variable {buf : Mem} {env : Env} {file : LiveFile} {i len offset x : Nat} {inode : Inode} {maps : Maps} {ret : Int}
  {runs : List (Nat × Nat)} {s t : World × Contents} {sbi : Sbi} {v : BitVec 8} {w : World}

/-- A write that returns its length makes its bytes known. After one that does not, nothing is
known of the file. -/
def Contents.write (known : Contents) (i : Nat) (buf : Mem) (len offset : Nat) (ret : Int) : Contents :=
  update known i fun x =>
    if ret = len then if offset ≤ x ∧ x < offset + len then some (buf (x - offset)) else known i x else none

/-- Nothing is known of the file any more. -/
def Contents.forget (known : Contents) (i : Nat) : Contents := update known i fun _ => none

/-- A call and what is known after it. A write looks up no block behind the keys of the tree.
Nothing is known of a file when it is new, or after its release. -/
inductive ContentStep : World × Contents → World × Contents → Prop
  | create {w known i env granted appended nodes entries inode sbi} (new : World.files w i = none)
      (supply : ∀ n, nodes n = true)
      (call : inodeCreate env w.sbi granted appended nodes entries = some (.ok inode, sbi)) :
      ContentStep (w, known) (w.set i (some ⟨inode, 1⟩) sbi, Contents.forget known i)
  | createFailed {w known env granted appended nodes entries e sbi}
      (call : inodeCreate env (World.sbi w) granted appended nodes entries = some (.error e, sbi)) :
      ContentStep (w, known) ({ w with sbi }, known)
  | write {w known file i env buf len offset runs maps ret inode sbi} (live : World.files w i = some file)
      (served : Served env FreeRun w.maps (blockCount len offset) runs maps)
      (far : offset + len ≤ (2 ^ 31 - 1) * 4096) (inside : file.inode.HasKeys len offset)
      (call : inodeWriteAtomic env w.sbi file.inode buf len offset = some (ret, inode, sbi)) :
      ContentStep (w, known) (w.set i (some { file with inode }) sbi, Contents.write known i buf len offset ret)
  | unlink {w known file i} (live : World.files w i = some file) (named : 0 < file.iLink) :
      ContentStep (w, known) (w.set i (some { file with iLink := file.iLink - 1 }) w.sbi, known)
  | release {w known file i} (live : World.files w i = some file) (unnamed : file.iLink = 0)
      (own : ReleasesOwn w i file) :
      ContentStep (w, known) (w.set i none (doInodeRelease w.sbi file.inode), Contents.forget known i)

/-- The index leads to byte `x` of the file, which is `v`. -/
def Holds (m : Mem) (inode : Inode) (x : Nat) (v : BitVec 8) : Prop :=
  (place inode x).isSome ∧ byteAt m inode x = v

/-- What is known is so. -/
structure Remembers (s : World × Contents) : Prop where
  ok : s.1.Ok
  known : ∀ i x v, s.2 i x = some v → ∃ file, s.1.files i = some file ∧ Holds s.1.sbi.blocks file.inode x v

theorem blockOf_inRuns (h : i < total runs) : InRuns runs (blockOf runs i) := by
  induction runs generalizing i with
  | nil => cases h
  | cons run rest ih =>
    rw [total_cons] at h
    rw [inRuns_cons, blockOf]
    grind

theorem Claimed.fresh {outside : Nat → Prop} (h : Claimed outside runs inode maps) : Fresh inode runs := by
  refine ⟨?_, fun i hi k phys => (h.placed.owns _ ⟨k, phys⟩).2 (.inr (blockOf_inRuns hi)), h.narrow⟩
  have apart := h.apart
  clear h
  induction runs with
  | nil => exact fun i j hi => absurd hi (Nat.not_lt_zero i)
  | cons run rest ih =>
    obtain ⟨first, apart⟩ := pairwise_cons.mp apart
    have away (j : Nat) (hj : j < total rest) : ¬ (run.1 ≤ blockOf rest j ∧ blockOf rest j < run.1 + run.2) := by
      intro ⟨lo, hi⟩
      obtain ⟨q, member, inside⟩ := blockOf_inRuns hj
      exact first q member _ lo hi inside
    intro i j hi hj same
    rw [total_cons] at hi hj
    simp only [blockOf] at same
    grind

/-- A write leaves the blocks of the other files alone. If it returns its length, it puts its
bytes into its file and leaves the others as they are. -/
theorem write_bytes (ok : w.Ok) (live : w.files i = some file)
    (served : Served env FreeRun w.maps (blockCount len offset) runs maps) (far : offset + len ≤ (2 ^ 31 - 1) * 4096)
    (call : inodeWriteAtomic env w.sbi file.inode buf len offset = some (ret, inode, sbi)) :
    (∀ j k b o, j ≠ i → w.Owns j k b → o < 4096 → sbi.blocks (b * 4096 + o) = w.sbi.blocks (b * 4096 + o)) ∧
    (ret = len → ∀ x, ((place file.inode x).isSome → (place inode x).isSome) ∧
      ByteWritten file.inode inode w.sbi.blocks sbi.blocks buf len offset x) := by
  obtain ⟨claimed, _⟩ := served.claimed (ok.placed live)
  obtain ⟨others, own⟩ := inodeWriteAtomic_bytes (ok.indexed i file live) (ok.placed live).apart far served
    claimed.fresh call
  refine ⟨fun j k b o other owns low => others b o (fun l phys => ?_) (fun n hn same => ?_) low, own⟩
  · exact other (ok.safe.apart j i k l b owns ⟨file, live, phys⟩).1
  · refine (claimed.new b (same ▸ blockOf_inRuns hn)).2 ⟨(ok.safe.used j k b owns).2, fun l hl => ?_⟩
    exact other (ok.safe.apart j i k l b owns hl).1

theorem inodeCreate_blocks {granted : Bool} {appended : Int} {nodes entries : Nat → Bool} {r : Except Int Inode}
    (call : inodeCreate env w.sbi granted appended nodes entries = some (r, sbi)) : sbi.blocks = w.sbi.blocks := by
  simp only [inodeCreate] at call
  grind [map_eq_some_iff]

theorem Remembers.keep {w' : World} {known known' : Contents} (h : Remembers (w, known))
    (step : FileStep ReleasesOwn w w') (blocks : w'.sbi.blocks = w.sbi.blocks)
    (kept : ∀ i x v, known' i x = some v → known i x = some v ∧
      ∀ file, w.files i = some file → ∃ file', w'.files i = some file' ∧ file'.inode = file.inode) :
    Remembers (w', known') := by
  refine ⟨FileStep.ok h.ok step, fun i x v eq => ?_⟩
  obtain ⟨eq, kept⟩ := kept i x v eq
  obtain ⟨file, live, holds⟩ := h.known i x v eq
  obtain ⟨file', live', same⟩ := kept file live
  refine ⟨file', live', ?_⟩
  dsimp only at holds ⊢
  rw [same, blocks]
  exact holds

theorem Contents.forget_known {known : Contents} {j : Nat} (eq : known.forget i j x = some v)
    (file : Option LiveFile) (w : World) (sbi : Sbi) :
    known j x = some v ∧ (w.set i file sbi).files j = w.files j := by
  unfold forget at eq
  by_cases e : j = i
  · subst e
    rw [update_self] at eq
    cases eq
  · rw [update_of_ne e] at eq
    exact ⟨eq, update_of_ne e ..⟩

theorem ContentStep.remembers (h : Remembers s) (step : ContentStep s t) : Remembers t := by
  cases step with
  | @create w known i env granted appended nodes entries inode sbi new supply call =>
    refine h.keep (.create _ _ _ _ _ _ _ _ new supply call) (inodeCreate_blocks call) fun j x v eq => ?_
    obtain ⟨eq, same⟩ := Contents.forget_known eq (some ⟨inode, 1⟩) w sbi
    exact ⟨eq, fun file live => ⟨file, same.trans live, rfl⟩⟩
  | createFailed call =>
    exact h.keep (.createFailed _ _ _ _ _ _ _ call) (inodeCreate_blocks call) fun j x v eq =>
      ⟨eq, fun file live => ⟨file, live, rfl⟩⟩
  | @unlink w known file i live named =>
    refine h.keep (.unlink _ _ live named) rfl fun j x v eq => ⟨eq, fun f there => ?_⟩
    by_cases e : j = i
    · subst e
      obtain rfl := some.inj (live.symm.trans there)
      exact ⟨_, update_self .., rfl⟩
    · exact ⟨f, (update_of_ne e ..).trans there, rfl⟩
  | @release w known file i live unnamed own =>
    refine h.keep (.release _ _ live unnamed own) rfl fun j x v eq => ?_
    obtain ⟨eq, same⟩ := Contents.forget_known eq none w (doInodeRelease w.sbi file.inode)
    exact ⟨eq, fun f there => ⟨f, same.trans there, rfl⟩⟩
  | @write w known file i env buf len offset runs maps ret inode sbi live served far inside call =>
    refine ⟨FileStep.ok h.ok (.write _ _ _ _ _ _ _ _ _ _ _ live served far call), fun j x v eq => ?_⟩
    obtain ⟨others, own⟩ := write_bytes h.ok live served far call
    dsimp only [Contents.write] at eq
    by_cases e : j = i
    · subst e
      refine ⟨{ file with inode }, update_self .., ?_⟩
      rw [update_self] at eq
      split_ifs at eq with whole inside
      · cases eq
        exact (own whole x).2.inside inside.1 inside.2
      · obtain ⟨f, there, mapped, byte⟩ := h.known j x v eq
        obtain rfl := some.inj (live.symm.trans there)
        exact ⟨(own whole x).1 mapped, ((own whole x).2.outside inside mapped).trans byte⟩
    · rw [update_of_ne e] at eq
      obtain ⟨f, there, mapped, byte⟩ := h.known j x v eq
      refine ⟨f, (update_of_ne e ..).trans there, mapped, ?_⟩
      have indexed := h.ok.indexed j f there
      rw [indexed.place_eq, isSome_map] at mapped
      obtain ⟨b, phys⟩ := isSome_iff_exists.mp mapped
      rw [byteAt, indexed.place_eq, phys] at byte ⊢
      exact (others j _ b _ e ⟨f, there, phys⟩ (Nat.mod_lt x (by decide))).trans byte

/-- Whatever the files do in between, what is known of a file can be found in it. -/
theorem written_bytes_stay (ok : w.Ok) (run : Run ContentStep (w, fun _ _ => none) s) (known : s.2 i x = some v) :
    ∃ file, s.1.files i = some file ∧ Holds s.1.sbi.blocks file.inode x v :=
  (Run.invariant (I := Remembers) ContentStep.remembers run ⟨ok, fun _ _ _ eq => absurd eq (by simp)⟩).known i x v known

/-- The second block of a new file. -/
theorem written_bytes_stay_second : ∃ s, Run ContentStep (⟨crowded, fun _ => none⟩, fun _ _ => none) s ∧
    ∃ file, s.1.files 0 = some file ∧ Holds s.1.sbi.blocks file.inode 5000 1#8 := by
  have run : (created crowded).bind (fun a => (inodeWriteAtomic firstFit a.2 a.1 (fun _ => 1#8) 8192 0).map
      fun r => (r.1, servesAtOnce firstFit a.2.storage.data.maps 2)) = some (8192, true) := by
    decide +kernel
  obtain ⟨⟨a, s1⟩, first, run⟩ := bind_eq_some_iff.mp run
  obtain ⟨⟨ret, a', s2⟩, call, eq⟩ := map_eq_some_iff.mp run
  obtain ⟨rfl, once⟩ := Prod.mk.inj eq
  obtain ⟨runs, maps, served⟩ := Served.of_once once
  have create : ContentStep (⟨crowded, fun _ => none⟩, fun _ _ => none) _ :=
    .create (i := 0) rfl (fun _ => rfl) (inodeCreate_of_created first)
  have run : Run ContentStep _ _ := .tail (.single create)
    (.write (show World.files _ 0 = some ⟨a, 1⟩ by simp [World.set]) served (by decide)
      (show a.HasKeys 8192 0 from nofun) call)
  exact ⟨_, run, written_bytes_stay (.empty (emptyMaps_ok 3).toLaid) run (by simp [Contents.write])⟩

end SlotFs
