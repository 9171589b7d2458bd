import SlotFs.RecoverMaps

/-!
# The counts of a recovered directory

`rc_handle_dirent` counts the entry it is given before it looks at `next`. The ghost slot is on
the log and its `next` is 0, so the loop of `rc_handle_inode` hands it over like every entry
in front of it.
-/

namespace SlotFs
open CWord Chains List Option

/-- The inodes that slots of a directory log name. -/
def Image.inosOf (image : Image) (slots : List Int) : List Nat := slots.map fun s => (image.dentTable s).ino

/-- The inodes `more` are queued behind what was there: each of `inos` that had no link yet. -/
structure QueuedNew (mem : Malloced) (inos : List Nat) (rc rc' : Rc) (more : List Nat) : Prop where
  data : rc'.queue.data = rc.queue.data ++ more.map fun c => toInt32 c
  once : more.Nodup
  mem_iff : ∀ c, c ∈ more ↔ c ∈ inos ∧ (rc.inodeAt mem c).link = 0

/-- A directory with the entries `inos` has been counted right. -/
structure DirCounted (mem : Malloced) (ino : Nat) (inos : List Nat) (rc rc' : Rc) : Prop where
  entryNum : (rc'.inodeAt mem ino).entryNum = inos.length
  links : ∀ c, (rc'.inodeAt mem c).link = (rc.inodeAt mem c).link + inos.count c
  queued : ∃ more, QueuedNew mem inos rc rc' more

/-- What handling a part of the log does to the counts. -/
structure Credited (mem : Malloced) (ino : Nat) (inos : List Nat) (rc rc' : Rc) : Prop where
  entryNum : (rc'.inodeAt mem ino).entryNum = wrap64 ((rc.inodeAt mem ino).entryNum + inos.length)
  links : ∀ c, (rc'.inodeAt mem c).link = (rc.inodeAt mem c).link + inos.count c
  queued : (∀ c, 0 ≤ (rc.inodeAt mem c).link) → ∃ more, QueuedNew mem inos rc rc' more

section
variable {mem : Malloced} {image : Image} {rc rc1 rc' : Rc} {ino c : Nat} {inos more : List Nat}
  {slots : List Int} {s ghost : Int}

theorem queueLinked_data {q q' : RcQueue} {link : Int} (run : queueLinked q link c = some q') :
    q'.data = q.data ++ if link = 1 then [toInt32 c] else [] := by
  unfold queueLinked at run
  split at run <;> rename_i first
  · rw [queuePush_eq_some run, if_pos first]
  · rw [← some.inj run, if_neg first, append_nil]

/-- One slot counts as one entry, the ghost slot like every other. -/
theorem rcHandleDirent_credited {next : Int} (run : rcHandleDirent mem image rc ino s = some (rc', next)) :
    next = (image.dentTable s).next ∧ Credited mem ino [(image.dentTable s).ino] rc rc' := by
  obtain ⟨_, rfl, push, _, links, entryNum, _⟩ := rcHandleDirent_cases run
  refine ⟨rfl, entryNum, fun c => ?_, fun _ => ?_⟩
  · rw [links, count_singleton]
    by_cases named : c = (image.dentTable s).ino
    · simp [named]
    · simp [named, Ne.symm named]
  have data := queueLinked_data push
  split at data <;> rename_i first
  · refine ⟨[(image.dentTable s).ino], data, nodup_singleton _, fun c => ?_⟩
    rw [mem_singleton, iff_self_and]
    rintro rfl
    omega
  refine ⟨[], data, nodup_nil, fun c => ⟨fun member => absurd member not_mem_nil, ?_⟩⟩
  rintro ⟨member, unlinked⟩
  rw [mem_singleton.mp member] at unlinked
  exact absurd (by rw [unlinked]; rfl) first

theorem QueuedNew.cons {more' : List Nat} (links : ∀ e, (rc1.inodeAt mem e).link =
      (rc.inodeAt mem e).link + [c].count e) (nonneg : ∀ e, 0 ≤ (rc.inodeAt mem e).link)
    (h : QueuedNew mem [c] rc rc1 more) (h' : QueuedNew mem inos rc1 rc' more') :
    QueuedNew mem (c :: inos) rc rc' (more ++ more') := by
  have here (e : Nat) (member : e ∈ more) : e = c := mem_singleton.mp ((h.mem_iff e).mp member).1
  have later (e : Nat) : e ∈ more' ↔ e ≠ c ∧ e ∈ inos ∧ (rc.inodeAt mem e).link = 0 := by
    rw [h'.mem_iff, links, count_singleton]
    by_cases own : c = e
    · have := nonneg e
      simp only [own, beq_self_eq_true, if_true, ne_eq, not_true_eq_false, false_and, iff_false]
      omega
    · simp [own, Ne.symm own]
  refine ⟨by rw [h'.data, h.data, append_assoc, map_append], ?_, fun e => ?_⟩
  · refine nodup_append.mpr ⟨h.once, h'.once, fun e first e' second same => ?_⟩
    exact ((later e').mp second).1 (same ▸ here e first)
  rw [mem_append, h.mem_iff, later, mem_singleton, mem_cons]
  by_cases own : e = c
  · simp [own]
  · simp [own]

theorem Credited.cons (h : Credited mem ino [c] rc rc1) (h' : Credited mem ino inos rc1 rc') :
    Credited mem ino (c :: inos) rc rc' := by
  refine ⟨?_, fun e => ?_, fun nonneg => ?_⟩
  · rw [h'.entryNum, h.entryNum]
    simp only [wrap64, length_cons, length_nil]
    omega
  · have split : (c :: inos).count e = [c].count e + inos.count e := by
      rw [← count_append, singleton_append]
    rw [h'.links, h.links, split]
    omega
  obtain ⟨more, queued⟩ := h.queued nonneg
  have kept (e : Nat) : 0 ≤ (rc1.inodeAt mem e).link := by
    have := nonneg e
    rw [h.links]
    omega
  obtain ⟨more', queued'⟩ := h'.queued kept
  exact ⟨more ++ more', queued.cons h.links nonneg queued'⟩

/-- The loop counts the whole log. -/
theorem rcLogLoop_credited {fuel : Nat} {head : Int} (dir : image.isDir ino = true)
    (log : LogOf (fun s => (image.dentTable s).next) (image.slotNum .dir) head slots ghost)
    (run : rcLogLoop mem image ino fuel rc head = some rc') :
    Credited mem ino (image.inosOf (slots ++ [ghost])) rc rc' := by
  induction slots generalizing rc head fuel with
  | nil =>
    obtain rfl := log.nil
    cases fuel with
    | zero => cases run
    | succ fuel =>
      rw [rcLogLoop, if_neg log.head_inside.1.ne', if_pos dir] at run
      obtain ⟨⟨rc1, next⟩, slot, rest⟩ := bind_eq_some_iff.mp run
      obtain ⟨rfl, credited⟩ := rcHandleDirent_credited slot
      cases fuel with
      | zero => cases rest
      | succ fuel =>
        have stop : (image.dentTable head).next = 0 := log.ended
        simp only [rcLogLoop, stop, if_true] at rest
        obtain rfl := some.inj rest
        exact credited
  | cons t slots ih =>
    obtain ⟨rfl, tail⟩ := log.tail
    cases fuel with
    | zero => cases run
    | succ fuel =>
      rw [rcLogLoop, if_neg log.head_inside.1.ne', if_pos dir] at run
      obtain ⟨⟨rc1, next⟩, slot, rest⟩ := bind_eq_some_iff.mp run
      obtain ⟨rfl, credited⟩ := rcHandleDirent_credited slot
      exact credited.cons (ih tail rest)

theorem Credited.opened {inode : RcInode} {map : Mem} (same : Opened image ino (rc.inodeAt mem ino) inode)
    (h : Credited mem ino inos ((rc.setMap .inode map).setInode ino inode) rc') :
    Credited mem ino inos rc rc' := by
  have counts (c : Nat) : (((rc.setMap .inode map).setInode ino inode).inodeAt mem c).link =
      (rc.inodeAt mem c).link := by
    rw [Rc.inodeAt_setInode]
    split <;> rename_i own
    · rw [own, same.link]
    · rfl
  refine ⟨?_, fun c => ?_, fun nonneg => ?_⟩
  · rw [h.entryNum, Rc.inodeAt_setInode, if_pos rfl, same.entryNum]
  · rw [h.links, counts]
  · obtain ⟨more, queued⟩ := h.queued fun c => counts c ▸ nonneg c
    exact ⟨more, queued.data, queued.once, fun c => counts c ▸ queued.mem_iff c⟩

theorem rcHandleInode_credited (dir : image.isDir ino = true) (log : image.DirLog ino slots ghost)
    (run : rcHandleInode mem image rc ino = some rc') :
    Credited mem ino (image.inosOf (slots ++ [ghost])) rc rc' := by
  have inside : ino < image.slotNum .inode := by
    obtain ⟨out, found, _⟩ := bind_eq_some_iff.mp run
    exact rcIget_inside found
  obtain ⟨inode, same, start⟩ := @rcHandleInode_start mem image rc ino inside
  rw [start] at run
  exact (rcLogLoop_credited dir log run).opened same

theorem Credited.counted (h : Credited mem ino inos rc rc') (fresh : (rc.inodeAt mem ino).entryNum = 0)
    (few : inos.length < 2 ^ 64) (nonneg : ∀ c, 0 ≤ (rc.inodeAt mem c).link) : DirCounted mem ino inos rc rc' := by
  refine ⟨?_, h.links, h.queued nonneg⟩
  rw [h.entryNum, fresh, Nat.zero_add]
  exact Nat.mod_eq_of_lt few

theorem Credited.not_counted {inos' : List Nat} (h : Credited mem ino (inos ++ c :: inos') rc rc') :
    ¬ DirCounted mem ino inos rc rc' := by
  intro counted
  have exact := counted.links c
  rw [h.links, count_append, count_cons_self] at exact
  omega

end

/-- No directory is counted right: where handling it succeeds, its ghost slot has been counted as
one more entry. -/
theorem ghost_entry_counted {mem : Malloced} {image : Image} {rc : Rc} {ino : Nat} {slots : List Int}
    {ghost : Int} (dir : image.isDir ino = true) (log : image.DirLog ino slots ghost) :
    (¬ ∃ rc', rcHandleInode mem image rc ino = some rc' ∧ DirCounted mem ino (image.inosOf slots) rc rc') ∧
    ∀ rc', rcHandleInode mem image rc ino = some rc' → (rc.inodeAt mem ino).entryNum = 0 →
      slots.length + 1 < 2 ^ 64 → (∀ c, 0 ≤ (rc.inodeAt mem c).link) →
      DirCounted mem ino (image.inosOf (slots ++ [ghost])) rc rc' := by
  constructor
  · rintro ⟨rc', run, counted⟩
    have credited := rcHandleInode_credited dir log run
    rw [Image.inosOf, map_append] at credited
    exact credited.not_counted counted
  · intro rc' run fresh few nonneg
    refine (rcHandleInode_credited dir log run).counted fresh ?_ nonneg
    rwa [Image.inosOf, length_map, length_append, length_singleton]

theorem ghost_entry_counted_file : (fileImage emptyFile).DirLog 0 [1] 2 ∧
    ¬ ∃ rc', rcHandleInode zeroed (fileImage emptyFile) emptyRc 0 = some rc' ∧
      DirCounted zeroed 0 ((fileImage emptyFile).inosOf [1]) emptyRc rc' :=
  ⟨fileImage_root emptyFile, (ghost_entry_counted (isDir_fileImage emptyFile 0) (fileImage_root emptyFile)).1⟩

/-- The only entry of the root has been deleted; recovery counts one entry, and the deleted inode
gets a link and is queued. -/
theorem deleted_entry_counted : staleImage.DirLog 0 [] 1 ∧
    ∃ rc', rcHandleInode zeroed staleImage emptyRc 0 = some rc' ∧
      (rc'.inodeAt zeroed 0).entryNum = 1 ∧ (rc'.inodeAt zeroed 1).link = 1 ∧ rc'.queue.data = [1] ∧
      ¬ DirCounted zeroed 0 (staleImage.inosOf []) emptyRc rc' := by
  have run : ((rcHandleInode zeroed staleImage emptyRc 0).map fun rc => ((rc.inodeAt zeroed 0).entryNum,
      (rc.inodeAt zeroed 1).link, rc.queue.data)) = some (1, 1, [1]) := by decide +kernel
  obtain ⟨rc', handled, counts⟩ := map_eq_some_iff.mp run
  simp only [Prod.mk.injEq] at counts
  obtain ⟨entryNum, link, data⟩ := counts
  refine ⟨staleImage_root, rc', handled, entryNum, link, data, fun counted => ?_⟩
  have none := counted.entryNum
  cases entryNum.symm.trans none

end SlotFs
