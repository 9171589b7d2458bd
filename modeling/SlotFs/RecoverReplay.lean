import SlotFs.Lib.Worklist
import SlotFs.RecoverFile

/-!
# The inodes that recovery visits

An inode is queued when its count of links becomes 1. If the counts start at 0, every
inode is queued at most once, and recovery explores the inodes along all slots of the
directories, the ghost slots included. What a slot does is said once, and the bitmaps of
the whole replay follow from it.
-/

namespace SlotFs
open CWord Chains Relation Worklist Function List Option Rc

variable {c fuel : Nat} {inode : RcInode}

/-! ## What recovery follows -/

def Image.nextSlot (image : Image) (ino : Nat) (s : Int) : Int :=
  if image.isDir ino then (image.dentTable s).next else (image.fentTable s).next

/-- The slots of the log of an inode up to the one whose `next` is 0. -/
def Image.Log (image : Image) (ino : Nat) (slots : List Int) : Prop :=
  Chain (image.nextSlot ino) 0 (image.inodes ino).logHead slots

/-- A slot of directory `d` names inode `c`. -/
def Image.Names (image : Image) (d c : Nat) : Prop :=
  image.isDir d = true ∧ ∃ slots, image.Log d slots ∧ ∃ s ∈ slots, (image.dentTable s).ino = c

/-- The inodes that can be reached over the slots of directories. -/
def Image.Visits (image : Image) : Nat → Prop := ReflTransGen image.Names 0

def Image.logType (image : Image) (ino : Nat) : SlotType := if image.isDir ino then .dir else .file

/-- The queue and the links when the inodes `queued` have been queued. -/
structure Tracked (mem : Malloced) (image : Image) (queued : List Nat) (rc : Rc) : Prop where
  data : rc.queue.data = queued.map Nat.cast
  capacity : rc.queue.capacity = toInt32 (image.slotNum .inode)
  once : queued.Nodup
  inside : ∀ c ∈ queued, c < image.slotNum .inode
  links : ∀ c, 0 ≤ (rc.inodeAt mem c).link ∧ (0 < (rc.inodeAt mem c).link ↔ c ∈ queued)

/-- What becomes of the replay when `slots` of the log of `ino` have been followed and
`more` inodes have been queued. -/
structure Followed (mem : Malloced) (image : Image) (ino : Nat) (queued : List Nat) (slots : List Int)
    (more : List Nat) (rc rc' : Rc) : Prop where
  tracked : Tracked mem image (queued ++ more) rc'
  front : rc'.queue.front = rc.queue.front
  marked : ∀ b, bit (rc'.map (image.logType ino)) b = true ↔
    (∃ s ∈ slots, toSize s = b) ∨ bit (rc.map (image.logType ino)) b = true
  others : ∀ type, type ≠ image.logType ino → type ≠ .data → rc'.map type = rc.map type
  cleared : ∀ b, bit (rc.map .data) b = false → bit (rc'.map .data) b = false
  named : image.isDir ino = true → ∀ s ∈ slots, (image.dentTable s).ino ∈ queued ++ more
  only : ∀ c ∈ more, image.isDir ino = true ∧ ∃ s ∈ slots, (image.dentTable s).ino = c
  unhandled : ∀ c, c ≠ ino → rc.Unhandled c → rc'.Unhandled c

section
variable {mem : Malloced} {image : Image} {rc rc' rc'' : Rc} {ino : Nat} {queued more more' : List Nat}
  {slots slots' : List Int} {s next : Int}

theorem Followed.nil (tracked : Tracked mem image queued rc) (ino : Nat) :
    Followed mem image ino queued [] [] rc rc where
  tracked := by rwa [append_nil]
  front := rfl
  marked := by simp
  others := fun _ _ _ => rfl
  cleared := fun _ clear => clear
  named := fun _ _ member => absurd member not_mem_nil
  only := fun _ member => absurd member not_mem_nil
  unhandled := fun _ _ h => h

theorem Followed.append (h : Followed mem image ino queued slots more rc rc')
    (h' : Followed mem image ino (queued ++ more) slots' more' rc' rc'') :
    Followed mem image ino queued (slots ++ slots') (more ++ more') rc rc'' := by
  have assoc : queued ++ (more ++ more') = queued ++ more ++ more' := by rw [append_assoc]
  constructor
  · rw [assoc]
    exact h'.tracked
  · exact h'.front.trans h.front
  · intro b
    rw [h'.marked, h.marked]
    constructor
    · rintro (⟨s, member, eq⟩ | ⟨s, member, eq⟩ | before)
      · exact .inl ⟨s, mem_append_right _ member, eq⟩
      · exact .inl ⟨s, mem_append_left _ member, eq⟩
      · exact .inr before
    rintro (⟨s, member, eq⟩ | before)
    · rcases mem_append.mp member with member | member
      · exact .inr (.inl ⟨s, member, eq⟩)
      · exact .inl ⟨s, member, eq⟩
    · exact .inr (.inr before)
  · exact fun type other data => (h'.others type other data).trans (h.others type other data)
  · exact fun b clear => h'.cleared b (h.cleared b clear)
  · intro dir s member
    rw [assoc]
    rcases mem_append.mp member with member | member
    · exact mem_append_left _ (h.named dir s member)
    · exact h'.named dir s member
  · intro c member
    rcases mem_append.mp member with member | member
    · obtain ⟨dir, s, inside, eq⟩ := h.only c member
      exact ⟨dir, s, mem_append_left _ inside, eq⟩
    · obtain ⟨dir, s, inside, eq⟩ := h'.only c member
      exact ⟨dir, s, mem_append_right _ inside, eq⟩
  · exact fun c other before => h'.unhandled c other (h.unhandled c other before)

/-! ## One slot -/

theorem Rc.inodeAt_setInode (rc : Rc) (i c : Nat) (inode : RcInode) :
    (rc.setInode i inode).inodeAt mem c = if c = i then inode else rc.inodeAt mem c := by
  by_cases same : c = i <;> simp [inodeAt, setInode, same]

theorem Rc.Unhandled.setInode {i : Nat} (h : rc.Unhandled c) (kept : c = i → inode.list = [] ∧ inode.asked = 0) :
    (rc.setInode i inode).Unhandled c := by
  intro inode' found
  by_cases same : c = i
  · subst same
    rw [setInode_inodeTable, update_self] at found
    obtain rfl := some.inj found
    exact kept rfl
  · rw [setInode_inodeTable, update_of_ne same] at found
    exact h inode' found

theorem mark_eq_some {type : SlotType} (run : rc.mark image type s = some rc') :
    rc' = rc.setMap type (setBit (toSize s) (rc.map type)) := by
  obtain ⟨map, marked, rfl⟩ := map_eq_some_iff.mp run
  unfold rcSetBit at marked
  split at marked
  · obtain rfl := some.inj marked
    rfl
  · cases marked

theorem rcIget_inside {out : RcInode × Rc} (run : rcIget mem image rc ino = some out) :
    ino < image.slotNum .inode := by
  by_contra outside
  rw [rcIget, if_pos (by omega)] at run
  cases run

/-- Another link to inode `c`, which is queued with the first one. -/
theorem Tracked.link (h : Tracked mem image queued rc) (small : image.slotNum .inode < 2 ^ 31)
    (inside : c < image.slotNum .inode)
    (push : queueLinked rc.queue ((rc.inodeAt mem c).link + 1) c = some rc'.queue)
    (links : ∀ e, (rc'.inodeAt mem e).link = (rc.inodeAt mem e).link + if e = c then 1 else 0) :
    ∃ more, Tracked mem image (queued ++ more) rc' ∧ c ∈ queued ++ more ∧ (∀ e ∈ more, e = c) ∧
      rc'.queue.front = rc.queue.front := by
  obtain ⟨positive, queues⟩ := h.links c
  unfold queueLinked at push
  by_cases new : (rc.inodeAt mem c).link = 0
  · rw [if_pos (by omega), toInt32_of_lt (by omega)] at push
    have absent : c ∉ queued := fun member => by
      have := queues.mpr member
      omega
    have pushed := queuePush_eq_some push
    refine ⟨[c], ⟨?_, ?_, ?_, ?_, ?_⟩, by simp, by simp, by rw [pushed]⟩
    · simp [pushed, h.data]
    · rw [pushed]
      exact h.capacity
    · apply nodup_append.mpr
      refine ⟨h.once, nodup_singleton c, fun e member e' same => ?_⟩
      rw [mem_singleton.mp same]
      rintro rfl
      exact absent member
    · intro e member
      rcases mem_append.mp member with member | member
      · exact h.inside e member
      · rw [mem_singleton.mp member]
        exact inside
    intro e
    have before := h.links e
    rw [links, mem_append, mem_singleton]
    split <;> rename_i own
    · subst own
      exact ⟨by omega, fun _ => .inr rfl, fun _ => by omega⟩
    · simpa [own] using before
  · rw [if_neg (by omega)] at push
    have same := some.inj push
    have member : c ∈ queued := queues.mp (by omega)
    refine ⟨[], ⟨?_, ?_, ?_, ?_, ?_⟩, by simpa using member, by simp, by rw [same]⟩
    · rw [← same, h.data, append_nil]
    · rw [← same, h.capacity]
    · rw [append_nil]
      exact h.once
    · rw [append_nil]
      exact h.inside
    intro e
    have before := h.links e
    rw [links, append_nil]
    split <;> rename_i own
    · subst own
      exact ⟨by omega, fun _ => member, fun _ => by omega⟩
    · simpa using before

/-- What one entry of a directory does. -/
theorem rcHandleDirent_cases {dir : Nat} (run : rcHandleDirent mem image rc dir s = some (rc', next)) :
    (image.dentTable s).ino < image.slotNum .inode ∧ next = (image.dentTable s).next ∧
    queueLinked rc.queue ((rc.inodeAt mem (image.dentTable s).ino).link + 1) (image.dentTable s).ino =
      some rc'.queue ∧
    rc'.map = update rc.map .dir (setBit (toSize s) (rc.map .dir)) ∧
    (∀ e, (rc'.inodeAt mem e).link =
      (rc.inodeAt mem e).link + if e = (image.dentTable s).ino then 1 else 0) ∧
    (rc'.inodeAt mem dir).entryNum = wrap64 ((rc.inodeAt mem dir).entryNum + 1) ∧
    ∀ c, rc.Unhandled c → rc'.Unhandled c := by
  unfold rcHandleDirent at run
  obtain ⟨⟨child, rc1⟩, found, run⟩ := bind_eq_some_iff.mp run
  have inside := rcIget_inside found
  rw [rcIget_eq inside] at found
  obtain ⟨rfl, rfl⟩ := Prod.mk.inj (some.inj found)
  obtain ⟨rc2, marked, run⟩ := bind_eq_some_iff.mp run
  obtain rfl := mark_eq_some marked
  obtain ⟨queue, push, run⟩ := bind_eq_some_iff.mp run
  obtain ⟨inode, here, run⟩ := bind_eq_some_iff.mp run
  obtain ⟨rfl, rfl⟩ := Prod.mk.inj (some.inj run)
  refine ⟨inside, rfl, push, by simp, fun e => ?_, ?_, fun c before => ?_⟩
  · simp only [inodeAt, setInode_inodeTable, setMap_inodeTable, update_idem,
      update_apply] at here ⊢
    by_cases self : e = dir <;> by_cases named : e = (image.dentTable s).ino
    · subst self
      rw [if_pos named] at here
      obtain rfl := some.inj here
      simp [← named]
    · subst self
      simp only [if_neg named] at here
      simp [named, here]
    · simp [self, ← named]
    · simp [self, named]
  · simp only [setInode_inodeTable, setMap_inodeTable, update_apply] at here
    rw [inodeAt_setInode, if_pos rfl]
    split at here <;> rename_i own
    · obtain rfl := some.inj here
      rw [own]
    · rw [inodeAt, here, getD_some]
  · have kept (e : Nat) (same : c = e) : (rc.inodeAt mem e).list = [] ∧ (rc.inodeAt mem e).asked = 0 := by
      rw [← same]
      exact before.inodeAt mem
    have first : ((rc.setInode (image.dentTable s).ino (rc.inodeAt mem (image.dentTable s).ino)).setMap .dir
        (setBit (toSize s) (rc.map .dir))).Unhandled c := before.setInode (kept _)
    apply Unhandled.setInode
    · exact first.setInode (kept _)
    · rintro rfl
      refine first.setInode ?_ inode here
      exact kept _

theorem rcHandleDirent_followed (h : Tracked mem image queued rc) (small : image.slotNum .inode < 2 ^ 31)
    (dir : image.isDir ino = true) (run : rcHandleDirent mem image rc ino s = some (rc', next)) :
    next = image.nextSlot ino s ∧ ∃ more, Followed mem image ino queued [s] more rc rc' := by
  obtain ⟨inside, rfl, push, map, links, _, unhandled⟩ := rcHandleDirent_cases run
  obtain ⟨more, tracked, member, only, front⟩ := h.link small inside push links
  have type : image.logType ino = .dir := by simp [Image.logType, dir]
  refine ⟨by simp [Image.nextSlot, dir], more, tracked, front, ?_, ?_, ?_, ?_, ?_, ?_⟩
  · intro b
    rw [type, map, update_self]
    exact bit_markAll [s] _ b
  · intro t other _
    rw [type] at other
    rw [map, update_of_ne other]
  · intro b clear
    rwa [map, update_of_ne (by decide)]
  · intro _ t same
    rwa [mem_singleton.mp same]
  · exact fun e queued => ⟨dir, s, mem_singleton_self s, (only e queued).symm⟩
  · exact fun c _ before => unhandled c before

/-- What one record of a file does. -/
theorem rcHandleFilent_cases (run : rcHandleFilent mem image rc ino s = some (rc', next)) :
    ∃ inode inode' map, rc.inodeTable ino = some inode ∧ inode'.link = inode.link ∧
      (∀ b, bit (rc.map .data) b = false → bit map b = false) ∧ next = (image.fentTable s).next ∧
      rc' = ((rc.setMap .file (setBit (toSize s) (rc.map .file))).setMap .data map).setInode ino inode' := by
  unfold rcHandleFilent at run
  obtain ⟨rc1, marked, run⟩ := bind_eq_some_iff.mp run
  obtain rfl := mark_eq_some marked
  obtain ⟨inode, here, run⟩ := bind_eq_some_iff.mp run
  split at run <;> rename_i ghost
  · obtain ⟨rfl, rfl⟩ := Prod.mk.inj (some.inj run)
    refine ⟨inode, newRcFilent mem ino (image.fentTable s) inode, rc.map .data, here, rfl,
      fun _ clear => clear, ghost.symm, ?_⟩
    have same : (rc.setMap .file (setBit (toSize s) (rc.map .file))).setMap .data (rc.map .data) =
        rc.setMap .file (setBit (toSize s) (rc.map .file)) := by
      rw [setMap]
      congr 1
      exact update_eq_self ..
    rw [same]
  obtain ⟨⟨inode', map⟩, merge, run⟩ := bind_eq_some_iff.mp run
  obtain ⟨rfl, rfl⟩ := Prod.mk.inj (some.inj run)
  obtain ⟨link, clears⟩ := rcMergeRecord_clears merge
  exact ⟨inode, inode', map, here, link, clears, rfl, rfl⟩

theorem rcHandleFilent_followed (h : Tracked mem image queued rc) (file : image.isDir ino = false)
    (run : rcHandleFilent mem image rc ino s = some (rc', next)) :
    next = image.nextSlot ino s ∧ ∃ more, Followed mem image ino queued [s] more rc rc' := by
  obtain ⟨inode, inode', map, here, link, clears, rfl, rfl⟩ := rcHandleFilent_cases run
  have type : image.logType ino = .file := by simp [Image.logType, file]
  refine ⟨by simp [Image.nextSlot, file], [], ?_, rfl, ?_, ?_, ?_, ?_, ?_, ?_⟩
  · rw [append_nil]
    refine ⟨h.data, h.capacity, h.once, h.inside, fun c => ?_⟩
    have before := h.links c
    rw [inodeAt_setInode]
    split <;> rename_i own
    · subst own
      rw [inodeAt, here] at before
      rwa [link]
    · exact before
  · intro b
    rw [type]
    exact bit_markAll [s] _ b
  · intro t other data
    rw [type] at other
    simp [other, data]
  · intro b clear
    simpa using clears b clear
  · intro dir
    cases file.symm.trans dir
  · exact fun _ member => absurd member not_mem_nil
  · exact fun c other before => .setInode before fun same => absurd same other

/-- The loop stops at the slot whose `next` is 0, having followed the log up to it. -/
theorem rcLogLoop_followed (h : Tracked mem image queued rc) (small : image.slotNum .inode < 2 ^ 31)
    (run : rcLogLoop mem image ino fuel rc s = some rc') : ∃ slots more, Chain (image.nextSlot ino) 0 s slots ∧
      Followed mem image ino queued slots more rc rc' := by
  induction fuel generalizing queued rc s with
  | zero => cases run
  | succ fuel ih =>
    unfold rcLogLoop at run
    split at run <;> rename_i stop
    · obtain rfl := some.inj run
      exact ⟨[], [], stop ▸ .done, .nil h ino⟩
    obtain ⟨⟨rc1, next⟩, slot, rest⟩ := bind_eq_some_iff.mp run
    have one : next = image.nextSlot ino s ∧ ∃ more, Followed mem image ino queued [s] more rc rc1 := by
      split at slot <;> rename_i dir
      · exact rcHandleDirent_followed h small dir slot
      · exact rcHandleFilent_followed h (by simpa using dir) slot
    obtain ⟨rfl, more, followed⟩ := one
    obtain ⟨slots, more', chain, later⟩ := ih followed.tracked rest
    exact ⟨s :: slots, more ++ more', .step stop chain, followed.append later⟩

end

/-! ## The whole replay -/

/-- Slot `b` is on the log of the inode. -/
def Image.Uses (image : Image) (ino b : Nat) : Prop :=
  ∃ slots, image.Log ino slots ∧ ∃ s ∈ slots, toSize s = b

/-- The inodes `handled` have come out of the queue. -/
structure Replayed (mem : Malloced) (image : Image) (handled queued : List Nat) (rc : Rc) : Prop where
  explored : Explored image.Names 0 handled queued
  tracked : Tracked mem image queued rc
  front : rc.queue.front = handled.length
  inodes : ∀ b, bit (rc.map .inode) b = true ↔ b ∈ handled
  slots : ∀ type, type ≠ .inode → type ≠ .data → ∀ b, bit (rc.map type) b = true ↔
    ∃ d ∈ handled, image.logType d = type ∧ image.Uses d b
  blocks : ∀ b, bit (rc.map .data) b = false
  unhandled : ∀ c, c ∉ handled → rc.Unhandled c

section
variable {mem : Malloced} {image : Image} {rc rc' : Rc} {handled queued : List Nat} {d : Nat}
  {slots : List Int}

theorem Image.Log.uses_iff (log : image.Log d slots) (b : Nat) : image.Uses d b ↔ ∃ s ∈ slots, toSize s = b := by
  constructor
  · rintro ⟨slots', log', used⟩
    rwa [Chain.unique log' log] at used
  · exact fun used => ⟨slots, log, used⟩

theorem logType_ne_inode (image : Image) (d : Nat) : .inode ≠ image.logType d := by
  unfold Image.logType
  split <;> decide

/-- The next inode, after it has been taken from the queue and looked up. -/
def Rc.opened (rc : Rc) (d : Nat) (inode : RcInode) : Rc :=
  ({ rc with queue := { rc.queue with front := rc.queue.front + 1 } }.setMap .inode
    (setBit d (rc.map .inode))).setInode d inode

theorem Tracked.opened (h : Tracked mem image queued rc) (opened : Opened image d (rc.inodeAt mem d) inode) :
    Tracked mem image queued (rc.opened d inode) := by
  refine ⟨h.data, h.capacity, h.once, h.inside, fun c => ?_⟩
  have before := h.links c
  rw [Rc.opened, Rc.inodeAt_setInode]
  split <;> rename_i own
  · subst own
    rwa [opened.link]
  · exact before

section
variable (h : Replayed mem image handled queued rc)
include h

/-- An inode that is handled adds what its own log says. -/
theorem Replayed.handle (next : queued[handled.length]? = some d) (log : image.Log d slots) {more : List Nat}
    (followed : Followed mem image d queued slots more (rc.opened d inode) rc') :
    Replayed mem image (handled ++ [d]) (queued ++ more) rc' := by
  constructor
  · refine h.explored.step next followed.tracked.once (fun c member => ?_) fun c names => ?_
    · obtain ⟨dir, named⟩ := followed.only c member
      exact ⟨dir, slots, log, named⟩
    · obtain ⟨dir, slots', log', s, member, rfl⟩ := names
      rw [Chain.unique log' log] at member
      exact followed.named dir s member
  · exact followed.tracked
  · rw [followed.front, length_append, length_singleton, ← h.front]
    rfl
  · intro b
    rw [followed.others .inode (logType_ne_inode image d) (by decide)]
    have before := h.inodes b
    simp only [opened, setInode_map, setMap_map, update_self, bit_setBit,
      Bool.or_eq_true, decide_eq_true_eq, before, mem_append, mem_singleton]
    exact or_comm
  · intro type other data b
    have same : (rc.opened d inode).map type = rc.map type := update_of_ne other _ _
    have before := h.slots type other data b
    by_cases own : type = image.logType d
    · rw [own, followed.marked, ← own, same, before, ← log.uses_iff]
      simp only [mem_append, mem_singleton]
      constructor
      · rintro (uses | ⟨e, member, kind, uses⟩)
        · exact ⟨d, .inr rfl, own.symm, uses⟩
        · exact ⟨e, .inl member, kind, uses⟩
      · rintro ⟨e, member | rfl, kind, uses⟩
        · exact .inr ⟨e, member, kind, uses⟩
        · exact .inl uses
    rw [followed.others type own data, same, before]
    simp only [mem_append, mem_singleton]
    constructor
    · rintro ⟨e, member, kind, uses⟩
      exact ⟨e, .inl member, kind, uses⟩
    · rintro ⟨e, member | rfl, kind, uses⟩
      · exact ⟨e, member, kind, uses⟩
      · exact absurd kind.symm own
  · exact fun b => followed.cleared b (h.blocks b)
  · intro c outside
    obtain ⟨before, other⟩ : c ∉ handled ∧ c ≠ d := by simpa using outside
    refine followed.unhandled c other ?_
    apply Unhandled.setInode (h.unhandled c before)
    exact fun same => absurd same other

theorem Replayed.pop : queuePop rc.queue = queued[handled.length]?.map fun (d : Nat) =>
      ((d : Int), { rc.queue with front := rc.queue.front + 1 }) := by
  have at_front : rc.queue.data[rc.queue.front]? = queued[handled.length]?.map Nat.cast := by
    rw [h.tracked.data, h.front, List.getElem?_map]
  rw [queuePop, at_front, Option.map_map]
  rfl

theorem Replayed.step (small : image.slotNum .inode < 2 ^ 31) (next : queued[handled.length]? = some d)
    (run : rcHandleInode mem image { rc with queue := { rc.queue with front := rc.queue.front + 1 } } d =
      some rc') : ∃ more, Replayed mem image (handled ++ [d]) (queued ++ more) rc' := by
  have inside := h.tracked.inside d (mem_of_getElem? next)
  obtain ⟨inode, opened, start⟩ := rcHandleInode_start inside
  rw [start] at run
  obtain ⟨slots, more, log, followed⟩ := rcLogLoop_followed (h.tracked.opened opened) small run
  exact ⟨more, h.handle next log followed⟩

end

end

/-! ## When the replay gets through -/

def Image.DirLog (image : Image) (ino : Nat) : List Int → Int → Prop :=
  LogOf (fun s => (image.dentTable s).next) (image.slotNum .dir) (image.inodes ino).logHead

/-- Handling the inode comes to an end. -/
structure Followable (mem : Malloced) (image : Image) (d : Nat) : Prop where
  dir : image.isDir d = true → ∃ slots ghost, image.DirLog d slots ghost ∧
    ∀ s ∈ slots ++ [ghost], (image.dentTable s).ino < image.slotNum .inode
  file : image.isDir d = false → ∃ slots ghost, image.FileLog d slots ghost ∧
    DistinctTimes (slots.map image.fentTable) ∧
    Mergeable (mem.ref d) (image.slotNum .data) (slots.map image.fentTable)

section
variable {mem : Malloced} {image : Image} {rc rc' : Rc} {handled queued : List Nat} {d : Nat}
  {slots : List Int} {s : Int} {inode : RcInode}

section
variable (h : Tracked mem image queued rc)
include h

theorem Tracked.length_le : queued.length ≤ image.slotNum .inode := by
  have bounded : queued.toFinset ⊆ Finset.range (image.slotNum .inode) := by
    intro c member
    exact Finset.mem_range.mpr (h.inside c (mem_toFinset.mp member))
  calc queued.length = queued.toFinset.card := (toFinset_card_of_nodup h.once).symm
    _ ≤ (Finset.range (image.slotNum .inode)).card := Finset.card_le_card bounded
    _ = image.slotNum .inode := Finset.card_range _

/-- There is room in the queue for an inode that is not in it. -/
theorem Tracked.room (inside : c < image.slotNum .inode) (absent : c ∉ queued) :
    queued.length < image.slotNum .inode := by
  have bounded : (insert c queued.toFinset) ⊆ Finset.range (image.slotNum .inode) := by
    intro e member
    rcases Finset.mem_insert.mp member with rfl | member
    · exact Finset.mem_range.mpr inside
    · exact Finset.mem_range.mpr (h.inside e (mem_toFinset.mp member))
  calc queued.length < queued.toFinset.card + 1 := by
        rw [toFinset_card_of_nodup h.once]
        exact Nat.lt_succ_self _
    _ = (insert c queued.toFinset).card := (Finset.card_insert_of_notMem (by simpa using absent)).symm
    _ ≤ (Finset.range (image.slotNum .inode)).card := Finset.card_le_card bounded
    _ = image.slotNum .inode := Finset.card_range _

section
variable (small : image.slotNum .inode < 2 ^ 31)
include small

theorem Tracked.queueLinked (inside : c < image.slotNum .inode) :
    ∃ queue, queueLinked rc.queue ((rc.inodeAt mem c).link + 1) c = some queue := by
  unfold SlotFs.queueLinked
  split <;> rename_i first
  · have absent : c ∉ queued := fun member => by
      have := (h.links c).2.mpr member
      omega
    have room := h.room inside absent
    have capacity := h.capacity
    rw [toInt32_of_lt small] at capacity
    have length : rc.queue.data.length = queued.length := by rw [h.data, length_map]
    refine ⟨{ rc.queue with data := rc.queue.data ++ [toInt32 c] }, ?_⟩
    rw [queuePush, if_neg (by omega), if_neg (by omega)]
  · exact ⟨rc.queue, rfl⟩

theorem rcHandleDirent_proceeds (slot : 0 ≤ s ∧ s < image.slotNum .dir)
    (inside : (image.dentTable s).ino < image.slotNum .inode) (here : rc.inodeTable d = some inode) :
    ∃ rc' inode', rcHandleDirent mem image rc d s = some (rc', (image.dentTable s).next) ∧
      rc'.inodeTable d = some inode' := by
  obtain ⟨queue, push⟩ := h.queueLinked small inside
  obtain ⟨inode', present⟩ : ∃ inode', update rc.inodeTable (image.dentTable s).ino
      (some { rc.inodeAt mem (image.dentTable s).ino with
        link := (rc.inodeAt mem (image.dentTable s).ino).link + 1 }) d = some inode' := by
    by_cases own : d = (image.dentTable s).ino
    · exact ⟨_, by rw [own, update_self]⟩
    · exact ⟨inode, by rw [update_of_ne own, here]⟩
  simp only [rcHandleDirent, rcIget_eq inside, mark_inside slot, bind_eq_bind, bind_some,
    setInode_queue, setMap_queue, push, setInode_inodeTable, setMap_inodeTable,
    update_idem, present]
  exact ⟨_, _, rfl, update_self ..⟩

theorem rcLogLoop_dir_proceeds {head ghost : Int} (dir : image.isDir d = true)
    (log : LogOf (fun s => (image.dentTable s).next) (image.slotNum .dir) head slots ghost)
    (inside : ∀ s ∈ slots ++ [ghost], (image.dentTable s).ino < image.slotNum .inode)
    (here : rc.inodeTable d = some inode) (enough : slots.length + 2 ≤ fuel) :
    ∃ rc', rcLogLoop mem image d fuel rc head = some rc' := by
  induction slots generalizing queued rc inode head fuel with
  | nil =>
    obtain rfl := log.nil
    obtain ⟨fuel, rfl⟩ : ∃ n, fuel = n + 1 + 1 := ⟨fuel - 2, by simp at enough; omega⟩
    obtain ⟨pos, below⟩ := log.head_inside
    obtain ⟨rc1, inode1, slot, _⟩ := rcHandleDirent_proceeds h small ⟨pos.le, below⟩
      (inside head (by simp)) here
    refine ⟨rc1, ?_⟩
    rw [rcLogLoop, if_neg pos.ne', if_pos dir, slot, log.ended, bind_some]
    simp [rcLogLoop]
  | cons t slots ih =>
    obtain ⟨rfl, rest⟩ := log.tail
    obtain ⟨fuel, rfl⟩ : ∃ n, fuel = n + 1 := ⟨fuel - 1, by simp at enough; omega⟩
    obtain ⟨pos, below⟩ := log.head_inside
    obtain ⟨rc1, inode1, slot, present⟩ := rcHandleDirent_proceeds h small ⟨pos.le, below⟩
      (inside head (by simp)) here
    obtain ⟨_, more, followed⟩ := rcHandleDirent_followed h small dir slot
    have later (s : Int) (member : s ∈ slots ++ [ghost]) := inside s (mem_cons_of_mem _ member)
    obtain ⟨rc', run⟩ := ih followed.tracked rest later present (Nat.le_of_succ_le_succ enough)
    refine ⟨rc', ?_⟩
    rw [rcLogLoop, if_neg pos.ne', if_pos dir, slot, bind_some]
    exact run

end

end

/-- Handling an inode succeeds, whatever has been handled before. -/
theorem Followable.proceeds (f : Followable mem image d) (h : Tracked mem image queued rc)
    (small : image.slotNum .inode < 2 ^ 31) (inside : d < image.slotNum .inode)
    (unhandled : rc.Unhandled d) : ∃ rc', rcHandleInode mem image rc d = some rc' := by
  cases kind : image.isDir d with
  | true =>
    obtain ⟨slots, ghost, log, named⟩ := f.dir kind
    obtain ⟨inode, opened, start⟩ := rcHandleInode_start inside
    have tracked : Tracked mem image queued
        ((rc.setMap .inode (setBit d (rc.map .inode))).setInode d inode) :=
      ⟨h.data, h.capacity, h.once, h.inside, (h.opened opened).links⟩
    have length := log.length_le
    rw [start]
    exact rcLogLoop_dir_proceeds tracked small kind log named (update_self ..)
      (by rw [rcLogFuel]; omega)
  | false =>
    obtain ⟨slots, ghost, log, distinct, mergeable⟩ := f.file kind
    obtain ⟨inode, rc1, merged, run⟩ := rcHandleInode_file mem kind inside unhandled log
    obtain ⟨inode', map, merge⟩ := merged.proceeds distinct mergeable (rc.map .data)
    exact ⟨_, by rw [run, merge]; rfl⟩

/-- If all visited inodes can be handled, the replay ends. -/
theorem Replayed.proceeds (h : Replayed mem image handled queued rc) (fuel : Nat)
    (small : image.slotNum .inode < 2 ^ 31) (logs : ∀ d, image.Visits d → Followable mem image d)
    (enough : image.slotNum .inode < handled.length + fuel) : ∃ rc', rcReplay mem image fuel rc = some rc' := by
  induction fuel generalizing handled queued rc with
  | zero =>
    have le := h.explored.first.length_le
    have := h.tracked.length_le
    omega
  | succ fuel ih =>
    rw [rcReplay, h.pop]
    cases next : queued[handled.length]? with
    | none => exact ⟨rc, rfl⟩
    | some d =>
      have member := mem_of_getElem? next
      have popped : Tracked mem image queued
          { rc with queue := { rc.queue with front := rc.queue.front + 1 } } :=
        ⟨h.tracked.data, h.tracked.capacity, h.tracked.once, h.tracked.inside, h.tracked.links⟩
      obtain ⟨rc1, handle⟩ := (logs d (h.explored.sound d member)).proceeds popped small
        (h.tracked.inside d member) (h.unhandled d (h.explored.unhandled next))
      obtain ⟨more, later⟩ := h.step small next handle
      obtain ⟨rc', rest⟩ := ih later (by rw [length_append, length_singleton]; omega)
      refine ⟨rc', ?_⟩
      simp only [map_some, toSize_natCast, handle, bind_some, rest]

/-! ## From the root -/

/-- The memory that `malloc` returns has no links in it. -/
def Malloced.NoLinks (mem : Malloced) : Prop := ∀ ino, mem.link ino = 0

/-- The root is queued, and nothing has been handled. -/
def replayStart (mem : Malloced) (image : Image) : Rc where
  map := fun _ _ => 0#8
  inodeTable := update (fun _ => none) 0 (some { newRcInode mem 0 with link := 1 })
  queue := { queueInit (image.slotNum .inode) with data := [0] }

theorem queuePush_root {size : Nat} (small : size < 2 ^ 31) (pos : 0 < size) :
    queuePush (queueInit size) 0 = some { queueInit size with data := [0] } := by
  have capacity : (queueInit size).capacity = size := by
    simp only [queueInit]
    exact toInt32_of_lt small
  have data : (queueInit size).data = [] := rfl
  rw [queuePush, if_neg (by rw [capacity, data]; simp; omega),
    if_neg (by rw [capacity, data]; simp; omega), data, nil_append]

theorem rcInit_eq (pos : 0 < image.slotNum .inode) : rcInit mem image =
      some { replayStart mem image with queue := queueInit (image.slotNum .inode) } := by
  unfold rcInit
  rw [rcIget_eq pos]
  simp only [bind_eq_bind, bind_some, setInode, update_idem]
  rfl

theorem recover_of_start {queue : RcQueue} (init : rcInit mem image = some rc)
    (push : queuePush rc.queue 0 = some queue) : recover mem image =
      (rcReplay mem image (image.slotNum .inode + 1) { rc with queue }).map (rcFlush image) := by
  simp only [recover, init, push, bind_eq_bind, bind_some, map_eq_bind,
    comp_def]

theorem recover_eq (small : image.slotNum .inode < 2 ^ 31) (pos : 0 < image.slotNum .inode) : recover mem image =
      (rcReplay mem image (image.slotNum .inode + 1) (replayStart mem image)).map (rcFlush image) :=
  recover_of_start (rcInit_eq pos) (queuePush_root small pos)

theorem replayStart_replayed (noLinks : mem.NoLinks) (pos : 0 < image.slotNum .inode) :
    Replayed mem image [] [0] (replayStart mem image) := by
  constructor
  · exact .init
  · refine ⟨by simp [replayStart], by simp [replayStart, queueInit], nodup_singleton 0, fun c member => ?_,
      fun c => ?_⟩
    · rwa [mem_singleton.mp member]
    by_cases root : c = 0
    · subst root
      simp [inodeAt, replayStart]
    · simp [inodeAt, replayStart, root, newRcInode, noLinks c]
  · rfl
  · intro b
    simp [replayStart, bit]
  · intro type _ _ b
    simp [replayStart, bit]
  · intro b
    simp [replayStart, bit]
  intro c _ inode found
  simp only [replayStart, update_apply] at found
  split at found
  · obtain rfl := some.inj found
    exact ⟨rfl, rfl⟩
  · cases found

end

end SlotFs
