import SlotFs.FileSize
import SlotFs.Recover

/-!
# Mounting

`slotfs.c` and `shm.c`. The super block, the counter of timestamps and the bitmaps in use are
in a shared memory segment that outlives the processes but not the machine. A segment that is
new is filled from PM by `shm_init`. Formatting is left out: `need_mkfs` is taken to say no.
-/

namespace SlotFs
open CWord Runs List Option

variable {h h' : Host} {mem : Malloced} {offset : Nat}

inductive Status
  | uninit | initing | ready | exit
  deriving DecidableEq

structure PmSb where
  ts : Nat
  umount : Bool

/-- The device: the super block, and what recovery reads and writes. -/
structure Pm where
  super : PmSb
  image : Image

structure DramSb where
  status : Status
  user : Int
  ts : Nat
  maps : SlotType → Maps

/-- `none` is a machine on which the segment does not exist. -/
structure Host where
  pm : Pm
  shm : Option DramSb

/-! ## `shm.c` -/

def mapNum : Nat := 1

def roundUp (n d : Nat) : Nat := (n + d - 1) / d * d

def popcount (b : BitVec 8) : Nat := (List.range 8).countP b.getLsbD

/-- Words are counted first and single bytes last, which adds up to this. -/
def countBits (m : Mem) (len : Nat) : Nat := ((List.range len).map fun a => popcount (m a)).sum

/-- One bitmap, copied from the byte `pmStart` of the one in PM on. -/
def shmInitMap (bitmap : Mem) (pmStart bits bitOffset : Nat) : DramBitmap :=
  let dram : Mem := fun a => if a < mapBytes bits then bitmap (pmStart + a) else 0#8
  { dram, bitOffset, bitNum := bits
    remain := sub64 bits (toSize (toInt32 (countBits dram (mapBytes bits))))
    hint := toSize (nextZeroBit dram bits 0) }

/-- The loop over the maps of one type, from map `j` on. -/
def shmInitLoop (bitmap : Mem) (num bitsPerMap : Nat) : Nat → Nat → Nat → Nat → Nat → Maps → Maps
  | 0, _, _, _, _, maps => maps
  | n + 1, j, totalBits, bitOffset, pmStart, maps =>
    let bits := if j + 1 = num then totalBits else bitsPerMap
    shmInitLoop bitmap num bitsPerMap n (j + 1) (sub64 totalBits bits) (wrap64 (bitOffset + bits))
      (pmStart + mapBytes bits) (maps.set j (shmInitMap bitmap pmStart bits bitOffset))

/-- A segment that has just been created holds zeros. -/
def zeroMaps : Maps := ⟨mapNum, fun _ => ⟨fun _ => 0#8, 0, 0, 0, 0⟩⟩

def shmInitBitmap (slotNum : SlotType → Nat) (bitmap : SlotType → Mem) (type : SlotType) : Maps :=
  shmInitLoop (bitmap type) mapNum (roundUp (slotNum type / mapNum) 64) mapNum 0 (slotNum type) 0 0 zeroMaps

def shmInit (pm : Pm) (sbi : DramSb) : DramSb :=
  { sbi with
    ts := pm.super.ts
    user := 0
    maps := shmInitBitmap pm.image.slotNum pm.image.bitmap }

def shmMap (shm : Option DramSb) : DramSb := shm.getD ⟨.uninit, 0, 0, fun _ => zeroMaps⟩

/-! ## `slotfs.c` -/

/-- The incremented counter is both stored and returned. -/
def slotfsTimestamp (ts : Nat) : Nat := wrap64 (ts + 1)

def needRecovery (sbi : DramSb) (pm : Pm) : Bool :=
  if sbi.status ≠ .uninit then false else !pm.super.umount

/-- What is in PM when `slotfs_init` has recovered it, if it needs to. -/
def recovered (mem : Malloced) (sbi : DramSb) (pm : Pm) : Option Image :=
  if needRecovery sbi pm then recover mem pm.image else some pm.image

/-- `none` is the wait for a process that does not get ready. -/
def initSb (pm : Pm) (sbi : DramSb) : Option DramSb :=
  match sbi.status with
  | .initing => none
  | .uninit => some { shmInit pm sbi with status := .ready }
  | .ready => some sbi
  | .exit => some sbi

/-- The journal is replayed after a recovery; what that does to names and data is left out. -/
def slotfsInit (mem : Malloced) (h : Host) : Option Host := do
  let sbi := shmMap h.shm
  let image ← recovered mem sbi h.pm
  let pm := { h.pm with image }
  let sbi ← initSb pm sbi
  some ⟨{ pm with super := { pm.super with umount := false } }, some { sbi with user := sbi.user + 1 }⟩

/-- `crash` is the variable `SLOTFS_CRASH`. What `runtime_exit` closes is left out. -/
def slotfsExit (crash : Bool) (h : Host) : Option Host := do
  let sbi ← h.shm
  let sbi := { sbi with user := sbi.user - 1 }
  if sbi.user > 0 then some { h with shm := some sbi }
  else
    let super := if crash then h.pm.super else { h.pm.super with umount := true }
    let status := if sbi.user = 0 then .exit else sbi.status
    some ⟨{ h.pm with super }, some { sbi with status }⟩

/-- The machine goes down, or the segment is removed. -/
def Host.down (h : Host) : Host := { h with shm := none }

/-! ## What a mount loads -/

theorem slotfsInit_new (new : h.shm = none) (mount : slotfsInit mem h = some h') :
    (if h.pm.super.umount then some h.pm.image else recover mem h.pm.image) = some h'.pm.image ∧
    h'.pm.super = { h.pm.super with umount := false } ∧
    h'.shm = some { status := .ready, user := 1, ts := h.pm.super.ts
                    maps := shmInitBitmap h'.pm.image.slotNum h'.pm.image.bitmap } := by
  simp only [slotfsInit, shmMap, new, getD_none] at mount
  obtain ⟨image, read, mount⟩ := bind_eq_some_iff.mp mount
  cases mount
  refine ⟨?_, rfl, rfl⟩
  cases clean : h.pm.super.umount <;> simpa [recovered, needRecovery, clean] using read

theorem slotfsInit_again {sbi : DramSb} (mapped : h.shm = some sbi) (known : sbi.status ≠ .uninit)
    (mount : slotfsInit mem h = some h') : h' = ⟨{ h.pm with super := { h.pm.super with umount := false } },
      some { sbi with user := sbi.user + 1 }⟩ := by
  simp only [slotfsInit, shmMap, mapped, getD_some] at mount
  obtain ⟨image, same, mount⟩ := bind_eq_some_iff.mp mount
  obtain ⟨sbi', ready, mount⟩ := bind_eq_some_iff.mp mount
  simp only [recovered, needRecovery, known, ne_eq, not_false_eq_true, if_true, Bool.false_eq_true,
    if_false, some.injEq] at same
  subst same
  cases mount
  unfold initSb at ready
  split at ready
  · cases ready
  · contradiction
  · cases ready
    rfl
  · cases ready
    rfl

theorem slotfsExit_marks {crash : Bool} (exit : slotfsExit crash h = some h') :
    h'.pm.image = h.pm.image ∧ h'.pm.super.ts = h.pm.super.ts ∧
    ∃ sbi sbi', h.shm = some sbi ∧ h'.shm = some sbi' ∧ sbi'.ts = sbi.ts ∧
      (sbi'.status = sbi.status ∨ sbi'.status = .exit) := by
  unfold slotfsExit at exit
  obtain ⟨sbi, mapped, exit⟩ := bind_eq_some_iff.mp exit
  dsimp only at exit
  split at exit
  · cases exit
    exact ⟨rfl, rfl, sbi, _, mapped, rfl, rfl, .inl rfl⟩
  cases exit
  refine ⟨rfl, ?_, sbi, _, mapped, rfl, rfl, ?_⟩
  · cases crash <;> rfl
  dsimp only
  split
  · exact .inr rfl
  · exact .inl rfl

/-! ## The slots over an unmount -/

/-- The slots that are allocated, of each type. -/
def Host.allocated (h : Host) (type : SlotType) : Set Nat :=
  { n | ∃ sbi, h.shm = some sbi ∧ (sbi.maps type).Has n ∧ (sbi.maps type).used n = true }

/-- What a call of `slot.c` makes of the maps of a type. -/
inductive SlotCall (b : Maps) : Maps → Prop
  | alloc (cpu : Nat) : SlotCall b (doSlotAlloc b cpu).2
  | allocRange (cpu count : Nat) : SlotCall b (doSlotAllocRange b cpu count).2.2
  | free (index : Int) : SlotCall b (doSlotFree b index)
  | freeRange (index : Int) (count : Nat) : SlotCall b (doSlotFreeRange b index count)

/-- While the segment is there: slots are taken and given back, the tables in PM change, and
processes come and go. -/
inductive MountStep (h : Host) : Host → Prop
  | slots (sbi : DramSb) (type : SlotType) (maps : Maps) (mapped : h.shm = some sbi)
      (call : SlotCall (sbi.maps type) maps) :
      MountStep h { h with shm := some { sbi with maps := Function.update sbi.maps type maps } }
  | store (image : Image) (slotNum : image.slotNum = h.pm.image.slotNum)
      (bitmap : image.bitmap = h.pm.image.bitmap) : MountStep h { h with pm := { h.pm with image } }
  | enter (mem : Malloced) (h' : Host) (call : slotfsInit mem h = some h') : MountStep h h'
  | leave (crash : Bool) (h' : Host) (call : slotfsExit crash h = some h') : MountStep h h'

/-- A segment is in use, and the bitmaps in PM are as `h` has them. -/
structure Host.Kept (h h' : Host) : Prop where
  mapped : ∃ sbi, h'.shm = some sbi ∧ sbi.status ≠ .uninit
  slotNum : h'.pm.image.slotNum = h.pm.image.slotNum
  bitmap : h'.pm.image.bitmap = h.pm.image.bitmap

theorem MountStep.kept {h0 : Host} (kept : h0.Kept h) (step : MountStep h h') : h0.Kept h' := by
  obtain ⟨sbi, mapped, known⟩ := kept.mapped
  cases step with
  | slots sbi1 type maps mapped1 call =>
    cases mapped1.symm.trans mapped
    exact ⟨⟨_, rfl, known⟩, kept.slotNum, kept.bitmap⟩
  | store image slotNum bitmap =>
    exact ⟨⟨sbi, mapped, known⟩, slotNum.trans kept.slotNum, bitmap.trans kept.bitmap⟩
  | enter mem h' call =>
    obtain rfl := slotfsInit_again mapped known call
    exact ⟨⟨_, rfl, known⟩, kept.slotNum, kept.bitmap⟩
  | leave crash h' call =>
    obtain ⟨image, _, sbi1, sbi', mapped1, mapped', _, status⟩ := slotfsExit_marks call
    cases mapped1.symm.trans mapped
    refine ⟨⟨sbi', mapped', ?_⟩, image ▸ kept.slotNum, image ▸ kept.bitmap⟩
    rcases status with same | exit
    · exact same ▸ known
    · exact exit ▸ nofun

theorem slotfsInit_allocated {mem' : Malloced} {g g' : Host} (new : g.shm = none)
    (mount : slotfsInit mem g = some h) (new' : g'.shm = none) (mount' : slotfsInit mem' g' = some h')
    (slotNum : h'.pm.image.slotNum = h.pm.image.slotNum) (bitmap : h'.pm.image.bitmap = h.pm.image.bitmap)
    (type : SlotType) : h'.allocated type = h.allocated type := by
  have first := (slotfsInit_new new mount).2.2
  have second := (slotfsInit_new new' mount').2.2
  simp only [Host.allocated, first, second, slotNum, bitmap, some.injEq, exists_eq_left']

theorem slotfsInit_clean (mem : Malloced) (clean : h.pm.super.umount = true) :
    ∃ h', slotfsInit mem h.down = some h' ∧ h'.pm.image = h.pm.image := by
  simp [slotfsInit, Host.down, shmMap, recovered, needRecovery, clean, initSb]

/-- A file system is mounted on a new segment, used, unmounted cleanly, and mounted again on
another segment: the slots allocated are the same if and only if they were the same before the
unmount as when it was mounted first. -/
theorem unmount_keeps_slots {mem mem' : Malloced} {h0 h1 h2 h3 : Host} (new : h0.shm = none)
    (mount : slotfsInit mem h0 = some h1) (run : Run MountStep h1 h2)
    (exit : slotfsExit false h2 = some h3) (clean : h3.pm.super.umount = true) :
    ∃ h4, slotfsInit mem' h3.down = some h4 ∧
      ((∀ type, h4.allocated type = h2.allocated type) ↔
        ∀ type, h2.allocated type = h1.allocated type) := by
  have start : h1.Kept h1 :=
    ⟨⟨_, (slotfsInit_new new mount).2.2, nofun⟩, rfl, rfl⟩
  have kept := Run.invariant (I := h1.Kept) MountStep.kept run start
  have image := (slotfsExit_marks exit).1
  obtain ⟨h4, mount', image'⟩ := slotfsInit_clean mem' clean
  refine ⟨h4, mount', ?_⟩
  have loaded := slotfsInit_allocated new mount rfl mount' (by rw [image', image, kept.slotNum])
    (by rw [image', image, kept.bitmap])
  constructor
  · intro same type
    rw [← same, loaded]
  · intro same type
    rw [loaded, same]

/-- A device with 64 slots of each type, of which none is taken, that was unmounted cleanly. -/
def blankHost : Host where
  pm := ⟨⟨0, true⟩, ⟨fun _ => 64, fun _ _ => 0#8, fun _ => ⟨0, 0, 0⟩, fun _ => ⟨0, [], 0, 0, 0⟩,
    fun _ => .zero⟩⟩
  shm := none

def zeroMalloced : Malloced := ⟨fun _ => 0, fun _ => 0, fun _ _ => 0⟩

/-- Mounted for the first time. -/
def blankSb : DramSb where
  status := .ready
  user := 1
  ts := 0
  maps := shmInitBitmap blankHost.pm.image.slotNum blankHost.pm.image.bitmap

theorem blankHost_init : slotfsInit zeroMalloced blankHost =
    some ⟨{ blankHost.pm with super := ⟨0, false⟩ }, some blankSb⟩ := rfl

/-- After `slot_inode_alloc` has taken slot 0. -/
def oneSb : DramSb :=
  { blankSb with maps := Function.update blankSb.maps .inode (doSlotAlloc (blankSb.maps .inode) 0).2 }

def oneInode : Host := ⟨{ blankHost.pm with super := ⟨0, false⟩ }, some oneSb⟩

/-- After it has been given back. -/
def returnedMaps : Maps := doSlotFree (oneSb.maps .inode) 0

def noInode : Host := ⟨oneInode.pm, some { oneSb with maps := Function.update oneSb.maps .inode returnedMaps }⟩

theorem noInode_allocated (type : SlotType) :
    noInode.allocated type = Host.allocated ⟨oneInode.pm, some blankSb⟩ type := by
  have clear : ∀ n < 64 * mapNum, (blankSb.maps .inode).used n = false ∧ returnedMaps.used n = false := by
    decide +kernel
  have bits : ((blankSb.maps .inode).map 0).bitNum = 64 ∧ (returnedMaps.map 0).bitNum = 64 := by decide +kernel
  have low {maps : Maps} {n : Nat} (has : maps.Has n) (bits : (maps.map 0).bitNum = 64)
      (num : maps.num = mapNum) : n < 64 * mapNum := by
    have := has.1
    rw [bits, num] at this
    omega
  ext n
  by_cases e : type = .inode
  · subst e
    constructor
    · rintro ⟨sbi, mapped, has, used⟩
      cases mapped
      cases (clear n (low has bits.2 rfl)).2.symm.trans used
    · rintro ⟨sbi, mapped, has, used⟩
      cases mapped
      cases (clear n (low has bits.1 rfl)).1.symm.trans used
  · simp [Host.allocated, noInode, oneSb, e]

/-- An inode is taken and given back. -/
theorem unmount_keeps_slots_returned : ∃ h1 h3 h4, slotfsInit zeroMalloced blankHost = some h1 ∧
    Run MountStep h1 noInode ∧ slotfsExit false noInode = some h3 ∧ slotfsInit zeroMalloced h3.down = some h4 ∧
    ∀ type, h4.allocated type = noInode.allocated type := by
  have taken : MountStep ⟨oneInode.pm, some blankSb⟩ oneInode := .slots blankSb .inode _ rfl (.alloc 0)
  have given : MountStep oneInode noInode := .slots oneSb .inode _ rfl (.free 0)
  have run : Run MountStep ⟨oneInode.pm, some blankSb⟩ noInode := .tail (.single taken) given
  obtain ⟨h4, mount, kept⟩ := @unmount_keeps_slots _ zeroMalloced _ _ _ _ rfl blankHost_init run rfl rfl
  exact ⟨_, _, h4, blankHost_init, run, rfl, mount, kept.mpr noInode_allocated⟩

/-- An inode is taken, and free again after the unmount. -/
theorem unmount_forgets_slot : ∃ h1 h3 h4, slotfsInit zeroMalloced blankHost = some h1 ∧
    Run MountStep h1 oneInode ∧ slotfsExit false oneInode = some h3 ∧ h3.pm.super.umount = true ∧
    slotfsInit zeroMalloced h3.down = some h4 ∧ 0 ∈ oneInode.allocated .inode ∧
    0 ∉ h4.allocated .inode := by
  refine ⟨_, _, _, blankHost_init, ?_, rfl, rfl, rfl, ?_, ?_⟩
  · exact .single (.slots blankSb .inode _ rfl (.alloc 0))
  · exact ⟨_, rfl, by decide +kernel, by decide +kernel⟩
  rintro ⟨sbi, mapped, _, used⟩
  cases mapped
  revert used
  decide +kernel

/-! ## Timestamps over mounts -/

theorem inodeWriteAtomic_ts {env : Env} {sbi sbi' : Sbi} {inode inode' : Inode} {buf : Mem} {len : Nat}
    {ret : Int} (call : inodeWriteAtomic env sbi inode buf len offset = some (ret, inode', sbi')) :
    sbi'.ts = sbi.ts ∨ sbi'.ts = slotfsTimestamp sbi.ts := by
  cases Wrote.of_call call with
  | journaled => exact Or.inl rfl
  | logged mgr low w ret inode' sbi' other loop log =>
    obtain ⟨r, inode1, storage, _, rfl, _⟩ := writeLog_cases log
    exact Or.inr (congrArg slotfsTimestamp (writeLoop_sbi loop).1)

/-- A machine, and the timestamps that were given to entries of its file system so far. -/
structure History where
  host : Host
  stamps : List Nat

open History

/-- The timestamp taken when the counter went from `before` to `after`. -/
def stampsTaken (before after : Nat) : List Nat := if after = before then [] else [after]

/-- Mounts, exits, crashes and writes, where the mounts are those that are `allowed`. A write
finds the rest of the file system in any state. -/
inductive HistoryStep (allowed : History → Prop) (s : History) : History → Prop
  | init (mem : Malloced) (h : Host) (meets : allowed s) (call : slotfsInit mem s.host = some h) :
      HistoryStep allowed s { s with host := h }
  | exit (crash : Bool) (h : Host) (call : slotfsExit crash s.host = some h) :
      HistoryStep allowed s { s with host := h }
  | down : HistoryStep allowed s { s with host := s.host.down }
  | write (dram : DramSb) (env : Env) (sbi : Sbi) (inode : Inode) (buf : Mem) (len offset : Nat)
      (ret : Int) (inode' : Inode) (sbi' : Sbi) (mapped : s.host.shm = some dram)
      (clock : sbi.ts = dram.ts) (room : sbi.ts + 1 < 2 ^ 63)
      (call : inodeWriteAtomic env sbi inode buf len offset = some (ret, inode', sbi')) :
      HistoryStep allowed s
        ⟨{ s.host with shm := some { dram with ts := sbi'.ts } }, s.stamps ++ stampsTaken sbi.ts sbi'.ts⟩

/-- A new segment starts from the `ts` of the super block, which only `mkfs` sets; no entry
may have a larger one. -/
def History.Seeded (s : History) : Prop := s.host.shm = none → ∀ t ∈ s.stamps, t ≤ s.host.pm.super.ts

structure History.Clocked (s : History) : Prop where
  grow : s.stamps.Pairwise (· < ·)
  known : ∀ sbi, s.host.shm = some sbi → sbi.status ≠ .uninit
  past : ∀ sbi, s.host.shm = some sbi → ∀ t ∈ s.stamps, t ≤ sbi.ts

theorem HistoryStep.clocked {s t : History} (ok : s.Clocked) (step : HistoryStep Seeded s t) : t.Clocked := by
  cases step with
  | init mem h seeded call =>
    cases mapped : s.host.shm with
    | none =>
      obtain ⟨_, _, shm⟩ := slotfsInit_new mapped call
      refine ⟨ok.grow, fun sbi mapped' => ?_, fun sbi mapped' => ?_⟩
      · cases mapped'.symm.trans shm
        nofun
      · cases mapped'.symm.trans shm
        exact seeded mapped
    | some sbi =>
      obtain rfl := slotfsInit_again mapped (ok.known sbi mapped) call
      refine ⟨ok.grow, fun sbi' mapped' => ?_, fun sbi' mapped' => ?_⟩
      · cases mapped'
        exact ok.known sbi mapped
      · cases mapped'
        exact ok.past sbi mapped
  | exit crash h call =>
    obtain ⟨_, _, sbi, sbi', mapped, shm, ts, status⟩ := slotfsExit_marks call
    refine ⟨ok.grow, fun sbi1 mapped1 => ?_, fun sbi1 mapped1 => ?_⟩
    · cases mapped1.symm.trans shm
      rcases status with same | exit
      · exact same ▸ ok.known sbi mapped
      · exact exit ▸ nofun
    · cases mapped1.symm.trans shm
      exact ts ▸ ok.past sbi mapped
  | down => exact ⟨ok.grow, nofun, nofun⟩
  | write dram env sbi inode buf len offset ret inode' sbi' mapped clock room call =>
    have past := ok.past dram mapped
    rw [← clock] at past
    have known := ok.known dram mapped
    rcases inodeWriteAtomic_ts call with same | tick
    · simp only [stampsTaken, same, if_true, append_nil]
      refine ⟨ok.grow, fun sbi1 mapped1 => ?_, fun sbi1 mapped1 => ?_⟩
      · cases mapped1
        exact known
      · cases mapped1
        exact past
    have next : sbi'.ts = sbi.ts + 1 := tick.trans (wrap64_of_lt (by omega))
    simp only [stampsTaken, next, Nat.succ_ne_self, if_false]
    refine ⟨?_, fun sbi1 mapped1 => ?_, fun sbi1 mapped1 t member => ?_⟩
    · refine pairwise_append.mpr ⟨ok.grow, pairwise_singleton _ _, fun t member u new => ?_⟩
      rw [mem_singleton.mp new]
      exact Nat.lt_succ_of_le (past t member)
    · cases mapped1
      exact known
    cases mapped1
    rcases mem_append.mp member with old | new
    · exact Nat.le_succ_of_le (past t old)
    · exact (mem_singleton.mp new).le

/-- One block is written to a new file when the counter is at `ts`; the counter afterwards, and
the timestamp of the record. -/
def writeAt (ts : Nat) : Option (Inode × Sbi × Int × Inode × Sbi) :=
  (created { blankSbi 64 0#8 with ts }).bind fun new =>
    (inodeWriteAtomic firstFit new.2 new.1 (fun _ => 1#8) 4096 0).map fun out => (new.1, new.2, out)

/-- The first mount, with the counter at `ts`. -/
def blankMounted (ts : Nat) : Host := ⟨{ blankHost.pm with super := ⟨0, false⟩ }, some { blankSb with ts }⟩

theorem writeAt_step {allowed : History → Prop} {ts : Nat} (stamps : List Nat) (room : ts + 1 < 2 ^ 63)
    (runs : (writeAt ts).map (fun out => (out.2.1.ts, out.2.2.2.2.ts)) = some (ts, ts + 1)) :
    HistoryStep allowed ⟨blankMounted ts, stamps⟩ ⟨blankMounted (ts + 1), stamps ++ [ts + 1]⟩ := by
  obtain ⟨⟨inode, sbi, ret, inode', sbi'⟩, call, eq⟩ := map_eq_some_iff.mp runs
  obtain ⟨before, after⟩ := Prod.mk.inj eq
  obtain ⟨new, _, call⟩ := bind_eq_some_iff.mp call
  obtain ⟨out, call, eq⟩ := map_eq_some_iff.mp call
  cases eq
  dsimp only at before after
  have step : HistoryStep allowed ⟨blankMounted ts, stamps⟩ _ := .write { blankSb with ts }
    firstFit new.2 new.1 (fun _ => 1#8) 4096 0 ret inode' sbi' rfl before (before.symm ▸ room) call
  simp only [stampsTaken, before, after, Nat.succ_ne_self, if_false] at step
  exact step

end SlotFs
