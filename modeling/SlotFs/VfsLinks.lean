import SlotFs.VfsCalls

/-!
# Link counts

Without `slotfs_link`, `i_link` of every inode that is not a directory is the number of
entries that name it. `slotfs_link` makes an entry and leaves `i_link` as it is.
-/

namespace SlotFs
open Outcome Runs Option

variable {allowed : VfsEnv → Vfs → VfsCall → Prop} {v : Vfs}

theorem Vfs.Mounted.tied (h : v.Mounted) : v.Tied fun _ => 0 := by
  obtain ⟨root, live, isDir, number, list, tree, link, _⟩ := h.root
  have only {o : Nat} {i : VfsInode} (hi : v.objects o = some i) : o = v.root ∧ i = root := by
    by_cases e : o = v.root
    · subst e
      rw [live] at hi
      exact ⟨rfl, (some.inj hi).symm⟩
    · cases (h.alone o e).symm.trans hi
  constructor
  · intro o ho
    exact h.alone o (ne_of_gt (h.asked.trans_le ho))
  · exact h.maps.1
  · exact h.maps.2.1
  · intro o i hi
    obtain ⟨rfl, rfl⟩ := only hi
    rw [number]
    exact h.maps.2.2
  · intro o p i j hi hj _
    rw [(only hi).1, (only hj).1]
  · intro o i hi _
    obtain ⟨rfl, rfl⟩ := only hi
    exact .empty tree list
  · intro o i hi _
    obtain ⟨rfl, rfl⟩ := only hi
    rw [number]
    exact h.cached
  · intro o i hi _
    obtain ⟨rfl, rfl⟩ := only hi
    exact link
  · intro o i hi file
    obtain ⟨rfl, rfl⟩ := only hi
    exact absurd isDir file
  · intro o x hx
    cases hi : v.objects o with
    | none =>
      rw [Vfs.names, hi] at hx
      cases hx
    | some i =>
      obtain ⟨rfl, rfl⟩ := only hi
      rw [Vfs.names_of hi, VfsInode.names, if_pos isDir, Dir.inos, list] at hx
      cases hx
  · exact ⟨root, live, isDir⟩
  · exact h.cwd
  · rw [h.released]
    intro _ ho
    cases ho

def VfsCall.isLink : VfsCall → Bool
  | .link _ _ => true
  | _ => false

theorem VfsStep.tied {v' : Vfs} (noLink : ∀ env c, allowed env v c → c.isLink = false)
    (tied : v.Tied fun _ => 0) (step : VfsStep allowed v v') : v'.Tied fun _ => 0 := by
  cases step with
  | call env c v' ok call spares =>
    cases c with
    | «open» dfd path flags mode =>
      obtain ⟨r, open', rfl⟩ := map_eq_some_iff.mp call
      exact (tied.open env dfd path flags mode r open').1
    | close fd =>
      obtain ⟨r, close, rfl⟩ := map_eq_some_iff.mp call
      exact (tied.close fd r close).1
    | link target link => cases noLink env _ ok
    | unlink path =>
      obtain ⟨r, unlink, rfl⟩ := map_eq_some_iff.mp call
      exact (tied.unlink tied.kept env path r unlink spares).1
    | rename oldpath newpath =>
      obtain ⟨r, rename, rfl⟩ := map_eq_some_iff.mp call
      exact (tied.rename tied.kept env oldpath newpath r rename).1
    | release => exact (tied.thread tied.kept v' call).1

/-- `i_link` of an inode that is not a directory is the number of entries that name it, and
no entry names an inode that was released. -/
structure Vfs.LinksExact (v : Vfs) : Prop where
  links : ∀ o i, v.objects o = some i → ¬ i.isDir → i.iLink = v.entryCount i.iNo
  released : ∀ o ∈ v.releaseList, ∀ i, v.objects o = some i → v.entryCount i.iNo = 0

theorem Vfs.Tied.linksExact (h : v.Tied fun _ => 0) : v.LinksExact := by
  have links (o : Nat) (i : VfsInode) (hi : v.objects o = some i) (file : ¬ i.isDir) :
      i.iLink = v.entryCount i.iNo := by
    have := (h.files o i hi file).2
    omega
  refine ⟨links, fun o ho i hi => ?_⟩
  have gone := (h.released o ho).2 i hi
  rw [← links o i hi, gone]
  intro dir
  have := h.dirs o i hi dir
  omega

def Vfs.callSparing (v : Vfs) (env : VfsEnv) (c : VfsCall) : Option Vfs :=
  (v.call env c).filter fun w => w.freed = v.freed

theorem VfsStep.of_sparing {env : VfsEnv} {c : VfsCall} {w : Vfs} (ok : allowed env v c)
    (call : v.callSparing env c = some w) : VfsStep allowed v w := by
  obtain ⟨call, spares⟩ := filter_eq_some_iff.mp call
  exact .call env c w ok call (of_decide_eq_true spares)

def Vfs.callAll (v : Vfs) (env : VfsEnv) (calls : List VfsCall) : Option Vfs :=
  calls.foldlM (fun v c => v.callSparing env c) v

theorem Vfs.run_calls {env : VfsEnv} {calls : List VfsCall} {w : Vfs} (ok : ∀ c ∈ calls, ∀ v, allowed env v c)
    (call : v.callAll env calls = some w) : Run (VfsStep allowed) v w := by
  induction calls generalizing v with
  | nil =>
    cases call
    exact .refl
  | cons c rest ih =>
    obtain ⟨v', first, call⟩ := bind_eq_some_iff.mp call
    have run := ih (fun c hc => ok c (List.mem_cons_of_mem _ hc)) call
    exact .head (.of_sparing (ok c (List.mem_cons_self ..) v) first) run

/-- A new file system with 64 inodes. -/
def mountedVfs : Vfs where
  inodes := (doSlotAlloc (emptyMaps 64) 0).2
  dirs := emptyDir.storage
  objects := fun o => if o = 0 then
      some ⟨⟨0, 0, 1, 1, .nil, [], fun _ => ⟨0, 0, 0, 0⟩, ⟨0, fun _ => true⟩⟩, 0o040755, 1, 0, 0⟩
    else none
  arena := ⟨1, fun _ => true⟩
  inodeTable := fun ino => if ino = 0 then some 0 else none
  root := 0
  cwd := 0
  fTable := fun _ => ⟨false, none⟩
  fdHint := 0
  releaseList := []

theorem mountedVfs_mounted : mountedVfs.Mounted := by
  have zero : doSlotAlloc (emptyMaps 64) 0 = (0, mountedVfs.inodes) := Prod.ext (by decide +kernel) rfl
  obtain ⟨held, _⟩ := (Held.none (emptyMaps_ok 64) fun _ _ => show 64 ≤ 2 ^ 31 by decide).alloc zero le_rfl
  refine ⟨⟨_, rfl, ?_, rfl, rfl, rfl, rfl, rfl⟩, fun o ho => if_neg ho, Nat.one_pos, rfl, rfl,
    ⟨held.maps, held.small, held.taken 0 (by simp)⟩, fun _ => rfl, rfl⟩
  decide

/-- Memory is always available. -/
def plainVfsEnv : VfsEnv := ⟨plainRb, fun _ => 0, fun _ => .error enomem, fun _ => none, 1, fun _ => true, 0⟩

/-- The paths `/f` and `/g`. -/
def pathF : List (BitVec 8) := [slash, 0x66#8]
def pathG : List (BitVec 8) := [slash, 0x67#8]

def createF : VfsCall := .open atFdcwd pathF ⟨true, false, false⟩ 0o100644

/-- In every run without `slotfs_link`, and without `slotfs_unlink` of a directory, the link
counts are exact. -/
theorem link_counts_exact {v w : Vfs} (mounted : v.Mounted)
    (run : Run (VfsStep fun _ _ c => c.isLink = false) v w) : w.LinksExact := by
  have tied : w.Tied fun _ => 0 :=
    Run.invariant (I := fun v : Vfs => v.Tied fun _ => 0)
      (fun tied step => step.tied (fun _ _ ok => ok) tied) run mounted.tied
  exact tied.linksExact

/-- A file is made, renamed, closed and removed. -/
theorem link_counts_exact_removed : mountedVfs.Mounted ∧
    ∃ w, Run (VfsStep fun _ _ c => c.isLink = false) mountedVfs w ∧ w.releaseList = [1] ∧ w.LinksExact := by
  have calls : (mountedVfs.callAll plainVfsEnv [createF, .rename pathF pathG, .close 0, .unlink pathG]).map
      (·.releaseList) = some [1] := by decide +kernel
  obtain ⟨w, call, list⟩ := map_eq_some_iff.mp calls
  have run : Run (VfsStep fun _ _ c => c.isLink = false) mountedVfs w :=
    Vfs.run_calls (by simp [VfsCall.isLink, createF]) call
  exact ⟨mountedVfs_mounted, w, run, list, link_counts_exact mountedVfs_mounted run⟩

/-- A file gets a second name, and the first one is removed: the inode is released and
still has a name. -/
theorem linked_inode_released : mountedVfs.Mounted ∧
    ∃ w i, Run (VfsStep fun _ _ _ => True) mountedVfs w ∧ 1 ∈ w.releaseList ∧ w.objects 1 = some i ∧
      ¬ i.isDir ∧ i.iLink = 0 ∧ w.entryCount i.iNo = 1 := by
  have calls : (mountedVfs.callAll plainVfsEnv [createF, .link pathF pathG, .close 0, .unlink pathF]).bind
      (fun w => (w.objects 1).map fun i => (w.releaseList, i.isDir, i.iLink, w.entryCount i.iNo)) =
        some ([1], false, 0, 1) := by decide +kernel
  obtain ⟨w, call, seen⟩ := bind_eq_some_iff.mp calls
  obtain ⟨i, live, eq⟩ := map_eq_some_iff.mp seen
  simp only [Prod.mk.injEq] at eq
  obtain ⟨list, file, link, count⟩ := eq
  refine ⟨mountedVfs_mounted, w, i, Vfs.run_calls (fun _ _ _ => trivial) call, ?_, live, ?_, link, count⟩
  · rw [list]
    exact List.mem_singleton_self 1
  · rw [file]
    exact Bool.false_ne_true

end SlotFs
