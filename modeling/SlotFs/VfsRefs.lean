import SlotFs.VfsLinks

/-!
# References of descriptors

`ref` of every inode is the number of descriptors that it has been opened through, as
long as `O_CREAT` is only given for new names.
-/

namespace SlotFs
open CWord Outcome Runs Function List Option Vfs FHeader

variable {fd o : Nat} {flags : OpenFlags} {h : FHeader} {i : VfsInode} {path : List (BitVec 8)}

def FHeader.Refers (h : FHeader) (o : Nat) : Prop := h.valid = true ∧ h.file = some o

/-- The valid descriptors whose file is an object. -/
def Vfs.descriptors (v : Vfs) (o : Nat) : Set Nat := {fd | fd < fdMax ∧ (v.fTable fd).Refers o}

noncomputable def Vfs.refCount (v : Vfs) (o : Nat) : Nat := (v.descriptors o).ncard

/-- `ref` of every inode is the number of its descriptors, so that the file of a descriptor
has a reference and none that was released has a descriptor. -/
structure Vfs.RefsExact (v : Vfs) : Prop where
  refs : ∀ o i, v.objects o = some i → i.ref = v.refCount o
  files : ∀ fd < fdMax, ∀ o, (v.fTable fd).Refers o → ∃ i, v.objects o = some i ∧ 0 < i.ref
  released : ∀ o ∈ v.releaseList, v.refCount o = 0

section
variable {v v' : Vfs}

theorem Vfs.descriptors_finite (v : Vfs) (o : Nat) : (v.descriptors o).Finite :=
  (Set.finite_lt_nat fdMax).subset fun _ h => h.1

theorem Vfs.refCount_le (v : Vfs) (o : Nat) : v.refCount o ≤ fdMax := by
  have within : v.descriptors o ⊆ Set.Iio fdMax := fun _ h => h.1
  calc v.refCount o ≤ (Set.Iio fdMax).ncard := Set.ncard_le_ncard within (Set.finite_Iio fdMax)
    _ = fdMax := Set.ncard_Iio_nat fdMax

theorem Vfs.refCount_pos (bound : fd < fdMax) (refers : (v.fTable fd).Refers o) : 0 < v.refCount o :=
  (Set.ncard_pos (v.descriptors_finite o)).mpr ⟨fd, bound, refers⟩

theorem Vfs.refCount_zero (unused : ∀ fd < fdMax, ¬ (v.fTable fd).Refers o) : v.refCount o = 0 := by
  rw [refCount, Set.ncard_eq_zero (v.descriptors_finite o)]
  exact Set.eq_empty_of_forall_notMem fun fd h => unused fd h.1 h.2

theorem Vfs.refCount_congr (table : v'.fTable = v.fTable) (o : Nat) : v'.refCount o = v.refCount o := by
  rw [refCount, descriptors, table]
  rfl

theorem Vfs.refCount_other (table : v'.fTable = update v.fTable fd h)
    (before : ¬ (v.fTable fd).Refers o) (after : ¬ h.Refers o) : v'.refCount o = v.refCount o := by
  rw [refCount, refCount]
  congr 1
  ext fd'
  apply and_congr_right
  intro _
  rw [table]
  by_cases e : fd' = fd
  · subst e
    rw [update_self]
    exact iff_of_false after before
  · rw [update_of_ne e]

/-- One descriptor of an object is added. -/
theorem Vfs.refCount_succ (bound : fd < fdMax) (table : v'.fTable = update v.fTable fd h)
    (before : ¬ (v.fTable fd).Refers o) (after : h.Refers o) : v'.refCount o = v.refCount o + 1 := by
  have new : fd ∉ v.descriptors o := fun member => before member.2
  rw [refCount, refCount, ← Set.ncard_insert_of_notMem new (v.descriptors_finite o)]
  congr 1
  ext fd'
  rw [Set.mem_insert_iff, descriptors, Set.mem_ofPred_eq, table]
  by_cases e : fd' = fd
  · subst e
    rw [update_self]
    exact iff_of_true ⟨bound, after⟩ (.inl rfl)
  · rw [update_of_ne e]
    exact (or_iff_right e).symm

theorem Vfs.RefsExact.of_refs (refs : ∀ o i, v.objects o = some i → i.ref = v.refCount o)
    (live : ∀ fd < fdMax, ∀ o, (v.fTable fd).Refers o → v.objects o ≠ none)
    (released : ∀ o ∈ v.releaseList, v.refCount o = 0) : v.RefsExact := by
  refine ⟨refs, fun fd bound o refers => ?_, released⟩
  obtain ⟨i, hi⟩ := ne_none_iff_exists'.mp (live fd bound o refers)
  refine ⟨i, hi, ?_⟩
  rw [refs o i hi]
  exact refCount_pos bound refers

theorem Vfs.RefsExact.same (h : v.RefsExact) (same : v.SameRefs v') : v'.RefsExact := by
  have count := refCount_congr same.table
  apply RefsExact.of_refs
  · intro o i hi
    have refs := same.refs o
    rw [hi] at refs
    obtain ⟨j, hj, eq⟩ := map_eq_some_iff.mp refs.symm
    rw [count, ← h.refs o j hj, eq]
  · intro fd bound o refers none
    rw [same.table] at refers
    obtain ⟨i, hi, _⟩ := h.files fd bound o refers
    have refs := same.refs o
    rw [hi, none] at refs
    cases refs
  intro o ho
  rw [same.released] at ho
  rw [count]
  exact h.released o ho

theorem Vfs.RefsExact.release (h : v.RefsExact) (live : v.objects o = some i) (unused : i.ref = 0) :
    (v.inodeRelease o).RefsExact := by
  refine ⟨h.refs, h.files, fun p hp => ?_⟩
  obtain rfl | hp := mem_cons.mp hp
  · exact (h.refs p i live).symm.trans unused
  · exact h.released p hp

/-- An object that a path leads to has not been released. -/
theorem Vfs.RefsExact.found (h : v.RefsExact) (tied : v.Tied fun _ => 0) {o : Nat} {i : VfsInode}
    (live : v.objects o = some i) (found : v.Found o) : o ∉ v.releaseList := by
  intro released
  have gone := (tied.released o released).2 i live
  obtain rfl | ⟨fd, bound, refers⟩ | ⟨p, x, named, table⟩ := found
  · obtain ⟨j, hj, dir⟩ := tied.root
    cases live.symm.trans hj
    have := tied.dirs _ i live dir
    omega
  · have := refCount_pos bound refers
    have := h.released o released
    omega
  obtain ⟨q, j, table', hj, _, linked⟩ := tied.found tied.kept named
  cases table.symm.trans table'
  cases live.symm.trans hj
  exact linked gone

theorem refInc_of_le {ref : Nat} (h : ref ≤ fdMax) : refInc ref = ref + 1 := by
  apply Nat.mod_eq_of_lt
  have : fdMax = 8192 := rfl
  omega

theorem refDec_of_le {ref : Nat} (pos : 0 < ref) (h : ref ≤ fdMax) : refDec ref = ref - 1 := by
  have : fdMax = 8192 := rfl
  rw [refDec, trunc32]
  omega

theorem FHeader.not_refers (valid : Bool) (o : Nat) : ¬ Refers ⟨valid, none⟩ o := nofun

/-- A descriptor is given back. -/
theorem Vfs.refCount_closed (bound : fd < fdMax) (refers : (v.fTable fd).Refers o)
    (table : v'.fTable = update v.fTable fd ⟨false, none⟩) :
    v.refCount o = v'.refCount o + 1 ∧ ∀ p, p ≠ o → v'.refCount p = v.refCount p := by
  constructor
  · have back : v.fTable = update v'.fTable fd (v.fTable fd) := by
      rw [table, update_idem, update_eq_self]
    apply refCount_succ bound back _ refers
    rw [table, update_self]
    exact not_refers false o
  · intro p other
    apply refCount_other table _ (not_refers false p)
    exact fun refers' => other (some.inj (refers'.2.symm.trans refers.2))

theorem Vfs.RefsExact.close (h : v.RefsExact) (closed : v.Closed fd o i v') : v'.RefsExact := by
  obtain ⟨own, other⟩ := refCount_closed closed.bound closed.file closed.table
  obtain ⟨_, live, pos⟩ := h.files fd closed.bound o closed.file
  cases closed.live.symm.trans live
  have ref := h.refs o i closed.live
  have dec : refDec i.ref = i.ref - 1 := by
    apply refDec_of_le pos
    rw [ref]
    exact v.refCount_le o
  apply RefsExact.of_refs
  · intro p j hj
    obtain ⟨rfl, rfl⟩ | ⟨e, hj⟩ := object_cases closed.objects hj
    · dsimp only
      omega
    · rw [other p e]
      exact h.refs p j hj
  · intro fd' bound p refers gone
    rw [closed.table] at refers
    by_cases e : fd' = fd
    · subst e
      rw [update_self] at refers
      exact not_refers false p refers
    rw [update_of_ne e] at refers
    obtain ⟨j, hj, _⟩ := h.files fd' bound p refers
    rw [closed.objects] at gone
    by_cases e : p = o
    · subst e
      rw [update_self] at gone
      cases gone
    · rw [update_of_ne e, hj] at gone
      cases gone
  · intro p hp
    by_cases e : p = o
    · subst e
      obtain same | ⟨last, list⟩ := closed.released
      · have := h.released p (same ▸ hp)
        omega
      · omega
    rw [other p e]
    obtain same | ⟨last, list⟩ := closed.released
    · exact h.released p (same ▸ hp)
    · rw [list] at hp
      exact h.released p ((mem_cons.mp hp).resolve_left e)

/-- An object without references is freed. -/
theorem Vfs.RefsExact.drop (h : v.RefsExact) (list : v.releaseList = o :: v'.releaseList)
    (objects : v'.objects = update v.objects o none) (table : v'.fTable = v.fTable) : v'.RefsExact := by
  have count := refCount_congr table
  apply RefsExact.of_refs
  · intro p i hi
    rw [objects] at hi
    by_cases e : p = o
    · subst e
      rw [update_self] at hi
      cases hi
    · rw [update_of_ne e] at hi
      rw [count]
      exact h.refs p i hi
  · intro fd bound p refers gone
    rw [table] at refers
    have pos := refCount_pos bound refers
    obtain ⟨i, hi, _⟩ := h.files fd bound p refers
    rw [objects, update_of_ne, hi] at gone
    · cases gone
    · rintro rfl
      have := h.released p (list ▸ mem_cons_self ..)
      omega
  · intro p hp
    rw [count]
    exact h.released p (list ▸ mem_cons_of_mem _ hp)

theorem Vfs.fdScan_spec {left i : Nat} (found : v.fdScan left i = some fd) :
    fd < fdMax ∧ (v.fTable fd).valid = false := by
  induction left generalizing i with
  | zero => cases found
  | succ left ih =>
    simp only [fdScan] at found
    split at found
    · exact ih found
    · rename_i free
      cases found
      exact ⟨Nat.mod_lt _ (by decide), Bool.not_eq_true _ ▸ free⟩

theorem Vfs.fdAlloc_spec (alloc : v.fdAlloc = (some fd, v')) :
    fd < fdMax ∧ (v.fTable fd).valid = false ∧ v' = { v with
      fdHint := (fd + 1) % fdMax, fTable := update v.fTable fd ⟨true, none⟩ } := by
  simp only [fdAlloc] at alloc
  split at alloc
  · cases alloc
  rename_i found
  cases alloc
  obtain ⟨bound, free⟩ := fdScan_spec found
  exact ⟨bound, free, rfl⟩

/-- A descriptor without a file counts for no object. -/
theorem Vfs.RefsExact.mark (h : v.RefsExact) (alloc : v.fdAlloc = (some fd, v')) : v'.RefsExact := by
  obtain ⟨bound, free, eq⟩ := fdAlloc_spec alloc
  have table : v'.fTable = update v.fTable fd ⟨true, none⟩ := by rw [eq]
  have objects : v'.objects = v.objects := by rw [eq]
  have count (p : Nat) : v'.refCount p = v.refCount p := by
    apply refCount_other table _ (not_refers true p)
    rintro ⟨valid, _⟩
    cases free.symm.trans valid
  apply RefsExact.of_refs
  · intro p i hi
    rw [count]
    exact h.refs p i (objects ▸ hi)
  · intro fd' bound' p refers gone
    rw [table] at refers
    by_cases e : fd' = fd
    · subst e
      rw [update_self] at refers
      exact not_refers true p refers
    rw [update_of_ne e] at refers
    obtain ⟨i, hi, _⟩ := h.files fd' bound' p refers
    rw [objects, hi] at gone
    cases gone
  intro p hp
  rw [count]
  have released : v'.releaseList = v.releaseList := by rw [eq]
  exact h.released p (released ▸ hp)

/-- A marked descriptor gets a file that has one reference more than before. -/
theorem Vfs.RefsExact.install (h : v.RefsExact) (w : Vfs) (bound : fd < fdMax)
    (marked : v.fTable fd = ⟨true, none⟩) (live : w.objects o = some i) (ref : i.ref = v.refCount o + 1)
    (others : ∀ p, p ≠ o → (w.objects p).map VfsInode.ref = (v.objects p).map VfsInode.ref)
    (table : w.fTable = v.fTable) (released : w.releaseList = v.releaseList) (kept : o ∉ v.releaseList)
    (objects : v'.objects = w.objects) (list : v'.releaseList = w.releaseList)
    (file : v'.fTable = update w.fTable fd ⟨true, some o⟩) : v'.RefsExact := by
  rw [table] at file
  have unused (p : Nat) : ¬ (v.fTable fd).Refers p := by
    rw [marked]
    exact not_refers true p
  have own : v'.refCount o = v.refCount o + 1 := refCount_succ bound file (unused o) ⟨rfl, rfl⟩
  have other {p : Nat} (e : p ≠ o) : v'.refCount p = v.refCount p :=
    refCount_other file (unused p) fun refers => e (some.inj refers.2).symm
  apply RefsExact.of_refs
  · intro p j hj
    rw [objects] at hj
    by_cases e : p = o
    · subst e
      cases live.symm.trans hj
      exact ref.trans own.symm
    have refs := others p e
    rw [hj] at refs
    obtain ⟨k, hk, eq⟩ := map_eq_some_iff.mp refs.symm
    exact eq.symm.trans ((h.refs p k hk).trans (other e).symm)
  · intro fd' bound' p refers gone
    rw [objects] at gone
    rw [file] at refers
    by_cases ep : p = o
    · subst ep
      cases live.symm.trans gone
    by_cases e : fd' = fd
    · subst e
      rw [update_self] at refers
      exact ep (some.inj refers.2).symm
    rw [update_of_ne e] at refers
    obtain ⟨k, hk, _⟩ := h.files fd' bound' p refers
    have refs := others p ep
    rw [gone, hk] at refs
    cases refs
  · intro p hp
    rw [list, released] at hp
    have apart : p ≠ o := fun e => kept (e ▸ hp)
    exact (other apart).trans (h.released p hp)

theorem Vfs.RefsExact.open (h : v.RefsExact) (v' : Vfs) (tied : v.Tied fun _ => 0) {named : Prop}
    {s : Except Int Nat} {w : Vfs} (new : ¬ named) (bound : fd < fdMax) (marked : v.fTable fd = ⟨true, none⟩)
    (opened : v.Opened named s w) : (∀ e, s = .error e → w.RefsExact) ∧ ∀ o, s = .ok o → v'.objects = w.objects →
      v'.releaseList = w.releaseList → v'.fTable = update w.fTable fd ⟨true, some o⟩ →
      v'.RefsExact := by
  cases opened with
  | failed e => exact ⟨fun _ _ => h, nofun⟩
  | took o i found live =>
    refine ⟨nofun, ?_⟩
    rintro _ ⟨⟩ objects list file
    have ref : refInc i.ref = v.refCount o + 1 := by
      rw [← h.refs o i live]
      apply refInc_of_le
      rw [h.refs o i live]
      exact v.refCount_le o
    apply h.install (v.setObject o { i with ref := refInc i.ref }) bound marked (update_self ..) ref _
      rfl rfl (h.found tied live found) objects list file
    intro p hp
    exact congrArg _ (update_of_ne hp _ _)
  | kept o was => exact absurd was new
  | created o i w created ref =>
    have fresh : v.objects o = none := by
      rw [created.new]
      exact tied.fresh _ le_rfl
    have unused : v.refCount o = 0 := by
      apply refCount_zero
      intro fd bound refers
      obtain ⟨j, hj, _⟩ := h.files fd bound o refers
      cases fresh.symm.trans hj
    refine ⟨nofun, ?_⟩
    rintro _ ⟨⟩ objects list file
    apply h.install w bound marked created.live (by rw [ref, unused]) created.others created.table
      created.released _ objects list file
    intro released
    have := (tied.released o released).1
    have := created.new
    omega

/-- A call other than `slotfs_link` that opens only new names with `O_CREAT`; `fd_alloc`
comes first. -/
def TakesRef (env : VfsEnv) (v : Vfs) : VfsCall → Prop
  | .open dfd path flags _ => v.fdAlloc.2.bound env dfd path flags = false
  | .link _ _ => False
  | _ => True

theorem TakesRef.noLink {env : VfsEnv} {c : VfsCall} (h : TakesRef env v c) : c.isLink = false := by
  cases c with
  | link target link => exact h.elim
  | _ => rfl

theorem VfsStep.refsExact (tied : v.Tied fun _ => 0) (exact : v.RefsExact) (step : VfsStep TakesRef v v') :
    v'.RefsExact := by
  cases step with
  | call env c v' ok call spares =>
    cases c with
    | «open» dfd path flags mode =>
      obtain ⟨r, open', rfl⟩ := map_eq_some_iff.mp call
      obtain ⟨_, same | ⟨fd, v1, s, v2, alloc, opened, ended⟩⟩ := tied.open env dfd path flags mode r open'
      · rw [same]
        exact exact
      have new : ¬ v1.bound env dfd path flags := by
        have free : v.fdAlloc.2.bound env dfd path flags = false := ok
        rw [alloc] at free
        rw [free]
        exact Bool.false_ne_true
      obtain ⟨bound, _, eq⟩ := fdAlloc_spec alloc
      have marked : v1.fTable fd = ⟨true, none⟩ := by
        rw [eq]
        exact update_self ..
      have tied1 : v1.Tied fun _ => 0 := by
        rw [eq]
        exact tied.congr ⟨rfl, rfl, rfl, rfl, rfl, rfl⟩ rfl
      obtain ⟨failed, took⟩ := (exact.mark alloc).open r.2 tied1 new bound marked opened
      obtain ⟨e, rfl, eq⟩ | ⟨o, rfl, eq⟩ := ended
      · rw [eq]
        exact failed e rfl
      · exact took o rfl (by rw [eq]) (by rw [eq]) (by rw [eq])
    | close fd =>
      obtain ⟨r, close, rfl⟩ := map_eq_some_iff.mp call
      obtain ⟨_, same | ⟨o, i, closed⟩⟩ := tied.close fd r close
      · rw [same]
        exact exact
      · exact exact.close closed
    | link target link => exact ok.elim
    | unlink path =>
      obtain ⟨r, unlink, rfl⟩ := map_eq_some_iff.mp call
      obtain ⟨_, w, same, eq | ⟨o, i, eq, live, ref⟩⟩ := tied.unlink tied.kept env path r unlink spares
      · rw [eq]
        exact exact.same same
      · rw [eq]
        exact (exact.same same).release live ref
    | rename oldpath newpath =>
      obtain ⟨r, rename, rfl⟩ := map_eq_some_iff.mp call
      exact exact.same (tied.rename tied.kept env oldpath newpath r rename).2
    | release =>
      obtain ⟨_, rfl | ⟨o, list, objects, table⟩⟩ := tied.thread tied.kept v' call
      · exact exact
      · exact exact.drop list objects table

theorem Vfs.Mounted.refsExact (h : v.Mounted) : v.RefsExact := by
  have none (fd o : Nat) : ¬ (v.fTable fd).Refers o := by
    rintro ⟨valid, _⟩
    cases (h.closed fd).symm.trans valid
  have count (o : Nat) : v.refCount o = 0 := refCount_zero fun fd _ => none fd o
  apply RefsExact.of_refs
  · intro o i hi
    obtain ⟨root, live, _, _, _, _, _, ref⟩ := h.root
    rw [count]
    by_cases e : o = v.root
    · subst e
      cases live.symm.trans hi
      exact ref
    · cases (h.alone o e).symm.trans hi
  · intro fd _ o refers
    exact absurd refers (none fd o)
  · intro o _
    exact count o

end

/-- In every run of calls other than `slotfs_link`, and than `slotfs_unlink` of a directory, in
which `O_CREAT` is given only for new names the references are exact. -/
theorem open_references_exact {v w : Vfs} (mounted : v.Mounted) (run : Run (VfsStep TakesRef) v w) :
    w.RefsExact := by
  have exact : w.Tied (fun _ => 0) ∧ w.RefsExact :=
    Run.invariant (I := fun v : Vfs => v.Tied (fun _ => 0) ∧ v.RefsExact)
      (fun ⟨tied, exact⟩ step => ⟨step.tied (fun _ _ ok => ok.noLink) tied, step.refsExact tied exact⟩) run
      ⟨mounted.tied, mounted.refsExact⟩
  exact exact.2

def openF : VfsCall := .open atFdcwd pathF ⟨false, false, false⟩ 0

/-- A file is made, opened once more, removed and closed twice. -/
theorem open_references_exact_twice : mountedVfs.Mounted ∧
    ∃ w, Run (VfsStep TakesRef) mountedVfs w ∧ w.releaseList = [1] ∧ w.RefsExact := by
  have calls : ((mountedVfs.callSparing plainVfsEnv createF).bind fun v =>
      v.callAll plainVfsEnv [openF, .unlink pathF, .close 0, .close 1]).map (·.releaseList) = some [1] := by
    decide +kernel
  obtain ⟨w, call, list⟩ := map_eq_some_iff.mp calls
  obtain ⟨v, create, rest⟩ := bind_eq_some_iff.mp call
  have new : TakesRef plainVfsEnv mountedVfs createF := by
    unfold TakesRef createF
    decide +kernel
  have first : VfsStep TakesRef mountedVfs v := .of_sparing new create
  have run : Run (VfsStep TakesRef) mountedVfs w :=
    .head first (run_calls (by simp [openF, TakesRef, bound]) rest)
  exact ⟨mountedVfs_mounted, w, run, list, open_references_exact mountedVfs_mounted run⟩

/-- A file is opened with `O_CREAT` when it exists, removed and closed once: it is released,
and the second descriptor still refers to it. -/
theorem opened_inode_released : mountedVfs.Mounted ∧
    ∃ w i, Run (VfsStep fun _ _ _ => True) mountedVfs w ∧ 1 ∈ w.releaseList ∧ w.objects 1 = some i ∧
      i.ref = 0 ∧ (w.fTable 1).Refers 1 ∧ i.ref ≠ w.refCount 1 := by
  have calls : (mountedVfs.callAll plainVfsEnv [createF, createF, .unlink pathF, .close 0]).bind
      (fun w => (w.objects 1).map fun i => (w.releaseList, i.ref, (w.fTable 1).valid, (w.fTable 1).file)) =
        some ([1], 0, true, some 1) := by decide +kernel
  obtain ⟨w, call, seen⟩ := bind_eq_some_iff.mp calls
  obtain ⟨i, live, eq⟩ := map_eq_some_iff.mp seen
  simp only [Prod.mk.injEq] at eq
  obtain ⟨list, ref, refers⟩ := eq
  refine ⟨mountedVfs_mounted, w, i, run_calls (fun _ _ _ => trivial) call, ?_, live, ref, refers, ?_⟩
  · rw [list]
    exact mem_singleton_self 1
  · rw [ref]
    exact (refCount_pos (by decide) refers).ne

/-! ## Opens that fail -/

section
variable {v w : Vfs} {env : VfsEnv} {table : Nat → FHeader}

theorem Vfs.iget_descriptors (v : Vfs) (env : VfsEnv) (ino : Nat) : (v.iget env ino).2.fTable = v.fTable := by
  unfold iget
  split
  · rfl
  unfold Arena.alloc
  split <;> rename_i alloc <;> split at alloc <;> cases alloc
  · rfl
  · split <;> rfl

theorem Vfs.pathIget_table (v : Vfs) (env : VfsEnv) (dir : Option Nat) (name : List (BitVec 8)) :
    Ends (v.pathIget env dir name) fun r => r.2.fTable = v.fTable := by
  apply Ends.bind
  intro o _
  apply Ends.bind
  intro inode _
  apply Ends.bind
  intro found _
  split
  · exact .none
  · exact .some rfl
  · exact .some (v.iget_descriptors env _)

/-- A lookup that does not touch the descriptors. -/
def SparesTable (table : Nat → FHeader) (lookup : Vfs → Nameidata → Option (Int × Nameidata × Vfs)) : Prop :=
  ∀ v nd, v.fTable = table → Ends (lookup v nd) fun r => r.2.2.fTable = table

theorem SparesTable.handleSymlink {lookup : Vfs → Nameidata → Option (Int × Nameidata × Vfs)}
    (spares : SparesTable table lookup) (same : v.fTable = table) (o : Nat) (nd : Nameidata) :
    Ends (v.handleSymlink env lookup o nd) fun r => r.2.2.fTable = table := by
  unfold Vfs.handleSymlink
  split
  · exact .some same
  split
  · exact .some same
  split
  · exact .none
  · exact .some same
  · apply Ends.bind
    intro r call
    exact .some (spares v _ same r call)

theorem SparesTable.pathWalk {lookup : Vfs → Nameidata → Option (Int × Nameidata × Vfs)}
    (spares : SparesTable table lookup) (starts : List (List (BitVec 8))) :
    SparesTable table (pathWalk env lookup starts) := by
  induction starts with
  | nil => exact fun v nd same => .some same
  | cons this rest ih =>
    intro v nd same
    cases rest with
    | nil =>
      simp only [Vfs.pathWalk]
      split
      · exact .some same
      apply Ends.bind
      intro r get
      have same := (v.pathIget_table env _ _ r get).trans same
      split
      · exact .some same
      apply Ends.bind
      intro inode _
      split
      · exact spares.handleSymlink same _ _
      · exact .some same
    | cons next rest =>
      simp only [Vfs.pathWalk]
      apply Ends.bind
      intro r get
      have same := (v.pathIget_table env _ _ r get).trans same
      split
      · exact .some same
      apply Ends.bind
      intro inode _
      split
      · apply Ends.bind
        intro r call
        have same := spares.handleSymlink same _ _ r call
        split
        · exact ih _ _ same
        · exact .some same
      · split
        · exact ih _ _ same
        · exact .some same

theorem SparesTable.all (env : VfsEnv) (calls : Nat) (table : Nat → FHeader) :
    SparesTable table (pathLookupWithin env calls) := by
  induction calls with
  | zero => exact fun _ _ _ => .none
  | succ calls ih =>
    intro v nd same
    simp only [pathLookupWithin]
    split
    · split
      · exact .some same
      apply Ends.bind
      intro _ _
      apply Ends.bind
      intro _ _
      exact .some same
    apply Ends.bind
    intro _ _
    apply Ends.bind
    intro _ _
    exact ih.pathWalk _ _ _ same

/-- `do_slotfs_open` leaves the descriptors to its caller when it fails. -/
theorem Vfs.doSlotfsOpen_table {dfd : Int} {mode : Nat} :
    Ends (v.doSlotfsOpen env dfd path flags mode) fun r => ∀ e, r.1 = .error e → r.2.fTable = v.fTable := by
  have spares := SparesTable.all env (maxLoop + 2) v.fTable
  unfold doSlotfsOpen
  split
  · exact Ends.some fun _ _ => rfl
  split
  · unfold openCreat
    dsimp only
    split
    · exact Ends.some nofun
    apply Ends.bind
    intro r call
    split
    · exact Ends.some fun _ _ => spares v _ rfl r call
    apply Ends.bind
    intro parent _
    apply Ends.bind
    intro dir _
    apply Ends.bind
    intro found _
    split
    · exact Ends.none
    · split
      · exact Ends.none
      · exact Ends.map fun _ _ => nofun
    apply Ends.bind
    intro r _
    split
    · exact Ends.none
    · apply Ends.bind
      intro _ _
      exact Ends.some nofun
  · unfold openExisting
    apply Ends.bind
    rintro ⟨ret, nd, w⟩ call
    have same := spares v _ rfl _ call
    dsimp only
    split
    · exact Ends.some fun _ _ => same
    apply Ends.bind
    intro o _
    apply Ends.bind
    intro inode _
    split
    · exact Ends.some fun _ _ => same
    · exact Ends.some nofun

theorem Vfs.fdScan_none {left i : Nat} (none : v.fdScan left i = none) {k : Nat} (low : i ≤ k)
    (high : k < i + left) : (v.fTable ((v.fdHint + k) % fdMax)).valid = true := by
  induction left generalizing i with
  | zero => omega
  | succ left ih =>
    simp only [fdScan] at none
    split at none
    · rename_i used
      obtain rfl | above := low.eq_or_lt
      · exact used
      · exact ih none above (by omega)
    · cases none

theorem Vfs.fdAlloc_none (alloc : v.fdAlloc = (none, w)) : w = v ∧ ∀ fd < fdMax, (v.fTable fd).valid = true := by
  unfold fdAlloc at alloc
  split at alloc
  · rename_i none
    cases alloc
    refine ⟨rfl, fun fd bound => ?_⟩
    have used := fdScan_none none (Nat.zero_le ((fd + fdMax - v.fdHint % fdMax) % fdMax))
      (by rw [Nat.zero_add]; exact Nat.mod_lt _ (by decide))
    have place : (v.fdHint + (fd + fdMax - v.fdHint % fdMax) % fdMax) % fdMax = fd := by
      unfold fdMax at bound ⊢
      omega
    rwa [place] at used
  · cases alloc

/-- The descriptor that an open takes before it looks up the path is not given back when it
fails. -/
theorem Vfs.slotfsOpen_failed {dfd : Int} {mode : Nat} {e : Int}
    (call : v.slotfsOpen env dfd path flags mode = some (.error e, w)) :
    (w = v ∧ ∀ fd < fdMax, (v.fTable fd).valid = true) ∨
      ∃ fd < fdMax, (v.fTable fd).valid = false ∧ (w.fTable fd).valid = true := by
  unfold slotfsOpen at call
  generalize alloc : v.fdAlloc = got at call
  obtain ⟨fd, v1⟩ := got
  cases fd with
  | none =>
    cases call
    exact .inl (fdAlloc_none alloc)
  | some fd =>
    obtain ⟨bound, free, eq⟩ := fdAlloc_spec alloc
    obtain ⟨⟨r, v2⟩, opened, ended⟩ := bind_eq_some_iff.mp call
    cases r with
    | ok o => cases ended
    | error e' =>
      cases ended
      refine .inr ⟨fd, bound, free, ?_⟩
      have taken : v1.fTable fd = ⟨true, none⟩ := by
        rw [eq]
        exact update_self ..
      rw [doSlotfsOpen_table _ opened e rfl, taken]

/-- An open that fails leaves the descriptors as they are where none was free, and nowhere
else. -/
theorem failed_open_keeps_table {dfd : Int} {path : List (BitVec 8)} {flags : OpenFlags} {mode : Nat} {e : Int}
    (call : v.slotfsOpen env dfd path flags mode = some (.error e, w)) :
    (∀ fd < fdMax, (w.fTable fd).valid = (v.fTable fd).valid) ↔ ∀ fd < fdMax, (v.fTable fd).valid = true := by
  constructor
  · intro same
    obtain ⟨_, full⟩ | ⟨fd, bound, free, taken⟩ := slotfsOpen_failed call
    · exact full
    · rw [same fd bound, free] at taken
      cases taken
  intro full
  obtain ⟨rfl, _⟩ | ⟨fd, bound, free, _⟩ := slotfsOpen_failed call
  · exact fun _ _ => rfl
  · cases (full fd bound).symm.trans free

theorem Vfs.fdScan_full (full : ∀ fd, (v.fTable fd).valid = true) (left i : Nat) : v.fdScan left i = none := by
  induction left generalizing i with
  | zero => rfl
  | succ left ih =>
    rw [fdScan, if_pos (full _)]
    exact ih (i + 1)

/-- All descriptors are in use. -/
def fullTable : Vfs := { mountedVfs with fTable := fun _ => ⟨true, some 0⟩ }

theorem fullTable_open : fullTable.slotfsOpen plainVfsEnv atFdcwd pathF ⟨false, false, false⟩ 0 =
    some (.error emfile, fullTable) := by
  rw [slotfsOpen, fdAlloc, fdScan_full fun _ => rfl]

theorem failed_open_keeps_table_full : (∃ e w,
    fullTable.slotfsOpen plainVfsEnv atFdcwd pathF ⟨false, false, false⟩ 0 = some (.error e, w) ∧
      ∀ fd < fdMax, (w.fTable fd).valid = (fullTable.fTable fd).valid) :=
  ⟨emfile, fullTable, fullTable_open, (failed_open_keeps_table fullTable_open).mpr fun _ _ => rfl⟩

/-- The file does not exist, and descriptor 0 stays in use. -/
theorem missing_file_takes_descriptor : ∃ e w,
    mountedVfs.slotfsOpen plainVfsEnv atFdcwd pathF ⟨false, false, false⟩ 0 = some (.error e, w) ∧
      (mountedVfs.fTable 0).valid = false ∧ (w.fTable 0).valid = true := by
  have seen : (mountedVfs.slotfsOpen plainVfsEnv atFdcwd pathF ⟨false, false, false⟩ 0).map (fun r =>
      (r.1.toOption, (r.2.fTable 0).valid)) = some (none, true) := by decide +kernel
  obtain ⟨⟨r, w⟩, call, eq⟩ := map_eq_some_iff.mp seen
  simp only [Prod.mk.injEq] at eq
  obtain ⟨failed, valid⟩ := eq
  cases r with
  | ok fd => cases failed
  | error e => exact ⟨e, w, call, rfl, valid⟩

end

end SlotFs
