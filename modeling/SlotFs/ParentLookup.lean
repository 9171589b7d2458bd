import SlotFs.LockedLookup

/-!
# Lookups of a parent

`ND_PARENT` stays set while `path_lookup` follows a link in the middle of a path. A link with
components then leaves no directory to go on from, and one without leaves a directory that is
not locked.
-/

namespace SlotFs
open Locks List Vfs Nameidata

variable {found : Option Nat} {held : List DataLock} {how : Arrival} {path this : List (BitVec 8)}
  {program : Nameidata → VfsProg (Int × Nameidata)}

/-- How a lookup comes to the last component of its path: from a directory that it has locked, by
a link without components, or by one with components. -/
inductive Arrival
  | dir
  | bare
  | deep

/-- With `ND_PARENT` the components before the last one lead from a directory to a parent, while
`left` more links can be followed within each other. -/
inductive Vfs.Arrives (env : VfsEnv) :
    Nat → Vfs → Nat → List (List (BitVec 8)) → Arrival → Option Nat → Vfs → Prop
  | here (left : Nat) (v : Vfs) (dir : Nat) : Arrives env left v dir [] .dir (some dir) v
  | dir {left dir o : Nat} {v v' w : Vfs} {name : List (BitVec 8)} {names : List (List (BitVec 8))}
      {how : Arrival} {parent : Option Nat} (descends : v.Descends env dir name o v')
      (rest : Arrives env left v' o names how parent w) :
      Arrives env left v dir (name :: names) how parent w
  | past {left dir : Nat} {v v' w : Vfs} {name text : List (BitVec 8)} {names : List (List (BitVec 8))}
      {how : Arrival} {parent : Option Nat} (reads : v.Reads env dir name text v')
      (empty : components text = []) (more : names ≠ [])
      (rest : Arrives env (left + 1) v' (linkBase v' dir text) names how parent w) :
      Arrives env (left + 1) v dir (name :: names) how parent w
  | bare {left dir : Nat} {v v' : Vfs} {name text : List (BitVec 8)}
      (reads : v.Reads env dir name text v') (empty : components text = []) :
      Arrives env (left + 1) v dir [name] .bare (some (linkBase v' dir text)) v'
  | deep {left dir : Nat} {v v' w : Vfs} {name text : List (BitVec 8)} {how : Arrival} {parent : Option Nat}
      (reads : v.Reads env dir name text v') (full : components text ≠ [])
      (inner : Arrives env left v' (linkBase v' dir text) (components text).dropLast how parent w) :
      Arrives env (left + 1) v dir [name] .deep none w

section
variable {v v' w : Vfs} {env : VfsEnv} {nd : Nameidata} {dir o n : Nat} {di inode : VfsInode} {clean : Bool}

theorem Vfs.Arrives.nil {left : Nat} (arrives : Arrives env left v dir [] how found w) :
    how = .dir ∧ found = some dir ∧ w = v := by
  cases arrives
  exact ⟨rfl, rfl, rfl⟩

/-! ## What a lookup that arrives returns -/

/-- The last component and the locks of a lookup that has come to a parent. -/
structure Arrived (how : Arrival) (found : Option Nat) (this : List (BitVec 8)) (nd : Nameidata) (v : Vfs)
    (held : List DataLock) : Prop where
  current : nd.current = none
  parent : nd.parent = found
  last : nd.last = this
  lastLen : nd.lastLen = (component this).length
  dir : how = .dir → ∃ o inode, found = some o ∧ v.objects o = some inode ∧ held = [.inode inode.iNo]
  bare : how = .bare → held = []
  deep : how = .deep → found = none

/-- A link without components is followed to the directory that it starts from. -/
theorem Vfs.Reads.enter_bare {name text : List (BitVec 8)} (reads : v.Reads env dir name text v')
    (h : v.Ready env dir) (left : nd.left = n + 1) (parent : nd.wantParent = true)
    (current : nd.current = some dir) (live : v.objects dir = some di) (empty : components text = [])
    (calls : Nat) (locked : Bool) : (lockedEnter env (lockedLookupWithin env (calls + 1)) false name nd).exec v
        (holding locked di.iNo []) clean =
      .returned (.ok { nd with current := some (linkBase v' dir text) }) v' [] (clean && locked) := by
  obtain ⟨o, inode, loads, link, read⟩ := reads
  obtain ⟨nofollow, shallow, _⟩ := left_succ left
  have bare : lockedLookupWithin env (calls + 1) (nd.into v'.root text) = pure (0, _) :=
    lockedLookupWithin_bare calls parent empty
  rw [loads.enter_link h.coherent h.sane current live not_mem_nil not_mem_nil link nofollow shallow
    read, bare, Prog.exec_pure]
  simp only [Outcome.bind, afterLink, if_true, into_start current]

theorem pathStarts_nonempty {afterSlash : Bool} (member : this ∈ pathStarts afterSlash path) :
    component this ≠ [] := by
  induction path generalizing afterSlash with
  | nil => cases member
  | cons c rest ih =>
    rw [pathStarts] at member
    split at member
    · exact ih member
    rename_i other
    split at member
    · rcases mem_cons.mp member with rfl | member
      · simp [component, other]
      · exact ih member
    · exact ih member

/-- The last component of a path and what comes before it. -/
theorem starts_split (full : components path ≠ []) : ∃ middle this, pathStarts true path = middle ++ [this] ∧
      middle.map component = (components path).dropLast ∧
      component this = (components path).getLast full ∧ component this ≠ [] := by
  have some_ : pathStarts true path ≠ [] := fun none => full (by rw [components, none]; rfl)
  refine ⟨(pathStarts true path).dropLast, (pathStarts true path).getLast some_, ?_, ?_, ?_, ?_⟩
  · rw [dropLast_append_getLast]
  · rw [components, map_dropLast]
  · exact (getLast_map full).symm
  · exact pathStarts_nonempty (getLast_mem some_)

theorem component_take (this : List (BitVec 8)) : this.take (component this).length = component this :=
  (prefix_iff_eq_take.mp (List.takeWhile_prefix _)).symm

theorem parent_exec (next : Nameidata) (parent : next.wantParent = true) :
    (Outcome.returned (Except.ok next) v held clean).bind (fun r w held clean =>
      (goOn nd (lockedWalk env program ([] ++ [this])) r).exec w held clean) =
    .returned (0, { next with
      last := this, lastLen := (component this).length, parent := next.current, current := none })
      v held clean := by
  rw [nil_append, Outcome.bind, goOn, walk_parent parent]
  rfl

/-- A lookup returns where its components arrive. -/
theorem Vfs.Arrives.walk {left : Nat} {names : List (List (BitVec 8))} {how : Arrival} {found : Option Nat}
    (arrives : Arrives env left v dir names how found w) {calls : Nat} (enough : left ≤ calls)
    (budget : nd.left = left) (parent : nd.wantParent = true) (current : nd.current = some dir)
    (h : v.Ready env dir) (live : v.objects dir = some di) {middle : List (List (BitVec 8))}
    (eq : middle.map component = names) (this : List (BitVec 8)) {locked : Bool}
    (start : locked = true ∨ names ≠ []) :
    ∃ nd' held clean', (lockedWalk env (lockedLookupWithin env calls) (middle ++ [this]) nd).exec v
        (holding locked di.iNo []) clean = .returned (0, nd') w held clean' ∧
      Arrived how found this nd' w held := by
  induction arrives generalizing nd di middle locked clean calls this with
  | here left v dir =>
    obtain rfl := start.resolve_right fun more => more rfl
    obtain rfl := map_eq_nil_iff.mp eq
    refine ⟨_, _, _, by rw [nil_append, walk_parent parent]; rfl, rfl, current, rfl, rfl, ?_, nofun, nofun⟩
    exact fun _ => ⟨dir, di, rfl, live, rfl⟩
  | @dir left dir o v v' w name names how found descends rest ih =>
    obtain ⟨inode, loads, isDir⟩ := descends
    obtain ⟨m, ms, rfl, rfl, rfl⟩ := map_eq_cons_iff.mp eq
    rw [cons_append, walk_exec (by simp), loads.enter_other h.coherent h.sane current live not_mem_nil
      not_mem_nil (VfsInode.not_symlink isDir) (.inr isDir)]
    exact @ih { nd with current := some o } inode _ calls enough budget parent rfl (loads.ready h).2
      loads.live ms rfl this true (.inl rfl)
  | @past left dir v v' w name text names how found reads empty more rest ih =>
    obtain ⟨m, ms, rfl, rfl, rfl⟩ := map_eq_cons_iff.mp eq
    have ready := reads.ready h
    obtain ⟨base, live'⟩ := ready.dir
    cases calls with
    | zero => exact absurd enough (Nat.not_succ_le_zero left)
    | succ calls =>
      rw [cons_append, walk_exec (by simp), reads.enter_bare h budget parent current live empty]
      exact @ih { nd with current := some (linkBase v' dir text) } base _ _ enough budget parent rfl ready
        live' ms rfl this false (.inr more)
  | @bare left dir v v' name text reads empty =>
    obtain ⟨m, ms, rfl, rfl, none⟩ := map_eq_cons_iff.mp eq
    obtain rfl := map_eq_nil_iff.mp none
    cases calls with
    | zero => exact absurd enough (Nat.not_succ_le_zero left)
    | succ calls =>
      rw [cons_append, walk_exec (by simp), reads.enter_bare h budget parent current live empty]
      exact ⟨_, _, _, parent_exec _ parent, rfl, rfl, rfl, rfl, nofun, fun _ => rfl, nofun⟩
  | @deep left dir v v' w name text how found reads full inner ih =>
    obtain ⟨m, ms, rfl, rfl, none⟩ := map_eq_cons_iff.mp eq
    obtain rfl := map_eq_nil_iff.mp none
    have ready := reads.ready h
    obtain ⟨base, live'⟩ := ready.dir
    obtain ⟨nofollow, shallow, budget'⟩ := left_succ budget
    obtain ⟨o, inode, loads, link, read⟩ := reads
    cases calls with
    | zero => exact absurd enough (Nat.not_succ_le_zero left)
    | succ calls =>
      rw [cons_append, walk_exec (by simp), loads.enter_link h.coherent h.sane current live
        not_mem_nil not_mem_nil link nofollow shallow read,
        lockedLookupWithin_starts calls (into_start current text) live' not_mem_nil full]
      obtain ⟨middle, this', split, names, _⟩ := starts_split full
      obtain ⟨nd', held, clean', walk, arrived⟩ := @ih
        { nd.into v'.root text with current := (nd.into v'.root text).start } base (clean && locked) calls
        (Nat.le_of_succ_le_succ enough) (budget' v'.root text) parent (into_start current text) ready
        live' middle names this' true (.inl rfl)
      rw [show pathStarts true (nd.into v'.root text).path = middle ++ [this'] from split, walk]
      refine ⟨_, held, clean', parent_exec _ parent, rfl, arrived.current, rfl, rfl, nofun, nofun, fun _ => rfl⟩

/-! ## How a lookup that returns has arrived -/

/-- A lookup that returns 0 has come to a parent, or its path has no components. -/
def ArrivesIn (env : VfsEnv) (program : Nameidata → VfsProg (Int × Nameidata)) : Prop :=
  ∀ (nd nd' : Nameidata) (v w : Vfs) (dir : Nat) (clean clean' : Bool) (held : List DataLock),
    nd.wantParent = true → v.Ready env dir → nd.start = some dir →
    (program nd).exec v [] clean = .returned (0, nd') w held clean' →
    (components nd.path = [] ∧ w = v ∧ held = [] ∧ nd'.current = nd.start) ∨
    (components nd.path ≠ [] ∧ nd'.current = none ∧
      ∃ how, Arrives env nd.left v dir (components nd.path).dropLast how nd'.parent w)

theorem walk_nowhere {rest : List (List (BitVec 8))} (more : rest ≠ []) :
    (lockedWalk env program (this :: rest) { nd with current := none }).exec v held clean = .crashed := by
  rw [walk_exec more, lockedEnter, pointer_none]
  rfl

theorem afterLink_ok {r : Int × Nameidata} {next : Except Int Nameidata} {held' : List DataLock} {clean' : Bool}
    (run : afterLink nd o r v held clean = .returned next w held' clean') (bad : r.1 ≠ 0) : next = .error r.1 := by
  rw [afterLink, if_neg bad] at run
  cases unlock_then (lock_then (Prog.erase_of_exec run))
  rfl

theorem ArrivesIn.walk {program : Nameidata → VfsProg (Int × Nameidata)} (arrives : ArrivesIn env program)
    {middle : List (List (BitVec 8))} {this : List (BitVec 8)} {nd' : Nameidata} {locked clean' : Bool}
    {held : List DataLock} (parent : nd.wantParent = true) (h : v.Ready env dir)
    (live : v.objects dir = some di) (current : nd.current = some dir)
    (run : (lockedWalk env program (middle ++ [this]) nd).exec v (holding locked di.iNo []) clean =
      .returned (0, nd') w held clean') :
    nd'.current = none ∧ ∃ how, Arrives env nd.left v dir (middle.map component) how nd'.parent w := by
  induction middle generalizing nd v dir di locked clean with
  | nil =>
    rw [nil_append, walk_parent parent] at run
    cases run
    rw [current]
    exact ⟨rfl, .dir, .here _ _ _⟩
  | cons m ms ih =>
    rw [cons_append, walk_exec (by simp)] at run
    have kind : Passage env program false v dir (component m) nd locked [] clean _ :=
      passage h live current not_mem_nil
    generalize (lockedEnter env program false (component m) nd).exec v (holding locked di.iNo []) clean = out
      at kind run
    cases kind with
    | crashed => cases run
    | stuck => cases run
    | failed bad =>
      cases run
      exact absurd rfl bad
    | @entered o inode v' loads link fits =>
      have isDir : inode.isDir := fits.resolve_left nofun
      obtain ⟨none, how, arrived⟩ := @ih v' { nd with current := some o } o inode _ true parent
        (loads.ready h).2 loads.live rfl run
      exact ⟨none, how, .dir ⟨inode, loads, isDir⟩ arrived⟩
    | @followed o n inode text v' loads link read _ left =>
      have reads : v.Reads env dir (component m) text v' := ⟨o, inode, loads, link, read⟩
      have ready := reads.ready h
      obtain ⟨base, live'⟩ := ready.dir
      rcases inner : (program (nd.into v'.root text)).exec v' [] (clean && locked) with
        ⟨r, w1, held1, clean1⟩ | _ | _
      · rw [inner] at run
        by_cases good : r.1 = 0
        · rw [Outcome.bind, afterLink, if_pos good] at run
          obtain ⟨_, _, deeper⟩ := left_succ left
          rcases arrives (nd.into v'.root text) r.2 v' w1 _ _ clean1 held1 parent ready
            (into_start current text) (by rw [inner, ← good]) with ⟨empty, rfl, rfl, at_⟩ | ⟨full, at_, how, arrived⟩
          · rw [left]
            cases ms with
            | nil =>
              cases (parent_exec { nd with current := r.2.current } parent).symm.trans run
              exact ⟨rfl, .bare, at_.trans (into_start current text) ▸ .bare reads empty⟩
            | cons m' ms =>
              obtain ⟨none, how, arrived⟩ := @ih w1 { nd with current := r.2.current } _ base _ false parent
                ready live' (at_.trans (into_start current text)) run
              exact ⟨none, how, .past reads empty (by simp) (left ▸ arrived)⟩
          rw [left]
          rw [at_] at run
          cases ms with
          | nil =>
            cases (parent_exec { nd with current := none } parent).symm.trans run
            exact ⟨rfl, .deep, .deep reads full (deeper v'.root text ▸ arrived)⟩
          | cons m' ms =>
            rw [Outcome.bind, goOn, cons_append, walk_nowhere (by simp)] at run
            cases run
        · rcases after : afterLink nd o r w1 held1 clean1 with ⟨next, _, _, _⟩ | _ | _
          · cases afterLink_ok after good
            simp only [Outcome.bind, after, goOn, Prog.exec_pure, Outcome.returned.injEq, Prod.mk.injEq] at run
            exact absurd run.1.1 good
          · rw [Outcome.bind, after] at run
            cases run
          · rw [Outcome.bind, after] at run
            cases run
      · rw [inner] at run
        cases run
      · rw [inner] at run
        cases run

theorem ArrivesIn.all (env : VfsEnv) (calls : Nat) : ArrivesIn env (lockedLookupWithin env calls) := by
  induction calls with
  | zero =>
    intro nd nd' v w dir clean clean' held _ _ _ run
    cases run
  | succ calls ih =>
    intro nd nd' v w dir clean clean' held parent h start run
    obtain ⟨di, live⟩ := h.dir
    by_cases empty : components nd.path = []
    · rw [lockedLookupWithin_bare calls parent empty] at run
      cases run
      exact .inl ⟨empty, rfl, rfl, rfl⟩
    obtain ⟨middle, this, split, names, _⟩ := starts_split empty
    rw [lockedLookupWithin_starts calls start live not_mem_nil empty, split] at run
    have arrived := @ArrivesIn.walk v w env { nd with current := nd.start } dir di clean _ ih middle this nd'
      true clean' held parent h live start run
    rw [names] at arrived
    exact .inr ⟨empty, arrived⟩

/-! ## The lookup of the path without its last component -/

theorem Vfs.pathLookupWithin_empty (calls : Nat) (parent : nd.wantParent = false)
    (start : nd.start = some dir) (live : v.objects dir = some di) (empty : components nd.path = []) :
    pathLookupWithin env (calls + 1) v nd = some (0, { nd with current := some dir }, v) := by
  have none : pathStarts true nd.path = [] := map_eq_nil_iff.mp empty
  simp [pathLookupWithin, none, parent, start, live]

/-- Without `ND_PARENT` the components lead to the parent. -/
theorem Vfs.Arrives.pathWalk {left : Nat} {names : List (List (BitVec 8))} {how : Arrival}
    {found : Option Nat} (arrives : Arrives env left v dir names how found w) (near : how = .dir)
    {calls : Nat} (enough : left ≤ calls) (budget : nd.left = left) (parent : nd.wantParent = false)
    (current : nd.current = some dir) (h : v.Ready env dir) {starts : List (List (BitVec 8))}
    (eq : starts.map component = names) :
    ∃ nd', pathWalk env (pathLookupWithin env calls) starts v nd = some (0, nd', w) ∧
      nd'.current = found := by
  induction arrives generalizing nd starts calls with
  | here left v dir =>
    obtain rfl := map_eq_nil_iff.mp eq
    exact ⟨nd, rfl, current⟩
  | @dir left dir o v v' w name names how found descends rest ih =>
    obtain ⟨inode, loads, isDir⟩ := descends
    obtain ⟨m, ms, rfl, rfl, rfl⟩ := map_eq_cons_iff.mp eq
    have call := loads.get
    rw [← current] at call
    cases ms with
    | nil =>
      cases rest
      refine ⟨_, by rw [pathWalk_last parent call loads.live, if_neg (VfsInode.not_symlink isDir)], rfl⟩
    | cons next ms =>
      rw [pathWalk_other (by simp) call loads.live (VfsInode.not_symlink isDir), if_pos isDir]
      exact @ih { nd with current := some o } near calls enough budget parent rfl (loads.ready h).2 _ rfl
  | @past left dir v v' w name text names how found reads empty more rest ih =>
    obtain ⟨m, ms, rfl, rfl, rfl⟩ := map_eq_cons_iff.mp eq
    have ready := reads.ready h
    obtain ⟨base, live'⟩ := ready.dir
    obtain ⟨o, inode, loads, link, read⟩ := reads
    obtain ⟨nofollow, shallow, _⟩ := left_succ budget
    have call := loads.get
    rw [← current] at call
    cases calls with
    | zero => exact absurd enough (Nat.not_succ_le_zero left)
    | succ calls =>
      rw [pathWalk_link (fun none => more (by rw [none]; rfl)) call loads.live link,
        handleSymlink_read nofollow shallow read]
      have inner : pathLookupWithin env (calls + 1) v' (nd.into v'.root text) = some (0, _, v') :=
        pathLookupWithin_empty calls parent (into_start current text) live' empty
      rw [inner]
      exact @ih { nd with current := some (linkBase v' dir text) } near _ enough budget parent rfl ready _ rfl
  | bare => cases near
  | deep => cases near

/-- What a lookup of a parent is for: the directory to which the rest of the path leads is locked,
and nothing else. -/
structure ParentFound (env : VfsEnv) (v : Vfs) (nd nd' : Nameidata) (w : Vfs) (held : List DataLock) : Prop where
  full : components nd.path ≠ []
  last : nd'.name = (components nd.path).getLast full
  nonempty : nd'.lastLen ≠ 0
  parent : ∃ o inode, nd'.parent = some o ∧ w.objects o = some inode ∧ held = [.inode inode.iNo] ∧
    ∀ path, components path = (components nd.path).dropLast → ∃ nd1,
      v.pathLookup env { nd with path, wantParent := false } = some (0, nd1, w) ∧ nd1.current = some o

theorem Nameidata.left_le (nd : Nameidata) : nd.left ≤ maxLoop + 1 := by
  unfold left
  split
  · exact Nat.zero_le _
  · exact Nat.sub_le _ _

/-- The components of a path lead a lookup to its parent. -/
theorem Vfs.Arrives.lookup (full : components nd.path ≠ [])
    (arrives : Arrives env nd.left v dir (components nd.path).dropLast how found w) (h : v.Ready env dir)
    (parent : nd.wantParent = true) (start : nd.start = some dir) :
    ∃ this nd' held clean', (lockedLookup env nd).exec v [] clean = .returned (0, nd') w held clean' ∧
      component this = (components nd.path).getLast full ∧ component this ≠ [] ∧
      Arrived how found this nd' w held := by
  obtain ⟨di, live⟩ := h.dir
  obtain ⟨middle, this, split, names, last, nonempty⟩ := starts_split full
  obtain ⟨nd', held, clean', walk, arrived⟩ := @Vfs.Arrives.walk v w env { nd with current := nd.start } dir di
    clean _ _ how found arrives (maxLoop + 1) nd.left_le rfl parent start h live middle names this true (.inl rfl)
  refine ⟨this, nd', held, clean', ?_, last, nonempty, arrived⟩
  rw [lockedLookup, lockedLookupWithin_starts _ start live not_mem_nil full, split, walk]

/-- From a locked directory the rest of the path leads to it. -/
theorem Vfs.Arrives.pathLookup
    (arrives : Arrives env nd.left v dir (components nd.path).dropLast .dir found w) (h : v.Ready env dir)
    (start : nd.start = some dir) (rest : components path = (components nd.path).dropLast) : ∃ nd1,
      v.pathLookup env { nd with path, wantParent := false } = some (0, nd1, w) ∧ nd1.current = found := by
  obtain ⟨di, live⟩ := h.dir
  by_cases empty : components path = []
  · rw [← rest, empty] at arrives
    obtain ⟨_, rfl, rfl⟩ := arrives.nil
    exact ⟨_, pathLookupWithin_empty (maxLoop + 1) rfl start live empty, rfl⟩
  obtain ⟨nd1, walk, reached⟩ := @Vfs.Arrives.pathWalk v w env
    { nd with path, wantParent := false, current := nd.start } dir _ _ .dir found arrives rfl (maxLoop + 1)
    nd.left_le rfl rfl start h _ rest
  refine ⟨nd1, ?_, reached⟩
  rw [Vfs.pathLookup, Vfs.pathLookupWithin]
  split
  · rename_i none
    exact absurd (by rw [components]; exact congrArg _ none) empty
  · simpa [start, live] using walk

theorem parent_lookup_agrees (h : v.Ready env dir) (parent : nd.wantParent = true)
    (start : nd.start = some dir) :
    (∀ nd' w held clean, (lockedLookup env nd).exec v [] true = .returned (0, nd') w held clean →
      ParentFound env v nd nd' w held) ↔
    components nd.path ≠ [] ∧ ∀ how found w,
      Arrives env nd.left v dir (components nd.path).dropLast how found w → how = .dir := by
  constructor
  · intro all
    have full : components nd.path ≠ [] := by
      intro empty
      have run : (lockedLookup env nd).exec v [] true = .returned (0, { nd with current := nd.start }) v [] true := by
        rw [lockedLookup, lockedLookupWithin_bare _ parent empty, Prog.exec_pure]
      exact (all _ _ _ _ run).full empty
    refine ⟨full, fun how found w arrives => ?_⟩
    obtain ⟨this, nd', held, clean, run, _, _, arrived⟩ := arrives.lookup full h parent start
    obtain ⟨o, inode, found', _, locked, _⟩ := (all _ _ _ _ run).parent
    cases how with
    | dir => rfl
    | bare =>
      cases (arrived.bare rfl).symm.trans locked
    | deep =>
      rw [arrived.parent, arrived.deep rfl] at found'
      cases found'
  · rintro ⟨full, near⟩ nd' w held clean run
    obtain ⟨empty, _⟩ | ⟨_, _, how, arrives⟩ :=
      ArrivesIn.all env (maxLoop + 2) nd nd' v w dir true clean held parent h start run
    · exact absurd empty full
    obtain rfl := near _ _ _ arrives
    obtain ⟨this, _, _, _, run', last, nonempty, arrived⟩ := arrives.lookup full h parent start
    cases run.symm.trans run'
    obtain ⟨o, inode, found, live, locked⟩ := arrived.dir rfl
    refine ⟨full, ?_, ?_, o, inode, found, live, locked, fun path rest => ?_⟩
    · rw [name, arrived.last, arrived.lastLen, component_take, last]
    · rw [arrived.lastLen]
      exact fun none => nonempty (length_eq_zero_iff.mp none)
    · rw [← found]
      exact arrives.pathLookup h start rest

/-- The lookup of `f/f` and of `l/f` for its parent. -/
def parentInF : Nameidata := { throughL with path := nameF ++ [slash] ++ nameF, wantParent := true }
def parentThroughL : Nameidata := { throughL with wantParent := true }

theorem linkedVfs_cases (live : linkedVfs.objects o = some inode) :
    o < 3 ∧ inode.iNo = o ∧ (inode.isDir → inode = linkedRoot) := by
  have few : o < 3 := by
    by_contra far
    have none : linkedVfs.objects o = none := by
      simp only [linkedVfs]
      grind
    cases none.symm.trans live
  refine ⟨few, ?_⟩
  interval_cases o <;> cases live
  · exact ⟨rfl, fun _ => rfl⟩
  · exact ⟨rfl, fun isDir => by cases isDir⟩
  · exact ⟨rfl, fun isDir => by cases isDir⟩

theorem linkedRoot_apart : linkedRoot.Apart 0 := by
  intro _ hash d _
  simp only [linkedRoot]
  split <;> decide

theorem linkedVfs_coherent : linkedVfs.Coherent where
  fresh := by
    intro o far
    by_contra live
    obtain ⟨inode, live⟩ := Option.ne_none_iff_exists'.mp live
    exact absurd (linkedVfs_cases live).1 (Nat.not_lt_of_le far)
  placed := by
    intro ino o cached
    obtain ⟨few, rfl⟩ : ino < 3 ∧ ino = o := by simpa [linkedVfs] using cached
    exact few
  keyed := by
    intro ino o inode cached live
    obtain ⟨_, rfl⟩ : ino < 3 ∧ ino = o := by simpa [linkedVfs] using cached
    exact (linkedVfs_cases live).2.1
  apart := by
    intro o inode live isDir
    obtain rfl := (linkedVfs_cases live).2.2 isDir
    exact linkedRoot_apart isDir

theorem linkedVfs_ready (text : List (BitVec 8)) : linkedVfs.Ready (linkedEnv text) 0 where
  coherent := linkedVfs_coherent
  sane := by
    refine ⟨?_, fun o e read => ?_, nofun⟩
    · rintro ino e ⟨⟩
      decide
    · simp only [linkedEnv] at read
      split at read <;> cases read
  root := ⟨linkedRoot, rfl⟩
  dir := ⟨linkedRoot, rfl⟩

/-- The same, with a directory instead of the file. -/
def nestedVfs : Vfs :=
  { linkedVfs with objects := Function.update linkedVfs.objects 1 (some (newVfsInode plainVfsEnv 1 0o040755 0)) }

theorem nestedVfs_cases (live : nestedVfs.objects o = some inode) :
    linkedVfs.objects o = some inode ∨ o = 1 ∧ inode = newVfsInode plainVfsEnv 1 0o040755 0 := by
  by_cases e : o = 1
  · subst e
    cases live
    exact .inr ⟨rfl, rfl⟩
  · exact .inl ((Function.update_of_ne e ..).symm.trans live)

theorem nestedVfs_ready (text : List (BitVec 8)) : nestedVfs.Ready (linkedEnv text) 0 := by
  have coherent := linkedVfs_coherent
  refine ⟨⟨fun o far => ?_, coherent.placed, fun ino o inode cached found => ?_, fun o inode found => ?_⟩,
    (linkedVfs_ready text).sane, ⟨linkedRoot, rfl⟩, ⟨linkedRoot, rfl⟩⟩
  · have three : 3 ≤ o := far
    exact (Function.update_of_ne (by omega) ..).trans (coherent.fresh o far)
  · obtain old | ⟨rfl, rfl⟩ := nestedVfs_cases found
    · exact coherent.keyed ino o inode cached old
    · have same : 1 = ino := coherent.keyed ino 1 _ cached rfl
      exact same
  · obtain old | ⟨rfl, rfl⟩ := nestedVfs_cases found
    · exact coherent.apart o inode old
    · rintro _ _ _ ⟨⟩

/-- The parent of `f/f`. -/
theorem parent_lookup_agrees_nested : nestedVfs.Ready (linkedEnv [slash]) 0 ∧ ∀ nd' w held clean,
    (lockedLookup (linkedEnv [slash]) parentInF).exec nestedVfs [] true = .returned (0, nd') w held clean →
    ParentFound (linkedEnv [slash]) nestedVfs parentInF nd' w held := by
  refine ⟨nestedVfs_ready [slash], ?_⟩
  refine (parent_lookup_agrees (nestedVfs_ready [slash]) rfl rfl).mpr ⟨by decide, fun how found w arrives => ?_⟩
  have one : (components parentInF.path).dropLast = [nameF] := by decide
  rw [one] at arrives
  have plain (text : List (BitVec 8)) (v : Vfs) : ¬ nestedVfs.Reads (linkedEnv [slash]) 0 nameF text v := by
    rintro ⟨o, inode, ⟨get, live⟩, link, _⟩
    cases get
    cases live
    cases link
  cases arrives with
  | dir descends rest => exact rest.nil.1
  | past reads => exact absurd reads (plain _ _)
  | bare reads => exact absurd reads (plain _ _)
  | deep reads => exact absurd reads (plain _ _)

/-- A link to the root in the middle of a path leaves nothing locked. -/
theorem parent_lookup_unlocked : ¬ ∀ nd' w held clean,
    (lockedLookup (linkedEnv [slash]) parentThroughL).exec linkedVfs [] true = .returned (0, nd') w held clean →
    ParentFound (linkedEnv [slash]) linkedVfs parentThroughL nd' w held := by
  intro all
  have reads : linkedVfs.Reads (linkedEnv [slash]) 0 nameL [slash] linkedVfs :=
    ⟨2, _, ⟨rfl, rfl⟩, by decide, rfl⟩
  have arrives : Arrives (linkedEnv [slash]) parentThroughL.left linkedVfs 0
      (components parentThroughL.path).dropLast .bare (some 0) linkedVfs :=
    .bare reads (by decide)
  obtain ⟨_, nd', held, clean, run, _, _, arrived⟩ := arrives.lookup (by decide) (linkedVfs_ready [slash]) rfl rfl
  obtain ⟨_, _, _, _, locked, _⟩ := (all _ _ _ _ run).parent
  cases (arrived.bare rfl).symm.trans locked

end
end SlotFs
