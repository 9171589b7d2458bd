import SlotFs.ParentLookup

/-!
# What a lookup leaves locked

Without `ND_PARENT` a lookup leaves the inode that it finds locked. With `ND_PARENT` it can give
back a lock that it does not have, or ask for one that its caller has, and it can come to a
directory that is not locked.
-/

namespace SlotFs
open Locks List Prog Nameidata

variable {held : List DataLock} {ms : List (List (BitVec 8))}
  {out : Locks.Outcome Vfs DataLock (Int × Nameidata)} {program : Nameidata → VfsProg (Int × Nameidata)}
  {this : List (BitVec 8)}

/-- With `ND_PARENT` the components before the last one lead to an entry whose lock is in `busy`,
or through a link without components, which leaves nothing locked, to one more component. -/
inductive Vfs.Trips (env : VfsEnv) (busy : List DataLock) : Nat → Vfs → Nat → List (List (BitVec 8)) → Prop
  | busy {left dir : Nat} {v : Vfs} {name : List (BitVec 8)} {names : List (List (BitVec 8))} {d : Nat × Nat}
      (entry : v.entry dir name = some (some d)) (taken : .inode d.2 ∈ busy) :
      Trips env busy left v dir (name :: names)
  | dir {left dir o : Nat} {v v' : Vfs} {name : List (BitVec 8)} {names : List (List (BitVec 8))}
      (descends : v.Descends env dir name o v') (rest : Trips env busy left v' o names) :
      Trips env busy left v dir (name :: names)
  | bare {left dir : Nat} {v v' : Vfs} {name text : List (BitVec 8)} {names : List (List (BitVec 8))}
      (reads : v.Reads env dir name text v') (empty : components text = []) (more : names ≠ []) :
      Trips env busy (left + 1) v dir (name :: names)
  | inside {left dir : Nat} {v v' : Vfs} {name text : List (BitVec 8)} {names : List (List (BitVec 8))}
      (reads : v.Reads env dir name text v') (full : components text ≠ [])
      (inner : Trips env busy left v' (linkBase v' dir text) (components text).dropLast) :
      Trips env busy (left + 1) v dir (name :: names)

/-- The lock of the root is not in `busy`. -/
def Vfs.Clear (v : Vfs) (busy : List DataLock) : Prop :=
  ∀ inode, v.objects v.root = some inode → .inode inode.iNo ∉ busy

/-- The lock of an entry is not in `busy`. -/
def Vfs.Free (v : Vfs) (busy : List DataLock) (dir : Nat) (name : List (BitVec 8)) : Prop :=
  ∀ d, v.entry dir name = some (some d) → .inode d.2 ∉ busy

section
variable {v v' w : Vfs} {env : VfsEnv} {nd : Nameidata} {dir o n left : Nat} {di inode : VfsInode} {clean : Bool}
  {busy : List DataLock} {name text : List (BitVec 8)} {names : List (List (BitVec 8))}

theorem Vfs.Clear.grows (clear : v.Clear busy) (root : ∃ inode, v.objects v.root = some inode)
    (grows : v.Grows v') : v'.Clear busy := by
  obtain ⟨root, top⟩ := root
  intro inode top'
  rw [grows.root, grows.objects _ _ top] at top'
  cases top'
  exact clear root top

/-- The directory from which a link is followed. -/
theorem Vfs.Clear.base (clear : v.Clear busy) (ready : v.Ready env (linkBase v dir text))
    (live : v.objects dir = some di) (free : .inode di.iNo ∉ busy) :
    ∃ base, v.objects (linkBase v dir text) = some base ∧ .inode base.iNo ∉ busy := by
  obtain ⟨base, live'⟩ := ready.dir
  refine ⟨base, live', ?_⟩
  unfold linkBase at live'
  split at live'
  · exact clear base live'
  · cases live.symm.trans live'
    exact free

theorem Vfs.Loads.free (loads : v.Loads env dir name o inode v') (h : v.Ready env dir)
    (open_ : .inode inode.iNo ∉ busy) : v.Free busy dir name := by
  intro d entry
  obtain ⟨di, live⟩ := h.dir
  obtain ⟨_, _, _, _, d', entry', number, _⟩ := loads.spec h.coherent h.sane live
  obtain rfl : d = d' := by simpa [entry] using entry'
  rw [number]
  exact open_

theorem Vfs.Descends.not_reads (descends : v.Descends env dir name o v') : ¬ v.Reads env dir name text w := by
  obtain ⟨inode, loads, isDir⟩ := descends
  rintro ⟨o', inode', loads', link, _⟩
  obtain ⟨rfl, rfl, rfl⟩ := loads.unique loads'
  exact VfsInode.not_symlink isDir link

theorem Vfs.Reads.unique {text' : List (BitVec 8)} (reads : v.Reads env dir name text v')
    (reads' : v.Reads env dir name text' w) : text' = text ∧ w = v' := by
  obtain ⟨o, inode, loads, _, read⟩ := reads
  obtain ⟨o', inode', loads', _, read'⟩ := reads'
  obtain ⟨rfl, rfl, rfl⟩ := loads.unique loads'
  cases read.symm.trans read'
  exact ⟨rfl, rfl⟩

/-! ## Where a lookup trips -/

theorem Vfs.not_trips_nil : ¬ v.Trips env busy left dir [] := nofun

theorem Vfs.Blocks.not_trips (blocks : v.Blocks env false dir name left busy) :
    ¬ v.Trips env busy left dir (name :: names) := by
  intro trips
  cases trips with
  | busy entry taken => exact blocks.free _ entry taken
  | dir descends rest =>
    obtain ⟨inode, loads, isDir⟩ := descends
    exact (blocks.loads _ inode _ loads).2 (VfsInode.not_symlink isDir) (.inr isDir)
  | bare reads empty more =>
    obtain ⟨o, inode, loads, link, read⟩ := reads
    exact absurd ((blocks.loads o inode _ loads).1 link) (by simp [read])
  | inside reads full inner =>
    obtain ⟨o, inode, loads, link, read⟩ := reads
    exact absurd ((blocks.loads o inode _ loads).1 link) (by simp [read])

section
variable (trips : v.Trips env busy left dir (name :: names)) (free : v.Free busy dir name)
include trips free

theorem Vfs.Trips.descend (descends : v.Descends env dir name o v') : v'.Trips env busy left o names := by
  cases trips with
  | busy entry taken => exact absurd taken (free _ entry)
  | dir descends' rest =>
    obtain ⟨inode, loads, _⟩ := descends
    obtain ⟨inode', loads', _⟩ := descends'
    obtain ⟨rfl, rfl, rfl⟩ := loads.unique loads'
    exact rest
  | bare reads => exact absurd reads descends.not_reads
  | inside reads => exact absurd reads descends.not_reads

theorem Vfs.Trips.past (reads : v.Reads env dir name text v') (empty : components text = []) : names ≠ [] := by
  cases trips with
  | busy entry taken => exact absurd taken (free _ entry)
  | dir descends => exact absurd reads descends.not_reads
  | bare _ _ more => exact more
  | inside reads' full =>
    obtain ⟨rfl, rfl⟩ := reads.unique reads'
    exact absurd empty full

end

theorem Vfs.Trips.follow (trips : v.Trips env busy (n + 1) dir (name :: names)) (free : v.Free busy dir name)
    (reads : v.Reads env dir name text v') (full : components text ≠ []) :
    v'.Trips env busy n (linkBase v' dir text) (components text).dropLast := by
  cases trips with
  | busy entry taken => exact absurd taken (free _ entry)
  | dir descends => exact absurd reads descends.not_reads
  | bare reads' empty =>
    obtain ⟨rfl, rfl⟩ := reads.unique reads'
    exact absurd empty full
  | inside reads' _ inner =>
    obtain ⟨rfl, rfl⟩ := reads.unique reads'
    exact inner

/-! ## Where a lookup arrives -/

section
variable {how : Arrival} {found : Option Nat}

theorem Vfs.Blocks.not_arrives (blocks : v.Blocks env false dir name left busy) :
    ¬ v.Arrives env left dir (name :: names) how found w := by
  have unread {n : Nat} {text : List (BitVec 8)} {v' : Vfs} (reads : v.Reads env dir name text v') :
      left ≠ n + 1 := by
    rintro rfl
    obtain ⟨o, inode, loads, link, read⟩ := reads
    exact absurd ((blocks.loads o inode _ loads).1 link) (by simp [read])
  intro arrives
  cases arrives with
  | dir descends =>
    obtain ⟨inode, loads, isDir⟩ := descends
    exact (blocks.loads _ inode _ loads).2 (VfsInode.not_symlink isDir) (.inr isDir)
  | past reads => exact unread reads rfl
  | bare reads => exact unread reads rfl
  | deep reads => exact unread reads rfl

theorem Vfs.Arrives.descend (arrives : v.Arrives env left dir (name :: names) how found w)
    (descends : v.Descends env dir name o v') : v'.Arrives env left o names how found w := by
  cases arrives with
  | dir descends' rest =>
    obtain ⟨inode, loads, _⟩ := descends
    obtain ⟨inode', loads', _⟩ := descends'
    obtain ⟨rfl, rfl, rfl⟩ := loads.unique loads'
    exact rest
  | past reads => exact absurd reads descends.not_reads
  | bare reads => exact absurd reads descends.not_reads
  | deep reads => exact absurd reads descends.not_reads

section
variable (arrives : v.Arrives env (n + 1) dir (name :: names) how found w) (reads : v.Reads env dir name text v')
include arrives reads

theorem Vfs.Arrives.follow (full : components text ≠ []) : how = .deep ∧ found = none ∧
      ∃ how' found', v'.Arrives env n (linkBase v' dir text) (components text).dropLast how' found' w := by
  cases arrives with
  | dir descends => exact absurd reads descends.not_reads
  | past reads' empty =>
    obtain ⟨rfl, rfl⟩ := reads.unique reads'
    exact absurd empty full
  | bare reads' empty =>
    obtain ⟨rfl, rfl⟩ := reads.unique reads'
    exact absurd empty full
  | deep reads' _ inner =>
    obtain ⟨rfl, rfl⟩ := reads.unique reads'
    exact ⟨rfl, rfl, _, _, inner⟩

theorem Vfs.Arrives.past_more (empty : components text = []) (more : names ≠ []) :
    v'.Arrives env (n + 1) (linkBase v' dir text) names how found w := by
  cases arrives with
  | dir descends => exact absurd reads descends.not_reads
  | past reads' _ _ rest =>
    obtain ⟨rfl, rfl⟩ := reads.unique reads'
    exact rest
  | bare => exact absurd rfl more
  | deep => exact absurd rfl more

end

theorem Vfs.Arrives.unique {how' : Arrival} {found' : Option Nat} {w' : Vfs}
    (arrives : v.Arrives env left dir names how found w)
    (arrives' : v.Arrives env left dir names how' found' w') : how' = how ∧ found' = found ∧ w' = w := by
  induction arrives generalizing how' found' w' with
  | here => exact arrives'.nil
  | dir descends _ ih => exact ih (arrives'.descend descends)
  | past reads empty more _ ih => exact ih (arrives'.past_more reads empty more)
  | bare reads empty =>
    cases arrives' with
    | dir descends => exact absurd reads descends.not_reads
    | past _ _ more => exact absurd rfl more
    | bare reads' =>
      obtain ⟨rfl, rfl⟩ := reads.unique reads'
      exact ⟨rfl, rfl, rfl⟩
    | deep reads' full =>
      obtain ⟨rfl, rfl⟩ := reads.unique reads'
      exact absurd empty full
  | deep reads full _ ih =>
    obtain ⟨rfl, rfl, _, _, inner⟩ := arrives'.follow reads full
    exact ⟨rfl, rfl, (ih inner).2.2⟩

end

/-! ## Lookups of a parent -/

/-- How a lookup of a parent ends. -/
inductive ParentEnd (env : VfsEnv) (busy : List DataLock) (clean : Bool) (left : Nat) (v : Vfs) (dir : Nat)
    (names : List (List (BitVec 8))) (last : List (BitVec 8)) : Locks.Outcome Vfs DataLock (Int × Nameidata) → Prop
  | crashed : ParentEnd env busy clean left v dir names last .crashed
  | tripped {out : Locks.Outcome Vfs DataLock (Int × Nameidata)} (trips : v.Trips env busy left dir names)
      (unclean : out.Unclean) : ParentEnd env busy clean left v dir names last out
  | failed {e : Int} {nd : Nameidata} {w : Vfs} (smooth : ¬ v.Trips env busy left dir names)
      (nowhere : ∀ how found w, ¬ v.Arrives env left dir names how found w) (bad : e ≠ 0)
      (grows : v.Grows w) : ParentEnd env busy clean left v dir names last (.returned (e, nd) w busy clean)
  | dir {nd : Nameidata} {w : Vfs} {p : Nat} {inode : VfsInode} (smooth : ¬ v.Trips env busy left dir names)
      (arrives : v.Arrives env left dir names .dir (some p) w) (gone : nd.current = none)
      (parent : nd.parent = some p) (named : nd.name = last) (live : w.objects p = some inode)
      (free : .inode inode.iNo ∉ busy) : ParentEnd env busy clean left v dir names last
        (.returned (0, nd) w (.inode inode.iNo :: busy) clean)
  | bare {nd : Nameidata} {w : Vfs} {p : Nat} (smooth : ¬ v.Trips env busy left dir names)
      (arrives : v.Arrives env left dir names .bare (some p) w) (gone : nd.current = none)
      (parent : nd.parent = some p) (named : nd.name = last) :
      ParentEnd env busy clean left v dir names last (.returned (0, nd) w busy clean)
  | deep {nd : Nameidata} {w : Vfs} {held : List DataLock} (smooth : ¬ v.Trips env busy left dir names)
      (arrives : v.Arrives env left dir names .deep none w) (gone : nd.current = none)
      (parent : nd.parent = none) :
      ParentEnd env busy clean left v dir names last (.returned (0, nd) w held clean)

theorem ParentEnd.descend {last : List (BitVec 8)} (ends : ParentEnd env busy clean left v' o names last out)
    (descends : v.Descends env dir name o v') (free : v.Free busy dir name) (grows : v.Grows v') :
    ParentEnd env busy clean left v dir (name :: names) last out := by
  have below (smooth : ¬ v'.Trips env busy left o names) : ¬ v.Trips env busy left dir (name :: names) :=
    fun trips => smooth (trips.descend free descends)
  cases ends with
  | crashed => exact .crashed
  | tripped trips unclean => exact .tripped (.dir descends trips) unclean
  | failed smooth nowhere bad grows' =>
    exact .failed (below smooth) (fun how found w arrives => nowhere how found w (arrives.descend descends)) bad
      (grows.trans grows')
  | dir smooth arrives gone parent named live free' =>
    exact .dir (below smooth) (.dir descends arrives) gone parent named live free'
  | bare smooth arrives gone parent named =>
    exact .bare (below smooth) (.dir descends arrives) gone parent named
  | deep smooth arrives gone parent => exact .deep (below smooth) (.dir descends arrives) gone parent

theorem afterLink_unclean {r : Int × Nameidata} : (afterLink nd o r v held false).Unclean := by
  unfold afterLink
  split
  · exact .returned _ _ _
  · exact exec_unclean _ _ _

/-- From a directory that is not locked the next component gives back a lock that is not there. -/
theorem walk_unlocked {rest : List (List (BitVec 8))} (more : rest ≠ []) (h : v.Ready env dir)
    (live : v.objects dir = some di) (current : nd.current = some dir) (free : .inode di.iNo ∉ busy) :
    ((lockedWalk env program (this :: rest) nd).exec v busy clean).Unclean := by
  rw [walk_exec more]
  have kind : Passage env program false v dir (component this) nd false busy clean
      ((lockedEnter env program false (component this) nd).exec v busy clean) :=
    passage h live current free
  refine .bind ?_ fun r w held => exec_unclean _ w held
  generalize (lockedEnter env program false (component this) nd).exec v busy clean = out at kind
  cases kind with
  | crashed => exact nofun
  | stuck => exact nofun
  | failed =>
    rw [Bool.and_false]
    exact .returned _ _ _
  | entered =>
    rw [Bool.and_false]
    exact .returned _ _ _
  | followed =>
    rw [Bool.and_false]
    exact (exec_unclean _ _ _).bind fun r w held => afterLink_unclean

/-- A link with components that has been followed to a parent. -/
theorem walk_deep {how : Arrival} {found : Option Nat} (parent : nd.wantParent = true)
    (budget : nd.left = n + 1) (free : v.Free busy dir name) (reads : v.Reads env dir name text v')
    (full : components text ≠ [])
    (smooth : ¬ v'.Trips env busy n (linkBase v' dir text) (components text).dropLast)
    (inner : v'.Arrives env n (linkBase v' dir text) (components text).dropLast how found w) :
    ParentEnd env busy clean nd.left v dir (name :: ms.map component) (component this)
      ((Outcome.returned (Except.ok { nd with current := none }) w held clean).bind
        fun r w held clean => (goOn nd (lockedWalk env program (ms ++ [this])) r).exec w held clean) := by
  rw [budget]
  cases ms with
  | nil =>
    rw [parent_exec { nd with current := none } parent]
    exact .deep (fun trips => smooth (trips.follow free reads full)) (.deep reads full inner) rfl rfl
  | cons m ms =>
    rw [Outcome.bind, goOn, cons_append, walk_nowhere (by simp)]
    exact .crashed

def lastComponent (path : List (BitVec 8)) : List (BitVec 8) := (components path).getLastD []

/-- How a lookup ends whose path has components, and what it does with one that has none. -/
structure ParentEnds (env : VfsEnv) (busy : List DataLock) (program : Nameidata → VfsProg (Int × Nameidata)) :
    Prop where
  full : ∀ (nd : Nameidata) (v : Vfs) (dir : Nat) (di : VfsInode) (clean : Bool),
    nd.wantParent = true → v.Ready env dir → v.Clear busy → nd.start = some dir → v.objects dir = some di →
    .inode di.iNo ∉ busy → components nd.path ≠ [] →
    ParentEnd env busy clean nd.left v dir (components nd.path).dropLast (lastComponent nd.path)
      ((program nd).exec v busy clean)
  empty : ∀ (nd : Nameidata) (v : Vfs) (held : List DataLock) (clean : Bool),
    nd.wantParent = true → components nd.path = [] →
    (program nd).exec v held clean = .crashed ∨
    (program nd).exec v held clean = .returned (0, { nd with current := nd.start }) v held clean

/-- The link leads to its base or to what its components give. -/
theorem ParentEnds.walk {program : Nameidata → VfsProg (Int × Nameidata)} (ends : ParentEnds env busy program)
    {middle : List (List (BitVec 8))} {this : List (BitVec 8)} (parent : nd.wantParent = true)
    (h : v.Ready env dir) (clear : v.Clear busy) (live : v.objects dir = some di) (free : .inode di.iNo ∉ busy)
    (current : nd.current = some dir) :
    ParentEnd env busy clean nd.left v dir (middle.map component) (component this)
      ((lockedWalk env program (middle ++ [this]) nd).exec v (.inode di.iNo :: busy) clean) := by
  induction middle generalizing nd v dir di clean with
  | nil =>
    rw [nil_append, walk_parent parent]
    exact .dir Vfs.not_trips_nil (.here _ _ _) rfl current (component_take this) live free
  | cons m ms ih =>
    rw [cons_append, walk_exec (by simp)]
    have kind : Passage env program false v dir (component m) nd true busy clean
        ((lockedEnter env program false (component m) nd).exec v (.inode di.iNo :: busy) clean) :=
      passage h live current free
    generalize (lockedEnter env program false (component m) nd).exec v (.inode di.iNo :: busy) clean = out
      at kind
    cases kind with
    | crashed => exact .crashed
    | stuck entry taken => exact .tripped (.busy entry taken) nofun
    | failed bad _ grows blocks =>
      rw [Bool.and_true]
      exact .failed blocks.not_trips (fun _ _ _ => blocks.not_arrives) bad grows
    | @entered o inode v' loads link fits open_ =>
      rw [Bool.and_true]
      have grows := (loads.spec h.coherent h.sane live).2.1
      have rest := @ih v' { nd with current := some o } o inode clean parent (loads.ready h).2
        (clear.grows h.root grows) loads.live open_ rfl
      exact rest.descend ⟨inode, loads, fits.resolve_left nofun⟩ (loads.free h open_) grows
    | @followed o n inode text v' loads link read open_ left =>
      rw [Bool.and_true]
      have reads : v.Reads env dir (component m) text v' := ⟨o, inode, loads, link, read⟩
      have ready := reads.ready h
      have grows := (loads.spec h.coherent h.sane live).2.1
      have clear' := clear.grows h.root grows
      have free' := loads.free h open_
      obtain ⟨base, live', open'⟩ := clear'.base ready (grows.objects _ _ live) free
      obtain ⟨_, _, deeper⟩ := left_succ left
      by_cases empty : components text = []
      · rcases ends.empty (nd.into v'.root text) v' busy clean parent empty with eq | eq
        · rw [eq]
          exact .crashed
        rw [eq, into_start current, left]
        cases ms with
        | nil =>
          rw [Outcome.bind, afterLink, if_pos rfl,
            parent_exec { nd with current := some (linkBase v' dir text) } parent]
          exact .bare (fun trips => trips.past free' reads empty rfl) (.bare reads empty) rfl rfl (component_take this)
        | cons m ms =>
          refine .tripped (.bare reads empty (by simp)) ?_
          exact walk_unlocked (by simp) ready live' rfl open'
      have inner := ends.full (nd.into v'.root text) v' _ base clean parent ready clear'
        (into_start current text) live' open' empty
      rw [deeper] at inner
      generalize (program (nd.into v'.root text)).exec v' busy clean = out at inner
      cases inner with
      | crashed => exact .crashed
      | tripped trips unclean =>
        rw [left]
        refine .tripped (.inside reads empty trips) ?_
        exact (unclean.bind fun r w held => afterLink_unclean).bind fun r w held => exec_unclean _ w held
      | failed smooth nowhere bad grows' =>
        rw [Outcome.bind, afterLink_failed (grows'.objects _ _ loads.live) open_ bad, left]
        refine .failed (fun trips => smooth (trips.follow free' reads empty)) (fun how found w arrives => ?_) bad
          (grows.trans grows')
        obtain ⟨_, _, how', found', inner⟩ := arrives.follow reads empty
        exact nowhere how' found' w inner
      | dir smooth arrives gone =>
        rw [Outcome.bind, afterLink, gone]
        exact walk_deep parent left free' reads empty smooth arrives
      | bare smooth arrives gone =>
        rw [Outcome.bind, afterLink, gone]
        exact walk_deep parent left free' reads empty smooth arrives
      | deep smooth arrives gone =>
        rw [Outcome.bind, afterLink, gone]
        exact walk_deep parent left free' reads empty smooth arrives

theorem ParentEnds.all (env : VfsEnv) (busy : List DataLock) (calls : Nat) :
    ParentEnds env busy (lockedLookupWithin env calls) := by
  induction calls with
  | zero => exact ⟨fun _ _ _ _ _ _ _ _ _ _ _ _ => .crashed, fun _ _ _ _ _ _ => .inl rfl⟩
  | succ calls ih =>
    refine ⟨fun nd v dir di clean parent h clear start live free full => ?_,
      fun nd v held clean parent empty => .inr ?_⟩
    · obtain ⟨middle, this, split, names, last, _⟩ := starts_split full
      rw [lockedLookupWithin_starts calls start live free full, split, ← names, lastComponent,
        getLastD_eq_getLast?, List.getLast?_eq_some_getLast full, Option.getD_some, ← last]
      exact @ParentEnds.walk v env { nd with current := nd.start } dir di clean busy _ ih middle this parent h
        clear live free start
    · rw [lockedLookupWithin_bare calls parent empty, exec_pure]

/-! ## What lookups load -/

/-- Inodes have been asked for. -/
def Vfs.Fetches (env : VfsEnv) : Vfs → Vfs → Prop := Relation.ReflTransGen fun v v' =>
  ∃ ino r, v.iget env ino = (r, v')

theorem Vfs.Loads.fetches (loads : v.Loads env dir name o inode v') : v.Fetches env v' := by
  obtain ⟨d, _, get⟩ := Vfs.pathIget_ok loads.get
  exact .single ⟨_, _, get⟩

theorem Vfs.Fetches.keeps (fetches : v.Fetches env w) (h : v.Coherent) (sane : env.Sane) :
    w.Coherent ∧ v.Grows w := by
  induction fetches with
  | refl => exact ⟨h, .refl v⟩
  | tail _ last ih =>
    obtain ⟨ino, r, get⟩ := last
    obtain ⟨coherent, grows, _⟩ := ih.1.iget sane get
    exact ⟨coherent, ih.2.trans grows⟩

theorem Vfs.Ready.fetches (h : v.Ready env dir) (fetches : v.Fetches env w) (live : w.objects o = some inode) :
    w.Ready env o := by
  obtain ⟨coherent, grows⟩ := fetches.keeps h.coherent h.sane
  obtain ⟨root, top⟩ := h.root
  exact ⟨coherent, h.sane, ⟨root, grows.root ▸ grows.objects _ _ top⟩, inode, live⟩

/-- An object that is cached for its number. -/
def Vfs.Cached (v : Vfs) (o : Nat) : Prop := ∃ inode, v.objects o = some inode ∧ v.inodeTable inode.iNo = some o

theorem Vfs.Cached.grows (cached : v.Cached o) (grows : v.Grows w) : w.Cached o := by
  obtain ⟨inode, live, here⟩ := cached
  exact ⟨inode, grows.objects _ _ live, grows.table _ _ here⟩

/-- A lookup from `dir` has come to `o`. -/
structure Vfs.Reaches (v : Vfs) (env : VfsEnv) (dir o : Nat) (inode : VfsInode) (w : Vfs) : Prop where
  fetches : v.Fetches env w
  live : w.objects o = some inode
  cached : v.Cached dir → v.Cached v.root → w.Cached o

theorem Vfs.Reaches.trans {o' : Nat} {inode' : VfsInode} (reaches : v.Reaches env dir o inode v')
    (h : v.Ready env dir) (next : v'.Reaches env o o' inode' w) : v.Reaches env dir o' inode' w := by
  have grows := (reaches.fetches.keeps h.coherent h.sane).2
  refine ⟨reaches.fetches.trans next.fetches, next.live, fun start root => ?_⟩
  exact next.cached (reaches.cached start root) (grows.root ▸ root.grows grows)

section
variable (loads : v.Loads env dir name o inode v') (h : v.Ready env dir)
include loads h

theorem Vfs.Loads.reaches : v.Reaches env dir o inode v' := by
  obtain ⟨di, live⟩ := h.dir
  obtain ⟨_, _, cached, _⟩ := loads.spec h.coherent h.sane live
  exact ⟨loads.fetches, loads.live, fun _ _ => ⟨inode, loads.live, cached⟩⟩

/-- To where a link starts from. -/
theorem Vfs.Loads.reaches_base (text : List (BitVec 8)) :
    ∃ base, v.Reaches env dir (linkBase v' dir text) base v' := by
  obtain ⟨di, live⟩ := h.dir
  have grows := (loads.spec h.coherent h.sane live).2.1
  obtain ⟨base, live'⟩ := ((loads.ready h).1.base text).dir
  refine ⟨base, loads.fetches, live', fun start root => ?_⟩
  unfold linkBase
  split
  · exact grows.root ▸ root.grows grows
  · exact start.grows grows

end

/-! ## Lookups of an inode -/

/-- How a lookup without `ND_PARENT` ends. -/
inductive PlainEnd (env : VfsEnv) (clean : Bool) (v : Vfs) (dir : Nat) :
    Locks.Outcome Vfs DataLock (Int × Nameidata) → Prop
  | crashed : PlainEnd env clean v dir .crashed
  | failed {e : Int} {nd : Nameidata} {w : Vfs} (bad : e ≠ 0) (grows : v.Grows w) :
      PlainEnd env clean v dir (.returned (e, nd) w [] clean)
  | found {nd : Nameidata} {w : Vfs} {o : Nat} {inode : VfsInode} (current : nd.current = some o)
      (reaches : v.Reaches env dir o inode w) :
      PlainEnd env clean v dir (.returned (0, nd) w [.inode inode.iNo] clean)

/-- How one component ends. -/
inductive EnterEnd (env : VfsEnv) (clean : Bool) (v : Vfs) (dir : Nat) (nd : Nameidata) :
    Locks.Outcome Vfs DataLock (Except Int Nameidata) → Prop
  | crashed : EnterEnd env clean v dir nd .crashed
  | failed {e : Int} {w : Vfs} (bad : e ≠ 0) (grows : v.Grows w) :
      EnterEnd env clean v dir nd (.returned (.error e) w [] clean)
  | found {w : Vfs} {o : Nat} {inode : VfsInode} (reaches : v.Reaches env dir o inode w) :
      EnterEnd env clean v dir nd
        (.returned (.ok { nd with current := some o }) w [.inode inode.iNo] clean)

theorem PlainEnd.after (later : PlainEnd env clean v' o out) (h : v.Ready env dir)
    (reaches : v.Reaches env dir o inode v') : PlainEnd env clean v dir out := by
  cases later with
  | crashed => exact .crashed
  | failed bad grows =>
    exact .failed bad ((reaches.fetches.keeps h.coherent h.sane).2.trans grows)
  | found current reaches' => exact .found current (reaches.trans h reaches')

def PlainEnds (env : VfsEnv) (program : Nameidata → VfsProg (Int × Nameidata)) : Prop :=
  ∀ (nd : Nameidata) (v : Vfs) (dir : Nat) (clean : Bool), nd.wantParent = false → v.Ready env dir →
    nd.start = some dir → PlainEnd env clean v dir ((program nd).exec v [] clean)

theorem PlainEnds.enter {program : Nameidata → VfsProg (Int × Nameidata)} (ends : PlainEnds env program)
    (parent : nd.wantParent = false) (h : v.Ready env dir) (live : v.objects dir = some di)
    (current : nd.current = some dir) (last : Bool) (name : List (BitVec 8)) : EnterEnd env clean v dir nd
      ((lockedEnter env program last name nd).exec v [.inode di.iNo] clean) := by
  have kind : Passage env program last v dir name nd true [] clean
      ((lockedEnter env program last name nd).exec v [.inode di.iNo] clean) :=
    passage h live current not_mem_nil
  generalize (lockedEnter env program last name nd).exec v [.inode di.iNo] clean = out at kind
  cases kind with
  | crashed => exact .crashed
  | stuck _ taken => cases taken
  | failed bad _ grows _ =>
    rw [Bool.and_true]
    exact .failed bad grows
  | entered loads =>
    rw [Bool.and_true]
    exact .found (loads.reaches h)
  | @followed o n inode text v' loads link read open_ left =>
    rw [Bool.and_true]
    have grows := (loads.spec h.coherent h.sane live).2.1
    obtain ⟨base, start⟩ := loads.reaches_base h text
    have inner := ends (nd.into v'.root text) v' (linkBase v' dir text) clean parent ((loads.ready h).1.base text)
      (into_start current text)
    generalize (program (nd.into v'.root text)).exec v' [] clean = out at inner
    cases inner with
    | crashed => exact .crashed
    | failed bad grows' =>
      rw [Outcome.bind, afterLink_failed (grows'.objects _ _ loads.live) not_mem_nil bad]
      exact .failed bad (grows.trans grows')
    | found current' reaches =>
      rw [Outcome.bind, afterLink, current']
      exact .found (start.trans h reaches)

theorem PlainEnds.walk {program : Nameidata → VfsProg (Int × Nameidata)} (ends : PlainEnds env program)
    {starts : List (List (BitVec 8))} (full : starts ≠ []) (parent : nd.wantParent = false) (h : v.Ready env dir)
    (live : v.objects dir = some di) (current : nd.current = some dir) :
    PlainEnd env clean v dir ((lockedWalk env program starts nd).exec v [.inode di.iNo] clean) := by
  induction starts generalizing nd v dir di clean with
  | nil => exact absurd rfl full
  | cons this rest ih =>
    cases rest with
    | nil =>
      rw [lockedWalk]
      rw [if_neg (ne_true_of_eq_false parent), exec_bind]
      have enter := @PlainEnds.enter v env { nd with last := this, lastLen := (component this).length } dir di clean
        program ends parent h live current true (component this)
      generalize exec (lockedEnter env program true (component this) _) v [.inode di.iNo] clean = out at enter
      cases enter with
      | crashed => exact .crashed
      | failed bad grows => exact .failed bad grows
      | found reaches => exact .found rfl reaches
    | cons next rest =>
      rw [walk_exec (by simp)]
      have enter : EnterEnd env clean v dir nd
          ((lockedEnter env program false (component this) nd).exec v [.inode di.iNo] clean) :=
        ends.enter parent h live current false (component this)
      generalize (lockedEnter env program false (component this) nd).exec v [.inode di.iNo] clean = out at enter
      cases enter with
      | crashed => exact .crashed
      | failed bad grows => exact .failed bad grows
      | @found w o inode reaches =>
        have later := @ih w { nd with current := some o } o inode clean (by simp) parent
          (h.fetches reaches.fetches reaches.live) reaches.live rfl
        exact later.after h reaches

theorem PlainEnds.all (env : VfsEnv) (calls : Nat) : PlainEnds env (lockedLookupWithin env calls) := by
  induction calls with
  | zero => exact fun _ _ _ _ _ _ _ => .crashed
  | succ calls ih =>
    intro nd v dir clean parent h start
    obtain ⟨di, live⟩ := h.dir
    by_cases empty : components nd.path = []
    · have none : pathStarts true nd.path = [] := map_eq_nil_iff.mp empty
      simp only [lockedLookupWithin, none, parent, Bool.false_eq_true, if_false]
      rw [lockStart_exec start live not_mem_nil]
      exact .found start ⟨.refl, live, fun cached _ => cached⟩
    · rw [lockedLookupWithin_starts calls start live not_mem_nil empty]
      have full : pathStarts true nd.path ≠ [] := fun none => empty (by rw [components, none]; rfl)
      exact @PlainEnds.walk v env { nd with current := nd.start } dir di clean _ ih _ full parent h live start

theorem lockStart_dead {α : Type} {program : Unit → VfsProg α}
    (dead : ∀ dir di, nd.start = some dir → v.objects dir ≠ some di) :
    (lockStart nd >>= program).exec v held clean = .crashed := by
  rw [exec_bind, lockStart]
  cases start : nd.start with
  | none =>
    rfl
  | some dir =>
    have gone : v.objects dir = none := Option.eq_none_iff_forall_ne_some.mpr fun di => dead dir di start
    rw [pointer_exec, inodeLock, fetch_none gone]
    rfl

/-- A lookup without `ND_PARENT` returns with the inode that it found locked, or with nothing locked. It gives
back no lock that it does not have. -/
theorem lookup_leaves_current_locked {ret : Int} {nd' : Nameidata} {held : List DataLock} {clean : Bool}
    (h : v.Coherent) (sane : env.Sane) (root : ∃ inode, v.objects v.root = some inode)
    (parent : nd.wantParent = false)
    (run : (lockedLookup env nd).exec v [] true = .returned (ret, nd') w held clean) :
    clean = true ∧
    (ret = 0 → ∃ o inode, nd'.current = some o ∧ w.objects o = some inode ∧ held = [.inode inode.iNo]) ∧
    (ret ≠ 0 → held = []) := by
  obtain ⟨dir, di, start, live⟩ : ∃ dir di, nd.start = some dir ∧ v.objects dir = some di := by
    by_contra dead
    push Not at dead
    rw [lockedLookup, lockedLookupWithin] at run
    split at run
    · rw [if_neg (by simp [parent]), lockStart_dead dead] at run
      cases run
    · cases (lockStart_dead dead).symm.trans run
  have ends := PlainEnds.all env (maxLoop + 2) nd v dir true parent ⟨h, sane, root, di, live⟩ start
  rw [← lockedLookup, run] at ends
  cases ends with
  | failed bad _ => exact ⟨rfl, fun zero => absurd zero bad, fun _ => rfl⟩
  | @found _ _ o inode current reaches =>
    exact ⟨rfl, fun _ => ⟨o, inode, current, reaches.live, rfl⟩, fun bad => absurd rfl bad⟩

theorem lookup_leaves_current_locked_through :
    ∃ nd' w held clean, (lockedLookup (linkedEnv [slash]) throughL).exec linkedVfs [] true =
      .returned (0, nd') w held clean ∧
    ∃ o inode, nd'.current = some o ∧ w.objects o = some inode ∧ held = [.inode inode.iNo] := by
  have returns : ∃ nd' w held clean, (lockedLookup (linkedEnv [slash]) throughL).exec linkedVfs [] true =
      .returned (0, nd') w held clean := ⟨_, _, _, _, rfl⟩
  obtain ⟨nd', w, held, clean, run⟩ := returns
  have ready := linkedVfs_ready [slash]
  exact ⟨nd', w, held, clean, run,
    (lookup_leaves_current_locked ready.coherent ready.sane ready.root rfl run).2.1 rfl⟩

end
end SlotFs
