import SlotFs.Lib.NameTree
import SlotFs.VfsLinks

/-!
# What a path leads to

A state of the cache and of the medium shows a tree of names, and `path_lookup` goes the
way that the tree gives. It crashes where it reads a link that `inode_rebuild` has loaded, of
which `file_rebuild` brings back no content, and where a link that is not the last component
leads to a file.
-/

namespace SlotFs
open Names Function List Option Vfs Nameidata NameTree

variable {absolute : Bool} {dir ino o : Nat} {inode : VfsInode} {name text : List (BitVec 8)} {nd : Nameidata}
  {path : List (List (BitVec 8))}

abbrev FileTree := NameTree Nat (List (BitVec 8))

def components (path : List (BitVec 8)) : List (List (BitVec 8)) := (pathStarts true path).map component

/-- The node of a link with a text. -/
def linkNode (text : List (BitVec 8)) : Node (List (BitVec 8)) :=
  .link (text.head? = some slash) (components text)

def errnoOf : Failure → Int
  | .noent => enoent
  | .notdir => enotdir
  | .loop => eloop

structure VfsInode.Stands (inode : VfsInode) (t : FileTree) (ino : Nat) : Prop where
  dir : inode.isDir ↔ t.node ino = .dir
  link : inode.isSymlink ↔ ∃ absolute path, t.node ino = .link absolute path
  entries : inode.isDir → ∀ hash, (direntLookup inode.toDir hash).map (fun d => (inode.dents d).ino) =
    ((t.entries ino).find? fun e => bkdrHash e.1 = hash).map Prod.snd

/-- There is memory, and what is cached and what `inode_rebuild` loads is as the tree says. The
links of `cold` have been loaded by `inode_rebuild` or are still to be: their texts cannot be
read. -/
structure Vfs.Shows (v : Vfs) (env : VfsEnv) (t : FileTree) (cold : Nat → Prop) : Prop where
  memory : ∀ n, v.arena.grants n
  root : v.inodeTable t.root = some v.root
  rootDir : t.node t.root = .dir
  cached : ∀ ino o, v.inodeTable ino = some o → o < v.arena.asked ∧
    ∃ inode, v.objects o = some inode ∧ inode.iNo = ino ∧ inode.Stands t ino
  rebuilt : ∀ dir name ino, t.child dir name = some ino → v.inodeTable ino = none →
    ∃ inode, env.rebuild ino = .ok inode ∧ inode.Stands t ino
  text : ∀ ino o, v.inodeTable ino = some o → ¬ cold ino → ∀ absolute path,
    t.node ino = .link absolute path →
    ∃ text, env.readlink o = some (.ok text) ∧ linkNode text = .link absolute path
  textless : ∀ ino o, v.inodeTable ino = some o → cold ino → env.readlink o = none
  unread : ∀ ino, v.inodeTable ino = none → cold ino
  fresh : ∀ o, v.arena.asked ≤ o → env.readlink o = none

section
variable {v v' w : Vfs} {env : VfsEnv} {t : FileTree} {cold : Nat → Prop}

theorem VfsInode.Stands.load (h : inode.Stands t ino) :
    VfsInode.Stands { inode with iNo := ino, ref := 0 } t ino :=
  ⟨h.dir, h.link, h.entries⟩

theorem VfsInode.Stands.lookup (h : inode.Stands t ino) (isDir : t.node ino = .dir)
    (apart : t.Apart bkdrHash name) :
    (direntLookup inode.toDir (bkdrHash name)).map (fun d => (inode.dents d).ino) = t.child ino name := by
  rw [h.entries (h.dir.mpr isDir), t.child_of_hash apart]

/-- Memory has been asked for. -/
def Vfs.asksOne (v : Vfs) : Vfs := { v with arena := { v.arena with asked := v.arena.asked + 1 } }

/-- An inode has been loaded into a new object. -/
def Vfs.loaded (v : Vfs) (ino : Nat) (inode : VfsInode) : Vfs :=
  { v.asksOne with
    objects := update v.objects v.arena.asked (some { inode with iNo := ino, ref := 0 })
    inodeTable := update v.inodeTable ino (some v.arena.asked) }

section
variable {i ino o : Nat} {inode : VfsInode}

theorem Vfs.loaded_objects_self : (v.loaded ino inode).objects v.arena.asked =
    some { inode with iNo := ino, ref := 0 } := update_self ..

theorem Vfs.loaded_objects_ne (other : o ≠ v.arena.asked) : (v.loaded ino inode).objects o = v.objects o :=
  update_of_ne other ..

theorem Vfs.loaded_table_self : (v.loaded ino inode).inodeTable ino = some v.arena.asked :=
  update_self ..

theorem Vfs.loaded_table (cached : (v.loaded ino inode).inodeTable i = some o) :
    (i = ino ∧ o = v.arena.asked) ∨ v.inodeTable i = some o := by
  by_cases same : i = ino
  · rw [same, loaded_table_self] at cached
    cases cached
    exact .inl ⟨same, rfl⟩
  · exact .inr ((update_of_ne same ..).symm.trans cached)

theorem Vfs.loaded_keeps (missing : v.inodeTable ino = none) (cached : v.inodeTable i = some o) :
    (v.loaded ino inode).inodeTable i = some o := by
  have other : i ≠ ino := by
    rintro rfl
    cases missing.symm.trans cached
  exact (update_of_ne other ..).trans cached

end

theorem Vfs.iget_cases {r : Except Int Nat} (call : v.iget env ino = (r, v')) :
    (∃ o, v.inodeTable ino = some o ∧ r = .ok o ∧ v' = v) ∨
    (∃ e, r = .error e ∧ (e = enomem ∨ env.rebuild ino = .error e) ∧ v' = v.asksOne) ∨
    ∃ inode, v.inodeTable ino = none ∧ env.rebuild ino = .ok inode ∧ r = .ok v.arena.asked ∧
      v' = v.loaded ino inode := by
  unfold iget at call
  cases here : v.inodeTable ino with
  | some o =>
    rw [here] at call
    cases call
    exact .inl ⟨o, rfl, rfl, rfl⟩
  | none =>
    by_cases granted : v.arena.grants v.arena.asked
    · simp only [here, Arena.alloc, granted] at call
      cases rebuild : env.rebuild ino with
      | error e =>
        rw [rebuild] at call
        cases call
        exact .inr (.inl ⟨e, rfl, .inr rfl, rfl⟩)
      | ok inode =>
        rw [rebuild] at call
        cases call
        exact .inr (.inr ⟨inode, rfl, rfl, rfl, rfl⟩)
    · simp only [here, Arena.alloc, granted] at call
      cases call
      exact .inr (.inl ⟨enomem, rfl, .inl rfl, rfl⟩)

theorem Vfs.loaded_missing {i : Nat} (missing : (v.loaded ino inode).inodeTable i = none) :
    v.inodeTable i = none := by
  have other : i ≠ ino := by
    rintro rfl
    cases loaded_table_self.symm.trans missing
  exact (update_of_ne other ..).symm.trans missing

section
variable (h : v.Shows env t cold)
include h

theorem Vfs.Shows.loaded (missing : v.inodeTable ino = none) (stands : inode.Stands t ino) :
    (v.loaded ino inode).Shows env t cold where
  memory := h.memory
  root := loaded_keeps missing h.root
  rootDir := h.rootDir
  cached := by
    intro i p cached
    rcases loaded_table cached with ⟨rfl, rfl⟩ | cached
    · exact ⟨Nat.lt_succ_self _, _, loaded_objects_self, rfl, stands.load⟩
    · obtain ⟨below, inode, live, rest⟩ := h.cached i p cached
      refine ⟨Nat.lt_succ_of_lt below, inode, ?_, rest⟩
      rw [loaded_objects_ne (Nat.ne_of_lt below), live]
  rebuilt := fun dir name i entry empty => h.rebuilt dir name i entry (loaded_missing empty)
  text := by
    intro i p cached warm
    rcases loaded_table cached with ⟨rfl, rfl⟩ | cached
    · exact absurd (h.unread i missing) warm
    · exact h.text i p cached warm
  textless := by
    intro i p cached frozen
    rcases loaded_table cached with ⟨rfl, rfl⟩ | cached
    · exact h.fresh _ (Nat.le_refl _)
    · exact h.textless i p cached frozen
  unread := fun i empty => h.unread i (loaded_missing empty)
  fresh := fun p above => h.fresh p (Nat.le_of_succ_le above)

/-- The inode of an entry is found in the cache or brought there. -/
theorem Vfs.Shows.iget (entry : t.child dir name = some ino) :
    ∃ o v', v.iget env ino = (.ok o, v') ∧ v'.Shows env t cold ∧ v'.inodeTable ino = some o ∧
      ∀ i p, v.inodeTable i = some p → v'.inodeTable i = some p := by
  cases here : v.inodeTable ino with
  | some o => exact ⟨o, v, by simp [Vfs.iget, here], h, here, fun _ _ => id⟩
  | none =>
    obtain ⟨inode, rebuild, stands⟩ := h.rebuilt dir name ino entry here
    refine ⟨v.arena.asked, v.loaded ino inode, ?_, h.loaded here stands, loaded_table_self,
      fun i p => loaded_keeps here⟩
    simp only [Vfs.iget, here, Arena.alloc, h.memory, rebuild]
    rfl

section
variable (here : v.inodeTable dir = some o) (isDir : t.node dir = .dir) (apart : t.Apart bkdrHash name)
include here isDir apart

/-- A name that the directory does not have. -/
theorem Vfs.Shows.pathIget_none (entry : t.child dir name = none) :
    v.pathIget env (some o) name = some (.error enoent, v) := by
  obtain ⟨inode, live, _, stands⟩ := (h.cached dir o here).2
  have lookup := stands.lookup isDir apart
  rw [entry, map_eq_none_iff] at lookup
  simp [pathIget, inodeLookup, live, stands.dir.mpr isDir, lookup]

theorem Vfs.Shows.pathIget_some (entry : t.child dir name = some ino) :
    ∃ p v', v.pathIget env (some o) name = some (.ok p, v') ∧ v'.Shows env t cold ∧
      v'.inodeTable ino = some p ∧ ∀ i p, v.inodeTable i = some p → v'.inodeTable i = some p := by
  obtain ⟨inode, live, _, stands⟩ := (h.cached dir o here).2
  have lookup := stands.lookup isDir apart
  rw [entry, map_eq_some_iff] at lookup
  obtain ⟨d, found, rfl⟩ := lookup
  obtain ⟨p, v', get, shows, cached, kept⟩ := h.iget entry
  refine ⟨p, v', ?_, shows, cached, kept⟩
  simp [pathIget, inodeLookup, live, stands.dir.mpr isDir, found, get]

end

/-- From something other than a directory a walk does not go on. -/
theorem Vfs.Shows.pathIget_other (here : v.inodeTable ino = some o) (other : t.node ino ≠ .dir) :
    v.pathIget env (some o) name = none := by
  obtain ⟨inode, live, _, stands⟩ := (h.cached ino o here).2
  have isDir : ¬ inode.isDir = true := fun isDir => other (stands.dir.mp isDir)
  simp [pathIget, inodeLookup, live, isDir]

end

/-! ## Walks -/

/-- What a lookup returns is what the tree gives. -/
def Agrees (r : Except Failure Nat) (ret : Int) (current : Option Nat) (v : Vfs) : Prop :=
  match r with
  | .ok ino => ret = 0 ∧ ∃ o inode, current = some o ∧ v.inodeTable ino = some o ∧
      v.objects o = some inode ∧ inode.iNo = ino
  | .error e => ret = errnoOf e

/-- No flags are set, and `left` more links can be followed within each other. -/
structure Nameidata.Plain (nd : Nameidata) (left : Nat) : Prop where
  parent : nd.wantParent = false
  nofollow : nd.nofollow = false
  depth : nd.depth + left = maxLoop + 1

/-- A result in which the same tree is shown. -/
def Finds (env : VfsEnv) (t : FileTree) (cold : Nat → Prop) (r : Except Failure Nat)
    (out : Option (Int × Nameidata × Vfs)) : Prop :=
  ∃ ret nd v, out = some (ret, nd, v) ∧ v.Shows env t cold ∧ Agrees r ret nd.current v

/-- A lookup that follows at most `left` links within each other crashes where it stumbles, and
agrees with the tree elsewhere. -/
def LooksUp (env : VfsEnv) (t : FileTree) (cold : Nat → Prop) (left : Nat)
    (lookup : Vfs → Nameidata → Option (Int × Nameidata × Vfs)) : Prop :=
  ∀ (v : Vfs) (nd : Nameidata) (dir o : Nat), v.Shows env t cold → nd.Plain left → nd.start = some o →
    v.inodeTable dir = some o → t.node dir = .dir →
    (∀ name ∈ components nd.path, t.Apart bkdrHash name) →
    (t.Stumbles cold left (components nd.path) dir → lookup v nd = none) ∧
    (¬ t.Stumbles cold left (components nd.path) dir →
      Finds env t cold (t.resolve left (components nd.path) dir) (lookup v nd))

def LinksApart (t : FileTree) : Prop :=
  ∀ ino absolute path, t.node ino = .link absolute path → ∀ name ∈ path, t.Apart bkdrHash name

theorem Vfs.Shows.agrees (h : v.Shows env t cold) (here : v.inodeTable ino = some o) :
    Agrees (.ok ino) 0 (some o) v := by
  obtain ⟨inode, live, number, _⟩ := (h.cached ino o here).2
  exact ⟨rfl, o, inode, rfl, here, live, number⟩

theorem errnoOf_ne (e : Failure) : errnoOf e ≠ 0 := by cases e <;> decide

variable {left : Nat} {lookup : Vfs → Nameidata → Option (Int × Nameidata × Vfs)}

/-- What `handle_symlink` looks up for the text of a link. -/
def Nameidata.into (nd : Nameidata) (root : Nat) (text : List (BitVec 8)) : Nameidata :=
  { nd with
    path := text
    depth := (nd.depth + 1) % 256
    start := if text.head? = some slash then some root else nd.current }

theorem Vfs.handleSymlink_read (nofollow : nd.nofollow = false) (shallow : ¬ maxLoop < nd.depth) {p : Nat}
    (read : env.readlink p = some (.ok text)) :
    v.handleSymlink env lookup p nd = (lookup v (nd.into v.root text)).bind fun r =>
      some (r.1, if r.1 = 0 then { nd with current := r.2.1.current } else nd, r.2.2) := by
  rewrite [handleSymlink, if_neg (ne_true_of_eq_false nofollow), if_neg shallow, read]
  rfl

/-- A link that is followed. -/
theorem Vfs.Shows.handleSymlink (h : v.Shows env t cold) (apart : LinksApart t)
    (serves : ∀ n, left = n + 1 → LooksUp env t cold n lookup) (plain : nd.Plain left) {i p : Nat}
    (current : nd.current = some o) (here : v.inodeTable dir = some o) (isDir : t.node dir = .dir)
    (cached : v.inodeTable i = some p) (link : t.node i = .link absolute path) :
    (t.Trips cold left i path (t.base dir absolute) → v.handleSymlink env lookup p nd = none) ∧
    (¬ t.Trips cold left i path (t.base dir absolute) → ∃ ret nd' v',
      v.handleSymlink env lookup p nd = some (ret, nd', v') ∧ v'.Shows env t cold ∧
      Agrees (t.follow left path (t.base dir absolute)) ret nd'.current v' ∧
      (ret = 0 → nd' = { nd with current := nd'.current })) := by
  have depth := plain.depth
  cases left with
  | zero =>
    have deep : maxLoop < nd.depth := by omega
    refine ⟨?_, fun _ => ⟨eloop, nd, v, ?_, h, rfl, nofun⟩⟩
    · rintro ⟨n, ⟨⟩, _⟩
    · simp [handleSymlink, plain.nofollow, deep]
  | succ n =>
    have shallow : ¬ maxLoop < nd.depth := by omega
    have wraps : (nd.depth + 1) % 256 = nd.depth + 1 := by
      simp only [maxLoop] at shallow
      omega
    by_cases unread : cold i
    · have none := h.textless i p cached unread
      refine ⟨fun _ => ?_, fun free => absurd ⟨n, rfl, .inl unread⟩ free⟩
      simp [handleSymlink, plain.nofollow, shallow, none]
    obtain ⟨text, read, node⟩ := h.text i p cached unread absolute path link
    obtain ⟨rfl, rfl⟩ := Node.link.inj node
    have start : ∃ s, (nd.into v.root text).start = some s ∧
        v.inodeTable (t.base dir (text.head? = some slash)) = some s := by
      by_cases slashed : text.head? = some slash
      · exact ⟨v.root, by simp [into, slashed], by simpa [base, slashed] using h.root⟩
      · exact ⟨o, by simp [into, slashed, current], by simpa [base, slashed] using here⟩
    obtain ⟨s, start, here'⟩ := start
    have isDir' : t.node (t.base dir (text.head? = some slash)) = .dir := by
      unfold base
      split
      · exact h.rootDir
      · exact isDir
    have plain' : (nd.into v.root text).Plain n :=
      ⟨plain.parent, plain.nofollow, by simp only [into]; omega⟩
    obtain ⟨crashes, finds⟩ := serves n rfl v (nd.into v.root text) _ s h plain' start here' isDir'
      (apart i _ _ link)
    rw [handleSymlink_read plain.nofollow shallow read]
    constructor
    · rintro ⟨_, ⟨⟩, frozen | stumbles⟩
      · exact absurd frozen unread
      · rw [crashes stumbles]
        rfl
    intro free
    obtain ⟨ret, nd', v', call, shows, agrees⟩ := finds fun stumbles => free ⟨n, rfl, .inr stumbles⟩
    refine ⟨ret, if ret = 0 then { nd with current := nd'.current } else nd, v', by rw [call]; rfl,
      shows, ?_, ?_⟩
    · change Agrees (t.resolve n (components text) _) _ _ _
      change Agrees (t.resolve n (components text) _) _ _ _ at agrees
      cases r : t.resolve n (components text) (t.base dir (text.head? = some slash)) with
      | error e =>
        rw [r] at agrees
        exact agrees
      | ok j =>
        rw [r] at agrees
        obtain ⟨rfl, found⟩ := agrees
        exact ⟨rfl, found⟩
    · rintro rfl
      simp

/-! One round of the loop. -/

section
variable {nd : Nameidata} {this : List (BitVec 8)} {rest : List (List (BitVec 8))} {p : Nat} {inode : VfsInode}

theorem Vfs.pathWalk_error (parent : nd.wantParent = false) {e : Int}
    (call : v.pathIget env nd.current (component this) = some (.error e, v')) :
    ∃ nd', pathWalk env lookup (this :: rest) v nd = some (e, nd', v') := by
  cases rest with
  | nil => simp [pathWalk, parent, call]
  | cons next rest => simp [pathWalk, call]

theorem Vfs.pathWalk_last (parent : nd.wantParent = false)
    (call : v.pathIget env nd.current (component this) = some (.ok p, v'))
    (live : v'.objects p = some inode) : pathWalk env lookup [this] v nd =
      if inode.isSymlink then
        v'.handleSymlink env lookup p { nd with last := this, lastLen := (component this).length }
      else some (0, { nd with last := this, lastLen := (component this).length, current := some p }, v') := by
  simp [pathWalk, parent, call, live]

section
variable (more : rest ≠ []) (call : v.pathIget env nd.current (component this) = some (.ok p, v'))
  (live : v'.objects p = some inode)
include more call live

theorem Vfs.pathWalk_link (isSymlink : inode.isSymlink) :
    pathWalk env lookup (this :: rest) v nd = (v'.handleSymlink env lookup p nd).bind fun r =>
      if r.1 = 0 then pathWalk env lookup rest r.2.2 r.2.1 else some (r.1, r.2.1, r.2.2) := by
  cases rest with
  | nil => exact absurd rfl more
  | cons next rest =>
    simp only [pathWalk, call, live, isSymlink, bind_eq_bind, bind_some, if_true]

theorem Vfs.pathWalk_other (isSymlink : ¬ inode.isSymlink) : pathWalk env lookup (this :: rest) v nd =
      if inode.isDir then pathWalk env lookup rest v' { nd with current := some p }
      else some (enotdir, nd, v') := by
  cases rest with
  | nil => exact absurd rfl more
  | cons next rest =>
    simp only [pathWalk, call, live, isSymlink, bind_eq_bind, bind_some]
    rfl

end

theorem Vfs.pathWalk_crash (parent : nd.wantParent = false) (more : rest ≠ [])
    (call : ∀ name, v.pathIget env nd.current name = none) : pathWalk env lookup rest v nd = none := by
  cases rest with
  | nil => exact absurd rfl more
  | cons this rest =>
    cases rest with
    | nil => simp [pathWalk, parent, call]
    | cons next rest => simp [pathWalk, call]

end

/-- The loop of a lookup over the components from `starts` on. -/
def Walks (env : VfsEnv) (t : FileTree) (cold : Nat → Prop) (left : Nat)
    (lookup : Vfs → Nameidata → Option (Int × Nameidata × Vfs)) (starts : List (List (BitVec 8))) : Prop :=
  ∀ (v : Vfs) (nd : Nameidata) (dir o : Nat), v.Shows env t cold → nd.Plain left → nd.current = some o →
    v.inodeTable dir = some o → t.node dir = .dir →
    (t.Stumbles cold left (starts.map component) dir → pathWalk env lookup starts v nd = none) ∧
    (¬ t.Stumbles cold left (starts.map component) dir →
      Finds env t cold (t.resolve left (starts.map component) dir) (pathWalk env lookup starts v nd))

section
variable {this : List (BitVec 8)} {rest : List (List (BitVec 8))} {nd : Nameidata} {dir o i p : Nat}
  {inode : VfsInode}

section
variable (h : v.Shows env t cold)
include h

/-- The directory does not have the name. -/
theorem Vfs.Shows.walk_none (plain : nd.Plain left)
    (call : v.pathIget env nd.current (component this) = some (.error enoent, v))
    (entry : t.child dir (component this) = none) : ¬ t.Stumbles cold left ((this :: rest).map component) dir ∧
    Finds env t cold (t.resolve left ((this :: rest).map component) dir)
      (pathWalk env lookup (this :: rest) v nd) := by
  have entered : t.enter (t.follow left) dir (component this) = .error .noent := enter_none entry
  obtain ⟨nd', walk⟩ : ∃ nd', pathWalk env lookup (this :: rest) v nd = some (enoent, nd', v) :=
    pathWalk_error plain.parent call
  constructor
  · rw [map_cons, stumbles_other fun i same => by simp [entry] at same,
      pass_error entered]
    rintro ⟨j, ⟨⟩, _⟩
  · refine ⟨enoent, nd', v, walk, h, ?_⟩
    rw [map_cons, resolve, walk_error entered]
    rfl

/-- The entry is not a link. -/
theorem Vfs.Shows.walk_other (plain : nd.Plain left)
    (call : w.pathIget env nd.current (component this) = some (.ok p, v))
    (walks : Walks env t cold left lookup rest) (entry : t.child dir (component this) = some i)
    (cached : v.inodeTable i = some p) (other : ∀ absolute path, t.node i ≠ .link absolute path) :
    (t.Stumbles cold left ((this :: rest).map component) dir →
      pathWalk env lookup (this :: rest) w nd = none) ∧
    (¬ t.Stumbles cold left ((this :: rest).map component) dir →
      Finds env t cold (t.resolve left ((this :: rest).map component) dir)
        (pathWalk env lookup (this :: rest) w nd)) := by
  obtain ⟨inode, live, number, stands⟩ := (h.cached i p cached).2
  have isSymlink : ¬ inode.isSymlink := by
    intro link
    obtain ⟨absolute, path, link⟩ := stands.link.mp link
    exact other absolute path link
  have entered : t.enter (t.follow left) dir (component this) = .ok i := enter_other entry other
  have others : ∀ j, t.child dir (component this) = some j → ∀ absolute path,
      t.node j ≠ .link absolute path := by
    intro j same
    cases entry.symm.trans same
    exact other
  rw [map_cons, stumbles_other others]
  by_cases last : rest = []
  · subst last
    rw [pathWalk_last plain.parent call live, if_neg isSymlink]
    refine ⟨fun stumbles => ?_, fun _ => ⟨_, _, _, rfl, h, ?_⟩⟩
    · obtain ⟨_, _, none⟩ := stumbles
      exact absurd none not_stumbles_nil
    · rw [map_nil, resolve, walk, entered]
      exact h.agrees cached
  have more : rest.map component ≠ [] := by simpa using last
  rw [pathWalk_other last call live isSymlink, resolve, walk_cons more]
  by_cases deeper : t.node i = .dir
  · rw [if_pos (stands.dir.mpr deeper), pass_ok.mpr ⟨entered, deeper⟩]
    obtain ⟨crashes, finds⟩ := walks v { nd with current := some p } i p h
      ⟨plain.parent, plain.nofollow, plain.depth⟩ rfl cached deeper
    refine ⟨fun stumbles => ?_, fun free => finds fun stumbles => free ⟨i, rfl, stumbles⟩⟩
    obtain ⟨j, passes, stumbles⟩ := stumbles
    cases passes
    exact crashes stumbles
  rw [if_neg fun isDir => deeper (stands.dir.mp isDir), pass_other entered deeper]
  refine ⟨fun stumbles => ?_, fun _ => ⟨_, _, _, rfl, h, rfl⟩⟩
  obtain ⟨j, passes, _⟩ := stumbles
  cases passes

/-- The entry is a link. -/
theorem Vfs.Shows.walk_link (links : LinksApart t) (serves : ∀ n, left = n + 1 → LooksUp env t cold n lookup)
    (plain : nd.Plain left) (current : nd.current = some o) (here : v.inodeTable dir = some o)
    (isDir : t.node dir = .dir) (call : w.pathIget env nd.current (component this) = some (.ok p, v))
    (walks : Walks env t cold left lookup rest) (entry : t.child dir (component this) = some i)
    (cached : v.inodeTable i = some p) (link : t.node i = .link absolute path) :
    (t.Stumbles cold left ((this :: rest).map component) dir →
      pathWalk env lookup (this :: rest) w nd = none) ∧
    (¬ t.Stumbles cold left ((this :: rest).map component) dir →
      Finds env t cold (t.resolve left ((this :: rest).map component) dir)
        (pathWalk env lookup (this :: rest) w nd)) := by
  obtain ⟨inode, live, number, stands⟩ := (h.cached i p cached).2
  have isSymlink : inode.isSymlink := stands.link.mpr ⟨absolute, path, link⟩
  have entered : t.enter (t.follow left) dir (component this) = t.follow left path (t.base dir absolute) :=
    enter_link entry link
  rw [map_cons, stumbles_link entry link]
  by_cases last : rest = []
  · subst last
    have plain' : Plain { nd with last := this, lastLen := (component this).length } left :=
      ⟨plain.parent, plain.nofollow, plain.depth⟩
    obtain ⟨crashes, finds⟩ := h.handleSymlink links serves plain' current here isDir cached link
    rw [pathWalk_last plain.parent call live, if_pos isSymlink, map_nil, resolve,
      walk, entered]
    constructor
    · rintro (trips | ⟨j, _, ⟨more, _⟩ | ⟨_, none⟩⟩)
      · exact crashes trips
      · exact absurd rfl more
      · exact absurd none not_stumbles_nil
    · intro free
      obtain ⟨ret, nd', v', handle, shows, agrees, _⟩ := finds fun trips => free (.inl trips)
      exact ⟨ret, nd', v', handle, shows, agrees⟩
  · have more : rest.map component ≠ [] := by simpa using last
    obtain ⟨crashes, finds⟩ := h.handleSymlink links serves plain current here isDir cached link
    rw [pathWalk_link last call live isSymlink, resolve, walk_cons more]
    by_cases trips : t.Trips cold left i path (t.base dir absolute)
    · rw [crashes trips]
      exact ⟨fun _ => rfl, fun free => absurd (.inl trips) free⟩
    obtain ⟨ret, nd', v', handle, shows, agrees, same⟩ := finds trips
    rw [handle, bind_some]
    cases leads : t.follow left path (t.base dir absolute) with
    | error e =>
      rw [leads] at agrees
      rw [if_neg (agrees ▸ errnoOf_ne e), pass_error (entered.trans leads)]
      refine ⟨?_, fun _ => ⟨ret, nd', v', rfl, shows, agrees⟩⟩
      rintro (again | ⟨j, ⟨⟩, _⟩)
      exact absurd again trips
    | ok j =>
      rw [leads] at agrees
      obtain ⟨rfl, q, inode', current', cached', _⟩ := agrees
      have plain' : nd'.Plain left := by
        rw [same rfl]
        exact ⟨plain.parent, plain.nofollow, plain.depth⟩
      by_cases deeper : t.node j = .dir
      · rw [pass_ok.mpr ⟨entered.trans leads, deeper⟩]
        obtain ⟨crashes, finds⟩ := walks v' nd' j q shows plain' current' cached' deeper
        constructor
        · rintro (again | ⟨k, ⟨⟩, ⟨_, other⟩ | ⟨_, stumbles⟩⟩)
          · exact absurd again trips
          · exact absurd deeper other
          · exact crashes stumbles
        · exact fun free => finds fun stumbles => free (.inr ⟨j, rfl, .inr ⟨deeper, stumbles⟩⟩)
      refine ⟨fun _ => ?_, fun free => absurd (.inr ⟨j, rfl, .inl ⟨more, deeper⟩⟩) free⟩
      refine pathWalk_crash plain'.parent last fun name => ?_
      rw [current']
      exact shows.pathIget_other cached' deeper

end

end

theorem Walks.all (links : LinksApart t) (serves : ∀ n, left = n + 1 → LooksUp env t cold n lookup)
    {starts : List (List (BitVec 8))} (apart : ∀ this ∈ starts, t.Apart bkdrHash (component this)) :
    Walks env t cold left lookup starts := by
  induction starts with
  | nil => exact fun v nd dir o h _ current here _ => ⟨nofun, fun _ => ⟨0, nd, v, rfl, h, current ▸ h.agrees here⟩⟩
  | cons this rest ih =>
    intro v nd dir o h plain current here isDir
    have near := apart this mem_cons_self
    have walks := ih fun this member => apart this (mem_cons_of_mem _ member)
    cases entry : t.child dir (component this) with
    | none =>
      have call := h.pathIget_none here isDir near entry
      rw [← current] at call
      obtain ⟨free, finds⟩ : _ ∧ Finds env t cold (t.resolve left ((this :: rest).map component) dir)
          (pathWalk env lookup (this :: rest) v nd) := h.walk_none plain call entry
      exact ⟨fun stumbles => absurd stumbles free, fun _ => finds⟩
    | some i =>
      obtain ⟨p, v', call, shows, cached, kept⟩ := h.pathIget_some here isDir near entry
      rw [← current] at call
      by_cases other : ∀ absolute path, t.node i ≠ .link absolute path
      · exact shows.walk_other plain call walks entry cached other
      · simp only [not_forall, not_not] at other
        obtain ⟨absolute, path, link⟩ := other
        exact shows.walk_link links serves plain current (kept dir o here) isDir call walks entry cached link

/-- A plain lookup is its loop. -/
theorem Vfs.pathLookupWithin_plain (parent : nd.wantParent = false) (start : nd.start = some o)
    (live : v.objects o = some inode) (calls : Nat) : pathLookupWithin env (calls + 1) v nd =
      pathWalk env (pathLookupWithin env calls) (pathStarts true nd.path) v
        { nd with current := nd.start } := by
  simp only [pathLookupWithin, start, bind_eq_bind, bind_some, live, parent]
  split
  · rename_i none
    rw [none]
    rfl
  · rfl

theorem Vfs.pathLookupWithin_serves (links : LinksApart t) (left : Nat) :
    LooksUp env t cold left (pathLookupWithin env (left + 1)) := by
  induction left with
  | zero =>
    intro v nd dir o h plain start here isDir apart
    obtain ⟨inode, live, _⟩ := (h.cached dir o here).2
    rw [pathLookupWithin_plain plain.parent start live]
    exact Walks.all links (fun n none => absurd none.symm n.succ_ne_zero) (forall_mem_map.mp apart) v _ dir o h
      ⟨plain.parent, plain.nofollow, plain.depth⟩ start here isDir
  | succ n ih =>
    intro v nd dir o h plain start here isDir apart
    obtain ⟨inode, live, _⟩ := (h.cached dir o here).2
    rw [pathLookupWithin_plain plain.parent start live]
    refine Walks.all links ?_ (forall_mem_map.mp apart) v _ dir o h
      ⟨plain.parent, plain.nofollow, plain.depth⟩ start here isDir
    rintro _ ⟨⟩
    exact ih

/-- Without flags and with memory `path_lookup` returns what the tree gives, except where the walk
comes to a link of which the text cannot be read, or by a link that is not the last component to
something other than a directory. -/
theorem path_lookup_resolves (shows : v.Shows env t cold) (links : LinksApart t) {nd : Nameidata}
    (plain : nd.Plain (maxLoop + 1)) (apart : ∀ name ∈ components nd.path, t.Apart bkdrHash name)
    {dir o : Nat} (start : nd.start = some o) (here : v.inodeTable dir = some o) (isDir : t.node dir = .dir) :
    (∃ ret nd' v', v.pathLookup env nd = some (ret, nd', v') ∧
      Agrees (t.resolve (maxLoop + 1) (components nd.path) dir) ret nd'.current v') ↔
    ¬ t.Stumbles cold (maxLoop + 1) (components nd.path) dir := by
  obtain ⟨crashes, finds⟩ := pathLookupWithin_serves links (maxLoop + 1) v nd dir o shows plain start
    here isDir apart
  constructor
  · rintro ⟨ret, nd', v', call, _⟩ stumbles
    rw [pathLookup, crashes stumbles] at call
    cases call
  · intro free
    obtain ⟨ret, nd', v', call, _, agrees⟩ := finds free
    exact ⟨ret, nd', v', call, agrees⟩

end

/-! ## A link in the root -/

def nameF : List (BitVec 8) := [0x66#8]
def nameL : List (BitVec 8) := [0x6c#8]

/-- A directory with a file `f`, inode 1, and a link `l`, inode 2. -/
def linkedRoot : VfsInode where
  iNo := 0
  entryNum := 2
  logHead := 1
  ghostSlot := 1
  rbRoot := .node 0 .nil (.node 1 .nil .nil)
  list := [0, 1]
  dents := fun d => if d = 0 then ⟨0, 0, 1, bkdrHash nameF⟩ else ⟨1, 0, 2, bkdrHash nameL⟩
  arena := ⟨2, fun _ => true⟩
  iMode := 0o040755
  iLink := 1
  ref := 0
  ts := 0

def linkedVfs : Vfs :=
  { mountedVfs with
    objects := fun o =>
      if o = 0 then some linkedRoot
      else if o = 1 then some { newVfsInode plainVfsEnv 1 0o100644 0 with entryNum := 1 }
      else if o = 2 then some { newVfsInode plainVfsEnv 2 sIflnk 0 with entryNum := 1 }
      else none
    arena := ⟨3, fun _ => true⟩
    inodeTable := fun ino => if ino < 3 then some ino else none }

def linkedEnv (text : List (BitVec 8)) : VfsEnv :=
  { plainVfsEnv with readlink := fun o => if o = 2 then some (.ok text) else none }

def linkedTree (text : List (BitVec 8)) : FileTree where
  root := 0
  node := fun ino => if ino = 0 then .dir else if ino = 2 then linkNode text else .file
  entries := fun ino => if ino = 0 then [(nameF, 1), (nameL, 2)] else []

theorem linkedRoot_stands (text : List (BitVec 8)) : linkedRoot.Stands (linkedTree text) 0 where
  dir := ⟨fun _ => rfl, fun _ => by decide⟩
  link := by
    constructor
    · intro link
      exact absurd link (by decide)
    · rintro ⟨absolute, path, ⟨⟩⟩
  entries := by
    have f : bkdrHash nameF = 102 := by decide
    have l : bkdrHash nameL = 108 := by decide
    simp only [direntLookup, linkedRoot, BinaryTree.find, linkedTree, f, l, if_true, List.find?_cons,
      List.find?_nil, one_ne_zero, if_false]
    grind

theorem linkedVfs_shows (text : List (BitVec 8)) :
    linkedVfs.Shows (linkedEnv text) (linkedTree text) fun ino => 3 ≤ ino where
  memory := fun _ => rfl
  root := rfl
  rootDir := rfl
  cached := by
    intro ino o cached
    have few : ino < 3 := by
      by_contra far
      simp [linkedVfs, far] at cached
    have same : ino = o := by simpa [linkedVfs, few] using cached
    subst same
    refine ⟨few, ?_⟩
    interval_cases ino
    · exact ⟨_, rfl, rfl, linkedRoot_stands text⟩
    · refine ⟨_, rfl, rfl, ⟨?_, ?_, nofun⟩⟩
      · exact ⟨nofun, nofun⟩
      · refine ⟨nofun, ?_⟩
        rintro ⟨_, _, ⟨⟩⟩
    · refine ⟨_, rfl, rfl, ⟨⟨nofun, nofun⟩, ⟨fun _ => ⟨_, _, rfl⟩, fun _ => by decide⟩, nofun⟩⟩
  rebuilt := by
    intro dir name ino entry missing
    have known : ino = 1 ∨ ino = 2 := by
      obtain ⟨e, found, rfl⟩ := map_eq_some_iff.mp entry
      have member := mem_of_find?_eq_some found
      simp only [linkedTree] at member
      split at member
      · simp only [mem_cons, not_mem_nil, or_false] at member
        rcases member with rfl | rfl
        · exact .inl rfl
        · exact .inr rfl
      · cases member
    rcases known with rfl | rfl <;> cases missing
  text := by
    intro ino o cached warm absolute path link
    have few : ino < 3 := Nat.lt_of_not_le warm
    have same : ino = o := by simpa [linkedVfs, few] using cached
    subst same
    have two : ino = 2 := by
      interval_cases ino
      · cases link
      · cases link
      · rfl
    subst two
    exact ⟨text, rfl, link⟩
  textless := by
    intro ino o cached cold
    have far : ¬ ino < 3 := Nat.not_lt_of_le cold
    simp [linkedVfs, far] at cached
  unread := by
    intro ino missing
    by_contra near
    simp [linkedVfs, Nat.lt_of_not_le near] at missing
  fresh := by
    intro o far
    have other : o ≠ 2 := Nat.ne_of_gt far
    exact if_neg other

theorem linkedTree_apart (text : List (BitVec 8)) (known : name = nameF ∨ name = nameL) :
    (linkedTree text).Apart bkdrHash name := by
  intro dir e member same
  simp only [linkedTree] at member
  split at member
  · simp only [mem_cons, not_mem_nil, or_false] at member
    rcases known with rfl | rfl <;> rcases member with rfl | rfl <;>
      first | rfl | exact absurd same (by decide)
  · cases member

theorem linkedTree_links (known : ∀ name ∈ components text, name = nameF ∨ name = nameL) :
    LinksApart (linkedTree text) := by
  intro ino absolute path link name member
  simp only [linkedTree] at link
  split at link
  · cases link
  split at link
  · cases link
    exact linkedTree_apart text (known name member)
  · cases link

/-- The path `l/f` in the root. -/
def throughL : Nameidata := ⟨nameL ++ slash :: nameF, some 0, none, none, 0, false, false, [], 0⟩

theorem throughL_components : components throughL.path = [nameL, nameF] := by decide

theorem throughL_apart (text : List (BitVec 8)) :
    ∀ name ∈ components throughL.path, (linkedTree text).Apart bkdrHash name := by
  rw [throughL_components]
  intro name member
  simp only [mem_cons, not_mem_nil, or_false] at member
  exact linkedTree_apart text member.symm

/-- Where `l` leads to the root, `l/f` is `f`. -/
theorem path_lookup_resolves_slash : ∃ ret nd' v',
    linkedVfs.pathLookup (linkedEnv [slash]) throughL = some (ret, nd', v') ∧
    Agrees ((linkedTree [slash]).resolve (maxLoop + 1) (components throughL.path) 0) ret nd'.current v' := by
  refine (path_lookup_resolves (linkedVfs_shows [slash]) (linkedTree_links nofun) ⟨rfl, rfl, rfl⟩
    (throughL_apart _) rfl rfl rfl).mpr ?_
  have entry : (linkedTree [slash]).child 0 nameL = some 2 := by decide
  have entry' : (linkedTree [slash]).child 0 nameF = some 1 := by decide
  rw [throughL_components, stumbles_link entry rfl]
  rintro (⟨n, _, cold | inner⟩ | ⟨j, leads, ⟨_, other⟩ | ⟨_, later⟩⟩)
  · omega
  · exact not_stumbles_nil inner
  · cases leads
    exact other rfl
  cases leads
  rw [stumbles_other fun i same => by cases entry'.symm.trans same; nofun] at later
  obtain ⟨_, _, none⟩ := later
  exact not_stumbles_nil none

/-- Where `l` leads to `f`, the walk along `l/f` looks for `f` in a file. -/
theorem path_lookup_enters_file : linkedVfs.Shows (linkedEnv nameF) (linkedTree nameF) (fun ino => 3 ≤ ino) ∧
    LinksApart (linkedTree nameF) ∧
    (∀ name ∈ components throughL.path, (linkedTree nameF).Apart bkdrHash name) ∧
    (linkedTree nameF).resolve (maxLoop + 1) (components throughL.path) 0 = .error .notdir ∧
    linkedVfs.pathLookup (linkedEnv nameF) throughL = none := by
  refine ⟨linkedVfs_shows nameF, linkedTree_links ?_, throughL_apart nameF, ?_, ?_⟩
  · have text : components nameF = [nameF] := by decide
    simp [text]
  · rfl
  · decide +kernel

end SlotFs
