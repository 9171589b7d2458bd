import Mathlib

/-!
# Trees of names

Directories give names to nodes. A path is resolved from a directory one component after
the other, and a symbolic link on the way from the directory it is in or from the root.
-/

namespace Names

inductive Node (ν : Type)
  | dir
  | file
  | link (absolute : Bool) (path : List ν)

structure NameTree (ι ν : Type) where
  root : ι
  node : ι → Node ν
  entries : ι → List (ν × ι)

inductive Failure
  | noent
  | notdir
  | loop

namespace NameTree
variable {ι ν κ : Type} [DecidableEq ν] [DecidableEq κ] (t : NameTree ι ν)

/-- The first entry with a name counts. -/
def child (dir : ι) (name : ν) : Option ι :=
  ((t.entries dir).find? fun e => e.1 = name).map Prod.snd

def base (dir : ι) (absolute : Bool) : ι := if absolute then t.root else dir

/-- What the last component of a path leads to. -/
def enter (follow : List ν → ι → Except Failure ι) (dir : ι) (name : ν) : Except Failure ι :=
  match t.child dir name with
  | none => .error .noent
  | some i =>
    match t.node i with
    | .link absolute path => follow path (t.base dir absolute)
    | _ => .ok i

/-- A component that is not the last one leads to a directory. -/
def pass (follow : List ν → ι → Except Failure ι) (dir : ι) (name : ν) : Except Failure ι := do
  let i ← t.enter follow dir name
  match t.node i with
  | .dir => .ok i
  | _ => .error .notdir

def walk (follow : List ν → ι → Except Failure ι) : List ν → ι → Except Failure ι
  | [], dir => .ok dir
  | [name], dir => t.enter follow dir name
  | name :: rest, dir => do walk follow rest (← t.pass follow dir name)

/-- Links are followed within each other at most `left` times. -/
def follow : Nat → List ν → ι → Except Failure ι
  | 0, _, _ => .error .loop
  | left + 1, path, dir => t.walk (follow left) path dir

def resolve (left : Nat) (path : List ν) (dir : ι) : Except Failure ι := t.walk (t.follow left) path dir

/-- No entry has another name with the same hash. -/
def Apart (hash : ν → κ) (name : ν) : Prop :=
  ∀ dir, ∀ e ∈ t.entries dir, hash e.1 = hash name → e.1 = name

theorem child_of_hash {hash : ν → κ} {name : ν} (apart : t.Apart hash name) (dir : ι) :
    ((t.entries dir).find? fun e => hash e.1 = hash name).map Prod.snd = t.child dir name := by
  have same : ∀ e ∈ t.entries dir, decide (hash e.1 = hash name) = decide (e.1 = name) := by
    intro e member
    rw [decide_eq_decide]
    exact ⟨apart dir e member, fun eq => eq ▸ rfl⟩
  rw [child, List.find?_congr same]

/-- On its way a walk comes to a link that is `cold`, or by a link that is not the last component
to something other than a directory. -/
inductive Stumbles (cold : ι → Prop) : Nat → List ν → ι → Prop
  | cold {left : Nat} {name : ν} {rest path : List ν} {dir i : ι} {absolute : Bool}
      (entry : t.child dir name = some i) (link : t.node i = .link absolute path) (unread : cold i) :
      Stumbles cold (left + 1) (name :: rest) dir
  | inside {left : Nat} {name : ν} {rest path : List ν} {dir i : ι} {absolute : Bool}
      (entry : t.child dir name = some i) (link : t.node i = .link absolute path)
      (inner : Stumbles cold left path (t.base dir absolute)) : Stumbles cold (left + 1) (name :: rest) dir
  | blocked {left : Nat} {name : ν} {rest path : List ν} {dir i j : ι} {absolute : Bool}
      (entry : t.child dir name = some i) (link : t.node i = .link absolute path) (more : rest ≠ [])
      (leads : t.follow left path (t.base dir absolute) = .ok j) (other : t.node j ≠ .dir) :
      Stumbles cold left (name :: rest) dir
  | past {left : Nat} {name : ν} {rest : List ν} {dir j : ι}
      (passes : t.pass (t.follow left) dir name = .ok j) (later : Stumbles cold left rest j) :
      Stumbles cold left (name :: rest) dir

/-- A walk that follows a link stumbles at it or inside it. -/
def Trips (cold : ι → Prop) (left : Nat) (i : ι) (path : List ν) (dir : ι) : Prop :=
  ∃ n, left = n + 1 ∧ (cold i ∨ t.Stumbles cold n path dir)

variable {t} {cold : ι → Prop} {left : Nat} {name : ν} {rest path : List ν} {dir i j : ι} {absolute : Bool}
  {follow : List ν → ι → Except Failure ι}

theorem enter_none (entry : t.child dir name = none) : t.enter follow dir name = .error .noent := by
  simp [enter, entry]

theorem enter_link (entry : t.child dir name = some i) (link : t.node i = .link absolute path) :
    t.enter follow dir name = follow path (t.base dir absolute) := by
  simp [enter, entry, link]

theorem enter_other (entry : t.child dir name = some i)
    (plain : ∀ absolute path, t.node i ≠ .link absolute path) : t.enter follow dir name = .ok i := by
  simp only [enter, entry]

theorem pass_ok : t.pass follow dir name = .ok j ↔ t.enter follow dir name = .ok j ∧ t.node j = .dir := by
  unfold pass
  cases entered : t.enter follow dir name with
  | error e => simp [bind, Except.bind]
  | ok i =>
    simp only [bind, Except.bind, Except.ok.injEq]
    constructor
    · intro passed
      split at passed
      · cases passed
        exact ⟨rfl, ‹_›⟩
      · cases passed
    · rintro ⟨rfl, isDir⟩
      rw [isDir]

theorem pass_error {e : Failure} (entered : t.enter follow dir name = .error e) :
    t.pass follow dir name = .error e := by
  rw [pass, entered]
  rfl

theorem pass_other (entered : t.enter follow dir name = .ok j) (other : t.node j ≠ .dir) :
    t.pass follow dir name = .error .notdir := by
  simp only [pass, entered, bind, Except.bind]

theorem walk_cons (more : rest ≠ []) :
    t.walk follow (name :: rest) dir = (t.pass follow dir name).bind (t.walk follow rest) := by
  cases rest with
  | nil => exact absurd rfl more
  | cons next rest => rfl

theorem walk_error {e : Failure} (entered : t.enter follow dir name = .error e) :
    t.walk follow (name :: rest) dir = .error e := by
  by_cases last : rest = []
  · subst last
    exact entered
  · rw [walk_cons last, pass_error entered]
    rfl

/-- No link is met. -/
theorem stumbles_other (plain : ∀ i, t.child dir name = some i → ∀ absolute path, t.node i ≠ .link absolute path) :
    t.Stumbles cold left (name :: rest) dir ↔
      ∃ j, t.pass (t.follow left) dir name = .ok j ∧ t.Stumbles cold left rest j := by
  constructor
  · intro stumbles
    cases stumbles with
    | cold entry link _ => exact absurd link (plain _ entry _ _)
    | inside entry link _ => exact absurd link (plain _ entry _ _)
    | blocked entry link _ _ _ => exact absurd link (plain _ entry _ _)
    | past passes later => exact ⟨_, passes, later⟩
  · rintro ⟨j, passes, later⟩
    exact .past passes later

theorem stumbles_link (entry : t.child dir name = some i) (link : t.node i = .link absolute path) :
    t.Stumbles cold left (name :: rest) dir ↔ t.Trips cold left i path (t.base dir absolute) ∨
      ∃ j, t.follow left path (t.base dir absolute) = .ok j ∧
        (rest ≠ [] ∧ t.node j ≠ .dir ∨ t.node j = .dir ∧ t.Stumbles cold left rest j) := by
  constructor
  · intro stumbles
    cases stumbles with
    | @cold n _ _ _ _ _ _ entry' _ unread =>
      cases entry.symm.trans entry'
      exact .inl ⟨n, rfl, .inl unread⟩
    | @inside n _ _ _ _ _ _ entry' link' inner =>
      cases entry.symm.trans entry'
      cases link.symm.trans link'
      exact .inl ⟨n, rfl, .inr inner⟩
    | blocked entry' link' more leads other =>
      cases entry.symm.trans entry'
      cases link.symm.trans link'
      exact .inr ⟨_, leads, .inl ⟨more, other⟩⟩
    | past passes later =>
      obtain ⟨entered, isDir⟩ := pass_ok.mp passes
      rw [enter_link entry link] at entered
      exact .inr ⟨_, entered, .inr ⟨isDir, later⟩⟩
  · rintro (⟨n, rfl, unread | inner⟩ | ⟨j, leads, ⟨more, other⟩ | ⟨isDir, later⟩⟩)
    · exact .cold entry link unread
    · exact .inside entry link inner
    · exact .blocked entry link more leads other
    · exact .past (pass_ok.mpr ⟨(enter_link entry link).trans leads, isDir⟩) later

theorem not_stumbles_nil : ¬ t.Stumbles cold left [] dir := nofun

end NameTree
end Names
