import SlotFs.Lib.Loops
import SlotFs.LockedLookup

/-!
# Lookups end

`path_lookup` and `handle_symlink` call each other. The calls that wait are a stack here, and a
turn does what one of the functions does up to its next call, its next component or its return.
The depth is given back when a link has been followed, so that it bounds how deep the stack
gets and not how many links are followed.
-/

namespace SlotFs
open Loops Option Vfs

variable {rest : List (List (BitVec 8))}

/-- A call of `handle_symlink` that waits: its `save_nd`, and the components behind the link. -/
structure WaitingLink where
  rest : List (List (BitVec 8))
  saved : Nameidata

/-- `path_lookup` is called, is at a component, has called `handle_symlink`, or returns. -/
inductive LookupState
  | call (v : Vfs) (nd : Nameidata) (stack : List WaitingLink)
  | walk (starts : List (List (BitVec 8))) (v : Vfs) (nd : Nameidata) (stack : List WaitingLink)
  | link (o : Nat) (rest : List (List (BitVec 8))) (v : Vfs) (nd : Nameidata) (stack : List WaitingLink)
  | back (r : Int × Nameidata × Vfs) (stack : List WaitingLink)

/-- `handle_symlink` has returned to the loop of `path_lookup`. -/
def afterSymlink (rest : List (List (BitVec 8))) (ret : Int) (nd : Nameidata) (v : Vfs)
    (stack : List WaitingLink) : LookupState :=
  if ret = 0 then .walk rest v nd stack else .back (ret, nd, v) stack

def callTurn (v : Vfs) (nd : Nameidata) (stack : List WaitingLink) : Pass LookupState :=
  let nd := { nd with current := nd.start }
  match pathStarts true nd.path, nd.current.bind v.objects with
  | [], none => if nd.wantParent then .again (.back (0, nd, v) stack) else .crash
  | [], some _ => .again (.back (0, nd, v) stack)
  | _ :: _, none => .crash
  | this :: rest, some _ => .again (.walk (this :: rest) v nd stack)

/-- A component that is not the last one has to be a directory or a link. -/
def componentTurn (env : VfsEnv) (last : Bool) (this : List (BitVec 8)) (rest : List (List (BitVec 8))) (v : Vfs)
    (nd : Nameidata) (stack : List WaitingLink) : Pass LookupState :=
  match v.pathIget env nd.current (component this) with
  | none => .crash
  | some (.error e, v) => .again (.back (e, nd, v) stack)
  | some (.ok o, v) =>
    match v.objects o with
    | none => .crash
    | some inode =>
      if inode.isSymlink then .again (.link o rest v nd stack)
      else if last then .again (.back (0, { nd with current := some o }, v) stack)
      else if inode.isDir then .again (.walk rest v { nd with current := some o } stack)
      else .again (.back (enotdir, nd, v) stack)

def linkTurn (env : VfsEnv) (o : Nat) (rest : List (List (BitVec 8))) (v : Vfs) (nd : Nameidata)
    (stack : List WaitingLink) : Pass LookupState :=
  if nd.nofollow then .again (afterSymlink rest eloop nd v stack)
  else if maxLoop < nd.depth then .again (afterSymlink rest eloop nd v stack)
  else
    match env.readlink o with
    | none => .crash
    | some (.error e) => .again (afterSymlink rest e nd v stack)
    | some (.ok text) => .again (.call v (nd.into v.root text) (⟨rest, nd⟩ :: stack))

/-- Without components there is nothing left to do behind a link. -/
def lookupTurn (env : VfsEnv) : LookupState → Pass LookupState
  | .call v nd stack => callTurn v nd stack
  | .walk [] v nd stack => .again (.back (0, nd, v) stack)
  | .walk [this] v nd stack =>
    let nd := { nd with last := this, lastLen := (component this).length }
    if nd.wantParent then .again (.back (0, { nd with parent := nd.current, current := none }, v) stack)
    else componentTurn env true this [] v nd stack
  | .walk (this :: next :: rest) v nd stack => componentTurn env false this (next :: rest) v nd stack
  | .link o rest v nd stack => linkTurn env o rest v nd stack
  | .back r [] => .stop (.back r [])
  | .back (ret, nd, v) (waiting :: stack) =>
    .again (afterSymlink waiting.rest ret
      (if ret = 0 then { waiting.saved with current := nd.current } else waiting.saved) v stack)

/-- From `s` the calls come back to `stack` with a result, or one of them crashes. -/
inductive Answers (env : VfsEnv) (s : LookupState) (stack : List WaitingLink) :
    Option (Int × Nameidata × Vfs) → Prop
  | returned {r : Int × Nameidata × Vfs} (leads : Leads (lookupTurn env) s (.back r stack)) :
      Answers env s stack (some r)
  | crashed (crashes : Crashes (lookupTurn env) s) : Answers env s stack none

open Answers

/-- A lookup that agrees with the turns, as long as less than `left` links can be followed within each other. -/
def TurnsAgree (env : VfsEnv) (left : Nat) (lookup : Vfs → Nameidata → Option (Int × Nameidata × Vfs)) : Prop :=
  ∀ v nd stack, nd.left < left → Answers env (.call v nd stack) stack (lookup v nd)

section
variable {env : VfsEnv} {s t : LookupState} {stack : List WaitingLink} {r : Option (Int × Nameidata × Vfs)}
  {v : Vfs} {nd : Nameidata} {left : Nat} {lookup : Vfs → Nameidata → Option (Int × Nameidata × Vfs)}

theorem Answers.now (crash : lookupTurn env s = .crash) : Answers env s stack none :=
  .crashed ⟨s, .refl, crash⟩

theorem Answers.after (h : Answers env t stack r) (leads : Leads (lookupTurn env) s t) :
    Answers env s stack r := by
  cases h with
  | returned rest => exact .returned (leads.trans rest)
  | crashed crashes => exact .crashed (crashes.after leads)

theorem Answers.turn (h : Answers env t stack r) (first : lookupTurn env s = .again t) : Answers env s stack r :=
  h.after (.single first)

theorem Answers.back (a : Int × Nameidata × Vfs) : Answers env (.back a stack) stack (some a) :=
  .returned .refl

/-- What is done behind a link. -/
theorem Answers.resume (later : ∀ v nd', nd'.left = nd.left →
      Answers env (.walk rest v nd' stack) stack (pathWalk env lookup rest v nd')) {nd' : Nameidata}
    (same : nd'.left = nd.left) (ret : Int) (v : Vfs) : Answers env (afterSymlink rest ret nd' v stack) stack
      (if ret = 0 then pathWalk env lookup rest v nd' else some (ret, nd', v)) := by
  unfold afterSymlink
  split
  · exact later v nd' same
  · exact .back _

/-- A link is followed, and the components behind it. -/
theorem TurnsAgree.link (agrees : TurnsAgree env left lookup) (bound : nd.left ≤ left)
    (later : ∀ v nd', nd'.left = nd.left →
      Answers env (.walk rest v nd' stack) stack (pathWalk env lookup rest v nd')) (o : Nat) (v : Vfs) :
    Answers env (.link o rest v nd stack) stack ((v.handleSymlink env lookup o nd).bind fun r =>
      if r.1 = 0 then pathWalk env lookup rest r.2.2 r.2.1 else some r) := by
  cases links : nd.left with
  | zero =>
    have refused : v.handleSymlink env lookup o nd = some (eloop, nd, v) ∧
        linkTurn env o rest v nd stack = .again (afterSymlink rest eloop nd v stack) := by
      unfold Nameidata.left at links
      unfold handleSymlink linkTurn
      split
      · exact ⟨rfl, rfl⟩
      rename_i follow
      rw [if_neg follow] at links
      rw [if_pos (by omega), if_pos (by omega)]
      exact ⟨rfl, rfl⟩
    rw [refused.1]
    exact (Answers.resume later rfl eloop v).turn refused.2
  | succ n =>
    obtain ⟨nofollow, shallow, inner⟩ := Nameidata.left_succ links
    have turn : lookupTurn env (.link o rest v nd stack) = linkTurn env o rest v nd stack := rfl
    rw [linkTurn, if_neg (ne_true_of_eq_false nofollow), if_neg shallow] at turn
    unfold handleSymlink
    rw [if_neg (ne_true_of_eq_false nofollow), if_neg shallow]
    cases read : env.readlink o with
    | none =>
      rw [read] at turn
      exact .now turn
    | some text =>
      cases text with
      | error e =>
        rw [read] at turn
        exact (Answers.resume later rfl e v).turn turn
      | ok text =>
        rw [read] at turn
        have follow := agrees v (nd.into v.root text) (⟨rest, nd⟩ :: stack) (by rw [inner]; omega)
        refine Answers.turn ?_ turn
        dsimp only
        rw [← Nameidata.into]
        generalize lookup v (nd.into v.root text) = found at follow
        cases follow with
        | crashed crashes => exact .crashed crashes
        | @returned r leads =>
          obtain ⟨ret, nd', w⟩ := r
          have same : (if ret = 0 then { nd with current := nd'.current } else nd).left = nd.left := by
            split <;> rfl
          exact ((Answers.resume later same ret w).turn rfl).after leads

/-- What the loop of `path_lookup` makes of one component and of those behind it. -/
def Vfs.pathComponent (env : VfsEnv) (lookup : Vfs → Nameidata → Option (Int × Nameidata × Vfs)) (last : Bool)
    (this : List (BitVec 8)) (rest : List (List (BitVec 8))) (v : Vfs) (nd : Nameidata) :
    Option (Int × Nameidata × Vfs) := do
  match ← v.pathIget env nd.current (component this) with
  | (.error e, v) => some (e, nd, v)
  | (.ok o, v) =>
    let inode ← v.objects o
    if inode.isSymlink then
      (v.handleSymlink env lookup o nd).bind fun r =>
        if r.1 = 0 then pathWalk env lookup rest r.2.2 r.2.1 else some r
    else if last then some (0, { nd with current := some o }, v)
    else if inode.isDir then pathWalk env lookup rest v { nd with current := some o }
    else some (enotdir, nd, v)

theorem Vfs.pathWalk_component (parent : ¬ nd.wantParent = true) (this : List (BitVec 8)) (v : Vfs) :
    pathWalk env lookup [this] v nd =
      pathComponent env lookup true this [] v { nd with last := this, lastLen := (component this).length } := by
  have same (x : Option (Int × Nameidata × Vfs)) :
      (x.bind fun r => if r.1 = 0 then pathWalk env lookup [] r.2.2 r.2.1 else some r) = x := by
    rcases x with _ | ⟨ret, nd, v⟩
    · rfl
    by_cases zero : ret = 0
    · subst zero
      rfl
    · exact if_neg zero
  rw [pathWalk, if_neg parent]
  unfold pathComponent
  refine congrArg (Option.bind _) (funext fun r => ?_)
  obtain ⟨e | o, w⟩ := r
  · rfl
  refine congrArg (Option.bind _) (funext fun inode => ?_)
  dsimp only
  rw [same]
  rfl

section
variable (agrees : TurnsAgree env left lookup) (bound : nd.left ≤ left)
include agrees bound

theorem TurnsAgree.enter {last : Bool} {this : List (BitVec 8)} {rest : List (List (BitVec 8))}
    (turn : lookupTurn env s = componentTurn env last this rest v nd stack) (later : ∀ v nd', nd'.left = nd.left →
      Answers env (.walk rest v nd' stack) stack (pathWalk env lookup rest v nd')) :
    Answers env s stack (pathComponent env lookup last this rest v nd) := by
  unfold componentTurn at turn
  unfold Vfs.pathComponent
  rcases get : v.pathIget env nd.current (component this) with _ | ⟨e | o, w⟩
  · rw [get] at turn
    exact .now turn
  · rw [get] at turn
    exact (back _).turn turn
  rw [get] at turn
  dsimp only at turn
  cases object : w.objects o with
  | none =>
    rw [object] at turn
    simp only [bind_eq_bind, bind_some, object, bind_none]
    exact .now turn
  | some inode =>
    rw [object] at turn
    simp only [bind_eq_bind, bind_some, object]
    dsimp only at turn
    split at turn
    · rename_i link
      rw [if_pos link]
      exact (agrees.link bound later o w).turn turn
    rename_i other
    rw [if_neg other]
    split at turn
    · rename_i end_
      rw [if_pos end_]
      exact (back _).turn turn
    rename_i more
    rw [if_neg more]
    split at turn
    · rename_i dir
      rw [if_pos dir]
      exact (later w { nd with current := some o } rfl).turn turn
    · rename_i file
      rw [if_neg file]
      exact (back _).turn turn

theorem TurnsAgree.walk (starts : List (List (BitVec 8))) (v : Vfs) :
    Answers env (.walk starts v nd stack) stack (pathWalk env lookup starts v nd) := by
  induction starts generalizing nd v with
  | nil => exact (back (0, nd, v)).turn rfl
  | cons this rest ih =>
    have later (v : Vfs) (nd' : Nameidata) (same : nd'.left = nd.left) :
        Answers env (.walk rest v nd' stack) stack (pathWalk env lookup rest v nd') := ih (same ▸ bound) v
    cases rest with
    | nil =>
      by_cases parent : nd.wantParent = true
      · rw [pathWalk, if_pos parent]
        exact (back _).turn (if_pos parent)
      have turn : lookupTurn env (.walk [this] v nd stack) = componentTurn env true this [] v
          { nd with last := this, lastLen := (component this).length } stack := if_neg parent
      have less : ({ nd with last := this, lastLen := (component this).length } : Nameidata).left ≤ left := bound
      rw [pathWalk_component parent]
      exact agrees.enter less turn later
    | cons next rest =>
      have turn : lookupTurn env (.walk (this :: next :: rest) v nd stack) =
          componentTurn env false this (next :: rest) v nd stack := rfl
      exact agrees.enter bound turn later

end

theorem turnsAgree (env : VfsEnv) (calls : Nat) : TurnsAgree env calls (pathLookupWithin env calls) := by
  induction calls with
  | zero => exact fun _ _ _ none => absurd none (Nat.not_lt_zero _)
  | succ calls ih =>
    intro v nd stack bound
    have turn : lookupTurn env (.call v nd stack) = callTurn v nd stack := rfl
    unfold callTurn at turn
    rw [pathLookupWithin]
    simp only [bind_eq_bind, ← bind_assoc] at turn ⊢
    cases starts : pathStarts true nd.path with
    | nil =>
      rw [starts] at turn
      cases object : nd.start.bind v.objects with
      | none =>
        rw [object] at turn
        by_cases parent : nd.wantParent = true
        · rw [if_pos parent]
          exact (back _).turn (turn.trans (if_pos parent))
        · rw [if_neg parent]
          exact .now (turn.trans (if_neg parent))
      | some inode =>
        rw [object] at turn
        rw [bind_some, ite_self]
        exact (back _).turn turn
    | cons this rest =>
      rw [starts] at turn
      cases object : nd.start.bind v.objects with
      | none =>
        rw [object] at turn
        exact .now turn
      | some inode =>
        rw [object] at turn
        have less : ({ nd with current := nd.start } : Nameidata).left ≤ calls := Nat.le_of_lt_succ bound
        exact (ih.walk less (this :: rest) v).turn turn

end

/-- The calls of every lookup come to an end: they return what `Vfs.pathLookup` gives, or one of them reads
through a pointer that leads nowhere. -/
theorem path_resolution_ends (env : VfsEnv) (v : Vfs) (nd : Nameidata) :
    (∃ r, Halts (lookupTurn env) (.call v nd []) (.back r []) ∧ v.pathLookup env nd = some r) ∨
    (Crashes (lookupTurn env) (.call v nd []) ∧ v.pathLookup env nd = none) := by
  have bound : nd.left < maxLoop + 2 := by
    unfold Nameidata.left
    split <;> omega
  have answers := turnsAgree env (maxLoop + 2) v nd [] bound
  rw [← pathLookup] at answers
  generalize v.pathLookup env nd = result at answers
  cases answers with
  | returned leads => exact .inl ⟨_, leads.halts rfl, rfl⟩
  | crashed crashes => exact .inr ⟨crashes, rfl⟩

end SlotFs
