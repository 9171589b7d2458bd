import SlotFs.Lib.Rooted
import SlotFs.Lib.Runs

/-!
# The namespace

Which directories have entries for which inodes, without how they are stored, looked up or
cached. An inode is made, linked, unlinked, moved and dropped, and the directories stay a
tree as long as nothing is moved below itself and a file is unlinked at its only entry.
-/

namespace SlotFs
open Relation Trees Function

variable {isDir : Bool} {n : SpaceNode} {o p parent x y : Nat}

structure SpaceNode where
  number : Nat
  isDir : Bool
  linked : Bool

/-- Nodes are objects; `names o x` is how many entries of `o` name the inode `x`. -/
@[ext]
structure Space where
  root : Nat
  node : Nat → Option SpaceNode
  names : Nat → Nat → Nat

namespace Space

def DirAt (s : Space) (p x : Nat) : Prop := ∃ n, s.node p = some n ∧ n.isDir ∧ n.number = x

def IsDir (s : Space) (p : Nat) : Prop := ∃ x, s.DirAt p x

/-- The directory `o` has an entry for the directory `p`. -/
def Child (s : Space) (o p : Nat) : Prop := ∃ x, s.DirAt p x ∧ s.names o x ≠ 0

def setNode (s : Space) (o : Nat) (n : Option SpaceNode) : Space :=
  { s with node := update s.node o n }

def enter (s : Space) (o x : Nat) : Space :=
  { s with names := fun p y => s.names p y + if p = o ∧ y = x then 1 else 0 }

def leave (s : Space) (o x : Nat) : Space :=
  { s with names := fun p y => s.names p y - if p = o ∧ y = x then 1 else 0 }

variable {s s' : Space}

@[simp] theorem setNode_self (o : Nat) (n : Option SpaceNode) : (s.setNode o n).node o = n :=
  update_self ..

theorem setNode_of_ne (ne : p ≠ o) (n : Option SpaceNode) : (s.setNode o n).node p = s.node p :=
  update_of_ne ne ..

theorem enter_names (o x p y : Nat) : (s.enter o x).names p y = s.names p y + if p = o ∧ y = x then 1 else 0 := rfl

theorem leave_names (o x p y : Nat) : (s.leave o x).names p y = s.names p y - if p = o ∧ y = x then 1 else 0 := rfl

theorem enter_other (ne : y ≠ x) (o p : Nat) : (s.enter o x).names p y = s.names p y := by
  rw [enter_names, if_neg fun both => ne both.2]
  rfl

theorem leave_other (ne : y ≠ x) (o p : Nat) : (s.leave o x).names p y = s.names p y := by
  rw [leave_names, if_neg fun both => ne both.2]
  rfl

inductive Act
  | create (parent o x : Nat) (isDir : Bool)
  | link (parent x : Nat)
  | unlink (parent x : Nat)
  | move (old new x : Nat)
  | drop (o : Nat)

inductive Step (s : Space) : Act → Space → Prop
  | create {parent o x : Nat} {isDir : Bool} (dir : s.IsDir parent) (new : s.node o = none)
      (fresh : ∀ p n, s.node p = some n → n.number ≠ x) :
      Step s (.create parent o x isDir) ((s.setNode o (some ⟨x, isDir, true⟩)).enter parent x)
  | link {parent o : Nat} {n : SpaceNode} (live : s.node o = some n) (file : n.isDir = false)
      (linked : n.linked) : Step s (.link parent n.number) (s.enter parent n.number)
  | unlink {parent o : Nat} {n : SpaceNode} (live : s.node o = some n) (file : n.isDir = false) :
      Step s (.unlink parent n.number) ((s.setNode o (some { n with linked := false })).leave parent n.number)
  | move {old new x : Nat} (dir : s.IsDir new) (named : s.names old x ≠ 0) :
      Step s (.move old new x) ((s.enter new x).leave old x)
  | drop {o : Nat} {n : SpaceNode} (live : s.node o = some n) (file : n.isDir = false)
      (gone : n.linked = false) : Step s (.drop o) (s.setNode o none)

/-- The entry that is removed is the only one, and nothing is moved below itself. -/
def Allows (s : Space) : Act → Prop
  | .unlink parent x => ∀ o, s.names o x ≤ if o = parent then 1 else 0
  | .move _ new x => ∀ p, s.DirAt p x → ¬ ReflTransGen s.Child p new
  | _ => True

/-- The directories are a tree, and an entry for one is the only one in its directory. -/
structure Tree (s : Space) : Prop where
  root : s.IsDir s.root
  once : ∀ p x, s.DirAt p x → ∀ o, s.names o x ≤ 1
  rooted : Rooted s.Child s.root s.IsDir

structure Sound (s : Space) : Prop where
  unique : ∀ o p n m, s.node o = some n → s.node p = some m → n.number = m.number → o = p
  known : ∀ o x, s.names o x ≠ 0 → ∃ p n, s.node p = some n ∧ n.number = x ∧ n.linked
  tree : s.Tree

theorem DirAt.number_unique (hx : s.DirAt p x) (hy : s.DirAt p y) : x = y := by
  obtain ⟨n, hn, _, rfl⟩ := hx
  obtain ⟨m, hm, _, rfl⟩ := hy
  cases hn.symm.trans hm
  rfl

theorem Sound.dir_unique (h : s.Sound) {q : Nat} (hp : s.DirAt p x) (hq : s.DirAt q x) : p = q := by
  obtain ⟨n, hn, _, rfl⟩ := hp
  obtain ⟨m, hm, _, same⟩ := hq
  exact h.unique p q n m hn hm same.symm

/-- The number of a file is not that of a directory. -/
theorem Sound.file_number (h : s.Sound) (live : s.node o = some n) (file : n.isDir = false) (dir : s.DirAt p x) :
    x ≠ n.number := by
  rintro rfl
  obtain ⟨m, hm, isDir, same⟩ := dir
  obtain rfl := h.unique p o m n hm live same
  cases live.symm.trans hm
  cases file.symm.trans isDir

/-- The directories and the entries for them are the same. -/
structure SameDirs (s s' : Space) : Prop where
  root : s'.root = s.root
  dirs : ∀ p x, s'.DirAt p x ↔ s.DirAt p x
  names : ∀ p x, s.DirAt p x → ∀ o, s'.names o x = s.names o x

theorem Tree.congr (h : s.Tree) (same : SameDirs s s') : s'.Tree := by
  have isDir (p : Nat) : s'.IsDir p ↔ s.IsDir p := exists_congr (same.dirs p)
  refine ⟨?_, ?_, ?_⟩
  · rw [same.root]
    exact (isDir s.root).mpr h.root
  · intro p x hp o
    have hp := (same.dirs p x).mp hp
    rw [same.names p x hp o]
    exact h.once p x hp o
  rw [same.root]
  refine h.rooted.congr (fun o p => ?_) isDir
  constructor
  · rintro ⟨x, hp, named⟩
    have hp := (same.dirs p x).mp hp
    exact ⟨x, hp, same.names p x hp o ▸ named⟩
  · rintro ⟨x, hp, named⟩
    exact ⟨x, (same.dirs p x).mpr hp, (same.names p x hp o).symm ▸ named⟩

/-- A file is put in the place of a file or of nothing. -/
theorem dirAt_setNode {n : Option SpaceNode} (old : ∀ m, s.node o = some m → m.isDir = false)
    (file : ∀ m, n = some m → m.isDir = false) : (s.setNode o n).DirAt p x ↔ s.DirAt p x := by
  have notDir (k : Option SpaceNode) (all : ∀ m, k = some m → m.isDir = false) :
      ¬ ∃ m, k = some m ∧ m.isDir ∧ m.number = x := by
    rintro ⟨m, rfl, isDir, _⟩
    cases (all m rfl).symm.trans isDir
  by_cases e : p = o
  · subst e
    simp only [DirAt, setNode_self]
    exact iff_of_false (notDir n file) (notDir _ old)
  · simp only [DirAt, setNode_of_ne e]

/-! ## Steps -/

section
variable (h : s.Sound) (live : s.node o = some n) (file : n.isDir = false)
include h live file

theorem Sound.link (linked : n.linked) : (s.enter parent n.number).Sound := by
  refine ⟨h.unique, ?_, ?_⟩
  · intro p y named
    by_cases e : y = n.number
    · exact ⟨o, n, live, e.symm, linked⟩
    · rw [enter_other e] at named
      exact h.known p y named
  · refine h.tree.congr ⟨rfl, fun _ _ => Iff.rfl, fun p x dir o => ?_⟩
    exact enter_other (h.file_number live file dir) ..

theorem Sound.unlink (only : s.Allows (.unlink parent n.number)) :
    ((s.setNode o (some { n with linked := false })).leave parent n.number).Sound := by
  have number {p : Nat} {m : SpaceNode} (hm : (s.setNode o (some { n with linked := false })).node p = some m) :
      ∃ k, s.node p = some k ∧ k.number = m.number := by
    by_cases e : p = o
    · subst e
      rw [setNode_self] at hm
      cases hm
      exact ⟨n, live, rfl⟩
    · rw [setNode_of_ne e] at hm
      exact ⟨m, hm, rfl⟩
  refine ⟨?_, ?_, ?_⟩
  · intro p q k m hp hq same
    obtain ⟨k', hk, eq⟩ := number hp
    obtain ⟨m', hm, eq'⟩ := number hq
    exact h.unique p q k' m' hk hm (by rw [eq, eq', same])
  · intro p y named
    have other : y ≠ n.number := by
      rintro rfl
      apply named
      have le := only p
      rw [leave_names]
      by_cases e : p = parent
      · rw [if_pos e] at le
        rw [if_pos ⟨e, rfl⟩]
        exact Nat.sub_eq_zero_of_le le
      · rw [if_neg e] at le
        exact Nat.sub_eq_zero_of_le (le.trans (Nat.zero_le _))
    rw [leave_other other] at named
    obtain ⟨q, m, hm, rfl, linked⟩ := h.known p y named
    refine ⟨q, m, ?_, rfl, linked⟩
    refine (setNode_of_ne ?_ _).trans hm
    rintro rfl
    cases live.symm.trans hm
    exact other rfl
  · refine h.tree.congr ⟨rfl, fun p x => ?_, fun p x dir q => ?_⟩
    · refine dirAt_setNode (s := s) (fun m hm => ?_) fun m hm => ?_
      · cases live.symm.trans hm
        exact file
      · cases hm
        exact file
    · exact leave_other (h.file_number live file dir) ..

theorem Sound.drop (gone : n.linked = false) : (s.setNode o none).Sound := by
  have old {p : Nat} {m : SpaceNode} (hm : (s.setNode o none).node p = some m) : s.node p = some m := by
    by_cases e : p = o
    · subst e
      rw [setNode_self] at hm
      cases hm
    · rwa [setNode_of_ne e] at hm
  refine ⟨?_, ?_, ?_⟩
  · intro p q k m hp hq
    exact h.unique p q k m (old hp) (old hq)
  · intro p y named
    obtain ⟨q, m, hm, same, linked⟩ := h.known p y named
    refine ⟨q, m, ?_, same, linked⟩
    refine (setNode_of_ne ?_ _).trans hm
    rintro rfl
    cases live.symm.trans hm
    cases gone.symm.trans linked
  refine h.tree.congr ⟨rfl, fun p x => ?_, fun _ _ _ _ => rfl⟩
  refine dirAt_setNode (fun m hm => ?_) fun m hm => ?_
  · cases live.symm.trans hm
    exact file
  · cases hm

end

theorem dirAt_new (new : s.node o = none) :
    (s.setNode o (some ⟨x, isDir, true⟩)).DirAt p y ↔ s.DirAt p y ∨ p = o ∧ isDir ∧ x = y := by
  by_cases e : p = o
  · subst e
    simp [DirAt, new]
  · simp [DirAt, setNode_of_ne e, e]

section
variable (h : s.Sound)
include h

/-- A new inode that is entered into a directory is a leaf of the tree. -/
theorem Sound.tree_create (dir : s.IsDir parent) (new : s.node o = none)
    (fresh : ∀ p n, s.node p = some n → n.number ≠ x) (unnamed : ∀ o, s.names o x = 0) :
    ((s.setNode o (some ⟨x, true, true⟩)).enter parent x).Tree := by
  have dirs (p y : Nat) : ((s.setNode o (some ⟨x, true, true⟩)).enter parent x).DirAt p y ↔
      s.DirAt p y ∨ p = o ∧ x = y := by
    refine (dirAt_new new).trans ?_
    simp
  have other {p y : Nat} (hp : s.DirAt p y) : y ≠ x := by
    obtain ⟨n, hn, _, rfl⟩ := hp
    exact fresh p n hn
  have notDir : ¬ s.IsDir o := by
    rintro ⟨y, n, hn, _⟩
    cases new.symm.trans hn
  refine ⟨?_, ?_, ?_⟩
  · obtain ⟨y, hy⟩ := h.tree.root
    exact ⟨y, (dirs _ y).mpr (.inl hy)⟩
  · intro p y hp q
    obtain hp | ⟨_, rfl⟩ := (dirs p y).mp hp
    · rw [enter_other (other hp)]
      exact h.tree.once p y hp q
    · rw [enter_names, show (s.setNode o (some ⟨x, true, true⟩)).names q x = 0 from unnamed q]
      split <;> omega
  refine h.tree.rooted.insert notDir dir ?_ (fun q r => ?_) fun r => ?_
  · rintro rfl
    exact notDir h.tree.root
  · constructor
    · rintro ⟨y, hr, named⟩
      obtain hr | ⟨rfl, rfl⟩ := (dirs r y).mp hr
      · rw [enter_other (other hr)] at named
        exact .inl ⟨y, hr, named⟩
      refine .inr ⟨?_, rfl⟩
      by_contra ne
      rw [enter_names, if_neg fun both => ne both.1] at named
      exact named (unnamed q)
    rintro (⟨y, hr, named⟩ | ⟨rfl, rfl⟩)
    · refine ⟨y, (dirs r y).mpr (.inl hr), ?_⟩
      rwa [enter_other (other hr)]
    · refine ⟨x, (dirs r x).mpr (.inr ⟨rfl, rfl⟩), ?_⟩
      rw [enter_names, if_pos ⟨rfl, rfl⟩]
      exact Nat.succ_ne_zero _
  · simp only [IsDir, dirs, exists_or, exists_and_left, exists_eq', and_true]

theorem Sound.unnamed (fresh : ∀ p n, s.node p = some n → n.number ≠ x) (o : Nat) : s.names o x = 0 := by
  by_contra named
  obtain ⟨p, n, hn, same, _⟩ := h.known o x named
  exact fresh p n hn same

theorem Sound.create (dir : s.IsDir parent) (new : s.node o = none)
    (fresh : ∀ p n, s.node p = some n → n.number ≠ x) :
    ((s.setNode o (some ⟨x, isDir, true⟩)).enter parent x).Sound := by
  have unnamed := h.unnamed fresh
  have old {p : Nat} {n : SpaceNode} (hn : s.node p = some n) :
      (s.setNode o (some ⟨x, isDir, true⟩)).node p = some n := by
    refine (setNode_of_ne ?_ _).trans hn
    rintro rfl
    cases new.symm.trans hn
  have cases {p : Nat} {n : SpaceNode} (hn : (s.setNode o (some ⟨x, isDir, true⟩)).node p = some n) :
      p = o ∧ n = ⟨x, isDir, true⟩ ∨ s.node p = some n := by
    by_cases e : p = o
    · subst e
      rw [setNode_self] at hn
      exact .inl ⟨rfl, (Option.some.inj hn).symm⟩
    · rw [setNode_of_ne e] at hn
      exact .inr hn
  refine ⟨?_, ?_, ?_⟩
  · intro p q n m hn hm same
    obtain ⟨rfl, rfl⟩ | left := cases hn <;> obtain ⟨rfl, rfl⟩ | right := cases hm
    · rfl
    · exact absurd same.symm (fresh q m right)
    · exact absurd same (fresh p n left)
    · exact h.unique p q n m left right same
  · intro p y named
    by_cases e : y = x
    · exact ⟨o, _, setNode_self .., e.symm, rfl⟩
    · rw [enter_other e] at named
      obtain ⟨q, n, hn, same⟩ := h.known p y named
      exact ⟨q, n, old hn, same⟩
  cases isDir with
  | true => exact h.tree_create dir new fresh unnamed
  | false =>
    refine h.tree.congr ⟨rfl, fun p y => ?_, fun p y hp q => ?_⟩
    · refine (dirAt_new new).trans ?_
      simp
    · obtain ⟨n, hn, _, rfl⟩ := hp
      exact enter_other (fresh p n hn) ..

theorem Sound.tree_move {old new : Nat} (dir : s.IsDir new) (named : s.names old x ≠ 0) (moved : s.DirAt p x)
    (apart : ¬ ReflTransGen s.Child p new) : ((s.enter new x).leave old x).Tree := by
  have edge : s.Child old p := ⟨x, moved, named⟩
  have one : s.names old x = 1 := le_antisymm (h.tree.once p x moved old) (Nat.one_le_iff_ne_zero.mpr named)
  have alone {q : Nat} (ne : q ≠ old) : s.names q x = 0 := by
    by_contra also
    exact ne (h.tree.rooted.unique q old p ⟨x, moved, also⟩ edge)
  have kept {y : Nat} (ne : y ≠ x) (q : Nat) : ((s.enter new x).leave old x).names q y = s.names q y :=
    (leave_other ne ..).trans (enter_other ne ..)
  have now (q : Nat) : ((s.enter new x).leave old x).names q x = if q = new then 1 else 0 := by
    rw [leave_names, enter_names]
    by_cases e : q = old
    · subst e
      rw [one]
      simp
    · rw [alone e]
      simp [e]
  refine ⟨h.tree.root, ?_, ?_⟩
  · intro r y hr q
    by_cases e : y = x
    · rw [e, now]
      split <;> omega
    · rw [kept e]
      exact h.tree.once r y hr q
  refine h.tree.rooted.move ⟨x, moved⟩ dir ?_ apart fun q r => ?_
  · rintro rfl
    exact h.tree.rooted.top old edge
  constructor
  · rintro ⟨y, hr, there⟩
    by_cases e : y = x
    · subst e
      rw [now] at there
      refine .inr ⟨?_, h.dir_unique hr moved⟩
      by_contra ne
      exact there (if_neg ne)
    rw [kept e] at there
    refine .inl ⟨⟨y, hr, there⟩, ?_⟩
    rintro rfl
    exact e (DirAt.number_unique hr moved)
  · rintro (⟨⟨y, hr, there⟩, ne⟩ | ⟨rfl, rfl⟩)
    · refine ⟨y, hr, ?_⟩
      rwa [kept]
      rintro rfl
      exact ne (h.dir_unique hr moved)
    · refine ⟨x, moved, ?_⟩
      rw [now, if_pos rfl]
      exact one_ne_zero

theorem Sound.move {old new : Nat} (dir : s.IsDir new) (named : s.names old x ≠ 0)
    (apart : s.Allows (.move old new x)) : ((s.enter new x).leave old x).Sound := by
  refine ⟨h.unique, ?_, ?_⟩
  · intro p y there
    by_cases e : y = x
    · subst e
      exact h.known old y named
    · rw [leave_other e, enter_other e] at there
      exact h.known p y there
  by_cases moved : ∃ p, s.DirAt p x
  · obtain ⟨p, moved⟩ := moved
    exact h.tree_move dir named moved (apart p moved)
  refine h.tree.congr ⟨rfl, fun _ _ => Iff.rfl, fun p y hp q => ?_⟩
  have ne : y ≠ x := by
    rintro rfl
    exact moved ⟨p, hp⟩
  exact (leave_other ne ..).trans (enter_other ne ..)

end

/-- One step. -/
theorem Step.sound {a : Act} (step : s.Step a s') (allowed : s.Allows a) (h : s.Sound) : s'.Sound := by
  cases step with
  | create dir new fresh => exact h.create dir new fresh
  | link live file linked => exact h.link live file linked
  | unlink live file => exact h.unlink live file allowed
  | move dir named => exact h.move dir named allowed
  | drop live file gone => exact h.drop live file gone

end Space

end SlotFs
