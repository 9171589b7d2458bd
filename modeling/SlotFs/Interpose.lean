import SlotFs.Vfs

/-!
# Descriptors behind the C library

`lib.c` stands in for calls of the C library. A descriptor of SlotFS is shown to the program with
`FD_OFFSET` added, and the calls on descriptors take it off again. What SlotFS has no part in is
handed to the call that was replaced.
-/

namespace SlotFs

def fdOffset : Nat := 1024
def backslash : BitVec 8 := 0x5c#8

/-- What `slotfs_open` comes to: a place in `f_table`, or -1. -/
abbrev SlotOpen := Int → List (BitVec 8) → OpenFlags → Nat → Option (Fin fdMax)

section
variable (slot : SlotOpen) (dfd dirfd : Int) (path : List (BitVec 8)) (oflag : OpenFlags) (mode : Nat)

def SlotOpen.ret : Int :=
  match slot dfd path oflag mode with
  | none => -1
  | some fd => (fd : Nat)

/-- `slotfs` is what `slotfs_open` returned and what the program gets for it. -/
inductive Reply
  | libc
  | slotfs (ret result : Int)
  deriving DecidableEq

open Reply

/-! ## Opening -/

/-- `while (*p == '\\') p++` -/
def skipBackslashes : List (BitVec 8) := path.dropWhile (· = backslash)

/-- What `OPEN` makes of the result. -/
def showOpened (ret : Int) : Reply :=
  if ret < 0 ∧ path.head? ≠ some backslash then .libc
  else if ret < 0 then .slotfs ret ret
  else .slotfs ret (ret + fdOffset)

def wrapOpen : Reply :=
  if path.head? = some backslash ∨ path.head? ≠ some slash ∨ path[1]? = some backslash then
    if oflag.creat then showOpened path (slot.ret atFdcwd (skipBackslashes path) oflag mode)
    else showOpened path
      (slot.ret atFdcwd (if path.head? = some backslash then path.tail else path) oflag 0)
  else .libc

/-- The place in `f_table` that is meant, or `AT_FDCWD`. -/
def lowerDirfd : Option Int :=
  if dirfd = atFdcwd then some atFdcwd
  else if fdOffset ≤ dirfd ∧ dirfd < fdMax + fdOffset then some (dirfd - fdOffset)
  else none

/-- `FD_OFFSET` is added to -1 as well. -/
def wrapOpenat : Reply :=
  if path.head? = some backslash ∨ path.head? ≠ some slash then
    match lowerDirfd dirfd with
    | none => .libc
    | some dirfd =>
      let ret := slot.ret dirfd (skipBackslashes path) oflag (if oflag.creat then mode else 0)
      if ret < 0 ∧ path.head? ≠ some backslash then .libc else .slotfs ret (ret + fdOffset)
  else .libc

/-- The descriptor as a pointer. -/
def slotfsOpendir : Int :=
  slot.ret atFdcwd path ⟨false, true, false⟩ 0 % 2 ^ 64

/-- The path is passed with its backslashes, and nothing is added. -/
def wrapOpendir : Reply :=
  if path.head? = some backslash ∨ path.head? ≠ some slash then
    let ret := slotfsOpendir slot path
    if ret = 0 ∧ path.head? ≠ some backslash then .libc
    else .slotfs (slot.ret atFdcwd path ⟨false, true, false⟩ 0) ret
  else .libc

inductive OpenCall
  | open (path : List (BitVec 8)) (oflag : OpenFlags) (mode : Nat)
  | openat (dirfd : Int) (path : List (BitVec 8)) (oflag : OpenFlags) (mode : Nat)
  | opendir (path : List (BitVec 8))

open OpenCall

def OpenCall.reply : OpenCall → Reply
  | .open path oflag mode => wrapOpen slot path oflag mode
  | .openat dirfd path oflag mode => wrapOpenat slot dirfd path oflag mode
  | .opendir path => wrapOpendir slot path

/-- How a call says that it has failed. -/
def OpenCall.Failure : OpenCall → Int → Prop
  | .open .., result => result < 0
  | .openat .., result => result < 0
  | .opendir _, result => result = 0

/-! ## Using -/

inductive FdCall
  | read | write | close | seek | readdir

/-- The place in `f_table` that a call goes to. All of them test and subtract alike. -/
def FdCall.place (_ : FdCall) (file : Int) : Option Int :=
  if fdOffset ≤ file ∧ file < fdMax + fdOffset then some (file - fdOffset) else none

/-- What is shown for an object of SlotFS is one of its descriptors, by which the calls find the
place again, and a failure is shown as one. -/
def Reply.Consistent (failure : Int → Prop) : Reply → Prop
  | .libc => True
  | .slotfs ret result =>
    if 0 ≤ ret then
      fdOffset ≤ result ∧ result < fdOffset + fdMax ∧ ∀ call : FdCall, call.place result = some ret
    else failure result

/-- When an opening call is consistent. -/
def OpenCall.Encodes : OpenCall → Prop
  | .open .. => True
  | .openat dirfd path oflag mode => path.head? = some backslash → ∀ dfd, lowerDirfd dirfd = some dfd →
    slot dfd (skipBackslashes path) oflag (if oflag.creat then mode else 0) ≠ none
  | .opendir path => path.head? = some slash ∨
    slot.ret atFdcwd path ⟨false, true, false⟩ 0 = 0 ∧ path.head? ≠ some backslash

theorem SlotOpen.ret_cases : (slot dfd path oflag mode = none ∧ slot.ret dfd path oflag mode = -1) ∨
    ∃ fd : Fin fdMax, slot dfd path oflag mode = some fd ∧ slot.ret dfd path oflag mode = (fd : Nat) := by
  unfold SlotOpen.ret
  cases slot dfd path oflag mode with
  | none => exact .inl ⟨rfl, rfl⟩
  | some fd => exact .inr ⟨fd, rfl, rfl⟩

/-- A place to which `FD_OFFSET` is added. -/
theorem Reply.consistent_shifted (fd : Fin fdMax) (failure : Int → Prop) :
    (slotfs (fd : Nat) ((fd : Nat) + fdOffset)).Consistent failure := by
  have bound := fd.isLt
  have near : (fdOffset : Int) ≤ (fd : Nat) + fdOffset ∧ ((fd : Nat) : Int) + fdOffset < fdMax + fdOffset := by
    omega
  rw [Consistent, if_pos (Int.natCast_nonneg _)]
  refine ⟨near.1, by omega, fun call => ?_⟩
  rw [FdCall.place, if_pos near, add_sub_cancel_right]

theorem showOpened_consistent (path' : List (BitVec 8)) :
    (showOpened path' (slot.ret dfd path oflag mode)).Consistent (· < 0) := by
  unfold showOpened
  split
  · trivial
  rcases slot.ret_cases dfd path oflag mode with ⟨_, ret⟩ | ⟨fd, _, ret⟩
  · simp [ret, Consistent]
  · rw [ret, if_neg (by omega)]
    exact consistent_shifted fd _

theorem wrapOpen_consistent : (wrapOpen slot path oflag mode).Consistent (· < 0) := by
  unfold wrapOpen
  split
  · split
    · exact showOpened_consistent ..
    · exact showOpened_consistent ..
  · trivial

theorem wrapOpenat_consistent : (wrapOpenat slot dirfd path oflag mode).Consistent (· < 0) ↔
    (openat dirfd path oflag mode).Encodes slot := by
  unfold wrapOpenat Encodes
  dsimp only
  cases lower : lowerDirfd dirfd with
  | none => simp [Consistent]
  | some dfd =>
    simp only [Option.some.injEq, forall_eq']
    rcases slot.ret_cases dfd (skipBackslashes path) oflag (if oflag.creat then mode else 0) with
      ⟨none, ret⟩ | ⟨fd, found, ret⟩
    · by_cases own : path.head? = some backslash
      · simp [own, none, ret, Consistent, fdOffset]
      · simp [own, ret, Consistent]
    have shown := consistent_shifted fd (· < 0)
    have done : ¬ ((fd : Nat) : Int) < 0 := by omega
    simp only [found, ret, done, false_and, if_false, ne_eq, reduceCtorEq, not_false_eq_true, implies_true, iff_true]
    split
    · exact shown
    · trivial

theorem wrapOpendir_consistent : (wrapOpendir slot path).Consistent (· = 0) ↔ (opendir path).Encodes slot := by
  unfold wrapOpendir Encodes slotfsOpendir
  by_cases absolute : path.head? = some slash
  · simp [absolute, Consistent, slash, backslash]
  have inside : path.head? = some backslash ∨ path.head? ≠ some slash := .inr absolute
  simp only [if_pos inside, absolute, false_or]
  rcases slot.ret_cases atFdcwd path ⟨false, true, false⟩ 0 with ⟨_, ret⟩ | ⟨fd, _, ret⟩
  · simp [ret, Consistent]
  have bound : (fd : Nat) < 8192 := fd.isLt
  have same : ((fd : Nat) : Int) % 2 ^ 64 = (fd : Nat) := by omega
  rw [ret, same]
  by_cases handed : ((fd : Nat) : Int) = 0 ∧ path.head? ≠ some backslash
  · simp only [handed, Consistent, ne_eq, not_false_eq_true, and_self, if_true]
  refine iff_of_false ?_ handed
  rw [if_neg handed, Consistent, if_pos (Int.natCast_nonneg _)]
  rintro ⟨low, high, place⟩
  have place := place .readdir
  rw [FdCall.place, if_pos ⟨low, by omega⟩] at place
  have moved := Option.some.inj place
  simp only [fdOffset] at moved
  omega

/-- An opening call and the calls on what it has opened agree exactly when it encodes. -/
theorem descriptors_encoded_iff (call : OpenCall) :
    (call.reply slot).Consistent call.Failure ↔ call.Encodes slot := by
  cases call with
  | «open» path oflag mode => exact iff_of_true (wrapOpen_consistent slot path oflag mode) trivial
  | openat dirfd path oflag mode => exact wrapOpenat_consistent slot dirfd path oflag mode
  | opendir path => exact wrapOpendir_consistent slot path

end

/-- `OPENAT` shows a failure as 1023, and `OPENDIR` shows it as a pointer that is not `NULL`. -/
theorem failure_shown_as_descriptor :
    wrapOpenat (fun _ _ _ _ => none) atFdcwd [backslash, 0x61#8] ⟨false, false, false⟩ 0 = .slotfs (-1) 1023 ∧
    wrapOpendir (fun _ _ _ _ => none) [0x61#8] = .slotfs (-1) (2 ^ 64 - 1) ∧
    ¬ ((OpenCall.openat atFdcwd [backslash, 0x61#8] ⟨false, false, false⟩ 0).reply fun _ _ _ _ => none).Consistent
      (OpenCall.openat atFdcwd [backslash, 0x61#8] ⟨false, false, false⟩ 0).Failure := by
  have shown : wrapOpenat (fun _ _ _ _ => none) atFdcwd [backslash, 0x61#8] ⟨false, false, false⟩ 0 =
      .slotfs (-1) 1023 := by decide
  refine ⟨shown, by decide, ?_⟩
  rw [OpenCall.reply, shown, Reply.Consistent, if_neg (by decide)]
  exact Int.not_lt.mpr (by decide)

end SlotFs
