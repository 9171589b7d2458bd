import SlotFs.Lib.Runs

/-!
# Programs with locks

A program acts on a shared state, takes and gives back locks, and returns. Alone, it is
executed to an outcome that says which locks it keeps. Side by side, programs interleave at
every action, and wait in front of a lock that is taken. Threads that ask for a lock only in
the order of a relation do not wait in a circle where the relation has none.
-/

namespace Locks
open Runs Relation Function System

/-- `act` goes on with what it finds before it changes the state, and `mark` shows something
to an observer. -/
inductive Prog (σ ℓ ε α : Type)
  | done (a : α)
  | crash
  | acquire (l : ℓ) (next : Prog σ ℓ ε α)
  | release (l : ℓ) (next : Prog σ ℓ ε α)
  | act (f : σ → σ) (next : σ → Prog σ ℓ ε α)
  | mark (e : ε) (next : Prog σ ℓ ε α)

namespace Prog
variable {σ ℓ ε α β : Type}

def bind : Prog σ ℓ ε α → (α → Prog σ ℓ ε β) → Prog σ ℓ ε β
  | done a, k => k a
  | crash, _ => crash
  | acquire l next, k => acquire l (next.bind k)
  | release l next, k => release l (next.bind k)
  | act f next, k => act f fun s => (next s).bind k
  | mark e next, k => mark e (next.bind k)

instance : Monad (Prog σ ℓ ε) where
  pure := done
  bind := bind

/-- A step on the state, which crashes where it gives nothing. -/
def look (f : σ → Option (α × σ)) : Prog σ ℓ ε α :=
  act (fun s => ((f s).map Prod.snd).getD s) fun s => (f s).elim crash fun out => done out.1

def lock (l : ℓ) : Prog σ ℓ ε Unit := acquire l (done ())

def unlock (l : ℓ) : Prog σ ℓ ε Unit := release l (done ())

def note (e : ε) : Prog σ ℓ ε Unit := mark e (done ())

/-! ## Alone, without the locks -/

def erase : Prog σ ℓ ε α → σ → Option (α × σ)
  | done a, s => some (a, s)
  | crash, _ => none
  | acquire _ next, s => next.erase s
  | release _ next, s => next.erase s
  | act f next, s => (next s).erase (f s)
  | mark _ next, s => next.erase s

@[simp] theorem erase_pure (a : α) (s : σ) : (pure a : Prog σ ℓ ε α).erase s = some (a, s) := rfl

@[simp] theorem erase_look (f : σ → Option (α × σ)) (s : σ) : (look f : Prog σ ℓ ε α).erase s = f s := by
  simp only [look, erase]
  cases f s <;> rfl

@[simp] theorem erase_lock (l : ℓ) (s : σ) : (lock l : Prog σ ℓ ε Unit).erase s = some ((), s) := rfl

@[simp] theorem erase_unlock (l : ℓ) (s : σ) : (unlock l : Prog σ ℓ ε Unit).erase s = some ((), s) := rfl

@[simp] theorem erase_bind (p : Prog σ ℓ ε α) (k : α → Prog σ ℓ ε β) (s : σ) :
    (p >>= k).erase s = (p.erase s).bind fun out => (k out.1).erase out.2 := by
  change (p.bind k).erase s = _
  induction p generalizing s with
  | done a => rfl
  | crash => rfl
  | acquire l next ih => exact ih s
  | release l next ih => exact ih s
  | act f next ih => exact ih s (f s)
  | mark e next ih => exact ih s

theorem erase_bind_some {p : Prog σ ℓ ε α} {k : α → Prog σ ℓ ε β} {s t : σ} {b : β}
    (run : (p >>= k).erase s = some (b, t)) : ∃ a u, p.erase s = some (a, u) ∧ (k a).erase u = some (b, t) := by
  rw [erase_bind] at run
  obtain ⟨out, first, rest⟩ := Option.bind_eq_some_iff.mp run
  exact ⟨out.1, out.2, first, rest⟩

end Prog

/-! ## Alone, with the locks -/

/-- `held` are the locks that a program has when it returns, the last one taken first, and
`clean` says that it has not given back one that it did not have. A program is stuck when it
waits for itself. -/
inductive Outcome (σ ℓ α : Type)
  | returned (a : α) (s : σ) (held : List ℓ) (clean : Bool)
  | crashed
  | stuck
deriving DecidableEq

def Outcome.bind {σ ℓ α β : Type} (o : Outcome σ ℓ α) (k : α → σ → List ℓ → Bool → Outcome σ ℓ β) :
    Outcome σ ℓ β :=
  match o with
  | .returned a s held clean => k a s held clean
  | .crashed => .crashed
  | .stuck => .stuck

namespace Prog
variable {σ ℓ ε α β : Type} [DecidableEq ℓ]

def exec : Prog σ ℓ ε α → σ → List ℓ → Bool → Outcome σ ℓ α
  | done a, s, held, clean => .returned a s held clean
  | crash, _, _, _ => .crashed
  | acquire l next, s, held, clean => if l ∈ held then .stuck else next.exec s (l :: held) clean
  | release l next, s, held, clean => next.exec s (held.erase l) (clean && decide (l ∈ held))
  | act f next, s, held, clean => (next s).exec (f s) held clean
  | mark _ next, s, held, clean => next.exec s held clean

variable (s : σ) (held : List ℓ) (clean : Bool)

@[simp] theorem exec_pure (a : α) : (pure a : Prog σ ℓ ε α).exec s held clean = .returned a s held clean := rfl

@[simp] theorem exec_look (f : σ → Option (α × σ)) : (look f : Prog σ ℓ ε α).exec s held clean =
    (f s).elim .crashed fun out => .returned out.1 out.2 held clean := by
  simp only [look, exec]
  cases f s <;> rfl

@[simp] theorem exec_lock (l : ℓ) : (lock l : Prog σ ℓ ε Unit).exec s held clean =
    if l ∈ held then .stuck else .returned () s (l :: held) clean := rfl

@[simp] theorem exec_unlock (l : ℓ) : (unlock l : Prog σ ℓ ε Unit).exec s held clean =
    .returned () s (held.erase l) (clean && decide (l ∈ held)) := rfl

@[simp] theorem exec_note (e : ε) : (note e : Prog σ ℓ ε Unit).exec s held clean = .returned () s held clean := rfl

@[simp] theorem exec_bind (p : Prog σ ℓ ε α) (k : α → Prog σ ℓ ε β) : (p >>= k).exec s held clean =
      (p.exec s held clean).bind fun a s held clean => (k a).exec s held clean := by
  change (p.bind k).exec s held clean = _
  induction p generalizing s held clean with
  | done a => rfl
  | crash => rfl
  | acquire l next ih =>
    simp only [bind, exec]
    split
    · rfl
    · exact ih _ _ _
  | release l next ih => exact ih _ _ _
  | act f next ih => exact ih _ _ _ _
  | mark e next ih => exact ih _ _ _

theorem exec_assoc {γ : Type} (p : Prog σ ℓ ε α) (f : α → Prog σ ℓ ε β) (g : β → Prog σ ℓ ε γ) :
    (p >>= f >>= g).exec s held clean = (p >>= fun a => f a >>= g).exec s held clean := by
  simp only [exec_bind]
  cases p.exec s held clean <;> rfl

/-- What a program returns does not depend on the locks. -/
theorem erase_of_exec {p : Prog σ ℓ ε α} {s s' : σ} {held held' : List ℓ} {clean clean' : Bool} {a : α}
    (run : p.exec s held clean = .returned a s' held' clean') : p.erase s = some (a, s') := by
  induction p generalizing s held clean with
  | done b =>
    cases run
    rfl
  | crash => cases run
  | acquire l next ih =>
    simp only [exec] at run
    split at run
    · cases run
    · exact ih run
  | release l next ih => exact ih run
  | act f next ih => exact ih _ run
  | mark e next ih => exact ih run

end Prog

section
variable {σ ℓ ε α β : Type} {o : Outcome σ ℓ α} {held : List ℓ} {clean : Bool} {P : Prop}

/-- What has been taken has been given back, and nothing else. -/
def Outcome.Balanced (o : Outcome σ ℓ α) : Prop := ∃ a s, o = .returned a s [] true

@[simp] theorem Outcome.balanced_returned {a : α} {s : σ} :
    (Outcome.returned a s held clean).Balanced ↔ held = [] ∧ clean = true := by
  simp [Balanced]

@[simp] theorem Outcome.not_balanced_crashed : ¬ (Outcome.crashed : Outcome σ ℓ α).Balanced := nofun

@[simp] theorem Outcome.not_balanced_stuck : ¬ (Outcome.stuck : Outcome σ ℓ α).Balanced := nofun

theorem Outcome.balanced_bind {k : α → σ → List ℓ → Bool → Outcome σ ℓ β}
    (keeps : ∀ a s held clean, ∃ b s', k a s held clean = .returned b s' held clean) :
    (o.bind k).Balanced ↔ o.Balanced := by
  cases o with
  | returned a s held clean =>
    obtain ⟨b, s', eq⟩ := keeps a s held clean
    rw [bind, eq, balanced_returned, balanced_returned]
  | crashed => simp [bind]
  | stuck => simp [bind]

/-- The locks of an outcome. -/
def Outcome.locks : Outcome σ ℓ α → Outcome Unit ℓ Unit
  | .returned _ _ held clean => .returned () () held clean
  | .crashed => .crashed
  | .stuck => .stuck

@[simp] theorem Outcome.locks_crashed : o.locks = .crashed ↔ o = .crashed := by
  cases o <;> simp [locks]

@[simp] theorem Outcome.locks_balanced : o.locks.Balanced ↔ o.Balanced := by
  cases o <;> simp [locks]

/-- Unless it has crashed, a program is balanced exactly if `P`. -/
def Outcome.BalancedIff (o : Outcome σ ℓ α) (P : Prop) : Prop := o ≠ .crashed → (o.Balanced ↔ P)

@[simp] theorem Outcome.balancedIff_crashed :
    (Outcome.crashed : Outcome σ ℓ α).BalancedIff P := fun runs => absurd rfl runs

@[simp] theorem Outcome.balancedIff_returned {a : α} {s : σ} :
    (Outcome.returned a s held clean).BalancedIff P ↔ ((held = [] ∧ clean = true) ↔ P) := by
  simp [BalancedIff]

theorem Outcome.BalancedIff.congr {Q : Prop} (h : o.BalancedIff P) (iff : P ↔ Q) : o.BalancedIff Q :=
  fun runs => (h runs).trans iff

theorem Outcome.BalancedIff.locks (h : o.BalancedIff P) : o.locks.BalancedIff P := by
  simpa only [BalancedIff, ne_eq, locks_crashed, locks_balanced] using h

/-- A program that has returned has given back a lock that it did not have. -/
def Outcome.Unclean (o : Outcome σ ℓ α) : Prop := ∀ a s held clean, o = .returned a s held clean → clean = false

theorem Outcome.Unclean.not_balanced (h : o.Unclean) : ¬ o.Balanced := by
  rintro ⟨a, s, eq⟩
  cases h a s [] true eq

theorem Outcome.Unclean.balancedIff (h : o.Unclean) (not : ¬ P) : o.BalancedIff P := fun _ =>
  ⟨fun balanced => absurd balanced h.not_balanced, fun holds => absurd holds not⟩

theorem Outcome.Unclean.returned (a : α) (s : σ) (held : List ℓ) : (Outcome.returned a s held false).Unclean := by
  rintro _ _ _ _ ⟨⟩
  rfl

theorem Outcome.Unclean.bind (h : o.Unclean) {k : α → σ → List ℓ → Bool → Outcome σ ℓ β}
    (next : ∀ a s held, (k a s held false).Unclean) : (o.bind k).Unclean := by
  cases o with
  | returned a s held clean =>
    cases h a s held clean rfl
    exact next a s held
  | crashed => exact nofun
  | stuck => exact nofun

theorem Prog.look_balanced [DecidableEq ℓ] {f : σ → Option (α × σ)} {k : α → Prog σ ℓ ε β} {s : σ}
    (next : ∀ a s', f s = some (a, s') → ((k a).exec s' held clean).BalancedIff P) :
    ((look f >>= k).exec s held clean).BalancedIff P := by
  rw [exec_bind, exec_look]
  cases found : f s with
  | none => exact Outcome.balancedIff_crashed
  | some out => exact next out.1 out.2 found

theorem Prog.exec_unclean [DecidableEq ℓ] (p : Prog σ ℓ ε α) (s : σ) (held : List ℓ) :
    (p.exec s held false).Unclean := by
  induction p generalizing s held with
  | done a => exact .returned a s held
  | crash => exact nofun
  | acquire l next ih =>
    rw [exec]
    split
    · exact nofun
    · exact ih s _
  | release l next ih => exact ih s _
  | act f next ih => exact ih s (f s) held
  | mark e next ih => exact ih s held

end

/-! ## Side by side -/

structure Thread (σ ℓ ε : Type) where
  held : List ℓ
  code : Prog σ ℓ ε Unit

/-- A lock can be free although a thread still has it, when another one has given it back. -/
structure System (τ σ ℓ ε : Type) where
  shared : σ
  locked : ℓ → Bool
  thread : τ → Thread σ ℓ ε

section
variable {τ σ ℓ ε : Type} {y z : System τ σ ℓ ε} {i : τ} {programs : Prog σ ℓ ε Unit → Prop}

/-- Thread `i` asks for a lock that `j` has. -/
def System.Waits (y : System τ σ ℓ ε) (i j : τ) : Prop :=
  ∃ l next, (y.thread i).code = .acquire l next ∧ l ∈ (y.thread j).held

def System.Deadlocked (y : System τ σ ℓ ε) : Prop := ∃ i, TransGen y.Waits i i

/-- The lock that a program asks for next. -/
def Prog.asks {α : Type} : Prog σ ℓ ε α → Option ℓ
  | .acquire l _ => some l
  | _ => none

/-- Two threads that ask for a lock of the other. -/
theorem System.deadlocked_pair {j : τ} {l m : ℓ} (asks : (y.thread i).code.asks = some l)
    (held : l ∈ (y.thread j).held) (asks' : (y.thread j).code.asks = some m) (held' : m ∈ (y.thread i).held) :
    y.Deadlocked := by
  have waits {i j : τ} {l : ℓ} (asks : (y.thread i).code.asks = some l) (held : l ∈ (y.thread j).held) :
      y.Waits i j := by
    cases here : (y.thread i).code with
    | acquire k next =>
      rw [here] at asks
      cases asks
      exact ⟨l, next, here, held⟩
    | _ =>
      rw [here] at asks
      cases asks
  exact ⟨i, .tail (.single (waits asks held)) (waits asks' held')⟩

variable [DecidableEq τ] [DecidableEq ℓ]

def System.move (y : System τ σ ℓ ε) (i : τ) (t : Thread σ ℓ ε) : System τ σ ℓ ε :=
  { y with thread := update y.thread i t }

/-- A thread that is done starts another program. Marks that are not `allowed` are not passed. -/
inductive Step (programs : Prog σ ℓ ε Unit → Prop) (allowed : ε → Prop) (y : System τ σ ℓ ε) :
    System τ σ ℓ ε → Prop
  | start (i : τ) (p : Prog σ ℓ ε Unit) (idle : (y.thread i).code = .done ()) (known : programs p) :
      Step programs allowed y (y.move i ⟨(y.thread i).held, p⟩)
  | acquire (i : τ) (l : ℓ) (next : Prog σ ℓ ε Unit) (here : (y.thread i).code = .acquire l next)
      (free : y.locked l = false) :
      Step programs allowed y
        { y.move i ⟨l :: (y.thread i).held, next⟩ with locked := update y.locked l true }
  | release (i : τ) (l : ℓ) (next : Prog σ ℓ ε Unit) (here : (y.thread i).code = .release l next) :
      Step programs allowed y
        { y.move i ⟨(y.thread i).held.erase l, next⟩ with locked := update y.locked l false }
  | act (i : τ) (f : σ → σ) (next : σ → Prog σ ℓ ε Unit) (here : (y.thread i).code = .act f next) :
      Step programs allowed y
        { y.move i ⟨(y.thread i).held, next y.shared⟩ with shared := f y.shared }
  | mark (i : τ) (e : ε) (next : Prog σ ℓ ε Unit) (here : (y.thread i).code = .mark e next)
      (ok : allowed e) : Step programs allowed y (y.move i ⟨(y.thread i).held, next⟩)

/-! ### Schedules -/

/-- Two threads start programs. -/
def System.start (y : System τ σ ℓ ε) (i j : τ) (p q : Prog σ ℓ ε Unit) : System τ σ ℓ ε :=
  (y.move i ⟨[], p⟩).move j ⟨[], q⟩

theorem System.start_run {allowed : ε → Prop} {j : τ} {p q : Prog σ ℓ ε Unit}
    (idle : ∀ k, y.thread k = ⟨[], .done ()⟩) (ne : j ≠ i) (hp : programs p) (hq : programs q) :
    Run (Step programs allowed) y (y.start i j p q) := by
  have first : Step programs allowed y (y.move i ⟨(y.thread i).held, p⟩) := .start i p (by rw [idle]) hp
  rw [idle] at first
  have still : (y.move i ⟨[], p⟩).thread j = ⟨[], .done ()⟩ := (update_of_ne ne ..).trans (idle j)
  have second : Step programs allowed (y.move i ⟨[], p⟩) _ := .start j q (by rw [still]) hq
  rw [still] at second
  exact .tail (.single first) second

/-- What the next step of a thread makes of the system, if it can make one. -/
def System.advance (passes : ε → Bool) (y : System τ σ ℓ ε) (i : τ) : Option (System τ σ ℓ ε) :=
  match (y.thread i).code with
  | .done _ => none
  | .crash => none
  | .acquire l next =>
    if y.locked l then none
    else some { y.move i ⟨l :: (y.thread i).held, next⟩ with locked := update y.locked l true }
  | .release l next =>
    some { y.move i ⟨(y.thread i).held.erase l, next⟩ with locked := update y.locked l false }
  | .act f next => some { y.move i ⟨(y.thread i).held, next y.shared⟩ with shared := f y.shared }
  | .mark e next => if passes e then some (y.move i ⟨(y.thread i).held, next⟩) else none

/-- The threads move in the order of a list. -/
def System.schedule (passes : ε → Bool) : List τ → System τ σ ℓ ε → Option (System τ σ ℓ ε)
  | [], y => some y
  | i :: rest, y => (y.advance passes i).bind (schedule passes rest)

variable {passes : ε → Bool} {allowed : ε → Prop} (ok : ∀ e, passes e = true → allowed e)
include ok

theorem System.advance_step (moved : y.advance passes i = some z) : Step programs allowed y z := by
  unfold advance at moved
  split at moved
  · cases moved
  · cases moved
  · rename_i l next here
    split at moved
    · cases moved
    · rename_i free
      cases moved
      exact .acquire i l next here (by simpa using free)
  · rename_i l next here
    cases moved
    exact .release i l next here
  · rename_i f next here
    cases moved
    exact .act i f next here
  · rename_i e next here
    split at moved
    · rename_i passed
      cases moved
      exact .mark i e next here (ok e passed)
    · cases moved

theorem System.schedule_run {is : List τ} (moved : y.schedule passes is = some z) :
    Run (Step programs allowed) y z := by
  induction is generalizing y with
  | nil =>
    cases moved
    exact .refl
  | cons i rest ih =>
    obtain ⟨x, first, moved⟩ := Option.bind_eq_some_iff.mp moved
    exact .head (advance_step ok first) (ih moved)

end

/-! ## Locks in order -/

/-- What programs rely on and keep: an invariant of the state, which only changes along `le`,
the order `before` in which locks are taken, and the marks that are passed. -/
structure Discipline (σ ℓ ε : Type) where
  inv : σ → Prop
  le : σ → σ → Prop
  before : ℓ → ℓ → Prop
  allowed : ε → Prop
  le_refl : ∀ s, le s s
  le_trans : ∀ {s t u}, le s t → le t u → le s u

section
variable {τ σ ℓ ε α β : Type} [DecidableEq ℓ] (D : Discipline σ ℓ ε)

/-- From the state `s` on, with the locks `held`, a program keeps the discipline whatever other
threads do, and returns with `Q`. -/
def Prog.Safe (Q : α → σ → List ℓ → Prop) : Prog σ ℓ ε α → σ → List ℓ → Prop
  | .done a, s, held => Q a s held
  | .crash, _, _ => True
  | .acquire l next, s, held => (∀ a ∈ held, D.before a l) ∧ next.Safe Q s (l :: held)
  | .release l next, s, held => next.Safe Q s (held.erase l)
  | .act f next, s, held =>
    ∀ t, D.le s t → D.inv t → D.inv (f t) ∧ D.le t (f t) ∧ (next t).Safe Q (f t) held
  | .mark e next, s, held => D.allowed e → next.Safe Q s held

variable {D} {Q Q' : α → σ → List ℓ → Prop} {a : α} {held : List ℓ} {k : α → Prog σ ℓ ε β} {l : ℓ}
  {p : Prog σ ℓ ε α} {s : σ} {y z : System τ σ ℓ ε} {programs : Prog σ ℓ ε Unit → Prop}

@[simp] theorem Prog.safe_pure : (pure a : Prog σ ℓ ε α).Safe D Q s held ↔ Q a s held := Iff.rfl

@[simp] theorem Prog.safe_lock {Q : Unit → σ → List ℓ → Prop} :
    (lock l : Prog σ ℓ ε Unit).Safe D Q s held ↔ (∀ a ∈ held, D.before a l) ∧ Q () s (l :: held) := Iff.rfl

@[simp] theorem Prog.safe_unlock {Q : Unit → σ → List ℓ → Prop} :
    (unlock l : Prog σ ℓ ε Unit).Safe D Q s held ↔ Q () s (held.erase l) := Iff.rfl

/-- A step keeps the discipline if what it gives does. -/
theorem Prog.Safe.look {f : σ → Option (α × σ)}
    (step : ∀ t, D.le s t → D.inv t → ∀ a u, f t = some (a, u) → D.inv u ∧ D.le t u ∧ Q a u held) :
    (Prog.look f : Prog σ ℓ ε α).Safe D Q s held := by
  intro t later inv
  dsimp only
  cases found : f t with
  | none => exact ⟨inv, D.le_refl t, trivial⟩
  | some out => exact step t later inv out.1 out.2 found

theorem Prog.Safe.mono (weaker : ∀ a s t held, D.le s t → Q a s held → Q' a t held) {t : σ}
    (safe : p.Safe D Q s held) (later : D.le s t) : p.Safe D Q' t held := by
  induction p generalizing s t held with
  | done a => exact weaker a s t held later safe
  | crash => trivial
  | acquire l next ih => exact ⟨safe.1, ih safe.2 later⟩
  | release l next ih => exact ih safe later
  | act f next ih =>
    intro u below inv
    obtain ⟨inv', grows, rest⟩ := safe u (D.le_trans later below) inv
    exact ⟨inv', grows, ih u rest (D.le_refl _)⟩
  | mark e next ih => exact fun ok => ih (safe ok) later

@[simp] theorem Prog.safe_bind {Q : β → σ → List ℓ → Prop} : (p >>= k).Safe D Q s held ↔
      p.Safe D (fun a s held => (k a).Safe D Q s held) s held := by
  change (p.bind k).Safe D Q s held ↔ _
  induction p generalizing s held with
  | done a => exact Iff.rfl
  | crash => exact Iff.rfl
  | acquire l next ih => exact and_congr Iff.rfl ih
  | release l next ih => exact ih
  | act f next ih =>
    exact forall_congr' fun t => imp_congr_right fun _ => imp_congr_right fun _ =>
      and_congr Iff.rfl (and_congr Iff.rfl (ih t))
  | mark e next ih => exact imp_congr_right fun _ => ih

/-- A program returns in a later state than the one that it starts in. -/
theorem Prog.Safe.imp {r : σ} (safe : p.Safe D Q s held) (later : D.le r s)
    (weaker : ∀ a t held, D.le r t → Q a t held → Q' a t held) : p.Safe D Q' s held := by
  induction p generalizing s held with
  | done a => exact weaker a s held later safe
  | crash => trivial
  | acquire l next ih => exact ⟨safe.1, ih safe.2 later⟩
  | release l next ih => exact ih safe later
  | act f next ih =>
    intro t below inv
    obtain ⟨inv', grows, rest⟩ := safe t below inv
    exact ⟨inv', grows, ih t rest (D.le_trans later (D.le_trans below grows))⟩
  | mark e next ih => exact fun ok => ih (safe ok) later

/-- One program after another. -/
theorem Prog.Safe.andThen {R : α → σ → List ℓ → Prop} {Q : β → σ → List ℓ → Prop} (first : p.Safe D R s held)
    (rest : ∀ a t held, D.le s t → R a t held → (k a).Safe D Q t held) : (p >>= k).Safe D Q s held := by
  rw [safe_bind]
  exact first.imp (D.le_refl s) rest

/-- The state is as the threads rely on, and each of them keeps the discipline. -/
structure System.Ordered (D : Discipline σ ℓ ε) (y : System τ σ ℓ ε) : Prop where
  inv : D.inv y.shared
  safe : ∀ i, (y.thread i).code.Safe D (fun _ _ held => held = []) y.shared (y.thread i).held

/-- Threads that wait for each other ask for their locks one after the other in the order. -/
theorem System.Ordered.waits (ok : y.Ordered D) {i j : τ} (waits : TransGen y.Waits i j) :
    ∃ l next m, (y.thread i).code = .acquire l next ∧ m ∈ (y.thread j).held ∧
      ReflTransGen D.before l m := by
  induction waits with
  | single first =>
    obtain ⟨l, next, asks, held⟩ := first
    exact ⟨l, next, l, asks, held, .refl⟩
  | @tail j' _ _ last ih =>
    obtain ⟨l, next, m, asks, held, chain⟩ := ih
    obtain ⟨k, next', asks', held'⟩ := last
    have safe := ok.safe j'
    rw [asks'] at safe
    exact ⟨l, next, k, asks, held', chain.tail (safe.1 m held)⟩

/-- A circle of threads is a circle of the order. -/
theorem System.Ordered.circle (ok : y.Ordered D) (dead : y.Deadlocked) : ∃ l, TransGen D.before l l := by
  obtain ⟨i, waits⟩ := dead
  obtain ⟨l, next, m, asks, held, chain⟩ := ok.waits waits
  have safe := ok.safe i
  rw [asks] at safe
  exact ⟨l, .tail' chain (safe.1 m held)⟩

variable [DecidableEq τ]

/-- One thread has moved on, the state is a later one. -/
theorem System.Ordered.move (ok : y.Ordered D) (i : τ) {t : Thread σ ℓ ε} (inv : D.inv s)
    (later : D.le y.shared s) (safe : t.code.Safe D (fun _ _ held => held = []) s t.held) (locked : ℓ → Bool) :
    Ordered D ⟨s, locked, update y.thread i t⟩ := by
  refine ⟨inv, fun j => ?_⟩
  by_cases same : j = i
  · subst same
    simpa only [update_self] using safe
  · simp only [update_of_ne same]
    refine .mono ?_ (ok.safe j) later
    exact fun _ _ _ _ _ empty => empty

theorem Step.ordered (sound : ∀ p, programs p → ∀ s, D.inv s → p.Safe D (fun _ _ held => held = []) s [])
    (ok : y.Ordered D) (step : Step programs D.allowed y z) : z.Ordered D := by
  cases step with
  | start i p idle known =>
    have empty := ok.safe i
    rw [idle] at empty
    refine ok.move i ok.inv (D.le_refl _) ?_ y.locked
    rw [show (y.thread i).held = [] from empty]
    exact sound p known _ ok.inv
  | acquire i l next here free =>
    have safe := ok.safe i
    rw [here] at safe
    exact ok.move i ok.inv (D.le_refl _) safe.2 _
  | release i l next here =>
    have safe := ok.safe i
    rw [here] at safe
    exact ok.move i (t := ⟨_, next⟩) ok.inv (D.le_refl _) safe _
  | act i f next here =>
    have safe := ok.safe i
    rw [here] at safe
    obtain ⟨inv, later, rest⟩ := safe _ (D.le_refl _) ok.inv
    exact ok.move i (t := ⟨_, next y.shared⟩) inv later rest _
  | mark i e next here passed =>
    have safe := ok.safe i
    rw [here] at safe
    exact ok.move i (t := ⟨_, next⟩) ok.inv (D.le_refl _) (safe passed) _

/-- Programs that keep a discipline without a circle do not come to a deadlock. -/
theorem no_deadlock (sound : ∀ p, programs p → ∀ s, D.inv s → p.Safe D (fun _ _ held => held = []) s [])
    (acyclic : ∀ l, ¬ TransGen D.before l l) (ok : y.Ordered D) (run : Run (Step programs D.allowed) y z) :
    ¬ z.Deadlocked := by
  intro dead
  obtain ⟨l, circle⟩ := (Run.invariant (I := System.Ordered D) (Step.ordered sound) run ok).circle dead
  exact acyclic l circle

end

end Locks
