import SlotFs.Lib.Ledger
import SlotFs.Recover

/-!
# The threads of the replay

`rc_replay` runs in several threads over one queue. A thread that finds the queue empty
takes itself out of `active_thread` and waits until there is work again or nobody is
active. Every access to the queue and to the counter is one step here. What handling an
inode does is only that it pushes inodes, one step each.
-/

namespace SlotFs
open Runs Function List Option

variable {q queue : RcQueue}

/-- Where a thread is: in front of `queue_pop`, behind one that failed, in front of the
read of `active_thread`, of the read of the queue, and of the increment; at work on an
inode, with the inodes it is still going to push; or done. -/
inductive ReplayPc
  | popping
  | failed
  | checking
  | peeking
  | resuming
  | handling (ino : Int) (pushes : List Int)
  | returned
  deriving DecidableEq

open ReplayPc

/-- `handled` is history only: the inodes whose handling is over. -/
structure ReplayState where
  queue : RcQueue
  activeThread : Nat
  pc : Nat → ReplayPc
  handled : List Int

def ReplayState.move (s : ReplayState) (i : Nat) (pc : ReplayPc) : ReplayState :=
  { s with pc := update s.pc i pc }

/-- The counter has `width` bits. -/
def fetchAdd (width n : Nat) : Nat := (n + 1) % 2 ^ width

def fetchSub (width n : Nat) : Nat := (n + (2 ^ width - 1)) % 2 ^ width

/-- One step of one of `n` threads. -/
inductive ReplayStep (n width : Nat) (s : ReplayState) : ReplayState → Prop
  | pop (i : Nat) (inside : i < n) (here : s.pc i = .popping) (ino : Int) (queue : RcQueue)
      (got : queuePop s.queue = some (ino, queue)) (pushes : List Int) :
      ReplayStep n width s { s.move i (.handling ino pushes) with queue }
  | fail (i : Nat) (inside : i < n) (here : s.pc i = .popping) (empty : queuePop s.queue = none) :
      ReplayStep n width s (s.move i .failed)
  | retire (i : Nat) (inside : i < n) (here : s.pc i = .failed) :
      ReplayStep n width s { s.move i .checking with activeThread := fetchSub width s.activeThread }
  | finish (i : Nat) (inside : i < n) (here : s.pc i = .checking) (zero : s.activeThread = 0) :
      ReplayStep n width s (s.move i .returned)
  | wait (i : Nat) (inside : i < n) (here : s.pc i = .checking) (others : s.activeThread ≠ 0) :
      ReplayStep n width s (s.move i .peeking)
  | idle (i : Nat) (inside : i < n) (here : s.pc i = .peeking)
      (empty : (s.queue.data.length : Int) - s.queue.front ≤ 0) :
      ReplayStep n width s (s.move i .checking)
  | wake (i : Nat) (inside : i < n) (here : s.pc i = .peeking)
      (work : 0 < (s.queue.data.length : Int) - s.queue.front) :
      ReplayStep n width s (s.move i .resuming)
  | resume (i : Nat) (inside : i < n) (here : s.pc i = .resuming) :
      ReplayStep n width s { s.move i .popping with activeThread := fetchAdd width s.activeThread }
  | push (i : Nat) (inside : i < n) (ino c : Int) (pushes : List Int)
      (here : s.pc i = .handling ino (c :: pushes)) (queue : RcQueue)
      (room : queuePush s.queue c = some queue) :
      ReplayStep n width s { s.move i (.handling ino pushes) with queue }
  | handle (i : Nat) (inside : i < n) (ino : Int) (here : s.pc i = .handling ino []) :
      ReplayStep n width s { s.move i .popping with handled := s.handled ++ [ino] }

/-- `recover` has pushed the root and starts `n` threads. -/
structure ReplayState.Started (n : Nat) (s : ReplayState) : Prop where
  data : s.queue.data = [0]
  front : s.queue.front = 0
  active : s.activeThread = n
  threads : ∀ i, i < n → s.pc i = .popping
  handled : s.handled = []

/-! ## The invariant -/

/-- The threads that `active_thread` counts. -/
def ReplayPc.registered : ReplayPc → Bool
  | .popping | .failed | .handling .. => true
  | _ => false

/-- The threads that will look into the queue before they leave. -/
def ReplayPc.attends : ReplayPc → Bool
  | .popping | .handling .. => true
  | _ => false

def ReplayPc.ino : ReplayPc → Option Int
  | .handling ino _ => some ino
  | _ => none

/-- How many of `n` threads are in a place of some kind. -/
def tally (n : Nat) (pc : Nat → ReplayPc) (kind : ReplayPc → Bool) : Nat :=
  ∑ i ∈ Finset.range n, if kind (pc i) then 1 else 0

structure ReplayState.Ok (n : Nat) (s : ReplayState) : Prop where
  active : s.activeThread = tally n s.pc registered
  front : s.queue.front ≤ s.queue.data.length
  attended : s.queue.front < s.queue.data.length → ∃ i, i < n ∧ (s.pc i).attends = true
  returned : (∃ i, i < n ∧ s.pc i = .returned) →
    s.queue.front = s.queue.data.length ∧ ∀ j, j < n → (s.pc j).ino = none
  once : ∀ v, s.handled.count v + tally n s.pc (fun pc => pc.ino = some v) =
    (s.queue.data.take s.queue.front).count v

section
variable {n width i : Nat} {s t : ReplayState} {pc : Nat → ReplayPc} {next : ReplayPc}
  {kind : ReplayPc → Bool}

theorem tally_update (inside : i < n) (pc : Nat → ReplayPc) (next : ReplayPc) (kind : ReplayPc → Bool) :
    tally n (update pc i next) kind + (if kind (pc i) then 1 else 0) =
      tally n pc kind + if kind next then 1 else 0 := by
  have change : tally n (update pc i next) kind + (if kind (pc i) then 1 else 0) =
      tally n pc kind + if kind (update pc i next i) then 1 else 0 := by
    apply Ledger.sum_change (Finset.mem_range.mpr inside)
    intro j _ other
    rw [update_of_ne other]
  rwa [update_self] at change

theorem tally_le (n : Nat) (pc : Nat → ReplayPc) (kind : ReplayPc → Bool) : tally n pc kind ≤ n := by
  calc tally n pc kind ≤ ∑ i ∈ Finset.range n, 1 := Finset.sum_le_sum fun i _ => by split <;> omega
    _ = n := by simp

theorem tally_pos (inside : i < n) (there : kind (pc i) = true) : 0 < tally n pc kind := by
  apply Finset.sum_pos' (fun _ _ => Nat.zero_le _)
  exact ⟨i, Finset.mem_range.mpr inside, by simp [there]⟩

theorem tally_zero (none : ∀ i, i < n → kind (pc i) = false) : tally n pc kind = 0 := by
  apply Finset.sum_eq_zero
  intro i inside
  simp [none i (Finset.mem_range.mp inside)]

theorem ReplayPc.attends.registered {pc : ReplayPc} (h : pc.attends = true) : pc.registered = true := by
  cases pc <;> first | rfl | cases h

theorem ReplayPc.ino.registered {pc : ReplayPc} {ino : Int} (h : pc.ino = some ino) : pc.registered = true := by
  cases pc <;> first | rfl | cases h

theorem fetchAdd_eq {a : Nat} (fits : a + 1 < 2 ^ width) : fetchAdd width a = a + 1 :=
  Nat.mod_eq_of_lt fits

theorem fetchSub_eq {a : Nat} (pos : 0 < a) (fits : a < 2 ^ width) : fetchSub width a = a - 1 := by
  have split : a + (2 ^ width - 1) = a - 1 + 2 ^ width := by omega
  rw [fetchSub, split, Nat.add_mod_right, Nat.mod_eq_of_lt (by omega)]

theorem queuePop_some {q' : RcQueue} {ino : Int} (got : queuePop q = some (ino, q')) :
    q.data[q.front]? = some ino ∧ q' = { q with front := q.front + 1 } := by
  obtain ⟨val, found, eq⟩ := map_eq_some_iff.mp got
  obtain ⟨rfl, rfl⟩ := Prod.mk.inj eq
  exact ⟨found, rfl⟩

theorem queuePop_none (none : queuePop q = none) : q.data.length ≤ q.front := by
  simpa [queuePop] using none

/-- When nobody is counted, the queue is empty and nobody is at work. -/
theorem ReplayState.Ok.quiet (ok : s.Ok n) (zero : s.activeThread = 0) :
    s.queue.front = s.queue.data.length ∧ ∀ j, j < n → (s.pc j).ino = none := by
  have nobody (j : Nat) (inside : j < n) : (s.pc j).registered ≠ true := by
    intro counted
    have pos := tally_pos inside counted
    have active := ok.active
    omega
  constructor
  · by_contra waiting
    have front := ok.front
    obtain ⟨j, inside, attends⟩ := ok.attended (by omega)
    exact nobody j inside (ReplayPc.attends.registered attends)
  intro j inside
  cases ino : (s.pc j).ino with
  | none => rfl
  | some v => exact absurd (ReplayPc.ino.registered ino) (nobody j inside)

/-- What has to be shown of a step that takes thread `i` to another place. -/
theorem ReplayState.Ok.change (ok : s.Ok n) (inside : i < n) (pc : t.pc = update s.pc i next)
    (active : t.activeThread + (if (s.pc i).registered then 1 else 0) =
      s.activeThread + if next.registered then 1 else 0)
    (front : t.queue.front ≤ t.queue.data.length)
    (attended : t.queue.front < t.queue.data.length →
      next.attends = true ∨ s.queue.front < s.queue.data.length ∧ (s.pc i).attends = false)
    (calm : s.queue.front = s.queue.data.length → (∀ j, j < n → (s.pc j).ino = none) →
      t.queue.front = t.queue.data.length ∧ next.ino = none)
    (last : next = .returned → s.activeThread = 0)
    (once : ∀ v, t.handled.count v + (if next.ino = some v then 1 else 0) +
        (s.queue.data.take s.queue.front).count v =
      s.handled.count v + (if (s.pc i).ino = some v then 1 else 0) +
        (t.queue.data.take t.queue.front).count v) : t.Ok n := by
  constructor
  · have change := tally_update inside s.pc next registered
    have before := ok.active
    rw [pc]
    omega
  · exact front
  · intro waiting
    rcases attended waiting with there | ⟨before, other⟩
    · exact ⟨i, inside, by rw [pc, update_self, there]⟩
    obtain ⟨j, below, attends⟩ := ok.attended before
    refine ⟨j, below, ?_⟩
    rw [pc, update_of_ne, attends]
    rintro rfl
    rw [other] at attends
    cases attends
  · rintro ⟨j, below, returned⟩
    have before : s.queue.front = s.queue.data.length ∧ ∀ j, j < n → (s.pc j).ino = none := by
      rw [pc, update_apply] at returned
      split at returned
      · exact ok.quiet (last returned)
      · exact ok.returned ⟨j, below, returned⟩
    obtain ⟨empty, none⟩ := calm before.1 before.2
    refine ⟨empty, fun j below => ?_⟩
    rw [pc, update_apply]
    split
    · exact none
    · exact before.2 j below
  · intro v
    have change := tally_update inside s.pc next fun pc => pc.ino = some v
    have before := ok.once v
    have after := once v
    simp only [decide_eq_true_eq] at change
    rw [pc]
    omega

/-- A step that leaves the queue alone and is not about the handling of an inode. -/
theorem ReplayState.Ok.pass (ok : s.Ok n) (inside : i < n) (pc : t.pc = update s.pc i next)
    (queue : t.queue = s.queue) (handled : t.handled = s.handled) (before : (s.pc i).ino = none)
    (after : next.ino = none) (active : t.activeThread + (if (s.pc i).registered then 1 else 0) =
      s.activeThread + if next.registered then 1 else 0)
    (attended : s.queue.front < s.queue.data.length → next.attends = true ∨ (s.pc i).attends = false)
    (last : next = .returned → s.activeThread = 0) : t.Ok n := by
  apply ok.change inside pc active
  · rw [queue]
    exact ok.front
  · rw [queue]
    intro waiting
    exact (attended waiting).imp id fun other => ⟨waiting, other⟩
  · rw [queue]
    exact fun empty _ => ⟨empty, after⟩
  · exact last
  · intro v
    rw [queue, handled, before, after]

theorem ReplayPc.unregistered {pc : ReplayPc} (out : pc.registered = false) :
    pc.ino = none ∧ pc.attends = false := by
  cases pc with
  | popping | failed | handling => cases out
  | checking | peeking | resuming | returned => exact ⟨rfl, rfl⟩

/-- A thread that is not counted looks at the counter or at the queue. -/
theorem ReplayState.Ok.look (ok : s.Ok n) (inside : i < n) (before : (s.pc i).registered = false)
    (after : next.registered = false) (last : next = .returned → s.activeThread = 0) : (s.move i next).Ok n := by
  obtain ⟨none, away⟩ := unregistered before
  refine ok.pass inside rfl rfl rfl none (unregistered after).1 ?_ (fun _ => .inr away) last
  rw [before, after]
  rfl

theorem count_take_succ {l : List Int} {k : Nat} {v : Int} (found : l[k]? = some v) (w : Int) :
    (l.take (k + 1)).count w = (l.take k).count w + if v = w then 1 else 0 := by
  rw [take_add_one, found, count_append]
  simp [count_singleton]

section
variable (ok : s.Ok n) (inside : i < n)
include ok inside

/-- A thread takes an inode out of the queue. -/
theorem ReplayState.Ok.pop (here : s.pc i = .popping) {ino : Int} (got : queuePop s.queue = some (ino, queue))
    (pushes : List Int) : ({ s.move i (.handling ino pushes) with queue } : ReplayState).Ok n := by
  obtain ⟨found, rfl⟩ := queuePop_some got
  have below := (List.getElem?_eq_some_iff.mp found).1
  apply ok.change inside rfl
  · rw [here]
    rfl
  · exact below
  · exact fun _ => .inl rfl
  · intro empty
    omega
  · intro eq
    cases eq
  intro v
  have count := count_take_succ found v
  simp only [here, ReplayPc.ino, ReplayState.move, some_inj, reduceCtorEq, if_false] at count ⊢
  omega

theorem ReplayState.Ok.push {ino c : Int} {pushes : List Int} (here : s.pc i = .handling ino (c :: pushes))
    (room : queuePush s.queue c = some queue) :
    ({ s.move i (.handling ino pushes) with queue } : ReplayState).Ok n := by
  obtain rfl := queuePush_eq_some room
  have front := ok.front
  apply ok.change inside rfl
  · rw [here]
    rfl
  · change s.queue.front ≤ (s.queue.data ++ [c]).length
    rw [length_append]
    omega
  · exact fun _ => .inl rfl
  · intro _ none
    have handling := none i inside
    rw [here] at handling
    cases handling
  · intro eq
    cases eq
  · intro v
    simp only [here, ReplayPc.ino, ReplayState.move, take_append_of_le_length front]
    rfl

theorem ReplayState.Ok.handle {ino : Int} (here : s.pc i = .handling ino []) :
    ({ s.move i .popping with handled := s.handled ++ [ino] } : ReplayState).Ok n := by
  apply ok.change inside rfl
  · rw [here]
    rfl
  · exact ok.front
  · exact fun _ => .inl rfl
  · intro _ none
    have handling := none i inside
    rw [here] at handling
    cases handling
  · intro eq
    cases eq
  intro v
  simp only [here, ReplayPc.ino, ReplayState.move, count_append, count_singleton,
    some_inj, reduceCtorEq, if_false, beq_iff_eq]
  omega

end

theorem ReplayStep.ok (fits : n < 2 ^ width) (ok : s.Ok n) (step : ReplayStep n width s t) : t.Ok n := by
  cases step with
  | pop i inside here ino queue got pushes => exact ok.pop inside here got pushes
  | fail i inside here empty =>
    have none := queuePop_none empty
    refine ok.pass inside rfl rfl rfl (by rw [here]; rfl) rfl (by rw [here]; rfl) ?_ ?_
    · intro waiting
      omega
    · intro eq
      cases eq
  | retire i inside here =>
    have pos : 0 < tally n s.pc registered := tally_pos inside (by rw [here]; rfl)
    have le := tally_le n s.pc registered
    have active := ok.active
    refine ok.pass inside rfl rfl rfl (by rw [here]; rfl) rfl ?_ ?_ ?_
    · rw [here, fetchSub_eq (by omega) (by omega)]
      simp only [registered, if_true, Bool.false_eq_true, if_false]
      omega
    · intro _
      rw [here]
      exact .inr rfl
    · intro eq
      cases eq
  | finish i inside here zero => exact ok.look inside (by rw [here]; rfl) rfl fun _ => zero
  | wait i inside here _ => exact ok.look inside (by rw [here]; rfl) rfl nofun
  | idle i inside here _ => exact ok.look inside (by rw [here]; rfl) rfl nofun
  | wake i inside here _ => exact ok.look inside (by rw [here]; rfl) rfl nofun
  | resume i inside here =>
    have change := tally_update inside s.pc .popping registered
    have le := tally_le n (update s.pc i .popping) registered
    have active := ok.active
    rw [here] at change
    simp only [registered, if_true, Bool.false_eq_true, if_false] at change
    refine ok.pass inside rfl rfl rfl (by rw [here]; rfl) rfl ?_ ?_ ?_
    · rw [here, fetchAdd_eq (by omega)]
      rfl
    · exact fun _ => .inl rfl
    · intro eq
      cases eq
  | push i inside ino c pushes here queue room => exact ok.push inside here room
  | handle i inside ino here => exact ok.handle inside here

theorem ReplayState.Started.ok (start : s.Started n) (pos : 0 < n) : s.Ok n := by
  have counted : tally n s.pc registered = n := by
    have all : ∀ i ∈ Finset.range n, (if (s.pc i).registered then 1 else 0) = 1 := by
      intro i inside
      rw [start.threads i (Finset.mem_range.mp inside)]
      rfl
    rw [tally, Finset.sum_congr rfl all]
    simp
  constructor
  · rw [counted, start.active]
  · rw [start.front]
    exact Nat.zero_le _
  · intro _
    exact ⟨0, pos, by rw [start.threads 0 pos]; rfl⟩
  · rintro ⟨i, inside, returned⟩
    rw [start.threads i inside] at returned
    cases returned
  intro v
  have none : tally n s.pc (fun pc => pc.ino = some v) = 0 := by
    apply tally_zero
    intro i inside
    rw [start.threads i inside]
    rfl
  rw [none, start.handled, start.front]
  rfl

end

/-- No thread has returned while the queue holds an inode or some thread is at work on
one, in any interleaving; and when all threads have returned, the inodes handled are those
that were pushed, each as often as it was pushed. -/
theorem replay_queue_safe {n width : Nat} (pos : 0 < n) (fits : n < 2 ^ width) {s t : ReplayState}
    (start : s.Started n) (run : Run (ReplayStep n width) s t) :
    (∀ i, i < n → t.pc i = .returned →
      queuePop t.queue = none ∧ ∀ j, j < n → ∀ ino pushes, t.pc j ≠ .handling ino pushes) ∧
    ((∀ i, i < n → t.pc i = .returned) → t.handled.Perm t.queue.data) := by
  have ok : t.Ok n := run.invariant (fun ok step => step.ok fits ok) (start.ok pos)
  constructor
  · intro i inside returned
    obtain ⟨empty, none⟩ := ok.returned ⟨i, inside, returned⟩
    refine ⟨by simp [queuePop, empty], fun j below ino pushes handling => ?_⟩
    have := none j below
    rw [handling] at this
    cases this
  intro returned
  obtain ⟨empty, none⟩ := ok.returned ⟨0, pos, returned 0 pos⟩
  apply perm_iff_count.mpr
  intro v
  have once := ok.once v
  have idle : tally n t.pc (fun pc => pc.ino = some v) = 0 := by
    apply tally_zero
    intro i inside
    rw [none i inside]
    rfl
  rwa [idle, empty, take_length, Nat.add_zero] at once

/-- Two threads, and a root with one inode below it. -/
theorem replay_queue_safe_pushed :
    ∃ s t : ReplayState, s.Started 2 ∧ Run (ReplayStep 2 16) s t ∧ t.queue.data = [0, 1] ∧
      t.handled.Perm t.queue.data := by
  let s : ReplayState := ⟨⟨0, [0], 8⟩, 2, fun _ => .popping, []⟩
  have start : s.Started 2 := ⟨rfl, rfl, rfl, fun _ _ => rfl, rfl⟩
  have popped : Run (ReplayStep 2 16) s _ := .single (.pop 0 (by decide) rfl 0 ⟨1, [0], 8⟩ rfl [1])
  have pushed := popped.tail (.push 0 (by decide) 0 1 [] rfl ⟨1, [0, 1], 8⟩ rfl)
  have both := pushed.tail (.pop 1 (by decide) rfl 1 ⟨2, [0, 1], 8⟩ rfl [])
  have handled := (both.tail (.handle 1 (by decide) 1 rfl)).tail (.handle 0 (by decide) 0 rfl)
  have first := (handled.tail (.fail 0 (by decide) rfl rfl)).tail (.retire 0 (by decide) rfl)
  have second := (first.tail (.fail 1 (by decide) rfl rfl)).tail (.retire 1 (by decide) rfl)
  have finished := (second.tail (.finish 1 (by decide) rfl (by decide))).tail (.finish 0 (by decide) rfl (by decide))
  refine ⟨s, _, start, finished, rfl, (replay_queue_safe (by decide) (by decide) start finished).2 ?_⟩
  intro i inside
  obtain rfl | rfl : i = 0 ∨ i = 1 := by omega
  · rfl
  · rfl

end SlotFs
