import SlotFs.SingleSlot

/-!
# Concurrent slot allocation

Threads run `do_slot_alloc` side by side. The test `remain > 0` is made outside
the lock and the critical section does not repeat it, so between the two another
thread may take the last slot of the map. Each visit of a map is two steps here,
the test and the critical section; `do_slot_free` is one step.
-/

namespace SlotFs
open CWord Runs Function

variable {current : Nat} {s : ThreadState} {thread : Thread}

/-- Where a thread is in `do_slot_alloc`: not in it, in front of the test of
map `current`, or past that test and in front of the lock. -/
inductive Thread
  | idle
  | visiting (start current : Nat)
  | entering (start current : Nat)
  deriving DecidableEq

open Thread

/-- The end of the loop body: on to the next map, or out with `-1`. -/
def Thread.next (num start current : Nat) : Thread :=
  if (current + 1) % num ≠ start then .visiting start ((current + 1) % num) else .idle

structure ThreadState extends SlotState where
  threads : Nat → Thread

def ThreadState.move (s : ThreadState) (τ : Nat) (thread : Thread) : ThreadState :=
  { s with threads := update s.threads τ thread }

def ThreadState.test (s : ThreadState) (τ start current : Nat) : ThreadState :=
  s.move τ (if (s.maps.map current).remain > 0 then .entering start current
    else .next s.maps.num start current)

/-- The critical section; a thread that gets a slot returns it at once. -/
def ThreadState.critical (s : ThreadState) (τ start current : Nat) : ThreadState :=
  match allocLocked (s.maps.map current) with
  | some (n, m) =>
    { maps := s.maps.set current m
      out := (n + (s.maps.map current).bitOffset) :: s.out
      threads := update s.threads τ .idle }
  | none => s.move τ (.next s.maps.num start current)

/-- Interleavings in which every critical section finds its map in a state
that is `allowed`. -/
inductive ThreadStep (allowed : DramBitmap → Prop) (s : ThreadState) : ThreadState → Prop
  | call (τ cpu : Nat) (idle : s.threads τ = .idle) :
      ThreadStep allowed s (s.move τ (.visiting (cpu % s.maps.num) (cpu % s.maps.num)))
  | test (τ start current : Nat) (here : s.threads τ = .visiting start current) :
      ThreadStep allowed s (s.test τ start current)
  | critical (τ start current : Nat) (here : s.threads τ = .entering start current)
      (ready : allowed (s.maps.map current)) :
      ThreadStep allowed s (s.critical τ start current)
  | free (n : Nat) (held : n ∈ s.out) :
      ThreadStep allowed s { s with maps := doSlotFree s.maps n, out := s.out.erase n }

/-- There still is a slot to take, or the hint stands at the end of the map,
where the second search finds out that there is none. -/
def Ready (m : DramBitmap) : Prop := 0 < m.remain ∨ m.hint = m.bitNum

/-- The critical section gives out no slot that another caller holds, and
`remain` goes down by one. -/
def Serves (s : ThreadState) (current : Nat) : Prop :=
  ∀ n m, allocLocked (s.maps.map current) = some (n, m) →
    n + (s.maps.map current).bitOffset ∉ s.out ∧ m.remain + 1 = (s.maps.map current).remain

def Thread.Inside (num : Nat) : Thread → Prop
  | .idle => True
  | .visiting _ current => current < num
  | .entering _ current => current < num

structure ThreadState.Ok (s : ThreadState) : Prop where
  slots : s.toSlotState.Ok
  inside : ∀ τ, (s.threads τ).Inside s.maps.num

theorem Thread.next_inside {num : Nat} (pos : 0 < num) (start current : Nat) :
    (next num start current).Inside num := by
  unfold next
  split
  · exact Nat.mod_lt _ pos
  · trivial

theorem inside_update {threads : Nat → Thread} {num : Nat} (inside : ∀ τ, (threads τ).Inside num)
    (new : thread.Inside num) (τ σ : Nat) : (update threads τ thread σ).Inside num := by
  by_cases e : σ = τ
  · subst e; simpa using new
  · simpa [e] using inside σ

theorem ThreadState.Ok.move (ok : s.Ok) (τ : Nat) (new : thread.Inside s.maps.num) : (s.move τ thread).Ok :=
  ⟨ok.slots, inside_update ok.inside new τ⟩

/-- What a critical section takes from a map that is ready was free. -/
theorem Ready.takes_clear {m : DramBitmap} (ready : Ready m) (exact : m.Exact)
    (small : m.bitNum ≤ 2 ^ 31) {n : Nat} {m' : DramBitmap}
    (taken : allocLocked m = some (n, m')) : bit m.dram n = false := by
  have hn : n = searchZero m ∧ searchZero m < m.bitNum := by
    simp only [allocLocked] at taken
    split at taken
    · rename_i hlt
      cases taken
      exact ⟨rfl, hlt⟩
    · cases taken
  obtain ⟨rfl, hlt⟩ := hn
  by_cases pos : 0 < m.remain
  · exact (searchZero_clear exact.hint small (m.clear_pos_iff.mp (exact.remain ▸ pos))).2
  have full : m.Full := by
    rw [← DramBitmap.clear_eq_zero_iff, ← exact.remain]
    omega
  have atEnd : m.hint = m.bitNum := ready.resolve_left pos
  have := (searchZero_full exact.hint small full).2 atEnd
  omega

theorem ThreadStep.ok {t : ThreadState} (h : s.Ok ∧ s.maps.Within (2 ^ 31)) (step : ThreadStep Ready s t) :
    t.Ok ∧ t.maps.Within (2 ^ 31) := by
  obtain ⟨ok, small⟩ := h
  have pos := ok.slots.maps.pos
  cases step with
  | call τ cpu idle => exact ⟨ok.move τ (Nat.mod_lt _ pos), small⟩
  | test τ start current here =>
    have inside : current < s.maps.num := by
      simpa only [here, Inside] using ok.inside τ
    refine ⟨ok.move τ ?_, small⟩
    split
    · exact inside
    · exact next_inside pos start current
  | critical τ start current here ready =>
    have inside : current < s.maps.num := by
      simpa only [here, Inside] using ok.inside τ
    unfold ThreadState.critical
    cases taken : allocLocked (s.maps.map current) with
    | none => exact ⟨ok.move τ (next_inside pos start current), small⟩
    | some found =>
      obtain ⟨n, m⟩ := found
      have free := ready.takes_clear (ok.slots.maps.exact current inside) (small current inside) taken
      obtain ⟨slots, within⟩ := ok.slots.take small inside free taken
      exact ⟨⟨slots, inside_update ok.inside (show Inside _ .idle from trivial) τ⟩, within⟩
  | free n held =>
    obtain ⟨slots, within⟩ := ok.slots.give small held
    refine ⟨⟨slots, fun τ => ?_⟩, within⟩
    rw [doSlotFree_num]
    exact ok.inside τ

/-- With nothing left and the hint inside the map, the critical section hands
out the slot at the hint and lowers `remain` from zero. -/
theorem Ready.of_serves (exact : (s.maps.map current).Exact) (small : (s.maps.map current).bitNum ≤ 2 ^ 31)
    (serves : Serves s current) : Ready (s.maps.map current) := by
  by_contra bad
  obtain ⟨empty, inside⟩ := not_or.mp bad
  have hhint := exact.hint
  have hlt : (s.maps.map current).hint < (s.maps.map current).bitNum := by omega
  have full : (s.maps.map current).Full := by
    rw [← DramBitmap.clear_eq_zero_iff, ← exact.remain]
    omega
  have found := (searchZero_full exact.hint small full).1 hlt
  obtain ⟨_, down⟩ := serves _ _ (by simp only [allocLocked, found, hlt, if_true]; rfl)
  simp only at down
  omega

theorem Ready.serves (ok : s.Ok) (inside : current < s.maps.num) (small : (s.maps.map current).bitNum ≤ 2 ^ 31)
    (ready : Ready (s.maps.map current)) : Serves s current := by
  intro n m taken
  have exact := ok.slots.maps.exact current inside
  have free := ready.takes_clear exact small taken
  obtain ⟨_, _, _, hn, _⟩ := allocLocked_exact exact (by omega) free taken
  refine ⟨fun held => ?_, ?_⟩
  · have := (ok.slots.held _ held).2
    rw [ok.slots.maps.used_eq inside hn, free] at this
    cases this
  have pos : 0 < (s.maps.map current).remain := by
    rw [exact.remain, DramBitmap.clear_pos_iff]
    exact ⟨n, hn, free⟩
  have bound := exact.remain ▸ (s.maps.map current).clear_le
  simp only [allocLocked] at taken
  split at taken
  · cases taken
    simp only [sub64_of_le (show 1 ≤ (s.maps.map current).remain by omega) (by omega)]
    omega
  · cases taken

/-- In every interleaving whose critical sections all find their map ready no
slot is outstanding twice and `remain` counts the clear bits; and at whatever
point such an interleaving stands, a thread past the test is served correctly
if and only if its map is ready. -/
theorem interleaved_allocation {s t : ThreadState} (ok : s.Ok) (small : s.maps.Within (2 ^ 31))
    (run : Run (ThreadStep Ready) s t) :
    t.Ok ∧ ∀ τ start current, t.threads τ = .entering start current →
      (Serves t current ↔ Ready (t.maps.map current)) := by
  have inv := Run.invariant (I := fun s : ThreadState => s.Ok ∧ s.maps.Within (2 ^ 31))
    ThreadStep.ok run ⟨ok, small⟩
  obtain ⟨ok', small'⟩ := inv
  refine ⟨ok', fun τ start current here => ?_⟩
  have inside : current < t.maps.num := by
    simpa only [here, Inside] using ok'.inside τ
  exact ⟨Ready.of_serves (ok'.slots.maps.exact current inside) (small' current inside),
    Ready.serves ok' inside (small' current inside)⟩

/-- One map of `bits` slots, nothing taken, and no thread at work. -/
def idleThreads (bits : Nat) : ThreadState := ⟨⟨emptyMaps bits, []⟩, fun _ => .idle⟩

theorem idleThreads_ok (bits : Nat) : (idleThreads bits).Ok :=
  ⟨⟨emptyMaps_ok bits, List.nodup_nil, fun _ h => nomatch h⟩, fun _ => trivial⟩

theorem interleaved_allocation_once :
    let t := (((idleThreads 2).move 0 (.visiting 0 0)).test 0 0 0).critical 0 0 0
    t.Ok ∧ ∀ τ start current, t.threads τ = .entering start current →
      (Serves t current ↔ Ready (t.maps.map current)) :=
  interleaved_allocation (idleThreads_ok 2) (fun _ _ => show 2 ≤ 2 ^ 31 by decide)
    (.head (.call 0 0 rfl) <| .head (.test 0 0 0 rfl) <|
      .single (.critical 0 0 0 rfl (.inl (by decide))))

/-- Both threads pass the test while slot 0 is the only free one. The first
takes it and leaves the hint at slot 1, and the second is given slot 1 although
a third caller still holds it. -/
theorem last_slot_raced :
    ∃ t, Run (ThreadStep fun _ => True) (idleThreads 2) t ∧ t.out = [1, 0, 1] ∧
      (t.maps.map 0).remain = 2 ^ 64 - 1 := by
  refine ⟨_, .head (.call 0 0 rfl) <| .head (.test 0 0 0 rfl) <| .head (.critical 0 0 0 rfl trivial) <|
    .head (.call 0 0 rfl) <| .head (.test 0 0 0 rfl) <| .head (.critical 0 0 0 rfl trivial) <|
    .head (.free 0 (by decide)) <| .head (.call 0 0 rfl) <| .head (.call 1 0 rfl) <|
    .head (.test 0 0 0 rfl) <| .head (.test 1 0 0 rfl) <| .head (.critical 0 0 0 rfl trivial) <|
    .single (.critical 1 0 0 rfl trivial), ?_, ?_⟩
  all_goals decide

end SlotFs
