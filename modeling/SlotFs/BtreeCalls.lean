import SlotFs.BtreeMap
import SlotFs.Lib.Runs

/-!
# Histories of the block index

A tree after any sequence of calls is the map that the calls describe: every key has the value
of the last call that covers it. What a call finds in its range is what the calls before it
have put there.
-/

namespace SlotFs
open CWord List Runs Option

variable {base : Nat → Nat} {t : Btree}

/-- A call that changes a tree. A callback returns 0, and changes the state `σ` of its caller. -/
inductive IndexCall (σ : Type)
  | set (key : Nat) (ptr : Option Nat)
  | setRange (start stop : Nat) (ptr : Option Nat)
  | setRangeCallback (start stop : Nat) (ptr : Option Nat) (callback : Nat → Int → σ → σ)

open IndexCall

variable {σ : Type}

def IndexCall.start : IndexCall σ → Nat
  | set key _ => key
  | setRange start _ _ => start
  | setRangeCallback start _ _ _ => start

def IndexCall.stop : IndexCall σ → Nat
  | set key _ => key + 1
  | setRange _ stop _ => stop
  | setRangeCallback _ stop _ _ => stop

def IndexCall.ptr : IndexCall σ → Option Nat
  | set _ ptr => ptr
  | setRange _ _ ptr => ptr
  | setRangeCallback _ _ ptr _ => ptr

def IndexCall.covers (call : IndexCall σ) (key : Nat) : Bool :=
  decide (call.start ≤ key) && decide (key < call.stop)

theorem IndexCall.covers_iff (call : IndexCall σ) (key : Nat) :
    call.covers key = true ↔ call.start ≤ key ∧ key < call.stop := by
  simp [covers]

/-- Keys and ends are at most `2 ^ 31`. -/
def IndexCall.Valid : IndexCall σ → Prop
  | set key _ => key ≤ 2 ^ 31
  | setRange start stop _ => start < stop ∧ stop ≤ 2 ^ 31
  | setRangeCallback start stop _ _ => start < stop ∧ stop ≤ 2 ^ 31

def IndexCall.run (t : Btree) (s : σ) : IndexCall σ → Option (Int × Btree × σ)
  | set key ptr => (btreeSet t key ptr).map fun out => (out.1, out.2, s)
  | setRange start stop ptr => (btreeSetRange t start stop ptr).map fun out => (out.1, out.2, s)
  | setRangeCallback start stop ptr callback =>
    btreeSetRangeCallback t start stop ptr (fun v k s => (0, callback v k s)) s

/-- The calls one after the other, as long as each returns 0. -/
def runCalls : List (IndexCall σ) → Btree → σ → Option (Btree × σ)
  | [], t, s => some (t, s)
  | call :: rest, t, s =>
    match call.run t s with
    | some (0, t, s) => runCalls rest t s
    | _ => none

/-- What the calls say about a key. -/
def lastValue (calls : List (IndexCall σ)) (key : Nat) : Option Nat :=
  (calls.reverse.find? (·.covers key)).bind ptr

/-- The values of a map at the keys from `start` to `stop`, each with its key, in ascending
order of the keys. -/
def heldIn (m : Nat → Option Nat) (start stop : Nat) : List (Nat × Int) :=
  (List.range' start (stop - start)).filterMap fun k => (m k).map fun v => (v, (k : Int))

/-! ## One call -/

theorem Shape.set (h : Shape t base) (ptr : Option Nat) {key : Nat} (low : key < 256 ^ 7) :
    ∃ t' base', btreeSet t key ptr = some (0, t') ∧ Shape t' base' ∧
      ∀ k, btreeGet t' k = if k = key then ptr else btreeGet t k := by
  have height := h.low
  obtain ⟨t1, base1, grown, extend, reach⟩ := h.grow_extends low (10 - t.height) (by omega)
  have h1 := extend.refines.shape
  obtain ⟨t2, base2, node, index, found, ⟨_, refines⟩, _, place⟩ := h1.pos_root reach
  refine ⟨t2.setChild node index ptr, base2, ?_, refines.shape.setChild place ptr, fun k => ?_⟩
  · simp [btreeSet, btreeGrow, grown, found]
  · rw [refines.shape.get_setChild place, refines.get, extend.refines.get]

theorem overRange_eq_foldl (f : Nat → Int → σ → σ) (m : Nat → Option Nat) {start n : Nat}
    (low : start + n ≤ 2 ^ 31) (s : σ) :
    overRange f m start n s = (heldIn m start (start + n)).foldl (fun s held => f held.1 held.2 s) s := by
  induction n generalizing start s with
  | zero => simp [overRange, heldIn]
  | succ n ih =>
    have rest := @ih (start + 1) (by omega)
    have key : toInt32 start = start := toInt32_of_lt (by omega)
    simp only [heldIn, Nat.add_sub_cancel_left] at rest ⊢
    rw [overRange, key, rest, List.range'_succ]
    cases held : m start <;> simp [held]

/-- A call returns 0, leaves a tree, and is an update of the map on the keys that it covers. -/
theorem IndexCall.run_spec (h : Shape t base) {call : IndexCall σ} (valid : call.Valid) (s : σ) :
    ∃ t' base' s', call.run t s = some (0, t', s') ∧ Shape t' base' ∧
      ∀ k, btreeGet t' k = if call.covers k then call.ptr else btreeGet t k := by
  have far : 2 ^ 31 < 256 ^ 7 := by decide
  cases call with
  | set key ptr =>
    obtain ⟨t', base', set, shape, get⟩ := h.set ptr (lt_of_le_of_lt valid far)
    refine ⟨t', base', s, by simp [run, set], shape, fun k => ?_⟩
    rw [get]
    simp only [covers_iff, start, stop, IndexCall.ptr, show (key ≤ k ∧ k < key + 1) ↔ k = key by omega]
  | setRange first last ptr =>
    obtain ⟨t', base', set, shape, get⟩ :=
      h.set_range (fun _ _ s => s) ptr valid.1 (lt_of_le_of_lt valid.2 far) ()
    refine ⟨t', base', s, by simp [run, btreeSetRange, set], shape, fun k => ?_⟩
    simp only [get, covers_iff, start, stop, IndexCall.ptr]
  | setRangeCallback first last ptr callback =>
    obtain ⟨t', base', set, shape, get⟩ :=
      h.set_range callback ptr valid.1 (lt_of_le_of_lt valid.2 far) s
    refine ⟨t', base', _, set, shape, fun k => ?_⟩
    simp only [get, covers_iff, start, stop, IndexCall.ptr]

/-! ## Histories -/

/-- The tree holds what the calls `past` say. -/
structure Follows (past : List (IndexCall σ)) (t : Btree) : Prop where
  shape : ∃ base, Shape t base
  get : ∀ k, btreeGet t k = lastValue past k

theorem Follows.call {past : List (IndexCall σ)} {t : Btree} (h : Follows past t) {call : IndexCall σ}
    (valid : call.Valid) (s : σ) : ∃ t' s', call.run t s = some (0, t', s') ∧ Follows (past ++ [call]) t' := by
  obtain ⟨base, shape⟩ := h.shape
  obtain ⟨t', base', s', run, shape', get⟩ := run_spec shape valid s
  refine ⟨t', s', run, ⟨base', shape'⟩, fun k => ?_⟩
  simp only [get, h.get, lastValue, reverse_append, reverse_singleton, singleton_append, List.find?_cons]
  cases call.covers k <;> rfl

theorem Follows.calls {past : List (IndexCall σ)} {t : Btree} (h : Follows past t)
    (calls : List (IndexCall σ)) (valid : ∀ call ∈ calls, call.Valid) (s : σ) :
    ∃ t' s', runCalls calls t s = some (t', s') ∧ Follows (past ++ calls) t' := by
  induction calls generalizing past t s with
  | nil => exact ⟨t, s, rfl, by rwa [append_nil]⟩
  | cons call rest ih =>
    obtain ⟨t1, s1, run, follows⟩ := h.call (valid call mem_cons_self) s
    obtain ⟨t', s', runs, follows'⟩ :=
      ih follows (fun c member => valid c (mem_cons_of_mem _ member)) s1
    rw [append_assoc, singleton_append] at follows'
    exact ⟨t', s', by simp only [runCalls, run, runs], follows'⟩

theorem Follows.callback {past : List (IndexCall σ)} (h : Follows past t) {start stop : Nat}
    (nonempty : start < stop) (low : stop ≤ 2 ^ 31) (ptr : Option Nat) (callback : Nat → Int → σ → σ) (s : σ) :
    ∃ t', (setRangeCallback start stop ptr callback).run t s =
      some (0, t', (heldIn (lastValue past) start stop).foldl (fun s held => callback held.1 held.2 s) s) := by
  obtain ⟨base, shape⟩ := h.shape
  obtain ⟨t', _, set, _⟩ := shape.set_range callback ptr nonempty (lt_of_le_of_lt low (by decide)) s
  rw [overRange_eq_foldl callback _ (by omega), Nat.add_sub_cancel' nonempty.le, funext h.get] at set
  exact ⟨t', set⟩

/-- After any sequence of calls on a new tree, every key has the value of the last call that
covers it, and the next `btree_set_range_callback` calls its callback once for each value in
its range, in ascending order of the keys. -/
theorem index_is_map {grants : Nat → Bool} (granted : ∀ n, grants n = true) (calls : List (IndexCall σ))
    (valid : ∀ call ∈ calls, call.Valid) (s : σ) :
    ∃ t0 t s', btreeCreate grants = some t0 ∧ runCalls calls t0 s = some (t, s') ∧
      (∀ key, key < maxKeys t.height → btreeGet t key = lastValue calls key) ∧
      ∀ start stop ptr callback, start < stop → stop ≤ 2 ^ 31 →
        ∃ t', (setRangeCallback start stop ptr callback).run t s' = some (0, t',
          (heldIn (lastValue calls) start stop).foldl (fun s held => callback held.1 held.2 s) s') := by
  obtain ⟨t0, create, shape, empty⟩ := btreeCreate_spec granted
  have new : Follows ([] : List (IndexCall σ)) t0 := ⟨⟨_, shape⟩, empty⟩
  obtain ⟨t, s', run, follows⟩ := new.calls calls valid s
  rw [nil_append] at follows
  exact ⟨t0, t, s', create, run, fun key _ => follows.get key,
    fun start stop ptr callback nonempty low => follows.callback nonempty low ptr callback s'⟩

/-- A range of five keys is set, one of them is overwritten and two are cleared. -/
def fiveKeys : List (IndexCall (List (Nat × Int))) :=
  [.setRange 254 259 (some 7), .set 256 (some 8), .setRange 257 259 none]

/-- A callback over all of them is called for the three values that are left. -/
theorem index_is_map_three : ∃ t0 t s', btreeCreate (fun _ => true) = some t0 ∧
    runCalls fiveKeys t0 [] = some (t, s') ∧
    (∀ key, key < maxKeys t.height → btreeGet t key = lastValue fiveKeys key) ∧
    ∃ t', (setRangeCallback 250 260 none fun v k s => s ++ [(v, k)]).run t s' =
      some (0, t', s' ++ [(7, 254), (7, 255), (8, 256)]) := by
  obtain ⟨t0, t, s', create, run, get, callback⟩ :=
    index_is_map (fun _ => rfl) fiveKeys (by simp [fiveKeys, Valid]) []
  obtain ⟨t', last⟩ := callback 250 260 none (fun v k s => s ++ [(v, k)]) (by decide) (by decide)
  have held : heldIn (lastValue fiveKeys) 250 260 = [(7, 254), (7, 255), (8, 256)] := by decide
  rw [held] at last
  refine ⟨t0, t, s', create, run, get, t', ?_⟩
  simpa using last

/-! ## Growth -/

/-- The expansion loop stops inside of `max_keys`, and `key` fits below the root. -/
def GrowthStops (t : Btree) (limit key : Nat) : Prop :=
  ∃ t', btreeGrow t limit = some t' ∧ t'.height < 10 ∧ key < 256 ^ (t'.height + 1)

theorem growLoop_lt {t' : Btree} {limit fuel : Nat} (loop : growLoop limit fuel t = some t') :
    limit < maxKeys t'.height := by
  induction fuel generalizing t with
  | zero => cases loop
  | succ fuel ih =>
    rw [growLoop] at loop
    split at loop
    · obtain ⟨t1, _, rest⟩ := bind_eq_some_iff.mp loop
      exact ih rest
    · cases loop
      omega

theorem GrowthStops.low {limit key : Nat} (stops : GrowthStops t limit key) : limit < 2 ^ 56 ∧ key < 2 ^ 56 := by
  obtain ⟨t', loop, table, key⟩ := stops
  have below := growLoop_lt loop
  have low : t'.height ≤ 6 := by
    by_contra high
    have wrapped : ∀ h < 10, 6 < h → maxKeys h = 0 := by decide
    rw [wrapped _ table (by omega)] at below
    omega
  rw [maxKeys_eq low] at below
  have most : 256 ^ (t'.height + 1) ≤ 256 ^ 7 := Nat.pow_le_pow_right (by decide) (by omega)
  omega

/-- Both loops stop for a key, the second one with the end behind it, if and only if the end is
below `2 ^ 56`. -/
theorem index_growth_iff (h : Shape t base) (key : Nat) :
    GrowthStops t key key ∧ GrowthStops t (wrap64 (key + 1)) key ↔ key + 1 < 2 ^ 56 := by
  constructor
  · rintro ⟨first, second⟩
    have := first.low
    have := second.low
    simp only [wrap64] at this
    omega
  intro low
  have stops (limit : Nat) (le : key ≤ limit) (low : limit < 2 ^ 56) : GrowthStops t limit key := by
    have := h.low
    obtain ⟨t', base', grown, extend, reach⟩ := h.grow_extends low (10 - t.height) (by omega)
    have := extend.refines.shape.low
    exact ⟨t', grown, by omega, by omega⟩
  rw [wrap64_of_lt (by omega)]
  exact ⟨stops key le_rfl (by omega), stops (key + 1) (by omega) low⟩

/-- Key 256 is behind the keys of a new tree, which grows. -/
theorem index_growth_iff_new : ∃ t base, Shape t base ∧ maxKeys t.height = 256 ∧ GrowthStops t 256 256 := by
  obtain ⟨t, create, shape, _⟩ := @btreeCreate_spec (fun _ => true) fun _ => rfl
  have height : maxKeys t.height = 256 := by
    cases create
    rfl
  exact ⟨t, _, shape, height, ((index_growth_iff shape 256).mpr (by decide)).1⟩

/-- For key `2 ^ 56` a new tree grows beyond the table. -/
theorem growth_leaves_table : ∃ t, btreeCreate (fun _ => true) = some t ∧ btreeGrow t (2 ^ 56) = none ∧
    ¬ GrowthStops t (2 ^ 56) (2 ^ 56) := by
  obtain ⟨t, create, -⟩ := @btreeCreate_spec (fun _ => true) fun _ => rfl
  refine ⟨t, create, ?_, fun stops => absurd stops.low.1 (lt_irrefl _)⟩
  cases create
  rfl

/-! ## First keys -/

/-- The nodes that `btree_pos` goes through. -/
def posPath (t : Btree) : Nat → Nat → Nat → List Nat
  | fuel, node, key =>
    if (t.nodes node).height = 0 then [node]
    else
      match fuel with
      | 0 => [node]
      | fuel + 1 =>
        let span := maxKeys ((t.nodes node).height - 1)
        match (t.nodes node).children (key / span) with
        | some child => node :: posPath t fuel child (key % span)
        | none => [node]

/-- The `start` of a node is the least key that leads through it. If it is not 0, as in all that
have been roots, it has been computed with an entry of the table. -/
def StartsKnown (t : Btree) : Prop := ∀ n < t.arena.asked, t.arena.grants n = true →
  IsLeast {key | n ∈ posPath t t.height t.root key} (t.nodes n).start ∧
  ((t.nodes n).start ≠ 0 → sub64 (t.nodes n).height 1 < 10)

/-- The first node has room for the keys and for the end of the range. -/
def IndexCall.Low : IndexCall σ → Prop
  | set key _ => key < 256
  | setRange start stop _ => start < stop → stop < 256
  | setRangeCallback start stop _ _ => start < stop → stop < 256

def LowStep (x y : Btree × σ) : Prop :=
  ∃ (call : IndexCall σ) (ret : Int), call.Low ∧ call.run x.1 x.2 = some (ret, y)

/-- There is only the node of `btree_create`. -/
structure OneNode (t : Btree) : Prop where
  asked : t.arena.asked = 1
  root : t.root = 0
  height : t.height = 0
  leaf : (t.nodes 0).height = 0
  start : (t.nodes 0).start = 0

section
variable (h : OneNode t)
include h

theorem OneNode.setChild (index : Nat) (ptr : Option Nat) : OneNode (t.setChild 0 index ptr) where
  asked := h.asked
  root := h.root
  height := h.height
  leaf := by rw [setChild_height, h.leaf]
  start := by simp [Btree.setChild, Btree.setNode, h.start]

theorem OneNode.grow {limit : Nat} (low : limit < 256) : btreeGrow t limit = some t := by
  have table : maxKeys 0 = 256 := by decide
  rw [btreeGrow, h.height, growLoop, h.height, table, if_neg (by omega)]

theorem OneNode.pos (key : Nat) : btreePos t key true = (0, some (0, key), t) := by
  rw [btreePos, h.height, h.root, posLoop, if_pos h.leaf]

theorem OneNode.known : StartsKnown t := by
  intro n live _
  obtain rfl : n = 0 := by
    have := h.asked
    omega
  rw [h.start, h.height, h.root]
  exact ⟨⟨by simp [posPath, h.leaf], fun key _ => Nat.zero_le key⟩, fun ne => absurd rfl ne⟩

theorem OneNode.loop {callback : Nat → Int → σ → Int × σ} {ptr : Option Nat} {start stop fuel : Nat}
    (more : start < stop) (low : stop < 256) {s s' : σ} {ret : Int} {t' : Btree}
    (ran : setRangeLoop callback ptr stop fuel t s (0, start) start = some (ret, t', s')) : OneNode t' := by
  induction fuel generalizing t s start with
  | zero => cases ran
  | succ fuel ih =>
    have next : btreeNext (t.setChild 0 start ptr) 0 start true = (0, some (0, start + 1), t.setChild 0 start ptr) := by
      simp [btreeNext, show start + 1 < 256 by omega]
    simp only [setRangeLoop, next, ne_eq, not_true_eq_false, if_false, bind_some] at ran
    split_ifs at ran with refused onward
    · exact ih (h.setChild start ptr) onward ran
    · cases ran
      exact h.setChild start ptr
    · cases ran
      exact h

theorem OneNode.setRange {callback : Nat → Int → σ → Int × σ} {ptr : Option Nat} {start stop : Nat}
    (low : start < stop → stop < 256) {s s' : σ} {ret : Int} {t' : Btree}
    (ran : btreeSetRangeCallback t start stop ptr callback s = some (ret, t', s')) : OneNode t' := by
  rw [btreeSetRangeCallback] at ran
  split at ran
  · cases ran
    exact h
  · rename_i more
    have low := low (not_le.mp more)
    simp only [h.grow low, bind_some, h.pos, ne_eq, not_true_eq_false, if_false] at ran
    exact h.loop (not_le.mp more) low ran

end

theorem OneNode.step {x y : Btree × σ} (h : OneNode x.1) (step : LowStep x y) : OneNode y.1 := by
  obtain ⟨call, ret, low, ran⟩ := step
  cases call with
  | set key ptr =>
    obtain ⟨out, set, eq⟩ := map_eq_some_iff.mp ran
    simp only [btreeSet, h.grow low, bind_some, h.pos, ne_eq, not_true_eq_false, if_false,
      map_some] at set
    cases set
    cases eq
    exact h.setChild key ptr
  | setRange start stop ptr =>
    obtain ⟨out, set, eq⟩ := map_eq_some_iff.mp ran
    obtain ⟨⟨ret', t', u⟩, loop, rfl⟩ := map_eq_some_iff.mp set
    cases eq
    exact h.setRange low loop
  | setRangeCallback start stop ptr callback => exact h.setRange low ran

/-- As long as the first node has room for all keys, every node knows its first one. -/
theorem index_starts_known {grants : Nat → Bool} {t0 : Btree} (create : btreeCreate grants = some t0) {s0 : σ}
    {x : Btree × σ} (run : Run LowStep (t0, s0) x) : StartsKnown x.1 := by
  have new : OneNode t0 := by
    cases granted : grants 0 with
    | false => simp [btreeCreate, btreeNodeCreate, Arena.alloc, granted] at create
    | true =>
      simp only [btreeCreate, btreeNodeCreate, Arena.alloc, granted, if_true, Option.some.injEq] at create
      subst create
      exact ⟨rfl, rfl, rfl, rfl, rfl⟩
  exact (run.invariant (I := fun x : Btree × σ => OneNode x.1) (fun h step => h.step step) new).known

theorem index_starts_known_last : ∃ t0 x, btreeCreate (fun _ => true) = some t0 ∧ Run LowStep (t0, ()) x ∧
    btreeGet x.1 255 = some 7 ∧ StartsKnown x.1 := by
  obtain ⟨t0, create, shape, _⟩ := @btreeCreate_spec (fun _ => true) fun _ => rfl
  obtain ⟨t, _, set, _, get⟩ := shape.set (some 7) (show 255 < 256 ^ 7 by decide)
  have run : Run LowStep (t0, ()) (t, ()) :=
    .single ⟨.set 255 (some 7), 0, show 255 < 256 by decide, by simp [IndexCall.run, set]⟩
  exact ⟨t0, _, create, run, by rw [get, if_pos rfl], index_starts_known create run⟩

/-- For the leaf of key 65536 the entry in front of the table is read, and the node above that leaf
starts at 256. -/
theorem start_read_before_table : ∃ t, ((btreeCreate fun _ => true).bind fun t => btreeSet t 65536 (some 7)) =
      some (0, t) ∧ sub64 (t.nodes 4).height 1 = 2 ^ 64 - 1 ∧ ¬ StartsKnown t := by
  have run : ((btreeCreate fun _ => true).bind fun t => btreeSet t 65536 (some 7)).map (fun out =>
      (out.1, decide (3 < out.2.arena.asked) && out.2.arena.grants 3, sub64 (out.2.nodes 4).height 1,
        (out.2.nodes 3).start, posPath out.2 out.2.height out.2.root 256)) =
      some (0, true, 2 ^ 64 - 1, 256, [2, 1]) := by
    decide +kernel
  obtain ⟨⟨ret, t⟩, call, eq⟩ := map_eq_some_iff.mp run
  simp only [Prod.mk.injEq] at eq
  obtain ⟨rfl, live, table, start, path⟩ := eq
  rw [Bool.and_eq_true, decide_eq_true_eq] at live
  refine ⟨t, call, table, fun known => ?_⟩
  have leads := (known 3 live.1 live.2).1.1
  rw [start, Set.mem_ofPred_eq, path] at leads
  simp at leads

end SlotFs
