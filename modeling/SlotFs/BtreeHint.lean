import SlotFs.BtreeMap
import SlotFs.Lib.Runs

/-!
# Lookups with a hint

`btree_get_ptr_hint` starts from the place of the last lookup. As long as the hint is at the
cell of its key, the shortcut over `btree_next` creates the same nodes and ends in the same cell
as `btree_pos` does from the root, and no growth of the tree moves a cell.
-/

namespace SlotFs
open CWord Runs Option

variable {base base' : Nat → Nat} {hint hint' : BtreePtr} {index key limit m n node start : Nat}
  {ptr : Option Nat} {t t' : Btree}

section
variable {t : Btree} {base : Nat → Nat}

section
variable (h : Shape t base)
include h

theorem CellOf.lt_capacity (c : CellOf t base key node index) : key < 256 ^ 7 := by
  have last := (h.root_covers c.covers).last
  rw [h.topBase, h.topHeight, Nat.zero_add] at last
  exact last.trans_le (Nat.pow_le_pow_right (by decide) (Nat.succ_le_succ h.low))

end

/-- The lookup of `key` finds the cell of `k`, and leaves the tree that `btree_pos` for `k` leaves. -/
def FindsCell (t : Btree) (base : Nat → Nat) (hint : BtreePtr) (key k : Nat) : Prop :=
  ∃ t' base' node index, btreePos t k true = (0, some (node, index), t') ∧
    btreeGetPtrHint t key hint = (some (node, index), t', ⟨some node, index, key⟩) ∧
    Extends t base t' base' ∧ t'.height = t.height ∧ CellOf t' base' k node index

theorem FindsCell.get {k : Nat} (finds : FindsCell t base hint key k) :
    (btreeGetHint t key hint).1 = btreeGet t k := by
  obtain ⟨t', base', node, index, _, found, extend, _, place⟩ := finds
  simp only [btreeGetHint, found]
  rw [← place.get extend.refines.shape, extend.refines.get]

theorem Shape.findsCell (h : Shape t base) {hint : BtreePtr} {key k : Nat} (fits : k < 256 ^ (t.height + 1))
    (aims : ∀ node index t', btreePos t k true = (0, some (node, index), t') →
      btreeGetPtrHint t key hint = (some (node, index), t', ⟨some node, index, key⟩)) :
    FindsCell t base hint key k := by
  obtain ⟨t', base', node, index, found, extend, same, place⟩ := h.pos_root fits
  exact ⟨t', base', node, index, found, aims node index t' found, extend, same, place⟩

/-- Where a lookup of `key` ends that starts at the cell of `k` with a hint for `hinted`. -/
def hintAim (k hinted key : Nat) : Nat :=
  if hinted = key then k else if key = hinted + 1 then k + 1 else key

@[simp] theorem hintAim_self (k key : Nat) : hintAim k k key = key := by
  unfold hintAim
  split_ifs <;> omega

theorem CellOf.findsCell (h : Shape t base) {k node index : Nat} (c : CellOf t base k node index)
    {hinted key : Nat} (low : hinted < 256 ^ 7) (fits : hintAim k hinted key < 256 ^ (t.height + 1)) :
    FindsCell t base ⟨some node, index, hinted⟩ key (hintAim k hinted key) := by
  have small : hinted + 1 < 2 ^ 64 := Nat.lt_of_le_of_lt (Nat.succ_le_of_lt low) (by decide)
  refine h.findsCell fits fun node' index' t' found => ?_
  unfold hintAim at found fits
  simp only [btreeGetPtrHint, wrap64_of_lt small]
  by_cases again : hinted = key
  · rw [if_pos again] at found fits
    rw [c.pos h fits] at found
    cases found
    simp only [again, if_true]
  rw [if_neg again] at found fits ⊢
  by_cases next : key = hinted + 1
  · rw [if_pos next] at found fits ⊢
    simp only [c.next_eq_pos h fits, found]
  · rw [if_neg next] at found ⊢
    simp only [found]

/-- The hint is empty or at the cell of its key. -/
def BtreePtr.AtCell (hint : BtreePtr) (t : Btree) (base : Nat → Nat) : Prop :=
  ∀ node, hint.node = some node → CellOf t base hint.key node hint.index

theorem BtreePtr.AtCell.keeps (at' : hint.AtCell t base) (keeps : Keeps t base t' base') : hint.AtCell t' base' :=
  fun node set => keeps.cell (at' node set)

theorem BtreePtr.AtCell.findsCell {hint : BtreePtr} (at' : hint.AtCell t base) (h : Shape t base)
    {key : Nat} (fits : key < 256 ^ (t.height + 1)) : FindsCell t base hint key key := by
  obtain ⟨node, index, hinted⟩ := hint
  cases node with
  | none =>
    refine h.findsCell fits fun node index t' found => ?_
    simp only [btreeGetPtrHint, found]
  | some node =>
    have c : CellOf t base hinted node index := at' node rfl
    have finds := @CellOf.findsCell t base h hinted node index c hinted key (c.lt_capacity h)
    rw [hintAim_self] at finds
    exact finds fits

/-! ## Histories of a tree and its hint -/

theorem maxKeys_le (h : Nat) : maxKeys h ≤ 256 ^ 7 := by
  by_cases low : h ≤ 6
  · rw [maxKeys_eq low]
    exact Nat.pow_le_pow_right (by decide) (by omega)
  · by_cases mid : h < 10
    · interval_cases h <;> decide
    · simp [maxKeys, mid]

theorem growLoop_eq_none (far : 256 ^ 7 ≤ limit) (fuel : Nat) (t : Btree) : growLoop limit fuel t = none := by
  induction fuel generalizing t with
  | zero => rfl
  | succ fuel ih =>
    rw [growLoop, if_pos ((maxKeys_le _).trans far)]
    cases btreeExpand t with
    | none => rfl
    | some t' => exact ih t'

theorem Shape.grown (h : Shape t base) (grown : btreeGrow t limit = some t') :
    ∃ base', Extends t base t' base' ∧ limit < 256 ^ (t'.height + 1) := by
  have low := h.low
  by_cases far : 256 ^ 7 ≤ limit
  · rw [btreeGrow, growLoop_eq_none far] at grown
    cases grown
  obtain ⟨t1, base', eq, extend, reach⟩ := h.grow_extends (not_le.mp far) (10 - t.height) (by omega)
  rw [btreeGrow, eq] at grown
  cases grown
  exact ⟨base', extend, reach⟩

/-- The tree is one again, and no cell has moved. -/
def Settles (t : Btree) (base : Nat → Nat) (t' : Btree) : Prop :=
  ∃ base', Shape t' base' ∧ Keeps t base t' base'

theorem Extends.settles {t'' : Btree} (h : Extends t base t' base') (settles : Settles t' base' t'') :
    Settles t base t'' := by
  obtain ⟨base'', shape, keeps⟩ := settles
  exact ⟨base'', shape, h.toKeeps.trans keeps⟩

theorem Shape.set_settles (h : Shape t base) {ret : Int} (set : btreeSet t key ptr = some (ret, t')) :
    Settles t base t' := by
  rw [btreeSet] at set
  obtain ⟨t1, grown, set⟩ := bind_eq_some_iff.mp set
  obtain ⟨base1, extend, reach⟩ := h.grown grown
  have h1 := extend.refines.shape
  obtain ⟨t2, base2, node, index, found, extend', _, place⟩ := h1.pos_root reach
  simp only [found, ne_eq, not_true_eq_false, if_false, map_some, some.injEq,
    Prod.mk.injEq] at set
  rw [← set.2]
  exact extend.settles (extend'.settles
    ⟨base2, extend'.refines.shape.setChild place ptr, Keeps.setChild node index ptr⟩)

variable {σ : Type}

/-- Whatever the callback answers. -/
theorem Shape.loop_settles (h : Shape t base) {callback : Nat → Int → σ → Int × σ} {ptr : Option Nat}
    {start stop node index fuel : Nat} (c : CellOf t base start node index) (more : start < stop)
    (low : stop < 256 ^ (t.height + 1)) {s s' : σ} {ret : Int} {t' : Btree}
    (ran : setRangeLoop callback ptr stop fuel t s (node, index) start = some (ret, t', s')) :
    Settles t base t' := by
  induction fuel generalizing t base start node index s with
  | zero => cases ran
  | succ fuel ih =>
    obtain ⟨t1, base1, node1, index1, next, shape, keeps, same, place, _⟩ :=
      h.turn ptr c (by omega)
    simp only [setRangeLoop, next, ne_eq, not_true_eq_false, if_false, bind_some] at ran
    split_ifs at ran
    · obtain ⟨base', shape', keeps'⟩ := ih shape place (by omega) (by rw [same]; exact low) ran
      exact ⟨base', shape', keeps.trans keeps'⟩
    · cases ran
      exact ⟨base1, shape, keeps⟩
    · cases ran
      exact ⟨base, h, h.refl.toKeeps⟩

theorem Shape.setRange_settles (h : Shape t base) {callback : Nat → Int → σ → Int × σ}
    {ptr : Option Nat} {start stop : Nat} {s s' : σ} {ret : Int} {t' : Btree}
    (set : btreeSetRangeCallback t start stop ptr callback s = some (ret, t', s')) : Settles t base t' := by
  rw [btreeSetRangeCallback] at set
  split at set
  · cases set
    exact ⟨base, h, h.refl.toKeeps⟩
  obtain ⟨t1, grown, set⟩ := bind_eq_some_iff.mp set
  obtain ⟨base1, extend, reach⟩ := h.grown grown
  have h1 := extend.refines.shape
  obtain ⟨t2, base2, node, index, found, extend', same, place⟩ := h1.pos_root (show start < _ by omega)
  simp only [found, ne_eq, not_true_eq_false, if_false, bind_some] at set
  exact extend.settles (extend'.settles
    (extend'.refines.shape.loop_settles place (by omega) (by rw [same]; exact reach) set))

end

/-- A tree, the one hint of its lookups, and the state of the callbacks. -/
structure HintedTree (σ : Type) where
  tree : Btree
  hint : BtreePtr
  ctx : σ

open HintedTree

inductive HintedCall (σ : Type)
  | set (key : Nat) (ptr : Option Nat)
  | setRange (start stop : Nat) (ptr : Option Nat) (callback : Nat → Int → σ → Int × σ)
  | lookup (key : Nat)

open HintedCall

variable {σ : Type}

def HintedCall.run (x : HintedTree σ) : HintedCall σ → Option (HintedTree σ)
  | set key ptr => (btreeSet x.tree key ptr).map fun out => { x with tree := out.2 }
  | setRange start stop ptr callback =>
    (btreeSetRangeCallback x.tree start stop ptr callback x.ctx).map fun out =>
      { x with tree := out.2.1, ctx := out.2.2 }
  | lookup key =>
    let out := btreeGetPtrHint x.tree key x.hint
    some { x with tree := out.2.1, hint := out.2.2 }

/-- A lookup is for a key that the tree has room for. -/
def HintedCall.Within (x : HintedTree σ) : HintedCall σ → Prop
  | set _ _ => True
  | setRange _ _ _ _ => True
  | lookup key => key < maxKeys x.tree.height

def HintedTree.Step (x y : HintedTree σ) : Prop :=
  ∃ call : HintedCall σ, call.Within x ∧ call.run x = some y

def HintedTree.Sound (x : HintedTree σ) : Prop :=
  ∃ base, Shape x.tree base ∧ x.hint.AtCell x.tree base

theorem HintedTree.Sound.settles {x : HintedTree σ} (at' : x.hint.AtCell x.tree base)
    (settles : Settles x.tree base t) (ctx : σ) : Sound { x with tree := t, ctx := ctx } := by
  obtain ⟨base', shape, keeps⟩ := settles
  exact ⟨base', shape, at'.keeps keeps⟩

theorem HintedTree.Sound.step {x y : HintedTree σ} (sound : x.Sound) (step : x.Step y) : y.Sound := by
  obtain ⟨base, shape, at'⟩ := sound
  obtain ⟨call, within, ran⟩ := step
  cases call with
  | set key ptr =>
    obtain ⟨out, set, rfl⟩ := map_eq_some_iff.mp ran
    exact Sound.settles at' (shape.set_settles set) x.ctx
  | setRange start stop ptr callback =>
    obtain ⟨out, set, rfl⟩ := map_eq_some_iff.mp ran
    exact Sound.settles at' (shape.setRange_settles set) out.2.2
  | lookup key =>
    have fits : key < 256 ^ (x.tree.height + 1) := by rwa [← maxKeys_eq shape.low]
    obtain ⟨t', base', node, index, _, found, extend, _, place⟩ := at'.findsCell shape fits
    simp only [run, found, some.injEq] at ran
    subst ran
    refine ⟨base', extend.refines.shape, fun node' set => ?_⟩
    cases set
    exact place

/-- Where every lookup before was for a key that the tree had room for, a lookup with the hint is
a lookup without it. -/
theorem hinted_lookup_is_plain {grants : Nat → Bool} (granted : ∀ n, grants n = true) {t0 : Btree}
    (create : btreeCreate grants = some t0) {hint0 : BtreePtr} (empty : hint0.node = none) {s0 : σ}
    {x : HintedTree σ} (run : Run Step ⟨t0, hint0, s0⟩ x) {key : Nat}
    (fits : key < maxKeys x.tree.height) :
    ∃ node index t', btreePos x.tree key true = (0, some (node, index), t') ∧
      btreeGetPtrHint x.tree key x.hint = (some (node, index), t', ⟨some node, index, key⟩) ∧
      (btreeGetHint x.tree key x.hint).1 = btreeGet x.tree key := by
  obtain ⟨t, created, shape, _⟩ := btreeCreate_spec granted
  cases create.symm.trans created
  have start : Sound ⟨t0, hint0, s0⟩ := ⟨_, shape, fun node set => by
    rw [empty] at set
    cases set⟩
  obtain ⟨base, shape', at'⟩ := Run.invariant (I := Sound) (fun s t => s.step t) run start
  rw [maxKeys_eq shape'.low] at fits
  have finds := at'.findsCell shape' fits
  have value := finds.get
  obtain ⟨t', base', node, index, pos, found, _⟩ := finds
  exact ⟨node, index, t', pos, found, value⟩

/-- A new tree with an empty hint. -/
def newHinted : Option (HintedTree Unit) :=
  (btreeCreate fun _ => true).map fun tree => ⟨tree, ⟨none, 0, 0⟩, ()⟩

/-- The hint is set at the last key of a tree of one node, then the tree grows, and the next
lookup goes on to the other leaf. -/
theorem hinted_lookup_is_plain_grown : ∃ t0 x, btreeCreate (fun _ => true) = some t0 ∧
    Run Step ⟨t0, ⟨none, 0, 0⟩, ()⟩ x ∧ x.hint.key = 255 ∧ x.tree.height = 1 ∧
    ∃ node index t', btreePos x.tree 256 true = (0, some (node, index), t') ∧
      btreeGetPtrHint x.tree 256 x.hint = (some (node, index), t', ⟨some node, index, 256⟩) ∧
      (btreeGetHint x.tree 256 x.hint).1 = btreeGet x.tree 256 := by
  obtain ⟨t0, create⟩ : ∃ t0, btreeCreate (fun _ => true) = some t0 := ⟨_, rfl⟩
  have one : Step ⟨t0, ⟨none, 0, 0⟩, ()⟩ ⟨t0, ⟨some 0, 255, 255⟩, ()⟩ := by
    cases create
    exact ⟨.lookup 255, show 255 < maxKeys 0 by decide, rfl⟩
  have grown : ((btreeCreate fun _ => true).bind fun t => btreeSet t 256 (some 7)).map
      (fun out => out.2.height) = some 1 := by decide +kernel
  rw [create, bind_some] at grown
  obtain ⟨⟨ret, t1⟩, set, height⟩ := map_eq_some_iff.mp grown
  have two : Step ⟨t0, ⟨some 0, 255, 255⟩, ()⟩ ⟨t1, ⟨some 0, 255, 255⟩, ()⟩ :=
    ⟨.set 256 (some 7), trivial, by simp [run, set]⟩
  have run := (Relation.ReflTransGen.single one).tail two
  exact ⟨t0, _, create, run, rfl, height,
    hinted_lookup_is_plain (fun _ => rfl) create rfl run
      (by change 256 < maxKeys t1.height; rw [height]; decide)⟩

/-- A lookup at the end of a full tree leaves the hint at cell 0. When the tree has grown, the
hint is still there: the key is looked up in vain. -/
theorem hinted_lookup_beyond_tree :
    (newHinted.bind fun x => ((lookup 255).run x).bind fun x =>
      ((lookup 256).run x).bind fun x => (set 256 (some 7)).run x).map (fun x =>
        (maxKeys x.tree.height, (btreeGetPtrHint x.tree 256 x.hint).1, (btreePos x.tree 256 true).2.1,
          (btreeGetHint x.tree 256 x.hint).1, btreeGet x.tree 256)) =
      some (65536, some (0, 0), some (2, 0), none, some 7) := by
  decide +kernel

/-! ## Ranges with a hint -/

/-- How many of `n` keys from `start` on are set before the callback refuses an old value. -/
def accepted (callback : Nat → σ → Int × σ) (m : Nat → Option Nat) : Nat → Nat → σ → Nat
  | _, 0, _ => 0
  | start, n + 1, s =>
    match m start with
    | some v =>
      if (callback v s).1 ≠ 0 then 0 else accepted callback m (start + 1) n (callback v s).2 + 1
    | none => accepted callback m (start + 1) n s + 1

section
variable (callback : Nat → σ → Int × σ)
include callback

theorem accepted_congr {m m' : Nat → Option Nat} (same : ∀ k, start ≤ k → m k = m' k) (s : σ) :
    accepted callback m start n s = accepted callback m' start n s := by
  induction n generalizing start s with
  | zero => rfl
  | succ n ih =>
    have rest := @ih (start + 1) (fun k lo => same k (by omega))
    simp only [accepted, same start le_rfl, rest]

theorem accepted_le (m : Nat → Option Nat) (start n : Nat) (s : σ) : accepted callback m start n s ≤ n := by
  induction n generalizing start s with
  | zero => exact le_rfl
  | succ n ih =>
    rw [accepted]
    split
    · split
      · exact Nat.zero_le _
      · exact Nat.succ_le_succ (ih _ _)
    · exact Nat.succ_le_succ (ih _ _)

theorem setRangeHintLoop_plain (ptr : Option Nat) (stop key fuel : Nat) (t : Btree) (s : σ) (hint : BtreePtr)
    (pos : Nat × Nat) (start : Nat) : (setRangeHintLoop callback ptr stop key fuel t s hint pos start).map
        (fun out => (out.1, out.2.1, out.2.2.2)) =
      setRangeLoop (fun v _ s => callback v s) ptr stop fuel t s pos start := by
  induction fuel generalizing t s hint pos start with
  | zero => rfl
  | succ fuel ih =>
    obtain ⟨node, index⟩ := pos
    simp only [setRangeHintLoop, setRangeLoop]
    cases (t.nodes node).children index <;> simp only <;> split_ifs <;> try rfl
    all_goals
      rw [map_bind]
      congr 1
      funext pos
      exact ih _ _ _ _ _

end

/-- What the loop leaves after `m` keys: the hint is at the cell of the last of them, with the `key`
it had before. -/
structure HintLeft (t : Btree) (ptr : Option Nat) (start key : Nat) (hint : BtreePtr) (m : Nat)
    (t' : Btree) (base' : Nat → Nat) (hint' : BtreePtr) : Prop where
  shape : Shape t' base'
  height : t'.height = t.height
  get : ∀ k, btreeGet t' k = if start ≤ k ∧ k < start + m then ptr else btreeGet t k
  untouched : m = 0 → hint' = hint
  last : ∀ m', m = m' + 1 → ∃ node index, hint' = ⟨some node, index, key⟩ ∧
    CellOf t' base' (start + m') node index

open HintLeft

theorem HintLeft.none (h : Shape t base) (ptr : Option Nat) (start key : Nat) (hint : BtreePtr) :
    HintLeft t ptr start key hint 0 t base hint where
  shape := h
  height := rfl
  get k := by rw [if_neg (by omega)]
  untouched _ := rfl
  last m' eq := by omega

/-- One more key before the others. -/
theorem HintLeft.cons {t1 : Btree} {base1 : Nat → Nat} (height : t1.height = t.height)
    (get : ∀ k, btreeGet t1 k = if k = start then ptr else btreeGet t k) (keeps : Keeps t1 base1 t' base')
    (cell : CellOf t1 base1 start node index)
    (rest : HintLeft t1 ptr (start + 1) key ⟨some node, index, key⟩ m t' base' hint') :
    HintLeft t ptr start key hint (m + 1) t' base' hint' where
  shape := rest.shape
  height := rest.height.trans height
  get k := by
    rw [rest.get, get]
    by_cases first : k = start
    · rw [if_neg (by omega), if_pos first, if_pos (by omega)]
    · rw [if_neg first]
      simp only [show (start + 1 ≤ k ∧ k < start + 1 + m) ↔ (start ≤ k ∧ k < start + (m + 1)) by omega]
  untouched eq := by omega
  last m' eq := by
    cases m with
    | zero =>
      obtain rfl : m' = 0 := by omega
      exact ⟨node, index, rest.untouched rfl, keeps.cell cell⟩
    | succ m =>
      obtain ⟨node', index', set, place⟩ := rest.last m rfl
      exact ⟨node', index', set, by rwa [show start + m' = start + 1 + m by omega]⟩

def HintRan (t : Btree) (base : Nat → Nat) (ptr : Option Nat) (start key : Nat) (hint : BtreePtr)
    (m : Nat) (out : Option (Int × Btree × BtreePtr × σ)) : Prop :=
  ∃ ret t' base' hint' s', out = some (ret, t', hint', s') ∧ Keeps t base t' base' ∧
    HintLeft t ptr start key hint m t' base' hint'

/-- The callback decides whether the turn goes on to the next key. -/
theorem CellOf.hintTurn (h : Shape t base) {callback : Nat → σ → Int × σ} (c : CellOf t base start node index)
    {stop : Nat} {t1 : Btree} {node1 index1 : Nat}
    (next : btreeNext (t.setChild node index ptr) node index true = (0, some (node1, index1), t1))
    (onward : ∀ s, HintRan t base ptr start key hint
      (accepted callback (btreeGet t) (start + 1) n s + 1)
      (if start + 1 < stop then
        setRangeHintLoop callback ptr stop key n t1 s ⟨some node, index, key⟩ (node1, index1) (start + 1)
      else some (0, t1, ⟨some node, index, key⟩, s))) (s : σ) :
    HintRan t base ptr start key hint (accepted callback (btreeGet t) start (n + 1) s)
      (setRangeHintLoop callback ptr stop key (n + 1) t s hint (node, index) start) := by
  have old := c.get h
  cases held : btreeGet t start with
  | none =>
    simpa [setRangeHintLoop, accepted, held, ← old, next] using onward s
  | some v =>
    by_cases refused : (callback v s).1 = 0
    · simpa [setRangeHintLoop, accepted, held, ← old, next, refused] using onward (callback v s).2
    · refine ⟨-1, t, base, hint, (callback v s).2, ?_, h.refl.toKeeps, ?_⟩
      · simp [setRangeHintLoop, ← old, held, refused]
      · simpa [accepted, held, refused] using none h ptr start key hint

theorem Shape.hintLoop (h : Shape t base) (callback : Nat → σ → Int × σ) (ptr : Option Nat)
    (c : CellOf t base start node index) (n key : Nat) (fits : start + n + 1 < 256 ^ (t.height + 1)) (s : σ)
    (hint : BtreePtr) : HintRan t base ptr start key hint (accepted callback (btreeGet t) start (n + 1) s)
      (setRangeHintLoop callback ptr (start + n + 1) key (n + 1) t s hint (node, index) start) := by
  induction n generalizing t base start node index s hint with
  | zero =>
    obtain ⟨t1, base1, node1, index1, next, shape, keeps, same, place, get⟩ := h.turn ptr c (by omega)
    refine c.hintTurn h next (fun s => ?_) s
    rw [if_neg (by omega)]
    exact ⟨0, t1, base1, _, s, rfl, keeps, cons same get shape.refl.toKeeps (keeps.cell c)
      (none shape ptr _ _ _)⟩
  | succ n ih =>
    obtain ⟨t1, base1, node1, index1, next, shape, keeps, same, place, get⟩ := h.turn ptr c (by omega)
    refine c.hintTurn h next (fun s => ?_) s
    rw [if_pos (by omega), show start + (n + 1) + 1 = start + 1 + n + 1 by omega]
    obtain ⟨ret, t', base', hint', s', ran, keeps', left⟩ :=
      ih shape place (by rw [same]; omega) s ⟨some node, index, key⟩
    have rest : ∀ k, start + 1 ≤ k → btreeGet t1 k = btreeGet t k :=
      fun k lo => by rw [get, if_neg (by omega)]
    rw [accepted_congr callback rest] at left
    exact ⟨ret, t', base', hint', s', ran, keeps.trans keeps',
      cons same get keeps' (keeps.cell c) left⟩

/-- Which lookups go wrong: the one for the key after `start` goes on from the cell of the last
key that was set. -/
theorem HintLeft.honest_iff (left : HintLeft t ptr start start hint m t' base' hint')
    (before : hint.AtCell t' base') (fits : start + m < 256 ^ (t'.height + 1)) :
    (∀ key < maxKeys t'.height, (btreeGetHint t' key hint').1 = btreeGet t' key) ↔
      m ≤ 1 ∨ btreeGet t (start + m) = ptr := by
  have shape := left.shape
  rw [maxKeys_eq shape.low]
  cases m with
  | zero =>
    rw [left.untouched rfl]
    exact iff_of_true (fun key low => (before.findsCell shape low).get) (Or.inl (Nat.zero_le 1))
  | succ m =>
    obtain ⟨node, index, rfl, c⟩ := left.last m rfl
    have low : start < 256 ^ 7 := lt_of_le_of_lt (Nat.le_add_right start m) (c.lt_capacity shape)
    have value (key : Nat) (inside : key < 256 ^ (t'.height + 1)) :
        (btreeGetHint t' key ⟨some node, index, start⟩).1 =
          btreeGet t' (hintAim (start + m) start key) := by
      refine (c.findsCell shape low ?_).get
      unfold hintAim
      split_ifs <;> omega
    have first : btreeGet t' start = ptr := by rw [left.get, if_pos (by omega)]
    have past : btreeGet t' (start + m + 1) = btreeGet t (start + (m + 1)) := by
      rw [left.get, if_neg (by omega), Nat.add_assoc]
    constructor
    · intro honest
      by_cases one : m = 0
      · exact Or.inl (by omega)
      have wrong := honest (start + 1) (by omega)
      rw [value _ (by omega), hintAim, if_neg (by omega), if_pos rfl, past, left.get,
        if_pos (by omega)] at wrong
      exact Or.inr wrong
    intro fine key inside
    rw [value key inside, hintAim]
    split_ifs with again next
    · rw [← again, first, left.get, if_pos (by omega)]
    · rw [next, past]
      rcases fine with one | same
      · obtain rfl : m = 0 := by omega
        rw [left.get, if_neg (by omega)]
      by_cases one : m = 0
      · subst one
        rw [left.get, if_neg (by omega)]
      · rw [same, left.get, if_pos (by omega)]
    · rfl

/-- The range is set as without a hint. The hint is right afterwards just when no more than one
key was set, or the key after them has led to `ptr` already. -/
theorem hinted_range_honest_iff {t : Btree} {base : Nat → Nat} (h : Shape t base) {hint : BtreePtr}
    (at' : hint.AtCell t base) {start stop : Nat} (nonempty : start < stop) (low : stop < 256 ^ 7)
    (ptr : Option Nat) (callback : Nat → σ → Int × σ) (s : σ) :
    ∃ ret t' hint' s',
      btreeSetRangeHintCallbak t start stop ptr hint callback s = some (ret, t', hint', s') ∧
      btreeSetRangeCallback t start stop ptr (fun v _ s => callback v s) s = some (ret, t', s') ∧
      ((∀ key < maxKeys t'.height, (btreeGetHint t' key hint').1 = btreeGet t' key) ↔
        accepted callback (btreeGet t) start (stop - start) s ≤ 1 ∨
        btreeGet t (start + accepted callback (btreeGet t) start (stop - start) s) = ptr) := by
  have height := h.low
  obtain ⟨t1, base1, grown, extend, reach⟩ := h.grow_extends low (10 - t.height) (by omega)
  have h1 := extend.refines.shape
  obtain ⟨t2, base2, node, index, found, hinted, extend', same, place⟩ :=
    (at'.keeps extend.toKeeps).findsCell h1 (show start < _ by omega)
  obtain ⟨n, rfl⟩ : ∃ n, stop = start + n + 1 := ⟨stop - start - 1, by omega⟩
  obtain ⟨ret, t', base', hint', s', ran, keeps, left⟩ := extend'.refines.shape.hintLoop callback ptr
    place n start (by rw [same]; omega) s ⟨some node, index, start⟩
  have content (k : Nat) : btreeGet t2 k = btreeGet t k :=
    (extend'.refines.get k).trans (extend.refines.get k)
  have count : start + n + 1 - start = n + 1 := by omega
  have most := accepted_le callback (btreeGet t) start (n + 1) s
  have atStart : BtreePtr.AtCell ⟨some node, index, start⟩ t' base' := by
    intro node' set
    cases set
    exact keeps.cell place
  rw [funext content] at left
  have honest := left.honest_iff atStart (by rw [left.height, same]; omega)
  rw [content] at honest
  refine ⟨ret, t', hint', s', ?_, ?_, ?_⟩
  · rw [btreeSetRangeHintCallbak, if_neg (by omega), btreeGrow, grown, bind_some, hinted, count]
    exact ran
  · have plain := setRangeHintLoop_plain callback ptr (start + n + 1) start (n + 1) t2 s
      ⟨some node, index, start⟩ (node, index) start
    rw [ran] at plain
    rw [btreeSetRangeCallback, if_neg (by omega), btreeGrow, grown, bind_some, found, count]
    simpa using plain.symm
  · rw [count]
    exact honest

/-- One key, at the end of the first node. -/
theorem hinted_range_honest_iff_one : ∃ t base ret t' hint', Shape t base ∧
    btreeSetRangeHintCallbak t 255 256 (some 7) ⟨none, 0, 0⟩ (fun _ s => (0, s)) () =
      some (ret, t', hint', ()) ∧
    ∀ key < maxKeys t'.height, (btreeGetHint t' key hint').1 = btreeGet t' key := by
  obtain ⟨t, _, shape, empty⟩ := @btreeCreate_spec (fun _ => true) (fun _ => rfl)
  have atCell : BtreePtr.AtCell ⟨none, 0, 0⟩ t (fun _ => 0) := fun node set => by cases set
  obtain ⟨ret, t', hint', s', ran, _, honest⟩ := hinted_range_honest_iff shape atCell
    (show 255 < 256 by decide) (by decide) (some 7) (fun _ (s : Unit) => (0, s)) ()
  exact ⟨t, fun _ => 0, ret, t', hint', shape, ran, honest.mpr (Or.inl (accepted_le _ _ _ _ _))⟩

/-- Three keys are set in a new tree. The hint is for the first and at the cell of the third, so
the lookup of the second ends behind them. -/
theorem hinted_range_leaves_hint_behind :
    ((btreeCreate fun _ => true).bind fun t =>
      btreeSetRangeHintCallbak t 0 3 (some 7) ⟨none, 0, 0⟩ (fun _ s => (0, s)) ()).map (fun out =>
        (out.1, out.2.2.1.index, out.2.2.1.key, (btreeGetHint out.2.1 1 out.2.2.1).1,
          btreeGet out.2.1 1)) = some (0, 2, 0, none, some 7) := by
  decide +kernel

end SlotFs
