import SlotFs.Btree
import SlotFs.Lib.Ledger

/-!
# The block index as a map

Every node of a well-shaped tree stands for an interval of keys, its child `b`
for the `b`-th part of it. The height-0 nodes therefore stand for disjoint runs of
256 keys, which makes `btree_get` a map from keys to values, and a
`btree_set_range_callback` an update of that map on its range.
-/

namespace SlotFs
open CWord Function Option Btree Ledger

variable {b fuel index key limit n node p start : Nat} {base base' base'' : Nat → Nat} {m : Nat → Option Nat}
  {t t' t'' : Btree}

/-- Node `n` is child `b` of `p`, seen from both sides; `base` is the first key
of a node. -/
structure Linked (t : Btree) (base : Nat → Nat) (p n b : Nat) : Prop where
  above : p < t.arena.asked
  live : n < t.arena.asked
  parent : (t.nodes n).parent = some p
  branch : (t.nodes n).branchIndex = b
  bound : b < 256
  cell : (t.nodes p).children b = some n
  height : (t.nodes p).height = (t.nodes n).height + 1
  base : base n = base p + b * 256 ^ ((t.nodes n).height + 1)

/-- The shape of a tree whose nodes were all granted. -/
structure Shape (t : Btree) (base : Nat → Nat) : Prop where
  grants : ∀ n, t.arena.grants n = true
  root : t.root < t.arena.asked
  top : (t.nodes t.root).parent = none
  topHeight : (t.nodes t.root).height = t.height
  topBase : base t.root = 0
  topBranch : (t.nodes t.root).branchIndex = 0
  low : t.height ≤ 6
  bounded : ∀ n < t.arena.asked, (t.nodes n).height ≤ t.height
  orphan : ∀ n < t.arena.asked, (t.nodes n).parent = none → n = t.root
  up : ∀ n < t.arena.asked, ∀ p, (t.nodes n).parent = some p →
    Linked t base p n (t.nodes n).branchIndex
  down : ∀ n < t.arena.asked, 0 < (t.nodes n).height → ∀ b c, (t.nodes n).children b = some c →
    Linked t base n c b
  cells : ∀ n < t.arena.asked, (t.nodes n).height = 0 → ∀ i, 256 ≤ i → (t.nodes n).children i = none

structure Covers (t : Btree) (base : Nat → Nat) (n key : Nat) : Prop where
  live : n < t.arena.asked
  first : base n ≤ key
  last : key < base n + 256 ^ ((t.nodes n).height + 1)

theorem maxKeys_eq {h : Nat} (low : h ≤ 6) : maxKeys h = 256 ^ (h + 1) := by
  rw [maxKeys, if_pos (by omega), wrap64_of_lt]
  calc 256 ^ (h + 1) ≤ 256 ^ 7 := Nat.pow_le_pow_right (by decide) (by omega)
    _ < 2 ^ 64 := by decide

section
variable {t : Btree} {base : Nat → Nat}

section
variable (h : Linked t base p n b)
include h

theorem Linked.covers_parent (c : Covers t base n key) : Covers t base p key := by
  have first := c.first
  have last := c.last
  have part : (b + 1) * 256 ^ ((t.nodes n).height + 1) ≤ 256 * 256 ^ ((t.nodes n).height + 1) :=
    Nat.mul_le_mul_right _ h.bound
  rw [h.base] at first last
  refine ⟨h.above, by omega, ?_⟩
  rw [h.height]
  rw [Nat.add_mul] at part
  omega

theorem Linked.branch_eq (c : Covers t base n key) : (key - base p) / 256 ^ ((t.nodes n).height + 1) = b := by
  have first := c.first
  have last := c.last
  rw [h.base] at first last
  apply Nat.div_eq_of_lt_le
  · omega
  · rw [Nat.add_mul]
    omega

theorem Linked.covers_child (c : Covers t base p key)
    (digit : (key - base p) / 256 ^ ((t.nodes n).height + 1) = b) : Covers t base n key := by
  have first := c.first
  have split := Nat.div_add_mod (key - base p) (256 ^ ((t.nodes n).height + 1))
  rw [digit, Nat.mul_comm] at split
  exact ⟨h.live, by rw [h.base]; omega, by rw [h.base]; omega⟩

end

section
variable (h : Shape t base)
include h

theorem Shape.covers_root (fits : key < 256 ^ (t.height + 1)) : Covers t base t.root key :=
  ⟨h.root, by rw [h.topBase]; exact Nat.zero_le _, by rw [h.topBase, h.topHeight]; omega⟩

/-- Every node below the root has a parent in the tree. -/
theorem Shape.parent (live : n < t.arena.asked) (below : (t.nodes n).height < t.height) :
    ∃ p b, Linked t base p n b := by
  cases hp : (t.nodes n).parent with
  | none =>
    obtain rfl := h.orphan n live hp
    rw [h.topHeight] at below
    omega
  | some p => exact ⟨p, _, h.up n live p hp⟩

theorem Shape.eq_root (live : n < t.arena.asked) (top : t.height ≤ (t.nodes n).height) : n = t.root := by
  apply h.orphan n live
  cases hp : (t.nodes n).parent with
  | none => rfl
  | some p =>
    have link := h.up n live p hp
    have := h.bounded p link.above
    have := link.height
    omega

/-- Of the nodes of one height only one covers a given key. -/
theorem Shape.unique {m : Nat} (cn : Covers t base n key) (cm : Covers t base m key)
    (level : (t.nodes n).height = (t.nodes m).height) : n = m := by
  generalize hd : t.height - (t.nodes n).height = d
  induction d generalizing n m with
  | zero => rw [h.eq_root cn.live (by omega), h.eq_root cm.live (by omega)]
  | succ d ih =>
    obtain ⟨p, b, ln⟩ := h.parent cn.live (by omega)
    obtain ⟨q, c, lm⟩ := h.parent cm.live (by omega)
    have hn := ln.height
    have hm := lm.height
    obtain rfl : p = q := ih (ln.covers_parent cn) (lm.covers_parent cm) (by omega) (by omega)
    have digits := ln.branch_eq cn
    rw [level, lm.branch_eq cm] at digits
    subst digits
    exact some.inj (ln.cell.symm.trans lm.cell)

section
variable (c : Covers t base n key)
include c

theorem Shape.ancestor (level : Nat) (above : (t.nodes n).height ≤ level) (low : level ≤ t.height) :
    ∃ a, Covers t base a key ∧ (t.nodes a).height = level := by
  induction level, above using Nat.le_induction with
  | base => exact ⟨n, c, rfl⟩
  | succ level above ih =>
    obtain ⟨a, ca, ha⟩ := ih (by omega)
    obtain ⟨p, b, link⟩ := h.parent ca.live (by omega)
    exact ⟨p, link.covers_parent ca, by rw [link.height, ha]⟩

theorem Shape.root_covers : Covers t base t.root key := by
  obtain ⟨top, covers, level⟩ := h.ancestor c t.height (h.bounded n c.live) le_rfl
  rwa [← h.eq_root covers.live level.ge]

/-- On the way down to another node every child is there. -/
theorem Shape.between {below : Nat} (belowCovers : Covers t base below key)
    (lower : (t.nodes below).height < (t.nodes n).height) :
    ∃ m, Linked t base n m ((key - base n) / 256 ^ (t.nodes n).height) ∧ Covers t base m key := by
  have bound := h.bounded n c.live
  obtain ⟨m, cm, hm⟩ := h.ancestor belowCovers ((t.nodes n).height - 1) (by omega) (by omega)
  obtain ⟨p, b, link⟩ := h.parent cm.live (by omega)
  have hp := link.height
  obtain rfl : p = n := h.unique (link.covers_parent cm) c (by omega)
  refine ⟨m, ?_, cm⟩
  have digit := link.branch_eq cm
  rw [← hp] at digit
  rw [digit]
  exact link

end

end

theorem Linked.rest {m : Nat} (first : base n ≤ key)
    (link : Linked t base n m ((key - base n) / 256 ^ (t.nodes n).height)) :
    base m ≤ key ∧ (key - base n) % 256 ^ (t.nodes n).height = key - base m := by
  have split := Nat.div_add_mod (key - base n) (256 ^ (t.nodes n).height)
  have hb := link.base
  rw [← link.height, Nat.mul_comm] at hb
  omega

section
variable (h : Shape t base)
include h

theorem Shape.span (live : n < t.arena.asked) (pos : (t.nodes n).height ≠ 0) :
    maxKeys ((t.nodes n).height - 1) = 256 ^ (t.nodes n).height := by
  have hb := h.bounded n live
  have low := h.low
  rw [maxKeys_eq (by omega), show (t.nodes n).height - 1 + 1 = (t.nodes n).height by omega]

theorem Shape.getLoop_leaf {leaf : Nat} (leafCovers : Covers t base leaf key)
    (leafHeight : (t.nodes leaf).height = 0) (c : Covers t base n key) (enough : (t.nodes n).height ≤ fuel) :
    getLoop t fuel n (key - base n) = (t.nodes leaf).children (key - base leaf) := by
  induction fuel generalizing n with
  | zero =>
    have zero : (t.nodes n).height = 0 := by omega
    obtain rfl := h.unique c leafCovers (by omega)
    rw [getLoop, if_pos zero]
  | succ fuel ih =>
    by_cases zero : (t.nodes n).height = 0
    · obtain rfl := h.unique c leafCovers (by omega)
      rw [getLoop, if_pos zero]
    obtain ⟨m, link, cm⟩ := h.between c leafCovers (by omega)
    have hl := link.height
    rw [getLoop, if_neg zero]
    simp only [h.span c.live zero, link.cell, (link.rest c.first).2]
    exact ih cm (by omega)

theorem Shape.getLoop_some {v : Nat} (live : n < t.arena.asked) (first : base n ≤ key)
    (found : getLoop t fuel n (key - base n) = some v) :
    ∃ leaf, Covers t base leaf key ∧ (t.nodes leaf).height = 0 ∧
      (t.nodes leaf).children (key - base leaf) = some v := by
  have here {n : Nat} (live : n < t.arena.asked) (first : base n ≤ key)
      (zero : (t.nodes n).height = 0) (cell : (t.nodes n).children (key - base n) = some v) :
      ∃ leaf, Covers t base leaf key ∧ (t.nodes leaf).height = 0 ∧
        (t.nodes leaf).children (key - base leaf) = some v := by
    have inside : key - base n < 256 := by
      by_contra out
      cases (h.cells n live zero _ (by omega)).symm.trans cell
    exact ⟨n, ⟨live, first, by rw [zero]; omega⟩, zero, cell⟩
  induction fuel generalizing n with
  | zero =>
    rw [getLoop] at found
    split at found
    · exact here live first ‹_› found
    · cases found
  | succ fuel ih =>
    rw [getLoop] at found
    split at found
    · exact here live first ‹_› found
    rename_i zero
    simp only [h.span live zero] at found
    split at found
    · rename_i m cell
      have link := h.down n live (by omega) _ m cell
      obtain ⟨first', rest⟩ := link.rest first
      rw [rest] at found
      exact ih link.live first' found
    · cases found

/-- The content of the tree is the content of its height-0 nodes. -/
theorem Shape.get_eq_some {v : Nat} :
    btreeGet t key = some v ↔ ∃ leaf, Covers t base leaf key ∧ (t.nodes leaf).height = 0 ∧
      (t.nodes leaf).children (key - base leaf) = some v := by
  have atRoot : key - base t.root = key := by rw [h.topBase]; omega
  constructor
  · intro found
    rw [← atRoot] at found
    exact h.getLoop_some h.root (by rw [h.topBase]; omega) found
  · rintro ⟨leaf, covers, zero, cell⟩
    rw [btreeGet, ← atRoot, h.getLoop_leaf covers zero (h.root_covers covers) (by rw [h.topHeight]),
      cell]

end

/-- `(node, index)` is the cell of `key`. -/
structure CellOf (t : Btree) (base : Nat → Nat) (key node index : Nat) : Prop where
  live : node < t.arena.asked
  leaf : (t.nodes node).height = 0
  inside : index < 256
  place : base node + index = key

theorem CellOf.covers (c : CellOf t base key node index) : Covers t base node key := by
  have hi := c.inside
  have hk := c.place
  exact ⟨c.live, by omega, by rw [c.leaf]; omega⟩

theorem CellOf.get (h : Shape t base) (c : CellOf t base key node index) :
    btreeGet t key = (t.nodes node).children index := by
  have hk := c.place
  apply Option.ext
  intro v
  rw [h.get_eq_some]
  constructor
  · rintro ⟨leaf, covers, zero, cell⟩
    obtain rfl := h.unique covers c.covers (by rw [zero, c.leaf])
    rwa [show key - base leaf = index by omega] at cell
  · intro cell
    exact ⟨node, c.covers, c.leaf, by rwa [show key - base node = index by omega]⟩

/-! ## Setting a cell -/

@[simp] theorem setChild_parent (t : Btree) (n b : Nat) (v : Option Nat) (m : Nat) :
    ((t.setChild n b v).nodes m).parent = (t.nodes m).parent := by
  by_cases e : m = n <;> simp [setChild, setNode, e]

@[simp] theorem setChild_height (t : Btree) (n b : Nat) (v : Option Nat) (m : Nat) :
    ((t.setChild n b v).nodes m).height = (t.nodes m).height := by
  by_cases e : m = n <;> simp [setChild, setNode, e]

@[simp] theorem setChild_branchIndex (t : Btree) (n b : Nat) (v : Option Nat) (m : Nat) :
    ((t.setChild n b v).nodes m).branchIndex = (t.nodes m).branchIndex := by
  by_cases e : m = n <;> simp [setChild, setNode, e]

theorem setChild_children (t : Btree) (n b : Nat) (v : Option Nat) (m i : Nat) :
    ((t.setChild n b v).nodes m).children i =
      if m = n ∧ i = b then v else (t.nodes m).children i := by
  by_cases e : m = n <;> by_cases e' : i = b <;>
    simp [setChild, setNode, e, e']

@[simp] theorem setChild_arena (t : Btree) (n b : Nat) (v : Option Nat) : (t.setChild n b v).arena = t.arena := rfl

@[simp] theorem setChild_root (t : Btree) (n b : Nat) (v : Option Nat) : (t.setChild n b v).root = t.root := rfl

@[simp] theorem setChild_top (t : Btree) (n b : Nat) (v : Option Nat) : (t.setChild n b v).height = t.height := rfl

theorem Linked.setChild (h : Linked t base p n b) (leaf : (t.nodes node).height = 0) (index : Nat)
    (v : Option Nat) : Linked (t.setChild node index v) base p n b := by
  have other : p ≠ node := by
    rintro rfl
    have := h.height
    omega
  refine ⟨h.above, h.live, ?_, ?_, h.bound, ?_, ?_, ?_⟩
  · simpa using h.parent
  · simpa using h.branch
  · simpa [setChild_children, other] using h.cell
  · simpa using h.height
  · simpa using h.base

theorem Shape.setChild (h : Shape t base) (c : CellOf t base key node index) (v : Option Nat) :
    Shape (t.setChild node index v) base where
  grants := h.grants
  root := h.root
  top := by simpa using h.top
  topHeight := by simpa using h.topHeight
  topBase := h.topBase
  topBranch := by simpa using h.topBranch
  low := h.low
  bounded := by simpa using h.bounded
  orphan := by simpa using h.orphan
  up := by
    intro n live p hp
    simp only [setChild_parent] at hp
    simpa using (h.up n live p hp).setChild c.leaf index v
  down := by
    intro n live pos b m cell
    simp only [setChild_height] at pos
    have other : n ≠ node := by
      rintro rfl
      rw [c.leaf] at pos
      omega
    simp only [setChild_children, other] at cell
    exact (h.down n live pos b m cell).setChild c.leaf index v
  cells := by
    intro n live zero i hi
    simp only [setChild_height] at zero
    have inside := c.inside
    rw [setChild_children, if_neg (by omega)]
    exact h.cells n live zero i hi

theorem CellOf.setChild (c : CellOf t base key node index) (n i : Nat) (v : Option Nat) :
    CellOf (t.setChild n i v) base key node index :=
  ⟨c.live, by simpa using c.leaf, c.inside, c.place⟩

theorem Shape.get_setChild (h : Shape t base) (c : CellOf t base key node index) (v : Option Nat) (k : Nat) :
    btreeGet (t.setChild node index v) k = if k = key then v else btreeGet t k := by
  have h' := h.setChild c v
  have hk := c.place
  split
  · rename_i e
    subst e
    rw [(c.setChild node index v).get h', setChild_children, if_pos ⟨rfl, rfl⟩]
  apply Option.ext
  intro w
  rw [h.get_eq_some, h'.get_eq_some]
  refine exists_congr fun leaf => ?_
  have covers : Covers (t.setChild node index v) base leaf k ↔ Covers t base leaf k :=
    ⟨fun ⟨a, b, d⟩ => ⟨a, b, by simpa using d⟩, fun ⟨a, b, d⟩ => ⟨a, b, by simpa using d⟩⟩
  rw [covers, setChild_height]
  refine and_congr_right fun hc => and_congr_right fun _ => ?_
  have first := hc.first
  rw [setChild_children, if_neg (by rintro ⟨rfl, e⟩; omega)]

/-- Every old node is where it was: its height and its first key. -/
structure Keeps (t : Btree) (base : Nat → Nat) (t' : Btree) (base' : Nat → Nat) : Prop where
  asked : t.arena.asked ≤ t'.arena.asked
  base : ∀ n < t.arena.asked, base' n = base n
  level : ∀ n < t.arena.asked, (t'.nodes n).height = (t.nodes n).height

theorem Keeps.trans (h : Keeps t base t' base') (h' : Keeps t' base' t'' base'') : Keeps t base t'' base'' where
  asked := h.asked.trans h'.asked
  base n live := (h'.base n (live.trans_le h.asked)).trans (h.base n live)
  level n live := (h'.level n (live.trans_le h.asked)).trans (h.level n live)

theorem Keeps.setChild (n b : Nat) (v : Option Nat) : Keeps t base (t.setChild n b v) base :=
  ⟨le_rfl, fun _ _ => rfl, fun m _ => setChild_height t n b v m⟩

/-- A cell stays the cell of its key. -/
theorem Keeps.cell (h : Keeps t base t' base') (c : CellOf t base key node index) :
    CellOf t' base' key node index :=
  ⟨c.live.trans_le h.asked, by rw [h.level node c.live, c.leaf], c.inside,
    by rw [h.base node c.live, c.place]⟩

theorem Keeps.covers (h : Keeps t base t' base') (live : n < t.arena.asked) :
    Covers t' base' n key ↔ Covers t base n key := by
  constructor
  · rintro ⟨_, first, last⟩
    rw [h.base n live] at first last
    rw [h.level n live] at last
    exact ⟨live, first, last⟩
  · rintro ⟨_, first, last⟩
    refine ⟨live.trans_le h.asked, ?_, ?_⟩
    · rwa [h.base n live]
    · rwa [h.base n live, h.level n live]

/-- The content stays if the old leaves keep theirs and the new one is empty. -/
theorem Keeps.get (keeps : Keeps t base t' base') (h : Shape t base) (h' : Shape t' base')
    (old : ∀ n < t.arena.asked, (t.nodes n).height = 0 → (t'.nodes n).children = (t.nodes n).children)
    (next : t'.arena.asked = t.arena.asked + 1)
    (new : (t'.nodes t.arena.asked).height = 0 → ∀ i, (t'.nodes t.arena.asked).children i = none) (k : Nat) :
    btreeGet t' k = btreeGet t k := by
  apply Option.ext
  intro v
  rw [h.get_eq_some, h'.get_eq_some]
  refine exists_congr fun leaf => ?_
  by_cases live : leaf < t.arena.asked
  · rw [keeps.covers live, keeps.level leaf live, keeps.base leaf live]
    refine and_congr_right fun _ => and_congr_right fun zero => ?_
    rw [old leaf live zero]
  · constructor
    · rintro ⟨covers, zero, cell⟩
      have last := covers.live
      obtain rfl : leaf = t.arena.asked := by omega
      cases (new zero _).symm.trans cell
    · exact fun found => absurd found.1.live live

/-! ## New nodes -/

/-- Tree `t'` is `t` with a new empty child `b` of `p`. -/
structure Created (t : Btree) (p b : Nat) (t' : Btree) : Prop where
  root : t'.root = t.root
  height : t'.height = t.height
  asked : t'.arena.asked = t.arena.asked + 1
  grants : t'.arena.grants = t.arena.grants
  parent : (t'.nodes t.arena.asked).parent = some p
  branch : (t'.nodes t.arena.asked).branchIndex = b
  level : (t.nodes p).height = (t'.nodes t.arena.asked).height + 1
  empty : ∀ i, (t'.nodes t.arena.asked).children i = none
  cell : (t'.nodes p).children b = some t.arena.asked
  kept : ∀ n ≠ t.arena.asked, (t'.nodes n).parent = (t.nodes n).parent ∧
    (t'.nodes n).height = (t.nodes n).height ∧ (t'.nodes n).branchIndex = (t.nodes n).branchIndex
  cells : ∀ n ≠ t.arena.asked, ∀ i, n ≠ p ∨ i ≠ b → (t'.nodes n).children i = (t.nodes n).children i

theorem btreeNodeCreate_created (grants : t.arena.grants t.arena.asked = true) (live : p < t.arena.asked)
    (pos : 0 < (t.nodes p).height) (small : (t.nodes p).height < 2 ^ 64) (b : Nat) :
    ∃ t', btreeNodeCreate t (some p) b = (some t.arena.asked, t') ∧ Created t p b t' := by
  have other : t.arena.asked ≠ p := by omega
  refine ⟨_, by simp only [btreeNodeCreate, Arena.alloc, grants]; rfl, ?_⟩
  have down : sub64 (t.nodes p).height 1 = (t.nodes p).height - 1 := sub64_of_le (by omega) small
  constructor
  · rfl
  · rfl
  · rfl
  · rfl
  · simp [setNode]
  · simp [setNode]
  · simp [setNode, down]
    omega
  · simp [setChild_children, other, setNode]
  · simp [setChild_children]
  · intro n hn
    simp [setNode, hn]
  intro n hn i hi
  have elsewhere : ¬ (n = p ∧ i = b) := by
    rintro ⟨rfl, rfl⟩
    simp at hi
  simp [setChild_children, elsewhere, setNode, hn]

/-- The first keys after `b` has been added to `p`. -/
def createdBase (t : Btree) (base : Nat → Nat) (p b : Nat) : Nat → Nat :=
  update base t.arena.asked (base p + b * 256 ^ (t.nodes p).height)

theorem Created.linked {p b : Nat} {t' : Btree} (c : Created t p b t') (live : p < t.arena.asked)
    (hb : b < 256) : Linked t' (createdBase t base p b) p t.arena.asked b := by
  have other : p ≠ t.arena.asked := by omega
  refine ⟨by rw [c.asked]; omega, by rw [c.asked]; omega, c.parent, c.branch, hb, c.cell, ?_, ?_⟩
  · rw [(c.kept p other).2.1, c.level]
  · rw [createdBase, update_self, update_of_ne other, c.level]

section
variable (c : Created t p b t')
include c

theorem Created.keeps (free : (t.nodes p).children b = none) {q i : Nat} (link : Linked t base q n i) :
    Linked t' (createdBase t base p b) q n i := by
  have hn : n ≠ t.arena.asked := Nat.ne_of_lt link.live
  have hq : q ≠ t.arena.asked := Nat.ne_of_lt link.above
  have taken : q ≠ p ∨ i ≠ b := by
    by_contra same
    obtain ⟨rfl, rfl⟩ : q = p ∧ i = b := by tauto
    have := link.cell
    cases free.symm.trans this
  obtain ⟨hp, hh, hi⟩ := c.kept n hn
  refine ⟨by rw [c.asked]; exact Nat.lt_succ_of_lt link.above,
    by rw [c.asked]; exact Nat.lt_succ_of_lt link.live, hp.trans link.parent, hi.trans link.branch,
    link.bound, (c.cells q hq i taken).trans link.cell, ?_, ?_⟩
  · rw [(c.kept q hq).2.1, hh, link.height]
  · rw [createdBase, update_of_ne hn, update_of_ne hq, hh, link.base]

section
variable (h : Shape t base) (live : p < t.arena.asked) (pos : 0 < (t.nodes p).height) (hb : b < 256)
  (free : (t.nodes p).children b = none)
include h live pos hb free

theorem Created.shape : Shape t' (createdBase t base p b) := by
  have old {n : Nat} (ln : n < t'.arena.asked) (hn : n ≠ t.arena.asked) : n < t.arena.asked := by
    rw [c.asked] at ln
    omega
  have hroot : t.root ≠ t.arena.asked := Nat.ne_of_lt h.root
  constructor
  · rw [c.grants]; exact h.grants
  · rw [c.root, c.asked]; exact Nat.lt_succ_of_lt h.root
  · rw [c.root, (c.kept _ hroot).1, h.top]
  · rw [c.root, c.height, (c.kept _ hroot).2.1, h.topHeight]
  · rw [c.root, createdBase, update_of_ne hroot, h.topBase]
  · rw [c.root, (c.kept _ hroot).2.2, h.topBranch]
  · rw [c.height]; exact h.low
  · intro n ln
    by_cases hn : n = t.arena.asked
    · subst hn
      have := h.bounded p live
      have := c.level
      rw [c.height]
      omega
    · rw [c.height, (c.kept n hn).2.1]
      exact h.bounded n (old ln hn)
  · intro n ln hp
    by_cases hn : n = t.arena.asked
    · subst hn
      cases c.parent.symm.trans hp
    · rw [(c.kept n hn).1] at hp
      rw [c.root]
      exact h.orphan n (old ln hn) hp
  · intro n ln q hq
    by_cases hn : n = t.arena.asked
    · subst hn
      cases c.parent.symm.trans hq
      rw [c.branch]
      exact c.linked live hb
    · rw [(c.kept n hn).1] at hq
      rw [(c.kept n hn).2.2]
      exact c.keeps free (h.up n (old ln hn) q hq)
  · intro n ln hpos i m cell
    by_cases hn : n = t.arena.asked
    · subst hn
      rw [c.empty] at cell
      cases cell
    by_cases new : n = p ∧ i = b
    · obtain ⟨rfl, rfl⟩ := new
      cases c.cell.symm.trans cell
      exact c.linked live hb
    · rw [c.cells n hn i (by tauto)] at cell
      rw [(c.kept n hn).2.1] at hpos
      exact c.keeps free (h.down n (old ln hn) hpos i m cell)
  · intro n ln zero i hi
    by_cases hn : n = t.arena.asked
    · subst hn
      exact c.empty i
    · rw [(c.kept n hn).2.1] at zero
      rw [c.cells n hn i (Or.inr (by omega))]
      exact h.cells n (old ln hn) zero i hi

end

end

/-- Tree `t'` is `t` under a new root. -/
structure Expanded (t t' : Btree) : Prop where
  root : t'.root = t.arena.asked
  height : t'.height = t.height + 1
  asked : t'.arena.asked = t.arena.asked + 1
  grants : t'.arena.grants = t.arena.grants
  top : (t'.nodes t.arena.asked).parent = none
  topHeight : (t'.nodes t.arena.asked).height = t.height + 1
  topBranch : (t'.nodes t.arena.asked).branchIndex = 0
  first : (t'.nodes t.arena.asked).children 0 = some t.root
  others : ∀ i ≠ 0, (t'.nodes t.arena.asked).children i = none
  below : (t'.nodes t.root).parent = some t.arena.asked
  kept : ∀ n ≠ t.arena.asked, (t'.nodes n).height = (t.nodes n).height ∧
    (t'.nodes n).branchIndex = (t.nodes n).branchIndex ∧
    (t'.nodes n).children = (t.nodes n).children
  parents : ∀ n ≠ t.arena.asked, n ≠ t.root → (t'.nodes n).parent = (t.nodes n).parent

theorem btreeExpand_expanded (grants : t.arena.grants t.arena.asked = true)
    (live : t.root < t.arena.asked) : ∃ t', btreeExpand t = some t' ∧ Expanded t t' := by
  have other : t.arena.asked ≠ t.root := by omega
  have other' : t.root ≠ t.arena.asked := by omega
  refine ⟨_, by simp only [btreeExpand, btreeNodeCreate, Arena.alloc, grants]; rfl, ?_⟩
  constructor
  · rfl
  · rfl
  · rfl
  · rfl
  · simp [setNode, setChild, other]
  · simp [setNode, setChild]
  · simp [setNode]
  · simp [setNode, setChild, other]
  · intro i hi
    simp [setNode, setChild, other, hi]
  · simp [setNode, setChild, other']
  · intro n hn
    by_cases e : n = t.root
    · subst e; simp [setNode, setChild, hn]
    · simp [setNode, setChild, hn, e]
  · intro n hn e
    simp [setNode, setChild, hn, e]

theorem Expanded.keeps (x : Expanded t t') (h : Shape t base) (link : Linked t base p n b) :
    Linked t' (update base t.arena.asked 0) p n b := by
  have hn : n ≠ t.arena.asked := Nat.ne_of_lt link.live
  have hp : p ≠ t.arena.asked := Nat.ne_of_lt link.above
  have nr : n ≠ t.root := by
    rintro rfl
    have := link.parent
    cases h.top.symm.trans this
  obtain ⟨hh, hi, _⟩ := x.kept n hn
  obtain ⟨hh', _, hc⟩ := x.kept p hp
  refine ⟨by rw [x.asked]; exact Nat.lt_succ_of_lt link.above,
    by rw [x.asked]; exact Nat.lt_succ_of_lt link.live, (x.parents n hn nr).trans link.parent,
    hi.trans link.branch, link.bound, by rw [hc]; exact link.cell, by rw [hh, hh', link.height], ?_⟩
  rw [update_of_ne hn, update_of_ne hp, hh, link.base]

theorem Expanded.linked {t' : Btree} (x : Expanded t t') (h : Shape t base) :
    Linked t' (update base t.arena.asked 0) t.arena.asked t.root 0 := by
  have hr : t.root ≠ t.arena.asked := Nat.ne_of_lt h.root
  obtain ⟨hh, hi, _⟩ := x.kept t.root hr
  refine ⟨by rw [x.asked]; omega, by rw [x.asked]; exact Nat.lt_succ_of_lt h.root, x.below,
    hi.trans h.topBranch, by decide, x.first, by rw [x.topHeight, hh, h.topHeight], ?_⟩
  rw [update_of_ne hr, update_self, h.topBase, Nat.zero_mul]

section
variable (x : Expanded t t') (h : Shape t base) (low : t.height < 6)
include x h low

theorem Expanded.shape : Shape t' (update base t.arena.asked 0) := by
  have old {n : Nat} (ln : n < t'.arena.asked) (hn : n ≠ t.arena.asked) : n < t.arena.asked := by
    rw [x.asked] at ln
    omega
  constructor
  · rw [x.grants]; exact h.grants
  · rw [x.root, x.asked]; omega
  · rw [x.root, x.top]
  · rw [x.root, x.topHeight, x.height]
  · rw [x.root, update_self]
  · rw [x.root, x.topBranch]
  · rw [x.height]; omega
  · intro n ln
    by_cases hn : n = t.arena.asked
    · subst hn
      rw [x.topHeight, x.height]
    · have := h.bounded n (old ln hn)
      rw [(x.kept n hn).1, x.height]
      omega
  · intro n ln hp
    by_cases hn : n = t.arena.asked
    · rw [hn, x.root]
    by_cases nr : n = t.root
    · subst nr
      cases x.below.symm.trans hp
    · rw [x.parents n hn nr] at hp
      exact absurd (h.orphan n (old ln hn) hp) nr
  · intro n ln p hp
    by_cases hn : n = t.arena.asked
    · subst hn
      cases x.top.symm.trans hp
    by_cases nr : n = t.root
    · subst nr
      cases x.below.symm.trans hp
      rw [(x.kept _ hn).2.1, h.topBranch]
      exact x.linked h
    · rw [x.parents n hn nr] at hp
      rw [(x.kept n hn).2.1]
      exact x.keeps h (h.up n (old ln hn) p hp)
  · intro n ln pos b m cell
    by_cases hn : n = t.arena.asked
    · subst hn
      by_cases hb : b = 0
      · subst hb
        cases x.first.symm.trans cell
        exact x.linked h
      · cases (x.others b hb).symm.trans cell
    · rw [(x.kept n hn).2.2] at cell
      rw [(x.kept n hn).1] at pos
      exact x.keeps h (h.down n (old ln hn) pos b m cell)
  · intro n ln zero i hi
    by_cases hn : n = t.arena.asked
    · subst hn
      rw [x.topHeight] at zero
      omega
    · rw [(x.kept n hn).1] at zero
      rw [(x.kept n hn).2.2]
      exact h.cells n (old ln hn) zero i hi

end

/-! ## Positions -/

/-- The tree may have got new nodes, but no new content. -/
structure Refines (t t' : Btree) (base : Nat → Nat) : Prop where
  shape : Shape t' base
  get : ∀ k, btreeGet t' k = btreeGet t k
  height : t.height ≤ t'.height

theorem Refines.trans (h : Refines t t' base') (h' : Refines t' t'' base'') : Refines t t'' base'' :=
  ⟨h'.shape, fun k => (h'.get k).trans (h.get k), h.height.trans h'.height⟩

structure Extends (t : Btree) (base : Nat → Nat) (t' : Btree) (base' : Nat → Nat) : Prop
    extends Keeps t base t' base' where
  refines : Refines t t' base'

theorem Extends.trans (h : Extends t base t' base') (h' : Extends t' base' t'' base'') :
    Extends t base t'' base'' :=
  ⟨h.toKeeps.trans h'.toKeeps, h.refines.trans h'.refines⟩

theorem Shape.refl (h : Shape t base) : Extends t base t base :=
  ⟨⟨le_rfl, fun _ _ => rfl, fun _ _ => rfl⟩, ⟨h, fun _ => rfl, le_rfl⟩⟩

theorem Expanded.extend (x : Expanded t t') (h : Shape t base) (low : t.height < 6) :
    Extends t base t' (update base t.arena.asked 0) := by
  have keeps : Keeps t base t' (update base t.arena.asked 0) :=
    ⟨by rw [x.asked]; omega, fun n live => update_of_ne (Nat.ne_of_lt live) _ _,
      fun n live => (x.kept n (Nat.ne_of_lt live)).1⟩
  have h' := x.shape h low
  refine ⟨keeps, h', keeps.get h h' (fun n live _ => (x.kept n (Nat.ne_of_lt live)).2.2) x.asked fun zero => ?_,
    by rw [x.height]; omega⟩
  rw [x.topHeight] at zero
  omega

theorem Created.extend (c : Created t p b t') (h : Shape t base) (live : p < t.arena.asked)
    (pos : 0 < (t.nodes p).height) (hb : b < 256) (free : (t.nodes p).children b = none) :
    Extends t base t' (createdBase t base p b) := by
  have keeps : Keeps t base t' (createdBase t base p b) :=
    ⟨by rw [c.asked]; omega, fun n live => update_of_ne (Nat.ne_of_lt live) _ _,
      fun n live => (c.kept n (Nat.ne_of_lt live)).2.1⟩
  have h' := c.shape h live pos hb free
  refine ⟨keeps, h', keeps.get h h' (fun n old zero => funext fun i => ?_) c.asked fun _ => c.empty, c.height.ge⟩
  refine c.cells n (Nat.ne_of_lt old) i (.inl ?_)
  rintro rfl
  omega

theorem Shape.grow_extends (h : Shape t base) (low : limit < 256 ^ 7) (fuel : Nat)
    (enough : 7 ≤ fuel + t.height) : ∃ t' base', growLoop limit fuel t = some t' ∧ Extends t base t' base' ∧
      limit < 256 ^ (t'.height + 1) := by
  induction fuel generalizing t base with
  | zero =>
    have := h.low
    omega
  | succ fuel ih =>
    have hh := h.low
    rw [growLoop, maxKeys_eq h.low]
    by_cases fits : limit ≥ 256 ^ (t.height + 1)
    · have below : t.height < 6 := by
        by_contra top
        have : t.height = 6 := by omega
        rw [this] at fits
        omega
      obtain ⟨t', eq, x⟩ := btreeExpand_expanded (h.grants _) h.root
      have extend := x.extend h below
      obtain ⟨t'', base'', eq', extend', reach⟩ :=
        ih extend.refines.shape (by rw [x.height]; omega)
      rw [if_pos fits, eq]
      exact ⟨t'', base'', eq', extend.trans extend', reach⟩
    · rw [if_neg fits]
      exact ⟨t, base, rfl, h.refl, by omega⟩

/-- A missing child is created in place. -/
theorem Shape.create (h : Shape t base) (live : p < t.arena.asked) (pos : 0 < (t.nodes p).height) (hb : b < 256)
    (free : (t.nodes p).children b = none) :
    ∃ t' m base', btreeNodeCreate t (some p) b = (some m, t') ∧ Extends t base t' base' ∧
      t'.height = t.height ∧ Linked t' base' p m b := by
  have bound := h.bounded p live
  have low := h.low
  obtain ⟨t', eq, c⟩ := btreeNodeCreate_created (h.grants _) live pos (by omega) b
  exact ⟨t', _, createdBase t base p b, eq, c.extend h live pos hb free, c.height, c.linked live hb⟩

theorem Covers.cell (c : Covers t base n key) (zero : (t.nodes n).height = 0) :
    CellOf t base key n (key - base n) := by
  have first := c.first
  have last := c.last
  rw [zero] at last
  exact ⟨c.live, zero, by omega, by omega⟩

theorem Covers.digit_lt (c : Covers t base n key) : (key - base n) / 256 ^ (t.nodes n).height < 256 := by
  have first := c.first
  have last := c.last
  rw [Nat.div_lt_iff_lt_mul (Nat.pow_pos (by decide))]
  omega

section
variable (h : Shape t base)
include h

theorem Shape.pos_extends (c : Covers t base n key) (fuel : Nat) (enough : (t.nodes n).height ≤ fuel) :
    ∃ t' base' leaf index, posLoop true fuel t n (key - base n) = (0, some (leaf, index), t') ∧
      Extends t base t' base' ∧ t'.height = t.height ∧ CellOf t' base' key leaf index := by
  induction fuel generalizing t base n with
  | zero =>
    have zero : (t.nodes n).height = 0 := by omega
    exact ⟨t, base, n, _, by rw [posLoop, if_pos zero], h.refl, rfl, c.cell zero⟩
  | succ fuel ih =>
    by_cases zero : (t.nodes n).height = 0
    · exact ⟨t, base, n, _, by rw [posLoop, if_pos zero], h.refl, rfl, c.cell zero⟩
    rw [posLoop, if_neg zero]
    simp only [h.span c.live zero]
    cases cell : (t.nodes n).children ((key - base n) / 256 ^ (t.nodes n).height) with
    | some m =>
      have link := h.down n c.live (by omega) _ m cell
      have hl := link.height
      have cm := link.covers_child c (by rw [← hl])
      simp only [(link.rest c.first).2]
      exact ih h cm (by omega)
    | none =>
      obtain ⟨t', m, base', eq, extend, same, link⟩ := h.create c.live (by omega) c.digit_lt cell
      have sameBase := extend.base n c.live
      have sameHeight := extend.level n c.live
      have c' := (extend.covers c.live).mpr c
      rw [← sameBase, ← sameHeight] at link
      have hl := link.height
      have cm := link.covers_child c' (by rw [← hl])
      have rest := (link.rest c'.first).2
      rw [sameBase, sameHeight] at rest
      simp only [eq, rest]
      obtain ⟨t'', base'', leaf, index, found, extend', same', place⟩ :=
        ih extend.refines.shape cm (by omega)
      exact ⟨t'', base'', leaf, index, found, extend.trans extend', same'.trans same, place⟩

section
variable (live : n < t.arena.asked) (last : key = base n + 256 ^ ((t.nodes n).height + 1))
  (fits : key < 256 ^ (t.height + 1))
include live last fits

theorem Shape.above_last : ∃ p, Linked t base p n (t.nodes n).branchIndex := by
  cases hp : (t.nodes n).parent with
  | none =>
    obtain rfl := h.orphan n live hp
    rw [h.topHeight] at last
    omega
  | some p => exact ⟨p, h.up n live p hp⟩

/-- Where the climb stops, the next key starts the branch after the one it
came from. -/
theorem Shape.climb_spec (fuel : Nat) (enough : t.height ≤ fuel + (t.nodes n).height) (parentIndex : Nat) :
    ∃ p b, nextClimb t fuel n parentIndex = (p, b) ∧ p < t.arena.asked ∧ 0 < (t.nodes p).height ∧
      b + 1 < 256 ∧ key = base p + (b + 1) * 256 ^ (t.nodes p).height := by
  induction fuel generalizing n parentIndex with
  | zero =>
    obtain ⟨p, link⟩ := h.above_last live last fits
    have := h.bounded p link.above
    have := link.height
    omega
  | succ fuel ih =>
    obtain ⟨p, link⟩ := h.above_last live last fits
    have hl := link.height
    have next : key = base p + ((t.nodes n).branchIndex + 1) * 256 ^ (t.nodes p).height := by
      rw [last, link.base, hl, Nat.add_mul, Nat.one_mul, Nat.add_assoc]
    simp only [nextClimb, link.parent]
    by_cases more : (t.nodes n).branchIndex + 1 < 256
    · rw [if_pos more]
      exact ⟨p, _, rfl, link.above, by omega, more, next⟩
    rw [if_neg more]
    have full : (t.nodes n).branchIndex + 1 = 256 := by
      have := link.bound
      omega
    apply ih link.above _ (by omega)
    rw [next, full, Nat.pow_succ, Nat.mul_comm 256]

end

/-- `btree_pos` goes to the cell of the key. -/
theorem Shape.pos_root (fits : key < 256 ^ (t.height + 1)) :
    ∃ t' base' leaf index, btreePos t key true = (0, some (leaf, index), t') ∧
      Extends t base t' base' ∧ t'.height = t.height ∧ CellOf t' base' key leaf index := by
  have found := h.pos_extends (h.covers_root fits) t.height h.topHeight.le
  rwa [h.topBase, Nat.sub_zero, ← btreePos] at found

/-- The way down passes through every node that covers the key. -/
theorem Shape.posLoop_via {m : Nat} (cn : Covers t base n key) (cm : Covers t base m key)
    (lower : (t.nodes m).height ≤ (t.nodes n).height) (create : Bool) {fuel : Nat}
    (enough : (t.nodes n).height ≤ fuel) : posLoop create fuel t n (key - base n) =
      posLoop create (fuel - ((t.nodes n).height - (t.nodes m).height)) t m (key - base m) := by
  induction fuel generalizing n with
  | zero =>
    obtain rfl := h.unique cn cm (by omega)
    simp
  | succ fuel ih =>
    by_cases level : (t.nodes n).height = (t.nodes m).height
    · obtain rfl := h.unique cn cm level
      simp
    obtain ⟨c, link, cc⟩ := h.between cn cm (by omega)
    have hl := link.height
    have zero : (t.nodes n).height ≠ 0 := by omega
    rw [posLoop, if_neg zero]
    simp only [h.span cn.live zero, link.cell, (link.rest cn.first).2]
    rw [ih cc (by omega) (by omega)]
    congr 1
    omega

theorem Shape.pos_via {m : Nat} (cm : Covers t base m key) (fits : key < 256 ^ (t.height + 1)) (create : Bool) :
    btreePos t key create = posLoop create (t.nodes m).height t m (key - base m) := by
  have bound := h.bounded m cm.live
  have top := h.topHeight
  have via := h.posLoop_via (h.covers_root fits) cm (by omega) create top.le
  rw [h.topBase, Nat.sub_zero, top, Nat.sub_sub_self bound] at via
  rw [btreePos, via]

/-- A cell that is there is found without a change. -/
theorem CellOf.pos (c : CellOf t base key node index) (fits : key < 256 ^ (t.height + 1)) (create : Bool) :
    btreePos t key create = (0, some (node, index), t) := by
  have place := c.place
  rw [h.pos_via c.covers fits]
  unfold posLoop
  rw [if_pos c.leaf, show key - base node = index by omega]

/-- The two ways down to the first key of a branch create the same nodes. -/
theorem Shape.posLoop_first {fuel fuel' n b : Nat} (live : n < t.arena.asked) (hb : b < 256)
    (leftmost : (t.nodes n).height = 0 → b = 0) (enough : (t.nodes n).height ≤ fuel)
    (enough' : (t.nodes n).height ≤ fuel') :
    posLoop true fuel t n (b * 256 ^ (t.nodes n).height) = nextDescend true fuel' t n b := by
  induction fuel generalizing t base n b fuel' with
  | zero =>
    have zero : (t.nodes n).height = 0 := by omega
    unfold nextDescend
    rw [posLoop, if_pos zero, if_pos zero, leftmost zero, Nat.zero_mul]
  | succ fuel ih =>
    by_cases zero : (t.nodes n).height = 0
    · unfold nextDescend
      rw [posLoop, if_pos zero, if_pos zero, leftmost zero, Nat.zero_mul]
    obtain ⟨fuel', rfl⟩ := Nat.exists_eq_succ_of_ne_zero (show fuel' ≠ 0 by omega)
    have pos : 0 < 256 ^ (t.nodes n).height := Nat.pow_pos (by decide)
    rw [posLoop, if_neg zero, nextDescend, if_neg zero]
    simp only [h.span live zero, Nat.mul_div_cancel _ pos, Nat.mul_mod_left]
    cases cell : (t.nodes n).children b with
    | some m =>
      have link := h.down n live (by omega) b m cell
      have hl := link.height
      simpa using @ih t base h fuel' m 0 link.live (by decide) (fun _ => rfl) (by omega) (by omega)
    | none =>
      obtain ⟨t', m, base', eq, extend, same, link⟩ := h.create live (by omega) hb cell
      have hl := link.height
      rw [extend.level n live] at hl
      simp only [if_true, eq]
      simpa using @ih t' base' extend.refines.shape fuel' m 0 link.live (by decide) (fun _ => rfl)
        (by omega) (by omega)

/-- `btree_next` is `btree_pos` for the next key. -/
theorem CellOf.next_eq_pos (c : CellOf t base key node index) (fits : key + 1 < 256 ^ (t.height + 1)) :
    btreeNext t node index true = btreePos t (key + 1) true := by
  have place := c.place
  unfold btreeNext
  by_cases more : index + 1 < 256
  · have next : CellOf t base (key + 1) node (index + 1) := ⟨c.live, c.leaf, more, by omega⟩
    rw [if_pos more, next.pos h fits]
    simp
  rw [if_neg more]
  have inside := c.inside
  have last : key + 1 = base node + 256 ^ ((t.nodes node).height + 1) := by
    rw [c.leaf]
    omega
  obtain ⟨p, b, climbed, live, pos, hb, start⟩ := h.climb_spec c.live last fits
    t.height (by omega) (t.nodes node).branchIndex
  have covers : Covers t base p (key + 1) := by
    refine ⟨live, by omega, ?_⟩
    rw [start, Nat.pow_succ, Nat.mul_comm _ 256]
    exact Nat.add_lt_add_left (Nat.mul_lt_mul_of_pos_right hb (Nat.pow_pos (by decide))) _
  simp only [climbed]
  rw [if_neg (by omega), h.pos_via covers fits, start, Nat.add_sub_cancel_left,
    h.posLoop_first live hb (by omega) le_rfl (h.bounded p live)]

end

end

/-! ## Ranges -/

section
variable {σ : Type} (f : Nat → Int → σ → σ)

/-- The callback over the old values of `n` keys from `start` on, in ascending
order of the keys. -/
def overRange (m : Nat → Option Nat) : Nat → Nat → σ → σ
  | _, 0, s => s
  | start, n + 1, s =>
    overRange m (start + 1) n (match m start with
      | some v => f v (toInt32 start) s
      | none => s)

theorem overRange_congr {m' : Nat → Option Nat} (h : ∀ k, start ≤ k → k < start + n → m k = m' k) (s : σ) :
    overRange f m start n s = overRange f m' start n s := by
  induction n generalizing start s with
  | zero => rfl
  | succ n ih =>
    simp only [overRange]
    rw [h start le_rfl (by omega)]
    exact ih (fun k lo hi => h k (by omega) (by omega)) _

/-- The rule for what a callback keeps: each call answers for one key that is
erased from the map, and at the end the whole range is erased. -/
theorem overRange_erase {I : (Nat → Option Nat) → σ → Prop}
    (step : ∀ m k v s, start ≤ k → k < start + n → m k = some v → I m s →
      I (erase m k) (f v (toInt32 k) s)) {s : σ} (h : I m s) :
    I (fun k => if start ≤ k ∧ k < start + n then none else m k) (overRange f m start n s) := by
  induction n generalizing start m s with
  | zero => simpa [overRange, show ∀ k, ¬ (start ≤ k ∧ k < start) by omega] using h
  | succ n ih =>
    have one : I (erase m start) (match m start with
        | some v => f v (toInt32 start) s
        | none => s) := by
      cases old : m start with
      | some v => exact step m start v s le_rfl (by omega) old h
      | none =>
        have same : erase m start = m := by
          rw [erase, ← old, update_eq_self]
        rwa [same]
    have rest := ih (fun m k v s (lo : start + 1 ≤ k) hi => step m k v s (by omega) (by omega)) one
    have keep : ∀ k, start + 1 ≤ k → k < start + 1 + n → erase m start k = m k := by
      intro k lo _
      rw [erase, update_of_ne (by omega)]
    rw [overRange_congr f keep] at rest
    rw [overRange]
    convert rest using 2 with k
    by_cases e : k = start
    · rw [if_pos (by omega), if_neg (by omega), e, erase, update_self]
    · rw [erase, update_of_ne e]
      simp only [show (start ≤ k ∧ k < start + (n + 1)) ↔ (start + 1 ≤ k ∧ k < start + 1 + n) by omega]

/-- One turn of the loop: the cell of `start` is set and the position moves to
the next key. -/
theorem Shape.turn {t : Btree} {base : Nat → Nat} (h : Shape t base) (ptr : Option Nat)
    {start node index : Nat} (c : CellOf t base start node index) (fits : start + 1 < 256 ^ (t.height + 1)) :
    ∃ t' base' node' index',
      btreeNext (t.setChild node index ptr) node index true = (0, some (node', index'), t') ∧
      Shape t' base' ∧ Keeps t base t' base' ∧ t'.height = t.height ∧
      CellOf t' base' (start + 1) node' index' ∧
      ∀ k, btreeGet t' k = if k = start then ptr else btreeGet t k := by
  have h' := h.setChild c ptr
  obtain ⟨t', base', node', index', found, extend, same, place⟩ := h'.pos_root fits
  rw [← (c.setChild node index ptr).next_eq_pos h' fits] at found
  exact ⟨t', base', node', index', found, extend.refines.shape,
    (Keeps.setChild node index ptr).trans extend.toKeeps, same, place,
    fun k => (extend.refines.get k).trans (h.get_setChild c ptr k)⟩

theorem Shape.loop_spec (h : Shape t base) (ptr : Option Nat) (c : CellOf t base start node index) (n : Nat)
    (fits : start + n + 1 < 256 ^ (t.height + 1)) (s : σ) :
    ∃ t' base', setRangeLoop (fun v k s => (0, f v k s)) ptr (start + n + 1) (n + 1) t s (node, index)
        start = some (0, t', overRange f (btreeGet t) start (n + 1) s) ∧ Shape t' base' ∧
      ∀ k, btreeGet t' k = if start ≤ k ∧ k < start + n + 1 then ptr else btreeGet t k := by
  induction n generalizing t base start node index s with
  | zero =>
    obtain ⟨t', base', _, _, next, shape, _, _, _, get⟩ := h.turn ptr c (by omega)
    refine ⟨t', base', ?_, shape, ?_⟩
    · simp only [setRangeLoop, overRange, next, ← c.get h]
      cases btreeGet t start <;> simp
    · intro k
      rw [get]
      simp only [show (start ≤ k ∧ k < start + 0 + 1) ↔ k = start by omega]
  | succ n ih =>
    obtain ⟨t', base', node', index', next, shape, _, same, place, get⟩ := h.turn ptr c (by omega)
    generalize hs : (match btreeGet t start with
      | some v => f v (toInt32 start) s
      | none => s) = s'
    obtain ⟨t'', base'', loop, shape', get'⟩ := ih shape place (by rw [same]; omega) s'
    have rest : overRange f (btreeGet t') (start + 1) (n + 1) s' =
        overRange f (btreeGet t) (start + 1) (n + 1) s' := by
      apply overRange_congr
      intro k lo _
      rw [get, if_neg (by omega)]
    refine ⟨t'', base'', ?_, shape', ?_⟩
    · rw [show start + 1 + n + 1 = start + (n + 1) + 1 by omega, rest] at loop
      rw [overRange, hs, ← loop, setRangeLoop]
      simp only [next, ← c.get h]
      cases old : btreeGet t start <;> simp [old] at hs <;> simp [hs]
    intro k
    rw [get', get]
    by_cases e : k = start
    · rw [if_neg (by omega), if_pos e, if_pos (by omega)]
    · simp only [e, if_false, show (start + 1 ≤ k ∧ k < start + 1 + n + 1) ↔
        (start ≤ k ∧ k < start + (n + 1) + 1) by omega]

/-- Setting a range is an update of the map on that range, with one call of the
callback for each old value, in ascending order of the keys. -/
theorem Shape.set_range (h : Shape t base) (ptr : Option Nat) {stop : Nat} (nonempty : start < stop)
    (low : stop < 256 ^ 7) (s : σ) :
    ∃ t' base', btreeSetRangeCallback t start stop ptr (fun v k s => (0, f v k s)) s =
        some (0, t', overRange f (btreeGet t) start (stop - start) s) ∧ Shape t' base' ∧
      ∀ k, btreeGet t' k = if start ≤ k ∧ k < stop then ptr else btreeGet t k := by
  obtain ⟨t1, base1, grown, extend, reach⟩ := h.grow_extends low (10 - t.height) (by omega)
  have h1 := extend.refines.shape
  obtain ⟨t2, base2, node, index, found, extend', same, place⟩ := h1.pos_root (show start < _ by omega)
  obtain ⟨t', base', loop, shape, get⟩ := extend'.refines.shape.loop_spec f ptr place (stop - start - 1)
    (by rw [same]; omega) s
  have content (k : Nat) : btreeGet t2 k = btreeGet t k := (extend'.refines.get k).trans (extend.refines.get k)
  rw [show start + (stop - start - 1) + 1 = stop by omega,
    show stop - start - 1 + 1 = stop - start by omega] at loop
  rw [show start + (stop - start - 1) + 1 = stop by omega] at get
  rw [overRange_congr f (fun k _ _ => content k)] at loop
  refine ⟨t', base', ?_, shape, fun k => by rw [get, content]⟩
  rw [btreeSetRangeCallback, if_neg (by omega), btreeGrow, grown]
  simp only [bind_some, found]
  simpa using loop

end

/-- `btree_set_range` with `NULL`: every key of the range leads nowhere afterwards. -/
theorem Shape.erase_range (shape : Shape t base) (low : start + n < 256 ^ 7) :
    ∃ r t', btreeSetRange t start (wrap64 (start + n)) none = some (r, t') ∧
      (∃ base', Shape t' base') ∧
      ∀ k, btreeGet t' k = if start ≤ k ∧ k < start + n then none else btreeGet t k := by
  have stop : wrap64 (start + n) = start + n := wrap64_of_lt (low.trans (by decide))
  by_cases empty : n = 0
  · subst empty
    refine ⟨-1, t, ?_, ⟨base, shape⟩, fun k => by rw [if_neg (by omega)]⟩
    rw [stop]
    simp [btreeSetRange, btreeSetRangeCallback]
  obtain ⟨t', base', call, shape', get⟩ := shape.set_range (fun _ _ s => s) none
    (show start < start + n by omega) low ()
  refine ⟨0, t', ?_, ⟨base', shape'⟩, get⟩
  rw [stop, btreeSetRange, call]
  rfl

/-- A new tree maps no key. -/
theorem btreeCreate_spec {grants : Nat → Bool} (granted : ∀ n, grants n = true) :
    ∃ t, btreeCreate grants = some t ∧ Shape t (fun _ => 0) ∧ ∀ k, btreeGet t k = none := by
  refine ⟨_, by simp only [btreeCreate, btreeNodeCreate, Arena.alloc, granted]; rfl, ?_, ?_⟩
  · constructor
    · exact granted
    · exact Nat.one_pos
    all_goals simp [setNode]
  · simp [btreeGet, getLoop, setNode]

end SlotFs
