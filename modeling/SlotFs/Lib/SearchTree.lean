import Mathlib

/-!
# Search trees

Binary trees whose elements are ordered by a key. What a rebalancing does to a tree
does not show in the list of its elements from left to right, so the lemmas speak of
that list.
-/

namespace BinaryTree
open List

variable {α κ : Type*}

/-- The elements from left to right. -/
def nodes : BinaryTree α → List α
  | nil => []
  | node a l r => l.nodes ++ a :: r.nodes

variable [LinearOrder κ] (key : α → κ)

/-- A new leaf for `x` at the place that its key leads to, if no key on the way is
equal. -/
def link (x : α) : BinaryTree α → Option (BinaryTree α)
  | nil => some (node x nil nil)
  | node a l r =>
    if key x < key a then (l.link x).map fun l => node a l r
    else if key a < key x then (r.link x).map fun r => node a l r
    else none

def find (k : κ) : BinaryTree α → Option α
  | nil => none
  | node a l r =>
    if k < key a then l.find k
    else if key a < k then r.find k
    else some a

/-- The keys ascend from left to right. -/
def Ordered (t : BinaryTree α) : Prop := t.nodes.Pairwise fun a b => key a < key b

variable {key} {t l r : BinaryTree α} {a x : α}

theorem Ordered.congr (h : t.Ordered key) {key' : α → κ} (same : ∀ b ∈ t.nodes, key' b = key b) :
    t.Ordered key' := by
  apply List.Pairwise.imp_of_mem _ h
  intro b c hb hc less
  rw [same b hb, same c hc]
  exact less

theorem ordered_node : (node a l r).Ordered key ↔ l.Ordered key ∧ r.Ordered key ∧
    (∀ b ∈ l.nodes, key b < key a) ∧ ∀ c ∈ r.nodes, key a < key c := by
  simp only [Ordered, nodes, pairwise_append, pairwise_cons, forall_mem_cons]
  constructor
  · rintro ⟨left, ⟨above, right⟩, apart⟩
    exact ⟨left, right, fun b hb => (apart b hb).1, above⟩
  · rintro ⟨left, right, below, above⟩
    exact ⟨left, ⟨above, right⟩, fun b hb => ⟨below b hb, fun c hc => (below b hb).trans (above c hc)⟩⟩

/-- A new element stands between the smaller and the larger ones. -/
theorem link_nodes {t' : BinaryTree α} (ordered : t.Ordered key) (call : t.link key x = some t') :
    ∃ front back, t.nodes = front ++ back ∧ t'.nodes = front ++ x :: back ∧
      (∀ b ∈ front, key b < key x) ∧ ∀ c ∈ back, key x < key c := by
  induction t generalizing t' with
  | nil =>
    cases call
    exact ⟨[], [], rfl, rfl, fun _ h => (nomatch h), fun _ h => nomatch h⟩
  | node a l r left right =>
    obtain ⟨hl, hr, below, above⟩ := ordered_node.mp ordered
    simp only [link] at call
    split at call
    · rename_i smaller
      obtain ⟨l', linked, rfl⟩ := Option.map_eq_some_iff.mp call
      obtain ⟨front, back, split, grown, lower, upper⟩ := left hl linked
      refine ⟨front, back ++ a :: r.nodes, by simp [nodes, split], by simp [nodes, grown], lower,
        fun c hc => ?_⟩
      rcases mem_append.mp hc with hc | hc
      · exact upper c hc
      · rcases mem_cons.mp hc with rfl | hc
        · exact smaller
        · exact smaller.trans (above c hc)
    split at call
    · rename_i larger
      obtain ⟨r', linked, rfl⟩ := Option.map_eq_some_iff.mp call
      obtain ⟨front, back, split, grown, lower, upper⟩ := right hr linked
      refine ⟨l.nodes ++ a :: front, back, by simp [nodes, split], by simp [nodes, grown],
        fun b hb => ?_, upper⟩
      rcases mem_append.mp hb with hb | hb
      · exact (below b hb).trans larger
      · rcases mem_cons.mp hb with rfl | hb
        · exact larger
        · exact lower b hb
    · cases call

theorem link_ordered {t' : BinaryTree α} (ordered : t.Ordered key) (call : t.link key x = some t') :
    t'.Ordered key ∧ t'.nodes.Perm (x :: t.nodes) := by
  obtain ⟨front, back, split, grown, lower, upper⟩ := link_nodes ordered call
  rw [Ordered, split, pairwise_append] at ordered
  obtain ⟨first, last, apart⟩ := ordered
  constructor
  · rw [Ordered, grown, pairwise_append, pairwise_cons]
    refine ⟨first, ⟨upper, last⟩, fun b hb c hc => ?_⟩
    rcases mem_cons.mp hc with rfl | hc
    · exact lower b hb
    · exact apart b hb c hc
  · rw [grown, split]
    exact perm_middle

theorem link_new (new : ∀ b ∈ t.nodes, key b ≠ key x) : ∃ t', t.link key x = some t' := by
  induction t with
  | nil => exact ⟨_, rfl⟩
  | node a l r left right =>
    simp only [nodes, forall_mem_append, forall_mem_cons] at new
    obtain ⟨hl, ha, hr⟩ := new
    obtain ⟨l', left⟩ := left hl
    obtain ⟨r', right⟩ := right hr
    rcases lt_or_gt_of_ne ha with smaller | larger
    · exact ⟨_, by rw [link, if_neg smaller.not_gt, if_pos smaller, right]; rfl⟩
    · exact ⟨_, by rw [link, if_pos larger, left]; rfl⟩

theorem find_eq_some {k : κ} (ordered : t.Ordered key) : t.find key k = some x ↔ x ∈ t.nodes ∧ key x = k := by
  induction t with
  | nil => simp [find, nodes]
  | node a l r left right =>
    obtain ⟨hl, hr, below, above⟩ := ordered_node.mp ordered
    simp only [find, nodes, mem_append, mem_cons]
    split
    · rename_i smaller
      rw [left hl]
      constructor
      · exact fun ⟨member, same⟩ => ⟨Or.inl member, same⟩
      rintro ⟨member | rfl | member, rfl⟩
      · exact ⟨member, rfl⟩
      · exact absurd smaller (lt_irrefl _)
      · exact absurd (above x member) smaller.not_gt
    split
    · rename_i larger
      rw [right hr]
      constructor
      · exact fun ⟨member, same⟩ => ⟨Or.inr (Or.inr member), same⟩
      rintro ⟨member | rfl | member, rfl⟩
      · exact absurd (below x member) larger.not_gt
      · exact absurd larger (lt_irrefl _)
      · exact ⟨member, rfl⟩
    rename_i notSmaller notLarger
    have equal : key a = k := le_antisymm (not_lt.mp notSmaller) (not_lt.mp notLarger)
    constructor
    · rintro ⟨⟩
      exact ⟨Or.inr (Or.inl rfl), equal⟩
    rintro ⟨member | rfl | member, same⟩
    · exact absurd (below x member) (by rw [equal, same]; exact lt_irrefl _)
    · rfl
    · exact absurd (above x member) (by rw [equal, same]; exact lt_irrefl _)

end BinaryTree
