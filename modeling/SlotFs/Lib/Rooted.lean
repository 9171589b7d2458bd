import Mathlib

/-!
# Rooted trees given by a relation

A relation between parents and children is a tree when no node has two parents, the root
has none and every node can be reached from the root. There are then no cycles. A tree
stays one when it gets a leaf, and when a node is given to a parent that is not below it.
-/

namespace Trees
open Relation

variable {ι : Type*} {child child' : ι → ι → Prop} {root : ι} {node node' : ι → Prop}

structure Rooted (child : ι → ι → Prop) (root : ι) (node : ι → Prop) : Prop where
  nodes : ∀ o p, child o p → node p
  unique : ∀ o o' p, child o p → child o' p → o = o'
  top : ∀ o, ¬ child o root
  reach : ∀ p, node p → ReflTransGen child root p

section
variable (h : Rooted child root node)
include h

theorem Rooted.not_cycle_of_reach {p : ι} (reach : ReflTransGen child root p) : ¬ TransGen child p p := by
  induction reach with
  | refl =>
    intro cycle
    obtain ⟨o, _, last⟩ := TransGen.tail'_iff.mp cycle
    exact h.top o last
  | tail _ edge ih =>
    intro cycle
    obtain ⟨o, rest, last⟩ := TransGen.tail'_iff.mp cycle
    obtain rfl := h.unique _ _ _ edge last
    exact ih (.head' edge rest)

theorem Rooted.acyclic (p : ι) : ¬ TransGen child p p := by
  intro cycle
  obtain ⟨o, _, last⟩ := TransGen.tail'_iff.mp cycle
  exact h.not_cycle_of_reach (h.reach p (h.nodes o p last)) cycle

theorem Rooted.congr (edges : ∀ o p, child' o p ↔ child o p) (nodes : ∀ p, node' p ↔ node p) :
    Rooted child' root node' := by
  obtain rfl : child' = child := funext fun o => funext fun p => propext (edges o p)
  obtain rfl : node' = node := funext fun p => propext (nodes p)
  exact h

/-- A node `p` that was not there becomes a child of `q`. -/
theorem Rooted.insert {p q : ι} (new : ¬ node p) (there : node q) (other : p ≠ root)
    (edges : ∀ o r, child' o r ↔ child o r ∨ o = q ∧ r = p) (nodes : ∀ r, node' r ↔ node r ∨ r = p) :
    Rooted child' root node' := by
  have orphan (o : ι) : ¬ child o p := fun edge => new (h.nodes o p edge)
  have wider {r : ι} (reach : ReflTransGen child root r) : ReflTransGen child' root r :=
    ReflTransGen.mono (fun o r edge => (edges o r).mpr (.inl edge)) _ _ reach
  constructor
  · intro o r edge
    obtain edge | ⟨_, rfl⟩ := (edges o r).mp edge
    · exact (nodes r).mpr (.inl (h.nodes o r edge))
    · exact (nodes r).mpr (.inr rfl)
  · intro o o' r edge edge'
    obtain edge | ⟨rfl, rfl⟩ := (edges o r).mp edge <;> obtain edge' | ⟨rfl, last⟩ := (edges o' _).mp edge'
    · exact h.unique o o' r edge edge'
    · exact absurd (last ▸ edge) (orphan o)
    · exact absurd edge' (orphan o')
    · rfl
  · intro o edge
    obtain edge | ⟨_, same⟩ := (edges o root).mp edge
    · exact h.top o edge
    · exact other same.symm
  intro r member
  obtain member | rfl := (nodes r).mp member
  · exact wider (h.reach r member)
  · exact (wider (h.reach q there)).tail ((edges q r).mpr (.inr ⟨rfl, rfl⟩))

end

theorem reach_after_move {p q r : ι} (edges : ∀ o r, child' o r ↔ child o r ∧ r ≠ p ∨ o = q ∧ r = p)
    (reach : ReflTransGen child root r) :
    ReflTransGen child' root r ∨ ReflTransGen child p r ∧ ReflTransGen child' p r := by
  induction reach with
  | refl => exact .inl .refl
  | @tail o r _ edge ih =>
    by_cases moved : r = p
    · subst moved
      exact .inr ⟨.refl, .refl⟩
    have kept : child' o r := (edges o r).mpr (.inl ⟨edge, moved⟩)
    obtain before | ⟨below, after⟩ := ih
    · exact .inl (before.tail kept)
    · exact .inr ⟨below.tail edge, after.tail kept⟩

/-- The node `p` becomes a child of `q`, which is not below `p`. -/
theorem Rooted.move (h : Rooted child root node) {p q : ι} (there : node p) (target : node q)
    (other : p ≠ root) (apart : ¬ ReflTransGen child p q)
    (edges : ∀ o r, child' o r ↔ child o r ∧ r ≠ p ∨ o = q ∧ r = p) : Rooted child' root node := by
  have target : ReflTransGen child' root q := by
    obtain reach | ⟨below, _⟩ := reach_after_move edges (h.reach q target)
    · exact reach
    · exact absurd below apart
  have moved : ReflTransGen child' root p := target.tail ((edges q p).mpr (.inr ⟨rfl, rfl⟩))
  constructor
  · intro o r edge
    obtain ⟨edge, _⟩ | ⟨_, rfl⟩ := (edges o r).mp edge
    · exact h.nodes o r edge
    · exact there
  · intro o o' r edge edge'
    obtain ⟨edge, ne⟩ | ⟨rfl, rfl⟩ := (edges o r).mp edge <;>
      obtain ⟨edge', ne'⟩ | ⟨rfl, same⟩ := (edges o' _).mp edge'
    · exact h.unique o o' r edge edge'
    · exact absurd same ne
    · exact absurd rfl ne'
    · rfl
  · intro o edge
    obtain ⟨edge, _⟩ | ⟨_, same⟩ := (edges o root).mp edge
    · exact h.top o edge
    · exact other same.symm
  intro r member
  obtain reach | ⟨_, below⟩ := reach_after_move edges (h.reach r member)
  · exact reach
  · exact moved.trans below

end Trees
