import SlotFs.Lib.Chain

/-!
# Doubly linked lists

A list runs from its head through `next` up to `null`. Every element but the first names the
one in front of it as `prev`; what the first one names is not said, since it is left as it was
when the head is taken off.
-/

namespace Dlists
open Chains List

variable {α : Type*} {next prev next' prev' : α → α} {null head p a : α} {l front back : List α}

structure Dlist (next prev : α → α) (null head : α) (l : List α) : Prop where
  chain : Chain next null head l
  linked : l.IsChain fun x y => prev y = x

theorem Dlist.congr (h : Dlist next prev null head l) (sameNext : ∀ x ∈ l, next' x = next x)
    (samePrev : ∀ x ∈ l, prev' x = prev x) : Dlist next' prev' null head l where
  chain := h.chain.congr sameNext
  linked := h.linked.imp_of_mem_imp fun _ y _ member eq => (samePrev y member).trans eq

theorem Dlist.nil : Dlist next prev null null [] := ⟨.done, .nil⟩

theorem Dlist.eq_nil (h : Dlist next prev null null l) : l = [] := h.chain.unique .done

theorem Dlist.ne_null (h : Dlist next prev null head l) (member : a ∈ l) : a ≠ null := by
  obtain ⟨front, back, rfl⟩ := append_of_mem member
  cases h.chain.suffix with
  | step other _ => exact other

section
variable (h : Dlist next prev null head (front ++ p :: a :: back))
include h

theorem Dlist.prev_eq : prev a = p :=
  (isChain_append_cons_cons.mp h.linked).2.1

theorem Dlist.next_eq : next a = back.head?.getD null := by
  have chain := h.chain
  rw [append_cons] at chain
  exact chain.next_eq

end

/-! ## Taking an element out -/

theorem Dlist.pop (h : Dlist next prev null head (a :: l)) : head = a ∧ Dlist next prev null (next a) l :=
  ⟨h.chain.tail.1, h.chain.tail.2, h.linked.tail⟩

/-- The element `a` behind `p` is taken out. -/
theorem Dlist.erase (h : Dlist next prev null head (front ++ p :: a :: back))
    (skip : next' p = next a) (link : ∀ b ∈ back.head?, prev' b = p)
    (sameNext : ∀ x ∈ front ++ back, next' x = next x)
    (samePrev : ∀ x ∈ front ++ p :: back.tail, prev' x = prev x) :
    Dlist next' prev' null head (front ++ p :: back) := by
  classical
  have once := h.chain.nodup
  constructor
  · refine (h.chain.erase_next once).congr fun x member => ?_
    by_cases eq : x = p
    · rw [eq, skip, Function.update_self]
    · rw [Function.update_of_ne eq, sameNext x]
      simp only [mem_append, mem_cons, eq, false_or] at member ⊢
      exact member
  obtain ⟨before, _, behind⟩ := isChain_append_cons_cons.mp h.linked
  refine isChain_split.mpr ⟨before.imp_of_mem_imp fun x y _ member eq => ?_, ?_⟩
  · rw [samePrev y, eq]
    simp only [mem_append, mem_cons, not_mem_nil, or_false] at member ⊢
    exact member.imp_right .inl
  cases back with
  | nil => exact .singleton p
  | cons b back =>
    refine .cons_cons (link b rfl) (behind.tail.imp_of_mem_tail_imp fun x y _ member eq => ?_)
    rw [samePrev y, eq]
    exact mem_append_right _ (mem_cons_of_mem _ member)

/-! ## Putting an element in -/

/-- The element `a` is put in front of the list. -/
theorem Dlist.push (h : Dlist next prev null head l) (real : a ≠ null) (onward : next' a = head)
    (link : ∀ b ∈ l.head?, prev' b = a) (sameNext : ∀ x ∈ l, next' x = next x)
    (samePrev : ∀ x ∈ l.tail, prev' x = prev x) : Dlist next' prev' null a (a :: l) := by
  constructor
  · refine .step real ?_
    rw [onward]
    exact h.chain.congr sameNext
  · refine List.IsChain.cons (h.linked.imp_of_mem_tail_imp fun x y _ member eq => ?_) link
    rw [samePrev y member, eq]

/-- The element `a` is put behind `p`. -/
theorem Dlist.insert (h : Dlist next prev null head (front ++ p :: back)) (real : a ≠ null)
    (there : next' p = a) (onward : next' a = next p) (behind : prev' a = p)
    (link : ∀ b ∈ back.head?, prev' b = a) (sameNext : ∀ x ∈ front ++ back, next' x = next x)
    (samePrev : ∀ x ∈ front ++ p :: back.tail, prev' x = prev x) :
    Dlist next' prev' null head (front ++ p :: a :: back) := by
  refine ⟨h.chain.insert real there onward sameNext, ?_⟩
  obtain ⟨before, after⟩ := isChain_split.mp h.linked
  refine isChain_append_cons_cons.mpr
    ⟨before.imp_of_mem_imp fun x y _ member eq => ?_, behind, ?_⟩
  · rw [samePrev y, eq]
    simp only [mem_append, mem_cons, not_mem_nil, or_false] at member ⊢
    exact member.imp_right .inl
  · refine List.IsChain.cons (after.tail.imp_of_mem_tail_imp fun x y _ member eq => ?_) link
    rw [samePrev y, eq]
    exact mem_append_right _ (mem_cons_of_mem _ member)

end Dlists
