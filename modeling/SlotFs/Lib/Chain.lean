import Mathlib

/-!
# Chains through a table

Every place of a table names a next one. A chain starts at its head and ends where
it reaches the place that the next element is going to take.
-/

namespace Chains
open Function List

variable {α : Type*} {next next' : α → α} {stop stop' head : α} {l : List α}
variable {a : α} {back front l' : List α}

inductive Chain (next : α → α) (stop : α) : α → List α → Prop
  | done : Chain next stop stop []
  | step {a : α} {l : List α} (other : a ≠ stop) (rest : Chain next stop (next a) l) :
      Chain next stop a (a :: l)

section
variable (h : Chain next stop head l)
include h

theorem Chain.congr (same : ∀ a ∈ l, next' a = next a) : Chain next' stop head l := by
  induction h with
  | done => exact .done
  | @step a l other _ ih =>
    have rest := ih fun b hb => same b (mem_cons_of_mem _ hb)
    rw [← same a (mem_cons_self ..)] at rest
    exact .step other rest

theorem Chain.unique (h' : Chain next stop head l') : l = l' := by
  induction h generalizing l' with
  | done =>
    cases h' with
    | done => rfl
    | step other _ => exact absurd rfl other
  | step other _ ih =>
    cases h' with
    | done => exact absurd rfl other
    | step _ rest => rw [ih rest]

/-- The place where the chain ended becomes its last element. -/
theorem Chain.extend [DecidableEq α] (new : stop' ∉ l) (other : stop' ≠ stop) :
    Chain (update next stop stop') stop' head (l ++ [stop]) := by
  induction h with
  | done =>
    refine .step other.symm ?_
    rw [update_self]
    exact .done
  | @step a l before _ ih =>
    obtain ⟨first, later⟩ : stop' ≠ a ∧ stop' ∉ l := by simpa using new
    refine .step (Ne.symm first) ?_
    rw [update_of_ne before]
    exact ih later

end

theorem Chain.next_eq (h : Chain next stop head (front ++ a :: back)) : next a = back.head?.getD stop := by
  induction front generalizing head with
  | nil =>
    cases h with
    | step _ rest =>
      cases rest with
      | done => rfl
      | step => rfl
  | cons b front ih =>
    cases h with
    | step _ rest => exact ih rest

theorem Chain.tail {a : α} (h : Chain next stop head (a :: l)) : head = a ∧ Chain next stop (next a) l := by
  cases h with
  | step _ rest => exact ⟨rfl, rest⟩

theorem Chain.nil (h : Chain next stop head []) : head = stop := by
  cases h with
  | done => rfl

theorem Chain.head_eq (h : Chain next stop head l) : head = l.head?.getD stop := by
  cases h with
  | done => rfl
  | step => rfl

theorem Chain.suffix (h : Chain next stop head (front ++ a :: back)) : Chain next stop a (a :: back) := by
  induction front generalizing head with
  | nil =>
    obtain rfl := h.tail.1
    exact h
  | cons b front ih => exact ih h.tail.2

theorem Chain.nodup (h : Chain next stop head l) : l.Nodup := by
  induction h with
  | done => exact nodup_nil
  | @step a l other rest ih =>
    refine nodup_cons.mpr ⟨fun member => ?_, ih⟩
    obtain ⟨front, back, rfl⟩ := append_of_mem member
    have same := congrArg List.length ((Chain.step other rest).unique rest.suffix)
    simp at same
    omega

/-- The element behind `p` is taken out of the chain. -/
theorem Chain.erase_next [DecidableEq α] {p : α} (h : Chain next stop head (front ++ p :: a :: back))
    (once : (front ++ p :: a :: back).Nodup) : Chain (update next p (next a)) stop head (front ++ p :: back) := by
  induction front generalizing head with
  | nil =>
    cases h with
    | step other rest =>
      have apart : p ∉ back := fun hp =>
        (nodup_cons.mp once).1 (mem_cons_of_mem _ hp)
      refine .step other ?_
      rw [update_self]
      refine rest.tail.2.congr fun b hb => update_of_ne ?_ _ _
      rintro rfl
      exact apart hb
  | cons b front ih =>
    cases h with
    | step other rest =>
      obtain ⟨first, once⟩ := nodup_cons.mp once
      have apart : b ≠ p := by
        rintro rfl
        exact first (mem_append_right _ (mem_cons_self ..))
      refine .step other ?_
      rw [update_of_ne apart]
      exact ih rest once

/-- The element `a` is put into the chain, behind `p`. -/
theorem Chain.insert {p : α} (h : Chain next stop head (front ++ p :: back)) (real : a ≠ stop)
    (there : next' p = a) (onward : next' a = next p) (same : ∀ x ∈ front ++ back, next' x = next x) :
    Chain next' stop head (front ++ p :: a :: back) := by
  induction front generalizing head with
  | nil =>
    cases h with
    | step other rest =>
      refine .step other ?_
      rw [there]
      refine .step real ?_
      rw [onward]
      exact rest.congr same
  | cons b front ih =>
    cases h with
    | step other rest =>
      refine .step other ?_
      rw [same b (mem_cons_self ..)]
      exact ih rest fun x member => same x (mem_cons_of_mem _ member)

/-- The table after `a` has been taken out of a chain, where `front` is the part of the
chain in front of it; `a` names `z` afterwards. -/
def unlinkNext [DecidableEq α] (next : α → α) (front : List α) (a z : α) : α → α :=
  update
    (match front.getLast? with
      | none => next
      | some p => update next p (next a)) a z

def unlinkHead (next : α → α) (head : α) (front : List α) (a : α) : α :=
  match front.getLast? with
  | none => next a
  | some _ => head

theorem unlinkNext_other [DecidableEq α] {x : α} (z : α) (outer : x ∉ front) (other : x ≠ a) :
    unlinkNext next front a z x = next x := by
  rw [unlinkNext, update_of_ne other]
  cases last : front.getLast? with
  | none => rfl
  | some p =>
    apply update_of_ne
    rintro rfl
    exact outer (mem_of_getLast? last)

theorem Chain.unlink [DecidableEq α] (h : Chain next stop head (front ++ a :: back))
    (once : (front ++ a :: back).Nodup) (z : α) :
    Chain (unlinkNext next front a z) stop (unlinkHead next head front a) (front ++ back) := by
  have others (b : α) (hb : b ∈ front ++ back) : b ≠ a := by
    rintro rfl
    exact (nodup_cons.mp (nodup_middle.mp once)).1 hb
  rcases eq_nil_or_concat front with rfl | ⟨front, p, rfl⟩
  · exact h.tail.2.congr fun b hb => update_of_ne (others b hb) _ _
  simp only [unlinkNext, unlinkHead, concat_eq_append, List.getLast?_append, List.getLast?_singleton,
    Option.some_or]
  rw [concat_append] at h once others
  rw [append_assoc]
  exact (h.erase_next once).congr fun b hb => update_of_ne (others b hb) _ _

theorem Chain.strip (h : Chain next stop head l) (h' : Chain next stop' head (l ++ l')) :
    Chain next stop' stop l' := by
  induction h with
  | done => exact h'
  | step _ _ ih => exact ih h'.tail.2

/-- Of two chains with one head the one whose end the other does not visit is the longer one. -/
theorem Chain.branch (h : Chain next stop head l) (h' : Chain next stop' head l') (avoids : stop' ∉ l) :
    ∃ rest, l' = l ++ rest ∧ Chain next stop' stop rest := by
  induction h generalizing l' with
  | done => exact ⟨l', rfl, h'⟩
  | @step a l other _ ih =>
    cases h' with
    | done => exact absurd (mem_cons_self ..) avoids
    | step _ rest =>
      obtain ⟨back, rfl, chain⟩ := ih rest fun member => avoids (mem_cons_of_mem _ member)
      exact ⟨back, rfl, chain⟩

/-- The chain is cut behind `front`, where it is led to `z`. -/
theorem Chain.cut {h z : α} (chain : Chain next stop (next h) (front ++ back)) (once : (h :: front).Nodup)
    (new : z ∉ front) (same : ∀ a ∈ h :: front, some a ≠ (h :: front).getLast? → next' a = next a)
    (last : ∀ a, (h :: front).getLast? = some a → next' a = z) : Chain next' z (next' h) front := by
  induction front generalizing h with
  | nil =>
    rw [last h rfl]
    exact .done
  | cons b front ih =>
    obtain ⟨first, rest⟩ := chain.tail
    obtain ⟨other, once⟩ := nodup_cons.mp once
    have here : next' h = b := by
      rw [same h (mem_cons_self ..), first]
      intro eq
      rw [List.getLast?_cons_cons] at eq
      exact other (mem_of_getLast? eq.symm)
    rw [here]
    refine .step (fun eq => new (eq ▸ mem_cons_self ..)) (ih rest once ?_ ?_ ?_)
    · exact fun mem => new (mem_cons_of_mem _ mem)
    · intro a mem
      have := same a (mem_cons_of_mem _ mem)
      rwa [List.getLast?_cons_cons] at this
    · intro a eq
      exact last a (by rwa [List.getLast?_cons_cons])

end Chains
