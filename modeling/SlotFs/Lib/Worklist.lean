import Mathlib

/-!
# Exploration with a queue

Elements are handled in the order in which they were queued. Handling one queues those
of its successors that have not been queued before. When all that was queued has been
handled, it is what can be reached from the root.
-/

namespace Worklist
open Relation List

variable {α : Type*} {succ : α → α → Prop} {root d : α} {handled queued more : List α}

structure Explored (succ : α → α → Prop) (root : α) (handled queued : List α) : Prop where
  first : handled <+: queued
  once : queued.Nodup
  start : root ∈ queued
  sound : ∀ c ∈ queued, ReflTransGen succ root c
  closed : ∀ d ∈ handled, ∀ c, succ d c → c ∈ queued

theorem Explored.init : Explored succ root [] [root] where
  first := nil_prefix
  once := nodup_singleton root
  start := mem_singleton_self root
  sound := by
    intro c member
    rw [mem_singleton.mp member]
  closed := fun _ member => absurd member not_mem_nil

section
variable (h : Explored succ root handled queued) (next : queued[handled.length]? = some d)
include h next

theorem Explored.split : ∃ rest, queued = handled ++ d :: rest := by
  obtain ⟨rest, rfl⟩ := h.first
  cases rest with
  | nil => simp at next
  | cons e rest =>
    obtain rfl : e = d := by simpa using next
    exact ⟨rest, rfl⟩

/-- What is handled next has not been handled. -/
theorem Explored.unhandled : d ∉ handled := by
  obtain ⟨rest, rfl⟩ := h.split next
  intro member
  exact (nodup_append.mp h.once).2.2 d member d (mem_cons_self ..) rfl

theorem Explored.step (once : (queued ++ more).Nodup) (only : ∀ c ∈ more, succ d c)
    (all : ∀ c, succ d c → c ∈ queued ++ more) : Explored succ root (handled ++ [d]) (queued ++ more) := by
  obtain ⟨rest, eq⟩ := h.split next
  constructor
  · exact ⟨rest ++ more, by simp [eq]⟩
  · exact once
  · exact mem_append_left _ h.start
  · intro c member
    rcases mem_append.mp member with member | member
    · exact h.sound c member
    · exact (h.sound d (mem_of_getElem? next)).tail (only c member)
  intro e member c edge
  rcases mem_append.mp member with member | member
  · exact mem_append_left _ (h.closed e member c edge)
  · rw [mem_singleton.mp member] at edge
    exact all c edge

end

end Worklist
