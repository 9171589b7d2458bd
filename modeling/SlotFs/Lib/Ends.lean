import Mathlib

/-!
# Postconditions of programs that may fail

`Ends x Q` says that the result of `x` satisfies `Q` if there is one, and the rules
follow the shape of a program written in the `Option` monad.
-/

namespace Outcome

variable {α β : Type}

def Ends (x : Option α) (Q : α → Prop) : Prop := ∀ a, x = some a → Q a

theorem Ends.some {Q : α → Prop} {a : α} (h : Q a) : Ends (some a) Q := by
  rintro _ ⟨⟩
  exact h

theorem Ends.none {Q : α → Prop} : Ends none Q := nofun

theorem Ends.bind {x : Option α} {f : α → Option β} {Q : β → Prop}
    (h : ∀ a, x = Option.some a → Ends (f a) Q) : Ends (x >>= f) Q := by
  intro b call
  obtain ⟨a, eq, call⟩ := Option.bind_eq_some_iff.mp call
  exact h a eq b call

theorem Ends.map {x : Option α} {f : α → β} {Q : β → Prop} (h : Ends x fun a => Q (f a)) : Ends (x.map f) Q := by
  intro b call
  obtain ⟨a, eq, rfl⟩ := Option.map_eq_some_iff.mp call
  exact h a eq

end Outcome
