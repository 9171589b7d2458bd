import Mathlib

/-!
# 64-bit words that remember whether they are exact

An unsigned operation whose result does not fit wraps. A `Checked` word carries the value
that the machine has together with the answer to whether any operation on the way to it
wrapped.
-/

structure Checked where
  value : Nat
  fits : Bool
deriving DecidableEq

namespace Checked

/-- A word that is given. -/
def of (n : Nat) : Checked := ⟨n, true⟩

/-- The result `n` of an operation, cut to 64 bits. -/
def cut (n : Int) (fits : Bool) : Checked := ⟨(n % 2 ^ 64).toNat, fits && decide (0 ≤ n ∧ n < 2 ^ 64)⟩

instance : Add Checked := ⟨fun a b => cut (a.value + b.value) (a.fits && b.fits)⟩
instance : Sub Checked := ⟨fun a b => cut (a.value - b.value) (a.fits && b.fits)⟩
instance : Mul Checked := ⟨fun a b => cut (a.value * b.value) (a.fits && b.fits)⟩
instance : Div Checked := ⟨fun a b => ⟨a.value / b.value, a.fits && b.fits⟩⟩
instance : HShiftLeft Checked Nat Checked := ⟨fun a n => cut (a.value * 2 ^ n) a.fits⟩
instance : HShiftRight Checked Nat Checked := ⟨fun a n => ⟨a.value / 2 ^ n, a.fits⟩⟩

theorem cut_of_lt {n : Nat} (small : n < 2 ^ 64) : cut n true = of n := by
  have inside : (0 : Int) ≤ n ∧ (n : Int) < 2 ^ 64 := ⟨by omega, by exact_mod_cast small⟩
  have same : ((n : Int) % 2 ^ 64).toNat = n := by
    rw [Int.emod_eq_of_lt inside.1 inside.2]
    exact Int.toNat_natCast n
  rw [cut, of, same, decide_eq_true inside, Bool.and_self]

variable {a b n : Nat}

theorem of_add (small : a + b < 2 ^ 64) : of a + of b = of (a + b) := by
  change cut ((a : Int) + b) true = _
  exact_mod_cast cut_of_lt small

theorem of_sub (le : b ≤ a) (small : a < 2 ^ 64) : of a - of b = of (a - b) := by
  change cut ((a : Int) - b) true = _
  rw [← Int.ofNat_sub le]
  exact cut_of_lt (Nat.lt_of_le_of_lt (Nat.sub_le a b) small)

theorem of_mul (small : a * b < 2 ^ 64) : of a * of b = of (a * b) := by
  change cut ((a : Int) * b) true = _
  exact_mod_cast cut_of_lt small

theorem of_div : of a / of b = of (a / b) := rfl

theorem of_shiftLeft (small : a * 2 ^ n < 2 ^ 64) : of a <<< n = of (a * 2 ^ n) := by
  change cut ((a : Int) * 2 ^ n) true = _
  exact_mod_cast cut_of_lt small

theorem of_shiftRight : of a >>> n = of (a / 2 ^ n) := rfl

end Checked
