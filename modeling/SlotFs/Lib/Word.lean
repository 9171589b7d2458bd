import Mathlib

/-!
# C integer conversions

Unsigned 64-bit values are natural numbers below `2 ^ 64`; the operations that
can leave that range are written with an explicit wrap. `toInt32` and `toSize`
are the conversions a value passes through when a function computes in an
unsigned type, returns `int`, and the caller stores the result in an unsigned
variable again.
-/

namespace CWord

def wrap64 (n : Nat) : Nat := n % 2 ^ 64

/-- Unsigned subtraction of values below `2 ^ 64`. -/
def sub64 (a b : Nat) : Nat := (a + 2 ^ 64 - b) % 2 ^ 64

def trunc32 (n : Nat) : Nat := n % 2 ^ 32

/-- Conversion to a 32-bit `int`, which keeps the low 32 bits. -/
def toInt32 (n : Nat) : Int := (n : Int).bmod (2 ^ 32)

/-- Conversion of an unsigned 64-bit value to a signed one. -/
def toInt64 (n : Nat) : Int := (n : Int).bmod (2 ^ 64)

/-- Conversion of a signed value to an unsigned 64-bit one. -/
def toSize (i : Int) : Nat := if 0 ≤ i then i.toNat else (i + 2 ^ 64).toNat

/-- The value of unsigned 64-bit arithmetic with a signed operand. -/
def wrapInt64 (i : Int) : Nat := (i % 2 ^ 64).toNat

theorem wrap64_of_lt {n : Nat} (h : n < 2 ^ 64) : wrap64 n = n := Nat.mod_eq_of_lt h

theorem wrap64_lt (n : Nat) : wrap64 n < 2 ^ 64 := Nat.mod_lt _ (by decide)

theorem sub64_of_le {a b : Nat} (hab : b ≤ a) (ha : a < 2 ^ 64) : sub64 a b = a - b := by
  unfold sub64
  omega

theorem sub64_lt (a b : Nat) : sub64 a b < 2 ^ 64 := Nat.mod_lt _ (by decide)

theorem trunc32_of_lt {n : Nat} (h : n < 2 ^ 32) : trunc32 n = n := Nat.mod_eq_of_lt h

theorem toInt32_of_lt {n : Nat} (h : n < 2 ^ 31) : toInt32 n = n := by
  unfold toInt32
  rw [Int.bmod_def]
  omega

theorem toInt32_eq {n k : Nat} (h : n < 2 ^ 32) (small : k < 2 ^ 31) : toInt32 n = k ↔ n = k := by
  unfold toInt32
  rw [Int.bmod_def]
  omega

theorem toInt64_of_lt {n : Nat} (h : n < 2 ^ 63) : toInt64 n = n := by
  unfold toInt64
  rw [Int.bmod_def]
  omega

theorem toInt64_eq_iff {n : Nat} (h : n < 2 ^ 64) : toInt64 n = n ↔ n < 2 ^ 63 := by
  unfold toInt64
  rw [Int.bmod_def]
  omega

@[simp] theorem toSize_natCast (n : Nat) : toSize n = n := by simp [toSize]

/-- The round trip is exact below `2 ^ 31`. -/
theorem toSize_toInt32 {n : Nat} (h : n < 2 ^ 31) : toSize (toInt32 n) = n := by
  rw [toInt32_of_lt h, toSize_natCast]

/-- The first value the round trip loses comes back close to `2 ^ 64`. -/
theorem toSize_toInt32_limit : toSize (toInt32 (2 ^ 31)) = 2 ^ 64 - 2 ^ 31 := by decide

end CWord
