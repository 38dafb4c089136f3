import Mathlib.Algebra.GroupWithZero.Nat
import Mathlib.Algebra.Ring.Int.Defs

/-!
Unsigned numbers stored into 32-bit signed integers, and back.

The conversions keep the number modulo `2 ^ 32` and `2 ^ 64`, as compilers for two's
complement machines define them.
-/

namespace Tt3d.MachineInt

/-- The 32-bit signed integer that `n` is stored as. -/
def toInt (n : ℕ) : ℤ := (n : ℤ).bmod (2 ^ 32)

theorem toInt_of_lt {n : ℕ} (h : n < 2 ^ 31) : toInt n = n := by
  unfold toInt
  exact Int.bmod_eq_of_le (by omega) (by omega)

/-- A number that does not fit is stored as one that is smaller by whole turns. -/
theorem toInt_le_of_le {n : ℕ} (h : 2 ^ 31 ≤ n) : toInt n + 2 ^ 32 ≤ n := by
  unfold toInt
  rw [Int.bmod_def]
  split <;> omega

theorem toInt_lt (n : ℕ) : toInt n < 2 ^ 31 := by
  unfold toInt
  rw [Int.bmod_def]
  split <;> omega

/-- The 64-bit unsigned number that `i` is converted to. -/
def toSize (i : ℤ) : ℕ := (i % 2 ^ 64).toNat

theorem toSize_natCast {n : ℕ} (h : n < 2 ^ 64) : toSize n = n := by
  unfold toSize
  omega

end Tt3d.MachineInt
