import Mathlib.Algebra.Ring.Nat
import Mathlib.Data.List.Basic

/-!
Numbers as lists of bytes, the least significant first.
-/

namespace Tt3d.LittleEndian

def value : List UInt8 → ℕ
  | [] => 0
  | b :: bs => b.toNat + 256 * value bs

/-- The `n` low bytes of a number. -/
def bytes : ℕ → ℕ → List UInt8
  | 0, _ => []
  | n + 1, x => UInt8.ofNat x :: bytes n (x / 256)

@[simp] theorem value_nil : value [] = 0 := rfl

@[simp] theorem value_cons (b : UInt8) (bs : List UInt8) :
    value (b :: bs) = b.toNat + 256 * value bs := rfl

@[simp] theorem length_bytes (n x : ℕ) : (bytes n x).length = n := by
  induction n generalizing x with
  | zero => rfl
  | succ n ih => rw [bytes, List.length_cons, ih]

theorem value_bytes {n x : ℕ} (h : x < 256 ^ n) : value (bytes n x) = x := by
  induction n generalizing x with
  | zero =>
      rw [Nat.pow_zero] at h
      exact (Nat.lt_one_iff.mp h).symm
  | succ n ih =>
      have hdiv : x / 256 < 256 ^ n := by
        rw [Nat.pow_succ] at h
        exact Nat.div_lt_of_lt_mul (by rwa [Nat.mul_comm] at h)
      rw [bytes, value_cons, ih hdiv, UInt8.toNat_ofNat']
      omega

theorem value_lt (bs : List UInt8) : value bs < 256 ^ bs.length := by
  induction bs with
  | nil => decide
  | cons b bs ih =>
      have hb : b.toNat < 256 := b.toNat_lt
      rw [value_cons, List.length_cons, Nat.pow_succ]
      omega

/-- As many bytes with the same value are the same bytes. -/
theorem value_injective {bs cs : List UInt8} (hlen : bs.length = cs.length)
    (h : value bs = value cs) : bs = cs := by
  induction bs generalizing cs with
  | nil => exact (List.length_eq_zero_iff.mp hlen.symm).symm
  | cons b bs ih =>
      cases cs with
      | nil => cases hlen
      | cons c cs =>
          have hb : b.toNat < 256 := b.toNat_lt
          have hc : c.toNat < 256 := c.toNat_lt
          rw [value_cons, value_cons] at h
          have hhead : b.toNat = c.toNat := by omega
          have htail : value bs = value cs := by omega
          rw [UInt8.toNat_inj.mp hhead, ih (Nat.succ.inj hlen) htail]

end Tt3d.LittleEndian
