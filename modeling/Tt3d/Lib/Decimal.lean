import Mathlib.Data.Nat.Digits.Defs
import Mathlib.Tactic.Ring

/-!
Decimal numerals as lists of bytes.

`value` accumulates digits from the left, as a reader that sees one character at
a time does; `print` writes a number without leading zeros. Reading what was
printed gives the number back.
-/

namespace Tt3d.Decimal

/-- `isdigit` in the C locale. -/
def isDigit (b : UInt8) : Bool := 48 ≤ b.toNat && b.toNat ≤ 57

/-- The number a string of digits stands for, read on from `n`. -/
def valueFrom (n : ℕ) (ds : List UInt8) : ℕ := ds.foldl (fun n b => 10 * n + (b.toNat - 48)) n

def value (ds : List UInt8) : ℕ := valueFrom 0 ds

def digitChar (d : ℕ) : UInt8 := UInt8.ofNat (48 + d)

/-- The decimal numeral of a number. -/
def print (n : ℕ) : List UInt8 :=
  if n = 0 then [digitChar 0] else (Nat.digits 10 n).reverse.map digitChar

@[simp] theorem valueFrom_nil (n : ℕ) : valueFrom n [] = n := rfl

@[simp] theorem valueFrom_append (n : ℕ) (ds es : List UInt8) :
    valueFrom n (ds ++ es) = valueFrom (valueFrom n ds) es := List.foldl_append

@[simp] theorem valueFrom_singleton (n : ℕ) (b : UInt8) :
    valueFrom n [b] = 10 * n + (b.toNat - 48) := rfl

theorem toNat_digitChar {d : ℕ} (h : d < 10) : (digitChar d).toNat = 48 + d := by
  rw [digitChar, UInt8.toNat_ofNat']
  omega

theorem isDigit_digitChar {d : ℕ} (h : d < 10) : isDigit (digitChar d) = true := by
  simp only [isDigit, toNat_digitChar h, Bool.and_eq_true, decide_eq_true_eq]
  omega

theorem print_ne_nil (n : ℕ) : print n ≠ [] := by
  unfold print
  split
  · exact List.cons_ne_nil _ _
  · rename_i h
    simpa [Nat.digits_eq_nil_iff_eq_zero] using h

theorem isDigit_of_mem_print {n : ℕ} {b : UInt8} (h : b ∈ print n) : isDigit b = true := by
  unfold print at h
  split at h
  · obtain rfl := List.mem_singleton.mp h
    exact isDigit_digitChar (by decide)
  · obtain ⟨d, hd, rfl⟩ := List.mem_map.mp h
    exact isDigit_digitChar (Nat.digits_lt_base (by decide) (List.mem_reverse.mp hd))

/-- Digits given from the least significant one, read in writing order. -/
theorem value_map_reverse (ds : List ℕ) (h : ∀ d ∈ ds, d < 10) :
    value (ds.reverse.map digitChar) = Nat.ofDigits 10 ds := by
  induction ds with
  | nil => rfl
  | cons d ds ih =>
      have hd : d < 10 := h d List.mem_cons_self
      have hds : ∀ e ∈ ds, e < 10 := fun e he => h e (List.mem_cons_of_mem d he)
      have ih := ih hds
      unfold value at ih ⊢
      rw [List.reverse_cons, List.map_append, valueFrom_append, ih, List.map_singleton,
        valueFrom_singleton, toNat_digitChar hd, Nat.ofDigits_cons, Nat.add_sub_cancel_left]
      omega

/-- **Reading undoes printing.** -/
theorem value_print (n : ℕ) : value (print n) = n := by
  unfold print
  split
  · rename_i h
    rw [h]
    rfl
  · rw [value_map_reverse _ fun d hd => Nat.digits_lt_base (by decide) hd, Nat.ofDigits_digits]

end Tt3d.Decimal
