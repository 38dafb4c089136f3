import Mathlib.Data.List.Count
import Mathlib.Data.Nat.ModEq

/-!
Turns in a round.

`n` places are given turns one after another, the first again after the last. Over any
stretch of turns, whatever place it starts at, the places have had equally many turns, or
one more than others where the stretch is not a number of whole rounds.
-/

namespace Tt3d.RoundRobin

/-- The next `k` turns, from place `i` on. -/
def turns (n : ℕ) : (k : ℕ) → (i : ℕ) → List ℕ
  | 0, _ => []
  | k + 1, i => i :: turns n k ((i + 1) % n)

/-- `c` is `k / n`, rounded down or up. -/
def Share (n k c : ℕ) : Prop := c = k / n ∨ c = (k + n - 1) / n

instance (n k c : ℕ) : Decidable (Share n k c) := inferInstanceAs (Decidable (_ ∨ _))

variable {n k i j : ℕ}

@[simp] theorem length_turns (n k i : ℕ) : (turns n k i).length = k := by
  induction k generalizing i with
  | zero => rfl
  | succ k ih => simp [turns, ih]

/-- Turns that come around are counted by whole rounds. -/
theorem count_turns_add (hi : i < n) (hj : j < n) :
    (turns n k i).count j + (if j < i then 1 else 0) =
      (i + k) / n + if j < (i + k) % n then 1 else 0 := by
  induction k generalizing i with
  | zero =>
      rw [turns, List.count_nil, Nat.add_zero, Nat.div_eq_of_lt hi, Nat.mod_eq_of_lt hi]
  | succ k ih =>
      rw [turns, List.count_cons]
      rcases Nat.lt_or_ge (i + 1) n with hlt | hge
      · rw [Nat.mod_eq_of_lt hlt]
        have hrest := ih hlt
        rw [show i + (k + 1) = i + 1 + k by omega, ← hrest]
        simp only [beq_iff_eq]
        split_ifs <;> omega
      · -- the round is over
        obtain rfl : n = i + 1 := by omega
        have hpos : 0 < i + 1 := by omega
        have hrest := ih hpos
        rw [if_neg (Nat.not_lt_zero j), Nat.zero_add, Nat.add_zero] at hrest
        rw [Nat.mod_self, hrest, show i + (k + 1) = k + (i + 1) by omega, Nat.add_mod_right,
          Nat.add_div_right _ hpos]
        simp only [beq_iff_eq]
        split_ifs <;> omega

/-- The turns from the first place on. -/
theorem count_turns_zero (hj : j < n) :
    (turns n k 0).count j = k / n + if j < k % n then 1 else 0 := by
  have h := count_turns_add (k := k) (i := 0) (by omega) hj
  rwa [if_neg (Nat.not_lt_zero j), Nat.zero_add, Nat.add_zero] at h

theorem ceil_eq (hn : 0 < n) : (k + n - 1) / n = k / n + if k % n = 0 then 0 else 1 := by
  obtain ⟨m, rfl⟩ : ∃ m, n = m + 1 := ⟨n - 1, by omega⟩
  rw [Nat.add_succ_sub_one, Nat.add_div hn, Nat.div_eq_of_lt (Nat.lt_succ_self m),
    Nat.mod_eq_of_lt (Nat.lt_succ_self m)]
  have := Nat.mod_lt k hn
  split_ifs <;> omega

/-- **Every place has its share of the turns.** -/
theorem share_turns (hi : i < n) (hj : j < n) : Share n k ((turns n k i).count j) := by
  have hn : 0 < n := by omega
  have hmod := Nat.mod_lt k hn
  have hmodi := Nat.mod_eq_of_lt hi
  have h := count_turns_add (k := k) hi hj
  rw [Nat.add_div hn, Nat.div_eq_of_lt hi, hmodi] at h
  rw [Share, ceil_eq hn]
  rcases Nat.lt_or_ge (i + k % n) n with hlt | hge
  · have hrest : (i + k) % n = i + k % n := by
      rw [Nat.add_mod_of_add_mod_lt (by rwa [hmodi]), hmodi]
    rw [if_neg (Nat.not_le_of_lt hlt), hrest] at h
    split_ifs at h ⊢ <;> omega
  · -- the stretch goes around once more than its whole rounds
    have hrest : (i + k) % n + n = i + k % n := by
      rw [Nat.add_mod_add_of_le_add_mod (by rwa [hmodi]), hmodi]
    rw [if_pos hge] at h
    split_ifs at h ⊢ <;> omega

/-- Nobody is left out just when there are as many turns as places. -/
theorem forall_count_turns_pos_iff (hn : 0 < n) :
    (∀ j < n, 1 ≤ (turns n k 0).count j) ↔ n ≤ k := by
  constructor
  · intro h
    by_contra hlt
    have hlast := h (n - 1) (by omega)
    rw [count_turns_zero (by omega), Nat.div_eq_of_lt (by omega), Nat.mod_eq_of_lt (by omega),
      if_neg (by omega)] at hlast
    omega
  · intro hle j hj
    rw [count_turns_zero hj]
    have := Nat.div_pos hle hn
    omega

end Tt3d.RoundRobin
