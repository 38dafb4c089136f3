import Mathlib.Data.Int.ModEq
import Mathlib.Tactic.Linarith
import Mathlib.Tactic.Ring

/-!
The arithmetic of a hierarchical timing wheel.

Level `i` of a wheel with `B` slots a level is indexed by the digit
`e / B ^ i % B` of a due time `e`. The digit alone does not say in which turn
of the level the entry is due; `Ahead` is the window that does: an entry is
filed less than one full turn ahead of the block of level `i` that was emptied
last. The rules say how an entry gets into the window, how it stays there while
time advances, and that the list emptied at time `t` holds exactly the entries
of `t`'s own block.
-/

namespace Tt3d.RadixWheel

variable {B : ℤ} {i : ℕ} {m t e : ℤ}

/-- The slot of level `i` in which a due time is filed. -/
def slotIndex (B : ℤ) (i : ℕ) (e : ℤ) : ℤ := e / B ^ i % B

/-- Seen from time `m`, the last one level `i` was served for, the block of `e`
lies ahead by at most one turn of the level. -/
def Ahead (B : ℤ) (i : ℕ) (m e : ℤ) : Prop :=
  m / B ^ i < e / B ^ i ∧ e / B ^ i ≤ m / B ^ i + B

@[simp] theorem ahead_zero : Ahead B 0 m e ↔ m < e ∧ e ≤ m + B := by simp [Ahead]

theorem Ahead.lt (hB : 0 < B) (h : Ahead B i m e) : m < e := by
  by_contra hle
  have hdiv : e / B ^ i ≤ m / B ^ i :=
    Int.ediv_le_ediv (pow_pos hB i) (not_lt.mp hle)
  exact absurd h.1 (not_lt.mpr hdiv)

/-- An entry filed at time `u`, which is `m` or the instant after it, lies
ahead of `m` on the level chosen by its distance. -/
theorem ahead_of_distance {u : ℤ} (hB : 0 < B) (hu : u = m ∨ u = m + 1) (hme : m < e)
    (hlow : i = 0 ∨ B ^ i ≤ e - u) (hhigh : e - u < B ^ (i + 1)) :
    Ahead B i m e := by
  have hb : 0 < B ^ i := pow_pos hB i
  have hpow : B ^ (i + 1) = B * B ^ i := by ring
  constructor
  · rcases hlow with rfl | hlow
    · simpa using hme
    · have hstep : m / B ^ i + 1 = (m + B ^ i) / B ^ i :=
        (Int.add_ediv_of_dvd_right dvd_rfl).trans
          (by rw [Int.ediv_self hb.ne']) |>.symm
      have hle : (m + B ^ i) / B ^ i ≤ e / B ^ i :=
        Int.ediv_le_ediv hb (by rcases hu with rfl | rfl <;> linarith)
      omega
  · have hle : e / B ^ i ≤ (m + B * B ^ i) / B ^ i :=
      Int.ediv_le_ediv hb (by rcases hu with rfl | rfl <;> linarith)
    rwa [Int.add_mul_ediv_right _ _ hb.ne'] at hle

/-- Block boundaries: the block changes at the multiples of its length only. -/
theorem sub_one_ediv_of_dvd {b : ℤ} (hb : 0 < b) (ht : b ∣ t) :
    (t - 1) / b = t / b - 1 := by
  obtain ⟨q, rfl⟩ := ht
  rw [Int.mul_ediv_cancel_left _ hb.ne']
  have : b * q - 1 = (b - 1) + b * (q - 1) := by ring
  rw [this, Int.add_mul_ediv_left _ _ hb.ne', Int.ediv_eq_zero_of_lt (by omega) (by omega)]
  omega

theorem sub_one_ediv_of_not_dvd {b : ℤ} (hb : 0 < b) (ht : ¬ b ∣ t) :
    (t - 1) / b = t / b := by
  have hr : t % b ≠ 0 := fun h => ht (Int.dvd_of_emod_eq_zero h)
  have hr0 := Int.emod_nonneg t hb.ne'
  have hrb := Int.emod_lt_of_pos t hb
  have hsplit : t - 1 = (t % b - 1) + b * (t / b) := by
    have := Int.emod_add_mul_ediv t b
    linarith
  rw [hsplit, Int.add_mul_ediv_left _ _ hb.ne', Int.ediv_eq_zero_of_lt (by omega) (by omega)]
  omega

/-- In the list emptied at `t`, every entry belongs to the block of `t`. -/
theorem Ahead.block_eq (hB : 0 < B) (h : Ahead B i (t - 1) e) (hdvd : B ^ i ∣ t)
    (hidx : slotIndex B i e = slotIndex B i t) : e / B ^ i = t / B ^ i := by
  obtain ⟨hlo, hhi⟩ := h
  rw [sub_one_ediv_of_dvd (pow_pos hB i) hdvd] at hlo hhi
  have hd : B ∣ e / B ^ i - t / B ^ i := (Int.ModEq.symm hidx).dvd
  obtain ⟨q, hq⟩ := hd
  have hq0 : q = 0 := by
    have h1 : 0 ≤ B * q := by omega
    have h2 : B * q < B * 1 := by omega
    have h3 : 0 ≤ q := nonneg_of_mul_nonneg_right h1 hB
    have h4 : q < 1 := lt_of_mul_lt_mul_left h2 hB.le
    omega
  rw [hq0] at hq
  omega

/-- An entry that is not emptied at `t` stays ahead. -/
theorem Ahead.advance (hB : 0 < B) (h : Ahead B i (t - 1) e)
    (hidx : B ^ i ∣ t → slotIndex B i e ≠ slotIndex B i t) : Ahead B i t e := by
  have hb : 0 < B ^ i := pow_pos hB i
  by_cases hdvd : B ^ i ∣ t
  · have hne : e / B ^ i ≠ t / B ^ i := fun heq =>
      hidx hdvd (by unfold slotIndex; rw [heq])
    obtain ⟨hlo, hhi⟩ := h
    rw [sub_one_ediv_of_dvd hb hdvd] at hlo hhi
    exact ⟨by omega, by omega⟩
  · simpa only [Ahead, sub_one_ediv_of_not_dvd hb hdvd] using h

/-- The block of `t`, when it starts at `t`. -/
theorem mem_block (hB : 0 < B) (hdvd : B ^ i ∣ t) (h : e / B ^ i = t / B ^ i) :
    t ≤ e ∧ e < t + B ^ i := by
  have hb : 0 < B ^ i := pow_pos hB i
  have ht : t = B ^ i * (t / B ^ i) := (Int.mul_ediv_cancel' hdvd).symm
  have he := Int.emod_add_mul_ediv e (B ^ i)
  have h0 := Int.emod_nonneg e hb.ne'
  have h1 := Int.emod_lt_of_pos e hb
  rw [h] at he
  constructor <;> linarith

/-- Less than a turn of the level after the start of a block, but not in it, the digit
is another one. -/
theorem slotIndex_ne_of_distance (hB : 0 < B) (hdvd : B ^ i ∣ t) (hlow : B ^ i ≤ e - t)
    (hhigh : e - t < B ^ (i + 1)) : slotIndex B i e ≠ slotIndex B i t := by
  have hb : 0 < B ^ i := pow_pos hB i
  have hsub : e / B ^ i - t / B ^ i = (e - t) / B ^ i := (Int.sub_ediv_of_dvd _ hdvd).symm
  have hone : 1 ≤ (e - t) / B ^ i := (Int.le_ediv_iff_mul_le hb).mpr (by omega)
  have hturn : (e - t) / B ^ i < B := Int.ediv_lt_of_lt_mul hb (by rwa [pow_succ'] at hhigh)
  intro heq
  have hd : B ∣ e / B ^ i - t / B ^ i := (Int.ModEq.symm heq).dvd
  rw [hsub] at hd
  exact absurd (Int.le_of_dvd (by omega) hd) (not_le.mpr hturn)

/-- A level is emptied at `t` when all lower digits of `t` are zero. -/
theorem dvd_succ_iff (hB : 0 < B) (hdvd : B ^ i ∣ t) :
    B ^ (i + 1) ∣ t ↔ slotIndex B i t = 0 := by
  have hb : 0 < B ^ i := pow_pos hB i
  obtain ⟨q, rfl⟩ := hdvd
  rw [slotIndex, Int.mul_ediv_cancel_left _ hb.ne', pow_succ,
    Int.mul_dvd_mul_iff_left hb.ne', Int.dvd_iff_emod_eq_zero]

end Tt3d.RadixWheel
