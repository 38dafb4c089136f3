import Tt3d.Timer.Refinement

/-!
A wheel whose clock may have been set back.

`Start` sets the clock to 1 and leaves the slots where they are. Of a slot on the first
level only the index is left to go by then, so it is due at the next jiffy that has it.
A slot above is in a block that is still to come, and is due at its expiry as before.
-/

namespace Tt3d.Timer

open RadixWheel TimerMaster

variable {τ : Type*}

/-- The first jiffy after `m` that has the index of `e` on the first level. -/
def nextAt (m e : ℤ) : ℤ := m + 1 + (e - m - 1) % kTVSize

/-- The jiffy at which a slot at `p` with the expiry `e` is due after `m`. -/
def dueAt (m : ℤ) (p : Place) (e : ℤ) : ℤ := if (p.1 : ℕ) = 0 then nextAt m e else e

/-- Where a slot may be, whatever the clock was when it was filed: the block that it is
in on a level above the first has not been served. -/
structure Placed (served : Fin 4 → ℤ) (p : Place) (s : TimerSlot τ) : Prop where
  index : p.2 = mask (shift s.jiffies p.1)
  later : p.1 ≠ 0 →
    served p.1 < (kTVSize : ℤ) ^ (p.1 : ℕ) * (s.jiffies / (kTVSize : ℤ) ^ (p.1 : ℕ))
  lt : s.jiffies < 2 ^ 31

theorem dueAt_first {m e : ℤ} {p : Place} (hp : p.1 = 0) : dueAt m p e = nextAt m e :=
  if_pos (Fin.val_eq_zero_iff.mpr hp)

theorem dueAt_above {m e : ℤ} {p : Place} (hp : p.1 ≠ 0) : dueAt m p e = e :=
  if_neg (Fin.val_ne_zero_iff.mpr hp)

theorem nextAt_of_le {m e : ℤ} (hlt : m < e) (hle : e ≤ m + kTVSize) : nextAt m e = e := by
  have hsize : (kTVSize : ℤ) = 256 := rfl
  simp only [nextAt, hsize] at hle ⊢
  omega

theorem nextAt_eq_dueAfter {m t e : ℤ} (ht : t = m ∨ t = m + 1) (hle : t ≤ e)
    (hlt : e - t < kTVSize) : nextAt m e = dueAfter m e := by
  have hsize : (kTVSize : ℤ) = 256 := rfl
  simp only [nextAt, dueAfter, hsize] at hlt ⊢
  split <;> omega

theorem nextAt_eq_iff {t e : ℤ} : nextAt (t - 1) e = t ↔ mask t = mask e := by
  have hsize : (kTVSize : ℤ) = 256 := rfl
  rw [mask_eq_iff]
  simp only [nextAt, hsize]
  omega

theorem nextAt_advance {t e : ℤ} (h : nextAt (t - 1) e ≠ t) : nextAt t e = nextAt (t - 1) e := by
  have hsize : (kTVSize : ℤ) = 256 := rfl
  simp only [nextAt, hsize] at h ⊢
  omega

theorem mask_shift_zero (e : ℤ) : mask (shift e 0) = mask e := by
  simp [shift]

/-- An expiry that is a block ahead is in a later block. -/
theorem lt_block {b t e : ℤ} (hb : 0 < b) (h : t + b ≤ e) : t < b * (e / b) := by
  have := Int.lt_mul_ediv_self_add (x := e) hb
  omega

namespace Placed

variable {served served' : Fin 4 → ℤ} {p : Place} {s : TimerSlot τ} {t : ℤ}

theorem congr (h : Placed served p s) (heq : served p.1 = served' p.1) : Placed served' p s :=
  ⟨h.index, fun hp => heq ▸ h.later hp, h.lt⟩

theorem of_distance {i : Fin 4} (hserved : t = served i ∨ t = served i + 1)
    (hlt : s.jiffies < 2 ^ 31) (hlow : i = 0 ∨ (kTVSize : ℤ) ^ (i : ℕ) ≤ s.jiffies - t) :
    Placed served (i, mask (shift s.jiffies i)) s := by
  refine ⟨rfl, fun hi => ?_, hlt⟩
  have hdist := hlow.resolve_left hi
  exact lt_block (pow_pos kTVSize_pos _) (by simp only; omega)

/-- In a list that is cascaded the expiries are not behind the clock, and none of them
is a whole turn of the level ahead. -/
theorem cascade {i : Fin 4} {j : Fin kTVSize} (h : Placed (servedUpTo t i) (i, j) s)
    (hpos : 1 ≤ t) (hi : i ≠ 0) (hdvd : (kTVSize : ℤ) ^ (i : ℕ) ∣ t)
    (hj : j = mask (shift t i)) :
    ∃ q, placeOf t s = some q ∧ q ≠ (i, j) ∧ Placed (servedUpTo t (i + 1)) q s ∧
      dueAt (t - 1) q s.jiffies = dueAt (t - 1) (i, j) s.jiffies := by
  have hserved : servedUpTo t i i = t - 1 := by simp [servedUpTo]
  have hlater := h.later hi
  simp only [hserved] at hlater
  have hle : t ≤ s.jiffies := by
    have := Int.mul_ediv_self_le (x := s.jiffies) (pow_pos kTVSize_pos (i : ℕ)).ne'
    omega
  have hlt := h.lt
  obtain ⟨k, hk, hlow, hhigh⟩ := placeOf_eq hle
    (by have : (kTVSize : ℤ) ^ 4 = 2 ^ 32 := rfl
        rw [this]
        omega)
  refine ⟨_, hk, ?_, of_distance (servedUpTo_eq_or t _ k) hlt hlow, ?_⟩
  · intro heq
    obtain rfl : k = i := congrArg Prod.fst heq
    exact slotIndex_ne_of_distance kTVSize_pos hdvd (hlow.resolve_left hi) hhigh
      (mask_shift_eq_iff.mp (h.index.symm.trans hj))
  · rw [dueAt_above (p := (i, j)) hi]
    by_cases hk0 : k = 0
    · rw [dueAt_first hk0]
      refine nextAt_of_le (by omega) ?_
      have hpow : (kTVSize : ℤ) ^ ((k : ℕ) + 1) = kTVSize := by simp [hk0]
      rw [hpow] at hhigh
      omega
    · exact dueAt_above hk0

theorem serve (h : Placed served p s) (hp : p.1 ≠ 0) (hserved : served p.1 = t - 1)
    (hserved' : served' p.1 = t)
    (hidx : (kTVSize : ℤ) ^ (p.1 : ℕ) ∣ t → p.2 ≠ mask (shift t p.1)) : Placed served' p s := by
  refine ⟨h.index, fun _ => ?_, h.lt⟩
  have hlater := h.later hp
  rw [hserved] at hlater
  rw [hserved']
  apply lt_of_le_of_ne (by omega)
  intro heq
  -- the block that starts at `t` is the one that is cascaded
  apply hidx ⟨_, heq⟩
  rw [h.index, mask_shift_eq_iff, slotIndex, slotIndex]
  conv_rhs => rw [heq, Int.mul_ediv_cancel_left _ (pow_pos kTVSize_pos _).ne']

theorem current_iff (h : Placed (servedUpTo t 4) p s) :
    p = (0, mask t) ↔ dueAt (t - 1) p s.jiffies = t := by
  by_cases hp : p.1 = 0
  · have hindex : p.2 = mask s.jiffies := by
      rw [h.index, hp]
      exact mask_shift_zero _
    rw [dueAt_first hp, nextAt_eq_iff, ← hindex, eq_comm (b := p.2)]
    constructor
    · rintro rfl
      rfl
    · intro heq
      exact Prod.ext hp heq
  · have hlater := h.later hp
    have hserved : servedUpTo t 4 p.1 = t := by simp [servedUpTo, Fin.val_ne_zero_iff.mpr hp]
    have hle := Int.mul_ediv_self_le (x := s.jiffies)
      (pow_pos kTVSize_pos (p.1 : ℕ)).ne'
    rw [hserved] at hlater
    rw [dueAt_above hp]
    refine iff_of_false (fun heq => hp (congrArg Prod.fst heq)) ?_
    omega

theorem stay (h : Placed (servedUpTo t 4) p s) (hp : p ≠ (0, mask t)) :
    Placed (fun _ => t) p s ∧ dueAt t p s.jiffies = dueAt (t - 1) p s.jiffies := by
  constructor
  · refine ⟨h.index, fun hp0 => ?_, h.lt⟩
    have hlater := h.later hp0
    rwa [show servedUpTo t 4 p.1 = t by simp [servedUpTo, Fin.val_ne_zero_iff.mpr hp0]] at hlater
  · have hdue := mt h.current_iff.mpr hp
    by_cases hp0 : p.1 = 0
    · rw [dueAt_first hp0] at hdue
      rw [dueAt_first hp0, dueAt_first hp0]
      exact nextAt_advance hdue
    · rw [dueAt_above hp0, dueAt_above hp0]

/-- Setting the clock back to 1 keeps every slot where it may be. -/
theorem restart {m : ℤ} (h : Placed (fun _ => m) p s) (hm : 0 ≤ m) :
    Placed (fun _ => 0) p s :=
  ⟨h.index, fun hp => lt_of_le_of_lt hm (h.later hp), h.lt⟩

end Placed

/-- **The rule of a wheel whose clock may have been set back.** -/
theorem placed_rule : FilingRule (Placed (τ := τ)) dueAt where
  congr := Placed.congr
  file := fun hserved _ hlt hlow _ => Placed.of_distance hserved hlt hlow
  due_file := by
    intro m t e i ht hle hlow hhigh
    by_cases hi : i = 0
    · subst hi
      rw [dueAt_first rfl]
      exact nextAt_eq_dueAfter ht hle (by simpa using hhigh)
    · rw [dueAt_above hi]
      have hpow : 0 < (kTVSize : ℤ) ^ (i : ℕ) := pow_pos kTVSize_pos _
      have hdist := hlow.resolve_left hi
      rw [dueAfter_of_lt (by omega)]
  cascade := Placed.cascade
  serve := Placed.serve
  current := Placed.current_iff
  stay := Placed.stay

end Tt3d.Timer
