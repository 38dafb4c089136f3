import Mathlib.Algebra.BigOperators.Group.Finset.Basic
import Mathlib.Algebra.Order.BigOperators.Group.Finset
import Mathlib.Algebra.Order.Group.Multiset
import Mathlib.Tactic.Abel
import Tt3d.Lib.RadixWheel
import Tt3d.Timer.Calendar

/-!
What the operations of the wheel do to its slots.

`slots` is the multiset of all slots filed anywhere. Each operation is described
by two facts: what it does to `slots`, and that it keeps every slot `Filed`, the
invariant that links level, index, expiry and clock.
-/

namespace Tt3d.Timer

open RadixWheel

variable {τ : Type*}

/-! ### Places -/

theorem kTVSize_pos : (0 : ℤ) < kTVSize := by decide

theorem mask_eq_iff {x y : ℤ} : mask x = mask y ↔ x % kTVSize = y % kTVSize := by
  have hx := Int.emod_nonneg x kTVSize_pos.ne'
  have hy := Int.emod_nonneg y kTVSize_pos.ne'
  simp only [mask, Fin.mk.injEq]
  omega

theorem mask_eq_zero_iff {x : ℤ} : mask x = 0 ↔ x % kTVSize = 0 := by
  rw [show (0 : Fin kTVSize) = mask 0 from rfl, mask_eq_iff, Int.zero_emod]

theorem mask_shift_eq_iff {x y : ℤ} {n : ℕ} :
    mask (shift x n) = mask (shift y n) ↔
      slotIndex kTVSize n x = slotIndex kTVSize n y := mask_eq_iff

theorem shift_shift (x : ℤ) (n k : ℕ) : shift (shift x n) k = shift x (n + k) := by
  rw [shift, shift, shift, Int.ediv_ediv_of_nonneg (by positivity), ← pow_add]

/-- The loop over the levels chooses the first one whose reach exceeds the
distance, and the index there. -/
theorem findVec_eq {idx e : ℤ} (h0 : 0 ≤ idx) (h : idx < (kTVSize : ℤ) ^ 4) :
    ∃ i : Fin 4, TimerMaster.findVec idx (List.finRange 4) 1 e = some (i, mask (shift e i)) ∧
      (i = 0 ∨ (kTVSize : ℤ) ^ (i : ℕ) ≤ idx) ∧ idx < (kTVSize : ℤ) ^ ((i : ℕ) + 1) := by
  have hsize : (kTVSize : ℤ) = 256 := rfl
  have hmod : idx % 2 ^ 64 = idx := Int.emod_eq_of_lt h0 (by rw [hsize] at h; omega)
  have hlist : List.finRange 4 = [0, 1, 2, 3] := rfl
  have hshift : shift e 0 = e := by simp [shift]
  simp only [hlist, TimerMaster.findVec, hmod, kTVBits, shift_shift]
  rw [hsize] at h ⊢
  split_ifs with h1 h2 h3 h4
  · exact ⟨0, by simp [hshift], Or.inl rfl, by simpa using h1⟩
  · exact ⟨1, by simp, Or.inr (by norm_num at h1 ⊢; omega), by norm_num at h2 ⊢; omega⟩
  · exact ⟨2, by simp, Or.inr (by norm_num at h2 ⊢; omega), by norm_num at h3 ⊢; omega⟩
  · exact ⟨3, by simp, Or.inr (by norm_num at h3 ⊢; omega), by norm_num at h4 ⊢; omega⟩
  · norm_num at h4 h
    omega

/-- A negative difference becomes a huge `uint64` and fits no level. -/
theorem findVec_of_neg {idx : ℤ} (e : ℤ) (h : idx < 0) (hlow : -2 ^ 63 ≤ idx) :
    TimerMaster.findVec idx (List.finRange 4) 1 e = none := by
  have hmod : idx % 2 ^ 64 = idx + 2 ^ 64 := by omega
  have hlist : List.finRange 4 = [0, 1, 2, 3] := rfl
  simp only [hlist, TimerMaster.findVec, hmod, kTVBits]
  split_ifs
  all_goals first | rfl | omega

namespace TimerMaster

/-! ### The slots of a wheel -/

@[simp] theorem setList_timerJiffies (m : TimerMaster τ) (p : Place) (l : TList τ) :
    (m.setList p l).timerJiffies = m.timerJiffies := rfl

@[simp] theorem pushBack_timerJiffies (m : TimerMaster τ) (p : Place) (s : TimerSlot τ) :
    (m.pushBack p s).timerJiffies = m.timerJiffies := rfl

@[simp] theorem setList_vecs_self (m : TimerMaster τ) (p : Place) (l : TList τ) :
    (m.setList p l).vecs p = l := by simp [setList]

theorem setList_vecs_ne (m : TimerMaster τ) {p q : Place} (l : TList τ) (h : q ≠ p) :
    (m.setList p l).vecs q = m.vecs q := by simp [setList, h]

@[simp] theorem pushBack_vecs_self (m : TimerMaster τ) (p : Place) (s : TimerSlot τ) :
    (m.pushBack p s).vecs p = m.vecs p ++ [s] := setList_vecs_self ..

theorem pushBack_vecs_ne (m : TimerMaster τ) {p q : Place} (s : TimerSlot τ) (h : q ≠ p) :
    (m.pushBack p s).vecs q = m.vecs q := setList_vecs_ne m _ h

/-- What `g` reads off the slots filed in the wheel. -/
def gather {β : Type*} (g : Place → TimerSlot τ → β) (m : TimerMaster τ) : Multiset β :=
  ∑ p, (m.vecs p : Multiset (TimerSlot τ)).map (g p)

section Gather

variable {β γ : Type*} {g g' : Place → TimerSlot τ → β}

theorem mem_gather {m : TimerMaster τ} {b : β} :
    b ∈ m.gather g ↔ ∃ p, ∃ s ∈ m.vecs p, g p s = b := by
  simp [gather, Multiset.mem_sum]

@[simp] theorem gather_new : (new : TimerMaster τ).gather g = 0 := by
  simp [gather, new]

theorem gather_setList (m : TimerMaster τ) (p : Place) (l : TList τ) :
    (m.setList p l).gather g + (m.vecs p : Multiset (TimerSlot τ)).map (g p) =
      m.gather g + (l : Multiset (TimerSlot τ)).map (g p) := by
  have hrest : ∑ q ∈ Finset.univ.erase p,
        ((m.setList p l).vecs q : Multiset (TimerSlot τ)).map (g q) =
      ∑ q ∈ Finset.univ.erase p, (m.vecs q : Multiset (TimerSlot τ)).map (g q) :=
    Finset.sum_congr rfl fun q hq => by rw [setList_vecs_ne m l (Finset.ne_of_mem_erase hq)]
  rw [gather, gather, ← Finset.add_sum_erase _ _ (Finset.mem_univ p), hrest,
    ← Finset.add_sum_erase Finset.univ
      (fun q => (m.vecs q : Multiset (TimerSlot τ)).map (g q)) (Finset.mem_univ p),
    setList_vecs_self]
  abel

@[simp] theorem gather_pushBack (m : TimerMaster τ) (p : Place) (s : TimerSlot τ) :
    (m.pushBack p s).gather g = g p s ::ₘ m.gather g := by
  have h := gather_setList (g := g) m p (m.vecs p ++ [s])
  rw [← Multiset.coe_add, Multiset.map_add, add_comm (Multiset.map (g p) (m.vecs p)), ← add_assoc]
    at h
  rw [pushBack, add_right_cancel h, Multiset.coe_singleton, Multiset.map_singleton, add_comm,
    Multiset.singleton_add]

theorem gather_clock (m : TimerMaster τ) (t : ℤ) :
    gather g { m with timerJiffies := t } = m.gather g := rfl

theorem gather_congr {m : TimerMaster τ} (h : ∀ p, ∀ s ∈ m.vecs p, g p s = g' p s) :
    m.gather g = m.gather g' :=
  Finset.sum_congr rfl fun p _ => Multiset.map_congr rfl fun s hs => h p s hs

theorem map_gather (m : TimerMaster τ) (f : β → γ) :
    (m.gather g).map f = m.gather fun p s => f (g p s) := by
  rw [gather, ← Multiset.coe_mapAddMonoidHom, map_sum]
  refine Finset.sum_congr rfl fun p _ => ?_
  rw [Multiset.coe_mapAddMonoidHom, Multiset.map_map]
  rfl

end Gather

/-- All slots filed in the wheel. -/
def slots (m : TimerMaster τ) : Multiset (TimerSlot τ) := ∑ p, (m.vecs p : Multiset (TimerSlot τ))

theorem slots_eq_gather (m : TimerMaster τ) : m.slots = m.gather fun _ s => s := by
  simp [slots, gather]

theorem mem_slots {m : TimerMaster τ} {s : TimerSlot τ} :
    s ∈ m.slots ↔ ∃ p, s ∈ m.vecs p := by
  simp [slots_eq_gather, mem_gather]

theorem slots_map {β : Type*} (m : TimerMaster τ) (f : TimerSlot τ → β) :
    m.slots.map f = m.gather fun _ s => f s := by
  rw [slots_eq_gather, map_gather]

-- Sums over 1024 places: they must not be unfolded by accident.
attribute [irreducible] slots gather

/-! ### Filing -/

/-- The place that `InternalAddTimer` gives a slot filed by its own data. -/
def placeOf (t : ℤ) (s : TimerSlot τ) : Option Place :=
  findVec (s.jiffies - t) (List.finRange 4) 1 s.jiffies

theorem internalAddTimer_eq (m : TimerMaster τ) (s : TimerSlot τ) (x : τ) (e : ℤ) :
    m.internalAddTimer s x e =
      (placeOf m.timerJiffies ⟨s.id, x, e⟩).map fun p => m.pushBack p ⟨s.id, x, e⟩ := rfl

theorem internalAddTimer_self (m : TimerMaster τ) (s : TimerSlot τ) :
    m.internalAddTimer s s.weakTimer s.jiffies =
      (placeOf m.timerJiffies s).map fun p => m.pushBack p s := rfl

end TimerMaster

open TimerMaster

/-- Where a slot may be filed when level `i` was last served for jiffy
`served i`. Only on the first level can a slot be behind the clock: one filed
with timeout 0 for the jiffy that has just been served. -/
structure Filed (served : Fin 4 → ℤ) (p : Place) (s : TimerSlot τ) : Prop where
  index : p.2 = mask (shift s.jiffies p.1)
  ahead : Ahead kTVSize p.1 (served p.1) (dueAfter (served p.1) s.jiffies)
  later : p.1 ≠ 0 → served p.1 < s.jiffies

def AllFiled (served : Fin 4 → ℤ) (m : TimerMaster τ) : Prop :=
  ∀ p, ∀ s ∈ m.vecs p, Filed served p s

theorem Filed.dueAfter_eq {served : Fin 4 → ℤ} {p : Place} {s : TimerSlot τ}
    (h : Filed served p s) (hp : p.1 ≠ 0) : dueAfter (served p.1) s.jiffies = s.jiffies :=
  dueAfter_of_lt (h.later hp)

theorem Filed.congr {served served' : Fin 4 → ℤ} {p : Place} {s : TimerSlot τ}
    (h : Filed served p s) (heq : served p.1 = served' p.1) : Filed served' p s :=
  ⟨h.index, heq ▸ h.ahead, heq ▸ h.later⟩

theorem all_pushBack {ok : Place → TimerSlot τ → Prop} {m : TimerMaster τ} {p : Place}
    {s : TimerSlot τ} (h : ∀ q, ∀ u ∈ m.vecs q, ok q u) (hs : ok p s) :
    ∀ q, ∀ u ∈ (m.pushBack p s).vecs q, ok q u := by
  intro q u hu
  by_cases hq : q = p
  · subst q
    rw [pushBack_vecs_self, List.mem_append, List.mem_singleton] at hu
    rcases hu with hu | rfl
    · exact h p u hu
    · exact hs
  · rw [pushBack_vecs_ne m s hq] at hu
    exact h q u hu

/-- What one filing does: it succeeds when the expiry is not behind the clock,
on a level that the distance determines. -/
theorem placeOf_eq {t : ℤ} {s : TimerSlot τ} (h0 : t ≤ s.jiffies)
    (h : s.jiffies - t < (kTVSize : ℤ) ^ 4) :
    ∃ i : Fin 4, placeOf t s = some (i, mask (shift s.jiffies i)) ∧
      (i = 0 ∨ (kTVSize : ℤ) ^ (i : ℕ) ≤ s.jiffies - t) ∧
      s.jiffies - t < (kTVSize : ℤ) ^ ((i : ℕ) + 1) :=
  findVec_eq (by omega) h

theorem le_of_placeOf {t : ℤ} {s : TimerSlot τ} {p : Place} (h : placeOf t s = some p)
    (hlow : -2 ^ 63 ≤ s.jiffies - t) : t ≤ s.jiffies := by
  by_contra hlt
  rw [placeOf, findVec_of_neg _ (by omega) hlow] at h
  cases h

theorem filed_of_distance {served : Fin 4 → ℤ} {t : ℤ} {i : Fin 4} {s : TimerSlot τ}
    (hserved : t = served i ∨ t = served i + 1) (ht : t ≤ s.jiffies)
    (hlow : i = 0 ∨ (kTVSize : ℤ) ^ (i : ℕ) ≤ s.jiffies - t)
    (hhigh : s.jiffies - t < (kTVSize : ℤ) ^ ((i : ℕ) + 1)) :
    Filed served (i, mask (shift s.jiffies i)) s := by
  have hpow : 0 < (kTVSize : ℤ) ^ (i : ℕ) := pow_pos kTVSize_pos _
  have hlow' : (i : ℕ) = 0 ∨ (kTVSize : ℤ) ^ (i : ℕ) ≤ s.jiffies - t :=
    hlow.imp_left (congrArg Fin.val)
  by_cases hlt : served i < s.jiffies
  · exact ⟨rfl, by
      simpa only [dueAfter_of_lt hlt] using
        ahead_of_distance kTVSize_pos hserved hlt hlow' hhigh, fun _ => hlt⟩
  · -- Timeout 0 for the jiffy just served: the first level, a full turn ahead.
    have hi : i = 0 := hlow.resolve_right (by omega)
    have heq : s.jiffies = served i := by omega
    subst hi
    refine ⟨rfl, ?_, fun h => absurd rfl h⟩
    rw [heq, dueAfter, if_pos le_rfl, Ahead]
    simpa using kTVSize_pos

/-! ### Cascading -/

/-- The levels `1, …, n - 1` have been served for `t`, the others for the jiffy
before it. -/
def servedUpTo (t : ℤ) (n : ℕ) (k : Fin 4) : ℤ := if (k : ℕ) ≠ 0 ∧ (k : ℕ) < n then t else t - 1

theorem servedUpTo_eq_or (t : ℤ) (n : ℕ) (k : Fin 4) :
    t = servedUpTo t n k ∨ t = servedUpTo t n k + 1 := by
  unfold servedUpTo
  split <;> omega

/-- **The cascade loop.** When every slot of the list is filed elsewhere, the
loop visits each once and ends; no slot is lost or duplicated. -/
theorem cascadeLoop_eq {β : Type*} (g : Place → TimerSlot τ → β) {p : Place} {t : ℤ}
    (ok : Place → TimerSlot τ → Prop) (fuel : ℕ) (m : TimerMaster τ)
    (hfuel : (m.vecs p).length < fuel) (ht : m.timerJiffies = t)
    (hmove : ∀ s ∈ m.vecs p, ∃ q, placeOf t s = some q ∧ q ≠ p ∧ ok q s ∧ g q s = g p s)
    (hok : ∀ q, q ≠ p → ∀ s ∈ m.vecs q, ok q s) :
    ∃ m', cascadeLoop p fuel m = some m' ∧ m'.timerJiffies = t ∧ m'.vecs p = [] ∧
      m'.gather g = m.gather g ∧ ∀ q, q ≠ p → ∀ s ∈ m'.vecs q, ok q s := by
  induction fuel generalizing m with
  | zero => exact absurd hfuel (Nat.not_lt_zero _)
  | succ fuel ih =>
      cases hl : m.vecs p with
      | nil => exact ⟨m, by simp [cascadeLoop, hl], ht, hl, rfl, hok⟩
      | cons s it =>
          obtain ⟨q, hq, hqp, hs, hg⟩ := hmove s (by simp [hl])
          have hadd : (m.setList p it).internalAddTimer s s.weakTimer s.jiffies =
              some ((m.setList p it).pushBack q s) := by
            rw [internalAddTimer_self, setList_timerJiffies, ht, hq]
            rfl
          have hvecs : ((m.setList p it).pushBack q s).vecs p = it := by
            rw [pushBack_vecs_ne _ s hqp.symm, setList_vecs_self]
          have hgather : ((m.setList p it).pushBack q s).gather g = m.gather g := by
            have h := gather_setList (g := g) m p it
            rw [hl, ← Multiset.cons_coe, Multiset.map_cons, Multiset.add_cons,
              ← Multiset.cons_add] at h
            rw [gather_pushBack, hg, add_right_cancel h]
          have hok' : ∀ r, r ≠ p →
              ∀ u ∈ ((m.setList p it).pushBack q s).vecs r, ok r u := by
            intro r hr u hu
            by_cases hrq : r = q
            · subst r
              rw [pushBack_vecs_self, setList_vecs_ne m it hr, List.mem_append,
                List.mem_singleton] at hu
              rcases hu with hu | rfl
              · exact hok q hr u hu
              · exact hs
            · rw [pushBack_vecs_ne _ s hrq, setList_vecs_ne m it hr] at hu
              exact hok r hr u hu
          simp only [cascadeLoop, hl, hadd]
          cases it with
          | nil => exact ⟨_, rfl, ht, hvecs, hgather, hok'⟩
          | cons s' it' =>
              obtain ⟨m', hm', htm, hnil, hsl, hokm⟩ := ih
                ((m.setList p (s' :: it')).pushBack q s)
                (by rw [hvecs]; simp [hl] at hfuel ⊢; omega) ht
                (fun u hu => hmove u (by
                  rw [hvecs] at hu
                  rw [hl]
                  exact List.mem_cons_of_mem s hu)) hok'
              exact ⟨m', hm', htm, hnil, hsl.trans hgather, hokm⟩

/-- A rule for filing slots. `ok served p s` says that the slot may be at `p` when
level `i` was last served for jiffy `served i`, and `due m p e` is the jiffy at which
a slot at `p` with the expiry `e` is due when `m` has been served. -/
structure FilingRule (ok : (Fin 4 → ℤ) → Place → TimerSlot τ → Prop) (due : ℤ → Place → ℤ → ℤ) :
    Prop where
  congr : ∀ {served served' : Fin 4 → ℤ} {p : Place} {s : TimerSlot τ}, ok served p s →
    served p.1 = served' p.1 → ok served' p s
  /-- `InternalAddTimer` goes by the distance from the clock `t`. -/
  file : ∀ {served : Fin 4 → ℤ} {t : ℤ} {i : Fin 4} {s : TimerSlot τ},
    (t = served i ∨ t = served i + 1) → t ≤ s.jiffies → s.jiffies < 2 ^ 31 →
    (i = 0 ∨ (kTVSize : ℤ) ^ (i : ℕ) ≤ s.jiffies - t) →
    s.jiffies - t < (kTVSize : ℤ) ^ ((i : ℕ) + 1) →
    ok served (i, mask (shift s.jiffies i)) s
  due_file : ∀ {m t e : ℤ} {i : Fin 4}, (t = m ∨ t = m + 1) → t ≤ e →
    (i = 0 ∨ (kTVSize : ℤ) ^ (i : ℕ) ≤ e - t) → e - t < (kTVSize : ℤ) ^ ((i : ℕ) + 1) →
    due m (i, mask (shift e i)) e = dueAfter m e
  /-- A slot in a list that is cascaded moves to another one and is due as before. -/
  cascade : ∀ {t : ℤ} {i : Fin 4} {j : Fin kTVSize} {s : TimerSlot τ},
    ok (servedUpTo t i) (i, j) s → 1 ≤ t → i ≠ 0 → (kTVSize : ℤ) ^ (i : ℕ) ∣ t →
    j = mask (shift t i) →
    ∃ q, placeOf t s = some q ∧ q ≠ (i, j) ∧ ok (servedUpTo t (i + 1)) q s ∧
      due (t - 1) q s.jiffies = due (t - 1) (i, j) s.jiffies
  /-- A slot of a level above the first stays where it is if its list is not cascaded. -/
  serve : ∀ {served served' : Fin 4 → ℤ} {p : Place} {s : TimerSlot τ} {t : ℤ}, ok served p s →
    p.1 ≠ 0 → served p.1 = t - 1 → served' p.1 = t →
    ((kTVSize : ℤ) ^ (p.1 : ℕ) ∣ t → p.2 ≠ mask (shift t p.1)) → ok served' p s
  /-- When the levels above have been served, the list of the jiffy holds what is due. -/
  current : ∀ {t : ℤ} {p : Place} {s : TimerSlot τ}, ok (servedUpTo t 4) p s →
    (p = (0, mask t) ↔ due (t - 1) p s.jiffies = t)
  stay : ∀ {t : ℤ} {p : Place} {s : TimerSlot τ}, ok (servedUpTo t 4) p s → p ≠ (0, mask t) →
    ok (fun _ => t) p s ∧ due t p s.jiffies = due (t - 1) p s.jiffies

/-- The slots in the wheel with the jiffies at which they are due. -/
def TimerMaster.pending (due : ℤ → Place → ℤ → ℤ) (served : ℤ) (m : TimerMaster τ) :
    Multiset (TimerSlot τ × ℤ) :=
  m.gather fun p s => (s, due served p s.jiffies)

section Rule

variable {ok : (Fin 4 → ℤ) → Place → TimerSlot τ → Prop} {due : ℤ → Place → ℤ → ℤ}

/-- **One cascade.** At a multiple of its block length, the list of the current
block moves to other lists and the level counts as served. -/
theorem FilingRule.cascadeTimers_eq (rule : FilingRule ok due) {m : TimerMaster τ} {t : ℤ}
    {i : Fin 4} (ht : m.timerJiffies = t) (hpos : 1 ≤ t) (hi : i ≠ 0)
    (hdvd : (kTVSize : ℤ) ^ (i : ℕ) ∣ t) (hm : ∀ p, ∀ s ∈ m.vecs p, ok (servedUpTo t i) p s) :
    ∃ m', m.cascadeTimers i (m.index i) = some (m', m.index i) ∧ m'.timerJiffies = t ∧
      m'.pending due (t - 1) = m.pending due (t - 1) ∧
      ∀ p, ∀ s ∈ m'.vecs p, ok (servedUpTo t (i + 1)) p s := by
  have hidx : m.index i = mask (shift t i) := by rw [index, ht]
  obtain ⟨m', hrun, htm, hnil, hpending, hok⟩ := cascadeLoop_eq
    (fun p s => (s, due (t - 1) p s.jiffies)) (ok (servedUpTo t (i + 1))) _ m (Nat.lt_succ_self _)
    ht
    (fun s hs => by
      obtain ⟨q, hq, hne, hfiled, hdue⟩ := rule.cascade (hm (i, m.index i) s hs) hpos hi hdvd hidx
      exact ⟨q, hq, hne, hfiled, Prod.ext rfl hdue⟩)
    (by
      rintro ⟨k, j⟩ hne s hs
      have hfiled := hm (k, j) s hs
      by_cases hki : k = i
      · -- Another list of the level: its block is not the one of `t`.
        subst k
        exact rule.serve hfiled hi (by simp [servedUpTo])
          (by simp [servedUpTo, Fin.val_ne_zero_iff.mpr hi])
          fun _ hj => hne (Prod.ext rfl (hj.trans hidx.symm))
      · refine rule.congr hfiled ?_
        have : (k : ℕ) ≠ i := fun h => hki (Fin.ext h)
        simp only [servedUpTo]
        congr 1
        simp only [eq_iff_iff]
        omega)
  refine ⟨m', ?_, htm, hpending, ?_⟩
  · simp [cascadeTimers, hrun, hnil]
  · intro q s hs
    by_cases hq : q = (i, m.index i)
    · rw [hq, hnil] at hs
      exact absurd hs List.not_mem_nil
    · exact hok q hq s hs

/-- Levels whose block does not start at `t` need no cascade. -/
theorem FilingRule.of_not_dvd (rule : FilingRule ok due) {m : TimerMaster τ} {t : ℤ} {n : ℕ}
    (hm : ∀ p, ∀ s ∈ m.vecs p, ok (servedUpTo t n) p s) (hn : n ≠ 0)
    (hdvd : ¬ (kTVSize : ℤ) ^ n ∣ t) : ∀ p, ∀ s ∈ m.vecs p, ok (servedUpTo t 4) p s := by
  rintro ⟨k, j⟩ s hs
  have hfiled := hm (k, j) s hs
  have hk4 := k.isLt
  by_cases hk : n ≤ k
  · have hk0 : (k : ℕ) ≠ 0 := by omega
    refine rule.serve (t := t) hfiled (Fin.val_ne_zero_iff.mp hk0) ?_ ?_
      fun hd => absurd ((pow_dvd_pow _ hk).trans hd) hdvd
    · simp [servedUpTo, hk]
    · simp [servedUpTo, hk0]
  · refine rule.congr hfiled ?_
    simp only [servedUpTo]
    congr 1
    simp only [eq_iff_iff]
    omega

theorem index_eq_zero_iff {m : TimerMaster τ} {t : ℤ} {n : ℕ} (ht : m.timerJiffies = t)
    (hdvd : (kTVSize : ℤ) ^ n ∣ t) : m.index n = 0 ↔ (kTVSize : ℤ) ^ (n + 1) ∣ t := by
  rw [dvd_succ_iff kTVSize_pos hdvd, index, ht, mask_eq_zero_iff]
  rfl

/-- **The chained cascades.** They never fail, keep the slots and serve every
level above the first. -/
theorem FilingRule.cascade_eq (rule : FilingRule ok due) {m : TimerMaster τ} {t : ℤ}
    (ht : m.timerJiffies = t) (hpos : 1 ≤ t)
    (hm : ∀ p, ∀ s ∈ m.vecs p, ok (servedUpTo t 1) p s) :
    ∃ m', m.cascade = some m' ∧ m'.timerJiffies = t ∧
      m'.pending due (t - 1) = m.pending due (t - 1) ∧
      ∀ p, ∀ s ∈ m'.vecs p, ok (servedUpTo t 4) p s := by
  have h0 : m.index 0 = 0 ↔ (kTVSize : ℤ) ^ 1 ∣ t := index_eq_zero_iff ht (by simp)
  unfold TimerMaster.cascade
  by_cases hd1 : (kTVSize : ℤ) ^ 1 ∣ t
  swap
  · exact ⟨m, if_pos (mt h0.mp hd1), ht, rfl, rule.of_not_dvd hm one_ne_zero hd1⟩
  rw [if_neg (not_not.mpr (h0.mpr hd1))]
  obtain ⟨m₁, hc₁, ht₁, hs₁, hm₁⟩ := rule.cascadeTimers_eq ht hpos (i := 1) (by decide) hd1 hm
  rw [show m.cascadeTimers 1 (m.index 1) = some (m₁, m.index 1) from hc₁, Option.bind_some]
  have h1 : m.index 1 = 0 ↔ (kTVSize : ℤ) ^ 2 ∣ t := index_eq_zero_iff ht hd1
  by_cases hd2 : (kTVSize : ℤ) ^ 2 ∣ t
  swap
  · exact ⟨m₁, if_pos (mt h1.mp hd2), ht₁, hs₁, rule.of_not_dvd hm₁ two_ne_zero hd2⟩
  dsimp only
  rw [if_neg (not_not.mpr (h1.mpr hd2))]
  obtain ⟨m₂, hc₂, ht₂, hs₂, hm₂⟩ := rule.cascadeTimers_eq ht₁ hpos (i := 2) (by decide) hd2 hm₁
  rw [show m₁.cascadeTimers 2 (m₁.index 2) = some (m₂, m₁.index 2) from hc₂, Option.bind_some]
  have h2 : m₁.index 2 = 0 ↔ (kTVSize : ℤ) ^ 3 ∣ t := index_eq_zero_iff ht₁ hd2
  by_cases hd3 : (kTVSize : ℤ) ^ 3 ∣ t
  swap
  · exact ⟨m₂, if_pos (mt h2.mp hd3), ht₂, hs₂.trans hs₁, rule.of_not_dvd hm₂ three_ne_zero hd3⟩
  dsimp only
  rw [if_neg (not_not.mpr (h2.mpr hd3))]
  obtain ⟨m₃, hc₃, ht₃, hs₃, hm₃⟩ := rule.cascadeTimers_eq ht₂ hpos (i := 3) (by decide) hd3 hm₂
  refine ⟨m₃, ?_, ht₃, hs₃.trans (hs₂.trans hs₁), hm₃⟩
  rw [show m₂.cascadeTimers 3 (m₂.index 3) = some (m₃, m₂.index 3) from hc₃, Option.map_some]

theorem servedUpTo_one (t : ℤ) : servedUpTo t 1 = fun _ => t - 1 := by
  funext k
  simp [servedUpTo]

theorem index_zero {m : TimerMaster τ} {t : ℤ} (ht : m.timerJiffies = t) : m.index 0 = mask t := by
  simp [index, ht, shift]

/-- **The locked section of `Update`**: the slots due at `t` leave the wheel, and they are
the ones in the list that is emptied. -/
theorem FilingRule.take_spec (rule : FilingRule ok due) {m : TimerMaster τ} {t : ℤ}
    (ht : m.timerJiffies = t) (hpos : 1 ≤ t) (hm : ∀ p, ∀ s ∈ m.vecs p, ok (fun _ => t - 1) p s)
    (live : τ → Bool) :
    ∃ (m' : TimerMaster τ) (l : TList τ), m.cascade = some m' ∧
      (m'.takeTimers live).1.timerJiffies = t ∧
      (m'.takeTimers live).2 = l.filter (fun s => live s.weakTimer) ∧
      m.pending due (t - 1) = (m'.takeTimers live).1.pending due t +
        (l : Multiset (TimerSlot τ)).map (fun s => (s, t)) ∧
      (∀ q ∈ (m'.takeTimers live).1.pending due t, q.2 ≠ t) ∧
      ∀ p, ∀ s ∈ (m'.takeTimers live).1.vecs p, ok (fun _ => t) p s := by
  obtain ⟨m', hc, ht', hpending, hm'⟩ := rule.cascade_eq ht hpos (servedUpTo_one t ▸ hm)
  have hidx := index_zero ht'
  -- a slot that is left was in another list
  have hleft : ∀ p, ∀ s ∈ (m'.takeTimers live).1.vecs p, s ∈ m'.vecs p ∧ p ≠ (0, mask t) := by
    intro p s hs
    have hne : p ≠ (0, m'.index 0) := by
      rintro rfl
      rw [takeTimers, setList_vecs_self] at hs
      exact List.not_mem_nil hs
    rw [takeTimers, setList_vecs_ne m' _ hne] at hs
    exact ⟨hs, hidx ▸ hne⟩
  have hdue : ∀ p, ∀ s ∈ (m'.takeTimers live).1.vecs p,
      due t p s.jiffies = due (t - 1) p s.jiffies ∧ due (t - 1) p s.jiffies ≠ t := by
    intro p s hs
    obtain ⟨hmem, hne⟩ := hleft p s hs
    exact ⟨(rule.stay (hm' p s hmem) hne).2, mt (rule.current (hm' p s hmem)).mpr hne⟩
  refine ⟨m', m'.vecs (0, m'.index 0), hc, ht', rfl, ?_, ?_, ?_⟩
  · have hsame : (m'.takeTimers live).1.pending due t =
        (m'.takeTimers live).1.pending due (t - 1) :=
      gather_congr fun p s hs => Prod.ext rfl (hdue p s hs).1
    have hcurrent : (m'.vecs (0, m'.index 0) : Multiset (TimerSlot τ)).map (fun s => (s, t)) =
        (m'.vecs (0, m'.index 0) : Multiset (TimerSlot τ)).map
          fun s => (s, due (t - 1) (0, m'.index 0) s.jiffies) :=
      Multiset.map_congr rfl fun s hs => Prod.ext rfl
        ((rule.current (hm' _ s (Multiset.mem_coe.mp hs))).mp (Prod.ext rfl hidx)).symm
    rw [← hpending, hsame, hcurrent]
    have h := gather_setList (g := fun p s => (s, due (t - 1) p s.jiffies)) m' (0, m'.index 0) []
    rw [Multiset.coe_nil, Multiset.map_zero, add_zero] at h
    exact h.symm
  · intro q hq
    obtain ⟨p, s, hs, rfl⟩ := mem_gather.mp hq
    rw [(hdue p s hs).1]
    exact (hdue p s hs).2
  · intro p s hs
    obtain ⟨hmem, hne⟩ := hleft p s hs
    exact (rule.stay (hm' p s hmem) hne).1

end Rule

/-! ### Filing as long as the clock goes forward -/

/-- A slot in the list of level `i ≥ 1` that is cascaded at `t` expires within
the block of `t`, so it is filed on a lower level. -/
theorem Filed.cascade {t : ℤ} {i : Fin 4} {j : Fin kTVSize} {s : TimerSlot τ}
    (h : Filed (servedUpTo t i) (i, j) s) (hi : i ≠ 0) (hdvd : (kTVSize : ℤ) ^ (i : ℕ) ∣ t)
    (hj : j = mask (shift t i)) :
    ∃ q, placeOf t s = some q ∧ q ≠ (i, j) ∧ Filed (servedUpTo t (i + 1)) q s := by
  have hserved : servedUpTo t i i = t - 1 := by simp [servedUpTo]
  have hblock : s.jiffies / (kTVSize : ℤ) ^ (i : ℕ) = t / (kTVSize : ℤ) ^ (i : ℕ) := by
    have hahead := h.ahead
    rw [h.dueAfter_eq hi, hserved] at hahead
    exact hahead.block_eq kTVSize_pos hdvd (mask_shift_eq_iff.mp (h.index.symm.trans hj))
  obtain ⟨hlo, hhi⟩ := mem_block kTVSize_pos hdvd hblock
  have hreach : (kTVSize : ℤ) ^ (i : ℕ) ≤ (kTVSize : ℤ) ^ 4 :=
    pow_le_pow_right₀ kTVSize_pos i.isLt.le
  obtain ⟨k, hk, hlow, hhigh⟩ := placeOf_eq (t := t) (s := s) hlo (by omega)
  have hki : k < i := by
    by_contra hik
    have hle : (kTVSize : ℤ) ^ (i : ℕ) ≤ (kTVSize : ℤ) ^ (k : ℕ) :=
      pow_le_pow_right₀ kTVSize_pos (not_lt.mp hik)
    have hk0 : k ≠ 0 := fun hk0 => hi (Fin.le_zero_iff.mp (hk0 ▸ not_lt.mp hik))
    have := hlow.resolve_left hk0
    omega
  exact ⟨_, hk, fun heq => hki.ne (congrArg Prod.fst heq),
    filed_of_distance (servedUpTo_eq_or t _ k) hlo hlow hhigh⟩

/-- A slot of a level above the first that is not in the list of `t`'s block
is still ahead when the level has been served for `t`. -/
theorem Filed.serve {served served' : Fin 4 → ℤ} {p : Place} {s : TimerSlot τ} {t : ℤ}
    (h : Filed served p s) (hp : p.1 ≠ 0) (hserved : served p.1 = t - 1)
    (hserved' : served' p.1 = t)
    (hidx : (kTVSize : ℤ) ^ (p.1 : ℕ) ∣ t → p.2 ≠ mask (shift t p.1)) :
    Filed served' p s := by
  have hahead := h.ahead
  rw [h.dueAfter_eq hp, hserved] at hahead
  have hadv : Ahead kTVSize p.1 t s.jiffies := hahead.advance kTVSize_pos fun hd heq =>
    hidx hd (h.index.trans (mask_shift_eq_iff.mpr heq))
  have hlt := hadv.lt kTVSize_pos
  refine ⟨h.index, ?_, fun _ => by rwa [hserved']⟩
  rwa [hserved', dueAfter_of_lt hlt]

/-- The slots that stay keep the jiffy they are due at. -/
theorem dueAfter_advance {t e : ℤ} (h : dueAfter (t - 1) e ≠ t) :
    dueAfter t e = dueAfter (t - 1) e := by
  unfold dueAfter at h ⊢
  split_ifs at h ⊢ <;> omega

/-- Once the levels above have been served, the list of the current jiffy holds
exactly the slots due at it. -/
theorem Filed.current_iff {t : ℤ} {p : Place} {s : TimerSlot τ}
    (h : Filed (servedUpTo t 4) p s) : p = (0, mask t) ↔ dueAfter (t - 1) s.jiffies = t := by
  have hmask : ∀ x : ℤ, shift x 0 = x := fun x => by simp [shift]
  constructor
  · rintro rfl
    have hserved : servedUpTo t 4 0 = t - 1 := by simp [servedUpTo]
    have hahead : Ahead kTVSize 0 (servedUpTo t 4 0) (dueAfter (servedUpTo t 4 0) s.jiffies) :=
      h.ahead
    have hidx : mask t = mask s.jiffies := by simpa [hmask] using h.index
    rw [hserved, ahead_zero] at hahead
    rw [mask_eq_iff] at hidx
    have hsize : (kTVSize : ℤ) = 256 := rfl
    simp only [dueAfter, hsize] at hahead hidx ⊢
    split_ifs at hahead ⊢ <;> omega
  · intro hdue
    by_cases hp : p.1 = 0
    · refine Prod.ext hp (h.index.trans ?_)
      rw [hp, Fin.val_zero, hmask, mask_eq_iff]
      unfold dueAfter at hdue
      split at hdue
      · rw [← hdue]
        simp
      · rw [hdue]
    · have hp0 : (p.1 : ℕ) ≠ 0 := fun h => hp (Fin.ext h)
      have hlater := h.later hp
      rw [show servedUpTo t 4 p.1 = t by simp [servedUpTo, hp0]] at hlater
      rw [dueAfter_of_lt (by omega)] at hdue
      omega

theorem Filed.stay {t : ℤ} {p : Place} {s : TimerSlot τ} (h : Filed (servedUpTo t 4) p s)
    (hp : p ≠ (0, mask t)) : Filed (fun _ => t) p s := by
  by_cases hp0 : p.1 = 0
  · have hdue := mt h.current_iff.mpr hp
    have hserved : servedUpTo t 4 p.1 = t - 1 := by simp [servedUpTo, hp0]
    have hahead := h.ahead
    rw [hserved, hp0, Fin.val_zero, ahead_zero] at hahead
    refine ⟨h.index, ?_, fun h => absurd hp0 h⟩
    rw [hp0, Fin.val_zero, ahead_zero, dueAfter_advance hdue]
    omega
  · have : (p.1 : ℕ) ≠ 0 := fun h => hp0 (Fin.ext h)
    exact h.congr (by simp [servedUpTo, this])

/-- **The rule of a wheel whose clock only goes forward.** -/
theorem filed_rule : FilingRule (Filed (τ := τ)) fun m _ e => dueAfter m e where
  congr := Filed.congr
  file := fun hserved ht _ hlow hhigh => filed_of_distance hserved ht hlow hhigh
  due_file := fun _ _ _ _ => rfl
  cascade := by
    intro t i j s h _ hi hdvd hj
    obtain ⟨q, hq, hne, hfiled⟩ := h.cascade hi hdvd hj
    exact ⟨q, hq, hne, hfiled, rfl⟩
  serve := Filed.serve
  current := Filed.current_iff
  stay := fun h hp => ⟨h.stay hp, dueAfter_advance (mt h.current_iff.mpr hp)⟩

end Tt3d.Timer
