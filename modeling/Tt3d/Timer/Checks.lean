import Tt3d.Timer.Refinement

/-!
Where the `CHECK`s of the timer wheel can fail.

`InternalAddTimer` fails exactly on an expiry behind the clock. A registration
and a cascade never ask for one; filing a periodic timer again does, when the
timer answers `Timeout()` with 0, since the clock has moved on by then.
-/

namespace Tt3d.Timer

open TimerMaster

variable {τ : Type*} {s : State τ}

/-- An expiry behind the clock makes `idx` negative, and no level takes it. -/
theorem internalAddTimer_of_lt {m : TimerMaster τ} {slot : TimerSlot τ} {x : τ} {e : ℤ}
    (hlow : -2 ^ 63 ≤ e - m.timerJiffies) (hlt : e < m.timerJiffies) :
    m.internalAddTimer slot x e = none := by
  rw [internalAddTimer_eq, Option.map_eq_none_iff, ← Option.not_isSome_iff_eq_none,
    Option.isSome_iff_exists]
  rintro ⟨p, hp⟩
  exact absurd (le_of_placeOf hp hlow) (not_le.mpr hlt)

section Paths

variable {target old d : ℤ} {t : TimerSlot τ} {todo timers : TList τ}

theorem Good.register_isSome (h : Good s) (x : τ) (hd : 0 ≤ d)
    (hlt : d + s.master.timerJiffies < 2 ^ 31) : (s.register x d).isSome := by
  have hclock := h.clock
  unfold State.register
  split
  · have hadd : (s.master.internalAddTimer ⟨s.nextSlot, x, d + s.master.timerJiffies⟩ x
        (d + s.master.timerJiffies)).isSome := internalAddTimer_isSome hclock hlt (by omega)
    obtain ⟨m, hm⟩ := Option.isSome_iff_exists.mp hadd
    rw [addInt_eq (by omega) hlt, Option.bind_some, hm]
    rfl
  · rfl

theorem GoodBy.take_isSome {ok : (Fin 4 → ℤ) → Place → TimerSlot τ → Prop}
    {due : ℤ → Place → ℤ → ℤ} (rule : FilingRule ok due) (h : GoodBy ok s)
    (hup : s.updater = .testing target) (hle : s.master.timerJiffies ≤ target) :
    s.take.isSome := by
  obtain ⟨m', l, hcascade, -⟩ :=
    rule.take_spec rfl h.clock (by simpa [State.served, hup] using h.filed) s.live
  simp only [State.take, hup, if_pos hle, hcascade]
  rfl

theorem Good.take_isSome (h : Good s) (hup : s.updater = .testing target)
    (hle : s.master.timerJiffies ≤ target) : s.take.isSome :=
  (good_iff.mp h).take_isSome filed_rule hup hle

/-- The jiffy under way is one behind the clock, so only a timeout of 0 asks for an
expiry behind the clock. -/
theorem Good.rearm_isSome_iff [DecidableEq τ] (h : Good s) (period : Bool)
    (hup : s.updater = .rearming target old (t :: todo) timers) (hd : 0 ≤ d)
    (hlt : d + old < 2 ^ 31) :
    (s.rearm t.id t.weakTimer period d).isSome ↔ (period = true → d ≠ 0) := by
  have hclock := h.clock
  have hold : old + 1 = s.master.timerJiffies := by
    have := h.old
    rwa [hup] at this
  simp only [State.rearm, hup, and_self, if_true]
  cases period with
  | false => simp
  | true =>
      rw [if_pos rfl, addInt_eq (by omega) hlt, Option.bind_some]
      by_cases hzero : d = 0
      · have hnone : s.master.internalAddTimer t t.weakTimer (d + old) = none :=
          internalAddTimer_of_lt (by omega) (by omega)
        rw [hnone]
        simp [hzero]
      · have hadd : (s.master.internalAddTimer t t.weakTimer (d + old)).isSome :=
          internalAddTimer_isSome hclock hlt (by omega)
        simp [hadd, hzero]

end Paths

/-! ### Whole histories -/

/-- The program comes to this event, its `CHECK`s on the wheel apart: the thread
inside `Update` stands there, and the timer answers a timeout that is not negative
and does not overflow the sum. -/
def Asked [DecidableEq τ] (s : State τ) : Event τ → Prop
  | .register x timeout =>
      s.live x = true → 0 ≤ timeout ∧ timeout + s.master.timerJiffies < 2 ^ 31
  | .take =>
      match s.updater with
      | .testing target => s.master.timerJiffies ≤ target
      | _ => False
  | .rearm slot x period timeout =>
      match s.updater with
      | .rearming _ old (t :: _) _ =>
          t.id = slot ∧ t.weakTimer = x ∧ (period = true → 0 ≤ timeout ∧ timeout + old < 2 ^ 31)
      | _ => False
  | .release x => (s.release x).isSome
  | .update jiffies => (step s (.update jiffies)).isSome
  | .tick => (step s .tick).isSome
  | .expired slot x => (s.expired slot x).isSome
  | .called => (step s .called).isSome
  | .next => (step s .next).isSome
  | .return => (step s .return).isSome

instance [DecidableEq τ] (s : State τ) (a : Event τ) : Decidable (Asked s a) := by
  cases a <;> dsimp only [Asked] <;> first | infer_instance | (split <;> infer_instance)

/-- No periodic timer answers `Timeout()` with 0 when it is filed again. -/
def RearmsLater : Event τ → Prop
  | .rearm _ _ period timeout => period = true → timeout ≠ 0
  | .register _ _ | .release _ | .update _ | .take | .tick | .expired _ _ | .called | .next
  | .return => True

instance : ∀ a : Event τ, Decidable (RearmsLater a)
  | .rearm _ _ period timeout => inferInstanceAs (Decidable (period = true → timeout ≠ 0))
  | .register _ _ | .release _ | .update _ | .take | .tick | .expired _ _ | .called | .next
  | .return => isTrue trivial

theorem Good.isSome_iff [DecidableEq τ] (h : Good s) (a : Event τ) (ha : Asked s a) :
    (step s a).isSome ↔ RearmsLater a := by
  cases a with
  | register x d =>
      refine iff_of_true ?_ trivial
      by_cases hx : s.live x = true
      · exact h.register_isSome x (ha hx).1 (ha hx).2
      · simp [step, State.register, hx]
  | take =>
      simp only [Asked] at ha
      split at ha
      · rename_i target hup
        exact iff_of_true (h.take_isSome hup ha) trivial
      · exact ha.elim
  | rearm slot x period d =>
      simp only [Asked] at ha
      split at ha
      swap
      · exact ha.elim
      rename_i target old t todo timers hup
      obtain ⟨rfl, rfl, hd⟩ := ha
      show (s.rearm t.id t.weakTimer period d).isSome ↔ (period = true → d ≠ 0)
      cases period with
      | false => simp [State.rearm, hup]
      | true => exact h.rearm_isSome_iff true hup (hd rfl).1 (hd rfl).2
  | release | update | tick | expired | called | next | «return» => exact iff_of_true ha trivial

/-- **When a registered timer aborts the process.** In a history whose timeouts are
not negative and whose sums stay in range, no `CHECK` on the wheel ever fails just
when no periodic timer has the timeout 0 when it is filed again. -/
theorem checks_hold_iff_rearmsLater [DecidableEq τ] {es : List (Event τ)}
    (hasked : Machine.Along step Asked State.init es) :
    (Machine.run step (State.init : State τ) es).isSome ↔
      Machine.Along step (fun _ => RearmsLater) State.init es :=
  Machine.run_isSome_iff (I := fun s => ∃ c, Refines s c)
    (fun _ _ _ ⟨_, href⟩ hstep =>
      let ⟨c', _, href'⟩ := href.step hstep
      ⟨c', href'⟩)
    (fun _ a ⟨_, href⟩ => href.good.isSome_iff a) ⟨_, refines_init⟩ hasked

/-- A one-shot timer may have the timeout 0, and so may a periodic one that answers 1
from then on. -/
theorem checks_hold_iff_rearmsLater_zero :
    (Machine.run step (State.init : State ℕ) [.register 7 0, .register 8 0, .update 1, .take,
      .tick, .expired 0 7, .expired 1 8, .called, .rearm 0 7 false 0,
      .rearm 1 8 true 1]).isSome :=
  (checks_hold_iff_rearmsLater (by decide)).mpr (by decide)

/-- A periodic timer with the timeout 0 is accepted by `Register`, and aborts the
process after its first call. -/
theorem rearm_zero_aborts :
    (Machine.run step (State.init : State ℕ)
        [.register 7 0, .update 1, .take, .tick, .expired 0 7, .called]).isSome ∧
      Machine.Along step Asked (State.init : State ℕ)
        [.register 7 0, .update 1, .take, .tick, .expired 0 7, .called, .rearm 0 7 true 0] ∧
      (Machine.run step (State.init : State ℕ)
        [.register 7 0, .update 1, .take, .tick, .expired 0 7, .called,
          .rearm 0 7 true 0]).isNone := by
  decide

end Tt3d.Timer
