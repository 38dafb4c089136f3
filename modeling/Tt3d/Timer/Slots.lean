import Mathlib.Algebra.BigOperators.Fin
import Mathlib.Data.Fintype.BigOperators
import Mathlib.Data.Multiset.Range
import Mathlib.Tactic.Abel
import Tt3d.Timer.Draining

/-!
Who owns the slots of `TimerMaster`.

`Register` allocates a slot, `Update` deletes it when its timer is dead or not periodic,
and the destructor deletes what is left in the wheel. Every slot allocated is at every
moment in exactly one place: in one list of the wheel, in the vector of `Update`, or
deleted.
-/

namespace Tt3d.Timer

open TimerMaster

variable {τ : Type*}

/-- `DestroyAllTimers`: the slots that it deletes, one after the other. -/
def TimerMaster.destroyAllTimers (m : TimerMaster τ) : List ℕ :=
  (List.finRange 4).flatMap fun i =>
    (List.finRange kTVSize).flatMap fun j => (m.vecs (i, j)).map TimerSlot.id

/-- The slots that a step deletes: those of dead timers when a jiffy is taken, and that of
a timer which is not periodic when it would be filed again. -/
def State.deletes (s : State τ) : Event τ → List ℕ
  | .take =>
      match s.master.cascade with
      | none => []
      | some m => (m.takeTimers fun x => !s.live x).2.map TimerSlot.id
  | .rearm slot _ period _ => if period then [] else [slot]
  | .register _ _ | .release _ | .update _ | .tick | .expired _ _ | .called | .next | .return => []

/-- The slots that are linked in the wheel or wait in `Update` to be filed again. -/
def State.held (s : State τ) : Multiset ℕ :=
  s.master.slots.map TimerSlot.id + (s.toRearm.map TimerSlot.id : Multiset ℕ)

namespace Slots

/-- The slots that a step of a master deletes. -/
def deletes (s : Restart.State τ) : Restart.Event τ → List ℕ
  | .timer a => s.timer.deletes a
  | .start | .stop | .internalRun => []

variable [DecidableEq τ]

/-- The slots deleted in a history, oldest first. -/
def deletions : Restart.State τ → List (Restart.Event τ) → List ℕ
  | _, [] => []
  | s, a :: as =>
      deletes s a ++ match Draining.step s a with
        | none => []
        | some s' => deletions s' as

end Slots

/-! ### The lists of the wheel -/

theorem coe_flatMap_finRange {β : Type*} {n : ℕ} (f : Fin n → List β) :
    (((List.finRange n).flatMap f : List β) : Multiset β) = ∑ i, (f i : Multiset β) := by
  have hlist : ∀ l : List (Fin n), ((l.flatMap f : List β) : Multiset β) =
      (l.map fun i => (f i : Multiset β)).sum := by
    intro l
    induction l with
    | nil => rfl
    | cons i l ih =>
        rw [List.flatMap_cons, ← Multiset.coe_add, ih, List.map_cons, List.sum_cons]
  rw [hlist, Fin.sum_univ_def]

theorem coe_destroyAllTimers (m : TimerMaster τ) :
    (m.destroyAllTimers : Multiset ℕ) = m.slots.map TimerSlot.id := by
  rw [slots_map, gather, Fintype.sum_prod_type, destroyAllTimers, coe_flatMap_finRange]
  refine Finset.sum_congr rfl fun i _ => ?_
  rw [coe_flatMap_finRange]
  rfl

theorem slots_pushBack (m : TimerMaster τ) (p : Place) (u : TimerSlot τ) :
    (m.pushBack p u).slots = u ::ₘ m.slots := by
  rw [slots_eq_gather, gather_pushBack, ← slots_eq_gather]

theorem slots_setList_nil (m : TimerMaster τ) (p : Place) :
    (m.setList p []).slots + (m.vecs p : Multiset (TimerSlot τ)) = m.slots := by
  have h := gather_setList (g := fun _ u => u) m p []
  rwa [Multiset.map_id', Multiset.map_id', Multiset.coe_nil, add_zero, ← slots_eq_gather,
    ← slots_eq_gather] at h

/-- What `InternalAddTimer` adds to the wheel is the slot that it is given. -/
theorem ids_internalAddTimer {m m' : TimerMaster τ} {u : TimerSlot τ} {x : τ} {e : ℤ}
    (h : m.internalAddTimer u x e = some m') :
    m'.slots.map TimerSlot.id = u.id ::ₘ m.slots.map TimerSlot.id := by
  obtain ⟨p, -, rfl⟩ := Option.map_eq_some_iff.mp h
  rw [slots_pushBack, Multiset.map_cons]

section Step

variable [DecidableEq τ] {s s' : State τ} {c : Calendar τ} {a : Event τ}

omit [DecidableEq τ] in
/-- The current list, whose slots are called or deleted, leaves the wheel. -/
theorem held_take {ok : (Fin 4 → ℤ) → Place → TimerSlot τ → Prop} {due : ℤ → Place → ℤ → ℤ}
    (rule : FilingRule ok due) (h : RefinesBy ok due s c) (hstep : s.take = some s') :
    s'.held + (s.deletes .take : Multiset ℕ) = s.held ∧ s'.nextSlot = s.nextSlot := by
  unfold State.take at hstep
  split at hstep
  swap
  · cases hstep
  rename_i target hup
  split at hstep
  swap
  · cases hstep
  have hfiled : ∀ p, ∀ u ∈ s.master.vecs p, ok (servedUpTo s.master.timerJiffies 1) p u := by
    rw [servedUpTo_one]
    simpa [State.served, hup] using h.good.filed
  obtain ⟨m, hcascade, -, hpending, -⟩ := rule.cascade_eq rfl h.good.clock hfiled
  rw [hcascade] at hstep
  obtain rfl := Option.some.inj hstep
  have hslots := slots_eq_of_pending hpending
  have htaken := slots_setList_nil m (0, m.index 0)
  have hsplit := Multiset.coe_eq_coe.mpr
    (List.filter_append_perm (fun u => s.live u.weakTimer) (m.vecs (0, m.index 0)))
  have hdeletes : s.deletes .take =
      ((m.vecs (0, m.index 0)).filter fun u => !s.live u.weakTimer).map TimerSlot.id := by
    simp only [State.deletes, hcascade]
    rfl
  refine ⟨?_, rfl⟩
  rw [hdeletes]
  calc (m.setList (0, m.index 0) []).slots.map TimerSlot.id +
        (((m.vecs (0, m.index 0)).filter fun u => s.live u.weakTimer).map TimerSlot.id :
          Multiset ℕ) +
        (((m.vecs (0, m.index 0)).filter fun u => !s.live u.weakTimer).map TimerSlot.id :
          Multiset ℕ)
      = ((m.setList (0, m.index 0) []).slots + (m.vecs (0, m.index 0) : Multiset _)).map
          TimerSlot.id := by
        rw [← hsplit, ← Multiset.coe_add, Multiset.map_add, Multiset.map_add, Multiset.map_coe,
          Multiset.map_coe, add_assoc]
    _ = s.master.slots.map TimerSlot.id := by rw [htaken, hslots]
    _ = s.held := by
        have hnone : s.toRearm = [] := by simp [State.toRearm, hup]
        rw [State.held, hnone, List.map_nil, Multiset.coe_nil, add_zero]

/-- **One step.** What is held afterwards and what the step deletes is what was held
before and what the step allocates. -/
theorem held_step {ok : (Fin 4 → ℤ) → Place → TimerSlot τ → Prop} {due : ℤ → Place → ℤ → ℤ}
    (rule : FilingRule ok due) (h : RefinesBy ok due s c) (hstep : step s a = some s') :
    s'.held + (s.deletes a : Multiset ℕ) + Multiset.range s.nextSlot =
      s.held + Multiset.range s'.nextSlot := by
  have hsame : ∀ t : State τ, t.held = s.held → t.nextSlot = s.nextSlot →
      t.held + (([] : List ℕ) : Multiset ℕ) + Multiset.range s.nextSlot =
        s.held + Multiset.range t.nextSlot := by
    intro t hheld hnext
    rw [hheld, hnext, Multiset.coe_nil, add_zero]
  cases a with
  | register x timeout =>
      simp only [step, State.register] at hstep
      split at hstep
      · simp only [Option.bind_eq_some_iff, Option.map_eq_some_iff] at hstep
        obtain ⟨e, -, m, hm, rfl⟩ := hstep
        have hids := ids_internalAddTimer hm
        show m.slots.map TimerSlot.id + (s.toRearm.map TimerSlot.id : Multiset ℕ) + 0 +
          Multiset.range s.nextSlot = _
        rw [hids, Multiset.range_succ, State.held, add_zero, Multiset.cons_add, Multiset.cons_add,
          Multiset.add_cons]
      · obtain rfl := Option.some.inj hstep
        exact hsame s rfl rfl
  | release x =>
      simp only [step, State.release] at hstep
      split at hstep <;> cases hstep
      exact hsame _ rfl rfl
  | take =>
      obtain ⟨hheld, hnext⟩ := held_take rule h hstep
      rw [hheld, hnext]
  | rearm slot x period timeout =>
      simp only [step, State.rearm] at hstep
      split at hstep
      swap
      · cases hstep
      rename_i target old t todo timers hup
      split at hstep
      swap
      · cases hstep
      rename_i hhead
      have hheld : s.held = s.master.slots.map TimerSlot.id +
          ((slot :: todo.map TimerSlot.id : List ℕ) : Multiset ℕ) := by
        simp [State.held, State.toRearm, hup, hhead.1]
      cases period with
      | true =>
          simp only [if_true, Option.bind_eq_some_iff, Option.map_eq_some_iff] at hstep
          obtain ⟨e, -, m, hm, rfl⟩ := hstep
          refine hsame _ ?_ rfl
          show m.slots.map TimerSlot.id + (todo.map TimerSlot.id : Multiset ℕ) = _
          rw [ids_internalAddTimer hm, hheld, hhead.1, ← Multiset.cons_coe, Multiset.cons_add,
            Multiset.add_cons]
      | false =>
          obtain rfl := Option.some.inj hstep
          show s.master.slots.map TimerSlot.id + (todo.map TimerSlot.id : Multiset ℕ) +
            ([slot] : List ℕ) + Multiset.range s.nextSlot = _
          rw [hheld, ← Multiset.cons_coe slot (todo.map _), Multiset.add_cons,
            Multiset.coe_singleton, ← Multiset.singleton_add slot]
          exact congrArg (· + _) (add_comm _ _)
  | update j =>
      obtain ⟨⟨hidle, -⟩, hs⟩ := Option.ite_none_right_eq_some.mp hstep
      obtain rfl := Option.some.inj hs
      have hup : s.updater = .idle := by
        cases hu : s.updater <;> simp_all
      exact hsame _ (by simp [State.held, State.toRearm, hup]) rfl
  | tick =>
      simp only [step] at hstep
      split at hstep
      · rename_i target timers hup
        obtain ⟨t, -, rfl⟩ := Option.map_eq_some_iff.mp hstep
        have hslots : ({ s.master with timerJiffies := t } : TimerMaster τ).slots =
            s.master.slots := by rw [slots_eq_gather, slots_eq_gather, gather_clock]
        exact hsame _ (by simp [State.held, State.toRearm, hup, hslots]) rfl
      · cases hstep
  | expired slot x =>
      simp only [step, State.expired] at hstep
      split at hstep
      · rename_i target old t todo timers hup
        split at hstep <;> cases hstep
        exact hsame _ (by simp [State.held, State.toRearm, hup]) rfl
      · cases hstep
  | called | next =>
      simp only [step] at hstep
      split at hstep <;> cases hstep
      rename_i hup
      exact hsame _ (by simp [State.held, State.toRearm, hup]) rfl
  | «return» =>
      simp only [step] at hstep
      split at hstep
      · rename_i target hup
        split at hstep <;> cases hstep
        exact hsame _ (by simp [State.held, State.toRearm, hup]) rfl
      · cases hstep

end Step

/-! ### Whole histories -/

namespace Slots

variable [DecidableEq τ] {s s' : Restart.State τ} {a : Restart.Event τ}
  {es : List (Restart.Event τ)}

theorem held_restart_step (h : Draining.Kept s) (hstep : Draining.step s a = some s') :
    s'.timer.held + (deletes s a : Multiset ℕ) + Multiset.range s.timer.nextSlot =
      s.timer.held + Multiset.range s'.timer.nextSlot := by
  have hsame : ∀ t : Restart.State τ, t.timer.held = s.timer.held →
      t.timer.nextSlot = s.timer.nextSlot →
      t.timer.held + (([] : List ℕ) : Multiset ℕ) + Multiset.range s.timer.nextSlot =
        s.timer.held + Multiset.range t.timer.nextSlot := by
    intro t hheld hnext
    rw [hheld, hnext, Multiset.coe_nil, add_zero]
  obtain ⟨c, href, -⟩ := h
  cases a with
  | start =>
      obtain ⟨hidle, hstep⟩ := Option.ite_none_right_eq_some.mp hstep
      have hslots : ({ s.timer.master with timerJiffies := 1 } : TimerMaster τ).slots =
          s.timer.master.slots := by rw [slots_eq_gather, slots_eq_gather, gather_clock]
      simp only [Restart.step] at hstep
      split at hstep <;> cases hstep
      · exact hsame _ (by
          simp [Restart.State.start, State.held, State.toRearm, hidle, hslots]) rfl
      · exact hsame s rfl rfl
  | stop =>
      simp only [Draining.step, Restart.step] at hstep
      split at hstep
      · cases hstep
        exact hsame s rfl rfl
      · split at hstep <;> cases hstep
        exact hsame _ rfl rfl
  | internalRun =>
      obtain ⟨-, hstep⟩ := Option.ite_none_left_eq_some.mp hstep
      obtain ⟨jiffiers, -, hstep⟩ := Option.bind_eq_some_iff.mp hstep
      obtain ⟨t, ht, rfl⟩ := Option.map_eq_some_iff.mp hstep
      exact held_step placed_rule href ht
  | timer b =>
      obtain ⟨t, ht, rfl⟩ := Option.map_eq_some_iff.mp hstep
      exact held_step placed_rule href ht

/-- Whatever has been deleted before, a history accounts for every slot. -/
theorem accounted_run {deleted : List ℕ} (h : Draining.Kept s)
    (hbefore : (deleted : Multiset ℕ) + s.timer.held = Multiset.range s.timer.nextSlot)
    (hrun : Machine.run Draining.step s es = some s') :
    ((deleted ++ deletions s es : List ℕ) : Multiset ℕ) + s'.timer.held =
      Multiset.range s'.timer.nextSlot := by
  induction es generalizing s deleted with
  | nil =>
      obtain rfl : s = s' := by simpa using hrun
      rw [deletions, List.append_nil, hbefore]
  | cons a es ih =>
      obtain ⟨t, ht, hrest⟩ := (Machine.run_cons_eq_some _).mp hrun
      have hone := held_restart_step h ht
      have hnext : ((deleted ++ deletes s a : List ℕ) : Multiset ℕ) + t.timer.held =
          Multiset.range t.timer.nextSlot := by
        refine add_right_cancel (b := Multiset.range s.timer.nextSlot) ?_
        calc ((deleted ++ deletes s a : List ℕ) : Multiset ℕ) + t.timer.held +
              Multiset.range s.timer.nextSlot
            = deleted + (t.timer.held + (deletes s a : Multiset ℕ) +
                Multiset.range s.timer.nextSlot) := by
              rw [← Multiset.coe_add]
              abel
          _ = (deleted + s.timer.held) + Multiset.range t.timer.nextSlot := by
              rw [hone, add_assoc]
          _ = Multiset.range t.timer.nextSlot + Multiset.range s.timer.nextSlot := by
              rw [hbefore, add_comm]
      have hall := ih (h.step ht) hnext hrest
      rwa [List.append_assoc, show deletes s a ++ deletions t es = deletions s (a :: es) by
        rw [deletions, ht]] at hall

/-- **Every slot is deleted once.** The slots that a history deletes, those that `Update`
holds and those that the destructor deletes are all the slots allocated, each once. -/
theorem run_deletes_once (hrun : Machine.run Draining.step ({} : Restart.State τ) es = some s) :
    (deletions {} es ++ s.timer.toRearm.map TimerSlot.id ++
      s.timer.master.destroyAllTimers).Perm (List.range s.timer.nextSlot) := by
  have hinit : (({} : Restart.State τ).timer.held : Multiset ℕ) = 0 := by
    simp [State.held, State.toRearm, Timer.State.init, slots_eq_gather]
  have hbefore : (([] : List ℕ) : Multiset ℕ) + ({} : Restart.State τ).timer.held =
      Multiset.range ({} : Restart.State τ).timer.nextSlot := by
    rw [hinit]
    rfl
  have hall := accounted_run Draining.kept_init hbefore hrun
  rw [← Multiset.coe_eq_coe, ← Multiset.coe_add, ← Multiset.coe_add, coe_destroyAllTimers,
    Multiset.coe_range, ← hall, State.held, List.nil_append]
  abel

/-- A slot of a dead timer, one of a timer that is not periodic, and one that is left. -/
def threeSlots : List (Restart.Event ℕ) :=
  [.timer (.register 7 2), .timer (.register 8 2), .timer (.register 9 100), .timer (.release 8),
    .timer (.update 3)] ++ Draining.quietTick ++ Draining.quietTick ++
    [.timer .take, .timer .tick, .timer (.expired 0 7), .timer .called,
      .timer (.rearm 0 7 false 2), .timer .next, .timer .return]

theorem run_deletes_once_three_slots :
    ∃ s : Restart.State ℕ, Machine.run Draining.step {} threeSlots = some s ∧
      deletions {} threeSlots = [1, 0] ∧
      ([1, 0] ++ s.timer.master.destroyAllTimers).Perm [0, 1, 2] := by
  have hend : (Machine.run Draining.step {} threeSlots).map
      (fun s => (s.timer.toRearm.map TimerSlot.id, s.timer.nextSlot)) = some ([], 3) := by
    decide +kernel
  have hdeleted : deletions {} threeSlots = [1, 0] := by decide +kernel
  obtain ⟨s, hs, heq⟩ := Option.map_eq_some_iff.mp hend
  obtain ⟨hrearm, hnext⟩ := Prod.mk.inj heq
  have hall := run_deletes_once hs
  rw [hdeleted, hrearm, hnext, List.append_nil] at hall
  exact ⟨s, hs, hdeleted, hall⟩

end Slots

end Tt3d.Timer
