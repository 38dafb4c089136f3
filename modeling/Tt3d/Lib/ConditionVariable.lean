import Mathlib.Logic.Function.Basic
import Tt3d.Lib.Machine

/-!
An operation that blocks, and the same operation with a condition variable.

A thread that makes the operation before it is ready goes to sleep. It is woken by an
event that notifies all, or for no reason, and then looks again. Where every event
that makes the operation ready notifies, the sleep shows nowhere: the two machines
can do the same in each state.
-/

namespace Tt3d.ConditionVariable

variable {σ α κ : Type*}

/-- Which events are the operation of a thread, and what it waits for. -/
structure Condition (σ α κ : Type*) where
  operation : α → Option κ
  ready : σ → Bool
  /-- The thread is in the operation. -/
  inside : σ → κ → Bool
  notifies : α → Bool

/-- The operation is made when it is ready only, and what makes it ready notifies. -/
structure Condition.Guards (cond : Condition σ α κ) (step : σ → α → Option σ) : Prop where
  ready : ∀ {s a s' k}, step s a = some s' → cond.operation a = some k → cond.ready s = true
  notifies : ∀ {s a s'}, step s a = some s' → cond.ready s' = true →
    cond.ready s = true ∨ cond.notifies a = true

structure State (σ κ : Type*) where
  base : σ
  asleep : κ → Bool := fun _ => false

inductive Event (α κ : Type*)
  | base (a : α)
  /-- The thread finds the operation not ready, and waits. -/
  | sleep (k : κ)
  /-- It wakes though nobody has notified it. -/
  | wake (k : κ)

variable [DecidableEq κ] (cond : Condition σ α κ) (step : σ → α → Option σ)

def waitStep (s : State σ κ) : Event α κ → Option (State σ κ)
  | .base a =>
      if (cond.operation a).any s.asleep then none
      else (step s.base a).map fun base =>
        { base := base, asleep := if cond.notifies a then fun _ => false else s.asleep }
  | .sleep k =>
      if cond.inside s.base k = true ∧ cond.ready s.base = false then
        some { s with asleep := Function.update s.asleep k true }
      else none
  | .wake k =>
      if s.asleep k then some { s with asleep := Function.update s.asleep k false } else none

/-- The events of the machine that blocks. -/
def bases (es : List (Event α κ)) : List α :=
  es.filterMap fun
    | .base a => some a
    | .sleep _ | .wake _ => none

/-- Nobody sleeps through what it waits for. -/
def Vigilant (s : State σ κ) : Prop := cond.ready s.base = true → ∀ k, s.asleep k = false

variable {cond step} {s s' : State σ κ}

theorem Vigilant.waitStep (hcond : cond.Guards step) (h : Vigilant cond s) {e : Event α κ}
    (hstep : waitStep cond step s e = some s') : Vigilant cond s' := by
  cases e with
  | base a =>
      simp only [ConditionVariable.waitStep, Option.ite_none_left_eq_some,
        Option.map_eq_some_iff] at hstep
      obtain ⟨-, base, hbase, rfl⟩ := hstep
      intro hready k
      cases hnotifies : cond.notifies a with
      | true => simp
      | false =>
          have hbefore := (hcond.notifies hbase hready).resolve_right (by simp [hnotifies])
          simpa using h hbefore k
  | sleep k =>
      simp only [ConditionVariable.waitStep, Option.ite_none_right_eq_some,
        Option.some.injEq] at hstep
      obtain ⟨⟨-, hready⟩, rfl⟩ := hstep
      intro hready'
      exact absurd (hready.symm.trans hready') (by decide)
  | wake k =>
      simp only [ConditionVariable.waitStep, Option.ite_none_right_eq_some,
        Option.some.injEq] at hstep
      obtain ⟨-, rfl⟩ := hstep
      intro hready k'
      by_cases hk : k' = k
      · subst hk
        exact Function.update_self ..
      · exact (Function.update_of_ne hk ..).trans (h hready k')

/-- An event that the machine which blocks can make meets no sleeper. -/
theorem Vigilant.isSome_iff (hcond : cond.Guards step) (h : Vigilant cond s) (a : α) :
    (ConditionVariable.waitStep cond step s (.base a)).isSome ↔ (step s.base a).isSome := by
  cases hbase : step s.base a with
  | none => simp [ConditionVariable.waitStep, hbase]
  | some base =>
      have hawake : (cond.operation a).any s.asleep = false := by
        cases hoperation : cond.operation a with
        | none => rfl
        | some k => exact h (hcond.ready hbase hoperation) k
      simp [ConditionVariable.waitStep, hbase, hawake]

/-- **No wake-up is lost.** A run with the condition variable is a run of the machine
that blocks; nobody sleeps once the operation is ready; and in each state reached the
same events are possible. -/
theorem run_waitStep (hcond : cond.Guards step) {b : σ} {es : List (Event α κ)}
    (hrun : Machine.run (ConditionVariable.waitStep cond step) { base := b } es = some s) :
    Machine.run step b (bases es) = some s.base ∧ Vigilant cond s ∧
      ∀ a, (ConditionVariable.waitStep cond step s (.base a)).isSome ↔ (step s.base a).isSome := by
  have hvigilant : Vigilant cond s :=
    Machine.run_invariant (fun _ _ _ h hstep => h.waitStep hcond hstep) (fun _ _ => rfl) hrun
  refine ⟨?_, hvigilant, hvigilant.isSome_iff hcond⟩
  refine Machine.run_history (P := fun es s => Machine.run step b (bases es) = some s.base) rfl ?_
    hrun
  intro es t e t' _ ih hstep
  have hbases : bases (es ++ [e]) = bases es ++ bases [e] := List.filterMap_append ..
  rw [hbases, Machine.run_append_eq_some]
  refine ⟨t.base, ih, ?_⟩
  cases e with
  | base a =>
      simp only [ConditionVariable.waitStep, Option.ite_none_left_eq_some,
        Option.map_eq_some_iff] at hstep
      obtain ⟨-, base, hbase, rfl⟩ := hstep
      show Machine.run step t.base [a] = some base
      rw [Machine.run_cons, hbase]
      rfl
  | sleep k =>
      simp only [ConditionVariable.waitStep, Option.ite_none_right_eq_some,
        Option.some.injEq] at hstep
      obtain ⟨-, rfl⟩ := hstep
      rfl
  | wake k =>
      simp only [ConditionVariable.waitStep, Option.ite_none_right_eq_some,
        Option.some.injEq] at hstep
      obtain ⟨-, rfl⟩ := hstep
      rfl

end Tt3d.ConditionVariable
