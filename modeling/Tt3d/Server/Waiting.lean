import Mathlib.Logic.Function.Basic
import Tt3d.Lib.Machine
import Tt3d.Server.Channels

/-!
`Notifier::Wait`, by any number of threads.

Each section under `mutex_` is one step. `timed_wait` lets the mutex go and has three
parts: the thread waits, something wakes it, and it gets the mutex back, which may be
much later. `Wait` returns what `timed_wait` does.
-/

namespace Tt3d.Server

namespace Waiting

/-- What wakes a thread out of `timed_wait`. -/
inductive Cause
  | notification
  | spurious
  | deadline
  deriving DecidableEq, Repr

/-- What `timed_wait` returns. -/
def Cause.ret : Cause → Bool
  | .notification | .spurious => true
  | .deadline => false

/-- Where a thread is. -/
inductive Phase
  | outside
  /-- It waits; `notify_all` has been called since, or not. -/
  | waiting (signalled : Bool)
  /-- It waits for the mutex. -/
  | woken (cause : Cause)
  deriving DecidableEq, Repr

/-- `notify_all` on one thread. -/
def Phase.notifyAll : Phase → Phase
  | .waiting _ => .waiting true
  | phase => phase

/-- A call of `Wait` that has returned, with the state at that time. -/
structure Returned (κ : Type*) where
  thread : κ
  ret : Bool
  notified : Bool
  reached : Bool
  deriving DecidableEq, Repr

structure State (κ : Type*) where
  notifier : Notifier
  /-- A `Dec` has left `count_` at 0. -/
  reached : Bool := false
  thread : κ → Phase := fun _ => .outside
  returned : List (Returned κ) := []

inductive Event (κ : Type*)
  | notify
  | inc (cnt : ℤ)
  | dec (cnt : ℤ)
  /-- The section of `Wait` up to `timed_wait`. -/
  | wait (thread : κ)
  | wake (thread : κ) (cause : Cause)
  /-- The thread gets the mutex back, and returns. -/
  | resume (thread : κ)
  deriving DecidableEq, Repr

variable {κ : Type*} [DecidableEq κ]

/-- What a section of `Dec` does with the notifier and the threads that wait. -/
def State.dec (s : State κ) (n : Notifier) : State κ :=
  if n.count = 0 then
    { s with notifier := n, reached := true, thread := fun k => (s.thread k).notifyAll }
  else { s with notifier := n }

/-- `thread` returns `ret`. -/
def State.return (s : State κ) (thread : κ) (ret : Bool) : State κ :=
  { s with
    thread := Function.update s.thread thread .outside
    returned := s.returned ++ [⟨thread, ret, s.notifier.notified, s.reached⟩] }

def step (s : State κ) : Event κ → Option (State κ)
  | .notify => (s.notifier.dec 1).map s.dec
  | .inc cnt => (s.notifier.inc cnt).map s.dec
  | .dec cnt => (s.notifier.dec cnt).map s.dec
  | .wait thread =>
      match s.thread thread with
      | .outside =>
          if s.notifier.notified then some (s.return thread true)
          else some { s with thread := Function.update s.thread thread (.waiting false) }
      | _ => none
  | .wake thread cause =>
      match s.thread thread with
      | .waiting signalled =>
          if cause = .notification ∧ signalled = false then none
          else some { s with thread := Function.update s.thread thread (.woken cause) }
      | _ => none
  | .resume thread =>
      match s.thread thread with
      | .woken cause => some (s.return thread cause.ret)
      | _ => none

def init (initialCount : ℤ) : State κ := { notifier := { count := initialCount } }

/-- A thread that nothing has notified gets the mutex back after `count_` has reached 0
if it woke spuriously, and before if its deadline has passed. -/
def InTime (s : State κ) : Event κ → Prop
  | .resume thread =>
      match s.thread thread with
      | .woken .spurious => s.reached = true
      | .woken .deadline => s.reached = false
      | _ => True
  | _ => True

instance (s : State κ) : ∀ a, Decidable (InTime s a)
  | .resume thread => by
      dsimp only [InTime]
      split <;> infer_instance
  | .notify | .inc _ | .dec _ | .wait _ | .wake _ _ => isTrue trivial

/-- What `Wait` has returned is what it was to report. -/
def Returned.Truthful (r : Returned κ) : Prop :=
  (r.ret = true → r.notified = true ∧ r.reached = true) ∧ (r.ret = false → r.notified = false)

def Truthful (s : State κ) : Prop := ∀ r ∈ s.returned, r.Truthful

/-! ### What is known of a thread that has been notified -/

/-- A thread is notified only after `notified_` has been set. -/
def Phase.Notified : Phase → Prop
  | .waiting signalled => signalled = true
  | .woken cause => cause = .notification
  | .outside => False

structure Marked (s : State κ) : Prop where
  notified : s.notifier.notified = s.reached
  thread : ∀ k, (s.thread k).Notified → s.reached = true

variable {s s' : State κ} {k : κ} {n n' : Notifier} {cnt : ℤ} {ret : Bool}

theorem notified_dec (h : n.dec cnt = some n') :
    n'.notified = (n.notified || decide (n'.count = 0)) := by
  simp only [Notifier.dec, Option.ite_none_right_eq_some, Option.some.injEq] at h
  obtain ⟨-, rfl⟩ := h
  rfl

omit [DecidableEq κ] in
theorem marked_init (initialCount : ℤ) : Marked (init initialCount : State κ) :=
  ⟨rfl, fun _ h => h.elim⟩

omit [DecidableEq κ] in
theorem Marked.dec (h : Marked s) (hdec : s.notifier.dec cnt = some n) : Marked (s.dec n) := by
  have hnotified := notified_dec hdec
  rw [h.notified] at hnotified
  unfold State.dec
  split
  · rename_i hzero
    refine ⟨?_, fun _ _ => rfl⟩
    rw [hnotified, decide_eq_true hzero, Bool.or_true]
  · rename_i hne
    refine ⟨?_, h.thread⟩
    rw [hnotified, decide_eq_false hne, Bool.or_false]

/-- A thread may go on to a phase in which it is not notified, or has been before. -/
theorem Marked.update (h : Marked s) (k : κ) {phase : Phase}
    (hphase : phase.Notified → s.reached = true) :
    Marked { s with thread := Function.update s.thread k phase } := by
  refine ⟨h.notified, fun k' hk' => ?_⟩
  replace hk' : (Function.update s.thread k phase k').Notified := hk'
  by_cases heq : k' = k
  · subst heq
    rw [Function.update_self] at hk'
    exact hphase hk'
  · rw [Function.update_of_ne heq] at hk'
    exact h.thread k' hk'

theorem Marked.return (h : Marked s) : Marked (s.return k ret) := by
  have hupdate : Marked { s with thread := Function.update s.thread k .outside } :=
    h.update k fun hnotified => hnotified.elim
  exact ⟨h.notified, hupdate.thread⟩

theorem truthful_return_iff (h : Marked s) :
    Truthful (s.return k ret) ↔ Truthful s ∧ ret = s.reached := by
  have hlast : (⟨k, ret, s.notifier.notified, s.reached⟩ : Returned κ).Truthful ↔
      ret = s.reached := by
    rw [Returned.Truthful, h.notified]
    cases ret <;> simp
  simp only [Truthful, State.return, List.forall_mem_append, List.forall_mem_singleton, hlast]

omit [DecidableEq κ] in
theorem truthful_dec : Truthful (s.dec n) ↔ Truthful s := by
  unfold State.dec
  split <;> exact Iff.rfl

/-- What a step does. -/
inductive Effect (s : State κ) : Event κ → State κ → Prop
  | dec (a : Event κ) {cnt : ℤ} {n : Notifier} (hdec : s.notifier.dec cnt = some n)
      (hintime : InTime s a) : Effect s a (s.dec n)
  | returns (k : κ) (hnotified : s.notifier.notified = true) : Effect s (.wait k) (s.return k true)
  | waits (k : κ) :
      Effect s (.wait k) { s with thread := Function.update s.thread k (.waiting false) }
  | wakes (k : κ) (cause : Cause) (hcause : cause = .notification → (s.thread k).Notified) :
      Effect s (.wake k cause) { s with thread := Function.update s.thread k (.woken cause) }
  | resumes (k : κ) (cause : Cause) (hphase : s.thread k = .woken cause) :
      Effect s (.resume k) (s.return k cause.ret)

theorem effect_of_step {a : Event κ} (hstep : step s a = some s') : Effect s a s' := by
  cases a with
  | notify | inc | dec =>
      obtain ⟨n, hn, rfl⟩ := Option.map_eq_some_iff.mp hstep
      exact .dec _ hn trivial
  | wait k =>
      simp only [step] at hstep
      split at hstep
      · split at hstep
        · rename_i hnotified
          obtain rfl := Option.some.inj hstep
          exact .returns k hnotified
        · obtain rfl := Option.some.inj hstep
          exact .waits k
      · cases hstep
  | wake k cause =>
      simp only [step] at hstep
      split at hstep
      · rename_i signalled hphase
        split at hstep
        · cases hstep
        · rename_i hsignalled
          obtain rfl := Option.some.inj hstep
          refine .wakes k cause fun hcause => ?_
          rw [hphase]
          exact Bool.of_not_eq_false fun hfalse => hsignalled ⟨hcause, hfalse⟩
      · cases hstep
  | resume k =>
      simp only [step] at hstep
      split at hstep
      · rename_i cause hphase
        obtain rfl := Option.some.inj hstep
        exact .resumes k cause hphase
      · cases hstep

theorem Marked.step (h : Marked s) {a : Event κ} (hstep : Waiting.step s a = some s') :
    Marked s' := by
  cases effect_of_step hstep with
  | dec a hdec hintime => exact h.dec hdec
  | returns k hnotified => exact h.return
  | waits k => exact h.update k fun hfalse => nomatch hfalse
  | wakes k cause hcause => exact h.update k fun hnotified => h.thread k (hcause hnotified)
  | resumes k cause hphase => exact h.return

/-- **One step** is in time just when it adds no return that is not truthful. -/
theorem Marked.truthful_step (h : Marked s) {a : Event κ}
    (hstep : Waiting.step s a = some s') : Truthful s' ↔ Truthful s ∧ InTime s a := by
  cases effect_of_step hstep with
  | dec a hdec hintime => exact truthful_dec.trans (and_iff_left hintime).symm
  | returns k hnotified =>
      rw [truthful_return_iff h, ← h.notified, hnotified]
      exact and_congr_right fun _ => iff_of_true rfl trivial
  | waits k => exact (and_iff_left trivial).symm
  | wakes k cause hcause => exact (and_iff_left trivial).symm
  | resumes k cause hphase =>
      rw [truthful_return_iff h]
      refine and_congr_right fun _ => ?_
      simp only [InTime, hphase]
      cases cause with
      | notification => exact iff_of_true (h.thread k (by rw [hphase]; rfl)).symm trivial
      | spurious => exact eq_comm
      | deadline => exact eq_comm

/-- **When `Wait` reports notification truthfully.** -/
theorem truthful_iff_inTime {initialCount : ℤ} {es : List (Event κ)}
    (hrun : Machine.run step (init initialCount) es = some s) :
    Truthful s ↔ Machine.Along step InTime (init initialCount) es := by
  have hstep : ∀ (u : State κ) (a : Event κ) (u' : State κ), Marked u →
      step u a = some u' → Marked u' := fun _ _ _ hu h => hu.step h
  have hiff : ∀ (u : State κ) (a : Event κ) (u' : State κ), Marked u → ¬ ¬ Truthful u →
      step u a = some u' → (¬ Truthful u' ↔ ¬ InTime u a) := by
    intro u a u' hu htruthful h
    rw [hu.truthful_step h]
    exact not_congr (and_iff_right (not_not.mp htruthful))
  have hlost : ∀ (u : State κ) (a : Event κ) (u' : State κ), Marked u → ¬ Truthful u →
      step u a = some u' → ¬ Truthful u' :=
    fun u a u' hu hnot h htruthful => hnot ((hu.truthful_step h).mp htruthful).1
  have hinit : ¬ ¬ Truthful (init initialCount : State κ) :=
    not_not.mpr fun r hr => absurd hr List.not_mem_nil
  rw [Machine.along_iff_not hstep hiff hlost (marked_init initialCount) hinit hrun, not_not]

/-- Two threads: the deadline of one passes, the other is notified; then one more call. -/
theorem truthful_iff_inTime_notified :
    ∃ s, Machine.run step (init 1)
        [.wait 0, .wait 1, .wake 0 .deadline, .resume 0, .notify, .wake 1 .notification,
          .resume 1, .wait 0] = some s ∧
      s.returned = [⟨0, false, false, false⟩, ⟨1, true, true, true⟩, ⟨0, true, true, true⟩] ∧
      Truthful (κ := ℕ) s := by
  obtain ⟨s, hrun, hreturned⟩ : ∃ s, Machine.run step (init 1 : State ℕ)
      [.wait 0, .wait 1, .wake 0 .deadline, .resume 0, .notify, .wake 1 .notification,
        .resume 1, .wait 0] = some s ∧
      s.returned = [⟨0, false, false, false⟩, ⟨1, true, true, true⟩, ⟨0, true, true, true⟩] :=
    ⟨_, rfl, rfl⟩
  exact ⟨s, hrun, hreturned, (truthful_iff_inTime hrun).mpr (by decide)⟩

/-- A spurious wake-up before anything is notified. -/
theorem not_truthful :
    ¬ ∀ (initialCount : ℤ) (es : List (Event ℕ)) (s : State ℕ),
      Machine.run step (init initialCount) es = some s → Truthful s := by
  intro h
  have hall := h 1 [.wait 0, .wake 0 .spurious, .resume 0] _ rfl
  have htruthful := hall ⟨0, true, false, false⟩ List.mem_cons_self
  exact absurd (htruthful.1 rfl).1 (by decide)

end Waiting

end Tt3d.Server
