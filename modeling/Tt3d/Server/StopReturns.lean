import Mathlib.Algebra.BigOperators.Group.Multiset.Basic
import Tt3d.Server.Shutdown

/-!
When `Stop` gets `stop_mutex_`, and returns.

A call of `HandleAccept` whose `Span` gave no connection returns with the shared lock.
Every other call gives it back. `Stop` waits, with the lock, for the handlers of the
connections that it closes and for the threads of the pool, which run the handlers and
the calls of `HandleAccept`. A join waits for its thread: it does not time out.
-/

namespace Tt3d.Server.Shutdown

open UpgradeMutex

/-- The step of a call that has had `stop_mutex_`. -/
def Event.isInner : Event → Bool
  | .listen | .handleAccept | .connectionClosed _ | .stop => false
  | _ => true

variable {s s' : State} {e : Event}

/-! ### Who has the lock -/

/-- `Span` gave no connection. -/
def lost (es : List Event) : ℕ := es.count (.span true)

/-- What an event does to the holders of the shared lock, and whether it loses it. -/
theorem shared_step (hstep : step s e = some s') :
    s'.stopMutex.shared + s.accepts.card =
        s.stopMutex.shared + s'.accepts.card + (if e = .span true then 1 else 0) ∧
      s'.stopMutex.upgrade = s.stopMutex.upgrade := by
  cases e with
  | listen =>
      simp only [step] at hstep
      split at hstep <;> cases hstep
      exact ⟨rfl, rfl⟩
  | handleAccept =>
      obtain ⟨m, hm, rfl⟩ := Option.map_eq_some_iff.mp hstep
      obtain ⟨hshared, hupgrade⟩ := lockShared_eq_some hm
      refine ⟨?_, hupgrade⟩
      simp only [Multiset.card_cons, reduceCtorEq, if_false]
      omega
  | testRunning =>
      simp only [step] at hstep
      split at hstep
      swap
      · cases hstep
      rename_i hmem
      split at hstep
      · obtain rfl := Option.some.inj hstep
        have hcard := card_move hmem {.running}
        rw [Multiset.card_singleton] at hcard
        simp only [State.move, reduceCtorEq, if_false, and_true] at hcard ⊢
        omega
      · obtain ⟨m, hm, rfl⟩ := Option.map_eq_some_iff.mp hstep
        obtain ⟨hshared, hupgrade⟩ := unlockShared_eq_some hm
        have hcard := card_move hmem 0
        rw [Multiset.card_zero] at hcard
        refine ⟨?_, hupgrade⟩
        simp only [State.move, reduceCtorEq, if_false] at hcard ⊢
        omega
  | span null =>
      simp only [step] at hstep
      split at hstep
      swap
      · cases hstep
      rename_i hmem
      cases null with
      | false =>
          obtain rfl := Option.some.inj hstep
          have hcard := card_move hmem {.spanned s.spanned}
          rw [Multiset.card_singleton] at hcard
          simp only [State.move, Event.span.injEq, reduceCtorEq, if_false, and_true] at hcard ⊢
          omega
      | true =>
          obtain rfl := Option.some.inj hstep
          have hcard := card_move hmem 0
          rw [Multiset.card_zero] at hcard
          simp only [State.move, if_true, and_true] at hcard ⊢
          omega
  | insert c =>
      simp only [step] at hstep
      split at hstep
      swap
      · cases hstep
      rename_i hmem
      obtain ⟨channels, -, rfl⟩ := Option.map_eq_some_iff.mp hstep
      have hcard := card_move hmem {.inserted}
      rw [Multiset.card_singleton] at hcard
      simp only [State.move, reduceCtorEq, if_false, and_true] at hcard ⊢
      omega
  | leave =>
      simp only [step] at hstep
      split at hstep
      swap
      · cases hstep
      rename_i hmem
      obtain ⟨m, hm, rfl⟩ := Option.map_eq_some_iff.mp hstep
      obtain ⟨hshared, hupgrade⟩ := unlockShared_eq_some hm
      have hcard := card_move hmem 0
      rw [Multiset.card_zero] at hcard
      refine ⟨?_, hupgrade⟩
      simp only [State.move, reduceCtorEq, if_false] at hcard ⊢
      omega
  | connectionClosed c =>
      obtain ⟨channels, -, rfl⟩ := Option.map_eq_some_iff.mp hstep
      exact ⟨rfl, rfl⟩
  | stop =>
      obtain ⟨m, hm, rfl⟩ := Option.map_eq_some_iff.mp hstep
      obtain ⟨hshared, hupgrade⟩ := lock_eq_some hm
      exact ⟨congrArg (· + s.accepts.card) hshared, hupgrade⟩
  | testStopped =>
      simp only [step] at hstep
      split at hstep
      swap
      · cases hstep
      split at hstep
      · obtain rfl := Option.some.inj hstep
        exact ⟨rfl, rfl⟩
      · obtain ⟨m, hm, rfl⟩ := Option.map_eq_some_iff.mp hstep
        obtain ⟨hshared, hupgrade⟩ := unlock_eq_some hm
        exact ⟨congrArg (· + s.accepts.card) hshared, hupgrade⟩
  | closeAll =>
      simp only [step] at hstep
      split at hstep
      swap
      · cases hstep
      obtain ⟨channels, -, rfl⟩ := Option.map_eq_some_iff.mp hstep
      exact ⟨rfl, rfl⟩
  | wait | poolStop | check =>
      simp only [step] at hstep
      split at hstep <;> cases hstep
      exact ⟨rfl, rfl⟩
  | unlock =>
      simp only [step] at hstep
      split at hstep
      swap
      · cases hstep
      obtain ⟨m, hm, rfl⟩ := Option.map_eq_some_iff.mp hstep
      obtain ⟨hshared, hupgrade⟩ := unlock_eq_some hm
      exact ⟨congrArg (· + s.accepts.card) hshared, hupgrade⟩

theorem lost_concat (es : List Event) (e : Event) :
    lost (es ++ [e]) = lost es + if e = .span true then 1 else 0 := by
  rw [lost, lost, List.count_append, List.count_singleton]
  simp only [beq_iff_eq]

theorem reaches {es : List Event} (hrun : Machine.run step {} es = some s) :
    Locked s ∧ Accounted s :=
  Machine.run_invariant (I := fun s => Locked s ∧ Accounted s)
    (fun _ _ _ h hstep => ⟨h.1.step hstep, h.2.step h.1 hstep⟩) ⟨locked_init, accounted_init⟩ hrun

/-- The shared lock is held by the calls of `HandleAccept` and by those that lost it. -/
theorem shared_eq {es : List Event} (hrun : Machine.run step {} es = some s) :
    s.stopMutex.shared = s.accepts.card + lost es ∧ s.stopMutex.upgrade = false := by
  refine Machine.run_history (P := fun es s => s.stopMutex.shared = s.accepts.card + lost es ∧
    s.stopMutex.upgrade = false) ⟨rfl, rfl⟩ ?_ hrun
  rintro as t a t' - ⟨ht, hfree⟩ hstep
  obtain ⟨hshared, hupgrade⟩ := shared_step hstep
  rw [lost_concat]
  exact ⟨by omega, hupgrade.trans hfree⟩

theorem stopped_of_step (hstep : step s e = some s') (hne : s.stopper ≠ .running) :
    s'.stopped = s.stopped := by
  cases e with
  | closeAll => simp [step, hne] at hstep
  | handleAccept | connectionClosed c | stop =>
      obtain ⟨m, -, rfl⟩ := Option.map_eq_some_iff.mp hstep
      rfl
  | listen | wait | poolStop | check =>
      simp only [step] at hstep
      split at hstep <;> cases hstep
      rfl
  | insert c | leave | unlock =>
      simp only [step] at hstep
      split at hstep
      swap
      · cases hstep
      obtain ⟨m, -, rfl⟩ := Option.map_eq_some_iff.mp hstep
      rfl
  | testRunning | testStopped =>
      simp only [step] at hstep
      split at hstep
      swap
      · cases hstep
      split at hstep
      · obtain rfl := Option.some.inj hstep
        rfl
      · obtain ⟨m, -, rfl⟩ := Option.map_eq_some_iff.mp hstep
        rfl
  | span null =>
      simp only [step] at hstep
      split at hstep
      swap
      · cases hstep
      split at hstep <;> cases hstep
      · rfl
      · rfl

/-- A lock that is lost is never had by `Stop`. -/
theorem stopper_eq_none_of_lost {es : List Event} (hrun : Machine.run step {} es = some s)
    (hlost : lost es ≠ 0) : s.stopper = .none := by
  have hlocked := (reaches hrun).1
  have hshared := (shared_eq hrun).1
  by_contra hne
  have hzero := hlocked.alone (hlocked.exclusive.mpr hne)
  omega

theorem stopped_eq_false_of_lost {es : List Event} (hrun : Machine.run step {} es = some s)
    (hlost : lost es ≠ 0) : s.stopped = false := by
  refine Machine.run_history (P := fun es s => lost es ≠ 0 → s.stopped = false)
    (fun h => absurd rfl h) ?_ hrun hlost
  intro as t a t' ht hstopped hstep hlost'
  have hlocked := (reaches ht).1
  have hbefore : t.stopper ≠ .running ∧ t.stopped = false := by
    by_cases hspan : a = .span true
    · -- the call that loses the lock holds it, and has seen the pool run
      subst hspan
      simp only [step] at hstep
      split at hstep
      swap
      · cases hstep
      rename_i hmem
      refine ⟨fun hrunning => ?_, hlocked.early _ hmem (by simp)⟩
      have hexclusive := hlocked.exclusive.mpr (by simp [hrunning])
      exact absurd (hexclusive.symm.trans (hlocked.not_exclusive hmem)) (by simp)
    · rw [lost_concat, if_neg hspan, Nat.add_zero] at hlost'
      exact ⟨by simp [stopper_eq_none_of_lost ht hlost'], hstopped hlost'⟩
  rw [stopped_of_step hstep hbefore.1, hbefore.2]

/-! ### What is left to do -/

def Accept.rank : Accept → ℕ
  | .entered => 4
  | .running => 3
  | .spanned _ => 2
  | .inserted => 1

def Stopper.rank : Stopper → ℕ
  | .none => 0
  | .entered => 6
  | .running => 5
  | .closed => 4
  | .waited => 3
  | .poolStopped => 2

/-- The steps that the calls have left at most. -/
def State.work (s : State) : ℕ := (s.accepts.map Accept.rank).sum + s.stopper.rank + s.checking

/-- The steps that a call has. -/
def Event.brings : Event → ℕ
  | .handleAccept => 4
  | .stop => 6
  | _ => 0

/-- A call of `HandleAccept` moves on. -/
theorem work_move {a : Accept} (ha : a ∈ s.accepts) {next : Multiset Accept}
    (hnext : (next.map Accept.rank).sum < a.rank)
    (haccepts : s'.accepts = (s.move a next).accepts) (hstopper : s'.stopper = s.stopper)
    (hchecking : s'.checking = s.checking) : s'.work + 1 ≤ s.work := by
  have hsum := Multiset.sum_map_erase (f := Accept.rank) ha
  rw [State.work, State.work, haccepts, hstopper, hchecking, State.move, Multiset.map_add,
    Multiset.sum_add]
  omega

/-- `Stop` moves on. -/
theorem work_stopper (haccepts : s'.accepts = s.accepts)
    (hless : s'.stopper.rank + s'.checking < s.stopper.rank + s.checking) :
    s'.work + 1 ≤ s.work := by
  rw [State.work, State.work, haccepts]
  omega

theorem work_step (hstep : step s e = some s') :
    s'.work + (if e.isInner then 1 else 0) ≤ s.work + e.brings := by
  cases e with
  | listen =>
      simp only [step] at hstep
      split at hstep <;> cases hstep
      exact Nat.le_refl _
  | handleAccept =>
      obtain ⟨m, -, rfl⟩ := Option.map_eq_some_iff.mp hstep
      simp only [State.work, Multiset.map_cons, Multiset.sum_cons, Accept.rank, Event.isInner,
        Event.brings, Bool.false_eq_true, if_false]
      omega
  | connectionClosed c =>
      obtain ⟨channels, -, rfl⟩ := Option.map_eq_some_iff.mp hstep
      exact Nat.le_refl _
  | stop =>
      obtain ⟨m, -, rfl⟩ := Option.map_eq_some_iff.mp hstep
      simp only [State.work, Event.isInner, Event.brings, Bool.false_eq_true, if_false]
      show _ + 6 + _ + 0 ≤ _
      omega
  | testRunning =>
      simp only [step] at hstep
      split at hstep
      swap
      · cases hstep
      rename_i hmem
      split at hstep
      · obtain rfl := Option.some.inj hstep
        exact work_move hmem (by decide) rfl rfl rfl
      · obtain ⟨m, -, rfl⟩ := Option.map_eq_some_iff.mp hstep
        exact work_move hmem (by decide) rfl rfl rfl
  | span null =>
      simp only [step] at hstep
      split at hstep
      swap
      · cases hstep
      rename_i hmem
      split at hstep <;> cases hstep
      · exact work_move hmem (by decide) rfl rfl rfl
      · exact work_move hmem (by simp [Accept.rank]) rfl rfl rfl
  | insert c =>
      simp only [step] at hstep
      split at hstep
      swap
      · cases hstep
      rename_i hmem
      obtain ⟨channels, -, rfl⟩ := Option.map_eq_some_iff.mp hstep
      exact work_move hmem (by simp [Accept.rank]) rfl rfl rfl
  | leave =>
      simp only [step] at hstep
      split at hstep
      swap
      · cases hstep
      rename_i hmem
      obtain ⟨m, -, rfl⟩ := Option.map_eq_some_iff.mp hstep
      exact work_move hmem (by decide) rfl rfl rfl
  | testStopped =>
      simp only [step] at hstep
      split at hstep
      swap
      · cases hstep
      rename_i hentered
      split at hstep
      · obtain rfl := Option.some.inj hstep
        exact work_stopper rfl (by simp [hentered, Stopper.rank])
      · obtain ⟨m, -, rfl⟩ := Option.map_eq_some_iff.mp hstep
        exact work_stopper rfl (by simp [hentered, Stopper.rank])
  | closeAll =>
      simp only [step] at hstep
      split at hstep
      swap
      · cases hstep
      rename_i hrunning
      obtain ⟨channels, -, rfl⟩ := Option.map_eq_some_iff.mp hstep
      exact work_stopper rfl (by simp [hrunning, Stopper.rank])
  | wait =>
      simp only [step] at hstep
      split at hstep <;> cases hstep
      rename_i hclosed
      exact work_stopper rfl (by simp [hclosed.1, Stopper.rank])
  | poolStop =>
      simp only [step] at hstep
      split at hstep <;> cases hstep
      rename_i hwaited
      exact work_stopper rfl (by simp [hwaited, Stopper.rank])
  | unlock =>
      simp only [step] at hstep
      split at hstep
      swap
      · cases hstep
      rename_i hpool
      obtain ⟨m, -, rfl⟩ := Option.map_eq_some_iff.mp hstep
      exact work_stopper rfl (by simp only [hpool, Stopper.rank]; omega)
  | check =>
      simp only [step] at hstep
      split at hstep <;> cases hstep
      rename_i hguard
      exact work_stopper rfl (by simp only; omega)

/-! ### The calls that wait -/

/-- A server with the calls that wait for `stop_mutex_`. -/
structure Pooled where
  server : State := {}
  /-- The calls of `HandleAccept` at `lock_shared`, each on a thread of the pool. -/
  arriving : ℕ := 0
  /-- The calls of `Stop` at `lock`, on threads of their own. -/
  asking : ℕ := 0
  /-- The connections with a handler that never returns, as one that disconnects its own
  connection. -/
  held : Finset ℕ := ∅
  deriving DecidableEq

namespace Pooled

inductive Event
  /-- `HandleAccept` is called. -/
  | accept
  /-- `Stop` is called. -/
  | ask
  | hold (connection : ℕ)
  | call (e : Shutdown.Event)
  deriving DecidableEq

/-- What a step of a call waits for, but for `stop_mutex_`. -/
def Ready (s : Pooled) : Shutdown.Event → Prop
  | .handleAccept => s.arriving ≠ 0
  | .stop => s.asking ≠ 0
  -- a connection is closed when its handlers have returned
  | .connectionClosed connection => connection ∉ s.held
  -- the section is one step, so what `Stop` waits for in it stands before it
  | .closeAll => ∀ connection ∈ s.server.channels.channelTable, connection ∉ s.held
  -- the join
  | .poolStop => s.arriving = 0
  | _ => True

instance (s : Pooled) : ∀ e, Decidable (s.Ready e)
  | .handleAccept => inferInstanceAs (Decidable (s.arriving ≠ 0))
  | .stop => inferInstanceAs (Decidable (s.asking ≠ 0))
  | .connectionClosed connection => inferInstanceAs (Decidable (connection ∉ s.held))
  | .closeAll => inferInstanceAs (Decidable
      (∀ connection ∈ s.server.channels.channelTable, connection ∉ s.held))
  | .poolStop => inferInstanceAs (Decidable (s.arriving = 0))
  | .listen | .testRunning | .span _ | .insert _ | .leave | .testStopped | .wait | .unlock
  | .check => isTrue trivial

def step (s : Pooled) : Event → Option Pooled
  | .accept => if s.server.isRunning then some { s with arriving := s.arriving + 1 } else none
  | .ask => some { s with asking := s.asking + 1 }
  | .hold connection =>
      if connection ∈ s.server.channels.channelTable ∨ .spanned connection ∈ s.server.accepts then
        some { s with held := insert connection s.held }
      else none
  | .call e =>
      if s.Ready e then
        (Shutdown.step s.server e).map fun server =>
          { s with
            server := server
            arriving := s.arriving - if e = .handleAccept then 1 else 0
            asking := s.asking - if e = .stop then 1 else 0 }
      else none

/-- The step of a call that has been made. -/
def Event.isInner : Event → Bool
  | .accept | .ask | .hold _ | .call .listen | .call (.connectionClosed _) => false
  | .call _ => true

/-- The steps that a call has. -/
def Event.brings : Event → ℕ
  | .accept => 5
  | .ask => 7
  | .hold _ | .call _ => 0

/-- No call that has been made can go on, but for those of `HandleAccept` that a waiting
`lock` may keep out. -/
def Rests (s : Pooled) : Prop :=
  ∀ a : Event, a.isInner = true → (a = .call .handleAccept → s.asking = 0) → step s a = none

/-- `Stop` has the lock, and a call of `HandleAccept` waits for it, or a connection of the
table has a handler that never returns. -/
structure Blocked (s : Pooled) : Prop where
  locked : s.server.stopper ≠ .none ∧ s.server.stopper ≠ .poolStopped
  running : s.server.stopper = .entered → s.server.isRunning = true
  waits : s.arriving ≠ 0 ∨ ∃ c ∈ s.held, c ∈ s.server.channels.channelTable

variable {s s' : Pooled} {a : Event} {e : Shutdown.Event}

theorem call_eq_some : step s (.call e) = some s' ↔
    s.Ready e ∧ ∃ server, Shutdown.step s.server e = some server ∧
      { s with
        server := server
        arriving := s.arriving - if e = .handleAccept then 1 else 0
        asking := s.asking - if e = .stop then 1 else 0 } = s' := by
  rw [step, Option.ite_none_right_eq_some, Option.map_eq_some_iff]

theorem call_eq_none : step s (.call e) = none ↔
    (s.Ready e → Shutdown.step s.server e = none) := by
  rw [step]
  by_cases h : s.Ready e <;> simp [h]

/-- What the server does on the way. -/
def Event.server : Event → Option Shutdown.Event
  | .call e => some e
  | .accept | .ask | .hold _ => none

theorem server_step (hstep : step s a = some s') :
    match a.server with
    | some e => Shutdown.step s.server e = some s'.server
    | none => s'.server = s.server := by
  cases a with
  | call e =>
      obtain ⟨-, server, hserver, rfl⟩ := call_eq_some.mp hstep
      exact hserver
  | ask =>
      obtain rfl := Option.some.inj hstep
      rfl
  | accept | hold c =>
      simp only [step] at hstep
      split at hstep <;> cases hstep
      rfl

/-- The server runs as it does on its own. -/
theorem run_server {as : List Event} (hrun : Machine.run step {} as = some s) :
    Machine.run Shutdown.step {} (as.filterMap Event.server) = some s.server := by
  refine Machine.run_component server Event.server (fun t a t' hstep => ?_) hrun
  have hserver := server_step hstep
  cases ha : a.server with
  | none =>
      rw [ha] at hserver
      exact hserver
  | some e =>
      rw [ha] at hserver
      exact hserver

theorem reaches_step (hlocked : Locked s.server) (haccounted : Accounted s.server)
    (hstep : step s a = some s') : Locked s'.server ∧ Accounted s'.server := by
  have hserver := server_step hstep
  cases ha : a.server with
  | none =>
      rw [ha] at hserver
      rw [hserver]
      exact ⟨hlocked, haccounted⟩
  | some e =>
      rw [ha] at hserver
      exact ⟨hlocked.step hserver, haccounted.step hlocked hserver⟩

theorem lost_server (as : List Event) :
    lost (as.filterMap Event.server) = as.count (.call (.span true)) := by
  induction as with
  | nil => rfl
  | cons a as ih =>
      cases a with
      | accept | ask | hold c =>
          rw [List.filterMap_cons_none rfl, ih, List.count_cons_of_ne (by simp)]
      | call e =>
          rw [List.filterMap_cons_some (f := Event.server) (b := e) rfl, lost, List.count_cons,
            ← lost, ih, List.count_cons]
          simp

/-! ### The work of the calls -/

def work (s : Pooled) : ℕ := s.server.work + 5 * s.arriving + 7 * s.asking

theorem work_step (hstep : step s a = some s') :
    s'.work + (if a.isInner then 1 else 0) ≤ s.work + a.brings := by
  cases a with
  | accept =>
      simp only [step] at hstep
      split at hstep <;> cases hstep
      simp only [work, Event.isInner, Event.brings, Bool.false_eq_true, if_false]
      omega
  | ask =>
      obtain rfl := Option.some.inj hstep
      simp only [work, Event.isInner, Event.brings, Bool.false_eq_true, if_false]
      omega
  | hold c =>
      simp only [step] at hstep
      split at hstep <;> cases hstep
      exact Nat.le_refl _
  | call e =>
      obtain ⟨hready, server, hserver, rfl⟩ := call_eq_some.mp hstep
      have hwork := Shutdown.work_step hserver
      cases e with
      | handleAccept =>
          have harriving : s.arriving ≠ 0 := hready
          simp only [Shutdown.Event.isInner, Shutdown.Event.brings, Bool.false_eq_true,
            if_false] at hwork
          simp only [work, Event.isInner, Event.brings, reduceCtorEq, if_true, if_false]
          omega
      | stop =>
          have hasking : s.asking ≠ 0 := hready
          simp only [Shutdown.Event.isInner, Shutdown.Event.brings, Bool.false_eq_true,
            if_false] at hwork
          simp only [work, Event.isInner, Event.brings, reduceCtorEq, if_true, if_false]
          omega
      | listen | testRunning | span null | insert c | leave | connectionClosed c | testStopped
      | closeAll | wait | poolStop | unlock | check =>
          simp only [Shutdown.Event.isInner, Shutdown.Event.brings, Bool.false_eq_true, if_true,
            if_false] at hwork
          simp only [work, Event.isInner, Event.brings, Bool.false_eq_true, reduceCtorEq, if_true,
            if_false]
          omega

/-! ### At rest -/

/-- The calls inside, when they are at rest. -/
theorem Rests.inner (h : s.Rests) (he : e.isInner = true) (hready : s.Ready e) :
    Shutdown.step s.server e = none := by
  refine call_eq_none.mp (h (.call e) ?_ ?_) hready
  · cases e <;> first | rfl | cases he
  · rintro ⟨⟩
    cases he

theorem Rests.accepts (h : s.Rests) (hlocked : Locked s.server)
    (haccounted : Accounted s.server) : s.server.accepts = 0 := by
  by_contra hne
  obtain ⟨a, ha⟩ := Multiset.exists_mem_of_ne_zero hne
  have hshared : s.server.stopMutex.shared ≠ 0 := by
    have hpos : 0 < s.server.accepts.card := Multiset.card_pos_iff_exists_mem.mpr ⟨a, ha⟩
    have := hlocked.shared
    omega
  have hunlock : s.server.stopMutex.unlockShared ≠ none := fun h =>
    hshared (unlockShared_eq_none.mp h)
  cases a with
  | entered =>
      have hnone := h.inner (e := .testRunning) rfl trivial
      simp only [Shutdown.step, if_pos ha] at hnone
      split at hnone
      · cases hnone
      · exact hunlock (Option.map_eq_none_iff.mp hnone)
  | running =>
      have hnone := h.inner (e := .span false) rfl trivial
      simp [Shutdown.step, ha] at hnone
  | spanned c =>
      have hsome := (haccounted.noCheckFails hlocked).insert c ha
      rw [h.inner (e := .insert c) rfl trivial] at hsome
      cases hsome
  | inserted =>
      have hnone := h.inner (e := .leave) rfl trivial
      simp only [Shutdown.step, if_pos ha] at hnone
      exact hunlock (Option.map_eq_none_iff.mp hnone)

/-- `Stop` waits in its section for a handler, or at the join for a call of
`HandleAccept`. -/
theorem Rests.stopper (h : s.Rests) (hlocked : Locked s.server)
    (haccounted : Accounted s.server) (hne : s.server.stopper ≠ .none) :
    s.server.stopper = .running ∧ (∃ c ∈ s.held, c ∈ s.server.channels.channelTable) ∨
      s.server.stopper = .waited ∧ s.arriving ≠ 0 := by
  have hexclusive := hlocked.exclusive.mpr hne
  have hunlock : s.server.stopMutex.unlock ≠ none := fun h => by
    rw [unlock_eq_none.mp h] at hexclusive
    cases hexclusive
  have hno := haccounted.noCheckFails hlocked
  cases hstopper : s.server.stopper with
  | none => exact absurd hstopper hne
  | entered =>
      have hnone := h.inner (e := .testStopped) rfl trivial
      simp only [Shutdown.step, if_pos hstopper] at hnone
      split at hnone
      · cases hnone
      · exact absurd (Option.map_eq_none_iff.mp hnone) hunlock
  | running =>
      refine Or.inl ⟨rfl, ?_⟩
      by_contra hnone
      simp only [not_exists, not_and] at hnone
      have hsome := hno.closeAll hstopper
      rw [h.inner (e := .closeAll) rfl fun c hc hheld => hnone c hheld hc] at hsome
      cases hsome
  | closed =>
      have hsome := hno.wait hstopper
      rw [h.inner (e := .wait) rfl trivial] at hsome
      cases hsome
  | waited =>
      refine Or.inr ⟨rfl, fun harriving => ?_⟩
      have hnone := h.inner (e := .poolStop) rfl harriving
      simp [Shutdown.step, hstopper] at hnone
  | poolStopped =>
      have hnone := h.inner (e := .unlock) rfl trivial
      simp only [Shutdown.step, if_pos hstopper] at hnone
      exact absurd (Option.map_eq_none_iff.mp hnone) hunlock

theorem Rests.checking (h : s.Rests) (hlocked : Locked s.server)
    (haccounted : Accounted s.server) : s.server.checking = 0 := by
  by_contra hne
  have hsome := (haccounted.noCheckFails hlocked).check hne
  rw [h.inner (e := .check) rfl trivial] at hsome
  cases hsome

/-- A call waits for the lock only where it is lost. -/
theorem Rests.waiting (h : s.Rests) (hfree : s.server.stopMutex.exclusive = false)
    (hupgrade : s.server.stopMutex.upgrade = false) :
    (s.asking ≠ 0 → s.server.stopMutex.shared ≠ 0) ∧ (s.arriving ≠ 0 → s.asking ≠ 0) := by
  refine ⟨fun hasking hshared => ?_, fun harriving hasking => ?_⟩
  · have hnone := call_eq_none.mp (h (.call .stop) rfl (by simp)) hasking
    simp [Shutdown.step, UpgradeMutex.lock, hfree, hupgrade, hshared] at hnone
  · have hnone := call_eq_none.mp (h (.call .handleAccept) rfl fun _ => hasking) harriving
    simp [Shutdown.step, UpgradeMutex.lockShared, hfree] at hnone

/-! ### Blocked -/

theorem Blocked.step (h : s.Blocked) (hlocked : Locked s.server)
    (haccounted : Accounted s.server) (hstep : Pooled.step s a = some s') : s'.Blocked := by
  obtain ⟨⟨hne, hbefore⟩, hrunning, hwaits⟩ := h
  have hexclusive := hlocked.exclusive.mpr hne
  have hempty : ∀ a, a ∉ s.server.accepts := fun a ha => by
    rw [hlocked.not_exclusive ha] at hexclusive
    cases hexclusive
  cases a with
  | accept =>
      simp only [Pooled.step] at hstep
      split at hstep <;> cases hstep
      exact ⟨⟨hne, hbefore⟩, hrunning, Or.inl (Nat.succ_ne_zero _)⟩
  | ask =>
      obtain rfl := Option.some.inj hstep
      exact ⟨⟨hne, hbefore⟩, hrunning, hwaits⟩
  | hold c =>
      simp only [Pooled.step] at hstep
      split at hstep <;> cases hstep
      refine ⟨⟨hne, hbefore⟩, hrunning, hwaits.imp_right ?_⟩
      rintro ⟨d, hd, hmem⟩
      exact ⟨d, Finset.mem_insert_of_mem hd, hmem⟩
  | call e =>
      obtain ⟨hready, server, hserver, rfl⟩ := call_eq_some.mp hstep
      cases e with
      | handleAccept =>
          obtain ⟨m, hm, -⟩ := Option.map_eq_some_iff.mp hserver
          simp [UpgradeMutex.lockShared, hexclusive] at hm
      | stop =>
          obtain ⟨m, hm, -⟩ := Option.map_eq_some_iff.mp hserver
          simp [UpgradeMutex.lock, hexclusive] at hm
      | testRunning | span null | insert c | leave => simp [Shutdown.step, hempty] at hserver
      | listen =>
          simp only [Shutdown.step] at hserver
          split at hserver <;> cases hserver
          exact ⟨⟨hne, hbefore⟩, fun _ => rfl, hwaits⟩
      | connectionClosed c =>
          obtain ⟨channels, hchannels, rfl⟩ := Option.map_eq_some_iff.mp hserver
          refine ⟨⟨hne, hbefore⟩, hrunning, hwaits.imp_right ?_⟩
          rintro ⟨d, hd, hmem⟩
          have hdc : d ≠ c := fun h => hready (h ▸ hd)
          have hopen : s.server.stopped = false := by
            by_contra hclosed
            rw [haccounted.closed (by simpa using hclosed)] at hmem
            cases hmem
          have htable := ((haccounted.counted hopen).connectionClosed hchannels).2
          refine ⟨d, hd, ?_⟩
          rw [htable]
          exact (List.mem_erase_of_ne hdc).mpr hmem
      | testStopped =>
          simp only [Shutdown.step] at hserver
          split at hserver
          swap
          · cases hserver
          rename_i hentered
          rw [if_pos (hrunning hentered)] at hserver
          obtain rfl := Option.some.inj hserver
          exact ⟨by simp, by simp, hwaits⟩
      | closeAll =>
          simp only [Shutdown.step] at hserver
          split at hserver
          swap
          · cases hserver
          obtain ⟨channels, -, rfl⟩ := Option.map_eq_some_iff.mp hserver
          refine ⟨by simp, by simp, Or.inl (hwaits.resolve_right ?_)⟩
          rintro ⟨d, hd, hmem⟩
          exact hready d hmem hd
      | wait =>
          simp only [Shutdown.step] at hserver
          split at hserver <;> cases hserver
          exact ⟨by simp, by simp, hwaits⟩
      | poolStop =>
          simp only [Shutdown.step] at hserver
          split at hserver
          swap
          · cases hserver
          rename_i hwaited
          -- the table is empty behind the section of `Stop`
          have hagrees := hlocked.agrees
          rw [hwaited] at hagrees
          obtain ⟨d, -, hmem⟩ := hwaits.resolve_left (not_not.mpr hready)
          rw [haccounted.closed hagrees] at hmem
          cases hmem
      | unlock => simp [Shutdown.step, hbefore] at hserver
      | check =>
          simp only [Shutdown.step] at hserver
          split at hserver <;> cases hserver
          exact ⟨⟨hne, hbefore⟩, hrunning, hwaits⟩

/-- **When `Stop` returns.** A call of `HandleAccept` has five steps at most and one of
`Stop` seven. Where nothing can happen any more, all calls have returned, and every
`Stop` with them unless a call whose `Span` gave no connection has the lock for ever; or
`Stop` has the lock and waits, in its section for a handler that never returns, or at the
join for a call of `HandleAccept` that waits for the lock on a thread of the pool. Once
`Stop` has the lock and there is such a handler or such a call, no continuation lets it
go. -/
theorem run_stop_returns {as : List Event} (hrun : Machine.run Pooled.step {} as = some s) :
    as.countP Event.isInner ≤ (as.map Event.brings).sum ∧
    (s.Rests → s.server.accepts = 0 ∧ s.server.checking = 0 ∧
      ((s.server.stopper = .none ∧
          s.server.stopMutex = { shared := as.count (.call (.span true)) } ∧
          (s.asking ≠ 0 → .call (.span true) ∈ as) ∧ (s.arriving ≠ 0 → s.asking ≠ 0) ∧
          (s.server.stopped = true → s.server.isRunning = false ∧
            s.server.channels = { channelTable := [], notifier := ⟨0, true⟩ })) ∨
        (s.server.stopper = .running ∧ ∃ c ∈ s.held, c ∈ s.server.channels.channelTable) ∨
        (s.server.stopper = .waited ∧ s.arriving ≠ 0))) ∧
    (.call (.span true) ∈ as →
      s.server.stopped = false ∧ Pooled.step s (.call .stop) = none) ∧
    (s.Blocked → ∀ bs t, Machine.run Pooled.step s bs = some t → t.Blocked) := by
  have hserver := run_server hrun
  obtain ⟨hlocked, haccounted⟩ := reaches hserver
  obtain ⟨hshared, hupgrade⟩ := shared_eq hserver
  rw [lost_server] at hshared
  refine ⟨?_, fun h => ?_, fun hspan => ⟨?_, ?_⟩, fun h bs t ht => ?_⟩
  · have hcount := Machine.run_account_le (I := fun _ => True) (P := fun _ => True) work
      (fun a => if a.isInner then 1 else 0) Event.brings (by simp)
      (fun _ _ _ _ hstep => work_step hstep) (fun _ _ => trivial) trivial hrun
    have hinit : ({} : Pooled).work = 0 := rfl
    rw [Machine.sum_map_ite, hinit] at hcount
    omega
  · have haccepts := h.accepts hlocked haccounted
    refine ⟨haccepts, h.checking hlocked haccounted, ?_⟩
    by_cases hstopper : s.server.stopper = .none
    · have hexclusive : s.server.stopMutex.exclusive = false := by
        by_contra hexclusive
        exact hlocked.exclusive.mp (by simpa using hexclusive) hstopper
      rw [haccepts, Multiset.card_zero, Nat.zero_add] at hshared
      obtain ⟨hasking, harriving⟩ := h.waiting hexclusive hupgrade
      refine Or.inl ⟨hstopper, ?_, fun hne => ?_, harriving, fun hstopped => ⟨?_, ?_⟩⟩
      · calc
          s.server.stopMutex = ⟨s.server.stopMutex.shared, s.server.stopMutex.upgrade,
              s.server.stopMutex.exclusive⟩ := rfl
          _ = { shared := as.count (.call (.span true)) } := by rw [hshared, hupgrade, hexclusive]
      · have hpos := hasking hne
        rw [hshared] at hpos
        exact List.count_pos_iff.mp (Nat.pos_of_ne_zero hpos)
      · have hagrees := hlocked.agrees
        rw [hstopper] at hagrees
        exact hagrees hstopped
      · exact haccounted.closed hstopped
    · exact Or.inr (h.stopper hlocked haccounted hstopper)
  · refine stopped_eq_false_of_lost hserver ?_
    rw [lost_server]
    exact (List.count_pos_iff.mpr hspan).ne'
  · have hpos := List.count_pos_iff.mpr hspan
    have hne : s.server.stopMutex.shared ≠ 0 := by omega
    refine call_eq_none.mpr fun _ => ?_
    simp [Shutdown.step, UpgradeMutex.lock, hne]
  · have hinvariant := Machine.run_invariant
      (I := fun t : Pooled => (Locked t.server ∧ Accounted t.server) ∧ t.Blocked) ?_
      ⟨⟨hlocked, haccounted⟩, h⟩ ht
    · exact hinvariant.2
    · rintro u a u' ⟨⟨hu, hu'⟩, hblocked⟩ hstep
      exact ⟨reaches_step hu hu' hstep, hblocked.step hu hu' hstep⟩

/-- A connection is accepted. While `Stop` has the lock, a second one arrives, and `Stop`
never returns. -/
theorem run_stop_returns_accept :
    ∃ s, Machine.run Pooled.step {} [.call .listen, .accept, .call .handleAccept,
        .call .testRunning, .call (.span false), .call (.insert 0), .call .leave, .ask,
        .call .stop, .accept, .call .testStopped, .call .closeAll, .call .wait] = some s ∧
      s.server.stopper = .waited ∧
      ∀ bs t, Machine.run Pooled.step s bs = some t → t.Blocked := by
  obtain ⟨s, hrun, hstopper, hblocked⟩ : ∃ s, Machine.run Pooled.step {} [.call .listen, .accept,
      .call .handleAccept, .call .testRunning, .call (.span false), .call (.insert 0),
      .call .leave, .ask, .call .stop, .accept, .call .testStopped, .call .closeAll,
      .call .wait] = some s ∧ s.server.stopper = .waited ∧ s.Blocked :=
    ⟨_, rfl, rfl, ⟨by decide, by decide, Or.inl (by decide)⟩⟩
  exact ⟨s, hrun, hstopper, (run_stop_returns hrun).2.2.2 hblocked⟩

end Pooled

end Tt3d.Server.Shutdown
