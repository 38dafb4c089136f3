import Mathlib.Algebra.BigOperators.Group.List.Basic
import Mathlib.Data.Finset.Max
import Tt3d.Network.Teardown

/-!
Calls made from within a body.

The callbacks of the user run in the body of a handler, under the shared lock
that the handler holds. They push data and make calls of their own, and may call
`Disconnect`. The caller waits for them in its body. This module says when a
connection with such calls comes to rest, and with what.
-/

namespace Tt3d.Network.Teardown

open UpgradeMutex

/-- The threads and calls of a connection, with the body in which each call is made. -/
structure CallTree (ι : Type*) where
  role : ι → Role
  /-- The caller in whose body a call is made. -/
  parent : ι → Option ι := fun _ => none
  depth : ι → ℕ := fun _ => 0
  depth_lt : ∀ {i p}, parent i = some p → depth p < depth i := by simp
  /-- Handlers are called by the io_service and `Expired` by the timer master. -/
  nested : ∀ {i p}, parent i = some p → (role i).mayFail = false := by simp

/-- Called, and not returned. -/
def Pc.Active (p : Pc) : Prop := p ≠ .start ∧ p ≠ .finished

instance (p : Pc) : Decidable p.Active := inferInstanceAs (Decidable (_ ∧ _))

section Machine

variable {ι : Type*} [DecidableEq ι] [Fintype ι]

namespace CallTree

/-- The body of `i` is in a call. -/
def Waits (calls : CallTree ι) (s : State ι) (i : ι) : Prop :=
  ∃ j, calls.parent j = some i ∧ (s.pc j).Active

instance (calls : CallTree ι) (s : State ι) (i : ι) : Decidable (calls.Waits s i) :=
  inferInstanceAs (Decidable (∃ _, _ ∧ _))

/-- A call is made in the body of its caller, which makes one at a time and waits for
it. -/
def Ready (calls : CallTree ι) (s : State ι) (i : ι) : Prop :=
  (s.pc i = .start → ∀ p, calls.parent i = some p → s.pc p = .body ∧ ¬ calls.Waits s p) ∧
    (s.pc i = .body → ¬ calls.Waits s i)

instance (calls : CallTree ι) (s : State ι) (i : ι) : Decidable (calls.Ready s i) :=
  inferInstanceAs (Decidable ((_ → ∀ _, _ → _ ∧ ¬ _) ∧ (_ → ¬ _)))

def step (calls : CallTree ι) (s : State ι) : Event ι → Option (State ι)
  | .register => Teardown.step calls.role s .register
  | .run i => if calls.Ready s i then Teardown.step calls.role s (.run i) else none
  | .fail i => if calls.Ready s i then Teardown.step calls.role s (.fail i) else none
  | .notify i expired => Teardown.step calls.role s (.notify i expired)

end CallTree

end Machine

/-! ### What a step does -/

/-- Where the next step of a thread leads. -/
def State.next {ι : Type*} (s : State ι) (role : Role) : Pc → Pc
  | .start =>
      match role with
      | .disconnect => if s.closing then .finished else .entering
      | _ => .locked
  | .entering => .locked
  | .locked =>
      match role with
      | .handler => if s.closing then .leaving else .body
      | .expired | .operation => if s.closing ∨ !s.impl then .leaving else .body
      | .disconnect => if s.impl then .disconnect else .leaving
  | .body => .leaving
  | .leaving => .finished
  | .disconnect => if s.closing then .leaving else .unsharing
  | .unsharing => .unshared
  | .unshared => .upgrade
  | .upgrade => .exclusive
  | .exclusive => if s.closing then .rejected else .set
  | .rejected => .finished
  | .set => .unlocked
  | .unlocked => if role.async then .implClosed else .finished
  | .implClosed | .finished => .finished

section Effects

variable {ι : Type*} [DecidableEq ι] {s s' : State ι} {role : Role} {i : ι}

/-- The effect of an event of thread `i`, which it leads to `p`. -/
structure Moved (s s' : State ι) (i : ι) (p : Pc) : Prop where
  pc : s'.pc = Function.update s.pc i p
  closing : s'.closing = (s.closing || decide (s.pc i = .exclusive))
  impl : s'.impl = (s.impl && decide (s.pc i ≠ .implClosed))
  socketClosers : s'.socketClosers = s.socketClosers ++ if s.pc i = .unlocked then [i] else []
  implClosers : s'.implClosers = s.implClosers ++ if s.pc i = .implClosed then [i] else []

theorem Moved.pc_self {p : Pc} (h : Moved s s' i p) : s'.pc i = p := by
  rw [h.pc, Function.update_self]

theorem Moved.pc_of_ne {p : Pc} (h : Moved s s' i p) {j : ι} (hj : j ≠ i) :
    s'.pc j = s.pc j := by
  rw [h.pc, Function.update_of_ne hj]

/-- The effect of an event that only moves the thread and the lock. -/
theorem Moved.quiet {p : Pc}
    (hi : s.pc i ≠ .exclusive ∧ s.pc i ≠ .unlocked ∧ s.pc i ≠ .implClosed)
    (hpc : s'.pc = Function.update s.pc i p) (hclosing : s'.closing = s.closing)
    (himpl : s'.impl = s.impl) (hsocket : s'.socketClosers = s.socketClosers)
    (hclosers : s'.implClosers = s.implClosers) : Moved s s' i p :=
  ⟨hpc, by simp [hclosing, hi.1], by simp [himpl, hi.2.2], by simp [hsocket, hi.2.1],
    by simp [hclosers, hi.2.2]⟩

theorem moved_run (hstep : s.run role i = some s') :
    Moved s s' i (s.next role (s.pc i)) := by
  unfold State.run State.lockShared State.unlockShared at hstep
  cases hpc : s.pc i with
  | start =>
      rw [hpc] at hstep
      cases role with
      | disconnect =>
          obtain rfl := Option.some.inj hstep
          exact .quiet (by simp [hpc]) rfl rfl rfl rfl rfl
      | _ =>
          obtain ⟨m, -, rfl⟩ := Option.map_eq_some_iff.mp hstep
          exact .quiet (by simp [hpc]) rfl rfl rfl rfl rfl
  | locked =>
      rw [hpc] at hstep
      cases role with
      | _ =>
          obtain rfl := Option.some.inj hstep
          exact .quiet (by simp [hpc]) rfl rfl rfl rfl rfl
  | body | disconnect =>
      rw [hpc] at hstep
      obtain rfl := Option.some.inj hstep
      exact .quiet (by simp [hpc]) rfl rfl rfl rfl rfl
  | unlocked =>
      rw [hpc] at hstep
      obtain rfl := Option.some.inj hstep
      exact ⟨rfl, by simp [hpc, State.goto], by simp [hpc, State.goto], by simp [hpc],
        by simp [hpc, State.goto]⟩
  | exclusive =>
      simp only [hpc] at hstep
      split at hstep
      · rename_i hclosing
        obtain rfl := Option.some.inj hstep
        exact ⟨by simp [State.goto, State.next, hclosing], by simp [State.goto, hclosing],
          by simp [hpc, State.goto], by simp [hpc, State.goto], by simp [hpc, State.goto]⟩
      · rename_i hclosing
        obtain rfl := Option.some.inj hstep
        exact ⟨by simp [State.goto, State.next, hclosing], by simp [hpc],
          by simp [hpc, State.goto], by simp [hpc, State.goto], by simp [hpc, State.goto]⟩
  | implClosed | finished => simp [hpc] at hstep
  | _ =>
      rw [hpc] at hstep
      obtain ⟨m, -, rfl⟩ := Option.map_eq_some_iff.mp hstep
      exact .quiet (by simp [hpc]) rfl rfl rfl rfl rfl

theorem ne_finished_of_run (hstep : s.run role i = some s') :
    s.pc i ≠ .implClosed ∧ s.pc i ≠ .finished := by
  unfold State.run at hstep
  constructor
  · intro hpc
    simp [hpc] at hstep
  · intro hpc
    simp [hpc] at hstep

/-- Nobody gets the exclusive lock while a body runs. -/
theorem shared_eq_zero_of_run (hstep : s.run role i = some s') (hpc : s.pc i = .upgrade) :
    s.mutex.shared = 0 := by
  unfold State.run at hstep
  simp only [hpc, Option.map_eq_some_iff] at hstep
  obtain ⟨m, hm, -⟩ := hstep
  unfold UpgradeMutex.unlockUpgradeAndLock at hm
  split at hm
  · rename_i hfree
    exact hfree.2
  · cases hm

end Effects

section Steps

variable {ι : Type*} [DecidableEq ι] [Fintype ι] {calls : CallTree ι} {s s' : State ι}
  {e : Event ι} {i p : ι}

/-- The thread that takes a step. -/
def Event.thread {ι : Type*} : Event ι → Option ι
  | .register => none
  | .run i | .fail i | .notify i _ => some i

/-- An event of thread `i` that leads it to `q`. -/
inductive Acts (calls : CallTree ι) (s s' : State ι) (i : ι) (q : Pc) : Event ι → Prop
  | run (hstep : s.run (calls.role i) i = some s') (hq : q = s.next (calls.role i) (s.pc i)) :
      Acts calls s s' i q (.run i)
  | fail (hbody : s.pc i = .body) (hrole : (calls.role i).mayFail = true)
      (hq : q = .disconnect) : Acts calls s s' i q (.fail i)
  | notify (expired : List ℕ) (hpc : s.pc i = .implClosed) (hq : q = .finished) :
      Acts calls s s' i q (.notify i expired)

/-- The steps of a connection: a listener registers, or a thread acts. -/
theorem CallTree.step_cases (hstep : calls.step s e = some s') :
    (e = .register ∧ s'.pc = s.pc ∧ s'.closing = s.closing ∧ s'.impl = s.impl ∧
      s'.socketClosers = s.socketClosers ∧ s'.implClosers = s.implClosers) ∨
    ∃ i q, calls.Ready s i ∧ Moved s s' i q ∧ Acts calls s s' i q e := by
  cases e with
  | register =>
      obtain rfl := Option.some.inj hstep
      exact Or.inl ⟨rfl, rfl, rfl, rfl, rfl, rfl⟩
  | run i =>
      simp only [CallTree.step] at hstep
      split at hstep
      · rename_i hready
        exact Or.inr ⟨i, _, hready, moved_run hstep, .run hstep rfl⟩
      · cases hstep
  | fail i =>
      simp only [CallTree.step] at hstep
      split at hstep
      swap
      · cases hstep
      rename_i hready
      simp only [Teardown.step] at hstep
      split at hstep
      swap
      · cases hstep
      rename_i hbody
      obtain rfl := Option.some.inj hstep
      refine Or.inr ⟨i, .disconnect, hready, ?_, .fail hbody.1 hbody.2 rfl⟩
      exact .quiet (by simp [hbody.1]) rfl rfl rfl rfl rfl
  | notify i expired =>
      simp only [CallTree.step, Teardown.step] at hstep
      split at hstep
      swap
      · cases hstep
      rename_i hpc
      obtain rfl := Option.some.inj hstep
      refine Or.inr ⟨i, .finished, ⟨by simp [hpc], by simp [hpc]⟩, ?_, .notify expired hpc rfl⟩
      exact ⟨rfl, by simp [hpc, State.goto], by simp [hpc], by simp [hpc, State.goto],
        by simp [hpc]⟩

/-- A step with nested calls is a step of the connection. -/
theorem CallTree.teardown_step (hstep : calls.step s e = some s') :
    Teardown.step calls.role s e = some s' := by
  cases e with
  | run i | fail i =>
      simp only [CallTree.step] at hstep
      split at hstep
      · exact hstep
      · cases hstep
  | _ => exact hstep

theorem Good.nested (h : Good s) (hstep : calls.step s e = some s') : Good s' :=
  h.step (CallTree.teardown_step hstep)

/-! ### The amount of steps -/

/-- How many steps a thread has left at most. -/
def Pc.rank : Pc → ℕ
  | .start => 12
  | .entering => 11
  | .locked => 10
  | .body => 9
  | .disconnect => 8
  | .unsharing => 7
  | .unshared => 6
  | .upgrade => 5
  | .exclusive => 4
  | .set => 3
  | .unlocked => 2
  | .rejected | .leaving | .implClosed => 1
  | .finished => 0

omit [DecidableEq ι] [Fintype ι] in
theorem State.rank_next (s : State ι) (role : Role) {q : Pc} (hq : q ≠ .finished) :
    (s.next role q).rank < q.rank := by
  cases q with
  | finished => exact absurd rfl hq
  | start =>
      cases role with
      | disconnect =>
          simp only [State.next]
          split <;> simp [Pc.rank]
      | _ => simp [State.next, Pc.rank]
  | locked =>
      cases role with
      | _ =>
          simp only [State.next]
          split <;> simp [Pc.rank]
  | disconnect | exclusive | unlocked =>
      simp only [State.next]
      split <;> simp [Pc.rank]
  | _ => simp [State.next, Pc.rank]

omit [Fintype ι] in
/-- Each event of a thread lowers its rank. -/
theorem Acts.rank_lt {q : Pc} (h : Acts calls s s' i q e) : q.rank < (s.pc i).rank := by
  cases h with
  | run hstep hq =>
      rw [hq]
      exact s.rank_next _ (ne_finished_of_run hstep).2
  | fail hbody _ hq =>
      rw [hq, hbody]
      decide
  | notify _ hpc hq =>
      rw [hq, hpc]
      decide

omit [Fintype ι] in
theorem Acts.thread_eq {q : Pc} (h : Acts calls s s' i q e) : e.thread = some i := by
  cases h <;> rfl

theorem CallTree.rank_step (j : ι) (hstep : calls.step s e = some s') :
    (s'.pc j).rank + (if decide (e.thread = some j) then 1 else 0) ≤ (s.pc j).rank + 0 := by
  obtain ⟨rfl, hpc, -⟩ | ⟨i, q, -, hmoved, hacts⟩ := CallTree.step_cases hstep
  · simp [hpc, Event.thread]
  · rw [hacts.thread_eq]
    by_cases hj : j = i
    · subst hj
      have hlt := hacts.rank_lt
      rw [hmoved.pc_self]
      simp only [decide_true, if_true]
      omega
    · have hne : ¬ some i = some j := fun h => hj (Option.some.inj h).symm
      rw [hmoved.pc_of_ne hj]
      simp [hne]

/-! ### Who is where -/

/-- Where an operation can be. -/
def Pc.Plain (p : Pc) : Prop :=
  p = .start ∨ p = .locked ∨ p = .body ∨ p = .leaving ∨ p = .finished

/-- On the way to the exclusive lock. -/
def Pc.Closes (p : Pc) : Prop :=
  p = .disconnect ∨ p = .unsharing ∨ p = .unshared ∨ p = .upgrade ∨ p = .exclusive

structure Nested (calls : CallTree ι) (s : State ι) : Prop where
  caller : ∀ i p, calls.parent i = some p → (s.pc i).Active → s.pc p = .body
  operation : ∀ i, calls.role i = .operation → (s.pc i).Plain
  impl : s.impl = false → s.closing = true
  async : ∀ i ∈ s.socketClosers, (calls.role i).async = true →
    s.pc i = .implClosed ∨ i ∈ s.implClosers
  implClosers : ∀ i, s.pc i = .implClosed ∨ i ∈ s.implClosers → (calls.role i).async = true

omit [DecidableEq ι] [Fintype ι] in
theorem nested_init (calls : CallTree ι) : Nested calls {} := by
  refine ⟨?_, fun i _ => Or.inl rfl, ?_, ?_, ?_⟩
  · rintro i p - ⟨hstart, -⟩
    exact absurd rfl hstart
  · rintro ⟨⟩
  · simp
  · simp

omit [Fintype ι] in
theorem Acts.ne_finished {q : Pc} (h : Acts calls s s' i q e) : s.pc i ≠ .finished := by
  cases h with
  | run hstep _ => exact (ne_finished_of_run hstep).2
  | fail hbody _ _ => simp [hbody]
  | notify _ hpc _ => simp [hpc]

omit [DecidableEq ι] [Fintype ι] in
theorem State.plain_next (s : State ι) {q : Pc} (hq : q.Plain) :
    (s.next .operation q).Plain := by
  rcases hq with rfl | rfl | rfl | rfl | rfl
  · exact Or.inr (Or.inl rfl)
  · simp only [State.next]
    split
    · simp [Pc.Plain]
    · simp [Pc.Plain]
  · simp [State.next, Pc.Plain]
  · simp [State.next, Pc.Plain]
  · simp [State.next, Pc.Plain]

omit [Fintype ι] in
/-- A caller stays in its body while its call is active. -/
theorem Nested.caller_step (h : Nested calls s) {k : ι} {q : Pc} (hready : calls.Ready s k)
    (hmoved : Moved s s' k q) (hacts : Acts calls s s' k q e)
    (hparent : calls.parent i = some p) (hactive : (s'.pc i).Active) : s'.pc p = .body := by
  have hpi : p ≠ i := by
    rintro rfl
    exact lt_irrefl _ (calls.depth_lt hparent)
  by_cases hik : i = k
  · subst hik
    rw [hmoved.pc_of_ne hpi]
    by_cases hstart : s.pc i = .start
    · exact (hready.1 hstart p hparent).1
    · exact h.caller i p hparent ⟨hstart, hacts.ne_finished⟩
  · rw [hmoved.pc_of_ne hik] at hactive
    have hbody := h.caller i p hparent hactive
    have hpk : p ≠ k := by
      rintro rfl
      exact hready.2 hbody ⟨i, hparent, hactive⟩
    rwa [hmoved.pc_of_ne hpk]

omit [Fintype ι] in
theorem Nested.operation_step (h : Nested calls s) {k : ι} {q : Pc} (hmoved : Moved s s' k q)
    (hacts : Acts calls s s' k q e) (hrole : calls.role i = .operation) : (s'.pc i).Plain := by
  have hplain := h.operation i hrole
  by_cases hik : i = k
  · subst hik
    rw [hmoved.pc_self]
    cases hacts with
    | run _ hq =>
        rw [hq, hrole]
        exact s.plain_next hplain
    | fail _ hmay _ => simp [hrole, Role.mayFail] at hmay
    | notify _ hpc _ => simp [hpc, Pc.Plain] at hplain
  · rwa [hmoved.pc_of_ne hik]

omit [DecidableEq ι] [Fintype ι] in
theorem State.next_eq_implClosed (s : State ι) (role : Role) (q : Pc) :
    s.next role q = .implClosed ↔ q = .unlocked ∧ role.async = true := by
  fun_cases State.next s role q <;> simp_all

omit [Fintype ι] in
theorem Acts.eq_implClosed {q : Pc} (h : Acts calls s s' i q e) :
    q = .implClosed ↔ s.pc i = .unlocked ∧ (calls.role i).async = true := by
  cases h with
  | run _ hq => rw [hq, State.next_eq_implClosed]
  | fail hbody _ hq => simp [hq, hbody]
  | notify _ hpc hq => simp [hq, hpc]

omit [Fintype ι] in
/-- `ImplClosed` follows the close of the socket just where it is asynchronous. -/
theorem Nested.async_step (h : Nested calls s) {k : ι} {q : Pc} (hmoved : Moved s s' k q)
    (hacts : Acts calls s s' k q e) :
    (∀ i ∈ s'.socketClosers, (calls.role i).async = true →
      s'.pc i = .implClosed ∨ i ∈ s'.implClosers) ∧
    ∀ i, s'.pc i = .implClosed ∨ i ∈ s'.implClosers → (calls.role i).async = true := by
  have hclosers : ∀ {i}, i ∈ s.implClosers → i ∈ s'.implClosers := by
    intro i hi
    rw [hmoved.implClosers]
    exact List.mem_append_left _ hi
  have hq := hacts.eq_implClosed
  constructor
  · intro i hi hasync
    rw [hmoved.socketClosers, List.mem_append] at hi
    rcases hi with hi | hi
    · rcases h.async i hi hasync with hpc | hclosed
      · by_cases hik : i = k
        · subst hik
          exact Or.inr (by simp [hmoved.implClosers, hpc])
        · exact Or.inl (by rw [hmoved.pc_of_ne hik, hpc])
      · exact Or.inr (hclosers hclosed)
    · split at hi
      · rename_i hpc
        obtain rfl := List.mem_singleton.mp hi
        exact Or.inl (by rw [hmoved.pc_self, hq.mpr ⟨hpc, hasync⟩])
      · exact absurd hi List.not_mem_nil
  · intro i hi
    by_cases hik : i = k
    · subst hik
      rw [hmoved.pc_self, hmoved.implClosers, List.mem_append] at hi
      rcases hi with hi | hi | hi
      · exact (hq.mp hi).2
      · exact h.implClosers i (Or.inr hi)
      · split at hi
        · rename_i hpc
          exact h.implClosers i (Or.inl hpc)
        · exact absurd hi List.not_mem_nil
    · rw [hmoved.pc_of_ne hik, hmoved.implClosers, List.mem_append] at hi
      rcases hi with hi | hi | hi
      · exact h.implClosers i (Or.inl hi)
      · exact h.implClosers i (Or.inr hi)
      · split at hi
        · exact absurd (List.mem_singleton.mp hi) hik
        · exact absurd hi List.not_mem_nil

theorem Nested.step (h : Nested calls s) (hgood : Good s) (hstep : calls.step s e = some s') :
    Nested calls s' := by
  obtain ⟨-, hpc, hclosing, himpl, hsocket, hclosers⟩ | ⟨k, q, hready, hmoved, hacts⟩ :=
    CallTree.step_cases hstep
  · refine ⟨?_, ?_, ?_, ?_, ?_⟩
    · rw [hpc]
      exact h.caller
    · rw [hpc]
      exact h.operation
    · rw [himpl, hclosing]
      exact h.impl
    · rw [hpc, hsocket, hclosers]
      exact h.async
    · rw [hpc, hclosers]
      exact h.implClosers
  · obtain ⟨hasync, himplClosers⟩ := h.async_step hmoved hacts
    refine ⟨fun i p => h.caller_step hready hmoved hacts, fun i => h.operation_step hmoved hacts,
      ?_, hasync, himplClosers⟩
    rw [hmoved.impl, hmoved.closing, Bool.and_eq_false_iff, Bool.or_eq_true]
    rintro (himpl | hpc)
    · exact Or.inl (h.impl himpl)
    · left
      by_contra hopen
      have hnot := (hgood.close.before (by simpa using hopen)).2.2.2.2 k
      exact hnot (Or.inr (Or.inr (by simpa using hpc)))

/-! ### Who closes -/

/-- What the events of a run have to do with who closes the connection. -/
structure Recorded (calls : CallTree ι) (es : List (Event ι)) (s : State ι) : Prop where
  failed : ∀ i, Event.fail i ∈ es → (s.pc i).Closes ∨ s.closing = true
  called : ∀ i, calls.role i = .disconnect → s.pc i = .start ∨ s.pc i = .entering ∨
    s.pc i = .locked ∨ (s.pc i).Closes ∨ s.closing = true
  cause : ∀ i, (s.pc i).Closes ∨ s.pc i = .set ∨ s.pc i = .unlocked ∨ i ∈ s.socketClosers →
    Event.fail i ∈ es ∨ calls.role i = .disconnect

omit [DecidableEq ι] [Fintype ι] in
theorem recorded_init (calls : CallTree ι) : Recorded calls [] {} :=
  ⟨by simp, fun i _ => Or.inl rfl, by simp [Pc.Closes]⟩

omit [DecidableEq ι] [Fintype ι] in
/-- A thread on its way to the exclusive lock gets there, or the connection is closing. -/
theorem State.closes_next (s : State ι) (role : Role) {q : Pc} (hq : q.Closes) :
    (s.next role q).Closes ∨ q = .exclusive ∨ s.closing = true := by
  rcases hq with rfl | rfl | rfl | rfl | rfl
  · simp only [State.next]
    split
    · rename_i hclosing
      exact Or.inr (Or.inr hclosing)
    · simp [Pc.Closes]
  · simp [State.next, Pc.Closes]
  · simp [State.next, Pc.Closes]
  · simp [State.next, Pc.Closes]
  · simp

omit [DecidableEq ι] [Fintype ι] in
/-- By its own steps only a user's `Disconnect` gets on the way to close. -/
theorem State.cause_next (s : State ι) (role : Role) {q : Pc}
    (hnext : (s.next role q).Closes ∨ s.next role q = .set ∨ s.next role q = .unlocked) :
    q.Closes ∨ q = .set ∨ q = .unlocked ∨ role = .disconnect := by
  revert hnext
  fun_cases State.next s role q <;> simp_all [Pc.Closes]

omit [Fintype ι] in
theorem Moved.closing_mono {q : Pc} (h : Moved s s' i q) (hclosing : s.closing = true) :
    s'.closing = true := by
  rw [h.closing, hclosing, Bool.true_or]

omit [Fintype ι] in
theorem Recorded.failed_step {es : List (Event ι)} (h : Recorded calls es s) {k : ι} {q : Pc}
    (hmoved : Moved s s' k q) (hacts : Acts calls s s' k q e) (hfail : Event.fail i ∈ es ++ [e]) :
    (s'.pc i).Closes ∨ s'.closing = true := by
  rw [List.mem_append, List.mem_singleton] at hfail
  rcases hfail with hfail | rfl
  · rcases h.failed i hfail with hpc | hclosing
    · by_cases hik : i = k
      · subst hik
        rw [hmoved.pc_self]
        cases hacts with
        | run _ hq =>
            rw [hq]
            rcases s.closes_next (calls.role i) hpc with hnext | hexcl | hclosing
            · exact Or.inl hnext
            · exact Or.inr (by simp [hmoved.closing, hexcl])
            · exact Or.inr (hmoved.closing_mono hclosing)
        | fail hbody _ _ => simp [hbody, Pc.Closes] at hpc
        | notify _ hclosed _ => simp [hclosed, Pc.Closes] at hpc
      · exact Or.inl (by rwa [hmoved.pc_of_ne hik])
    · exact Or.inr (hmoved.closing_mono hclosing)
  · cases hacts with
    | fail _ _ hq => exact Or.inl (by simp [hmoved.pc_self, hq, Pc.Closes])

omit [Fintype ι] in
theorem Recorded.called_step {es : List (Event ι)} (h : Recorded calls es s)
    (himpl : s.impl = false → s.closing = true) {k : ι} {q : Pc} (hmoved : Moved s s' k q)
    (hacts : Acts calls s s' k q e) (hrole : calls.role i = .disconnect) :
    s'.pc i = .start ∨ s'.pc i = .entering ∨ s'.pc i = .locked ∨ (s'.pc i).Closes ∨
      s'.closing = true := by
  cases hclosing : s.closing with
  | true => simp [hmoved.closing_mono hclosing]
  | false =>
      have hold := h.called i hrole
      rw [hclosing] at hold
      by_cases hik : i = k
      swap
      · rw [hmoved.pc_of_ne hik]
        simpa using hold.imp_right fun h => h.imp_right fun h => h.imp_right (Or.imp_right nofun)
      subst hik
      have hset : s.impl = true := by
        by_contra hnot
        exact absurd (hclosing.symm.trans (himpl (by simpa using hnot))) (by simp)
      rw [hmoved.pc_self, hmoved.closing]
      cases hacts with
      | run _ hq =>
          rw [hq, hrole]
          rcases hold with hpc | hpc | hpc | hpc | hpc
          · simp [hpc, State.next, hclosing]
          · simp [hpc, State.next]
          · simp [hpc, State.next, hset, Pc.Closes]
          · rcases s.closes_next .disconnect hpc with hnext | hexcl | hclosing'
            · simp [hnext]
            · simp [hexcl]
            · simp [hclosing']
          · cases hpc
      | fail _ hmay _ => simp [hrole, Role.mayFail] at hmay
      | notify _ hpc _ => simp [hpc, Pc.Closes] at hold

omit [Fintype ι] in
theorem Recorded.cause_step {es : List (Event ι)} (h : Recorded calls es s) {k : ι} {q : Pc}
    (hmoved : Moved s s' k q) (hacts : Acts calls s s' k q e)
    (hi : (s'.pc i).Closes ∨ s'.pc i = .set ∨ s'.pc i = .unlocked ∨ i ∈ s'.socketClosers) :
    Event.fail i ∈ es ++ [e] ∨ calls.role i = .disconnect := by
  have hold : (s.pc i).Closes ∨ s.pc i = .set ∨ s.pc i = .unlocked ∨ i ∈ s.socketClosers →
      Event.fail i ∈ es ++ [e] ∨ calls.role i = .disconnect := fun hi =>
    (h.cause i hi).imp_left (List.mem_append_left _)
  rw [hmoved.socketClosers, List.mem_append] at hi
  by_cases hik : i = k
  · subst hik
    rw [hmoved.pc_self] at hi
    have hq : q.Closes ∨ q = .set ∨ q = .unlocked →
        Event.fail i ∈ es ++ [e] ∨ calls.role i = .disconnect := by
      intro hq
      cases hacts with
      | run _ hnext =>
          rw [hnext] at hq
          rcases s.cause_next _ hq with hpc | hpc | hpc | hrole
          · exact hold (Or.inl hpc)
          · exact hold (Or.inr (Or.inl hpc))
          · exact hold (Or.inr (Or.inr (Or.inl hpc)))
          · exact Or.inr hrole
      | fail _ _ _ => simp
      | notify _ _ hfinished => simp [hfinished, Pc.Closes] at hq
    rcases hi with hi | hi | hi | hi | hi
    · exact hq (Or.inl hi)
    · exact hq (Or.inr (Or.inl hi))
    · exact hq (Or.inr (Or.inr hi))
    · exact hold (Or.inr (Or.inr (Or.inr hi)))
    · split at hi
      · rename_i hpc
        exact hold (Or.inr (Or.inr (Or.inl hpc)))
      · exact absurd hi List.not_mem_nil
  · rw [hmoved.pc_of_ne hik] at hi
    apply hold
    refine hi.imp_right fun h => h.imp_right fun h => h.imp_right fun h => h.resolve_right ?_
    intro hnew
    split at hnew
    · exact hik (List.mem_singleton.mp hnew)
    · exact absurd hnew List.not_mem_nil

theorem Recorded.step {es : List (Event ι)} (h : Recorded calls es s)
    (himpl : s.impl = false → s.closing = true) (hstep : calls.step s e = some s') :
    Recorded calls (es ++ [e]) s' := by
  obtain ⟨rfl, hpc, hclosing, -, hsocket, -⟩ | ⟨k, q, -, hmoved, hacts⟩ :=
    CallTree.step_cases hstep
  · refine ⟨?_, ?_, ?_⟩
    · rw [hpc, hclosing]
      simpa using h.failed
    · rw [hpc, hclosing]
      exact h.called
    · rw [hpc, hsocket]
      simpa using h.cause
  · exact ⟨fun i => h.failed_step hmoved hacts, fun i => h.called_step himpl hmoved hacts,
      fun i => h.cause_step hmoved hacts⟩

/-- What holds in every state that a run reaches. -/
theorem CallTree.run_reaches {es : List (Event ι)}
    (hrun : Machine.run calls.step {} es = some s) :
    Good s ∧ Nested calls s ∧ Recorded calls es s := by
  apply Machine.run_history (P := fun es s => Good s ∧ Nested calls s ∧ Recorded calls es s)
    ⟨good_init, nested_init calls, recorded_init calls⟩ _ hrun
  rintro as t a t' - ⟨hgood, hnested, hrecorded⟩ hstep
  exact ⟨hgood.nested hstep, hnested.step hgood hstep, hrecorded.step hnested.impl hstep⟩

/-! ### A `Disconnect` from within a body -/

/-- A `Disconnect` that has been called in a body has not got, and will not get, the
exclusive lock. -/
structure Stuck (s : State ι) (i p : ι) : Prop where
  caller : s.pc p = .body
  pc : s.pc i = .entering ∨ s.pc i = .locked ∨ s.pc i = .disconnect ∨ s.pc i = .unsharing ∨
    s.pc i = .unshared ∨ s.pc i = .upgrade

theorem Stuck.step (hgood : Good s) (hnested : Nested calls s)
    (hparent : calls.parent i = some p) (hrole : calls.role i = .disconnect)
    (h : s.pc i ≠ .start → Stuck s i p) (hstep : calls.step s e = some s') :
    s'.pc i ≠ .start → Stuck s' i p := by
  obtain ⟨-, hpc, -⟩ | ⟨k, q, hready, hmoved, hacts⟩ := CallTree.step_cases hstep
  · intro hcalled
    rw [hpc] at hcalled
    obtain ⟨hcaller, hi⟩ := h hcalled
    exact ⟨by rw [hpc, hcaller], by rwa [hpc]⟩
  intro hcalled
  by_cases hik : i = k
  swap
  · rw [hmoved.pc_of_ne hik] at hcalled
    obtain ⟨hcaller, hi⟩ := h hcalled
    refine ⟨?_, by rwa [hmoved.pc_of_ne hik]⟩
    apply hnested.caller_step hready hmoved hacts hparent
    rw [hmoved.pc_of_ne hik]
    refine ⟨hcalled, ?_⟩
    rintro hfinished
    simp [hfinished] at hi
  subst hik
  have hpi : p ≠ i := by
    rintro rfl
    exact lt_irrefl _ (calls.depth_lt hparent)
  have hcaller : s.pc p = .body := by
    by_cases hstart : s.pc i = .start
    · exact (hready.1 hstart p hparent).1
    · exact (h hstart).caller
  -- the body of the caller keeps everybody else from closing the connection
  have hopen : s.closing = false := hgood.close.body p hcaller
  have himpl : s.impl = true := by
    by_contra hnot
    exact absurd (hopen.symm.trans (hnested.impl (by simpa using hnot))) (by simp)
  refine ⟨by rw [hmoved.pc_of_ne hpi, hcaller], ?_⟩
  rw [hmoved.pc_self]
  cases hacts with
  | fail _ hmay _ => simp [hrole, Role.mayFail] at hmay
  | notify _ hpc _ =>
      have hpc' := (h (by simp [hpc])).pc
      simp [hpc] at hpc'
  | run hrun hq =>
      rw [hq, hrole]
      by_cases hstart : s.pc i = .start
      · simp [hstart, State.next, hopen]
      · rcases (h hstart).pc with hpc | hpc | hpc | hpc | hpc | hpc
        · simp [hpc, State.next]
        · simp [hpc, State.next, himpl]
        · simp [hpc, State.next, hopen]
        · simp [hpc, State.next]
        · simp [hpc, State.next]
        · -- the caller holds the shared lock
          have hzero := shared_eq_zero_of_run hrun hpc
          rw [hgood.lock.held.shared, count_eq_zero] at hzero
          exact absurd (show (s.pc p).mode = .shared by rw [hcaller]; rfl) (hzero p)

theorem stuck_of_run {es : List (Event ι)} (hrun : Machine.run calls.step {} es = some s)
    (hparent : calls.parent i = some p) (hrole : calls.role i = .disconnect)
    (hcalled : s.pc i ≠ .start) : Stuck s i p := by
  refine Machine.run_history (P := fun _ s => s.pc i ≠ .start → Stuck s i p)
    (fun h => absurd rfl h) ?_ hrun hcalled
  intro as t a t' ht hstuck hstep
  obtain ⟨hgood, hnested, -⟩ := CallTree.run_reaches ht
  exact Stuck.step hgood hnested hparent hrole hstuck hstep

/-- **A `Disconnect` from within a body.** Once a callback has called `Disconnect` in the
body of a handler, it has not returned in any state that a run reaches, nor has the
handler: `CLOSING` is clear and the socket open, and nobody who finds an error or calls
`Disconnect`, anywhere, has returned. -/
theorem run_disconnect_in_body {es : List (Event ι)}
    (hrun : Machine.run calls.step {} es = some s) (hparent : calls.parent i = some p)
    (hrole : calls.role i = .disconnect) (hcalled : s.pc i ≠ .start) :
    s.pc p = .body ∧ s.pc i ≠ .finished ∧ s.closing = false ∧ s.closers = [] ∧
      s.socketClosers = [] ∧ s.implClosers = [] ∧
      ∀ j, Event.fail j ∈ es ∨ calls.role j = .disconnect → s.pc j ≠ .finished := by
  obtain ⟨hcaller, hpc⟩ := stuck_of_run hrun hparent hrole hcalled
  obtain ⟨hgood, -, hrecorded⟩ := CallTree.run_reaches hrun
  have hopen : s.closing = false := hgood.close.body p hcaller
  obtain ⟨hclosers, hsocket, himpl, -, -⟩ := hgood.close.before hopen
  refine ⟨hcaller, ?_, hopen, hclosers, hsocket, himpl, ?_⟩
  · intro hfinished
    simp [hfinished] at hpc
  · rintro j (hfail | hdisconnect) hfinished
    · have hj := hrecorded.failed j hfail
      simp [hfinished, Pc.Closes, hopen] at hj
    · have hj := hrecorded.called j hdisconnect
      simp [hfinished, Pc.Closes, hopen] at hj

/-- A handler with one call in its body. -/
def oneCall (call : Role) (hcall : call.mayFail = false) : CallTree Bool where
  role i := if i then call else .handler
  parent i := if i then some false else none
  depth i := i.toNat
  depth_lt := by
    intro i p hparent
    split at hparent
    · rename_i hi
      obtain rfl := Option.some.inj hparent
      rw [hi]
      decide
    · cases hparent
  nested := by
    intro i p hparent
    split at hparent
    · rename_i hi
      simpa [hi] using hcall
    · cases hparent

/-- A callback disconnects the connection whose handler calls it. -/
theorem run_disconnect_in_body_callback :
    ∃ s : State Bool, Machine.run (oneCall .disconnect rfl).step {}
        [.run false, .run false, .run true, .run true, .run true, .run true, .run true,
          .run true] = some s ∧
      s.pc false = .body ∧ s.pc true ≠ .finished ∧ s.closing = false := by
  obtain ⟨s, hs⟩ := Option.isSome_iff_exists.mp (show (Machine.run
    (oneCall .disconnect rfl).step {} [.run false, .run false, .run true, .run true, .run true,
      .run true, .run true, .run true]).isSome by decide)
  have hpc : (Machine.run (oneCall .disconnect rfl).step {} _).map State.pc = some s.pc :=
    congrArg (Option.map State.pc) hs
  have hcalled : s.pc true ≠ .start := by
    rw [← Option.some.inj hpc]
    decide
  obtain ⟨hcaller, hreturned, hopen, -⟩ := run_disconnect_in_body hs (i := true) rfl rfl hcalled
  exact ⟨s, hs, hcaller, hreturned, hopen⟩

/-! ### Coming to rest -/

/-- Nothing can happen but that a listener registers. -/
def Rests (calls : CallTree ι) (s : State ι) : Prop :=
  ∀ e, e ≠ .register → calls.step s e = none

/-- Everything that was called has returned, and every thread that is not a call. -/
def Returned (calls : CallTree ι) (s : State ι) : Prop :=
  ∀ i, s.pc i = .finished ∨ s.pc i = .start ∧ calls.parent i ≠ none

/-- Some call of `Disconnect` has been made in a body. -/
def DisconnectsInBody (calls : CallTree ι) (s : State ι) : Prop :=
  ∃ i p, calls.parent i = some p ∧ calls.role i = .disconnect ∧ s.pc i ≠ .start

/-- Where a thread cannot go on, it waits for the lock, or for `ImplClosed`. -/
theorem waits_of_run_eq_none (hheld : Held s.mutex fun i => (s.pc i).mode) {role : Role}
    (hrun : s.run role i = none) :
    (s.pc i = .start ∨ s.pc i = .entering) ∧ s.mutex.exclusive = true ∨
      s.pc i = .unshared ∧ (s.mutex.exclusive = true ∨ s.mutex.upgrade = true) ∨
      s.pc i = .upgrade ∧ s.mutex.shared ≠ 0 ∨ s.pc i = .implClosed ∨ s.pc i = .finished := by
  have hmode : ∀ {l : Mode}, (s.pc i).mode = l → ∃ j, (s.pc j).mode = l := fun h => ⟨i, h⟩
  unfold State.run State.lockShared State.unlockShared at hrun
  cases hpc : s.pc i with
  | start =>
      cases role with
      | disconnect => simp [hpc] at hrun
      | _ => simpa [hpc, lockShared_eq_none] using hrun
  | locked =>
      cases role with
      | _ => simp [hpc] at hrun
  | entering => simpa [hpc, lockShared_eq_none] using hrun
  | body | disconnect | unlocked => simp [hpc] at hrun
  | exclusive =>
      simp only [hpc] at hrun
      split at hrun
      · cases hrun
      · cases hrun
  | leaving | unsharing =>
      simp only [hpc, Option.map_eq_none_iff, unlockShared_eq_none] at hrun
      exact absurd hrun (hheld.shared_ne_zero_iff.mpr (hmode (by rw [hpc]; rfl)))
  | unshared => simpa [hpc, lockUpgrade_eq_none] using hrun
  | upgrade =>
      simp only [hpc, Option.map_eq_none_iff, unlockUpgradeAndLock_eq_none] at hrun
      have hupgrade := (eq_true_iff_of_toNat hheld.upgrade).mpr (hmode (by rw [hpc]; rfl))
      simpa using hrun hupgrade
  | rejected | set =>
      simp only [hpc, Option.map_eq_none_iff, unlock_eq_none] at hrun
      have hexclusive := (eq_true_iff_of_toNat hheld.exclusive).mpr (hmode (by rw [hpc]; rfl))
      exact absurd (hexclusive.symm.trans hrun) (by simp)
  | implClosed | finished => simp

omit [DecidableEq ι] [Fintype ι] in
theorem ready_of_ne (hstart : s.pc i ≠ .start) (hbody : s.pc i ≠ .body) : calls.Ready s i :=
  ⟨fun h => absurd h hstart, fun h => absurd h hbody⟩

/-- At rest a thread that is not in a call waits for the lock, or has finished. -/
theorem Rests.waits (h : Rests calls s) (hheld : Held s.mutex fun i => (s.pc i).mode)
    (hready : calls.Ready s i) :
    (s.pc i = .start ∨ s.pc i = .entering) ∧ s.mutex.exclusive = true ∨
      s.pc i = .unshared ∧ (s.mutex.exclusive = true ∨ s.mutex.upgrade = true) ∨
      s.pc i = .upgrade ∧ s.mutex.shared ≠ 0 ∨ s.pc i = .finished := by
  have hrun : s.run (calls.role i) i = none := by
    have hnone := h (.run i) (by simp)
    simpa only [CallTree.step, if_pos hready, Teardown.step] using hnone
  rcases waits_of_run_eq_none hheld hrun with hi | hi | hi | hpc | hi
  · exact Or.inl hi
  · exact Or.inr (Or.inl hi)
  · exact Or.inr (Or.inr (Or.inl hi))
  · have hnone := h (.notify i []) (by simp)
    simp [CallTree.step, Teardown.step, hpc] at hnone
  · exact Or.inr (Or.inr (Or.inr hi))

/-- At rest nobody holds the exclusive lock. -/
theorem Rests.not_exclusive (h : Rests calls s) (hheld : Held s.mutex fun i => (s.pc i).mode) :
    s.mutex.exclusive = false := by
  rw [Bool.eq_false_iff]
  intro hexclusive
  obtain ⟨i, hi⟩ := (eq_true_iff_of_toNat hheld.exclusive).mp hexclusive
  have hready : calls.Ready s i := by
    apply ready_of_ne
    · rintro hpc
      simp [hpc, Pc.mode] at hi
    · rintro hpc
      simp [hpc, Pc.mode] at hi
  rcases h.waits hheld hready with ⟨hpc | hpc, -⟩ | ⟨hpc, -⟩ | ⟨hpc, -⟩ | hpc
  all_goals simp [hpc, Pc.mode] at hi

/-- At rest nobody holds the shared lock, unless a `Disconnect` was called in a body. -/
theorem Rests.not_shared (h : Rests calls s) (hheld : Held s.mutex fun i => (s.pc i).mode)
    (hnested : Nested calls s) (hnone : ¬ DisconnectsInBody calls s) : s.mutex.shared = 0 := by
  by_contra hshared
  obtain ⟨i₀, hi₀⟩ := hheld.shared_ne_zero_iff.mp hshared
  -- the innermost of the calls that hold it
  obtain ⟨i, hi, hmax⟩ := Finset.exists_max_image
    (Finset.univ.filter fun i => (s.pc i).mode = .shared) calls.depth ⟨i₀, by simpa using hi₀⟩
  rw [Finset.mem_filter] at hi
  have hready : calls.Ready s i := by
    constructor
    · intro hpc
      simp [hpc, Pc.mode] at hi
    · rintro - ⟨j, hparent, hactive⟩
      have hplain : (s.pc j).Plain := by
        have hmay := calls.nested hparent
        cases hrole : calls.role j with
        | operation => exact hnested.operation j hrole
        | disconnect => exact absurd ⟨j, i, hparent, hrole, hactive.1⟩ hnone
        | handler | expired => simp [hrole, Role.mayFail] at hmay
      have hmode : (s.pc j).mode = .shared := by
        rcases hplain with hpc | hpc | hpc | hpc | hpc
        · exact absurd hpc hactive.1
        · rw [hpc]
          rfl
        · rw [hpc]
          rfl
        · rw [hpc]
          rfl
        · exact absurd hpc hactive.2
      exact absurd (hmax j (by simpa using hmode)) (not_le.mpr (calls.depth_lt hparent))
  rcases h.waits hheld hready with ⟨hpc | hpc, -⟩ | ⟨hpc, -⟩ | ⟨hpc, -⟩ | hpc
  all_goals simp [hpc, Pc.mode] at hi

theorem Rests.not_upgrade (h : Rests calls s) (hheld : Held s.mutex fun i => (s.pc i).mode)
    (hshared : s.mutex.shared = 0) : s.mutex.upgrade = false := by
  rw [Bool.eq_false_iff]
  intro hupgrade
  obtain ⟨i, hi⟩ := (eq_true_iff_of_toNat hheld.upgrade).mp hupgrade
  have hready : calls.Ready s i := by
    apply ready_of_ne
    · rintro hpc
      simp [hpc, Pc.mode] at hi
    · rintro hpc
      simp [hpc, Pc.mode] at hi
  rcases h.waits hheld hready with ⟨hpc | hpc, -⟩ | ⟨hpc, -⟩ | ⟨-, hpos⟩ | hpc
  · simp [hpc, Pc.mode] at hi
  · simp [hpc, Pc.mode] at hi
  · simp [hpc, Pc.mode] at hi
  · exact hpos hshared
  · simp [hpc, Pc.mode] at hi

/-- At rest every thread has returned, and every call that was made. -/
theorem Rests.returned (h : Rests calls s) (hheld : Held s.mutex fun i => (s.pc i).mode)
    (hnested : Nested calls s) (hnone : ¬ DisconnectsInBody calls s) : Returned calls s := by
  have hshared := h.not_shared hheld hnested hnone
  have hexclusive := h.not_exclusive hheld
  have hupgrade := h.not_upgrade hheld hshared
  intro i
  by_cases hpc : s.pc i = .start ∧ calls.parent i ≠ none
  · exact Or.inr hpc
  have hready : calls.Ready s i := by
    constructor
    · intro hstart p hp
      exact absurd ⟨hstart, by simp [hp]⟩ hpc
    · intro hbody
      have hpos := hheld.shared_ne_zero_iff.mpr ⟨i, by rw [hbody]; rfl⟩
      exact absurd hshared hpos
  rcases h.waits hheld hready with ⟨-, hlock⟩ | ⟨-, hlock⟩ | ⟨-, hlock⟩ | hfinished
  · simp [hexclusive] at hlock
  · simp [hexclusive, hupgrade] at hlock
  · exact absurd hshared hlock
  · exact Or.inl hfinished

theorem Returned.rests (h : Returned calls s) : Rests calls s := by
  have hnot : ∀ {i : ι} {q : Pc}, q ≠ .start → q ≠ .finished → s.pc i ≠ q := by
    rintro i q hstart hfinished rfl
    rcases h i with hpc | ⟨hpc, -⟩
    · exact hfinished hpc
    · exact hstart hpc
  intro e he
  cases e with
  | register => exact absurd rfl he
  | run i =>
      simp only [CallTree.step]
      split
      swap
      · rfl
      rename_i hready
      rcases h i with hpc | ⟨hpc, hparent⟩
      · show s.run (calls.role i) i = none
        unfold State.run
        simp [hpc]
      · obtain ⟨p, hp⟩ := Option.ne_none_iff_exists'.mp hparent
        exact absurd (hready.1 hpc p hp).1 (hnot (by simp) (by simp))
  | fail i =>
      have hbody : s.pc i ≠ .body := hnot (by simp) (by simp)
      simp [CallTree.step, Teardown.step, hbody]
  | notify i expired =>
      have hclosed : s.pc i ≠ .implClosed := hnot (by simp) (by simp)
      simp [CallTree.step, Teardown.step, hclosed]

omit [DecidableEq ι] in
/-- What closed the connection, where everything has returned. -/
theorem Returned.closing (h : Returned calls s) (hgood : Good s) (hnested : Nested calls s)
    {es : List (Event ι)} (hrecorded : Recorded calls es s) (hclosing : s.closing = true) :
    ∃ k, (Event.fail k ∈ es ∨ calls.role k = .disconnect ∧ s.pc k ≠ .start) ∧
      s.closers = [k] ∧ s.socketClosers = [k] ∧
      s.implClosers = if (calls.role k).async then [k] else [] := by
  obtain ⟨k, hclosers, -, hstage⟩ := hgood.close.after hclosing
  rcases h k with hpc | ⟨hpc, -⟩
  swap
  · rw [hpc] at hstage
    exact hstage.elim
  rw [hpc] at hstage
  obtain ⟨hsocket, himpl⟩ := hstage
  have hk : k ∈ s.socketClosers := by simp [hsocket]
  refine ⟨k, ?_, hclosers, hsocket, ?_⟩
  · rcases hrecorded.cause k (Or.inr (Or.inr (Or.inr hk))) with hfail | hrole
    · exact Or.inl hfail
    · exact Or.inr ⟨hrole, by simp [hpc]⟩
  · split
    · rename_i hasync
      rcases hnested.async k hk hasync with hclosed | hmem
      · simp [hpc] at hclosed
      · rcases himpl with ⟨hnil, -⟩ | hone
        · simp [hnil] at hmem
        · exact hone
    · rename_i hasync
      rcases himpl with ⟨hnil, -⟩ | hone
      · exact hnil
      · exact absurd (hnested.implClosers k (Or.inr (by simp [hone]))) hasync

/-- **Coming to rest.** The threads and calls of a connection make at most twelve steps
each. Nothing can happen any more, and nobody has called `Disconnect` in a body, just
where all threads and all calls that were made have returned; then the lock is free, and
the connection is closing just when a body found an error or `Disconnect` was called,
with the socket closed once, by the thread that set `CLOSING`, and `ImplClosed` run by
this one just when it was not the user's `Disconnect`. -/
theorem run_returned_iff {es : List (Event ι)}
    (hrun : Machine.run calls.step {} es = some s) :
    (∀ i, es.countP (fun e => decide (e.thread = some i)) ≤ 12) ∧
      (Returned calls s ↔ Rests calls s ∧ ¬ DisconnectsInBody calls s) ∧
      (Returned calls s → s.mutex = {} ∧
        (s.closing = true ↔
          ∃ i, Event.fail i ∈ es ∨ calls.role i = .disconnect ∧ s.pc i ≠ .start) ∧
        (s.closing = true → ∃ k, s.closers = [k] ∧ s.socketClosers = [k] ∧
          s.implClosers = if (calls.role k).async then [k] else [])) := by
  obtain ⟨hgood, hnested, hrecorded⟩ := CallTree.run_reaches hrun
  have hheld := hgood.lock.held
  refine ⟨?_, ⟨fun h => ⟨h.rests, ?_⟩, fun h => h.1.returned hheld hnested h.2⟩,
    fun h => ⟨?_, ?_, ?_⟩⟩
  · intro i
    have hcount := Machine.run_account_le (I := fun _ => True) (P := fun _ => True)
      (fun s : State ι => (s.pc i).rank) (fun e => if decide (e.thread = some i) then 1 else 0)
      (fun _ => 0) (by simp) (fun _ _ _ _ hstep => CallTree.rank_step i hstep)
      (fun _ _ => trivial) trivial hrun
    have hzero : (es.map fun _ => 0).sum = 0 := by
      rw [List.map_const', List.sum_replicate]
      exact Nat.mul_zero _
    have hinit : (({} : State ι).pc i).rank = 12 := rfl
    rw [Machine.sum_map_ite, hzero, hinit] at hcount
    omega
  · rintro ⟨i, p, hparent, hrole, hcalled⟩
    have hbody := (stuck_of_run hrun hparent hrole hcalled).caller
    rcases h p with hpc | ⟨hpc, -⟩
    · simp [hpc] at hbody
    · simp [hpc] at hbody
  · apply hheld.eq_free
    intro i
    rcases h i with hpc | ⟨hpc, -⟩
    · rw [hpc]
      rfl
    · rw [hpc]
      rfl
  · constructor
    · intro hclosing
      obtain ⟨k, hk, -⟩ := h.closing hgood hnested hrecorded hclosing
      exact ⟨k, hk⟩
    · rintro ⟨i, hfail | ⟨hrole, hcalled⟩⟩
      · rcases hrecorded.failed i hfail with hpc | hclosing
        · rcases h i with hi | ⟨hi, -⟩
          · simp [hi, Pc.Closes] at hpc
          · simp [hi, Pc.Closes] at hpc
        · exact hclosing
      · have hfinished := (h i).resolve_right fun hi => hcalled hi.1
        simpa [hfinished, Pc.Closes] using hrecorded.called i hrole
  · intro hclosing
    obtain ⟨k, -, hk⟩ := h.closing hgood hnested hrecorded hclosing
    exact ⟨k, hk⟩

/-- A callback pushes data, then the handler finds an error. -/
theorem run_returned_iff_push :
    ∃ s : State Bool, Machine.run (oneCall .operation rfl).step {}
        [.run false, .run false, .run true, .run true, .run true, .run true, .fail false,
          .run false, .run false, .run false, .run false, .run false, .run false, .run false,
          .notify false []] = some s ∧
      Rests (oneCall .operation rfl) s ∧ s.mutex = {} ∧ s.closing = true := by
  obtain ⟨s, hs⟩ := Option.isSome_iff_exists.mp (show (Machine.run
    (oneCall .operation rfl).step {} [.run false, .run false, .run true, .run true, .run true,
      .run true, .fail false, .run false, .run false, .run false, .run false, .run false,
      .run false, .run false, .notify false []]).isSome by decide)
  have hreturned : Returned (oneCall .operation rfl) s := by
    have hpc : (Machine.run (oneCall .operation rfl).step {} _).map State.pc = some s.pc :=
      congrArg (Option.map State.pc) hs
    have hall : ∀ i, s.pc i = .finished := by
      rw [← Option.some.inj hpc]
      decide
    exact fun i => Or.inl (hall i)
  obtain ⟨-, hiff, hrest⟩ := run_returned_iff hs
  obtain ⟨hfree, hclosing, -⟩ := hrest hreturned
  exact ⟨s, hs, (hiff.mp hreturned).1, hfree, hclosing.mpr ⟨false, Or.inl (by simp)⟩⟩

end Steps

end Tt3d.Network.Teardown
