import Tt3d.Lib.ConditionVariable
import Tt3d.Thread.ThreadPool

/-!
The workers of the pool on the condition variable of `PCQueue`, and the pool at rest.

`Pop` tests the queue in a loop around `mQueueNotEmpty.wait`; `Push` calls
`notify_all` before it unlocks the mutex. Tasks return.
-/

namespace Tt3d.Thread.ThreadPool

open ConditionVariable (waitStep bases run_waitStep)

/-- `Pop` waits for `mQueueNotEmpty`, and `Push` notifies it. -/
def mQueueNotEmpty : ConditionVariable.Condition State Event ℕ where
  operation
    | .pop i => some i
    | _ => none
  ready s := !s.mPcQueue.isEmpty
  inside s i := s.mThreads[i]? = some .popping
  notifies
    | .pushTask empty => !empty
    | .pushSentinel => true
    | _ => false

/-- A call from outside of the pool. -/
def Event.isCall : Event → Bool
  | .pushTask _ | .start | .stop => true
  | _ => false

/-- Nothing can happen but a call. -/
def Resting (mSize : ℕ) (s : ConditionVariable.State State ℕ) : Prop :=
  ∀ a : Event, a.isCall = false → waitStep mQueueNotEmpty (step mSize) s (.base a) = none

/-- `Start` and `Stop` have returned, and the pool has no threads, or all its threads wait
for a task and all tasks pushed have been executed once. -/
structure AtRest (s : State) : Prop where
  returned : s.control = .free
  done : s.mThreads = [] ∨
    s.mPcQueue = [] ∧ (∀ w ∈ s.mThreads, w = .popping) ∧ s.finished.Perm (List.range s.pushed)

variable {mSize : ℕ} {s s' : State}

/-- What an event does, branch by branch. -/
inductive Effect (mSize : ℕ) (s : State) : Event → State → Prop
  | pushEmpty : Effect mSize s (.pushTask true) s
  | pushTask : Effect mSize s (.pushTask false)
      { s with mPcQueue := PCQueue.push s.mPcQueue (some s.pushed), pushed := s.pushed + 1 }
  | isRunning : s.control = .free → s.mThreads ≠ [] → Effect mSize s .start s
  | start : s.control = .free → s.mThreads = [] →
      Effect mSize s .start { s with control := .starting }
  | create : s.control = .starting → s.mThreads.length < mSize →
      Effect mSize s .create { s with mThreads := s.mThreads ++ [.popping] }
  | startReturns : s.control = .starting → mSize ≤ s.mThreads.length →
      Effect mSize s .startReturns { s with control := .free }
  | isStopped : s.control = .free → s.mThreads = [] → Effect mSize s .stop s
  | stop : s.control = .free → s.mThreads ≠ [] →
      Effect mSize s .stop { s with control := .stopping 0 }
  | pushSentinel (k : ℕ) : s.control = .stopping k → k < s.mThreads.length →
      Effect mSize s .pushSentinel
        { s with mPcQueue := PCQueue.push s.mPcQueue none, control := .stopping (k + 1) }
  | sentinelsPushed (k : ℕ) : s.control = .stopping k → s.mThreads.length ≤ k →
      Effect mSize s .sentinelsPushed { s with control := .joining 0 }
  | join (j : ℕ) : s.control = .joining j → s.mThreads[j]? = some .stopped →
      Effect mSize s .join { s with control := .joining (j + 1) }
  | stopReturns (j : ℕ) : s.control = .joining j → s.mThreads.length ≤ j →
      Effect mSize s .stopReturns { s with mThreads := [], control := .free }
  | pop (i : ℕ) (h : Option ℕ) (q : List (Option ℕ)) : s.mThreads[i]? = some .popping →
      s.mPcQueue = h :: q → Effect mSize s (.pop i) (s.popped i h q)
  | finish (i task : ℕ) : s.mThreads[i]? = some (.running task) →
      Effect mSize s (.finish i)
        { s with mThreads := s.mThreads.set i .popping, finished := s.finished ++ [task] }

theorem effect_of_step {a : Event} (hstep : step mSize s a = some s') : Effect mSize s a s' := by
  cases a with
  | pushTask empty =>
      cases empty with
      | true =>
          obtain rfl := Option.some.inj hstep
          exact .pushEmpty
      | false =>
          obtain rfl := Option.some.inj hstep
          exact .pushTask
  | pop i =>
      obtain ⟨hi, h, q, hqueue, rfl⟩ := pop_cases hstep
      exact .pop i h q hi hqueue
  | start =>
      simp only [step, Option.ite_none_right_eq_some] at hstep
      obtain ⟨hfree, hstep⟩ := hstep
      split at hstep
      · rename_i hsome
        obtain rfl := Option.some.inj hstep
        exact .isRunning hfree hsome
      · rename_i hnone
        obtain rfl := Option.some.inj hstep
        exact .start hfree (not_not.mp hnone)
  | create =>
      simp only [step, Option.ite_none_right_eq_some, Option.some.injEq] at hstep
      obtain ⟨⟨hstarting, hlt⟩, rfl⟩ := hstep
      exact .create hstarting hlt
  | startReturns =>
      simp only [step, Option.ite_none_right_eq_some, Option.some.injEq] at hstep
      obtain ⟨⟨hstarting, hle⟩, rfl⟩ := hstep
      exact .startReturns hstarting hle
  | stop =>
      simp only [step, Option.ite_none_right_eq_some] at hstep
      obtain ⟨hfree, hstep⟩ := hstep
      split at hstep
      · rename_i hnone
        obtain rfl := Option.some.inj hstep
        exact .isStopped hfree hnone
      · rename_i hsome
        obtain rfl := Option.some.inj hstep
        exact .stop hfree hsome
  | pushSentinel =>
      simp only [step] at hstep
      split at hstep
      swap
      · cases hstep
      rename_i k hcontrol
      simp only [Option.ite_none_right_eq_some, Option.some.injEq] at hstep
      obtain ⟨hlt, rfl⟩ := hstep
      exact .pushSentinel k hcontrol hlt
  | sentinelsPushed =>
      simp only [step] at hstep
      split at hstep
      swap
      · cases hstep
      rename_i k hcontrol
      simp only [Option.ite_none_right_eq_some, Option.some.injEq] at hstep
      obtain ⟨hle, rfl⟩ := hstep
      exact .sentinelsPushed k hcontrol hle
  | join =>
      simp only [step] at hstep
      split at hstep
      swap
      · cases hstep
      rename_i j hcontrol
      simp only [Option.ite_none_right_eq_some, Option.some.injEq] at hstep
      obtain ⟨hstopped, rfl⟩ := hstep
      exact .join j hcontrol hstopped
  | stopReturns =>
      simp only [step] at hstep
      split at hstep
      swap
      · cases hstep
      rename_i j hcontrol
      simp only [Option.ite_none_right_eq_some, Option.some.injEq] at hstep
      obtain ⟨hle, rfl⟩ := hstep
      exact .stopReturns j hcontrol hle
  | finish i =>
      simp only [step] at hstep
      split at hstep
      swap
      · cases hstep
      rename_i task hi
      obtain rfl := Option.some.inj hstep
      exact .finish i task hi

/-- Only a push makes the queue longer, and it notifies. -/
theorem guards_mQueueNotEmpty : mQueueNotEmpty.Guards (step mSize) where
  ready := by
    intro s a s' k hstep hoperation
    cases effect_of_step hstep with
    | pop i h q hi hqueue => simp [mQueueNotEmpty, hqueue]
    | _ => cases hoperation
  notifies := by
    intro s a s' hstep hready
    cases effect_of_step hstep with
    | pushTask => exact Or.inr rfl
    | pushSentinel k hcontrol hlt => exact Or.inr rfl
    | pop i h q hi hqueue => exact Or.inl (by simp [mQueueNotEmpty, hqueue])
    | _ => exact Or.inl hready

/-- **The condition variable of the queue.** The workers that wait on it do what workers
that block at an empty queue do: a run is a run of the pool, none of them sleeps while
there is something in the queue, and in each state reached the same events can happen. -/
theorem run_mQueueNotEmpty {c : ConditionVariable.State State ℕ}
    {es : List (ConditionVariable.Event Event ℕ)}
    (hrun : Machine.run (waitStep mQueueNotEmpty (step mSize)) { base := {} } es = some c) :
    Machine.run (step mSize) {} (bases es) = some c.base ∧
      (c.base.mPcQueue ≠ [] → ∀ i, c.asleep i = false) ∧
      ∀ a, (waitStep mQueueNotEmpty (step mSize) c (.base a)).isSome ↔
        (step mSize c.base a).isSome := by
  obtain ⟨hbase, hvigilant, hsame⟩ := run_waitStep guards_mQueueNotEmpty hrun
  refine ⟨hbase, fun hqueue => hvigilant ?_, hsame⟩
  simp [mQueueNotEmpty, hqueue]

/-- Two workers sleep, one of them wakes for no reason and sleeps again, and a task comes. -/
theorem run_mQueueNotEmpty_two_workers :
    ∃ c, Machine.run (waitStep mQueueNotEmpty (step 2)) { base := {} }
        [.base .start, .base .create, .base .create, .base .startReturns, .sleep 0, .sleep 1,
          .wake 0, .sleep 0, .base (.pushTask false)] = some c ∧
      c.base.mPcQueue = [some 0] ∧ ∀ i, c.asleep i = false := by
  obtain ⟨c, hrun, hqueue⟩ : ∃ c, Machine.run (waitStep mQueueNotEmpty (step 2)) { base := {} }
        [.base .start, .base .create, .base .create, .base .startReturns, .sleep 0, .sleep 1,
          .wake 0, .sleep 0, .base (.pushTask false)] = some c ∧
      c.base.mPcQueue = [some 0] := ⟨_, rfl, rfl⟩
  exact ⟨c, hrun, hqueue,
    (run_mQueueNotEmpty hrun).2.1 (by rw [hqueue]; exact List.cons_ne_nil _ _)⟩

/-! ### The events that are to come -/

/-- The events that are to come for the queue: a task is popped and finished, an empty one
is popped. -/
def queueWork (q : List (Option ℕ)) : ℕ := 2 * q.reduceOption.length + q.count none

/-- And for the holder of `mRunMutex`. -/
def Control.work (mSize threads : ℕ) : Control → ℕ
  | .free => 0
  | .starting => mSize - threads + 1
  | .stopping k => 2 * (mSize - k) + mSize + 2
  | .joining j => mSize - j + 1

def work (mSize : ℕ) (s : State) : ℕ :=
  queueWork s.mPcQueue + s.running.length + s.control.work mSize s.mThreads.length

/-- What a call adds to them. -/
def cost (mSize : ℕ) : Event → ℕ
  | .pushTask empty => if empty then 0 else 2
  | .start => mSize + 1
  | .stop => 3 * mSize + 2
  | _ => 0

theorem queueWork_push_some (q : List (Option ℕ)) (task : ℕ) :
    queueWork (PCQueue.push q (some task)) = queueWork q + 2 := by
  simp only [queueWork, PCQueue.push, List.reduceOption_append, List.length_append,
    List.count_append]
  simp
  omega

theorem queueWork_push_none (q : List (Option ℕ)) :
    queueWork (PCQueue.push q none) = queueWork q + 1 := by
  simp only [queueWork, PCQueue.push, List.reduceOption_append, List.length_append,
    List.count_append]
  simp
  omega

theorem length_running_set {threads : List Worker} {i : ℕ} {w : Worker}
    (hw : threads[i]? = some w) (w' : Worker) :
    w.task.toList.length + ((threads.set i w').filterMap Worker.task).length =
      w'.task.toList.length + (threads.filterMap Worker.task).length := by
  have h := (running_set hw w').length_eq
  rwa [List.length_append, List.length_append] at h

theorem Flow.work_step (h : Flow mSize s) {a : Event}
    (hstep : ThreadPool.step mSize s a = some s') :
    work mSize s' + (if a.isCall then 0 else 1) ≤ work mSize s + cost mSize a := by
  have hplaced := h.placed
  cases effect_of_step hstep with
  | pushEmpty => exact Nat.le_refl _
  | isRunning hfree hsome => exact Nat.le_add_right _ _
  | isStopped hfree hnone => exact Nat.le_add_right _ _
  | pushTask =>
      simp only [work, State.running, queueWork_push_some, cost, Event.isCall,
        Bool.false_eq_true, if_true, if_false]
      omega
  | start hfree hnone =>
      simp only [work, State.running, hfree, hnone, Control.work, cost, Event.isCall,
        List.length_nil, if_true]
      omega
  | create hstarting hlt =>
      have hnew : (s.mThreads ++ [Worker.popping]).filterMap Worker.task = s.running := by
        rw [List.filterMap_append]
        exact List.append_nil _
      simp only [work, State.running, hnew, hstarting, Control.work, cost, Event.isCall,
        List.length_append, List.length_singleton, Bool.false_eq_true, if_false]
      omega
  | startReturns hstarting hle =>
      simp only [work, State.running, hstarting, Control.work, cost, Event.isCall,
        Bool.false_eq_true, if_false]
      omega
  | stop hfree hsome =>
      simp only [work, State.running, hfree, Control.work, cost, Event.isCall, if_true]
      omega
  | pushSentinel k hcontrol hlt =>
      rw [hcontrol] at hplaced
      obtain ⟨hlen, -⟩ := hplaced
      simp only [work, State.running, hcontrol, queueWork_push_none, Control.work, cost,
        Event.isCall, Bool.false_eq_true, if_false]
      omega
  | sentinelsPushed k hcontrol hle =>
      simp only [work, State.running, hcontrol, Control.work, cost, Event.isCall,
        Bool.false_eq_true, if_false]
      omega
  | join j hcontrol hstopped =>
      rw [hcontrol] at hplaced
      obtain ⟨hlen, -⟩ := hplaced
      have hlt : j < s.mThreads.length := (List.getElem?_eq_some_iff.mp hstopped).1
      simp only [work, State.running, hcontrol, Control.work, cost, Event.isCall,
        Bool.false_eq_true, if_false]
      omega
  | stopReturns j hcontrol hle =>
      simp only [work, State.running, hcontrol, Control.work, cost, Event.isCall,
        List.filterMap_nil, List.length_nil, Bool.false_eq_true, if_false]
      omega
  | pop i h q hi hqueue =>
      cases h with
      | none =>
          have hrunning := length_running_set hi .stopped
          simp only [Worker.task, Option.toList_none, List.length_nil] at hrunning
          simp only [work, State.popped, State.running, hqueue, queueWork, cost, Event.isCall,
            List.reduceOption_cons_of_none, List.count_cons_self, List.length_set,
            Bool.false_eq_true, if_false]
          omega
      | some task =>
          have hrunning := length_running_set hi (.running task)
          simp only [Worker.task, Option.toList_none, Option.toList_some, List.length_nil,
            List.length_singleton] at hrunning
          have hcount : (some task :: q).count none = q.count none :=
            List.count_cons_of_ne (Option.some_ne_none task)
          simp only [work, State.popped, State.running, hqueue, hcount, queueWork, cost,
            Event.isCall, List.reduceOption_cons_of_some, List.length_cons, List.length_set,
            Bool.false_eq_true, if_false]
          omega
  | finish i task hi =>
      have hrunning := length_running_set hi .popping
      simp only [Worker.task, Option.toList_none, Option.toList_some, List.length_nil,
        List.length_singleton] at hrunning
      simp only [work, State.running, cost, Event.isCall, List.length_set, Bool.false_eq_true,
        if_false]
      omega

/-! ### The pool at rest -/

/-- The pool with nothing to do. -/
def Still (mSize : ℕ) (s : State) : Prop := ∀ a : Event, a.isCall = false → step mSize s a = none

theorem Still.not_running (h : Still mSize s) {i task : ℕ} :
    s.mThreads[i]? ≠ some (.running task) := by
  intro hi
  have hstuck := h (.finish i) rfl
  simp only [step, hi] at hstuck
  cases hstuck

/-- A worker that waits for a task finds none. -/
theorem Still.queue_eq_nil (h : Still mSize s) {i : ℕ} (hi : s.mThreads[i]? = some .popping) :
    s.mPcQueue = [] := by
  cases hqueue : s.mPcQueue with
  | nil => rfl
  | cons t q =>
      have hstuck := h (.pop i) rfl
      rw [step, if_pos hi, hqueue] at hstuck
      cases hstuck

/-- `Start` and `Stop` are not stuck. -/
theorem Flow.control_eq_free (h : Flow mSize s) (hstill : Still mSize s) : s.control = .free := by
  have hplaced := h.placed
  have hsentinels := h.sentinels
  cases hcontrol : s.control with
  | free => rfl
  | starting =>
      rcases Nat.lt_or_ge s.mThreads.length mSize with hlt | hge
      · have hstuck := hstill .create rfl
        rw [ThreadPool.step, if_pos ⟨hcontrol, hlt⟩] at hstuck
        cases hstuck
      · have hstuck := hstill .startReturns rfl
        rw [ThreadPool.step, if_pos ⟨hcontrol, hge⟩] at hstuck
        cases hstuck
  | stopping k =>
      rcases Nat.lt_or_ge k s.mThreads.length with hlt | hge
      · have hstuck := hstill .pushSentinel rfl
        simp only [ThreadPool.step, hcontrol, if_pos hlt] at hstuck
        cases hstuck
      · have hstuck := hstill .sentinelsPushed rfl
        simp only [ThreadPool.step, hcontrol, if_pos hge] at hstuck
        cases hstuck
  | joining j =>
      rcases Nat.lt_or_ge j s.mThreads.length with hlt | hge
      · have hj := List.getElem?_eq_getElem hlt
        cases hw : s.mThreads[j] with
        | stopped =>
            have hstuck := hstill .join rfl
            rw [hw] at hj
            simp only [ThreadPool.step, hcontrol, if_pos hj] at hstuck
            cases hstuck
        | running task => exact absurd (hj.trans (congrArg some hw)) hstill.not_running
        | popping =>
            -- the queue is empty, so every worker has got its sentinel
            have hqueue := hstill.queue_eq_nil (hj.trans (congrArg some hw))
            rw [hqueue, hcontrol, List.count_nil, Nat.zero_add] at hsentinels
            have hall := List.count_eq_length.mp hsentinels _ (List.getElem_mem hlt)
            rw [hw] at hall
            cases hall
      · have hstuck := hstill .stopReturns rfl
        simp only [ThreadPool.step, hcontrol, if_pos hge] at hstuck
        cases hstuck

theorem Flow.atRest (h : Flow mSize s) (hstill : Still mSize s) : AtRest s := by
  have hfree := h.control_eq_free hstill
  refine ⟨hfree, ?_⟩
  by_cases hnone : s.mThreads = []
  · exact Or.inl hnone
  have hsentinels := h.sentinels
  rw [hfree] at hsentinels
  have hpopping : ∀ w ∈ s.mThreads, w = .popping := by
    intro w hw
    obtain ⟨i, hi⟩ := List.mem_iff_getElem?.mp hw
    cases w with
    | popping => rfl
    | running task => exact absurd hi hstill.not_running
    | stopped =>
        have hpos : 0 < s.mThreads.count .stopped := List.count_pos_iff.mpr hw
        simp only [Control.sentinels] at hsentinels
        omega
  obtain ⟨w, hw⟩ := List.exists_mem_of_ne_nil _ hnone
  obtain ⟨i, hi⟩ := List.mem_iff_getElem?.mp hw
  rw [hpopping w hw] at hi
  have hqueue := hstill.queue_eq_nil hi
  refine Or.inr ⟨hqueue, hpopping, ?_⟩
  have hidle : s.running = [] := by
    refine List.filterMap_eq_nil_iff.mpr fun w hw => ?_
    rw [hpopping w hw]
    rfl
  have horder := h.order
  have hbegun := h.begun
  rw [hqueue, List.reduceOption_nil, List.append_nil] at horder
  rwa [hidle, List.append_nil, horder] at hbegun

/-- **The pool comes to rest.** With the workers on the condition variable and whatever
threads call `PushTask`, `Start` and `Stop`: the calls bound what the pool does besides.
When it can do nothing more, `Start` and `Stop` have returned, and a pool that has threads
has executed every task once. -/
theorem run_comes_to_rest {c : ConditionVariable.State State ℕ}
    {es : List (ConditionVariable.Event Event ℕ)}
    (hrun : Machine.run (waitStep mQueueNotEmpty (step mSize)) { base := {} } es = some c) :
    ((bases es).countP fun a => !a.isCall) ≤ ((bases es).map (cost mSize)).sum ∧
      (Resting mSize c → AtRest c.base) := by
  obtain ⟨hbase, -, hsame⟩ := run_waitStep guards_mQueueNotEmpty hrun
  constructor
  · have haccount := Machine.run_account_le (I := Flow mSize) (P := fun _ => True) (work mSize)
      (fun a : Event => if a.isCall then 0 else 1) (cost mSize)
      (fun s a s' _ h hstep => h.step hstep) (fun s a s' h hstep => h.work_step hstep)
      (fun _ _ => trivial) (flow_init mSize) hbase
    rw [Machine.sum_map_ite] at haccount
    have hzero : work mSize {} = 0 := rfl
    omega
  · intro hresting
    refine (flow_run hbase).atRest fun a ha => ?_
    have hnone := hresting a ha
    rw [← Option.not_isSome_iff_eq_none] at hnone ⊢
    exact fun h => hnone ((hsame a).mpr h)

/-- A pool of one worker executes a task that wakes it, and stops. -/
theorem run_comes_to_rest_one_task :
    ∃ c, Machine.run (waitStep mQueueNotEmpty (step 1)) { base := {} }
        [.base .start, .base .create, .base .startReturns, .sleep 0, .base (.pushTask false),
          .base (.pop 0), .base .stop, .base .pushSentinel, .base (.finish 0),
          .base .sentinelsPushed, .base (.pop 0), .base .join, .base .stopReturns] = some c ∧
      c.base.finished = [0] ∧ (Resting 1 c → AtRest c.base) := by
  obtain ⟨c, hrun, hfinished⟩ : ∃ c, Machine.run (waitStep mQueueNotEmpty (step 1)) { base := {} }
        [.base .start, .base .create, .base .startReturns, .sleep 0, .base (.pushTask false),
          .base (.pop 0), .base .stop, .base .pushSentinel, .base (.finish 0),
          .base .sentinelsPushed, .base (.pop 0), .base .join, .base .stopReturns] = some c ∧
      c.base.finished = [0] := ⟨_, rfl, rfl⟩
  exact ⟨c, hrun, hfinished, (run_comes_to_rest hrun).2⟩

end Tt3d.Thread.ThreadPool
