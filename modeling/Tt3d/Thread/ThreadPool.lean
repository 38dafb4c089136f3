import Mathlib.Data.List.Perm.Basic
import Mathlib.Data.List.Range
import Mathlib.Data.List.ReduceOption
import Tt3d.Lib.Machine

/-!
`ThreadPool`: `Start`, `Stop` and `PushTask` from any thread, and the workers.

The tasks that are not empty are numbered in the order of their pushes. An empty
task in the queue is the sentinel that ends one worker. `timed_join` waits until
the worker has ended.
-/

namespace Tt3d.Thread

namespace PCQueue

variable {α : Type*}

def push (q : List α) (t : α) : List α := q ++ [t]

/-- `Pop` waits while the queue is empty. -/
def pop : List α → Option (α × List α)
  | [] => none
  | t :: q => some (t, q)

end PCQueue

namespace ThreadPool

/-- A thread in `Loop`. -/
inductive Worker
  /-- At `mPcQueue.Pop()`. -/
  | popping
  | running (task : ℕ)
  /-- It got an empty task and left the loop. -/
  | stopped
  deriving DecidableEq, Repr

/-- Who holds `mRunMutex`, and how far the loops have come. -/
inductive Control
  | free
  /-- `Start`, which creates the threads. -/
  | starting
  /-- `Stop`, which has pushed `pushed` empty tasks. -/
  | stopping (pushed : ℕ)
  /-- `Stop`, which has joined `joined` threads. -/
  | joining (joined : ℕ)
  deriving DecidableEq, Repr

structure State where
  mThreads : List Worker := []
  mPcQueue : List (Option ℕ) := []
  control : Control := .free
  /-- The number of tasks pushed. -/
  pushed : ℕ := 0
  /-- The tasks begun, in their order. -/
  started : List ℕ := []
  finished : List ℕ := []
  deriving DecidableEq, Repr

inductive Event
  | pushTask (empty : Bool)
  | start
  /-- One turn of the loop of `Start`. -/
  | create
  | startReturns
  | stop
  /-- One turn of the first loop of `Stop`. -/
  | pushSentinel
  /-- The end of the first loop of `Stop`. -/
  | sentinelsPushed
  /-- One turn of the second loop of `Stop`. -/
  | join
  | stopReturns
  /-- `Pop` by worker `i`. -/
  | pop (i : ℕ)
  /-- `h()` returns in worker `i`. -/
  | finish (i : ℕ)
  deriving DecidableEq, Repr

/-- What worker `i` does with what it popped. -/
def State.popped (s : State) (i : ℕ) (h : Option ℕ) (q : List (Option ℕ)) : State :=
  match h with
  | none => { s with mPcQueue := q, mThreads := s.mThreads.set i .stopped }
  | some task =>
      { s with
        mPcQueue := q
        mThreads := s.mThreads.set i (.running task)
        started := s.started ++ [task] }

/-- The pool of `mSize` threads. -/
def step (mSize : ℕ) (s : State) : Event → Option State
  | .pushTask empty =>
      if empty then some s
      else
        some { s with
          mPcQueue := PCQueue.push s.mPcQueue (some s.pushed)
          pushed := s.pushed + 1 }
  | .start =>
      if s.control = .free then
        if s.mThreads ≠ [] then some s else some { s with control := .starting }
      else none
  | .create =>
      if s.control = .starting ∧ s.mThreads.length < mSize then
        some { s with mThreads := s.mThreads ++ [.popping] }
      else none
  | .startReturns =>
      if s.control = .starting ∧ mSize ≤ s.mThreads.length then some { s with control := .free }
      else none
  | .stop =>
      if s.control = .free then
        if s.mThreads = [] then some s else some { s with control := .stopping 0 }
      else none
  | .pushSentinel =>
      match s.control with
      | .stopping k =>
          if k < s.mThreads.length then
            some { s with mPcQueue := PCQueue.push s.mPcQueue none, control := .stopping (k + 1) }
          else none
      | _ => none
  | .sentinelsPushed =>
      match s.control with
      | .stopping k =>
          if s.mThreads.length ≤ k then some { s with control := .joining 0 } else none
      | _ => none
  | .join =>
      match s.control with
      | .joining j =>
          if s.mThreads[j]? = some .stopped then some { s with control := .joining (j + 1) }
          else none
      | _ => none
  | .stopReturns =>
      match s.control with
      | .joining j =>
          if s.mThreads.length ≤ j then some { s with mThreads := [], control := .free } else none
      | _ => none
  | .pop i =>
      if s.mThreads[i]? = some .popping then
        (PCQueue.pop s.mPcQueue).map fun (h, q) => s.popped i h q
      else none
  | .finish i =>
      match s.mThreads[i]? with
      | some (.running task) =>
          some { s with mThreads := s.mThreads.set i .popping, finished := s.finished ++ [task] }
      | _ => none

/-! ### Tasks and sentinels -/

def Worker.task : Worker → Option ℕ
  | .running task => some task
  | .popping | .stopped => none

/-- The tasks that are being executed. -/
def State.running (s : State) : List ℕ := s.mThreads.filterMap Worker.task

/-- The empty tasks that the `Stop` under way has pushed, in a pool of so many
threads. -/
def Control.sentinels (threads : ℕ) : Control → ℕ
  | .free | .starting => 0
  | .stopping k => k
  | .joining _ => threads

/-- How the holder of `mRunMutex` and the threads stand to each other. -/
def Placed (mSize : ℕ) (threads : List Worker) : Control → Prop
  | .free => threads = [] ∨ threads.length = mSize
  | .starting => threads.length ≤ mSize
  | .stopping k => threads.length = mSize ∧ k ≤ mSize
  | .joining j => threads.length = mSize ∧ j ≤ mSize ∧ ∀ i < j, threads[i]? = some .stopped

structure Flow (mSize : ℕ) (s : State) : Prop where
  /-- The tasks leave the queue in the order of their pushes. -/
  order : s.started ++ s.mPcQueue.reduceOption = List.range s.pushed
  begun : (s.finished ++ s.running).Perm s.started
  /-- Every sentinel is in the queue or has stopped one worker. -/
  sentinels : s.mPcQueue.count none + s.mThreads.count .stopped =
    s.control.sentinels s.mThreads.length
  placed : Placed mSize s.mThreads s.control

variable {mSize : ℕ} {s s' : State}

theorem flow_init (mSize : ℕ) : Flow mSize {} :=
  ⟨rfl, List.Perm.refl _, rfl, Or.inl rfl⟩

/-- A list with one element replaced. -/
theorem exists_split {α : Type*} {l : List α} {i : ℕ} {a : α} (h : l[i]? = some a) :
    ∃ l₁ l₂, l = l₁ ++ a :: l₂ ∧ ∀ b, l.set i b = l₁ ++ b :: l₂ := by
  obtain ⟨hi, rfl⟩ := List.getElem?_eq_some_iff.mp h
  refine ⟨l.take i, l.drop (i + 1), ?_,
    fun b => List.set_eq_take_append_cons_drop.trans (if_pos hi)⟩
  rw [List.getElem_cons_drop, List.take_append_drop]

/-- A worker that is not at its end comes to another point of its loop: the holder of
the mutex sees no difference. -/
theorem Placed.set {threads : List Worker} {control : Control} (h : Placed mSize threads control)
    {i : ℕ} {w : Worker} (hw : threads[i]? = some w) (hlive : w ≠ .stopped) (w' : Worker) :
    Placed mSize (threads.set i w') control := by
  have hne : threads ≠ [] := by
    rintro rfl
    cases hw
  cases control with
  | free => exact Or.inr (by rw [List.length_set]; exact h.resolve_left hne)
  | starting => exact (List.length_set ..).le.trans h
  | stopping k => exact ⟨(List.length_set ..).trans h.1, h.2⟩
  | joining j =>
      refine ⟨(List.length_set ..).trans h.1, h.2.1, fun k hk => ?_⟩
      have hstopped := h.2.2 k hk
      have hki : i ≠ k := by
        rintro rfl
        rw [hw] at hstopped
        exact hlive (Option.some.inj hstopped)
      rw [List.getElem?_set_ne hki, hstopped]

theorem count_set {threads : List Worker} {i : ℕ} {w : Worker} (hw : threads[i]? = some w)
    (w' : Worker) :
    (threads.set i w').count .stopped + (if w = .stopped then 1 else 0) =
      threads.count .stopped + if w' = .stopped then 1 else 0 := by
  obtain ⟨l₁, l₂, hsplit, hset⟩ := exists_split hw
  rw [hset, hsplit, List.count_append, List.count_append, List.count_cons, List.count_cons]
  simp only [beq_iff_eq]
  omega

theorem running_set {threads : List Worker} {i : ℕ} {w : Worker} (hw : threads[i]? = some w)
    (w' : Worker) :
    List.Perm (w.task.toList ++ (threads.set i w').filterMap Worker.task)
      (w'.task.toList ++ threads.filterMap Worker.task) := by
  obtain ⟨l₁, l₂, hsplit, hset⟩ := exists_split hw
  have hcons : ∀ w : Worker, (w :: l₂).filterMap Worker.task =
      w.task.toList ++ l₂.filterMap Worker.task := by
    rintro (_ | _ | _) <;> rfl
  rw [hset, hsplit, List.filterMap_append, List.filterMap_append, hcons, hcons]
  calc
    List.Perm (w.task.toList ++ (l₁.filterMap Worker.task ++
          (w'.task.toList ++ l₂.filterMap Worker.task)))
        (w.task.toList ++ (w'.task.toList ++
          (l₁.filterMap Worker.task ++ l₂.filterMap Worker.task))) :=
      List.perm_append_comm_assoc .. |>.append_left _
    List.Perm _ (w'.task.toList ++ (w.task.toList ++
          (l₁.filterMap Worker.task ++ l₂.filterMap Worker.task))) :=
      List.perm_append_comm_assoc ..
    List.Perm _ (w'.task.toList ++ (l₁.filterMap Worker.task ++
          (w.task.toList ++ l₂.filterMap Worker.task))) :=
      List.perm_append_comm_assoc .. |>.append_left _

/-- What `Pop` by a worker does. -/
theorem pop_cases {i : ℕ} (hstep : step mSize s (.pop i) = some s') :
    s.mThreads[i]? = some .popping ∧ ∃ h q, s.mPcQueue = h :: q ∧ s' = s.popped i h q := by
  simp only [step] at hstep
  split at hstep
  swap
  · cases hstep
  rename_i hi
  refine ⟨hi, ?_⟩
  cases hq : s.mPcQueue with
  | nil =>
      rw [hq] at hstep
      cases hstep
  | cons h q =>
      rw [hq] at hstep
      obtain rfl := Option.some.inj hstep
      exact ⟨h, q, rfl, rfl⟩

theorem Flow.pop (h : Flow mSize s) {i : ℕ} (hstep : step mSize s (.pop i) = some s') :
    Flow mSize s' := by
  obtain ⟨horder, hbegun, hsentinels, hplaced⟩ := h
  obtain ⟨hi, t, q, hqueue, rfl⟩ := pop_cases hstep
  rw [hqueue] at horder hsentinels
  cases t with
  | none =>
      have hcount := count_set hi .stopped
      have hrunning := running_set hi .stopped
      refine ⟨horder, (hrunning.append_left _).trans hbegun, ?_, hplaced.set hi (by decide) _⟩
      rw [List.count_cons_self] at hsentinels
      simp only [State.popped, List.length_set] at hcount ⊢
      simp only [reduceCtorEq, if_false, if_true] at hcount
      omega
  | some task =>
      have hcount := count_set hi (.running task)
      have hrunning := running_set hi (.running task)
      refine ⟨?_, ?_, ?_, hplaced.set hi (by decide) _⟩
      · rw [List.reduceOption_cons_of_some] at horder
        simpa [State.popped] using horder
      · calc
          List.Perm (s.finished ++ (s.mThreads.set i (.running task)).filterMap Worker.task)
              (s.finished ++ (task :: s.running)) := hrunning.append_left _
          List.Perm _ (task :: (s.finished ++ s.running)) := List.perm_middle
          List.Perm _ (task :: s.started) := hbegun.cons task
          List.Perm _ (s.started ++ [task]) := (List.perm_append_singleton ..).symm
      · rw [List.count_cons_of_ne (by simp)] at hsentinels
        simp only [State.popped, List.length_set]
        simp only [reduceCtorEq, if_false] at hcount
        omega

theorem Flow.finish (h : Flow mSize s) {i : ℕ} (hstep : step mSize s (.finish i) = some s') :
    Flow mSize s' := by
  obtain ⟨horder, hbegun, hsentinels, hplaced⟩ := h
  simp only [step] at hstep
  split at hstep <;> cases hstep
  rename_i task hi
  have hcount := count_set hi .popping
  have hrunning := running_set hi .popping
  refine ⟨horder, ?_, ?_, hplaced.set hi (by simp) _⟩
  · calc
      List.Perm (s.finished ++ [task] ++ (s.mThreads.set i .popping).filterMap Worker.task)
          (s.finished ++ (task :: (s.mThreads.set i .popping).filterMap Worker.task)) := by
        rw [List.append_assoc]
        rfl
      List.Perm _ (s.finished ++ s.running) := hrunning.append_left _
      List.Perm _ s.started := hbegun
  · simp only [reduceCtorEq, if_false] at hcount
    simp only [List.length_set]
    omega

/-- The threads and the holder of the mutex when all workers have been joined. -/
theorem Flow.all_stopped (h : Flow mSize s) {j : ℕ} (hcontrol : s.control = .joining j)
    (hj : s.mThreads.length ≤ j) :
    s.mThreads = List.replicate mSize .stopped ∧ s.mPcQueue.count none = 0 := by
  have hplaced := h.placed
  have hsentinels := h.sentinels
  rw [hcontrol] at hplaced hsentinels
  obtain ⟨hlen, -, hjoined⟩ := hplaced
  have hall : s.mThreads = List.replicate mSize .stopped := by
    rw [List.eq_replicate_iff]
    refine ⟨hlen, fun w hw => ?_⟩
    obtain ⟨k, hk, rfl⟩ := List.getElem_of_mem hw
    have hstopped := hjoined k (by omega)
    rw [List.getElem?_eq_getElem hk] at hstopped
    exact Option.some.inj hstopped
  refine ⟨hall, ?_⟩
  rw [hall, List.count_replicate_self, List.length_replicate] at hsentinels
  simp only [Control.sentinels] at hsentinels
  omega

theorem Flow.step (h : Flow mSize s) {a : Event} (hstep : ThreadPool.step mSize s a = some s') :
    Flow mSize s' := by
  cases a with
  | pop i => exact h.pop hstep
  | finish i => exact h.finish hstep
  | pushTask empty =>
      obtain ⟨horder, hbegun, hsentinels, hplaced⟩ := h
      simp only [ThreadPool.step] at hstep
      split at hstep <;> cases hstep
      · exact ⟨horder, hbegun, hsentinels, hplaced⟩
      · refine ⟨?_, hbegun, ?_, hplaced⟩
        · rw [PCQueue.push, List.reduceOption_append, ← List.append_assoc, horder, List.range_succ]
          rfl
        · simpa [PCQueue.push] using hsentinels
  | start =>
      simp only [ThreadPool.step] at hstep
      split at hstep
      swap
      · cases hstep
      rename_i hfree
      split at hstep <;> cases hstep
      · exact h
      · rename_i hnone
        obtain ⟨horder, hbegun, hsentinels, -⟩ := h
        rw [hfree] at hsentinels
        rw [not_not] at hnone
        exact ⟨horder, hbegun, hsentinels, by simp [hnone, Placed]⟩
  | create =>
      obtain ⟨horder, hbegun, hsentinels, hplaced⟩ := h
      simp only [ThreadPool.step] at hstep
      split at hstep <;> cases hstep
      rename_i hguard
      rw [hguard.1] at hsentinels
      refine ⟨horder, ?_, ?_, ?_⟩
      · have hnew : (s.mThreads ++ [Worker.popping]).filterMap Worker.task = s.running := by
          rw [List.filterMap_append]
          exact List.append_nil _
        show (s.finished ++ (s.mThreads ++ [Worker.popping]).filterMap Worker.task).Perm s.started
        rw [hnew]
        exact hbegun
      · rw [hguard.1]
        simpa [Control.sentinels] using hsentinels
      · rw [hguard.1]
        exact (List.length_append ..).trans_le hguard.2
  | startReturns =>
      obtain ⟨horder, hbegun, hsentinels, hplaced⟩ := h
      simp only [ThreadPool.step] at hstep
      split at hstep <;> cases hstep
      rename_i hguard
      rw [hguard.1] at hsentinels hplaced
      exact ⟨horder, hbegun, hsentinels, Or.inr (Nat.le_antisymm hplaced hguard.2)⟩
  | stop =>
      simp only [ThreadPool.step] at hstep
      split at hstep
      swap
      · cases hstep
      rename_i hfree
      split at hstep <;> cases hstep
      · exact h
      · rename_i hsome
        obtain ⟨horder, hbegun, hsentinels, hplaced⟩ := h
        rw [hfree] at hsentinels hplaced
        exact ⟨horder, hbegun, hsentinels, hplaced.resolve_left hsome, Nat.zero_le _⟩
  | pushSentinel =>
      obtain ⟨horder, hbegun, hsentinels, hplaced⟩ := h
      simp only [ThreadPool.step] at hstep
      split at hstep
      swap
      · cases hstep
      rename_i k hcontrol
      split at hstep <;> cases hstep
      rename_i hk
      rw [hcontrol] at hsentinels hplaced
      refine ⟨?_, hbegun, ?_, hplaced.1, hplaced.1 ▸ hk⟩
      · rw [PCQueue.push, List.reduceOption_append]
        simpa using horder
      · rw [PCQueue.push, List.count_append, List.count_singleton_self]
        simp only [Control.sentinels] at hsentinels ⊢
        omega
  | sentinelsPushed =>
      obtain ⟨horder, hbegun, hsentinels, hplaced⟩ := h
      simp only [ThreadPool.step] at hstep
      split at hstep
      swap
      · cases hstep
      rename_i k hcontrol
      split at hstep <;> cases hstep
      rename_i hk
      rw [hcontrol] at hsentinels hplaced
      have hall : k = s.mThreads.length := Nat.le_antisymm (hplaced.1 ▸ hplaced.2) hk
      refine ⟨horder, hbegun, hsentinels.trans hall, hplaced.1, Nat.zero_le _, fun i hi => ?_⟩
      exact absurd hi (Nat.not_lt_zero i)
  | join =>
      obtain ⟨horder, hbegun, hsentinels, hplaced⟩ := h
      simp only [ThreadPool.step] at hstep
      split at hstep
      swap
      · cases hstep
      rename_i j hcontrol
      split at hstep <;> cases hstep
      rename_i hstopped
      rw [hcontrol] at hsentinels hplaced
      obtain ⟨hlen, -, hjoined⟩ := hplaced
      have hlt : j < s.mThreads.length := (List.getElem?_eq_some_iff.mp hstopped).1
      refine ⟨horder, hbegun, hsentinels, hlen, hlen ▸ hlt, fun i hi => ?_⟩
      rcases Nat.lt_succ_iff_lt_or_eq.mp hi with hij | rfl
      · exact hjoined i hij
      · exact hstopped
  | stopReturns =>
      simp only [ThreadPool.step] at hstep
      split at hstep
      swap
      · cases hstep
      rename_i j hcontrol
      split at hstep <;> cases hstep
      rename_i hj
      obtain ⟨hall, hnone⟩ := h.all_stopped hcontrol hj
      obtain ⟨horder, hbegun, -, -⟩ := h
      refine ⟨horder, ?_, by simpa [Control.sentinels] using hnone, Or.inl rfl⟩
      have hidle : s.running = [] := by simp [State.running, hall, Worker.task]
      rw [hidle] at hbegun
      exact hbegun

theorem flow_run {es : List Event} (hrun : Machine.run (ThreadPool.step mSize) {} es = some s) :
    Flow mSize s :=
  Machine.run_invariant (fun _ _ _ h hstep => h.step hstep) (flow_init mSize) hrun

/-! ### The end of a `Stop` -/

/-- `Stop` has pushed its last sentinel when `pushed` tasks had been pushed. What is
in the queue ahead of the later tasks ends with that sentinel. -/
def Sealed (pushed : ℕ) (s : State) : Prop :=
  pushed ≤ s.pushed ∧ ∃ ahead : List (Option ℕ),
    s.mPcQueue = ahead ++ (List.range' pushed (s.pushed - pushed)).map some ∧
      (ahead = [] ∨ ∃ rest, ahead = rest ++ [none])

/-- From the push of sentinel `last` on, as long as `Stop` has neither pushed another
one nor returned: it was not the last one, or the queue is sealed. -/
structure Ending (mSize pushed last : ℕ) (s : State) : Prop where
  flow : Flow mSize s
  control : s.control = .stopping last ∧ last < mSize ∨
    last = mSize ∧ (s.control = .stopping mSize ∨ ∃ j, s.control = .joining j) ∧ Sealed pushed s

variable {k last : ℕ}

theorem count_none_map_some (l : List ℕ) : (l.map some).count none = 0 :=
  List.count_eq_zero.mpr (by simp)

theorem Sealed.push (h : Sealed k s) : Sealed k
    { s with mPcQueue := PCQueue.push s.mPcQueue (some s.pushed), pushed := s.pushed + 1 } := by
  obtain ⟨hle, ahead, hqueue, hlast⟩ := h
  refine ⟨Nat.le_succ_of_le hle, ahead, ?_, hlast⟩
  have hlen : s.pushed + 1 - k = s.pushed - k + 1 := by omega
  have hnext : k + (s.pushed - k) = s.pushed := by omega
  rw [PCQueue.push, hqueue, hlen, List.range'_concat, List.map_append, List.append_assoc]
  simp [hnext]

/-- A worker that pops finds what is ahead of the later tasks: while there is a worker
left, there is a sentinel for it. -/
theorem Sealed.pop (h : Sealed k s) (hflow : Flow mSize s)
    (hall : s.control.sentinels s.mThreads.length = s.mThreads.length) {i : ℕ}
    (hstep : step mSize s (.pop i) = some s') : Sealed k s' := by
  obtain ⟨hle, ahead, hqueue, hlast⟩ := h
  obtain ⟨hi, t, q, htq, rfl⟩ := pop_cases hstep
  have hcount : s.mThreads.count .stopped < s.mThreads.length := by
    refine lt_of_le_of_ne List.count_le_length fun heq => ?_
    have := List.count_eq_length.mp heq _ (List.mem_of_getElem? hi)
    cases this
  have hsentinels := hflow.sentinels
  rw [hall] at hsentinels
  have hsome : ahead ≠ [] := by
    rintro rfl
    rw [hqueue, List.nil_append, count_none_map_some] at hsentinels
    omega
  obtain ⟨rest, rfl⟩ := hlast.resolve_left hsome
  rw [htq] at hqueue
  have hpushed : (s.popped i t q).pushed = s.pushed ∧ (s.popped i t q).mPcQueue = q := by
    cases t <;> exact ⟨rfl, rfl⟩
  rw [Sealed, hpushed.1, hpushed.2]
  cases rest with
  | nil => exact ⟨hle, [], (List.cons.inj hqueue).2, Or.inl rfl⟩
  | cons r rest => exact ⟨hle, rest ++ [none], (List.cons.inj hqueue).2, Or.inr ⟨rest, rfl⟩⟩

/-- When no sentinel is left, exactly the tasks pushed before the last one have been
begun, and the others are still in the queue. -/
theorem Sealed.drained (h : Sealed k s) (hflow : Flow mSize s)
    (hnone : s.mPcQueue.count none = 0) :
    s.started = List.range k ∧
      s.mPcQueue = (List.range' k (s.pushed - k)).map some := by
  obtain ⟨hle, ahead, hqueue, hlast⟩ := h
  have hempty : ahead = [] := by
    refine hlast.resolve_right ?_
    rintro ⟨rest, rfl⟩
    rw [hqueue] at hnone
    simp [List.count_append] at hnone
  rw [hempty, List.nil_append] at hqueue
  refine ⟨?_, hqueue⟩
  have horder := hflow.order
  have hrange : List.range s.pushed = List.range k ++ List.range' k (s.pushed - k) := by
    have happend := List.range'_append_1 (s := 0) (m := k) (n := s.pushed - k)
    rw [Nat.zero_add, Nat.add_sub_cancel' hle] at happend
    rw [List.range_eq_range', List.range_eq_range', happend]
  have htasks : ((List.range' k (s.pushed - k)).map some).reduceOption =
      List.range' k (s.pushed - k) := by simp [List.reduceOption]
  rw [hqueue, hrange, htasks] at horder
  exact List.append_cancel_right horder

/-- The events of other threads, and the steps of `Stop` between its last sentinel and
its return. -/
def Event.AfterSentinel : Event → Prop
  | .pushSentinel | .stopReturns => False
  | .pushTask _ | .start | .create | .startReturns | .stop | .sentinelsPushed | .join | .pop _
  | .finish _ => True

theorem Ending.step (h : Ending mSize k last s) {a : Event} (ha : a.AfterSentinel)
    (hstep : ThreadPool.step mSize s a = some s') : Ending mSize k last s' := by
  refine ⟨h.flow.step hstep, ?_⟩
  obtain ⟨hflow, hcontrol⟩ := h
  have hbusy : s.control ≠ .free ∧ s.control ≠ .starting := by
    rcases hcontrol with ⟨hk, -⟩ | ⟨-, hk | ⟨j, hk⟩, -⟩ <;> simp [hk]
  cases a with
  | pushSentinel | stopReturns => exact ha.elim
  | start | stop =>
      simp only [ThreadPool.step] at hstep
      rw [if_neg hbusy.1] at hstep
      cases hstep
  | create | startReturns =>
      simp only [ThreadPool.step] at hstep
      rw [if_neg (fun h => hbusy.2 h.1)] at hstep
      cases hstep
  | pushTask empty =>
      simp only [ThreadPool.step] at hstep
      split at hstep <;> cases hstep
      · exact hcontrol
      · exact hcontrol.imp_right fun h => ⟨h.1, h.2.1, h.2.2.push⟩
  | sentinelsPushed =>
      simp only [ThreadPool.step] at hstep
      split at hstep
      swap
      · cases hstep
      rename_i pushed hpushed
      split at hstep <;> cases hstep
      rename_i hlen
      have hplaced := hflow.placed
      rw [hpushed] at hplaced hcontrol
      have hsize : mSize ≤ pushed := hplaced.1 ▸ hlen
      rcases hcontrol with ⟨hl, hlt⟩ | ⟨hlast, -, hsealed⟩
      · cases hl
        exact absurd hsize (Nat.not_le_of_lt hlt)
      · exact Or.inr ⟨hlast, Or.inr ⟨0, rfl⟩, hsealed⟩
  | join =>
      simp only [ThreadPool.step] at hstep
      split at hstep
      swap
      · cases hstep
      rename_i j hj
      split at hstep <;> cases hstep
      rw [hj] at hcontrol
      rcases hcontrol with ⟨hl, -⟩ | ⟨hlast, -, hsealed⟩
      · cases hl
      · exact Or.inr ⟨hlast, Or.inr ⟨j + 1, rfl⟩, hsealed⟩
  | pop i =>
      obtain ⟨-, t, q, -, rfl⟩ := pop_cases hstep
      have hsame : (s.popped i t q).control = s.control := by cases t <;> rfl
      rw [hsame]
      refine hcontrol.imp_right fun h => ⟨h.1, h.2.1, h.2.2.pop hflow ?_ hstep⟩
      have hplaced := hflow.placed
      rcases h.2.1 with hstop | ⟨j, hjoin⟩
      · rw [hstop] at hplaced ⊢
        exact hplaced.1.symm
      · rw [hjoin]
        rfl
  | finish i =>
      simp only [ThreadPool.step] at hstep
      split at hstep <;> cases hstep
      exact hcontrol

theorem Flow.pushSentinel (h : Flow mSize s)
    (hstep : ThreadPool.step mSize s .pushSentinel = some s') :
    ∃ last, s'.control = .stopping last ∧ Ending mSize s.pushed last s' := by
  have hflow := h.step hstep
  have hplaced := h.placed
  simp only [ThreadPool.step] at hstep
  split at hstep
  swap
  · cases hstep
  rename_i k hcontrol
  split at hstep <;> cases hstep
  rename_i hk
  rw [hcontrol] at hplaced
  refine ⟨k + 1, rfl, hflow, ?_⟩
  rcases Nat.lt_or_ge (k + 1) mSize with hlt | hge
  · exact Or.inl ⟨rfl, hlt⟩
  · have hlast : k + 1 = mSize := Nat.le_antisymm (hplaced.1 ▸ hk) hge
    refine Or.inr ⟨hlast, Or.inl (congrArg _ hlast), Nat.le_refl _, s.mPcQueue ++ [none], ?_,
      Or.inr ⟨_, rfl⟩⟩
    simp [PCQueue.push]

/-- What `Stop` leaves behind, when `pushed` tasks had been pushed before its last
sentinel; `t` is the state just before it returns. -/
structure Drained (mSize pushed : ℕ) (t s : State) : Prop where
  stopped : t.mThreads = List.replicate mSize .stopped
  executed : s.finished.Perm (List.range pushed)
  begun : s.started = List.range pushed
  left : s.mPcQueue = (List.range' pushed (s.pushed - pushed)).map some

theorem Ending.drained {t : State} (h : Ending mSize k last t)
    (hstep : ThreadPool.step mSize t .stopReturns = some s) :
    last = mSize ∧ Drained mSize k t s := by
  have hflow := h.flow.step hstep
  simp only [ThreadPool.step] at hstep
  split at hstep
  swap
  · cases hstep
  rename_i j hcontrol
  split at hstep <;> cases hstep
  rename_i hj
  obtain ⟨hall, hnone⟩ := h.flow.all_stopped hcontrol hj
  obtain ⟨hlast, hsealed⟩ : last = mSize ∧ Sealed k t := by
    rcases h.control with ⟨hl, -⟩ | ⟨hlast, -, hsealed⟩
    · rw [hcontrol] at hl
      cases hl
    · exact ⟨hlast, hsealed⟩
  obtain ⟨hstarted, hqueue⟩ := hsealed.drained h.flow hnone
  have hexecuted : t.finished.Perm (List.range k) := by
    have hbegun := hflow.begun
    rw [← hstarted]
    simpa [State.running] using hbegun
  exact ⟨hlast, hall, hexecuted, hstarted, hqueue⟩

/-! ### Workers left to themselves -/

/-- A step of a worker. -/
def Event.Work : Event → Prop
  | .pop _ | .finish _ => True
  | .pushTask _ | .start | .create | .startReturns | .stop | .pushSentinel | .sentinelsPushed
  | .join | .stopReturns => False

/-- What the workers have still to do. -/
def State.work (s : State) : ℕ := 2 * s.mPcQueue.length + s.running.length

theorem work_lt {a : Event} (ha : a.Work) (hstep : step mSize s a = some s') :
    s'.work < s.work := by
  cases a with
  | pop i =>
      obtain ⟨hi, t, q, hqueue, rfl⟩ := pop_cases hstep
      cases t with
      | none =>
          have hlen := (running_set hi .stopped).length_eq
          simp only [Worker.task, Option.toList_none, List.nil_append] at hlen
          simp only [State.work, State.popped, State.running, hqueue, List.length_cons, hlen]
          omega
      | some task =>
          have hlen := (running_set hi (.running task)).length_eq
          simp only [Worker.task, Option.toList_none, Option.toList_some, List.nil_append,
            List.cons_append, List.length_cons] at hlen
          simp only [State.work, State.popped, State.running, hqueue, List.length_cons, hlen]
          omega
  | finish i =>
      simp only [step] at hstep
      split at hstep <;> cases hstep
      rename_i task hi
      have hlen := (running_set hi .popping).length_eq
      simp only [Worker.task, Option.toList_none, Option.toList_some, List.nil_append,
        List.cons_append, List.length_cons] at hlen
      simp only [State.work, State.running]
      omega
  | pushTask | start | create | startReturns | stop | pushSentinel | sentinelsPushed | join
  | stopReturns => exact ha.elim

/-- In a pool that runs, workers that have come to rest have executed every task. -/
theorem Flow.executed (h : Flow mSize s) (hfree : s.control = .free) (hrun : s.mThreads ≠ [])
    (hrest : ∀ a : Event, a.Work → ThreadPool.step mSize s a = none) :
    s.mPcQueue = [] ∧ s.finished.Perm (List.range s.pushed) := by
  have hsentinels := h.sentinels
  rw [hfree] at hsentinels
  -- No worker has stopped, and none runs a task, so all wait for the queue.
  have hpopping : ∀ w ∈ s.mThreads, w = .popping := by
    intro w hw
    obtain ⟨i, hi, rfl⟩ := List.getElem_of_mem hw
    have hget := List.getElem?_eq_getElem hi
    cases hcase : s.mThreads[i] with
    | popping => rfl
    | running task =>
        have hnone := hrest (.finish i) trivial
        rw [hcase] at hget
        simp [ThreadPool.step, hget] at hnone
    | stopped =>
        have hpos : 0 < s.mThreads.count .stopped := List.count_pos_iff.mpr (hcase ▸ hw)
        simp only [Control.sentinels] at hsentinels
        omega
  have hempty : s.mPcQueue = [] := by
    obtain ⟨w, ws, hthreads⟩ := List.exists_cons_of_ne_nil hrun
    have hget : s.mThreads[0]? = some .popping := by
      rw [hthreads, List.getElem?_cons_zero, hpopping w (by simp [hthreads])]
    have hnone := hrest (.pop 0) trivial
    cases hqueue : s.mPcQueue with
    | nil => rfl
    | cons t q => simp [ThreadPool.step, hget, hqueue, PCQueue.pop] at hnone
  have hidle : s.running = [] := by
    rw [State.running, List.filterMap_eq_nil_iff]
    intro w hw
    rw [hpopping w hw]
    rfl
  have horder := h.order
  have hbegun := h.begun
  rw [hempty, List.reduceOption_nil, List.append_nil] at horder
  rw [hidle, List.append_nil, horder] at hbegun
  exact ⟨hempty, hbegun⟩

/-- **The thread pool runs every task once, and `Stop` drains it.** No task is begun
twice. When `Stop` returns, the workers have consumed its `mSize` sentinels, exactly
the tasks pushed before the last of them have been executed, and the others are queued
in order; no sentinel is ever left. The workers of a running pool come to rest only
when every task has been executed, and after no more steps than the queue allows. -/
theorem run_threadPool {es : List Event} (hrun : Machine.run (step mSize) {} es = some s) :
    (s.started.Nodup ∧ s.finished.Nodup ∧ s.finished ⊆ s.started) ∧
    (s.control = .free → none ∉ s.mPcQueue) ∧
    (∀ es₁ es₂, es = es₁ ++ .pushSentinel :: es₂ ++ [.stopReturns] →
      (∀ a ∈ es₂, a.AfterSentinel) →
      ∃ s₁ s₂ t, Machine.run (step mSize) {} es₁ = some s₁ ∧
        step mSize s₁ .pushSentinel = some s₂ ∧ Machine.run (step mSize) s₂ es₂ = some t ∧
        s₂.control = .stopping mSize ∧ Drained mSize s₁.pushed t s) ∧
    (s.control = .free → s.mThreads ≠ [] →
      (∀ a : Event, a.Work → step mSize s a = none) →
      s.mPcQueue = [] ∧ s.finished.Perm (List.range s.pushed)) ∧
    (∀ ws t, (∀ a ∈ ws, Event.Work a) → Machine.run (step mSize) s ws = some t →
      ws.length ≤ s.work) := by
  have hflow := flow_run hrun
  refine ⟨?_, fun hfree => ?_, ?_, hflow.executed, fun ws t hws hrest => ?_⟩
  · have hstarted : s.started.Nodup := by
      have hnodup : (List.range s.pushed).Nodup := List.nodup_range
      rw [← hflow.order] at hnodup
      exact (List.nodup_append.mp hnodup).1
    have hfinished := hflow.begun.nodup_iff.mpr hstarted
    exact ⟨hstarted, (List.nodup_append.mp hfinished).1, fun k hk =>
      hflow.begun.mem_iff.mp (List.mem_append_left _ hk)⟩
  · have hsentinels := hflow.sentinels
    rw [hfree] at hsentinels
    exact List.count_eq_zero.mp (Nat.add_eq_zero_iff.mp hsentinels).1
  · rintro es₁ es₂ rfl hafter
    obtain ⟨t, hrun₁, hreturn⟩ := (Machine.run_concat_eq_some _).mp hrun
    obtain ⟨s₁, hs₁, hrest⟩ := (Machine.run_append_eq_some _).mp hrun₁
    obtain ⟨s₂, hs₂, ht⟩ := (Machine.run_cons_eq_some _).mp hrest
    obtain ⟨last, hlast, hending⟩ := (flow_run hs₁).pushSentinel hs₂
    have hending' : Ending mSize s₁.pushed last t :=
      Machine.run_invariant_of_forall (fun _ _ _ ha h hstep => h.step ha hstep) hafter hending ht
    obtain ⟨rfl, hdrained⟩ := hending'.drained hreturn
    exact ⟨s₁, s₂, t, hs₁, hs₂, ht, hlast, hdrained⟩
  · exact Machine.length_le_of_run State.work (fun _ _ _ ha hstep => work_lt ha hstep) hws hrest

/-- Two workers and three tasks, one of them pushed between the sentinels and one behind
them. -/
theorem run_threadPool_two :
    ∃ s, Machine.run (step 2) {} ([.pushTask false, .start, .create, .create, .startReturns,
        .pop 1, .stop, .pushSentinel, .pushTask false] ++ .pushSentinel :: [.pushTask false,
        .pop 0, .finish 1, .pop 1, .sentinelsPushed, .join, .finish 1, .pop 1, .join] ++
        [.stopReturns]) = some s ∧
      ∃ s₁ s₂ t, Machine.run (step 2) {} [.pushTask false, .start, .create, .create,
          .startReturns, .pop 1, .stop, .pushSentinel, .pushTask false] = some s₁ ∧
        step 2 s₁ .pushSentinel = some s₂ ∧ Machine.run (step 2) s₂ [.pushTask false, .pop 0,
          .finish 1, .pop 1, .sentinelsPushed, .join, .finish 1, .pop 1, .join] = some t ∧
        s₂.control = .stopping 2 ∧ Drained 2 s₁.pushed t s := by
  obtain ⟨s, hrun⟩ : ∃ s, Machine.run (step 2) {} ([.pushTask false, .start, .create, .create,
      .startReturns, .pop 1, .stop, .pushSentinel, .pushTask false] ++ .pushSentinel ::
      [.pushTask false, .pop 0, .finish 1, .pop 1, .sentinelsPushed, .join, .finish 1, .pop 1,
      .join] ++ [.stopReturns]) = some s := ⟨_, rfl⟩
  exact ⟨s, hrun, (run_threadPool hrun).2.2.1 _ _ rfl (by simp [Event.AfterSentinel])⟩

end ThreadPool

end Tt3d.Thread
