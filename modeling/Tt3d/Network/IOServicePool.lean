import Tt3d.Lib.MachineInt
import Tt3d.Lib.RoundRobin
import Tt3d.Thread.ThreadPool

/-!
`IOServicePool`: `Start`, `Stop` and `GetIOService`, and the threads that run the services.

A service is named by its place in `mIOServices`. Each task of the thread pool is
`IOService::run` of one service, which does not return while the service has work. The
sections of `Start` and `Stop` go on while the threads take their tasks, with `mMutex`
held. Both numbers are given as `size_t` and stored into an `int`.
-/

namespace Tt3d.Network.IOServicePool

open MachineInt (toInt)
open RoundRobin (turns Share)
open Thread

/-- Who holds `mMutex` for longer. -/
inductive Holder
  | free
  | starting
  | stopping
  deriving DecidableEq, Repr

structure State where
  mIOServices : List ℕ := []
  /-- The services of the works; a work that has been reset has none. -/
  mWork : List (Option ℕ) := []
  mNextIOService : ℕ := 0
  mThreadPool : ThreadPool.State := {}
  holder : Holder := .free
  /-- The services of the tasks pushed, in their order. -/
  tasks : List ℕ := []
  /-- What `GetIOService` has returned, in order. -/
  returned : List ℕ := []
  deriving DecidableEq, Repr

inductive Event
  | start
  | stop
  | getIOService
  /-- A step in `mThreadPool`, by the holder of `mMutex` or by a thread of the pool. -/
  | pool (a : ThreadPool.Event)
  deriving DecidableEq, Repr

/-- The service of worker `i` has work. -/
def State.hasWork (s : State) (i : ℕ) : Bool :=
  match ((s.mThreadPool.mThreads[i]?).bind ThreadPool.Worker.task).bind
      fun task => s.tasks[task]? with
  | some service => some service ∈ s.mWork
  | none => false

def State.withPool (s : State) (pool : ThreadPool.State) : State := { s with mThreadPool := pool }

/-- The section of `Start` up to the start of `mThreadPool`. With a negative number of
services the first loop would run for about 2^64 turns, and with none of them
`mIOServices[ k ]` is undefined; with a negative number of threads `reserve` throws, and
what has been done by then stays. -/
def State.start (mNumIOServices mNumThreads : ℤ) (s : State) : Option State :=
  if s.mWork ≠ [] then some s
  else if s.mIOServices ≠ [] ∨ mNumIOServices < 0 ∨ mNumIOServices = 0 ∧ 0 < mNumThreads then none
  else
    let services := turns mNumIOServices.toNat mNumThreads.toNat 0
    (Machine.run (ThreadPool.step mNumThreads.toNat) s.mThreadPool
      (List.replicate mNumThreads.toNat (.pushTask false) ++ [.start])).map fun pool =>
        { s with
          mIOServices := List.range mNumIOServices.toNat
          mWork := services.map some
          mThreadPool := pool
          holder := .starting
          tasks := s.tasks ++ services }

def State.getIOService (s : State) : Option State :=
  (s.mIOServices[s.mNextIOService]?).map fun service =>
    { s with
      mNextIOService :=
        if s.mNextIOService + 1 = s.mIOServices.length then 0 else s.mNextIOService + 1
      returned := s.returned ++ [service] }

/-- The pool of `n` services and `t` threads. -/
def step (n t : ℕ) (s : State) : Event → Option State
  | .start => if s.holder = .free then s.start (toInt n) (toInt t) else none
  | .stop =>
      if s.holder = .free then
        if s.mWork = [] then some s
        else
          (ThreadPool.step (toInt t).toNat s.mThreadPool .stop).map fun pool =>
            { s with mWork := s.mWork.map fun _ => none, mThreadPool := pool, holder := .stopping }
      else none
  | .getIOService => if s.holder = .free then s.getIOService else none
  | .pool a =>
      let next := ThreadPool.step (toInt t).toNat s.mThreadPool a
      match a with
      | .create => if s.holder = .starting then next.map s.withPool else none
      | .startReturns =>
          if s.holder = .starting then
            next.map fun pool => { s.withPool pool with holder := .free }
          else none
      | .pushSentinel | .sentinelsPushed | .join =>
          if s.holder = .stopping then next.map s.withPool else none
      | .stopReturns =>
          if s.holder = .stopping then
            next.map fun pool =>
              { s.withPool pool with mIOServices := [], mWork := [], holder := .free }
          else none
      | .pop _ => next.map s.withPool
      | .finish i => if s.hasWork i then none else next.map s.withPool
      | .pushTask _ | .start | .stop => none

/-- The threads that run service `j`, and its tasks that no thread has taken yet. -/
def State.assigned (s : State) (j : ℕ) : ℕ :=
  (s.mThreadPool.running ++ s.mThreadPool.mPcQueue.reduceOption).countP
    fun task => s.tasks[task]? = some j

/-- Every service of a running pool of `n` services and `t` threads is served. -/
structure Served (n t : ℕ) (s : State) : Prop where
  index : s.mNextIOService < s.mIOServices.length
  /-- The calls of `GetIOService` go around, whatever the threads do. -/
  selects : ∀ (es : List Event) (s' : State), Machine.run (step n t) s es = some s' →
    Event.stop ∉ es → ∃ services, s'.returned = s.returned ++ services ∧
      ∀ j ∈ s.mIOServices, Share n services.length (services.count j)
  runs : ∀ j ∈ s.mIOServices, Share n t (s.assigned j) ∧ 1 ≤ s.assigned j
  /-- A thread waits for every task that is queued. -/
  taken : s.mThreadPool.mPcQueue.length ≤ s.mThreadPool.mThreads.count .popping

/-! ### Where the pool is -/

variable {N T : ℕ} {n t j : ℕ} {s s' : State}

/-- The services run, or will be when `Start` is through. The tasks of the earlier periods
have been executed. -/
structure Running (N T : ℕ) (s : State) : Prop where
  services : s.mIOServices = List.range N
  work : s.mWork = (turns N T 0).map some
  pos : 0 < T → 0 < N
  tasks : ∃ base, s.mThreadPool.pushed = base + T ∧ s.tasks.drop base = turns N T 0 ∧
    s.mThreadPool.finished.Perm (List.range base)

structure Idle (N : ℕ) (s : State) : Prop where
  services : s.mIOServices = [] ∨ s.mIOServices = List.range N
  work : s.mWork = []
  control : s.mThreadPool.control = .free
  threads : s.mThreadPool.mThreads = []
  queue : s.mThreadPool.mPcQueue = []

/-- What is known at each point of `Start` and `Stop`. -/
def At (N T : ℕ) (s : State) : Holder → Prop
  | .free => Idle N s ∨
      0 < T ∧ Running N T s ∧ s.mThreadPool.control = .free ∧ s.mThreadPool.mThreads.length = T
  | .starting => Running N T s ∧ s.mThreadPool.control = .starting
  | .stopping => 0 < T ∧ s.mWork ≠ [] ∧
      (s.mThreadPool.control = .stopping 0 ∨
        ∃ last, ThreadPool.Ending T s.mThreadPool.pushed last s.mThreadPool)

structure Good (N T : ℕ) (s : State) : Prop where
  flow : ThreadPool.Flow T s.mThreadPool
  tasks : s.tasks.length = s.mThreadPool.pushed
  index : s.mNextIOService < N ∨ s.mNextIOService = 0
  position : At N T s s.holder

theorem good_init (N T : ℕ) : Good N T {} :=
  ⟨ThreadPool.flow_init T, rfl, Or.inr rfl, Or.inl ⟨Or.inl rfl, rfl, rfl, rfl, rfl⟩⟩

/-! ### The tasks of a running pool -/

theorem count_workers (threads : List ThreadPool.Worker) :
    threads.length = threads.count .popping + (threads.filterMap ThreadPool.Worker.task).length +
      threads.count .stopped := by
  induction threads with
  | nil => rfl
  | cons w threads ih =>
      rw [List.length_cons, ih, List.count_cons, List.count_cons, List.filterMap_cons]
      cases w <;> simp [ThreadPool.Worker.task] <;> omega

theorem length_reduceOption (q : List (Option ℕ)) :
    q.length = q.reduceOption.length + q.count none := by
  induction q with
  | nil => rfl
  | cons task q ih =>
      rw [List.length_cons, ih, List.count_cons]
      cases task <;> simp <;> omega

/-- Every task of the period is queued or is being executed. -/
theorem Running.perm (h : Running N T s) (hflow : ThreadPool.Flow T s.mThreadPool) :
    ∃ base, s.mThreadPool.pushed = base + T ∧ s.tasks.drop base = turns N T 0 ∧
      (s.mThreadPool.running ++ s.mThreadPool.mPcQueue.reduceOption).Perm
        (List.range' base T) := by
  obtain ⟨base, hpushed, hdrop, hfinished⟩ := h.tasks
  refine ⟨base, hpushed, hdrop, ?_⟩
  have horder := hflow.order
  have hrange : List.range (base + T) = List.range base ++ List.range' base T := by
    have happend := List.range'_append_1 (s := 0) (m := base) (n := T)
    rw [Nat.zero_add] at happend
    rw [List.range_eq_range', List.range_eq_range', happend]
  rw [hpushed, hrange] at horder
  have hall : (List.range base ++
      (s.mThreadPool.running ++ s.mThreadPool.mPcQueue.reduceOption)).Perm
      (List.range base ++ List.range' base T) := by
    rw [← horder, ← List.append_assoc]
    exact ((hfinished.symm.append_right _).trans hflow.begun).append_right _
  exact (List.perm_append_left_iff _).mp hall

theorem countP_range' {l : List ℕ} {base k : ℕ} (hlen : l.length = base + k) :
    (List.range' base k).countP (fun i => l[i]? = some j) = (l.drop base).count j := by
  have hmap : (List.range' base k).map (fun i => l[i]?) = (l.drop base).map some := by
    refine List.ext_getElem (by simp [hlen]) fun i hi hi' => ?_
    simp only [List.length_map, List.length_range', List.length_drop] at hi hi'
    simp [List.getElem?_eq_getElem (show base + i < l.length by omega)]
  have hcount := congrArg (List.countP fun o => decide (o = some j)) hmap
  rw [List.countP_map, List.countP_map] at hcount
  rw [List.count_eq_countP]
  refine hcount.trans (List.countP_congr fun k _ => ?_)
  simp

/-- **Who runs a service** is decided by the turns of `Start`. -/
theorem Running.assigned_eq (h : Running N T s) (hgood : Good N T s) :
    s.assigned j = (turns N T 0).count j := by
  obtain ⟨base, hpushed, hdrop, hperm⟩ := h.perm hgood.flow
  rw [State.assigned, hperm.countP_eq, countP_range' (hgood.tasks.trans hpushed), hdrop]

theorem Running.taken (h : Running N T s) (hgood : Good N T s)
    (hcontrol : s.mThreadPool.control = .free) (hlen : s.mThreadPool.mThreads.length = T) :
    s.mThreadPool.mPcQueue.length ≤ s.mThreadPool.mThreads.count .popping := by
  obtain ⟨base, -, -, hperm⟩ := h.perm hgood.flow
  have hall := hperm.length_eq
  have hsentinels := hgood.flow.sentinels
  have hworkers := count_workers s.mThreadPool.mThreads
  have hqueue := length_reduceOption s.mThreadPool.mPcQueue
  rw [List.length_append, List.length_range', ThreadPool.State.running] at hall
  rw [hcontrol] at hsentinels
  simp only [ThreadPool.Control.sentinels] at hsentinels
  omega

/-- As long as the services have work, no thread comes back from `run`. -/
theorem Running.hasWork (h : Running N T s) (hgood : Good N T s) {i task : ℕ}
    (hi : s.mThreadPool.mThreads[i]? = some (.running task)) : s.hasWork i = true := by
  obtain ⟨base, hpushed, hdrop, hperm⟩ := h.perm hgood.flow
  have hrunning : task ∈ s.mThreadPool.running :=
    List.mem_filterMap.mpr ⟨_, List.mem_of_getElem? hi, rfl⟩
  have hrange := hperm.mem_iff.mp (List.mem_append_left _ hrunning)
  rw [List.mem_range'_1] at hrange
  have hlt : task < s.tasks.length := by
    rw [hgood.tasks]
    omega
  have hmem : s.tasks[task] ∈ turns N T 0 := by
    rw [← hdrop, List.mem_iff_getElem]
    refine ⟨task - base, ?_, ?_⟩
    · rw [List.length_drop]
      omega
    · rw [List.getElem_drop]
      congr 1
      omega
  have hservice : ((s.mThreadPool.mThreads[i]?).bind ThreadPool.Worker.task).bind
      (fun task => s.tasks[task]?) = some s.tasks[task] := by
    rw [hi]
    exact List.getElem?_eq_getElem hlt
  rw [State.hasWork, hservice, h.work]
  exact decide_eq_true (List.mem_map_of_mem hmem)

/-! ### The steps -/

theorem run_pushTasks (k : ℕ) (pool : ThreadPool.State) :
    Machine.run (ThreadPool.step T) pool (List.replicate k (.pushTask false)) =
      some { pool with
        mPcQueue := pool.mPcQueue ++ (List.range' pool.pushed k).map some
        pushed := pool.pushed + k } := by
  induction k generalizing pool with
  | zero => simp
  | succ k ih =>
      rw [List.replicate_succ, Machine.run_cons]
      simp only [ThreadPool.step, Bool.false_eq_true, if_false, Option.bind_some, ih,
        PCQueue.push, List.append_assoc, List.range'_succ, List.map_cons, List.singleton_append]
      rw [Nat.add_assoc, Nat.add_comm 1]

/-- An idle pool has executed everything. -/
theorem Idle.finished (h : Idle N s) (hflow : ThreadPool.Flow T s.mThreadPool) :
    s.mThreadPool.finished.Perm (List.range s.mThreadPool.pushed) := by
  have horder := hflow.order
  have hbegun := hflow.begun
  rw [h.queue, List.reduceOption_nil, List.append_nil] at horder
  rw [ThreadPool.State.running, h.threads, List.filterMap_nil, List.append_nil, horder] at hbegun
  exact hbegun

theorem Good.start {numIOServices numThreads : ℤ}
    (h : Good numIOServices.toNat numThreads.toNat s) (hfree : s.holder = .free)
    (hstep : s.start numIOServices numThreads = some s') :
    Good numIOServices.toNat numThreads.toNat s' := by
  obtain ⟨hflow, htasks, hindex, hposition⟩ := id h
  rw [State.start] at hstep
  split at hstep
  · obtain rfl := Option.some.inj hstep
    exact h
  rename_i hwork
  split at hstep
  · cases hstep
  rename_i hguard
  obtain ⟨pool, hpool, rfl⟩ := Option.map_eq_some_iff.mp hstep
  have hflow' : ThreadPool.Flow numThreads.toNat pool :=
    Machine.run_invariant (fun _ _ _ h hstep => h.step hstep) hflow hpool
  rw [hfree] at hposition
  have hidle : Idle numIOServices.toNat s := by
    refine hposition.resolve_right ?_
    rintro ⟨hpos, hrunning, -⟩
    obtain ⟨k, hk⟩ := Nat.exists_eq_succ_of_ne_zero hpos.ne'
    apply hwork
    rw [hrunning.work, hk]
    exact List.cons_ne_nil _ _
  rw [Machine.run_append, run_pushTasks, Option.bind_some, Machine.run_cons] at hpool
  simp only [ThreadPool.step, hidle.control, hidle.threads, ne_eq, not_true_eq_false, if_false,
    if_true, Option.bind_some, Machine.run_nil, Option.some.injEq] at hpool
  obtain rfl := hpool
  refine ⟨hflow', ?_, hindex, ⟨rfl, rfl, ?_, s.mThreadPool.pushed, rfl, ?_, hidle.finished hflow⟩,
    rfl⟩
  · rw [List.length_append, htasks, RoundRobin.length_turns]
  · omega
  · rw [← htasks]
    exact List.drop_left

theorem Good.getIOService (h : Good N T s) (hfree : s.holder = .free)
    (hstep : s.getIOService = some s') : Good N T s' := by
  obtain ⟨hflow, htasks, hindex, hposition⟩ := h
  obtain ⟨service, hservice, rfl⟩ := Option.map_eq_some_iff.mp hstep
  have hlt := (List.getElem?_eq_some_iff.mp hservice).1
  have hservices : s.mIOServices = List.range N := by
    rw [hfree] at hposition
    rcases hposition with hidle | ⟨-, hrunning, -⟩
    · refine hidle.services.resolve_left fun hnone => ?_
      rw [hnone] at hlt
      exact absurd hlt (Nat.not_lt_zero _)
    · exact hrunning.services
  refine ⟨hflow, htasks, ?_, ?_⟩
  · simp only [hservices, List.length_range] at hlt ⊢
    split <;> omega
  · show At N T _ s.holder
    rw [hfree] at hposition ⊢
    rcases hposition with hidle | ⟨hpos, hrunning, hcontrol⟩
    · exact Or.inl ⟨hidle.services, hidle.work, hidle.control, hidle.threads, hidle.queue⟩
    · exact Or.inr ⟨hpos, ⟨hrunning.services, hrunning.work, hrunning.pos, hrunning.tasks⟩,
        hcontrol⟩

/-- `Stop` when it starts to stop the threads. -/
theorem Good.stop (h : Good N T s) (hfree : s.holder = .free) (hwork : s.mWork ≠ [])
    {pool : ThreadPool.State} (hpool : ThreadPool.step T s.mThreadPool .stop = some pool) :
    Good N T { s with
      mWork := s.mWork.map fun _ => none, mThreadPool := pool, holder := .stopping } := by
  have hflow' := h.flow.step hpool
  have hposition := h.position
  rw [hfree] at hposition
  obtain ⟨hpos, -, hcontrol, hlen⟩ := hposition.resolve_left fun hidle => hwork hidle.work
  have hthreads : s.mThreadPool.mThreads ≠ [] := List.ne_nil_of_length_pos (hlen.symm ▸ hpos)
  simp only [ThreadPool.step, hcontrol, if_true, if_neg hthreads, Option.some.injEq] at hpool
  obtain rfl := hpool
  exact ⟨hflow', h.tasks, h.index, hpos, by simpa using hwork, Or.inl rfl⟩

section Threads

variable {pool : ThreadPool.State} {a : ThreadPool.Event}

theorem pushed_of_step (hpool : ThreadPool.step T s.mThreadPool a = some pool)
    (ha : ∀ empty, a ≠ .pushTask empty) : pool.pushed = s.mThreadPool.pushed := by
  cases a with
  | pushTask empty => exact absurd rfl (ha empty)
  | pop i =>
      obtain ⟨-, task, q, -, rfl⟩ := ThreadPool.pop_cases hpool
      cases task <;> rfl
  | _ =>
      simp only [ThreadPool.step] at hpool
      grind

theorem finished_of_step (hpool : ThreadPool.step T s.mThreadPool a = some pool)
    (ha : ∀ i, a ≠ .finish i) : pool.finished = s.mThreadPool.finished := by
  cases a with
  | finish i => exact absurd rfl (ha i)
  | pop i =>
      obtain ⟨-, task, q, -, rfl⟩ := ThreadPool.pop_cases hpool
      cases task <;> rfl
  | _ =>
      simp only [ThreadPool.step] at hpool
      grind

/-- No step but the end of a task and the push of one matters to the tasks. -/
theorem Running.withPool (h : Running N T s)
    (hpool : ThreadPool.step T s.mThreadPool a = some pool)
    (hpush : ∀ empty, a ≠ .pushTask empty) (hfinish : ∀ i, a ≠ .finish i) :
    Running N T (s.withPool pool) := by
  refine ⟨h.services, h.work, h.pos, ?_⟩
  show ∃ base, pool.pushed = base + T ∧ _ ∧ pool.finished.Perm (List.range base)
  rw [pushed_of_step hpool hpush, finished_of_step hpool hfinish]
  exact h.tasks

theorem Good.withPool (h : Good N T s)
    (hpool : ThreadPool.step T s.mThreadPool a = some pool)
    (hpush : ∀ empty, a ≠ .pushTask empty) (hposition : At N T (s.withPool pool) s.holder) :
    Good N T (s.withPool pool) :=
  ⟨h.flow.step hpool, h.tasks.trans (pushed_of_step hpool hpush).symm, h.index, hposition⟩

theorem Good.create (h : Good N T s) (hholder : s.holder = .starting)
    (hpool : ThreadPool.step T s.mThreadPool .create = some pool) :
    Good N T (s.withPool pool) := by
  have hposition := h.position
  rw [hholder] at hposition
  refine h.withPool hpool nofun ?_
  rw [hholder]
  refine ⟨hposition.1.withPool hpool nofun nofun, ?_⟩
  obtain ⟨-, heq⟩ := Option.ite_none_right_eq_some.mp hpool
  obtain rfl := Option.some.inj heq
  exact hposition.2

theorem Good.startReturns (h : Good N T s) (hholder : s.holder = .starting)
    (hpool : ThreadPool.step T s.mThreadPool .startReturns = some pool) :
    Good N T { s.withPool pool with holder := .free } := by
  have hposition := h.position
  rw [hholder] at hposition
  obtain ⟨hrunning, hcontrol⟩ := hposition
  have hflow' := h.flow.step hpool
  have hrunning' := hrunning.withPool hpool nofun nofun
  have hplaced := h.flow.placed
  have hsentinels := h.flow.sentinels
  rw [hcontrol] at hplaced hsentinels
  obtain ⟨⟨-, hlen⟩, heq⟩ := Option.ite_none_right_eq_some.mp hpool
  obtain rfl := Option.some.inj heq
  refine ⟨hflow', h.tasks, h.index, ?_⟩
  rcases Nat.eq_zero_or_pos T with rfl | hpos
  · -- there are neither tasks nor threads
    have hthreads : s.mThreadPool.mThreads = [] :=
      List.eq_nil_of_length_eq_zero (Nat.le_zero.mp hplaced)
    have hqueue : s.mThreadPool.mPcQueue = [] := by
      obtain ⟨base, -, -, hperm⟩ := hrunning.perm h.flow
      have hall := hperm.length_eq
      have hsplit := length_reduceOption s.mThreadPool.mPcQueue
      simp only [List.length_append, List.length_range', ThreadPool.Control.sentinels]
        at hall hsentinels
      exact List.eq_nil_of_length_eq_zero (by omega)
    exact Or.inl ⟨Or.inr hrunning.services, hrunning.work, rfl, hthreads, hqueue⟩
  · exact Or.inr ⟨hpos, ⟨hrunning'.services, hrunning'.work, hrunning'.pos, hrunning'.tasks⟩, rfl,
      Nat.le_antisymm hplaced hlen⟩

/-- A step of `Stop` before it returns. -/
theorem Good.stopping (h : Good N T s) (hholder : s.holder = .stopping)
    (ha : a = .pushSentinel ∨ a = .sentinelsPushed ∨ a = .join)
    (hpool : ThreadPool.step T s.mThreadPool a = some pool) : Good N T (s.withPool pool) := by
  have hposition := h.position
  rw [hholder] at hposition
  obtain ⟨hpos, hwork, hcontrol⟩ := hposition
  have hpush : ∀ empty, a ≠ .pushTask empty := by
    rintro empty rfl
    simp at ha
  have hpushed := pushed_of_step hpool hpush
  refine h.withPool hpool hpush ?_
  rw [hholder]
  refine ⟨hpos, hwork, Or.inr ?_⟩
  show ∃ last, ThreadPool.Ending T pool.pushed last pool
  rw [hpushed]
  rcases ha with rfl | ha
  · obtain ⟨last, -, hending⟩ := h.flow.pushSentinel hpool
    exact ⟨last, hending⟩
  · have hafter : a.AfterSentinel := by rcases ha with rfl | rfl <;> trivial
    rcases hcontrol with hcontrol | ⟨last, hending⟩
    · -- the loop that pushes the sentinels is not at its end yet
      have hplaced := h.flow.placed
      rw [hcontrol] at hplaced
      rcases ha with rfl | rfl
      · simp only [ThreadPool.step, hcontrol] at hpool
        rw [if_neg (by rw [hplaced.1]; omega)] at hpool
        cases hpool
      · simp only [ThreadPool.step, hcontrol] at hpool
        cases hpool
    · exact ⟨last, hending.step hafter hpool⟩

theorem Good.stopReturns (h : Good N T s) (hholder : s.holder = .stopping)
    (hpool : ThreadPool.step T s.mThreadPool .stopReturns = some pool) :
    Good N T { s.withPool pool with mIOServices := [], mWork := [], holder := .free } := by
  have hposition := h.position
  rw [hholder] at hposition
  obtain ⟨-, -, hcontrol⟩ := hposition
  have hpushed := pushed_of_step hpool nofun
  have hafter : pool.control = .free ∧ pool.mThreads = [] ∧ pool.mPcQueue = [] := by
    rcases hcontrol with hcontrol | ⟨last, hending⟩
    · simp only [ThreadPool.step, hcontrol] at hpool
      cases hpool
    · have hqueue := (hending.drained hpool).2.left
      rw [hpushed, Nat.sub_self] at hqueue
      simp only [ThreadPool.step] at hpool
      split at hpool
      · obtain ⟨-, heq⟩ := Option.ite_none_right_eq_some.mp hpool
        obtain rfl := Option.some.inj heq
        exact ⟨rfl, rfl, hqueue⟩
      · cases hpool
  exact ⟨h.flow.step hpool, h.tasks.trans hpushed.symm, h.index,
    Or.inl ⟨Or.inl rfl, rfl, hafter.1, hafter.2.1, hafter.2.2⟩⟩

/-- A step of a thread keeps the place of the holder of `mMutex`. -/
theorem Good.work (h : Good N T s) (hpool : ThreadPool.step T s.mThreadPool a = some pool)
    (ha : a.Work) (hend : ∀ i, a = .finish i → s.hasWork i = false) :
    Good N T (s.withPool pool) := by
  have hpush : ∀ empty, a ≠ .pushTask empty := by
    rintro empty rfl
    exact ha
  have hthreads : s.mThreadPool.mThreads ≠ [] := by
    intro hnone
    cases a with
    | pop i => simp [ThreadPool.step, hnone] at hpool
    | finish i => simp [ThreadPool.step, hnone] at hpool
    | _ => exact ha
  have hcontrol : pool.control = s.mThreadPool.control := by
    cases a with
    | pop i =>
        obtain ⟨-, task, q, -, rfl⟩ := ThreadPool.pop_cases hpool
        cases task <;> rfl
    | finish i =>
        simp only [ThreadPool.step] at hpool
        split at hpool <;> cases hpool
        rfl
    | _ => exact ha.elim
  have hlen : pool.mThreads.length = s.mThreadPool.mThreads.length := by
    cases a with
    | pop i =>
        obtain ⟨-, task, q, -, rfl⟩ := ThreadPool.pop_cases hpool
        cases task <;> exact List.length_set ..
    | finish i =>
        simp only [ThreadPool.step] at hpool
        split at hpool <;> cases hpool
        exact List.length_set ..
    | _ => exact ha.elim
  -- no thread comes to the end of a task of the period before its services lose their work
  have hrunning : Running N T s → Running N T (s.withPool pool) := by
    intro hrunning
    refine hrunning.withPool hpool hpush ?_
    rintro i rfl
    simp only [ThreadPool.step] at hpool
    split at hpool
    · rename_i task hi
      have hbusy := hrunning.hasWork h hi
      rw [hend i rfl] at hbusy
      cases hbusy
    · cases hpool
  refine h.withPool hpool hpush ?_
  have hposition := h.position
  cases hholder : s.holder with
  | free =>
      rw [hholder] at hposition
      rcases hposition with hidle | ⟨hpos, hrun, hfree, hfull⟩
      · exact absurd hidle.threads hthreads
      · exact Or.inr ⟨hpos, hrunning hrun, hcontrol.trans hfree, hlen.trans hfull⟩
  | starting =>
      rw [hholder] at hposition
      exact ⟨hrunning hposition.1, hcontrol.trans hposition.2⟩
  | stopping =>
      rw [hholder] at hposition
      obtain ⟨hpos, hwork, hstop⟩ := hposition
      refine ⟨hpos, hwork, hstop.imp hcontrol.trans ?_⟩
      rintro ⟨last, hending⟩
      refine ⟨last, ?_⟩
      show ThreadPool.Ending T pool.pushed last pool
      rw [pushed_of_step hpool hpush]
      refine hending.step ?_ hpool
      cases a with
      | pop i => trivial
      | finish i => trivial
      | _ => exact ha.elim

end Threads

theorem Good.step (h : Good (toInt n).toNat (toInt t).toNat s) {a : Event}
    (hstep : IOServicePool.step n t s a = some s') :
    Good (toInt n).toNat (toInt t).toNat s' := by
  cases a with
  | start =>
      obtain ⟨hfree, hstep⟩ := Option.ite_none_right_eq_some.mp hstep
      exact h.start hfree hstep
  | stop =>
      obtain ⟨hfree, hstep⟩ := Option.ite_none_right_eq_some.mp hstep
      split at hstep
      · obtain rfl := Option.some.inj hstep
        exact h
      · rename_i hwork
        obtain ⟨pool, hpool, rfl⟩ := Option.map_eq_some_iff.mp hstep
        exact h.stop hfree hwork hpool
  | getIOService =>
      obtain ⟨hfree, hstep⟩ := Option.ite_none_right_eq_some.mp hstep
      exact h.getIOService hfree hstep
  | pool a =>
      cases a with
      | create =>
          obtain ⟨hholder, hstep⟩ := Option.ite_none_right_eq_some.mp hstep
          obtain ⟨pool, hpool, rfl⟩ := Option.map_eq_some_iff.mp hstep
          exact h.create hholder hpool
      | startReturns =>
          obtain ⟨hholder, hstep⟩ := Option.ite_none_right_eq_some.mp hstep
          obtain ⟨pool, hpool, rfl⟩ := Option.map_eq_some_iff.mp hstep
          exact h.startReturns hholder hpool
      | pushSentinel =>
          obtain ⟨hholder, hstep⟩ := Option.ite_none_right_eq_some.mp hstep
          obtain ⟨pool, hpool, rfl⟩ := Option.map_eq_some_iff.mp hstep
          exact h.stopping hholder (Or.inl rfl) hpool
      | sentinelsPushed =>
          obtain ⟨hholder, hstep⟩ := Option.ite_none_right_eq_some.mp hstep
          obtain ⟨pool, hpool, rfl⟩ := Option.map_eq_some_iff.mp hstep
          exact h.stopping hholder (Or.inr (Or.inl rfl)) hpool
      | join =>
          obtain ⟨hholder, hstep⟩ := Option.ite_none_right_eq_some.mp hstep
          obtain ⟨pool, hpool, rfl⟩ := Option.map_eq_some_iff.mp hstep
          exact h.stopping hholder (Or.inr (Or.inr rfl)) hpool
      | stopReturns =>
          obtain ⟨hholder, hstep⟩ := Option.ite_none_right_eq_some.mp hstep
          obtain ⟨pool, hpool, rfl⟩ := Option.map_eq_some_iff.mp hstep
          exact h.stopReturns hholder hpool
      | pop i =>
          obtain ⟨pool, hpool, rfl⟩ := Option.map_eq_some_iff.mp hstep
          exact h.work hpool trivial nofun
      | finish i =>
          simp only [IOServicePool.step] at hstep
          split at hstep
          · cases hstep
          · rename_i hidle
            obtain ⟨pool, hpool, rfl⟩ := Option.map_eq_some_iff.mp hstep
            refine h.work hpool trivial ?_
            rintro _ ⟨⟩
            exact Bool.eq_false_of_not_eq_true hidle
      | pushTask | start | stop => cases hstep

theorem good_run {es : List Event} (hrun : Machine.run (step n t) {} es = some s) :
    Good (toInt n).toNat (toInt t).toNat s := by
  have hstep : ∀ (s : State) (a : Event) (s' : State), Good (toInt n).toNat (toInt t).toNat s →
      step n t s a = some s' → Good (toInt n).toNat (toInt t).toNat s' :=
    fun _ _ _ h hstep => h.step hstep
  exact Machine.run_invariant hstep (good_init _ _) hrun

/-! ### The calls of `GetIOService` -/

/-- The pool runs `N` services, and nobody is in `Start` or `Stop`. -/
structure Selecting (N : ℕ) (s : State) : Prop where
  holder : s.holder = .free
  work : s.mWork ≠ []
  services : s.mIOServices = List.range N
  index : s.mNextIOService < N

theorem Selecting.getIOService (h : Selecting N s) :
    s.getIOService = some { s with
      mNextIOService := (s.mNextIOService + 1) % N
      returned := s.returned ++ [s.mNextIOService] } := by
  have hservice : s.mIOServices[s.mNextIOService]? = some s.mNextIOService := by
    rw [h.services, List.getElem?_range h.index]
  have hnext : (if s.mNextIOService + 1 = s.mIOServices.length then 0 else s.mNextIOService + 1) =
      (s.mNextIOService + 1) % N := by
    have hlt := h.index
    rw [h.services, List.length_range]
    split
    · rename_i heq
      rw [heq, Nat.mod_self]
    · rw [Nat.mod_eq_of_lt (by omega)]
  rw [State.getIOService, hservice, hnext]
  rfl

/-- What a step other than `stop` does to the selection. -/
theorem Selecting.step (h : Selecting N s) {a : Event}
    (hstep : IOServicePool.step n t s a = some s') (ha : a ≠ .stop) :
    Selecting N s' ∧ (s'.mNextIOService = s.mNextIOService ∧ s'.returned = s.returned ∨
      s'.mNextIOService = (s.mNextIOService + 1) % N ∧
        s'.returned = s.returned ++ [s.mNextIOService]) := by
  have hpos : 0 < N := Nat.zero_lt_of_lt h.index
  cases a with
  | start =>
      obtain ⟨-, hstep⟩ := Option.ite_none_right_eq_some.mp hstep
      rw [State.start, if_pos h.work] at hstep
      obtain rfl := Option.some.inj hstep
      exact ⟨h, Or.inl ⟨rfl, rfl⟩⟩
  | stop => exact absurd rfl ha
  | getIOService =>
      obtain ⟨-, hstep⟩ := Option.ite_none_right_eq_some.mp hstep
      rw [h.getIOService] at hstep
      obtain rfl := Option.some.inj hstep
      exact ⟨⟨h.holder, h.work, h.services, Nat.mod_lt _ hpos⟩, Or.inr ⟨rfl, rfl⟩⟩
  | pool a =>
      have hpool : ∃ pool, s.withPool pool = s' := by
        cases a with
        | pop i =>
            obtain ⟨pool, -, rfl⟩ := Option.map_eq_some_iff.mp hstep
            exact ⟨pool, rfl⟩
        | finish i =>
            obtain ⟨-, hstep⟩ := Option.ite_none_left_eq_some.mp hstep
            obtain ⟨pool, -, rfl⟩ := Option.map_eq_some_iff.mp hstep
            exact ⟨pool, rfl⟩
        | pushTask | start | stop => cases hstep
        | _ =>
            simp only [IOServicePool.step, h.holder, reduceCtorEq, if_false] at hstep
      obtain ⟨pool, rfl⟩ := hpool
      exact ⟨⟨h.holder, h.work, h.services, h.index⟩, Or.inl ⟨rfl, rfl⟩⟩

/-- **The calls take turns**, whatever else goes on until the pool is stopped. -/
theorem Selecting.run (h : Selecting N s) {es : List Event} (hes : Event.stop ∉ es)
    (hrun : Machine.run (IOServicePool.step n t) s es = some s') :
    ∃ k, s'.returned = s.returned ++ turns N k s.mNextIOService := by
  induction es generalizing s with
  | nil =>
      obtain rfl : s = s' := by simpa using hrun
      exact ⟨0, (List.append_nil _).symm⟩
  | cons a es ih =>
      obtain ⟨s₁, hs₁, hrest⟩ := (Machine.run_cons_eq_some _).mp hrun
      rw [List.mem_cons, not_or] at hes
      obtain ⟨h₁, hcase⟩ := h.step hs₁ (Ne.symm hes.1)
      obtain ⟨k, hk⟩ := ih h₁ hes.2 hrest
      rcases hcase with ⟨hnext, hreturned⟩ | ⟨hnext, hreturned⟩
      · exact ⟨k, by rw [hk, hnext, hreturned]⟩
      · refine ⟨k + 1, ?_⟩
        rw [hk, hnext, hreturned, List.append_assoc]
        rfl

theorem Selecting.run_getIOService (h : Selecting N s) (k : ℕ) :
    ∃ s', Machine.run (IOServicePool.step n t) s (List.replicate k .getIOService) = some s' ∧
      s'.returned = s.returned ++ turns N k s.mNextIOService := by
  induction k generalizing s with
  | zero => exact ⟨s, rfl, (List.append_nil _).symm⟩
  | succ k ih =>
      have hstep : IOServicePool.step n t s .getIOService = some { s with
          mNextIOService := (s.mNextIOService + 1) % N
          returned := s.returned ++ [s.mNextIOService] } :=
        (if_pos h.holder).trans h.getIOService
      obtain ⟨s', hs', hreturned⟩ := ih (h.step hstep nofun).1
      refine ⟨s', (Machine.run_cons_eq_some _).mpr ⟨_, hstep, hs'⟩, hreturned.trans ?_⟩
      rw [List.append_assoc]
      rfl

/-! ### Numbers of services and threads -/

theorem toNat_toInt (h : n < 2 ^ 31) : (toInt n).toNat = n := by
  rw [MachineInt.toInt_of_lt h, Int.toNat_natCast]

/-- The share of a place is not below the whole rounds, and not more than one above. -/
theorem share_bounds {k c : ℕ} (hn : 0 < n) (h : Share n k c) : k / n ≤ c ∧ c ≤ k / n + 1 := by
  rw [Share, RoundRobin.ceil_eq hn] at h
  split at h <;> omega

/-- With a number of services that does not fit, two rounds of the services there are
less than one of those asked for. -/
theorem lt_of_selects (hsel : Selecting (toInt n).toNat s) (h : Served n t s) : n < 2 ^ 31 := by
  by_contra hlarge
  have hwrap := MachineInt.toInt_le_of_le (not_lt.mp hlarge)
  have hlt := MachineInt.toInt_lt n
  set N := (toInt n).toNat with hN
  have hpos : 0 < N := Nat.zero_lt_of_lt hsel.index
  obtain ⟨s', hs', hturns⟩ := hsel.run_getIOService (n := n) (t := t) (2 * N)
  obtain ⟨services, hreturned, hshare⟩ := h.selects _ s' hs' (by simp)
  obtain rfl := List.append_cancel_left (hturns.symm.trans hreturned)
  have hmem : 0 ∈ s.mIOServices := by
    rw [hsel.services]
    exact List.mem_range.mpr hpos
  have hasked := share_bounds (by omega) (hshare 0 hmem)
  have hgiven := share_bounds hpos (RoundRobin.share_turns (k := 2 * N) hsel.index hpos)
  rw [RoundRobin.length_turns, Nat.div_eq_of_lt (by omega)] at hasked
  rw [Nat.mul_div_cancel _ hpos] at hgiven
  omega

/-- With a number of threads that does not fit, a service misses threads. -/
theorem lt_of_runs (hn : n < 2 ^ 31) (hpos : 0 < n) (hT : 0 < (toInt t).toNat)
    (h : Share n t ((turns n (toInt t).toNat 0).count 0)) : t < 2 ^ 31 := by
  by_contra hlarge
  have hwrap := MachineInt.toInt_le_of_le (not_lt.mp hlarge)
  have hasked := share_bounds hpos h
  have hgiven := share_bounds hpos (RoundRobin.share_turns (k := (toInt t).toNat) hpos hpos)
  have hmore : ((toInt t).toNat + 2 * n) / n ≤ t / n := Nat.div_le_div_right (by omega)
  rw [Nat.add_mul_div_right _ _ hpos] at hmore
  omega

/-- **When a running pool serves every service that it hands out.** -/
theorem served_iff {es : List Event} (hrun : Machine.run (step n t) {} es = some s)
    (hfree : s.holder = .free) (hrunning : s.mWork ≠ []) :
    Served n t s ↔ n ≤ t ∧ t < 2 ^ 31 := by
  have hgood := good_run hrun
  have hposition := hgood.position
  rw [hfree] at hposition
  obtain ⟨hT, hrunning', hcontrol, hlen⟩ :=
    hposition.resolve_left fun hidle => hrunning hidle.work
  have hN := hrunning'.pos hT
  have hservices := hrunning'.services
  have hindex : s.mNextIOService < (toInt n).toNat := by
    rcases hgood.index with hlt | hzero
    · exact hlt
    · rw [hzero]
      exact hN
  have hsel : Selecting (toInt n).toNat s := ⟨hfree, hrunning, hservices, hindex⟩
  have hassigned : ∀ j, s.assigned j = (turns (toInt n).toNat (toInt t).toNat 0).count j :=
    fun j => hrunning'.assigned_eq hgood
  constructor
  · intro h
    have hn := lt_of_selects hsel h
    rw [toNat_toInt hn] at hN hservices hassigned
    have hall : ∀ j < n, Share n t ((turns n (toInt t).toNat 0).count j) ∧
        1 ≤ (turns n (toInt t).toNat 0).count j := by
      intro j hj
      rw [← hassigned]
      exact h.runs j (by rw [hservices]; exact List.mem_range.mpr hj)
    have ht := lt_of_runs hn hN hT (hall 0 hN).1
    refine ⟨?_, ht⟩
    rw [toNat_toInt ht] at hall
    exact (RoundRobin.forall_count_turns_pos_iff hN).mp fun j hj => (hall j hj).2
  · rintro ⟨hle, ht⟩
    rw [toNat_toInt (hle.trans_lt ht)] at hN hservices hassigned hindex hsel
    rw [toNat_toInt ht] at hassigned
    refine ⟨?_, fun es s' hes hstop => ?_, fun j hj => ?_, hrunning'.taken hgood hcontrol hlen⟩
    · rw [hservices, List.length_range]
      exact hindex
    · obtain ⟨k, hk⟩ := hsel.run hstop hes
      refine ⟨_, hk, fun j hj => ?_⟩
      rw [hservices, List.mem_range] at hj
      rw [RoundRobin.length_turns]
      exact RoundRobin.share_turns hindex hj
    · rw [hservices, List.mem_range] at hj
      rw [hassigned]
      exact ⟨RoundRobin.share_turns hN hj, (RoundRobin.forall_count_turns_pos_iff hN).mpr hle j hj⟩

/-- `Start` of a pool of four threads. -/
def startFour : List Event :=
  [.start, .pool .create, .pool .create, .pool .create, .pool .create, .pool .startReturns]

def stopFour : List Event :=
  [.stop, .pool .pushSentinel, .pool .pushSentinel, .pool .pushSentinel, .pool .pushSentinel,
    .pool .sentinelsPushed, .pool (.finish 0), .pool (.finish 1), .pool (.finish 2),
    .pool (.finish 3), .pool (.pop 0), .pool (.pop 1), .pool (.pop 2), .pool (.pop 3), .pool .join,
    .pool .join, .pool .join, .pool .join, .pool .stopReturns]

/-- Two services and four threads: the pool is stopped with the second service next, and
started again; by then two threads have taken their tasks. -/
theorem served_iff_restarted :
    ∃ s, Machine.run (step 2 4) {} (startFour ++ [.pool (.pop 0), .pool (.pop 1), .pool (.pop 2),
        .getIOService, .getIOService, .getIOService, .pool (.pop 3)] ++ stopFour ++ startFour ++
        [.pool (.pop 3), .getIOService, .pool (.pop 1)]) = some s ∧
      s.returned = [0, 1, 0, 1] ∧ Served 2 4 s := by
  obtain ⟨s, hrun, hreturned, hfree, hwork⟩ : ∃ s, Machine.run (step 2 4) {} (startFour ++
      [.pool (.pop 0), .pool (.pop 1), .pool (.pop 2), .getIOService, .getIOService,
        .getIOService, .pool (.pop 3)] ++ stopFour ++ startFour ++
        [.pool (.pop 3), .getIOService, .pool (.pop 1)]) = some s ∧
      s.returned = [0, 1, 0, 1] ∧ s.holder = .free ∧ s.mWork ≠ [] :=
    ⟨_, rfl, rfl, rfl, by decide⟩
  exact ⟨s, hrun, hreturned, (served_iff hrun hfree hwork).mpr (by decide)⟩

/-- Two services and one thread: nothing runs the second service. -/
theorem not_served :
    ¬ ∀ n t : ℕ, 1 ≤ n → 1 ≤ t → ∀ (es : List Event) (s : State),
      Machine.run (step n t) {} es = some s → s.holder = .free → s.mWork ≠ [] → Served n t s := by
  intro h
  have hserved := h 2 1 (by decide) (by decide) [.start, .pool .create, .pool .startReturns] _ rfl
    rfl (by decide)
  exact absurd (hserved.runs 1 (by decide)).2 (by decide)

end Tt3d.Network.IOServicePool
