import Tt3d.Lib.Machine
import Tt3d.Lib.UpgradeMutex

/-!
The teardown of a connection, among everything that runs on it.

A thread is one invocation of a handler, of `Expired`, of the user's
`Disconnect`, or of an operation (`PushData`, `ScheduleWrite`, `CallMethod`).
Each takes the shared lock of the status in one function and gives it back in
another; the one that closes the connection drops it, takes it anew to upgrade,
and looks at `CLOSING` again. The statuses and the lock are as in
`RawConnectionStatus`, what happens inside a body is left open.
-/

namespace Tt3d.Network.Teardown

open UpgradeMutex

inductive Role
  /-- `ReadHandler`, around `HandleRead`, `HandleWrite` or `OOBRecv`. -/
  | handler
  /-- `Connection::Expired`, around `Heartbeat`. -/
  | expired
  /-- `Connection::Disconnect`, called by the user. -/
  | disconnect
  /-- `PushData`, `ScheduleWrite` or `CallMethod`. -/
  | operation
  deriving DecidableEq, Repr

/-- The argument `async` of the `RawConnection::Disconnect` that a thread calls. -/
def Role.async : Role → Bool
  | .disconnect => false
  | _ => true

/-- Whether the body may find an error and call `Disconnect`. -/
def Role.mayFail : Role → Bool
  | .handler | .expired => true
  | _ => false

/-- Where a thread stands. -/
inductive Pc
  | start
  /-- The user's `Disconnect`, which has found `CLOSING` clear. -/
  | entering
  /-- The shared lock is taken. -/
  | locked
  | body
  /-- About to unlock and return. -/
  | leaving
  /-- At the entry of `RawConnection::Disconnect`. -/
  | disconnect
  | unsharing
  | unshared
  | upgrade
  | exclusive
  /-- Locked exclusively, and `CLOSING` was set by another. -/
  | rejected
  /-- Locked exclusively, and `CLOSING` was set by this thread. -/
  | set
  /-- About to close the socket. -/
  | unlocked
  /-- About to call `ImplClosed`. -/
  | implClosed
  | finished
  deriving DecidableEq, Repr

/-- How a thread holds the lock. -/
def Pc.mode : Pc → Mode
  | .locked | .body | .leaving | .disconnect | .unsharing => .shared
  | .upgrade => .upgrade
  | .exclusive | .rejected | .set => .exclusive
  | _ => .free

structure State (ι : Type*) where
  mutex : UpgradeMutex := {}
  closing : Bool := false
  /-- Whether `impl_` is set. -/
  impl : Bool := true
  pc : ι → Pc := fun _ => .start
  /-- The close listeners, named by the number of their registration. -/
  listeners : List ℕ := []
  nextListener : ℕ := 0
  notified : List ℕ := []
  /-- Who set `CLOSING`, who closed the socket and who ran `ImplClosed`. -/
  closers : List ι := []
  socketClosers : List ι := []
  implClosers : List ι := []
  /-- How often each thread took and released the shared lock. -/
  taken : ι → ℕ := fun _ => 0
  released : ι → ℕ := fun _ => 0

inductive Event (ι : Type*)
  /-- `RegisterAsyncCloseListener`. -/
  | register
  /-- A thread takes its next step. -/
  | run (i : ι)
  /-- The body of a thread finds an error. -/
  | fail (i : ι)
  /-- `ImplClosed`, which skips the listeners that have expired. -/
  | notify (i : ι) (expired : List ℕ)
  deriving DecidableEq, Repr

variable {ι : Type*} [DecidableEq ι]

namespace State

def goto (s : State ι) (i : ι) (p : Pc) : State ι := { s with pc := Function.update s.pc i p }

def lockShared (s : State ι) (i : ι) : Option (State ι) :=
  s.mutex.lockShared.map fun m =>
    { s.goto i .locked with mutex := m, taken := Function.update s.taken i (s.taken i + 1) }

def unlockShared (s : State ι) (i : ι) (p : Pc) : Option (State ι) :=
  s.mutex.unlockShared.map fun m =>
    { s.goto i p with mutex := m, released := Function.update s.released i (s.released i + 1) }

/-- The next step of thread `i`. -/
def run (s : State ι) (role : Role) (i : ι) : Option (State ι) :=
  match s.pc i with
  | .start =>
      match role with
      | .disconnect => some (s.goto i (if s.closing then .finished else .entering))
      | _ => s.lockShared i
  | .entering => s.lockShared i
  | .locked =>
      match role with
      | .handler => some (s.goto i (if s.closing then .leaving else .body))
      | .expired | .operation =>
          some (s.goto i (if s.closing ∨ !s.impl then .leaving else .body))
      | .disconnect => some (s.goto i (if s.impl then .disconnect else .leaving))
  | .body => some (s.goto i .leaving)
  | .leaving => s.unlockShared i .finished
  | .disconnect => some (s.goto i (if s.closing then .leaving else .unsharing))
  | .unsharing => s.unlockShared i .unshared
  | .unshared => s.mutex.lockUpgrade.map fun m => { s.goto i .upgrade with mutex := m }
  | .upgrade => s.mutex.unlockUpgradeAndLock.map fun m => { s.goto i .exclusive with mutex := m }
  | .exclusive =>
      if s.closing then some (s.goto i .rejected)
      else some { s.goto i .set with closing := true, closers := s.closers ++ [i] }
  | .rejected => s.mutex.unlock.map fun m => { s.goto i .finished with mutex := m }
  | .set => s.mutex.unlock.map fun m => { s.goto i .unlocked with mutex := m }
  | .unlocked =>
      some { s.goto i (if role.async then .implClosed else .finished) with
        socketClosers := s.socketClosers ++ [i] }
  | .implClosed | .finished => none

end State

def step (role : ι → Role) (s : State ι) : Event ι → Option (State ι)
  | .register =>
      some { s with
        listeners := s.listeners ++ [s.nextListener]
        nextListener := s.nextListener + 1 }
  | .run i => s.run (role i) i
  | .fail i => if s.pc i = .body ∧ (role i).mayFail then some (s.goto i .disconnect) else none
  | .notify i expired =>
      if s.pc i = .implClosed then
        some { s.goto i .finished with
          notified := s.notified ++ s.listeners.filter fun l => decide (l ∉ expired)
          listeners := []
          impl := false
          implClosers := s.implClosers ++ [i] }
      else none

/-! ### The lock -/

/-- How often a thread at this point has taken and released the shared lock. -/
def Balanced : Pc → (taken released : ℕ) → Prop
  | .start, taken, released | .entering, taken, released => taken = 0 ∧ released = 0
  | .locked, taken, released | .body, taken, released | .leaving, taken, released
  | .disconnect, taken, released | .unsharing, taken, released => taken = 1 ∧ released = 0
  | .finished, taken, released => taken ≤ 1 ∧ released = taken
  | _, taken, released => taken = 1 ∧ released = 1

section Lock

variable [Fintype ι]

structure LockGood (mutex : UpgradeMutex) (pc : ι → Pc) (taken released : ι → ℕ) : Prop where
  held : Held mutex fun i => (pc i).mode
  balanced : ∀ i, Balanced (pc i) (taken i) (released i)

variable {m m' : UpgradeMutex} {pc : ι → Pc} {taken released : ι → ℕ} {i : ι} {p : Pc}

omit [Fintype ι] in
theorem mode_update (pc : ι → Pc) (i : ι) (p : Pc) :
    (fun j => (Function.update pc i p j).mode) =
      Function.update (fun j => (pc j).mode) i p.mode := by
  funext j
  by_cases hj : j = i
  · subst hj
    simp
  · simp [hj]

omit [Fintype ι] in
theorem balanced_update (hb : ∀ j, Balanced (pc j) (taken j) (released j)) {t r : ℕ}
    (hi : Balanced p t r) (j : ι) :
    Balanced (Function.update pc i p j) (Function.update taken i t j)
      (Function.update released i r j) := by
  by_cases hj : j = i
  · subst hj
    simpa using hi
  · simpa [hj] using hb j

/-- A step that leaves the lock alone. -/
theorem LockGood.goto (h : LockGood m pc taken released) (hmode : p.mode = (pc i).mode)
    (hb : Balanced (pc i) (taken i) (released i) → Balanced p (taken i) (released i)) :
    LockGood m (Function.update pc i p) taken released := by
  refine ⟨?_, ?_⟩
  · rw [mode_update, hmode, Function.update_eq_self]
    exact h.held
  · have hall := balanced_update h.balanced (i := i) (hb (h.balanced i))
    simpa only [Function.update_eq_self] using hall

theorem LockGood.lockShared (h : LockGood m pc taken released) (hm : m.lockShared = some m')
    (hi : pc i = .start ∨ pc i = .entering) :
    LockGood m' (Function.update pc i .locked) (Function.update taken i (taken i + 1))
      released := by
  have hfree : (pc i).mode = .free := by
    rcases hi with hi | hi
    · rw [hi]
      rfl
    · rw [hi]
      rfl
  have hbal : taken i = 0 ∧ released i = 0 := by
    have hb := h.balanced i
    rcases hi with hi | hi
    · rwa [hi] at hb
    · rwa [hi] at hb
  refine ⟨?_, ?_⟩
  · rw [mode_update]
    exact h.held.lockShared hfree hm
  · have hall := balanced_update h.balanced (i := i) (p := .locked) (t := taken i + 1)
      (r := released i) ⟨by omega, by omega⟩
    simpa only [Function.update_eq_self] using hall

theorem LockGood.unlockShared (h : LockGood m pc taken released) (hm : m.unlockShared = some m')
    (hi : pc i = .leaving ∧ p = .finished ∨ pc i = .unsharing ∧ p = .unshared) :
    LockGood m' (Function.update pc i p) taken
      (Function.update released i (released i + 1)) := by
  have hshared : (pc i).mode = .shared := by
    rcases hi with ⟨hi, -⟩ | ⟨hi, -⟩
    · rw [hi]
      rfl
    · rw [hi]
      rfl
  have hfree : p.mode = .free := by
    rcases hi with ⟨-, rfl⟩ | ⟨-, rfl⟩
    · rfl
    · rfl
  have hbal : Balanced p (taken i) (released i + 1) := by
    have hb := h.balanced i
    rcases hi with ⟨hi, rfl⟩ | ⟨hi, rfl⟩
    · rw [hi] at hb
      exact ⟨hb.1.le, by rw [hb.1, hb.2]⟩
    · rw [hi] at hb
      exact ⟨hb.1, by rw [hb.2]⟩
  refine ⟨?_, ?_⟩
  · rw [mode_update, hfree]
    exact h.held.unlockShared hshared hm
  · have hall := balanced_update h.balanced (i := i) hbal
    simpa only [Function.update_eq_self] using hall

/-- The steps of `RawConnection::Disconnect` after it has dropped the shared lock. -/
theorem LockGood.exclusive (h : LockGood m pc taken released)
    (hheld : Held m' (Function.update (fun j => (pc j).mode) i p.mode))
    (hb : Balanced (pc i) (taken i) (released i) → Balanced p (taken i) (released i)) :
    LockGood m' (Function.update pc i p) taken released := by
  refine ⟨by rwa [mode_update], ?_⟩
  have hall := balanced_update h.balanced (i := i) (hb (h.balanced i))
  simpa only [Function.update_eq_self] using hall

end Lock

/-! ### The close -/

/-- The thread that set `CLOSING` and has not finished. -/
def Pc.IsCloser (p : Pc) : Prop := p = .set ∨ p = .unlocked ∨ p = .implClosed

/-- How far the thread `k` that set `CLOSING` has come. -/
def Stage (k : ι) (socketClosers implClosers : List ι) (notified : List ℕ) : Pc → Prop
  | .set | .unlocked => socketClosers = [] ∧ implClosers = [] ∧ notified = []
  | .implClosed => socketClosers = [k] ∧ implClosers = [] ∧ notified = []
  | .finished => socketClosers = [k] ∧ (implClosers = [] ∧ notified = [] ∨ implClosers = [k])
  | _ => False

structure CloseGood (s : State ι) : Prop where
  body : ∀ i, s.pc i = .body → s.closing = false
  before : s.closing = false → s.closers = [] ∧ s.socketClosers = [] ∧ s.implClosers = [] ∧
    s.notified = [] ∧ ∀ i, ¬ (s.pc i).IsCloser
  after : s.closing = true → ∃ k, s.closers = [k] ∧ (∀ i, (s.pc i).IsCloser → i = k) ∧
    Stage k s.socketClosers s.implClosers s.notified (s.pc k)

variable {s s' : State ι} {i : ι} {p : Pc}

@[simp] theorem goto_pc_self (s : State ι) (i : ι) (p : Pc) : (s.goto i p).pc i = p :=
  Function.update_self ..

theorem goto_pc_of_ne {j : ι} (h : j ≠ i) : (s.goto i p).pc j = s.pc j :=
  Function.update_of_ne h ..

/-- A step of a thread that does not close the connection. -/
theorem CloseGood.goto (h : CloseGood s) (hi : ¬ (s.pc i).IsCloser ∧ s.pc i ≠ .finished)
    (hp : ¬ p.IsCloser) (hbody : p = .body → s.closing = false) :
    CloseGood (s.goto i p) := by
  have hpc : ∀ j, ((s.goto i p).pc j).IsCloser → (s.pc j).IsCloser := by
    intro j hj
    by_cases hji : j = i
    · subst hji
      rw [goto_pc_self] at hj
      exact absurd hj hp
    · rwa [goto_pc_of_ne hji] at hj
  refine ⟨?_, ?_, ?_⟩
  · intro j hj
    by_cases hji : j = i
    · subst hji
      rw [goto_pc_self] at hj
      exact hbody hj
    · rw [goto_pc_of_ne hji] at hj
      exact h.body j hj
  · intro hopen
    obtain ⟨hclosers, hsocket, himpl, hnotified, hnone⟩ := h.before hopen
    exact ⟨hclosers, hsocket, himpl, hnotified, fun j hj => hnone j (hpc j hj)⟩
  · intro hclosed
    obtain ⟨k, hclosers, hunique, hstage⟩ := h.after hclosed
    refine ⟨k, hclosers, fun j hj => hunique j (hpc j hj), ?_⟩
    have hki : k ≠ i := by
      rintro rfl
      cases hk : s.pc k <;> simp [hk, Stage, Pc.IsCloser] at hstage hi
    rwa [goto_pc_of_ne hki]

omit [DecidableEq ι] in
/-- Nobody is in its body while a thread holds the lock exclusively. -/
theorem ne_body_of_exclusive [Fintype ι] (h : Held s.mutex fun i => (s.pc i).mode)
    (hi : (s.pc i).mode = .exclusive) (j : ι) : s.pc j ≠ .body := by
  intro hj
  exact h.not_shared hi (j := j) (by simp [hj, Pc.mode])

/-- The step that sets `CLOSING`. -/
theorem CloseGood.setClosing (h : CloseGood s) (hopen : s.closing = false)
    (hnone : ∀ j, s.pc j ≠ .body) :
    CloseGood { s.goto i .set with closing := true, closers := s.closers ++ [i] } := by
  obtain ⟨hclosers, hsocket, himpl, hnotified, hothers⟩ := h.before hopen
  refine ⟨?_, fun hopen' => (by cases hopen'), fun _ => ⟨i, ?_, ?_, ?_⟩⟩
  · intro j (hj : (s.goto i .set).pc j = .body)
    by_cases hji : j = i
    · subst hji
      rw [goto_pc_self] at hj
      cases hj
    · rw [goto_pc_of_ne hji] at hj
      exact absurd hj (hnone j)
  · simp [hclosers]
  · intro j (hj : ((s.goto i .set).pc j).IsCloser)
    by_contra hji
    rw [goto_pc_of_ne hji] at hj
    exact hothers j hj
  · show Stage i s.socketClosers s.implClosers s.notified ((s.goto i .set).pc i)
    rw [goto_pc_self]
    exact ⟨hsocket, himpl, hnotified⟩

/-- A step of the thread that closes the connection, with what it adds. -/
theorem CloseGood.advance (h : CloseGood s) (hi : (s.pc i).IsCloser)
    {socketClosers implClosers : List ι} {notified listeners : List ℕ} {impl : Bool}
    {mutex : UpgradeMutex} (hp : p.IsCloser ∨ p = .finished)
    (hstage : Stage i s.socketClosers s.implClosers s.notified (s.pc i) →
      Stage i socketClosers implClosers notified p) :
    CloseGood { s.goto i p with
      socketClosers := socketClosers, implClosers := implClosers, notified := notified,
      listeners := listeners, impl := impl, mutex := mutex } := by
  have hclosed : s.closing = true := by
    by_contra hopen
    exact (h.before (by simpa using hopen)).2.2.2.2 i hi
  obtain ⟨k, hclosers, hunique, hk⟩ := h.after hclosed
  obtain rfl := hunique i hi
  refine ⟨?_, fun hopen => ?_, fun _ => ⟨i, hclosers, ?_, ?_⟩⟩
  · intro j (hj : (s.goto i p).pc j = .body)
    by_cases hji : j = i
    · subst hji
      rw [goto_pc_self] at hj
      rcases hp with hp | hp
      · simp [hj, Pc.IsCloser] at hp
      · simp [hj] at hp
    · rw [goto_pc_of_ne hji] at hj
      exact h.body j hj
  · exact absurd (hclosed.symm.trans hopen) (by simp)
  · intro j (hj : ((s.goto i p).pc j).IsCloser)
    by_contra hji
    rw [goto_pc_of_ne hji] at hj
    exact hji (hunique j hj)
  · show Stage i socketClosers implClosers notified ((s.goto i p).pc i)
    rw [goto_pc_self]
    exact hstage hk

/-! ### Steps and runs -/

/-- The numbers of registrations are used once. -/
structure ListenersGood (listeners : List ℕ) (nextListener : ℕ) (notified : List ℕ) : Prop where
  lt : ∀ l ∈ listeners, l < nextListener
  nodup : listeners.Nodup
  notified : notified.Nodup

variable [Fintype ι]

structure Good (s : State ι) : Prop where
  lock : LockGood s.mutex s.pc s.taken s.released
  close : CloseGood s
  listeners : ListenersGood s.listeners s.nextListener s.notified

omit [DecidableEq ι] in
theorem good_init : Good ({} : State ι) := by
  refine ⟨⟨held_free, fun _ => ⟨rfl, rfl⟩⟩, ⟨?_, ?_, ?_⟩, ⟨?_, ?_, ?_⟩⟩
  · rintro i ⟨⟩
  · intro _
    exact ⟨rfl, rfl, rfl, rfl, fun i hi => by simp [Pc.IsCloser] at hi⟩
  · rintro ⟨⟩
  · simp
  · simp
  · simp

/-- A step of a thread that leaves the lock and the close alone. -/
theorem Good.goto (h : Good s) (hi : ¬ (s.pc i).IsCloser ∧ s.pc i ≠ .finished)
    (hp : ¬ p.IsCloser) (hbody : p = .body → s.closing = false) (hmode : p.mode = (s.pc i).mode)
    (hb : Balanced (s.pc i) (s.taken i) (s.released i) → Balanced p (s.taken i) (s.released i)) :
    Good (s.goto i p) :=
  ⟨h.lock.goto hmode hb, h.close.goto hi hp hbody, h.listeners⟩

/-- A step of a thread that keeps the shared lock. -/
theorem Good.goto_shared (h : Good s) (hi : (s.pc i).mode = .shared) (hp : p.mode = .shared)
    (hbody : p = .body → s.closing = false) : Good (s.goto i p) := by
  have hcloser : ∀ q : Pc, q.mode = .shared → ¬ q.IsCloser ∧ q ≠ .finished := by
    intro q hq
    cases q <;> simp [Pc.mode, Pc.IsCloser] at hq ⊢
  have hbalanced : ∀ q : Pc, q.mode = .shared → ∀ t r, Balanced q t r ↔ t = 1 ∧ r = 0 := by
    intro q hq t r
    cases q <;> simp [Pc.mode, Balanced] at hq ⊢
  apply h.goto (hcloser _ hi) (hcloser p hp).1 hbody (hp.trans hi.symm)
  intro hb
  rw [hbalanced _ hi] at hb
  rwa [hbalanced p hp]

theorem Good.lockShared (h : Good s) (hi : s.pc i = .start ∨ s.pc i = .entering)
    (hstep : s.lockShared i = some s') : Good s' := by
  rw [State.lockShared, Option.map_eq_some_iff] at hstep
  obtain ⟨m, hm, rfl⟩ := hstep
  have hclose : CloseGood (s.goto i .locked) := by
    apply h.close.goto
    · rcases hi with hi | hi
      · simp [hi, Pc.IsCloser]
      · simp [hi, Pc.IsCloser]
    · simp [Pc.IsCloser]
    · simp
  exact ⟨h.lock.lockShared hm hi, ⟨hclose.body, hclose.before, hclose.after⟩, h.listeners⟩

theorem Good.unlockShared (h : Good s)
    (hi : s.pc i = .leaving ∧ p = .finished ∨ s.pc i = .unsharing ∧ p = .unshared)
    (hstep : s.unlockShared i p = some s') : Good s' := by
  rw [State.unlockShared, Option.map_eq_some_iff] at hstep
  obtain ⟨m, hm, rfl⟩ := hstep
  have hclose : CloseGood (s.goto i p) := by
    rcases hi with ⟨hi, rfl⟩ | ⟨hi, rfl⟩
    · exact h.close.goto (by simp [hi, Pc.IsCloser]) (by simp [Pc.IsCloser]) (by simp)
    · exact h.close.goto (by simp [hi, Pc.IsCloser]) (by simp [Pc.IsCloser]) (by simp)
  exact ⟨h.lock.unlockShared hm hi, ⟨hclose.body, hclose.before, hclose.after⟩, h.listeners⟩

/-- A step of `RawConnection::Disconnect` that moves the lock and not the close. -/
theorem Good.relock {m : UpgradeMutex} (h : Good s)
    (hi : ¬ (s.pc i).IsCloser ∧ s.pc i ≠ .finished) (hp : ¬ p.IsCloser ∧ p ≠ .body)
    (hheld : Held m (Function.update (fun j => (s.pc j).mode) i p.mode))
    (hb : Balanced (s.pc i) (s.taken i) (s.released i) → Balanced p (s.taken i) (s.released i)) :
    Good { s.goto i p with mutex := m } := by
  have hclose : CloseGood (s.goto i p) := h.close.goto hi hp.1 fun hbody => absurd hbody hp.2
  exact ⟨h.lock.exclusive hheld hb, ⟨hclose.body, hclose.before, hclose.after⟩, h.listeners⟩

/-- The step lemma for a thread. -/
theorem Good.run (h : Good s) {role : Role} (hstep : s.run role i = some s') : Good s' := by
  have hheld := h.lock.held
  unfold State.run at hstep
  cases hpc : s.pc i with
  | start =>
      rw [hpc] at hstep
      have hlock : ∀ t, s.lockShared i = some t → Good t := fun t => h.lockShared (Or.inl hpc)
      cases role with
      | disconnect =>
          obtain rfl := Option.some.inj hstep
          split
          · exact h.goto (by simp [hpc, Pc.IsCloser]) (by simp [Pc.IsCloser]) (by simp)
              (by rw [hpc]; rfl) (by rw [hpc]; rintro ⟨h1, h2⟩; exact ⟨by omega, by omega⟩)
          · exact h.goto (by simp [hpc, Pc.IsCloser]) (by simp [Pc.IsCloser]) (by simp)
              (by rw [hpc]; rfl) (by rw [hpc]; exact id)
      | handler => exact hlock s' hstep
      | expired => exact hlock s' hstep
      | operation => exact hlock s' hstep
  | entering =>
      rw [hpc] at hstep
      exact h.lockShared (Or.inr hpc) hstep
  | locked =>
      rw [hpc] at hstep
      have hshared : (s.pc i).mode = .shared := by
        rw [hpc]
        rfl
      have hleaving : Good (s.goto i .leaving) := h.goto_shared hshared rfl (by simp)
      have hbody : s.closing = false → Good (s.goto i .body) := fun hopen =>
        h.goto_shared hshared rfl fun _ => hopen
      cases role with
      | handler =>
          obtain rfl := Option.some.inj hstep
          split
          · exact hleaving
          · rename_i hopen
            exact hbody (by simpa using hopen)
      | expired | operation =>
          obtain rfl := Option.some.inj hstep
          split
          · exact hleaving
          · rename_i hopen
            rw [not_or] at hopen
            exact hbody (by simpa using hopen.1)
      | disconnect =>
          obtain rfl := Option.some.inj hstep
          split
          · exact h.goto_shared hshared rfl (by simp)
          · exact hleaving
  | body =>
      rw [hpc] at hstep
      obtain rfl := Option.some.inj hstep
      exact h.goto_shared (by rw [hpc]; rfl) rfl (by simp)
  | leaving =>
      rw [hpc] at hstep
      exact h.unlockShared (Or.inl ⟨hpc, rfl⟩) hstep
  | disconnect =>
      rw [hpc] at hstep
      obtain rfl := Option.some.inj hstep
      split
      · exact h.goto_shared (by rw [hpc]; rfl) rfl (by simp)
      · exact h.goto_shared (by rw [hpc]; rfl) rfl (by simp)
  | unsharing =>
      rw [hpc] at hstep
      exact h.unlockShared (Or.inr ⟨hpc, rfl⟩) hstep
  | unshared =>
      simp only [hpc, Option.map_eq_some_iff] at hstep
      obtain ⟨m, hm, rfl⟩ := hstep
      apply h.relock (by simp [hpc, Pc.IsCloser]) (by simp [Pc.IsCloser])
      · exact hheld.lockUpgrade (by simp [hpc, Pc.mode]) hm
      · rw [hpc]
        exact id
  | upgrade =>
      simp only [hpc, Option.map_eq_some_iff] at hstep
      obtain ⟨m, hm, rfl⟩ := hstep
      apply h.relock (by simp [hpc, Pc.IsCloser]) (by simp [Pc.IsCloser])
      · exact hheld.unlockUpgradeAndLock (by simp [hpc, Pc.mode]) hm
      · rw [hpc]
        exact id
  | exclusive =>
      simp only [hpc] at hstep
      split at hstep
      · obtain rfl := Option.some.inj hstep
        exact h.goto (by simp [hpc, Pc.IsCloser]) (by simp [Pc.IsCloser]) (by simp)
          (by rw [hpc]; rfl) (by rw [hpc]; exact id)
      · rename_i hopen
        obtain rfl := Option.some.inj hstep
        refine ⟨h.lock.goto (by rw [hpc]; rfl) (by rw [hpc]; exact id), ?_, h.listeners⟩
        exact h.close.setClosing (by simpa using hopen)
          (ne_body_of_exclusive hheld (i := i) (by simp [hpc, Pc.mode]))
  | rejected =>
      simp only [hpc, Option.map_eq_some_iff] at hstep
      obtain ⟨m, hm, rfl⟩ := hstep
      apply h.relock (by simp [hpc, Pc.IsCloser]) (by simp [Pc.IsCloser])
      · exact hheld.unlock (by simp [hpc, Pc.mode]) hm
      · rw [hpc]
        rintro ⟨htaken, hreleased⟩
        exact ⟨htaken.le, by omega⟩
  | set =>
      simp only [hpc, Option.map_eq_some_iff] at hstep
      obtain ⟨m, hm, rfl⟩ := hstep
      refine ⟨h.lock.exclusive (hheld.unlock (by simp [hpc, Pc.mode]) hm)
        (by rw [hpc]; exact id), ?_, h.listeners⟩
      exact h.close.advance (by simp [hpc, Pc.IsCloser]) (by simp [Pc.IsCloser])
        (by rw [hpc]; exact id)
  | unlocked =>
      simp only [hpc] at hstep
      obtain rfl := Option.some.inj hstep
      refine ⟨h.lock.goto ?_ ?_, h.close.advance (by simp [hpc, Pc.IsCloser]) ?_ ?_, h.listeners⟩
      · rw [hpc]
        split <;> rfl
      · rw [hpc]
        rintro ⟨h1, h2⟩
        split
        · exact ⟨h1, h2⟩
        · exact ⟨h1.le, by omega⟩
      · split
        · simp [Pc.IsCloser]
        · simp
      · rw [hpc]
        rintro ⟨hsocket, himpl, hnotified⟩
        split
        · exact ⟨by simp [hsocket], himpl, hnotified⟩
        · exact ⟨by simp [hsocket], Or.inl ⟨himpl, hnotified⟩⟩
  | implClosed => simp [hpc] at hstep
  | finished => simp [hpc] at hstep

theorem Good.step (h : Good s) {role : ι → Role} {e : Event ι}
    (hstep : Teardown.step role s e = some s') : Good s' := by
  cases e with
  | register =>
      obtain rfl := Option.some.inj hstep
      refine ⟨h.lock, ⟨h.close.body, h.close.before, h.close.after⟩, ?_, ?_, h.listeners.notified⟩
      · intro l hl
        rcases List.mem_append.mp hl with hl | hl
        · exact Nat.lt_succ_of_lt (h.listeners.lt l hl)
        · rw [List.mem_singleton.mp hl]
          exact Nat.lt_succ_self _
      · refine h.listeners.nodup.append (List.nodup_singleton _) ?_
        intro l hl hnew
        rw [List.mem_singleton.mp hnew] at hl
        exact lt_irrefl _ (h.listeners.lt _ hl)
  | run i => exact h.run hstep
  | fail i =>
      simp only [Teardown.step] at hstep
      split at hstep
      swap
      · cases hstep
      rename_i hbody
      obtain rfl := Option.some.inj hstep
      exact h.goto_shared (by rw [hbody.1]; rfl) rfl (by simp)
  | notify i expired =>
      simp only [Teardown.step] at hstep
      split at hstep
      swap
      · cases hstep
      rename_i hpc
      obtain rfl := Option.some.inj hstep
      have hcloser : (s.pc i).IsCloser := by simp [hpc, Pc.IsCloser]
      have hclosed : s.closing = true := by
        by_contra hopen
        exact (h.close.before (by simpa using hopen)).2.2.2.2 i hcloser
      obtain ⟨k, -, hunique, hstage⟩ := h.close.after hclosed
      obtain rfl := hunique i hcloser
      rw [hpc] at hstage
      obtain ⟨hsocket, himpl, hnotified⟩ := hstage
      refine ⟨h.lock.goto (by rw [hpc]; rfl) ?_, h.close.advance hcloser (Or.inr rfl) ?_, ?_, ?_,
        ?_⟩
      · rw [hpc]
        rintro ⟨h1, h2⟩
        exact ⟨h1.le, by omega⟩
      · rw [hpc]
        rintro -
        exact ⟨hsocket, Or.inr (by simp [himpl])⟩
      · simp
      · simp
      · rw [hnotified, List.nil_append]
        exact h.listeners.nodup.filter _

omit [Fintype ι] [DecidableEq ι] in
/-- Only the thread that set `CLOSING` closes the socket and runs `ImplClosed`. -/
theorem CloseGood.closers (h : CloseGood s) :
    (s.closing = true ↔ s.closers.length = 1) ∧ s.closers.length ≤ 1 ∧
      s.socketClosers.Sublist s.closers ∧ s.implClosers.Sublist s.closers := by
  cases hclosing : s.closing with
  | false =>
      obtain ⟨hclosers, hsocket, himpl, -, -⟩ := h.before hclosing
      simp [hclosers, hsocket, himpl]
  | true =>
      obtain ⟨k, hclosers, -, hstage⟩ := h.after hclosing
      rw [hclosers]
      refine ⟨by simp, by simp, ?_⟩
      cases hk : s.pc k with
      | set | unlocked | implClosed =>
          rw [hk] at hstage
          obtain ⟨hsocket, himpl, -⟩ := hstage
          simp [hsocket, himpl]
      | finished =>
          rw [hk] at hstage
          obtain ⟨hsocket, ⟨himpl, -⟩ | himpl⟩ := hstage
          · simp [hsocket, himpl]
          · simp [hsocket, himpl]
      | _ =>
          rw [hk] at hstage
          exact hstage.elim

theorem Balanced.le {p : Pc} {taken released : ℕ} (h : Balanced p taken released) :
    released ≤ taken ∧ taken ≤ 1 ∧ (p = .finished → released = taken) := by
  cases p with
  | finished => exact ⟨h.2.le, h.1, fun _ => h.2⟩
  | _ =>
      obtain ⟨h1, h2⟩ := h
      refine ⟨by omega, by omega, ?_⟩
      rintro ⟨⟩

end Tt3d.Network.Teardown
