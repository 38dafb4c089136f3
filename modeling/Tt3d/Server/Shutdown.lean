import Mathlib.Data.Multiset.UnionInter
import Tt3d.Lib.Machine
import Tt3d.Lib.UpgradeMutex
import Tt3d.Server.Channels

/-!
`HandleAccept`, `ConnectionClosed` and `Stop` on any number of threads.

A call of `HandleAccept` holds `stop_mutex_` shared and `Stop` holds it exclusively;
each section under `channel_table_mutex_` is one step. Calls are told apart only by
where they stand. The server is not listened on again once `Stop` has taken off the
connections.
-/

namespace Tt3d.Server.Shutdown

/-- Where a call of `HandleAccept` stands that holds `stop_mutex_`. -/
inductive Accept
  | entered
  /-- Past the test of the pool. -/
  | running
  | spanned (connection : ℕ)
  /-- Behind its section. -/
  | inserted
  deriving DecidableEq, Repr

/-- Where the call of `Stop` stands that holds `stop_mutex_`. -/
inductive Stopper
  | none
  | entered
  | running
  /-- Behind its section. -/
  | closed
  /-- Behind `notifier_->Wait()`. -/
  | waited
  | poolStopped
  deriving DecidableEq, Repr

structure State where
  channels : Channels ℕ := {}
  stopMutex : UpgradeMutex := {}
  /-- `io_service_pool_.IsRunning()`. -/
  isRunning : Bool := false
  accepts : Multiset Accept := 0
  stopper : Stopper := .none
  /-- The calls of `Stop` at their last `CHECK`. -/
  checking : ℕ := 0
  /-- The connections that `Span` has made, numbered from 0. -/
  spanned : ℕ := 0
  /-- The connections that have been entered into the table. -/
  accepted : Multiset ℕ := 0
  /-- The connections that have been subtracted from the count. -/
  subtracted : Multiset ℕ := 0
  /-- The section of `Stop` has been executed. -/
  stopped : Bool := false
  deriving DecidableEq

inductive Event
  /-- `io_service_pool_.Start()` in `Listen`. -/
  | listen
  /-- `HandleAccept`: `stop_mutex_.lock_shared()`. -/
  | handleAccept
  | testRunning
  | span (null : Bool)
  /-- The section of `HandleAccept`; `RegisterAsyncCloseListener` never fails. -/
  | insert (connection : ℕ)
  | leave
  | connectionClosed (connection : ℕ)
  /-- `Stop`: `stop_mutex_.lock()`. -/
  | stop
  | testStopped
  | closeAll
  | wait
  /-- `io_service_pool_.Stop()`. -/
  | poolStop
  | unlock
  /-- `CHECK( channel_table_.empty() )`. -/
  | check
  deriving DecidableEq, Repr

/-- A call of `HandleAccept` goes on from where it stands, or ends. -/
def State.move (s : State) (a : Accept) (next : Multiset Accept) : State :=
  { s with accepts := next + s.accepts.erase a }

def State.connectionClosed (s : State) (connection : ℕ) : Option State :=
  (s.channels.connectionClosed connection).map fun channels =>
    { s with
      channels := channels
      subtracted :=
        if connection ∈ s.channels.channelTable then connection ::ₘ s.subtracted
        else s.subtracted }

def step (s : State) : Event → Option State
  | .listen => if s.stopped then none else some { s with isRunning := true }
  | .handleAccept =>
      s.stopMutex.lockShared.map fun m =>
        { s with stopMutex := m, accepts := .entered ::ₘ s.accepts }
  | .testRunning =>
      if .entered ∈ s.accepts then
        if s.isRunning then some (s.move .entered {.running})
        else s.stopMutex.unlockShared.map fun m => { s.move .entered 0 with stopMutex := m }
      else none
  | .span null =>
      if .running ∈ s.accepts then
        -- A NULL connection: `HandleAccept` returns and keeps the lock.
        if null then some (s.move .running 0)
        else some { s.move .running {.spanned s.spanned} with spanned := s.spanned + 1 }
      else none
  | .insert connection =>
      if .spanned connection ∈ s.accepts then
        (s.channels.insert connection).map fun channels =>
          { s.move (.spanned connection) {.inserted} with
            channels := channels
            accepted := connection ::ₘ s.accepted }
      else none
  | .leave =>
      if .inserted ∈ s.accepts then
        s.stopMutex.unlockShared.map fun m => { s.move .inserted 0 with stopMutex := m }
      else none
  | .connectionClosed connection => s.connectionClosed connection
  | .stop => s.stopMutex.lock.map fun m => { s with stopMutex := m, stopper := .entered }
  | .testStopped =>
      if s.stopper = .entered then
        if s.isRunning then some { s with stopper := .running }
        else s.stopMutex.unlock.map fun m => { s with stopMutex := m, stopper := .none }
      else none
  | .closeAll =>
      if s.stopper = .running then
        s.channels.closeAll.map fun channels =>
          { s with
            channels := channels
            subtracted := s.channels.channelTable + s.subtracted
            stopper := .closed
            stopped := true }
      else none
  | .wait =>
      if s.stopper = .closed ∧ s.channels.notifier.notified then
        some { s with stopper := .waited }
      else none
  | .poolStop =>
      if s.stopper = .waited then some { s with isRunning := false, stopper := .poolStopped }
      else none
  | .unlock =>
      if s.stopper = .poolStopped then
        s.stopMutex.unlock.map fun m =>
          { s with stopMutex := m, stopper := .none, checking := s.checking + 1 }
      else none
  | .check =>
      if s.checking ≠ 0 ∧ s.channels.channelTable = [] then
        some { s with checking := s.checking - 1 }
      else none

/-! ### The invariant -/

def Accept.connection : Accept → Option ℕ
  | .spanned connection => some connection
  | .entered | .running | .inserted => none

/-- What the place of the call of `Stop` says about its section. -/
def Stopper.Agrees (stopped isRunning : Bool) : Stopper → Prop
  | .running => stopped = false
  | .closed | .waited => stopped = true
  | .poolStopped => stopped = true ∧ isRunning = false
  | .none | .entered => stopped = true → isRunning = false

/-- Who holds `stop_mutex_`, and what that keeps out. -/
structure Locked (s : State) : Prop where
  shared : s.accepts.card ≤ s.stopMutex.shared
  exclusive : s.stopMutex.exclusive = true ↔ s.stopper ≠ .none
  alone : s.stopMutex.exclusive = true → s.stopMutex.shared = 0
  /-- Nobody is between the test of the pool and the end of `HandleAccept` when `Stop`
  has executed its section. -/
  early : ∀ a ∈ s.accepts, a ≠ .entered → s.stopped = false
  agrees : s.stopper.Agrees s.stopped s.isRunning
  checked : s.checking ≠ 0 → s.stopped = true

/-- The connections made, whether they are still to be entered or have been. -/
def State.made (s : State) : Multiset ℕ := s.accepts.filterMap Accept.connection + s.accepted

structure Accounted (s : State) : Prop where
  counted : s.stopped = false → s.channels.Counted
  closed : s.stopped = true → s.channels = { channelTable := [], notifier := ⟨0, true⟩ }
  /-- A connection is in the table or has been subtracted, and that once. -/
  once : s.subtracted + (s.channels.channelTable : Multiset ℕ) = s.accepted
  fresh : s.made.Nodup
  numbered : ∀ c ∈ s.made, c < s.spanned

variable {s s' : State}

theorem locked_init : Locked {} :=
  ⟨Nat.le_refl 0, by simp, by simp, by simp, by simp [Stopper.Agrees], by simp⟩

theorem accounted_init : Accounted {} :=
  ⟨fun _ => Channels.counted_init, by simp, rfl, Multiset.nodup_zero, by simp [State.made]⟩

/-! ### The mutex -/

theorem card_move {a : Accept} (h : a ∈ s.accepts) (next : Multiset Accept) :
    (s.move a next).accepts.card + 1 = next.card + s.accepts.card := by
  have hcard := Multiset.card_erase_add_one h
  simp only [State.move, Multiset.card_add]
  omega

theorem mem_move {a b : Accept} {next : Multiset Accept} (hb : b ∈ (s.move a next).accepts) :
    b ∈ next ∨ b ∈ s.accepts :=
  (Multiset.mem_add.mp hb).imp_right Multiset.mem_of_mem_erase

/-- A call that holds the mutex keeps `Stop` out. -/
theorem Locked.not_exclusive (h : Locked s) {a : Accept} (ha : a ∈ s.accepts) :
    s.stopMutex.exclusive = false := by
  by_contra hexcl
  have hzero := h.alone (by simpa using hexcl)
  have hpos : 0 < s.accepts.card := Multiset.card_pos_iff_exists_mem.mpr ⟨a, ha⟩
  have := h.shared
  omega

/-- A call of `HandleAccept` goes on and keeps the mutex. -/
theorem Locked.move (h : Locked s) {a : Accept} (ha : a ∈ s.accepts) {next : Multiset Accept}
    (hnext : next.card ≤ 1) (hearly : s.stopped = false) : Locked (s.move a next) := by
  have hcard := card_move ha next
  have hshared := h.shared
  refine ⟨?_, h.exclusive, h.alone, fun _ _ _ => hearly, h.agrees, h.checked⟩
  show (s.move a next).accepts.card ≤ s.stopMutex.shared
  omega

/-- A call of `HandleAccept` ends and gives the mutex back. -/
theorem Locked.leave (h : Locked s) {a : Accept} (ha : a ∈ s.accepts) {m : UpgradeMutex}
    (hm : s.stopMutex.unlockShared = some m) : Locked { s.move a 0 with stopMutex := m } := by
  have hfree := h.not_exclusive ha
  have hcard := card_move ha 0
  have hshared := h.shared
  unfold UpgradeMutex.unlockShared at hm
  split at hm <;> cases hm
  rw [Multiset.card_zero] at hcard
  refine ⟨?_, h.exclusive, fun hexcl => ?_, fun b hb => ?_, h.agrees, h.checked⟩
  · show (s.move a 0).accepts.card ≤ s.stopMutex.shared - 1
    omega
  · rw [hfree] at hexcl
    cases hexcl
  · exact h.early b ((mem_move hb).resolve_left (Multiset.notMem_zero b))

/-- The rest of the state does not matter. -/
theorem Locked.congr (h : Locked s) (hmutex : s'.stopMutex = s.stopMutex)
    (haccepts : s'.accepts = s.accepts) (hstopper : s'.stopper = s.stopper)
    (hstopped : s'.stopped = s.stopped) (hrunning : s'.isRunning = s.isRunning)
    (hchecked : s'.checking ≠ 0 → s.checking ≠ 0) : Locked s' := by
  obtain ⟨hshared, hexclusive, halone, hearly, hagrees, hchecking⟩ := h
  refine ⟨?_, ?_, ?_, ?_, ?_, ?_⟩
  · rwa [hmutex, haccepts]
  · rwa [hmutex, hstopper]
  · rwa [hmutex]
  · rwa [haccepts, hstopped]
  · rwa [hstopper, hstopped, hrunning]
  · rw [hstopped]
    exact fun h => hchecking (hchecked h)

/-- `Stop` goes on and keeps the mutex. -/
theorem Locked.stopper (h : Locked s) (hin : s.stopper ≠ .none)
    (hmutex : s'.stopMutex = s.stopMutex) (haccepts : s'.accepts = s.accepts)
    (hout : s'.stopper ≠ .none) (hagrees : s'.stopper.Agrees s'.stopped s'.isRunning)
    (hchecked : s'.checking ≠ 0 → s'.stopped = true) : Locked s' := by
  have hexcl := h.exclusive.mpr hin
  have hempty : s.accepts = 0 := by
    have hshared := h.shared
    rw [h.alone hexcl] at hshared
    exact Multiset.card_eq_zero.mp (Nat.le_zero.mp hshared)
  refine ⟨?_, ?_, ?_, fun a ha => ?_, hagrees, hchecked⟩
  · rw [hmutex, haccepts]
    exact h.shared
  · rw [hmutex]
    exact iff_of_true hexcl hout
  · rw [hmutex]
    exact h.alone
  · rw [haccepts, hempty] at ha
    exact absurd ha (Multiset.notMem_zero a)

/-- `Stop` gives the mutex back. -/
theorem Locked.unlock (h : Locked s) {m : UpgradeMutex} (hm : s.stopMutex.unlock = some m)
    (hagrees : s.stopped = true → s.isRunning = false) {checking : ℕ}
    (hchecked : checking ≠ 0 → s.stopped = true) :
    Locked { s with stopMutex := m, stopper := .none, checking := checking } := by
  unfold UpgradeMutex.unlock at hm
  split at hm <;> cases hm
  exact ⟨h.shared, by simp, by simp, h.early, hagrees, hchecked⟩

theorem Locked.step (h : Locked s) {a : Event} (hstep : Shutdown.step s a = some s') :
    Locked s' := by
  obtain ⟨hshared, hexclusive, halone, hearly, hagrees, hchecked⟩ := id h
  cases a with
  | listen =>
      simp only [Shutdown.step] at hstep
      split at hstep <;> cases hstep
      rename_i hstopped
      rw [Bool.not_eq_true] at hstopped
      refine ⟨hshared, hexclusive, halone, hearly, ?_, hchecked⟩
      rw [hstopped] at hagrees ⊢
      cases hcase : s.stopper <;> rw [hcase] at hagrees <;>
        first | exact hagrees | simp [Stopper.Agrees] at *
  | handleAccept =>
      simp only [Shutdown.step, Option.map_eq_some_iff] at hstep
      obtain ⟨m, hm, rfl⟩ := hstep
      unfold UpgradeMutex.lockShared at hm
      split at hm <;> cases hm
      rename_i hexcl
      refine ⟨?_, hexclusive, fun h => absurd h hexcl, fun b hb hne => ?_, hagrees,
        hchecked⟩
      · simpa using hshared
      · exact hearly b ((Multiset.mem_cons.mp hb).resolve_left hne) hne
  | testRunning =>
      simp only [Shutdown.step] at hstep
      split at hstep
      swap
      · cases hstep
      rename_i hmem
      split at hstep
      · rename_i hrunning
        cases hstep
        -- The mutex keeps `Stop` out, so the pool would not run behind its section.
        have hnone : s.stopper = .none := by
          by_contra hne
          exact absurd (hexclusive.mpr hne) (by simp [h.not_exclusive hmem])
        rw [hnone] at hagrees
        refine h.move hmem (by simp) ?_
        by_contra hstopped
        rw [hagrees (by simpa using hstopped)] at hrunning
        cases hrunning
      · rw [Option.map_eq_some_iff] at hstep
        obtain ⟨m, hm, rfl⟩ := hstep
        exact h.leave hmem hm
  | span null =>
      simp only [Shutdown.step] at hstep
      split at hstep
      swap
      · cases hstep
      rename_i hmem
      have hstopped := hearly _ hmem (by simp)
      split at hstep <;> cases hstep
      · exact h.move hmem (by simp) hstopped
      · exact (h.move hmem (by simp) hstopped).congr rfl rfl rfl rfl rfl id
  | insert c =>
      simp only [Shutdown.step] at hstep
      split at hstep
      swap
      · cases hstep
      rename_i hmem
      rw [Option.map_eq_some_iff] at hstep
      obtain ⟨channels, -, rfl⟩ := hstep
      exact (h.move hmem (by simp) (hearly _ hmem (by simp))).congr rfl rfl rfl rfl rfl id
  | leave =>
      simp only [Shutdown.step] at hstep
      split at hstep
      swap
      · cases hstep
      rename_i hmem
      rw [Option.map_eq_some_iff] at hstep
      obtain ⟨m, hm, rfl⟩ := hstep
      exact h.leave hmem hm
  | connectionClosed c =>
      simp only [Shutdown.step, State.connectionClosed, Option.map_eq_some_iff] at hstep
      obtain ⟨channels, -, rfl⟩ := hstep
      exact h.congr rfl rfl rfl rfl rfl id
  | stop =>
      simp only [Shutdown.step, Option.map_eq_some_iff] at hstep
      obtain ⟨m, hm, rfl⟩ := hstep
      unfold UpgradeMutex.lock at hm
      split at hm <;> cases hm
      rename_i hfree
      rw [not_or, not_or, not_not] at hfree
      obtain ⟨hexcl, -, hzero⟩ := hfree
      have hnone : s.stopper = .none := by
        by_contra hne
        exact hexcl (hexclusive.mpr hne)
      rw [hnone] at hagrees
      exact ⟨hshared, by simp, fun _ => hzero, hearly, hagrees, hchecked⟩
  | testStopped =>
      simp only [Shutdown.step] at hstep
      split at hstep
      swap
      · cases hstep
      rename_i hentered
      rw [hentered] at hagrees
      split at hstep
      · rename_i hrunning
        cases hstep
        refine h.stopper (by simp [hentered]) rfl rfl (by simp) (show s.stopped = false from ?_)
          hchecked
        by_contra hstopped
        rw [hagrees (by simpa using hstopped)] at hrunning
        cases hrunning
      · rw [Option.map_eq_some_iff] at hstep
        obtain ⟨m, hm, rfl⟩ := hstep
        exact h.unlock hm hagrees hchecked
  | closeAll =>
      simp only [Shutdown.step] at hstep
      split at hstep
      swap
      · cases hstep
      rename_i hrunning
      rw [Option.map_eq_some_iff] at hstep
      obtain ⟨channels, -, rfl⟩ := hstep
      exact h.stopper (by simp [hrunning]) rfl rfl (by simp) rfl fun _ => rfl
  | wait =>
      simp only [Shutdown.step] at hstep
      split at hstep <;> cases hstep
      rename_i hclosed
      rw [hclosed.1] at hagrees
      exact h.stopper (by simp [hclosed.1]) rfl rfl (by simp) hagrees hchecked
  | poolStop =>
      simp only [Shutdown.step] at hstep
      split at hstep <;> cases hstep
      rename_i hwaited
      rw [hwaited] at hagrees
      exact h.stopper (by simp [hwaited]) rfl rfl (by simp) ⟨hagrees, rfl⟩ hchecked
  | unlock =>
      simp only [Shutdown.step] at hstep
      split at hstep
      swap
      · cases hstep
      rename_i hpool
      rw [hpool] at hagrees
      rw [Option.map_eq_some_iff] at hstep
      obtain ⟨m, hm, rfl⟩ := hstep
      exact h.unlock hm (fun _ => hagrees.2) fun _ => hagrees.1
  | check =>
      simp only [Shutdown.step] at hstep
      split at hstep <;> cases hstep
      rename_i hguard
      exact h.congr rfl rfl rfl rfl rfl fun _ => hguard.1

/-! ### The account -/

theorem accepts_eq {a : Accept} (h : a ∈ s.accepts) : s.accepts = a ::ₘ s.accepts.erase a :=
  (Multiset.cons_erase h).symm

theorem made_move {a : Accept} (h : a ∈ s.accepts) (ha : a.connection = none)
    (next : Multiset Accept) :
    (s.move a next).made = next.filterMap Accept.connection + s.made := by
  have hrest : s.accepts.filterMap Accept.connection =
      (s.accepts.erase a).filterMap Accept.connection := by
    conv_lhs => rw [accepts_eq h, Multiset.filterMap_cons_none _ _ ha]
  rw [State.made, State.made, hrest, ← Multiset.add_assoc, ← Multiset.filterMap_add]
  rfl

/-- What the account depends on. -/
theorem Accounted.congr (h : Accounted s) (hchannels : s'.channels = s.channels)
    (hmade : s'.made = s.made) (hspanned : s'.spanned = s.spanned)
    (haccepted : s'.accepted = s.accepted) (hsubtracted : s'.subtracted = s.subtracted)
    (hstopped : s'.stopped = s.stopped) : Accounted s' := by
  obtain ⟨hcounted, hclosed, honce, hfresh, hnumbered⟩ := h
  refine ⟨?_, ?_, ?_, ?_, ?_⟩
  · rwa [hstopped, hchannels]
  · rwa [hstopped, hchannels]
  · rwa [hsubtracted, hchannels, haccepted]
  · rwa [hmade]
  · rwa [hmade, hspanned]

/-- A call of `HandleAccept` that has no connection moves on or ends. -/
theorem Accounted.move (h : Accounted s) {a : Accept} (ha : a ∈ s.accepts)
    (hnone : a.connection = none) {next : Multiset Accept}
    (hnext : next.filterMap Accept.connection = 0) (m : UpgradeMutex) :
    Accounted { s.move a next with stopMutex := m } := by
  refine h.congr rfl ?_ rfl rfl rfl rfl
  exact (made_move ha hnone next).trans (by rw [hnext, Multiset.zero_add])

theorem Accounted.span (h : Accounted s) (ha : .running ∈ s.accepts) :
    Accounted { s.move .running {.spanned s.spanned} with spanned := s.spanned + 1 } := by
  obtain ⟨hcounted, hclosed, honce, hfresh, hnumbered⟩ := h
  have hmade : State.made { s.move .running {.spanned s.spanned} with spanned := s.spanned + 1 } =
      s.spanned ::ₘ s.made := made_move ha rfl {.spanned s.spanned}
  refine ⟨hcounted, hclosed, honce, ?_, ?_⟩
  · rw [hmade, Multiset.nodup_cons]
    exact ⟨fun hmem => Nat.lt_irrefl _ (hnumbered _ hmem), hfresh⟩
  · intro c hc
    rw [hmade, Multiset.mem_cons] at hc
    rcases hc with rfl | hc
    · exact Nat.lt_succ_self _
    · exact Nat.lt_succ_of_lt (hnumbered c hc)

/-- The section of `HandleAccept`: a connection that `Span` has made is new to the
table. -/
theorem Accounted.insert (h : Accounted s) {c : ℕ} (hc : .spanned c ∈ s.accepts)
    (hstopped : s.stopped = false) {channels : Channels ℕ}
    (hinsert : s.channels.insert c = some channels) :
    Accounted
      { s.move (.spanned c) {.inserted} with
        channels := channels
        accepted := c ::ₘ s.accepted } := by
  obtain ⟨hcounted, -, honce, hfresh, hnumbered⟩ := h
  have hsplit : s.made =
      c ::ₘ ((s.accepts.erase (.spanned c)).filterMap Accept.connection + s.accepted) := by
    rw [State.made]
    conv_lhs => rw [accepts_eq hc, Multiset.filterMap_cons_some _ _ _ (rfl :
      Accept.connection (.spanned c) = some c)]
    rw [Multiset.cons_add]
  have hmade : State.made { s.move (.spanned c) {.inserted} with
      channels := channels, accepted := c ::ₘ s.accepted } = s.made := by
    rw [hsplit, ← Multiset.add_cons, State.made]
    simp only [State.move]
    rw [Multiset.singleton_add, Multiset.filterMap_cons_none _ _ rfl]
  have hnew : c ∉ s.channels.channelTable := by
    intro hmem
    rw [hsplit, Multiset.nodup_cons] at hfresh
    refine hfresh.1 (Multiset.mem_add.mpr (Or.inr ?_))
    rw [← honce]
    exact Multiset.mem_add.mpr (Or.inr hmem)
  obtain ⟨hcounted', htable⟩ := (hcounted hstopped).insert hnew hinsert
  refine ⟨fun _ => hcounted', fun h => ?_, ?_, by rwa [hmade], by rwa [hmade]⟩
  · exact absurd (hstopped.symm.trans h) (by simp)
  · simp only [State.move, htable]
    rw [← Multiset.coe_add, ← Multiset.add_assoc, honce, Multiset.add_comm]
    rfl

theorem Accounted.connectionClosed (h : Accounted s) {c : ℕ}
    (hstep : s.connectionClosed c = some s') : Accounted s' := by
  obtain ⟨hcounted, hclosed, honce, hfresh, hnumbered⟩ := h
  simp only [State.connectionClosed, Option.map_eq_some_iff] at hstep
  obtain ⟨channels, hchannels, rfl⟩ := hstep
  by_cases hmem : c ∈ s.channels.channelTable
  · have hstopped : s.stopped = false := by
      by_contra hstopped
      rw [hclosed (by simpa using hstopped)] at hmem
      exact absurd hmem List.not_mem_nil
    obtain ⟨hcounted', htable⟩ := (hcounted hstopped).connectionClosed hchannels
    refine ⟨fun _ => hcounted', fun h => ?_, ?_, hfresh, hnumbered⟩
    · exact absurd (hstopped.symm.trans h) (by simp)
    · simp only [htable, if_pos hmem]
      rw [← honce, Multiset.cons_add, ← Multiset.add_cons, ← Multiset.coe_erase,
        Multiset.cons_erase (Multiset.mem_coe.mpr hmem)]
  · rw [Channels.connectionClosed, if_neg hmem] at hchannels
    cases hchannels
    rw [if_neg hmem]
    exact ⟨hcounted, hclosed, honce, hfresh, hnumbered⟩

theorem Accounted.closeAll (h : Accounted s) (hstopped : s.stopped = false)
    {channels : Channels ℕ} (hchannels : s.channels.closeAll = some channels) (u : Stopper) :
    Accounted
      { s with
        channels := channels
        subtracted := s.channels.channelTable + s.subtracted
        stopper := u
        stopped := true } := by
  obtain ⟨hcounted, -, honce, hfresh, hnumbered⟩ := h
  rw [(hcounted hstopped).closeAll_eq] at hchannels
  cases hchannels
  refine ⟨fun h => (by cases h), fun _ => rfl, ?_, hfresh, hnumbered⟩
  rw [← honce, Multiset.add_comm s.subtracted]
  exact Multiset.add_zero _

theorem Accounted.step (h : Accounted s) (hlocked : Locked s) {a : Event}
    (hstep : Shutdown.step s a = some s') : Accounted s' := by
  cases a with
  | listen =>
      simp only [Shutdown.step] at hstep
      split at hstep <;> cases hstep
      exact h.congr rfl rfl rfl rfl rfl rfl
  | handleAccept =>
      simp only [Shutdown.step, Option.map_eq_some_iff] at hstep
      obtain ⟨m, -, rfl⟩ := hstep
      refine h.congr rfl ?_ rfl rfl rfl rfl
      rw [State.made, Multiset.filterMap_cons_none _ _ rfl]
      rfl
  | testRunning =>
      simp only [Shutdown.step] at hstep
      split at hstep
      swap
      · cases hstep
      rename_i hmem
      split at hstep
      · cases hstep
        exact h.move hmem rfl rfl s.stopMutex
      · rw [Option.map_eq_some_iff] at hstep
        obtain ⟨m, -, rfl⟩ := hstep
        exact h.move hmem rfl rfl m
  | span null =>
      simp only [Shutdown.step] at hstep
      split at hstep
      swap
      · cases hstep
      rename_i hmem
      split at hstep <;> cases hstep
      · exact h.move hmem rfl rfl s.stopMutex
      · exact h.span hmem
  | insert c =>
      simp only [Shutdown.step] at hstep
      split at hstep
      swap
      · cases hstep
      rename_i hmem
      rw [Option.map_eq_some_iff] at hstep
      obtain ⟨channels, hchannels, rfl⟩ := hstep
      exact h.insert hmem (hlocked.early _ hmem (by simp)) hchannels
  | leave =>
      simp only [Shutdown.step] at hstep
      split at hstep
      swap
      · cases hstep
      rename_i hmem
      rw [Option.map_eq_some_iff] at hstep
      obtain ⟨m, -, rfl⟩ := hstep
      exact h.move hmem rfl rfl m
  | connectionClosed c => exact h.connectionClosed hstep
  | stop =>
      simp only [Shutdown.step, Option.map_eq_some_iff] at hstep
      obtain ⟨m, -, rfl⟩ := hstep
      exact h.congr rfl rfl rfl rfl rfl rfl
  | testStopped =>
      simp only [Shutdown.step] at hstep
      split at hstep
      swap
      · cases hstep
      split at hstep
      · cases hstep
        exact h.congr rfl rfl rfl rfl rfl rfl
      · rw [Option.map_eq_some_iff] at hstep
        obtain ⟨m, -, rfl⟩ := hstep
        exact h.congr rfl rfl rfl rfl rfl rfl
  | closeAll =>
      simp only [Shutdown.step] at hstep
      split at hstep
      swap
      · cases hstep
      rename_i hrunning
      rw [Option.map_eq_some_iff] at hstep
      obtain ⟨channels, hchannels, rfl⟩ := hstep
      have hagrees := hlocked.agrees
      rw [hrunning] at hagrees
      exact h.closeAll hagrees hchannels _
  | wait | poolStop | check =>
      simp only [Shutdown.step] at hstep
      split at hstep <;> cases hstep
      exact h.congr rfl rfl rfl rfl rfl rfl
  | unlock =>
      simp only [Shutdown.step] at hstep
      split at hstep
      swap
      · cases hstep
      rw [Option.map_eq_some_iff] at hstep
      obtain ⟨m, -, rfl⟩ := hstep
      exact h.congr rfl rfl rfl rfl rfl rfl

/-- No `CHECK` fails in the next step, wherever a thread stands, and `Wait` returns at
once. -/
structure NoCheckFails (s : State) : Prop where
  insert : ∀ c, .spanned c ∈ s.accepts → (step s (.insert c)).isSome
  connectionClosed : ∀ c, (step s (.connectionClosed c)).isSome
  closeAll : s.stopper = .running → (step s .closeAll).isSome
  wait : s.stopper = .closed → (step s .wait).isSome
  check : s.checking ≠ 0 → (step s .check).isSome

theorem Accounted.noCheckFails (h : Accounted s) (hlocked : Locked s) : NoCheckFails s := by
  obtain ⟨hcounted, hclosed, honce, hfresh, -⟩ := h
  refine ⟨fun c hc => ?_, fun c => ?_, fun hrunning => ?_, fun hstopper => ?_, fun hchecking => ?_⟩
  · have hnew : c ∉ s.channels.channelTable := by
      intro hmem
      have hleft : c ∈ s.accepts.filterMap Accept.connection :=
        (Multiset.mem_filterMap _ _).mpr ⟨_, hc, rfl⟩
      have hright : c ∈ s.accepted := by
        rw [← honce]
        exact Multiset.mem_add.mpr (Or.inr hmem)
      exact Multiset.disjoint_left.mp (Multiset.disjoint_of_nodup_add hfresh) hleft hright
    have hinsert := (hcounted (hlocked.early _ hc (by simp))).insert_eq hnew
    simp [Shutdown.step, hc, hinsert]
  · by_cases hmem : c ∈ s.channels.channelTable
    · have hstopped : s.stopped = false := by
        by_contra hstopped
        rw [hclosed (by simpa using hstopped)] at hmem
        exact absurd hmem List.not_mem_nil
      simp [Shutdown.step, State.connectionClosed, (hcounted hstopped).connectionClosed_eq hmem]
    · simp [Shutdown.step, State.connectionClosed, Channels.connectionClosed, hmem]
  · have hagrees := hlocked.agrees
    rw [hrunning] at hagrees
    simp [Shutdown.step, hrunning, (hcounted hagrees).closeAll_eq]
  · have hagrees := hlocked.agrees
    rw [hstopper] at hagrees
    simp [Shutdown.step, hstopper, hclosed hagrees]
  · simp [Shutdown.step, hchecking, hclosed (hlocked.checked hchecking)]

/-- A connection that closes is taken off the table and subtracted, if it is there. -/
theorem Accounted.closes (h : Accounted s) {c : ℕ}
    (hstep : Shutdown.step s (.connectionClosed c) = some s') :
    if c ∈ s.channels.channelTable then
      s'.channels.channelTable = s.channels.channelTable.erase c ∧
        s'.channels.notifier.count = s.channels.notifier.count - 1 ∧
        s'.subtracted = c ::ₘ s.subtracted
    else s' = s := by
  obtain ⟨channels, hchannels, rfl⟩ := Option.map_eq_some_iff.mp hstep
  split
  · rename_i hmem
    have hopen : s.stopped = false := by
      by_contra hstopped
      rw [h.closed (by simpa using hstopped)] at hmem
      exact absurd hmem List.not_mem_nil
    rw [(h.counted hopen).connectionClosed_eq hmem] at hchannels
    obtain rfl := Option.some.inj hchannels
    exact ⟨rfl, rfl, rfl⟩
  · rename_i hmem
    rw [Channels.connectionClosed, if_neg hmem] at hchannels
    obtain rfl := Option.some.inj hchannels
    rfl

/-- **The accounting of the shutdown is exact**, whatever the interleaving. Until `Stop`
executes its section, the count is that of the table and one more, and nobody has been
notified; from then on it is 0 and notified. Each accepted connection is in the table
or has been subtracted, and that once, when it closes or by `Stop`, which leaves none. No
`CHECK` fails, and `Wait` returns at once. -/
theorem run_shutdown {es : List Event} (hrun : Machine.run step {} es = some s) :
    (s.stopped = false → s.channels.notifier.count = 1 + s.channels.channelTable.length ∧
      s.channels.notifier.notified = false) ∧
    (s.accepted.Nodup ∧ s.subtracted + (s.channels.channelTable : Multiset ℕ) = s.accepted) ∧
    (s.stopped = true → s.channels.channelTable = [] ∧ s.subtracted = s.accepted ∧
      s.channels.notifier.count = 0 ∧ s.channels.notifier.notified = true) ∧
    NoCheckFails s ∧
    ∀ c s', step s (.connectionClosed c) = some s' →
      if c ∈ s.channels.channelTable then
        s'.channels.channelTable = s.channels.channelTable.erase c ∧
          s'.channels.notifier.count = s.channels.notifier.count - 1 ∧
          s'.subtracted = c ::ₘ s.subtracted
      else s' = s := by
  obtain ⟨hlocked, haccounted⟩ : Locked s ∧ Accounted s :=
    Machine.run_invariant (I := fun s => Locked s ∧ Accounted s)
      (fun _ _ _ h hstep => ⟨h.1.step hstep, h.2.step h.1 hstep⟩) ⟨locked_init, accounted_init⟩ hrun
  refine ⟨fun hstopped => ?_, ⟨?_, haccounted.once⟩, fun hstopped => ?_,
    haccounted.noCheckFails hlocked, fun c s' => haccounted.closes⟩
  · exact ⟨(haccounted.counted hstopped).count, (haccounted.counted hstopped).notified⟩
  · exact (Multiset.nodup_add.mp haccounted.fresh).2.1
  · have honce := haccounted.once
    rw [haccounted.closed hstopped] at honce ⊢
    exact ⟨rfl, (Multiset.add_zero _).symm.trans honce, rfl, rfl⟩

/-- One of two connections closes itself before `Stop` executes its section, and the other
one afterwards. -/
theorem run_shutdown_closed_twice :
    ∃ s s' t, Machine.run step {} [.listen, .handleAccept, .testRunning, .span false, .insert 0,
        .leave, .handleAccept, .testRunning, .span false, .insert 1, .leave] = some s ∧
      step s (.connectionClosed 0) = some s' ∧
      Machine.run step s' [.stop, .testStopped, .closeAll, .connectionClosed 1, .wait] = some t ∧
      s'.channels.channelTable = s.channels.channelTable.erase 0 ∧
      s'.channels.notifier.count = s.channels.notifier.count - 1 ∧
      t.channels.channelTable = [] ∧ t.subtracted = t.accepted := by
  obtain ⟨s, s', t, hs, hs', ht, hmem, hstopped⟩ : ∃ s s' t,
      Machine.run step {} [.listen, .handleAccept, .testRunning, .span false, .insert 0,
        .leave, .handleAccept, .testRunning, .span false, .insert 1, .leave] = some s ∧
      step s (.connectionClosed 0) = some s' ∧
      Machine.run step s' [.stop, .testStopped, .closeAll, .connectionClosed 1, .wait] = some t ∧
      0 ∈ s.channels.channelTable ∧ t.stopped = true :=
    ⟨_, _, _, rfl, rfl, rfl, by decide, rfl⟩
  have hcloses := (run_shutdown hs).2.2.2.2 0 s' hs'
  rw [if_pos hmem] at hcloses
  have hrun := (Machine.run_append_eq_some step).mpr
    ⟨s, hs, (Machine.run_cons_eq_some step).mpr ⟨s', hs', ht⟩⟩
  have hempty := (run_shutdown hrun).2.2.1 hstopped
  exact ⟨s, s', t, hs, hs', ht, hcloses.1, hcloses.2.1, hempty.1, hempty.2.1⟩

end Tt3d.Server.Shutdown
