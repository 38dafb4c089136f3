import Tt3d.Timer.Placed
import Tt3d.Timer.Timing

/-!
`TimerMaster` stopped and started again.

`Start` sets the clock back to 1, and the thread counts its ticks from 1 again, while
the slots keep the expiries and the places that they have by the old clock. Time is
counted here over all running periods: a jiffy of the clock is that jiffy after the
ticks of the periods before.
-/

namespace Tt3d.Timer.Restart

open TimerMaster

variable {τ : Type*}

/-- The same call on a clock that is `k` ahead. -/
def later (k : ℤ) (q : Call τ) : Call τ := { q with jiffy := q.jiffy + k }

structure State (τ : Type*) where
  timer : Timer.State τ := .init
  mbStop : Bool := true
  /-- `jiffiers` of the thread in `InternalRun`. -/
  jiffiers : ℤ := 0
  /-- The ticks of the running periods that are over. -/
  before : ℤ := 0

inductive Event (τ : Type*)
  | start
  /-- `Stop`, when the thread has been joined. -/
  | stop
  /-- `InternalRun` calls `Update( ++jiffiers )`. -/
  | internalRun
  /-- A step in `Update`, in `Register` or of an owner of a timer. -/
  | timer (a : Timer.Event τ)
  deriving DecidableEq, Repr

/-- `Start` of a master that is stopped. The record of the calls goes by the clock, so
that it is put back along with it. -/
def State.start (s : State τ) : State τ :=
  let ticks := s.timer.master.timerJiffies - 1
  { timer := { s.timer with
      master := { s.timer.master with timerJiffies := 1 }
      calls := s.timer.calls.map (later (-ticks)) }
    mbStop := false
    jiffiers := 0
    before := s.before + ticks }

section Step

variable [DecidableEq τ]

def step (s : State τ) : Event τ → Option (State τ)
  | .start => if s.mbStop then some s.start else some s
  | .stop =>
      if s.mbStop then some s
      else if s.timer.updater = .idle then some { s with mbStop := true } else none
  | .internalRun =>
      if s.mbStop then none
      else
        (addInt s.jiffiers 1).bind fun jiffiers =>
          (Timer.step s.timer (.update jiffiers)).map fun t =>
            { s with timer := t, jiffiers := jiffiers }
  | .timer a =>
      if a matches .update _ then none
      else (Timer.step s.timer a).map fun t => { s with timer := t }

end Step

/-- The calls of `Expired()` so far, by the ticks of all running periods. -/
def State.calls (s : State τ) : List (Call τ) := s.timer.calls.map (later s.before)

/-- The calls on slot `n` that the jiffy being processed still owes. -/
def State.owed (s : State τ) (n : ℕ) : List (Call τ) := (s.timer.owed n).map (later s.before)

def State.clock (s : State τ) : ℤ := s.before + s.timer.master.timerJiffies

def State.served (s : State τ) : ℤ := s.before + s.timer.served

/-- `Start` leaves slot `n` due when it was: the clock has not moved, or the slot is on
the first level and the clock has gone round it. -/
def KeepsDue (n : ℕ) (s : State τ) : Event τ → Prop
  | .start =>
      s.mbStop = true → s.timer.master.timerJiffies = 1 ∨
        ∀ p, ∀ u ∈ s.timer.master.vecs p, u.id = n →
          (p.1 : ℕ) = 0 ∧ mask s.timer.master.timerJiffies = mask 1
  | .stop | .internalRun | .timer _ => True

instance (n : ℕ) (s : State τ) (a : Event τ) : Decidable (KeepsDue n s a) := by
  cases a <;> dsimp only [KeepsDue] <;> infer_instance

/-- Every answer about `x` when it is entered anew is the constant one. -/
def Constant (x : τ) (d : ℤ) (period : Bool) : Event τ → Prop
  | .timer a => Calendar.Constant x d period a
  | .start | .stop | .internalRun => True

/-! ### What `Start` does to a slot -/

/-- **When a slot stays on schedule** through a `Start` after `k` ticks. -/
theorem dueAt_start_iff {k e : ℤ} {p : Place} :
    dueAt 0 p e + k = dueAt k p e ↔ k = 0 ∨ (p.1 : ℕ) = 0 ∧ mask (k + 1) = mask 1 := by
  have hsize : (kTVSize : ℤ) = 256 := rfl
  have hmask : mask (k + 1) = mask 1 ↔ k % 256 = 0 := by
    rw [mask_eq_iff, hsize]
    omega
  rw [hmask, Fin.val_eq_zero_iff]
  by_cases hp : p.1 = 0
  · rw [dueAt_first hp, dueAt_first hp]
    simp only [hp, true_and, nextAt, hsize]
    omega
  · rw [dueAt_above hp, dueAt_above hp]
    simp only [hp, false_and, or_false]
    omega

theorem filter_entries_start {m : TimerMaster τ} {k : ℤ} {n : ℕ}
    (h : ∀ p, ∀ u ∈ m.vecs p, u.id = n → dueAt 0 p u.jiffies + k = dueAt k p u.jiffies) :
    ((m.pending dueAt k).map pendingEntry).filter (fun e => e.id = n) =
      (((m.pending dueAt 0).map pendingEntry).filter fun e => e.id = n).map fun e =>
        { e with due := e.due + k } := by
  set both := m.gather fun p u => (u, dueAt k p u.jiffies, dueAt 0 p u.jiffies) with hboth
  have hold : (m.pending dueAt k).map pendingEntry =
      both.map fun q => (⟨q.1.id, q.1.weakTimer, q.2.1⟩ : Entry τ) := by
    rw [pending, hboth, map_gather, map_gather]
    rfl
  have hnew : (m.pending dueAt 0).map pendingEntry =
      both.map fun q => (⟨q.1.id, q.1.weakTimer, q.2.2⟩ : Entry τ) := by
    rw [pending, hboth, map_gather, map_gather]
    rfl
  rw [hold, hnew, Multiset.filter_map, Multiset.filter_map, Multiset.map_map]
  refine Multiset.map_congr rfl fun q hq => ?_
  obtain ⟨hmem, hid⟩ := Multiset.mem_filter.mp hq
  obtain ⟨p, u, hu, rfl⟩ := mem_gather.mp hmem
  show (⟨u.id, u.weakTimer, dueAt k p u.jiffies⟩ : Entry τ) = ⟨u.id, u.weakTimer, _⟩
  rw [← h p u hu hid]

/-! ### Runs with restarts -/

/-- What a restarted program is on its own clock: the calendar knows the slots by the
jiffies at which they are due now. -/
structure Related (s : State τ) (c : Calendar τ) : Prop where
  refines : RefinesBy Placed dueAt s.timer c
  idle : s.mbStop = true → s.timer.updater = .idle
  fresh : c.Fresh

/-- The calendar after a `Start`. -/
def started (s : State τ) (c : Calendar τ) : Calendar τ :=
  { c with
    entries := (s.timer.master.pending dueAt 0).map pendingEntry
    clock := 1
    served := 0
    calls := c.calls.map (later (-c.served)) }

variable {s s' : State τ} {c c' : Calendar τ} {n : ℕ} {x : τ} {r d : ℤ} {period : Bool}

theorem related_init : Related ({} : State τ) Calendar.init :=
  ⟨refinesBy_init _ _, fun _ => rfl, Calendar.fresh_init⟩

/-- The clock of a stopped master is one ahead of the jiffy served. -/
theorem Related.served_eq (h : Related s c) (hstop : s.mbStop = true) :
    c.served = s.timer.master.timerJiffies - 1 := by
  rw [h.refines.served, Timer.State.served, h.idle hstop]

theorem Related.start (h : Related s c) (hstop : s.mbStop = true) :
    Related s.start (started s c) := by
  have hidle := h.idle hstop
  have hserved := h.served_eq hstop
  have hclock := h.refines.good.clock
  have hidle' : s.start.timer.updater = .idle := hidle
  have hserved' : s.start.timer.served = 0 := by rw [Timer.State.served, hidle']; rfl
  have htoCall : c.toCall = 0 := by simp [h.refines.toCall, Timer.State.toCall, hidle]
  have htoRearm : c.toRearm = 0 := by simp [h.refines.toRearm, Timer.State.toRearm, hidle]
  have hgood : GoodBy Placed s.start.timer := by
    refine ⟨le_rfl, (by decide : (1 : ℤ) < 2 ^ 31), fun p u hu => ?_, ?_, ?_, ?_, ?_⟩
    · rw [hserved']
      have hplaced := h.refines.good.filed p u hu
      rw [← h.refines.served, hserved] at hplaced
      exact hplaced.restart (by omega)
    · simp [Timer.State.toCall, hidle']
    · simp [Timer.State.toRearm, hidle']
    · simp [hidle', Updater.timers]
    · rw [hidle']
      trivial
  refine ⟨⟨hgood, ?_, rfl, hserved'.symm, ?_, ?_, h.refines.live, h.refines.nextSlot, ?_⟩,
    fun _ => hidle, ⟨⟨?_, ?_, ?_, ?_⟩, (by decide : (0 : ℤ) ≤ 1)⟩⟩
  · have hsame : s.start.timer.master.pending dueAt 0 = s.timer.master.pending dueAt 0 :=
      gather_clock _ 1
    rw [hserved', hsame]
    rfl
  · simp [Timer.State.toCall, hidle', started, htoCall]
  · simp [Timer.State.toRearm, hidle', started, htoRearm]
  · show c.calls.map _ = s.timer.calls.map _
    rw [h.refines.calls, hserved]
  · -- the slots are the same ones
    intro e he
    obtain ⟨q, hq, rfl⟩ := Multiset.mem_map.mp he
    obtain ⟨p, u, hu, rfl⟩ := mem_gather.mp hq
    have hmem : pendingEntry (u, dueAt s.timer.served p u.jiffies) ∈ c.entries := by
      rw [h.refines.entries]
      exact Multiset.mem_map_of_mem _ (mem_gather.mpr ⟨p, u, hu, rfl⟩)
    have hlt := h.fresh.numbers.entries _ hmem
    exact hlt
  · simp [started, htoCall]
  · simp [started, htoRearm]
  · intro q hq
    obtain ⟨q', hq', rfl⟩ := List.mem_map.mp hq
    exact h.fresh.numbers.calls q' hq'

theorem callsOf_later (k : ℤ) (calls : List (Call τ)) :
    Calendar.callsOf n (calls.map (later k)) = (Calendar.callsOf n calls).map (later k) := by
  rw [Calendar.callsOf, Calendar.callsOf, List.filter_map]
  rfl

section Tracking

variable [DecidableEq τ]

/-- A slot that is due when it was is on its schedule after the `Start` as well. -/
theorem Related.tracked_start (h : Related s c) (hstop : s.mbStop = true)
    (hkeeps : KeepsDue n s .start) (htrack : Calendar.Tracked n x r d period c) :
    Calendar.Tracked n x (r - c.served) d period (started s c) := by
  obtain ⟨hknown, hplace, hcalls⟩ := htrack
  have hidle := h.idle hstop
  have hserved := h.served_eq hstop
  have htoCall : c.toCall = 0 := by simp [h.refines.toCall, Timer.State.toCall, hidle]
  have htoRearm : c.toRearm = 0 := by simp [h.refines.toRearm, Timer.State.toRearm, hidle]
  have hdue : ∀ p, ∀ u ∈ s.timer.master.vecs p, u.id = n →
      dueAt 0 p u.jiffies + c.served = dueAt c.served p u.jiffies := by
    intro p u hu hid
    rw [dueAt_start_iff, hserved, sub_add_cancel]
    rcases hkeeps hstop with hclock | hlevel
    · left
      omega
    · right
      exact hlevel p u hu hid
  have hpending : (s.timer.master.pending dueAt c.served).map pendingEntry = c.entries := by
    rw [h.refines.served, h.refines.entries]
  have hentries := filter_entries_start hdue
  rw [hpending] at hentries
  have hschedule : (schedule (r - c.served) d period 0).map (· + c.served) =
      schedule r d period c.served := by
    rw [← schedule_add, sub_add_cancel, zero_add]
  refine ⟨hknown, ?_, ?_⟩
  · cases hplace with
    | taken _ _ hrearm _ =>
        rw [htoRearm, Multiset.filter_zero] at hrearm
        exact absurd hrearm (Multiset.singleton_ne_zero _).symm
    | gone hperiod hpast he hrearm hcall =>
        refine .gone hperiod (by show r - c.served + d ≤ 0; omega) ?_ hrearm hcall
        rw [he] at hentries
        exact Multiset.map_eq_zero.mp hentries.symm
    | waiting e hnext he hrearm hcall =>
        rw [he] at hentries
        obtain ⟨e', he', heq⟩ := Multiset.map_eq_singleton.mp hentries.symm
        obtain ⟨id', timer', due'⟩ := e'
        cases heq
        refine .waiting due' ?_ he' hrearm hcall
        show NextDue (r - c.served) d period 0 due'
        rw [← nextDue_add (k := c.served), sub_add_cancel, zero_add]
        exact hnext
  · have hbefore : Calendar.callsOf n c.calls =
        ((schedule (r - c.served) d period 0).map (· + c.served)).map (⟨·, n, x⟩) := by
      rw [hschedule]
      simpa [htoCall] using hcalls
    have hnone : (n, x) ∉ (started s c).toCall := by simp [started, htoCall]
    rw [if_neg hnone, List.append_nil]
    show Calendar.callsOf n (c.calls.map (later (-c.served))) =
      (schedule (r - c.served) d period 0).map (⟨·, n, x⟩)
    rw [callsOf_later, hbefore, List.map_map, List.map_map]
    refine List.map_congr_left fun j _ => ?_
    simp [later]

/-- Nothing moves the thread of a stopped master. -/
theorem updater_idle {t t' : Timer.State τ} {a : Timer.Event τ} (ha : ∀ j, a ≠ .update j)
    (hstep : Timer.step t a = some t') (hidle : t.updater = .idle) : t'.updater = .idle := by
  cases a with
  | update j => exact absurd rfl (ha j)
  | register y e =>
      simp only [Timer.step, Timer.State.register] at hstep
      split at hstep
      · simp only [Option.bind_eq_some_iff, Option.map_eq_some_iff] at hstep
        obtain ⟨_, -, _, -, rfl⟩ := hstep
        exact hidle
      · obtain rfl := Option.some.inj hstep
        exact hidle
  | release y =>
      simp only [Timer.step, Timer.State.release] at hstep
      split at hstep
      · cases hstep
      · obtain rfl := Option.some.inj hstep
        exact hidle
  | take => simp [Timer.step, Timer.State.take, hidle] at hstep
  | tick => simp [Timer.step, hidle] at hstep
  | expired m y => simp [Timer.step, Timer.State.expired, hidle] at hstep
  | called => simp [Timer.step, hidle] at hstep
  | rearm m y p e => simp [Timer.step, Timer.State.rearm, hidle] at hstep
  | next => simp [Timer.step, hidle] at hstep
  | «return» => simp [Timer.step, hidle] at hstep

theorem exists_of_timer {a : Timer.Event τ} (hstep : Restart.step s (.timer a) = some s') :
    (∀ j, a ≠ .update j) ∧ ∃ t, Timer.step s.timer a = some t ∧ { s with timer := t } = s' := by
  obtain ⟨hupdate, hstep⟩ := Option.ite_none_left_eq_some.mp hstep
  obtain ⟨t, ht, heq⟩ := Option.map_eq_some_iff.mp hstep
  refine ⟨?_, t, ht, heq⟩
  rintro j rfl
  exact hupdate rfl

/-- **One step on the program's own clock**: a `Start`, or a step of the calendar. -/
theorem Related.step (h : Related s c) {a : Event τ} (hstep : Restart.step s a = some s') :
    ∃ c', Related s' c' ∧
      (a = .start ∧ s.mbStop = true ∧ s' = s.start ∧ c' = started s c ∨
        s'.before = s.before ∧ ∃ b, Calendar.step c b = some c' ∧
          ∀ x d period, Constant x d period a → Calendar.Constant x d period b) := by
  cases a with
  | start =>
      simp only [Restart.step] at hstep
      split at hstep
      · rename_i hstop
        obtain rfl := Option.some.inj hstep
        exact ⟨started s c, h.start hstop, Or.inl ⟨rfl, hstop, rfl, rfl⟩⟩
      · obtain rfl := Option.some.inj hstep
        exact ⟨c, h, Or.inr ⟨rfl, .next, rfl, fun _ _ _ _ => trivial⟩⟩
  | stop =>
      simp only [Restart.step] at hstep
      split at hstep
      · obtain rfl := Option.some.inj hstep
        exact ⟨c, h, Or.inr ⟨rfl, .next, rfl, fun _ _ _ _ => trivial⟩⟩
      · obtain ⟨hidle, hstep⟩ := Option.ite_none_right_eq_some.mp hstep
        obtain rfl := Option.some.inj hstep
        exact ⟨c, ⟨h.refines, fun _ => hidle, h.fresh⟩,
          Or.inr ⟨rfl, .next, rfl, fun _ _ _ _ => trivial⟩⟩
  | internalRun =>
      obtain ⟨hrunning, hstep⟩ := Option.ite_none_left_eq_some.mp hstep
      obtain ⟨jiffiers, -, hstep⟩ := Option.bind_eq_some_iff.mp hstep
      obtain ⟨t, ht, rfl⟩ := Option.map_eq_some_iff.mp hstep
      obtain ⟨c', hc', href⟩ := h.refines.step placed_rule ht
      exact ⟨c', ⟨href, fun hstop => absurd hstop hrunning, h.fresh.step hc'⟩,
        Or.inr ⟨rfl, .update jiffiers, hc', fun _ _ _ _ => trivial⟩⟩
  | timer a =>
      obtain ⟨ha, t, ht, rfl⟩ := exists_of_timer hstep
      obtain ⟨c', hc', href⟩ := h.refines.step placed_rule ht
      exact ⟨c', ⟨href, fun hstop => updater_idle ha ht (h.idle hstop), h.fresh.step hc'⟩,
        Or.inr ⟨rfl, a, hc', fun _ _ _ hconst => hconst⟩⟩

theorem related_run {es : List (Event τ)}
    (hrun : Machine.run Restart.step ({} : State τ) es = some s) : ∃ c, Related s c :=
  Machine.run_invariant (I := fun s => ∃ c, Related s c)
    (fun _ _ _ ⟨_, hrel⟩ hstep =>
      let ⟨c', hrel', _⟩ := hrel.step hstep
      ⟨c', hrel'⟩)
    ⟨_, related_init⟩ hrun

/-- Restarts do not make a `CHECK` of the locked section of `Update` fail. -/
theorem take_isSome {es : List (Event τ)}
    (hrun : Machine.run Restart.step ({} : State τ) es = some s) {target : ℤ}
    (hup : s.timer.updater = .testing target) (hle : s.timer.master.timerJiffies ≤ target) :
    s.timer.take.isSome := by
  obtain ⟨c, hrel⟩ := related_run hrun
  exact hrel.refines.good.take_isSome placed_rule hup hle

/-- Slot `n` of timer `x`, registered at `r` by the ticks of all running periods, is on
its schedule while the timer lives. -/
def OnSchedule (n : ℕ) (x : τ) (r d : ℤ) (period : Bool) (s : State τ) : Prop :=
  ∃ c, Related s c ∧
    (s.timer.live x = true → Calendar.Tracked n x (r - s.before) d period c)

theorem OnSchedule.step (h : OnSchedule n x r d period s) (hd : 1 ≤ d) {a : Event τ}
    (hkeeps : KeepsDue n s a) (hconst : Constant x d period a)
    (hstep : Restart.step s a = some s') : OnSchedule n x r d period s' := by
  obtain ⟨c, hrel, htrack⟩ := h
  obtain ⟨c', hrel', ⟨rfl, hstop, rfl, rfl⟩ | ⟨hbefore, b, hb, hconst'⟩⟩ := hrel.step hstep
  · refine ⟨started s c, hrel', fun hlive => ?_⟩
    have hbefore : r - s.start.before = r - s.before - c.served := by
      rw [hrel.served_eq hstop]
      show r - (s.before + (s.timer.master.timerJiffies - 1)) = _
      omega
    rw [hbefore]
    exact hrel.tracked_start hstop hkeeps (htrack hlive)
  · refine ⟨c', hrel', fun hlive => ?_⟩
    have hlive' : c.live x = true := by
      apply Calendar.live_of_step hb
      rw [hrel'.refines.live]
      exact hlive
    rw [hbefore]
    exact (htrack (by rw [← hrel.refines.live, hlive'])).step hd (hconst' x d period hconst) hb
      hlive'

/-- A registration puts its slot on schedule. -/
theorem onSchedule_register (h : Related s c) (hd : 1 ≤ d) (period : Bool)
    (hstep : Restart.step s (.timer (.register x d)) = some s') :
    OnSchedule s.timer.nextSlot x s.clock d period s' := by
  obtain ⟨ha, t, ht, rfl⟩ := exists_of_timer hstep
  obtain ⟨c', hc', href⟩ := h.refines.step placed_rule ht
  have hidle := fun hstop => updater_idle ha ht (h.idle hstop)
  refine ⟨c', ⟨href, hidle, h.fresh.step hc'⟩, fun hlive => ?_⟩
  have hlive' : c.live x = true := by
    apply Calendar.live_of_step hc'
    rw [href.live]
    exact hlive
  have hclock : s.clock - s.before = c.clock := by
    rw [h.refines.clock, State.clock]
    omega
  have htrack := h.fresh.tracked_register hlive' hd period hc'
  rw [h.refines.nextSlot, ← hclock] at htrack
  exact htrack

/-- What is on schedule has been called at the jiffies of the schedule. -/
theorem OnSchedule.calls (h : OnSchedule n x r d period s) (hlive : s.timer.live x = true) :
    Calendar.callsOf n s.calls ++ s.owed n = (schedule r d period s.served).map (⟨·, n, x⟩) := by
  obtain ⟨c, hrel, htrack⟩ := h
  have htracked := htrack hlive
  have hcalls := htracked.calls
  rw [← owed_eq hrel.refines htracked, hrel.refines.calls, hrel.refines.served] at hcalls
  have hschedule : schedule r d period s.served =
      (schedule (r - s.before) d period s.timer.served).map (· + s.before) := by
    rw [← schedule_add, sub_add_cancel, State.served, add_comm]
  rw [State.calls, State.owed, callsOf_later, ← List.map_append, hcalls, hschedule, List.map_map,
    List.map_map]
  refine List.map_congr_left fun j _ => ?_
  rfl

/-- **Restarts keep a timer on schedule** as long as each `Start` leaves its slot due when
it was: it is called when its timeout has gone by in the running periods, and not at any
other time. -/
theorem on_schedule {es₁ es₂ : List (Event τ)} {s₁ : State τ} (hd : 1 ≤ d)
    (hrun₁ : Machine.run Restart.step {} es₁ = some s₁)
    (hrun : Machine.run Restart.step {} (es₁ ++ .timer (.register x d) :: es₂) = some s)
    (hconst : ∀ a ∈ es₂, Constant x d period a) (hlive : s.timer.live x = true)
    (hkeeps : Machine.Along Restart.step (KeepsDue s₁.timer.nextSlot) s₁
      (.timer (.register x d) :: es₂)) :
    Calendar.callsOf s₁.timer.nextSlot s.calls ++ s.owed s₁.timer.nextSlot =
      (schedule s₁.clock d period s.served).map (⟨·, s₁.timer.nextSlot, x⟩) := by
  obtain ⟨s₁', hrun₁', hrest⟩ := (Machine.run_append_eq_some _).mp hrun
  obtain rfl := Option.some.inj (hrun₁.symm.trans hrun₁')
  obtain ⟨s₂, hregister, hrun₂⟩ := (Machine.run_cons_eq_some _).mp hrest
  obtain ⟨c₁, hrel₁⟩ := related_run hrun₁
  have hboth := (hkeeps.2 s₂ hregister).and (Machine.Along.of_forall hconst s₂)
  have hend : OnSchedule s₁.timer.nextSlot x s₁.clock d period s :=
    Machine.run_invariant_along (fun _ _ _ ha hI hstep => hI.step hd ha.1 ha.2 hstep) hboth
      (onSchedule_register hrel₁ hd period hregister) hrun₂
  exact hend.calls hlive

end Tracking

/-- One tick of a running master in which no timer is due. -/
def tickRun : List (Event ℕ) := .internalRun :: quietTick.map .timer ++ [.timer .return]

/-- One tick in which a periodic timer of 255 jiffies is due. -/
def callRun : List (Event ℕ) :=
  [.internalRun, .timer .take, .timer .tick, .timer (.expired 0 7), .timer .called,
    .timer (.rearm 0 7 true 255), .timer .next, .timer .return]

/-- The state after `t` ticks of a running period. -/
def State.ticked (s : State τ) (t : ℤ) : State τ :=
  { s with timer := s.timer.atClock (t + 1), jiffiers := t }

theorem run_tickRun {s : State ℕ} {t : ℤ} (hrunning : s.mbStop = false)
    (hidle : s.timer.updater = .idle) (hjiffiers : s.jiffiers = t)
    (hclock : s.timer.master.timerJiffies = t + 1) (hpos : 0 ≤ t) (hlt : t < 2 ^ 31 - 2)
    (hmask : mask (t + 1) ≠ 0) (hempty : s.timer.master.vecs (0, mask (t + 1)) = []) :
    Machine.run step s tickRun = some (s.ticked (t + 1)) := by
  obtain ⟨⟨m, updater, live, nextSlot, calls⟩, mbStop, jiffiers, before⟩ := s
  obtain rfl : updater = .idle := hidle
  obtain rfl : mbStop = false := hrunning
  obtain rfl : jiffiers = t := hjiffiers
  have hindex := index_zero hclock
  have hcascade : m.cascade = some m := if_pos (by rw [hindex]; exact hmask)
  have htake : m.takeTimers live = (m, []) := takeTimers_of_empty (by rw [hindex]; exact hempty)
  replace hclock : m.timerJiffies = jiffiers + 1 := hclock
  simp [tickRun, quietTick, Machine.run, step, Timer.step, Timer.State.take, hclock, hcascade,
    htake, State.ticked, Timer.State.atClock,
    addInt_eq (show -2 ^ 31 ≤ jiffiers + 1 by omega) (show jiffiers + 1 < 2 ^ 31 by omega),
    addInt_eq (show -2 ^ 31 ≤ jiffiers + 1 + 1 by omega)
      (show jiffiers + 1 + 1 < 2 ^ 31 by omega)]

theorem run_tickRuns (k : ℕ) {s : State ℕ} {t : ℤ} (hrunning : s.mbStop = false)
    (hidle : s.timer.updater = .idle) (hjiffiers : s.jiffiers = t)
    (hclock : s.timer.master.timerJiffies = t + 1) (hpos : 0 ≤ t) (hlt : t + k < 2 ^ 31 - 1)
    (hmask : ∀ j < k, mask (t + 1 + j) ≠ 0)
    (hempty : ∀ j < k, s.timer.master.vecs (0, mask (t + 1 + j)) = []) :
    Machine.run step s (List.replicate k tickRun).flatten = some (s.ticked (t + k)) := by
  have hzero : s.ticked (t + (0 : ℕ)) = s := by
    rw [Nat.cast_zero, add_zero, State.ticked, ← hclock, ← hjiffiers]
    rfl
  have hrun := Machine.run_replicate step k (fun j : ℕ => s.ticked (t + j)) fun j hj => by
    have hadd : t + j + 1 = t + 1 + j := by ring
    rw [Nat.cast_succ, ← add_assoc]
    exact run_tickRun hrunning hidle rfl rfl (by omega) (by omega) (hadd ▸ hmask j hj)
      (hadd ▸ hempty j hj)
  rwa [hzero] at hrun

/-- `k` ticks, and one in which the timer is called. -/
def roundRun (k : ℕ) : List (Event ℕ) := (List.replicate k tickRun).flatten ++ callRun

/-- The master is stopped and started again after 256 ticks, when its clock has gone round
the first level. -/
def exampleRun : List (Event ℕ) := .start :: roundRun 255 ++ [.stop, .start] ++ roundRun 254

theorem mem_roundRun {k : ℕ} {a : Event ℕ} (h : a ∈ roundRun k) : a ∈ tickRun ∨ a ∈ callRun := by
  refine (List.mem_append.mp h).imp_left fun h => ?_
  obtain ⟨l, hl, ha⟩ := List.mem_flatten.mp h
  rwa [List.eq_of_mem_replicate hl] at ha

theorem keepsDue_roundRun (k n : ℕ) (s : State ℕ) :
    Machine.Along step (KeepsDue n) s (roundRun k) := by
  refine (Machine.Along.of_forall (P := fun a : Event ℕ => a ≠ .start) (fun a ha => ?_) s).imp
    fun s a hne => ?_
  · rintro rfl
    rcases mem_roundRun ha with ha | ha
    · simp [tickRun] at ha
    · simp [callRun] at ha
  · cases a with
    | start => exact absurd rfl hne
    | stop | internalRun | timer a => trivial

theorem constant_roundRun (k : ℕ) : ∀ a ∈ roundRun k, Constant 7 255 true a := by
  have htick : ∀ a ∈ tickRun, Constant 7 255 true a := by
    simp [tickRun, quietTick, Constant, Calendar.Constant]
  have hcall : ∀ a ∈ callRun, Constant 7 255 true a := by
    simp [callRun, Constant, Calendar.Constant]
  exact fun a ha => (mem_roundRun ha).elim (htick a) (hcall a)

theorem timer_stop [DecidableEq τ] {s s' : State τ} (h : step s .stop = some s') :
    s'.timer = s.timer := by
  simp only [step] at h
  split at h
  · obtain rfl := Option.some.inj h
    rfl
  · split at h <;> cases h
    rfl

/-- A timer of 255 jiffies is called at 256 and 511. -/
theorem on_schedule_round :
    ∃ s : State ℕ,
      Machine.run Restart.step {} ([] ++ .timer (.register 7 255) :: exampleRun) = some s ∧
      s.served = 511 ∧
      Calendar.callsOf 0 s.calls ++ s.owed 0 =
        (schedule 1 255 true s.served).map (⟨·, 0, 7⟩) := by
  obtain ⟨s₁, s₂, s₃, s, hstart, hidle₁, hrunning₁, hjiffiers₁, hclock₁, hempty₁, hcall₁, hclock₂,
      hplace₂, hrestart, hidle₃, hrunning₃, hjiffiers₃, hclock₃, hempty₃, hcall₃, hserved, hlive⟩ :
      ∃ s₁ s₂ s₃ s : State ℕ,
      Machine.run step {} [.timer (.register 7 255), .start] = some s₁ ∧
      s₁.timer.updater = .idle ∧ s₁.mbStop = false ∧ s₁.jiffiers = 0 ∧
      s₁.timer.master.timerJiffies = 0 + 1 ∧
      (∀ j < 255, s₁.timer.master.vecs (0, mask (0 + 1 + (j : ℕ))) = []) ∧
      Machine.run step (s₁.ticked 255) callRun = some s₂ ∧
      s₂.timer.master.timerJiffies = 257 ∧
      (∀ p, s₂.timer.master.vecs p ≠ [] → (p.1 : ℕ) = 0) ∧
      Machine.run step s₂ [.stop, .start] = some s₃ ∧
      s₃.timer.updater = .idle ∧ s₃.mbStop = false ∧ s₃.jiffiers = 0 ∧
      s₃.timer.master.timerJiffies = 0 + 1 ∧
      (∀ j < 254, s₃.timer.master.vecs (0, mask (0 + 1 + (j : ℕ))) = []) ∧
      Machine.run step (s₃.ticked 254) callRun = some s ∧
      s.served = 511 ∧ s.timer.live 7 = true := by
    refine ⟨_, _, _, _, rfl, rfl, rfl, rfl, rfl, ?_, rfl, rfl, ?_, rfl, rfl, rfl, rfl, rfl, ?_, rfl,
      rfl, rfl⟩
    · decide +kernel
    · decide +kernel
    · decide +kernel
  have hround₁ : Machine.run step s₁ (roundRun 255) = some s₂ := by
    have hticks : Machine.run step s₁ (List.replicate 255 tickRun).flatten = some (s₁.ticked 255) :=
      run_tickRuns 255 hrunning₁ hidle₁ hjiffiers₁ hclock₁ le_rfl (by decide)
        (mask_ne_zero (by decide) (by decide)) hempty₁
    rw [roundRun, Machine.run_append, hticks, Option.bind_some, hcall₁]
  have hround₃ : Machine.run step s₃ (roundRun 254) = some s := by
    have hticks : Machine.run step s₃ (List.replicate 254 tickRun).flatten = some (s₃.ticked 254) :=
      run_tickRuns 254 hrunning₃ hidle₃ hjiffiers₃ hclock₃ le_rfl (by decide)
        (mask_ne_zero (by decide) (by decide)) hempty₃
    rw [roundRun, Machine.run_append, hticks, Option.bind_some, hcall₃]
  have hsplit : .timer (.register 7 255) :: exampleRun = [.timer (.register 7 255), .start] ++
      roundRun 255 ++ [.stop, .start] ++ roundRun 254 := rfl
  have hrun : Machine.run step {} (.timer (.register 7 255) :: exampleRun) = some s := by
    rw [hsplit, Machine.run_append, Machine.run_append, Machine.run_append, hstart,
      Option.bind_some, hround₁, Option.bind_some, hrestart, Option.bind_some, hround₃]
  have hkeeps : Machine.Along step (KeepsDue 0) ({} : State ℕ)
      (.timer (.register 7 255) :: exampleRun) := by
    rw [hsplit, Machine.along_append, Machine.along_append, Machine.along_append]
    refine ⟨⟨⟨by decide, fun _ _ => keepsDue_roundRun 255 0 _⟩, fun t ht => ?_⟩,
      fun t _ => keepsDue_roundRun 254 0 t⟩
    rw [Machine.run_append, hstart, Option.bind_some, hround₁] at ht
    obtain rfl := Option.some.inj ht
    refine ⟨trivial, fun u hu => ⟨fun _ => Or.inr fun p v hv _ => ?_, fun _ _ => trivial⟩⟩
    rw [timer_stop hu] at hv ⊢
    exact ⟨hplace₂ p (List.ne_nil_of_mem hv), by rw [hclock₂]; rfl⟩
  have hconst : ∀ a ∈ exampleRun, Constant 7 255 true a := by
    have hparts : exampleRun = [.start] ++ roundRun 255 ++ [.stop, .start] ++ roundRun 254 := rfl
    rw [hparts]
    simp only [List.forall_mem_append]
    exact ⟨⟨⟨by simp [Constant], constant_roundRun 255⟩, by simp [Constant]⟩,
      constant_roundRun 254⟩
  have hinit : Machine.run step ({} : State ℕ) [] = some {} := rfl
  exact ⟨s, hrun, hserved, on_schedule (by decide) hinit hrun hconst hlive hkeeps⟩

/-- A timer of three jiffies on a master that is stopped after its first tick and started
again: three ticks more, and it has not been called. -/
theorem restart_after_tick_delays :
    ∃ s : State ℕ, Machine.run Restart.step {}
        (.timer (.register 7 3) :: .start :: tickRun ++ .stop :: .start :: tickRun ++ tickRun ++
          tickRun) = some s ∧
      s.timer.live 7 = true ∧ s.served = 4 ∧ Calendar.callsOf 0 s.calls ++ s.owed 0 = [] ∧
      schedule 1 3 false s.served = [4] := by
  refine ⟨_, rfl, ?_⟩
  decide

end Tt3d.Timer.Restart
