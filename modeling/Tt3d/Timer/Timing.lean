import Tt3d.Timer.Checks

/-!
When `Expired` is called, over whole histories of `TimerMaster`.

The timing theorem is about the calendar; the simulation carries it to the
program. A dead timer is the other half: nothing is called on it any more, and
its slots leave the wheel at their expiry.
-/

namespace Tt3d.Timer

open TimerMaster

variable {τ : Type*}

/-! ### Dead timers -/

namespace Calendar

/-- What became since `c₁` of a timer that was dead there. -/
structure Dropped (x : τ) [DecidableEq τ] (c₁ c : Calendar τ) : Prop where
  dead : c.live x = false
  held : ∀ q ∈ c.toCall + c.toRearm, q.2 ≠ x
  entries : c.entries.filter (fun e => e.timer = x) =
    (c₁.entries.filter fun e => e.timer = x).filter fun e => c.served < e.due
  calls : c.calls.filter (fun q => q.timer = x) = c₁.calls.filter fun q => q.timer = x

variable [DecidableEq τ] {x : τ} {c₁ c c' : Calendar τ}

theorem Dropped.refl (hdead : c.live x = false) (hheld : ∀ q ∈ c.toCall + c.toRearm, q.2 ≠ x)
    (hdue : ∀ e ∈ c.entries, c.served < e.due) : Dropped x c c :=
  ⟨hdead, hheld, (Multiset.filter_eq_self.mpr fun e he =>
    hdue e (Multiset.mem_of_mem_filter he)).symm, rfl⟩

theorem Dropped.step (h : Dropped x c₁ c) {a : Event τ} (hstep : Calendar.step c a = some c') :
    Dropped x c₁ c' := by
  obtain ⟨hdead, hheld, hentries, hcalls⟩ := id h
  have hadd : ∀ e : Entry τ, e.timer ≠ x →
      (e ::ₘ c.entries).filter (fun e => e.timer = x) = c.entries.filter fun e => e.timer = x :=
    fun e he => Multiset.filter_cons_of_neg (p := fun e : Entry τ => e.timer = x) _ he
  cases a with
  | register y t =>
      simp only [Calendar.step] at hstep
      split at hstep <;> cases hstep
      · rename_i hy
        have hyx : y ≠ x := by
          rintro rfl
          rw [hdead] at hy
          cases hy
        exact ⟨hdead, hheld, (hadd _ hyx).trans hentries, hcalls⟩
      · exact h
  | release y =>
      simp only [Calendar.step] at hstep
      split at hstep <;> cases hstep
      refine ⟨?_, hheld, hentries, hcalls⟩
      by_cases hxy : x = y
      · simp [hxy]
      · simpa [hxy] using hdead
  | take =>
      simp only [Calendar.step] at hstep
      split at hstep <;> cases hstep
      rename_i hguard
      have hbatch : ∀ q ∈ c.batch, q.2 ≠ x := by
        intro q hq
        obtain ⟨e, he, rfl⟩ := Multiset.mem_map.mp hq
        have hlive := (Multiset.mem_filter.mp he).2.2
        rintro rfl
        rw [hdead] at hlive
        cases hlive
      refine ⟨hdead, ?_, ?_, hcalls⟩
      · intro q hq
        exact hbatch q ((Multiset.mem_add.mp hq).elim id id)
      · rw [Multiset.filter_comm, hentries, Multiset.filter_filter]
        refine Multiset.filter_congr fun e _ => ?_
        have := hguard.2.2
        simp only
        omega
  | tick =>
      simp only [Calendar.step] at hstep
      split at hstep <;> cases hstep
      exact ⟨hdead, hheld, hentries, hcalls⟩
  | expired m y =>
      simp only [Calendar.step] at hstep
      split at hstep <;> cases hstep
      rename_i hmem
      have hyx : y ≠ x := hheld _ (Multiset.mem_add.mpr (Or.inl hmem))
      refine ⟨hdead, fun q hq => hheld q ?_, hentries, ?_⟩
      · rcases Multiset.mem_add.mp hq with hq | hq
        · exact Multiset.mem_add.mpr (Or.inl (Multiset.mem_of_mem_erase hq))
        · exact Multiset.mem_add.mpr (Or.inr hq)
      · simpa [List.filter_append, hyx] using hcalls
  | rearm m y p t =>
      simp only [Calendar.step] at hstep
      split at hstep
      swap
      · cases hstep
      rename_i hguard
      have hyx : y ≠ x := hheld _ (Multiset.mem_add.mpr (Or.inr hguard.1))
      have hrest : ∀ q ∈ c.toCall + c.toRearm.erase (m, y), q.2 ≠ x := by
        intro q hq
        rcases Multiset.mem_add.mp hq with hq | hq
        · exact hheld q (Multiset.mem_add.mpr (Or.inl hq))
        · exact hheld q (Multiset.mem_add.mpr (Or.inr (Multiset.mem_of_mem_erase hq)))
      split at hstep <;> cases hstep
      · exact ⟨hdead, hrest, (hadd _ hyx).trans hentries, hcalls⟩
      · exact ⟨hdead, hrest, hentries, hcalls⟩
  | update j | called | next | «return» => cases hstep; exact h

end Calendar

/-! ### From the calendar to the program -/

/-- The calls of slot `n` that the jiffy being processed still owes. -/
def State.owed (s : State τ) (n : ℕ) : List (Call τ) :=
  (s.toCall.filter fun t => t.id = n).map fun t => ⟨s.served, t.id, t.weakTimer⟩

/-- The slots in the wheel with the jiffies at which they are due. -/
def State.entries (s : State τ) : Multiset (Entry τ) := s.master.slots.map (entry s.served)

theorem filter_ids (l : TList τ) (n : ℕ) :
    (ids l).filter (fun q => q.1 = n) = ids (l.filter fun t => t.id = n) := by
  simp [ids, Multiset.filter_coe, List.filter_map, Function.comp_def]

theorem owed_of_filter_eq_zero {s : State τ} {n : ℕ}
    (h : (ids s.toCall).filter (fun q => q.1 = n) = 0) : s.owed n = [] := by
  have hnil : s.toCall.filter (fun t => decide (t.id = n)) = [] := by
    simpa [filter_ids, ids] using h
  rw [State.owed, hnil, List.map_nil]

theorem owed_of_filter_eq_singleton {s : State τ} {n : ℕ} {x : τ}
    (h : (ids s.toCall).filter (fun q => q.1 = n) = {(n, x)}) : s.owed n = [⟨s.served, n, x⟩] := by
  rw [filter_ids, ids, Multiset.coe_eq_singleton, List.map_eq_singleton_iff] at h
  obtain ⟨t, ht, heq⟩ := h
  rw [State.owed, ht, List.map_singleton]
  cases heq
  rfl

variable {s s' : State τ} {c c' : Calendar τ} {x : τ}

/-- Nothing in the wheel is overdue. -/
theorem Refines.due (h : Refines s c) : ∀ e ∈ c.entries, c.served < e.due := by
  intro e he
  rw [h.entries] at he
  obtain ⟨t, ht, rfl⟩ := Multiset.mem_map.mp he
  obtain ⟨p, hp⟩ := mem_slots.mp ht
  rw [h.served]
  exact (h.good.filed p t hp).ahead.lt kTVSize_pos

theorem Refines.held (h : Refines s c) (hdead : s.live x = false) :
    ∀ q ∈ c.toCall + c.toRearm, q.2 ≠ x := by
  intro q hq
  rw [h.toCall, h.toRearm] at hq
  have hmem : ∃ t ∈ s.updater.timers, (t.id, t.weakTimer) = q := by
    rcases Multiset.mem_add.mp hq with hq | hq <;> obtain ⟨t, ht, rfl⟩ := mem_ids.mp hq
    · exact ⟨t, h.good.toCall t ht, rfl⟩
    · exact ⟨t, h.good.toRearm t ht, rfl⟩
  obtain ⟨t, ht, rfl⟩ := hmem
  rintro rfl
  exact absurd (h.good.live t ht) (by simp [hdead])

section Run

variable [DecidableEq τ] {es : List (Event τ)} {n : ℕ} {r d : ℤ} {period : Bool}

theorem owed_eq {ok : (Fin 4 → ℤ) → Place → TimerSlot τ → Prop} {due : ℤ → Place → ℤ → ℤ}
    (h : RefinesBy ok due s c) (htrack : Calendar.Tracked n x r d period c) :
    s.owed n = if (n, x) ∈ c.toCall then [⟨c.served, n, x⟩] else [] := by
  have hnone : c.toCall.filter (fun q => q.1 = n) = 0 →
      s.owed n = if (n, x) ∈ c.toCall then [⟨c.served, n, x⟩] else [] := by
    intro hcall
    rw [if_neg (Calendar.not_mem_of_filter hcall)]
    exact owed_of_filter_eq_zero (h.toCall ▸ hcall)
  cases htrack.place with
  | waiting _ _ _ _ hcall => exact hnone hcall
  | gone _ _ _ _ hcall => exact hnone hcall
  | taken _ _ _ hcall =>
      rcases hcall with hcall | hcall
      · exact hnone hcall
      · have hmem : (n, x) ∈ c.toCall :=
          Multiset.mem_of_mem_filter (hcall ▸ Multiset.mem_singleton_self _)
        rw [if_pos hmem, h.served]
        exact owed_of_filter_eq_singleton (h.toCall ▸ hcall)

/-- The run simulation, from any pair of related states. -/
theorem Refines.run (h : Refines s c) (hrun : Machine.run Timer.step s es = some s') :
    ∃ c', Machine.run Calendar.step c es = some c' ∧ Refines s' c' :=
  Machine.run_simulation (fun _ _ _ _ hR hstep => hR.step hstep) h hrun

theorem Calendar.fresh_run (hrun : Machine.run Calendar.step .init es = some c) : c.Fresh :=
  Machine.run_invariant (fun _ _ _ h hstep => h.step hstep) Calendar.fresh_init hrun

/-- No `CHECK` fails in the next step, whatever a caller of `Register` or the
thread inside `Update` comes to. -/
structure NoCheckFails (s : State τ) : Prop where
  register : ∀ x d, 1 ≤ d → d + s.master.timerJiffies < 2 ^ 31 → (s.register x d).isSome
  take : ∀ target, s.updater = .testing target → s.master.timerJiffies ≤ target → s.take.isSome
  rearm : ∀ target old t todo timers period d,
    s.updater = .rearming target old (t :: todo) timers → 1 ≤ d → d + old < 2 ^ 31 →
      (s.rearm t.id t.weakTimer period d).isSome

theorem Good.noCheckFails (h : Good s) : NoCheckFails s where
  register := fun x _ hd hlt => h.register_isSome x (by omega) hlt
  take := fun _ hup hle => h.take_isSome hup hle
  rearm := by
    intro target old t todo timers period d hup hd hlt
    exact (h.rearm_isSome_iff period hup (by omega) hlt).mpr fun _ => by omega

/-- **The timer wheel is a calendar.** Every history of the program is one of
the calendar, and none of its steps trips a `CHECK`. A timer that stays alive
and answers alike is called at the jiffies of its schedule, once at each; a dead
one is not called any more, and its slots leave the wheel when they are due. -/
theorem timerMaster_refines_calendar (hrun : Machine.run step State.init es = some s) :
    (∃ c, Machine.run Calendar.step Calendar.init es = some c ∧ Refines s c) ∧
    NoCheckFails s ∧
    (∀ es₁ es₂ x d period s₁, es = es₁ ++ .register x d :: es₂ →
      Machine.run step State.init es₁ = some s₁ → 1 ≤ d →
      (∀ a ∈ es₂, Calendar.Constant x d period a) → s.live x = true →
      Calendar.callsOf s₁.nextSlot s.calls ++ s.owed s₁.nextSlot =
          (schedule s₁.master.timerJiffies d period s.served).map (⟨·, s₁.nextSlot, x⟩) ∧
        ((∀ t, .register x t ∉ es₁ ++ es₂) → ∀ q ∈ s.calls, q.timer = x → q.slot = s₁.nextSlot)) ∧
    (∀ es₁ es₂ x s₁, es = es₁ ++ es₂ → Machine.run step State.init es₁ = some s₁ →
      s₁.live x = false →
      s.calls.filter (fun q => q.timer = x) = s₁.calls.filter (fun q => q.timer = x) ∧
        s.entries.filter (fun e => e.timer = x) =
          (s₁.entries.filter fun e => e.timer = x).filter fun e => s.served < e.due) := by
  obtain ⟨c, hc, href⟩ := refines_init.run hrun
  refine ⟨⟨c, hc, href⟩, href.good.noCheckFails, ?_, ?_⟩
  · rintro es₁ es₂ x d period s₁ rfl hrun₁ hd hconst hlive
    obtain ⟨c₁, hc₁, href₁⟩ := refines_init.run hrun₁
    obtain ⟨c₁', hc₁', hrest⟩ := (Machine.run_append_eq_some _).mp hc
    obtain rfl := Option.some.inj (hc₁.symm.trans hc₁')
    obtain ⟨c₂, hreg, hc₂⟩ := (Machine.run_cons_eq_some _).mp hrest
    have hlive' : c.live x = true := by rw [href.live, hlive]
    have hlive₁ : c₁.live x = true :=
      Calendar.live_of_step hreg (Calendar.live_of_run hc₂ hlive')
    have htrack : Calendar.Tracked s₁.nextSlot x s₁.master.timerJiffies d period c := by
      rw [← href₁.nextSlot, ← href₁.clock]
      exact ((Calendar.fresh_run hc₁).tracked_register hlive₁ hd period hreg).run hd hconst hc₂
        hlive'
    refine ⟨?_, fun honce => ?_⟩
    · have hcalls := htrack.calls
      rw [← owed_eq (refines_iff.mp href) htrack, href.calls, href.served] at hcalls
      exact hcalls
    · -- Before this registration the calendar knew nothing of the timer.
      have habsent : Calendar.Everywhere (fun _ y => y ≠ x) c₁ :=
        (Calendar.everywhere_init _).run
          (fun y t hy _ hyx => honce t (List.mem_append_left _ (hyx ▸ hy))) hc₁
      have honly : Calendar.Everywhere (fun m y => y = x → m = c₁.nextSlot) c₂ :=
        (habsent.mono fun _ _ hne heq => absurd heq hne).step (fun _ _ _ _ _ => rfl) hreg
      have hfinal := honly.run
        (fun y t hy _ hyx => absurd (List.mem_append_right _ (hyx ▸ hy)) (honce t)) hc₂
      rw [← href.calls, ← href₁.nextSlot]
      exact hfinal.calls
  · rintro es₁ es₂ x s₁ rfl hrun₁ hdead
    obtain ⟨c₁, hc₁, href₁⟩ := refines_init.run hrun₁
    obtain ⟨c₁', hc₁', hrest⟩ := (Machine.run_append_eq_some _).mp hc
    obtain rfl := Option.some.inj (hc₁.symm.trans hc₁')
    have hdropped : Calendar.Dropped x c₁ c :=
      Machine.run_invariant (fun _ _ _ h hstep => h.step hstep)
        (Calendar.Dropped.refl (by rw [href₁.live, hdead]) (href₁.held hdead) href₁.due) hrest
    have hentries := hdropped.entries
    have hcalls := hdropped.calls
    rw [href.entries, href₁.entries, href.served] at hentries
    rw [href.calls, href₁.calls] at hcalls
    exact ⟨hcalls, hentries⟩

end Run

/-! ### A jiffy at which nothing is due -/

section Quiet

variable [DecidableEq τ] {s : State τ}

/-- The steps of `Update` for such a jiffy. -/
def quietTick : List (Event τ) := [.take, .tick, .called, .next]

/-- The state with the clock at `t`. -/
def State.atClock (s : State τ) (t : ℤ) : State τ :=
  { s with master := { s.master with timerJiffies := t } }

omit [DecidableEq τ] in
theorem takeTimers_of_empty {m : TimerMaster τ} {live : τ → Bool}
    (h : m.vecs (0, m.index 0) = []) :
    m.takeTimers live = (m, []) := by
  have hsame : m.setList (0, m.index 0) [] = m := by
    rw [setList, ← h, Function.update_eq_self]
  rw [takeTimers, hsame, h]
  rfl

theorem run_quietTick {t target : ℤ} (hclock : s.master.timerJiffies = t)
    (hup : s.updater = .testing target) (hpos : 1 ≤ t) (hle : t ≤ target)
    (htarget : target < 2 ^ 31 - 1) (hmask : mask t ≠ 0)
    (hempty : s.master.vecs (0, mask t) = []) :
    Machine.run step s quietTick = some (s.atClock (t + 1)) := by
  obtain ⟨m, updater, live, nextSlot, calls⟩ := s
  obtain rfl : updater = .testing target := hup
  have hindex := index_zero hclock
  have hcascade : m.cascade = some m := if_pos (by rw [hindex]; exact hmask)
  have htake : m.takeTimers live = (m, []) := takeTimers_of_empty (by rw [hindex]; exact hempty)
  replace hclock : m.timerJiffies = t := hclock
  simp [quietTick, Machine.run, step, State.take, hclock, hle, hcascade, htake,
    addInt_eq (show -2 ^ 31 ≤ t + 1 by omega) (show t + 1 < 2 ^ 31 by omega), State.atClock]

/-- Nothing is due, and no list is drained, from the jiffy `t` on. -/
theorem run_quietTicks (k : ℕ) {t target : ℤ} (hclock : s.master.timerJiffies = t)
    (hup : s.updater = .testing target) (hpos : 1 ≤ t) (hle : t + k ≤ target + 1)
    (htarget : target < 2 ^ 31 - 1) (hmask : ∀ j < k, mask (t + j) ≠ 0)
    (hempty : ∀ j < k, s.master.vecs (0, mask (t + j)) = []) :
    Machine.run step s (List.replicate k quietTick).flatten = some (s.atClock (t + k)) := by
  have hzero : s.atClock (t + (0 : ℕ)) = s := by
    rw [Nat.cast_zero, add_zero, ← hclock]
    rfl
  have hrun := Machine.run_replicate step k (fun j : ℕ => s.atClock (t + j)) fun j hj => by
    rw [Nat.cast_succ, ← add_assoc]
    exact run_quietTick rfl hup (by omega) (by omega) htarget (hmask j hj) (hempty j hj)
  rwa [hzero] at hrun

omit [DecidableEq τ] in
theorem constant_quietTick {x : τ} {d : ℤ} {period : Bool} :
    ∀ a ∈ quietTick, Calendar.Constant x d period a := by
  simp [quietTick, Calendar.Constant]

omit [DecidableEq τ] in
theorem constant_quietTicks (k : ℕ) {x : τ} {d : ℤ} {period : Bool} :
    ∀ a ∈ (List.replicate k quietTick).flatten, Calendar.Constant x d period a := by
  intro a ha
  obtain ⟨l, hl, ha⟩ := List.mem_flatten.mp ha
  rw [List.eq_of_mem_replicate hl] at ha
  exact constant_quietTick a ha

end Quiet

/-- The clock does not come round between two turns. -/
theorem mask_ne_zero {t : ℤ} {k : ℕ} (hpos : 1 ≤ t % 256) (hle : t % 256 + k ≤ 256) :
    ∀ j < k, mask (t + j) ≠ 0 := by
  intro j hj
  have hsize : (kTVSize : ℤ) = 256 := rfl
  rw [Ne, mask_eq_zero_iff, hsize]
  omega

/-- The timer 7 is due. -/
def dueTick : List (Event ℕ) :=
  [.take, .tick, .expired 0 7, .called, .rearm 0 7 true 300, .next, .return]

/-- The jiffy 256 drains a list of the second level, and the timer 7 is called at 301. -/
def descent : List (Event ℕ) :=
  (List.replicate 255 quietTick).flatten ++
    (quietTick ++ ((List.replicate 44 quietTick).flatten ++ dueTick))

theorem constant_descent : ∀ a ∈ descent, Calendar.Constant 7 300 true a := by
  have hdue : ∀ a ∈ dueTick, Calendar.Constant 7 300 true a := by
    simp [dueTick, Calendar.Constant]
  simp only [descent, List.forall_mem_append]
  exact ⟨constant_quietTicks 255, constant_quietTick, constant_quietTicks 44, hdue⟩

/-- A periodic timer of 300 jiffies that is registered at jiffy 1 comes down from the second
level at 256 and is called at 301. -/
theorem timerMaster_refines_calendar_period :
    ∃ s : State ℕ,
      Machine.run step State.init (.register 7 300 :: .update 301 :: descent) = some s ∧
      s.served = 301 ∧
      Calendar.callsOf 0 s.calls ++ s.owed 0 = (schedule 1 300 true s.served).map (⟨·, 0, 7⟩) := by
  obtain ⟨s₁, s₂, s, hstart, hclock₁, hup₁, hempty₁, hcascade, hclock₂, hup₂, hempty₂, hcall,
      hserved, hlive⟩ : ∃ s₁ s₂ s : State ℕ,
      Machine.run step State.init [.register 7 300, .update 301] = some s₁ ∧
      s₁.master.timerJiffies = 1 ∧ s₁.updater = .testing 301 ∧
      (∀ j, s₁.master.vecs (0, j) = []) ∧
      Machine.run step (s₁.atClock 256) quietTick = some s₂ ∧
      s₂.master.timerJiffies = 257 ∧ s₂.updater = .testing 301 ∧
      (∀ j < 44, s₂.master.vecs (0, mask (257 + (j : ℕ))) = []) ∧
      Machine.run step (s₂.atClock 301) dueTick = some s ∧
      s.served = 301 ∧ s.live 7 = true :=
    ⟨_, _, _, rfl, rfl, rfl, fun _ => rfl, rfl, rfl, rfl, by decide, rfl, rfl, rfl⟩
  have hticks₁ : Machine.run step s₁ (List.replicate 255 quietTick).flatten =
      some (s₁.atClock 256) :=
    run_quietTicks 255 hclock₁ hup₁ le_rfl (by decide) (by decide)
      (mask_ne_zero (by decide) (by decide)) fun _ _ => hempty₁ _
  have hticks₂ : Machine.run step s₂ (List.replicate 44 quietTick).flatten =
      some (s₂.atClock 301) :=
    run_quietTicks 44 hclock₂ hup₂ (by decide) (by decide) (by decide)
      (mask_ne_zero (by decide) (by decide)) hempty₂
  have hdescent : Machine.run step s₁ descent = some s := by
    rw [descent, Machine.run_append, hticks₁, Option.bind_some, Machine.run_append, hcascade,
      Option.bind_some, Machine.run_append, hticks₂, Option.bind_some, hcall]
  have hs : Machine.run step State.init (.register 7 300 :: .update 301 :: descent) = some s := by
    have hparts := (Machine.run_append_eq_some step).mpr ⟨s₁, hstart, hdescent⟩
    exact hparts
  have hconst : ∀ a ∈ .update 301 :: descent, Calendar.Constant 7 300 true a :=
    List.forall_mem_cons.mpr ⟨trivial, constant_descent⟩
  exact ⟨s, hs, hserved, ((timerMaster_refines_calendar hs).2.2.1 [] _ 7 300 true State.init rfl
    rfl (by decide) hconst hlive).1⟩

end Tt3d.Timer
