import Tt3d.Timer.Restart

/-!
How `CascadeTimers` drains a list.

The slots that its loop visits are recorded with the places that they are filed at, and
the calls that the locked section of `Update` makes with the wheels that they find. Any
calls of `Register` and `Update` may have come before, and any restarts of the master
between them.
-/

namespace Tt3d.Timer

open TimerMaster

variable {τ : Type*}

namespace TimerMaster

/-- The loop of `CascadeTimers` with its visits. -/
def drain (p : Place) : ℕ → TimerMaster τ → Option (List (TimerSlot τ × Place) × TimerMaster τ)
  | 0, _ => none
  | fuel + 1, m =>
      match m.vecs p with
      | [] => some ([], m)
      | s :: it =>
          match placeOf m.timerJiffies s with
          | none => none
          | some q =>
              let m' := (m.setList p it).pushBack q s
              if it.isEmpty then some ([(s, q)], m')
              else (drain p fuel m').map fun (visits, m) => ((s, q) :: visits, m)

/-- The calls of `CascadeTimers` on the levels, as long as each returns 0. -/
def cascadeCallsFrom : List (Fin 4) → TimerMaster τ → List (TimerMaster τ × Fin 4)
  | [], _ => []
  | i :: is, m =>
      (m, i) ::
        match m.cascadeTimers i (m.index i) with
        | none => []
        | some (m', r) => if r ≠ 0 then [] else cascadeCallsFrom is m'

/-- The calls of `CascadeTimers` in the locked section of `Update`, on the levels above the
first. -/
def cascadeCalls (m : TimerMaster τ) : List (TimerMaster τ × Fin 4) :=
  if m.index 0 ≠ 0 then [] else cascadeCallsFrom (List.finRange 4).tail m

/-- The call on level `i` visits each slot of its list once and in order, files it in
another list, and leaves its list empty and the slots of the wheel as they are. -/
def Drains (m : TimerMaster τ) (i : Fin 4) : Prop :=
  ∃ visits m', m.drain (i, m.index i) ((m.vecs (i, m.index i)).length + 1) = some (visits, m') ∧
    m.cascadeTimers i (m.index i) = some (m', m.index i) ∧
    visits.map Prod.fst = m.vecs (i, m.index i) ∧
    (∀ v ∈ visits, v.2 ≠ (i, m.index i) ∧ v.1 ∈ m'.vecs v.2) ∧
    m'.vecs (i, m.index i) = [] ∧ m'.slots = m.slots

/-! ### One call -/

variable {m m' : TimerMaster τ} {p q : Place} {fuel : ℕ} {s : TimerSlot τ}
  {visits : List (TimerSlot τ × Place)}

/-- The visits are recorded beside the loop. -/
theorem map_drain : (m.drain p fuel).map Prod.snd = m.cascadeLoop p fuel := by
  induction fuel generalizing m with
  | zero => rfl
  | succ fuel ih =>
      rw [drain, cascadeLoop]
      cases m.vecs p with
      | nil => rfl
      | cons s it =>
          simp only [internalAddTimer_self, setList_timerJiffies]
          cases placeOf m.timerJiffies s with
          | none => rfl
          | some q =>
              simp only [Option.map_some]
              split
              · rfl
              · rw [← ih, Option.map_map]
                rfl

/-- The last call leaves the wheel that the cascades end with. -/
theorem cascade_eq_last (m : TimerMaster τ) :
    m.cascade = m.cascadeCalls.getLast?.elim (some m) fun c =>
      (c.1.cascadeTimers c.2 (c.1.index c.2)).map Prod.fst := by
  have hlevels : (List.finRange 4).tail = [1, 2, 3] := rfl
  rw [cascade, cascadeCalls, hlevels]
  split
  · rfl
  · rw [cascadeCallsFrom]
    cases h₁ : m.cascadeTimers 1 (m.index 1) with
    | none => simp [h₁]
    | some r₁ =>
        obtain ⟨m₁, r₁⟩ := r₁
        by_cases hr₁ : r₁ = 0
        · cases h₂ : m₁.cascadeTimers 2 (m₁.index 2) with
          | none => simp [h₁, hr₁, h₂, cascadeCallsFrom]
          | some r₂ =>
              obtain ⟨m₂, r₂⟩ := r₂
              by_cases hr₂ : r₂ = 0
              · cases h₃ : m₂.cascadeTimers 3 (m₂.index 3) with
                | none => simp [h₁, hr₁, h₂, hr₂, h₃, cascadeCallsFrom]
                | some r₃ => simp [h₁, hr₁, h₂, hr₂, h₃, cascadeCallsFrom]
              · simp [h₁, hr₁, h₂, hr₂, cascadeCallsFrom]
        · simp [h₁, hr₁]

/-- What is filed elsewhere stays there. -/
theorem mem_vecs_drain (hdrain : m.drain p fuel = some (visits, m'))
    (hmem : s ∈ m.vecs q) (hne : q ≠ p) : s ∈ m'.vecs q := by
  induction fuel generalizing m visits with
  | zero => cases hdrain
  | succ fuel ih =>
      rw [drain] at hdrain
      split at hdrain
      · obtain ⟨-, rfl⟩ := Prod.mk.inj (Option.some.inj hdrain)
        exact hmem
      · rename_i u it hvecs
        split at hdrain
        · cases hdrain
        · rename_i r hr
          have hmem' : s ∈ ((m.setList p it).pushBack r u).vecs q := by
            by_cases hqr : q = r
            · subst hqr
              rw [pushBack_vecs_self, setList_vecs_ne m it hne]
              exact List.mem_append_left _ hmem
            · rw [pushBack_vecs_ne _ u hqr, setList_vecs_ne m it hne]
              exact hmem
          split at hdrain
          · obtain ⟨-, rfl⟩ := Prod.mk.inj (Option.some.inj hdrain)
            exact hmem'
          · obtain ⟨⟨visits', m₁⟩, hrest, heq⟩ := Option.map_eq_some_iff.mp hdrain
            obtain ⟨-, rfl⟩ := Prod.mk.inj heq
            exact ih hrest hmem'

/-- **The visits** when every slot of the list is filed elsewhere. -/
theorem drain_visits (hdrain : m.drain p fuel = some (visits, m'))
    (hmove : ∀ s ∈ m.vecs p, placeOf m.timerJiffies s ≠ some p) :
    visits.map Prod.fst = m.vecs p ∧ ∀ v ∈ visits, v.2 ≠ p ∧ v.1 ∈ m'.vecs v.2 := by
  induction fuel generalizing m visits with
  | zero => cases hdrain
  | succ fuel ih =>
      rw [drain] at hdrain
      split at hdrain
      · rename_i hvecs
        obtain ⟨rfl, -⟩ := Prod.mk.inj (Option.some.inj hdrain)
        exact ⟨hvecs.symm, fun v hv => absurd hv List.not_mem_nil⟩
      · rename_i u it hvecs
        rw [hvecs] at hmove ⊢
        split at hdrain
        · cases hdrain
        · rename_i r hr
          have hrp : r ≠ p := by
            rintro rfl
            exact hmove u List.mem_cons_self hr
          have hit : ((m.setList p it).pushBack r u).vecs p = it := by
            rw [pushBack_vecs_ne _ u hrp.symm, setList_vecs_self]
          have hfiled : u ∈ ((m.setList p it).pushBack r u).vecs r := by
            rw [pushBack_vecs_self]
            exact List.mem_append_right _ (List.mem_singleton_self u)
          split at hdrain
          · rename_i hempty
            obtain ⟨rfl, rfl⟩ := Prod.mk.inj (Option.some.inj hdrain)
            rw [List.isEmpty_iff.mp hempty]
            refine ⟨rfl, fun v hv => ?_⟩
            rw [List.mem_singleton.mp hv]
            rw [List.isEmpty_iff.mp hempty] at hfiled
            exact ⟨hrp, hfiled⟩
          · obtain ⟨⟨visits', m₁⟩, hrest, heq⟩ := Option.map_eq_some_iff.mp hdrain
            obtain ⟨rfl, rfl⟩ := Prod.mk.inj heq
            obtain ⟨hvisits, hplaces⟩ := ih hrest fun s hs =>
              hmove s (List.mem_cons_of_mem u (hit ▸ hs))
            rw [hit] at hvisits
            refine ⟨congrArg (u :: ·) hvisits, fun v hv => ?_⟩
            rcases List.mem_cons.mp hv with rfl | hv
            · exact ⟨hrp, mem_vecs_drain hrest hfiled hrp⟩
            · exact hplaces v hv

end TimerMaster

/-! ### The calls of one locked section -/

section Rule

variable {ok : (Fin 4 → ℤ) → Place → TimerSlot τ → Prop} {due : ℤ → Place → ℤ → ℤ}
  {m : TimerMaster τ} {t : ℤ} {i : Fin 4}

theorem slots_eq_of_pending {m' : TimerMaster τ} {served : ℤ}
    (h : m'.pending due served = m.pending due served) : m'.slots = m.slots := by
  have hslots : ∀ m : TimerMaster τ, m.slots = (m.pending due served).map Prod.fst := by
    intro m
    rw [pending, map_gather, slots_eq_gather]
  rw [hslots, hslots, h]

theorem FilingRule.drains (rule : FilingRule ok due) (ht : m.timerJiffies = t) (hpos : 1 ≤ t)
    (hi : i ≠ 0) (hdvd : (kTVSize : ℤ) ^ (i : ℕ) ∣ t)
    (hm : ∀ p, ∀ s ∈ m.vecs p, ok (servedUpTo t i) p s) : m.Drains i := by
  obtain ⟨m', hcascade, -, hpending, -⟩ := rule.cascadeTimers_eq ht hpos hi hdvd hm
  -- the loop has ended, with its list empty
  obtain ⟨m₁, hloop, hempty⟩ := Option.bind_eq_some_iff.mp hcascade
  obtain ⟨hnil, heq⟩ := Option.ite_none_right_eq_some.mp hempty
  obtain ⟨rfl, -⟩ := Prod.mk.inj (Option.some.inj heq)
  rw [← map_drain] at hloop
  obtain ⟨⟨visits, m₂⟩, hdrain, rfl⟩ := Option.map_eq_some_iff.mp hloop
  have hmove : ∀ s ∈ m.vecs (i, m.index i), placeOf m.timerJiffies s ≠ some (i, m.index i) := by
    intro s hs hstays
    obtain ⟨q, hq, hne, -⟩ := rule.cascade (hm _ s hs) hpos hi hdvd (by rw [index, ht])
    rw [ht, hq] at hstays
    exact hne (Option.some.inj hstays)
  obtain ⟨hvisits, hplaces⟩ := drain_visits hdrain hmove
  exact ⟨visits, m₂, hdrain, hcascade, hvisits, hplaces, List.isEmpty_iff.mp hnil,
    slots_eq_of_pending hpending⟩

/-- The induction is on the levels that are left; level `n` is the next. -/
theorem FilingRule.drains_from (rule : FilingRule ok due) {is : List (Fin 4)} {n : ℕ}
    (his : is = (List.finRange 4).drop n) (hn : n ≠ 0) (ht : m.timerJiffies = t) (hpos : 1 ≤ t)
    (hdvd : (kTVSize : ℤ) ^ n ∣ t) (hm : ∀ p, ∀ s ∈ m.vecs p, ok (servedUpTo t n) p s) :
    ∀ c ∈ m.cascadeCallsFrom is, c.1.Drains c.2 := by
  induction is generalizing m n with
  | nil => exact fun c hc => absurd hc List.not_mem_nil
  | cons i is ih =>
      have hlt : n < (List.finRange 4).length := by
        by_contra hge
        rw [List.drop_eq_nil_of_le (not_lt.mp hge)] at his
        cases his
      rw [List.drop_eq_getElem_cons hlt, List.getElem_finRange] at his
      obtain ⟨hi, his⟩ := List.cons.inj his
      obtain rfl : n = (i : ℕ) := by rw [hi]; rfl
      have hi0 : i ≠ 0 := Fin.val_ne_zero_iff.mp hn
      obtain ⟨m', hcascade, ht', -, hm'⟩ := rule.cascadeTimers_eq ht hpos hi0 hdvd hm
      intro c hc
      rw [cascadeCallsFrom, hcascade] at hc
      rcases List.mem_cons.mp hc with rfl | hc
      · exact rule.drains ht hpos hi0 hdvd hm
      · simp only at hc
        split at hc
        · cases hc
        · rename_i hr
          have hdvd' := (index_eq_zero_iff ht hdvd).mp (not_not.mp hr)
          exact ih his (Nat.succ_ne_zero _) ht' hdvd' hm' c hc

theorem FilingRule.cascadeCalls_drain (rule : FilingRule ok due) (ht : m.timerJiffies = t)
    (hpos : 1 ≤ t) (hm : ∀ p, ∀ s ∈ m.vecs p, ok (fun _ => t - 1) p s) :
    ∀ c ∈ m.cascadeCalls, c.1.Drains c.2 := by
  intro c hc
  rw [cascadeCalls] at hc
  split at hc
  · cases hc
  · rename_i hindex
    have h0 : m.index 0 = 0 ↔ (kTVSize : ℤ) ^ 1 ∣ t := index_eq_zero_iff ht (by simp)
    exact rule.drains_from rfl one_ne_zero ht hpos (h0.mp (not_not.mp hindex))
      (servedUpTo_one t ▸ hm) c hc

end Rule

/-! ### Runs -/

namespace Draining

variable [DecidableEq τ]

/-- The steps of a master that is started and stopped, with calls of `Update` from outside
as well; a `Start` comes between them. -/
def step (s : Restart.State τ) : Restart.Event τ → Option (Restart.State τ)
  | .start => if s.timer.updater = .idle then Restart.step s .start else none
  | .stop => Restart.step s .stop
  | .internalRun => Restart.step s .internalRun
  | .timer a => (Timer.step s.timer a).map fun t => { s with timer := t }

/-- Every slot is where it may be on a wheel whose clock may have been set back. -/
def Kept (s : Restart.State τ) : Prop := ∃ c, RefinesBy Placed dueAt s.timer c ∧ c.Fresh

variable {s s' : Restart.State τ}

omit [DecidableEq τ] in
theorem kept_init : Kept ({} : Restart.State τ) :=
  ⟨Calendar.init, refinesBy_init _ _, Calendar.fresh_init⟩

theorem Kept.step (h : Kept s) {a : Restart.Event τ} (hstep : Draining.step s a = some s') :
    Kept s' := by
  obtain ⟨c, hrefines, hfresh⟩ := h
  cases a with
  | start =>
      obtain ⟨hidle, hstep⟩ := Option.ite_none_right_eq_some.mp hstep
      obtain ⟨c', hrel, -⟩ := Restart.Related.step ⟨hrefines, fun _ => hidle, hfresh⟩ hstep
      exact ⟨c', hrel.refines, hrel.fresh⟩
  | stop =>
      simp only [Draining.step, Restart.step] at hstep
      split at hstep
      · obtain rfl := Option.some.inj hstep
        exact ⟨c, hrefines, hfresh⟩
      · obtain ⟨-, hstep⟩ := Option.ite_none_right_eq_some.mp hstep
        obtain rfl := Option.some.inj hstep
        exact ⟨c, hrefines, hfresh⟩
  | internalRun =>
      obtain ⟨-, hstep⟩ := Option.ite_none_left_eq_some.mp hstep
      obtain ⟨jiffiers, -, hstep⟩ := Option.bind_eq_some_iff.mp hstep
      obtain ⟨t, ht, rfl⟩ := Option.map_eq_some_iff.mp hstep
      obtain ⟨c', hc', href⟩ := hrefines.step placed_rule ht
      exact ⟨c', href, hfresh.step hc'⟩
  | timer a =>
      obtain ⟨t, ht, rfl⟩ := Option.map_eq_some_iff.mp hstep
      obtain ⟨c', hc', href⟩ := hrefines.step placed_rule ht
      exact ⟨c', href, hfresh.step hc'⟩

/-- **Every call of `CascadeTimers` drains its list.** -/
theorem cascades_drain {es : List (Restart.Event τ)}
    (hrun : Machine.run step ({} : Restart.State τ) es = some s) {target : ℤ}
    (hup : s.timer.updater = .testing target) :
    ∀ c ∈ s.timer.master.cascadeCalls, c.1.Drains c.2 := by
  have hkeep : ∀ (s : Restart.State τ) (a : Restart.Event τ) (s' : Restart.State τ), Kept s →
      step s a = some s' → Kept s' := fun _ _ _ h hstep => h.step hstep
  obtain ⟨c, hrefines, -⟩ := Machine.run_invariant hkeep kept_init hrun
  have hserved : s.timer.served = s.timer.master.timerJiffies - 1 := by
    simp only [Timer.State.served, hup]
  exact placed_rule.cascadeCalls_drain rfl hrefines.good.clock (hserved ▸ hrefines.good.filed)

/-- The steps of `Update` for a jiffy at which nothing is due. -/
def quietTick : List (Restart.Event τ) := Timer.quietTick.map .timer

/-- The steps in `Update` and in `Register` alone. -/
theorem run_timer (s : Restart.State τ) (as : List (Timer.Event τ)) :
    Machine.run step s (as.map .timer) =
      (Machine.run Timer.step s.timer as).map fun t => { s with timer := t } := by
  induction as generalizing s with
  | nil => rfl
  | cons a as ih =>
      rw [List.map_cons, Machine.run_cons, Machine.run_cons, step]
      cases Timer.step s.timer a with
      | none => rfl
      | some t =>
          rw [Option.map_some, Option.bind_some, Option.bind_some, ih]

/-- A timer of 300 jiffies is filed on the second level, whose list of it is drained at
the jiffy 256. -/
theorem cascades_drain_second_level :
    ∃ s : Restart.State ℕ, Machine.run step {}
        ([.timer (.register 7 300), .timer (.update 300)] ++
          (List.replicate 255 quietTick).flatten) = some s ∧
      (s.timer.master.vecs (1, 1)).length = 1 ∧
      s.timer.master.cascadeCalls.map Prod.snd = [1] ∧
      ∀ c ∈ s.timer.master.cascadeCalls, c.1.Drains c.2 := by
  obtain ⟨s, hstart, hclock, hup, hlen, hempty⟩ : ∃ s : Restart.State ℕ, Machine.run step {}
      [.timer (.register 7 300), .timer (.update 300)] = some s ∧
      s.timer.master.timerJiffies = 1 ∧ s.timer.updater = .testing 300 ∧
      (s.timer.master.vecs (1, 1)).length = 1 ∧ ∀ j, s.timer.master.vecs (0, j) = [] :=
    ⟨_, rfl, rfl, rfl, rfl, fun _ => rfl⟩
  have hticks : Machine.run step s (List.replicate 255 quietTick).flatten =
      some { s with timer := s.timer.atClock 256 } := by
    have hquiet : Machine.run Timer.step s.timer (List.replicate 255 Timer.quietTick).flatten =
        some (s.timer.atClock 256) :=
      run_quietTicks 255 hclock hup le_rfl (by decide) (by decide)
        (mask_ne_zero (by decide) (by decide)) fun _ _ => hempty _
    rw [quietTick, ← List.map_replicate, ← List.map_flatten, run_timer, hquiet]
    rfl
  have hrun := (Machine.run_append_eq_some step).mpr ⟨s, hstart, hticks⟩
  have hdrain := cascades_drain hrun hup
  refine ⟨_, hrun, hlen, ?_, hdrain⟩
  set m := (s.timer.atClock 256).master
  have hcalls : m.cascadeCalls = cascadeCallsFrom [1, 2, 3] m := if_neg (not_not.mpr rfl)
  obtain ⟨_, m', -, hcascade, -⟩ := hdrain (m, 1) (by
    rw [hcalls]
    exact List.mem_cons_self)
  dsimp only at hcascade
  rw [hcalls, cascadeCallsFrom, hcascade]
  rfl

end Draining

end Tt3d.Timer
