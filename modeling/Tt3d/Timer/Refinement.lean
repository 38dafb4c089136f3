import Tt3d.Timer.Wheel

/-!
`TimerMaster` refines the calendar.

`Good` is the invariant of the program's own state, `Refines` relates it to a
calendar: the slots in the wheel are the entries, whatever list they are filed
in. Every step of the program is the calendar's step under the same event.
-/

namespace Tt3d.Timer

open TimerMaster

variable {τ : Type*}

/-- The last jiffy whose slots have been taken. -/
def State.served (s : State τ) : ℤ :=
  match s.updater with
  | .taken _ _ => s.master.timerJiffies
  | _ => s.master.timerJiffies - 1

/-- The slots taken whose timers are still to be called. -/
def State.toCall (s : State τ) : TList τ :=
  match s.updater with
  | .taken _ ts => ts
  | .expiring _ _ todo _ => todo
  | _ => []

/-- The slots taken that are still to be filed again or deleted. -/
def State.toRearm (s : State τ) : TList τ :=
  match s.updater with
  | .taken _ ts => ts
  | .expiring _ _ _ ts => ts
  | .rearming _ _ todo _ => todo
  | _ => []

/-- The jiffy under way is the one before the clock. -/
def Updater.Old (t : ℤ) : Updater τ → Prop
  | .expiring _ old _ _ | .rearming _ old _ _ => old + 1 = t
  | _ => True

structure Good (s : State τ) : Prop where
  clock : 1 ≤ s.master.timerJiffies
  clock_lt : s.master.timerJiffies < 2 ^ 31
  filed : AllFiled (fun _ => s.served) s.master
  toCall : ∀ t ∈ s.toCall, t ∈ s.updater.timers
  toRearm : ∀ t ∈ s.toRearm, t ∈ s.updater.timers
  live : ∀ t ∈ s.updater.timers, s.live t.weakTimer = true
  old : s.updater.Old s.master.timerJiffies

def ids (l : TList τ) : Multiset (ℕ × τ) :=
  ((l.map fun s => (s.id, s.weakTimer) : List _) : Multiset _)

/-- The calendar entry of a slot. -/
def entry (m : ℤ) (s : TimerSlot τ) : Entry τ := ⟨s.id, s.weakTimer, dueAfter m s.jiffies⟩

structure Refines (s : State τ) (c : Calendar τ) : Prop where
  good : Good s
  entries : c.entries = s.master.slots.map (entry s.served)
  clock : c.clock = s.master.timerJiffies
  served : c.served = s.served
  toCall : c.toCall = ids s.toCall
  toRearm : c.toRearm = ids s.toRearm
  live : c.live = s.live
  nextSlot : c.nextSlot = s.nextSlot
  calls : c.calls = s.calls

/-- `Good`, for slots that are filed by any rule. -/
structure GoodBy (ok : (Fin 4 → ℤ) → Place → TimerSlot τ → Prop) (s : State τ) : Prop where
  clock : 1 ≤ s.master.timerJiffies
  clock_lt : s.master.timerJiffies < 2 ^ 31
  filed : ∀ p, ∀ u ∈ s.master.vecs p, ok (fun _ => s.served) p u
  toCall : ∀ t ∈ s.toCall, t ∈ s.updater.timers
  toRearm : ∀ t ∈ s.toRearm, t ∈ s.updater.timers
  live : ∀ t ∈ s.updater.timers, s.live t.weakTimer = true
  old : s.updater.Old s.master.timerJiffies

/-- The calendar entry of a pending slot. -/
def pendingEntry (q : TimerSlot τ × ℤ) : Entry τ := ⟨q.1.id, q.1.weakTimer, q.2⟩

/-- `Refines`, for slots that are filed by any rule. -/
structure RefinesBy (ok : (Fin 4 → ℤ) → Place → TimerSlot τ → Prop) (due : ℤ → Place → ℤ → ℤ)
    (s : State τ) (c : Calendar τ) : Prop where
  good : GoodBy ok s
  entries : c.entries = (s.master.pending due s.served).map pendingEntry
  clock : c.clock = s.master.timerJiffies
  served : c.served = s.served
  toCall : c.toCall = ids s.toCall
  toRearm : c.toRearm = ids s.toRearm
  live : c.live = s.live
  nextSlot : c.nextSlot = s.nextSlot
  calls : c.calls = s.calls

theorem good_iff {s : State τ} : Good s ↔ GoodBy Filed s :=
  ⟨fun ⟨h₁, h₂, h₃, h₄, h₅, h₆, h₇⟩ => ⟨h₁, h₂, h₃, h₄, h₅, h₆, h₇⟩,
    fun ⟨h₁, h₂, h₃, h₄, h₅, h₆, h₇⟩ => ⟨h₁, h₂, h₃, h₄, h₅, h₆, h₇⟩⟩

theorem refines_iff {s : State τ} {c : Calendar τ} :
    Refines s c ↔ RefinesBy Filed (fun m _ e => dueAfter m e) s c := by
  have hentries : s.master.slots.map (entry s.served) =
      (s.master.pending (fun m _ e => dueAfter m e) s.served).map pendingEntry := by
    rw [slots_map, pending, map_gather]
    rfl
  constructor
  · rintro ⟨hgood, h₁, h₂, h₃, h₄, h₅, h₆, h₇, h₈⟩
    exact ⟨good_iff.mp hgood, h₁.trans hentries, h₂, h₃, h₄, h₅, h₆, h₇, h₈⟩
  · rintro ⟨hgood, h₁, h₂, h₃, h₄, h₅, h₆, h₇, h₈⟩
    exact ⟨good_iff.mpr hgood, h₁.trans hentries.symm, h₂, h₃, h₄, h₅, h₆, h₇, h₈⟩

@[simp] theorem ids_nil : ids ([] : TList τ) = 0 := rfl

@[simp] theorem ids_cons (s : TimerSlot τ) (l : TList τ) :
    ids (s :: l) = (s.id, s.weakTimer) ::ₘ ids l := rfl

theorem mem_ids {l : TList τ} {q : ℕ × τ} :
    q ∈ ids l ↔ ∃ s ∈ l, (s.id, s.weakTimer) = q := by
  simp [ids]

theorem addInt_eq {a b : ℤ} (ha : -2 ^ 31 ≤ a + b) (hb : a + b < 2 ^ 31) :
    addInt a b = some (a + b) := if_pos ⟨ha, hb⟩

theorem addInt_eq_some {x y z : ℤ} (h : addInt x y = some z) :
    z = x + y ∧ -2 ^ 31 ≤ z ∧ z < 2 ^ 31 := by
  unfold addInt at h
  split at h
  · rename_i hrange
    obtain rfl := Option.some.inj h
    exact ⟨rfl, hrange⟩
  · cases h

theorem served_eq_or (s : State τ) :
    s.master.timerJiffies = s.served ∨ s.master.timerJiffies = s.served + 1 := by
  unfold State.served
  split
  · exact Or.inl rfl
  · right
    omega

section Rule

variable {ok : (Fin 4 → ℤ) → Place → TimerSlot τ → Prop} {due : ℤ → Place → ℤ → ℤ}

/-- What a successful `InternalAddTimer` does: the expiry is not behind the
clock, and the slot joins the wheel where it may be filed. -/
theorem FilingRule.internalAddTimer_spec (rule : FilingRule ok due) {m m' : TimerMaster τ}
    {slot : TimerSlot τ} {x : τ} {e served : ℤ}
    (hm : ∀ p, ∀ u ∈ m.vecs p, ok (fun _ => served) p u)
    (hserved : m.timerJiffies = served ∨ m.timerJiffies = served + 1)
    (hclock : 1 ≤ m.timerJiffies) (hclock' : m.timerJiffies < 2 ^ 31) (hlow : -2 ^ 31 ≤ e)
    (hhigh : e < 2 ^ 31) (h : m.internalAddTimer slot x e = some m') :
    m.timerJiffies ≤ e ∧ m'.timerJiffies = m.timerJiffies ∧
      m'.pending due served = (⟨slot.id, x, e⟩, dueAfter served e) ::ₘ m.pending due served ∧
      ∀ p, ∀ u ∈ m'.vecs p, ok (fun _ => served) p u := by
  rw [internalAddTimer_eq, Option.map_eq_some_iff] at h
  obtain ⟨p, hp, rfl⟩ := h
  have hle : m.timerJiffies ≤ e := le_of_placeOf hp (by simp only; omega)
  obtain ⟨i, hi, hdist, hreach⟩ := placeOf_eq (t := m.timerJiffies) (s := ⟨slot.id, x, e⟩) hle
    (by have : (kTVSize : ℤ) ^ 4 = 2 ^ 32 := rfl
        simp only [this]
        omega)
  obtain rfl := Option.some.inj (hp.symm.trans hi)
  refine ⟨hle, rfl, ?_, ?_⟩
  · rw [pending, gather_pushBack, rule.due_file hserved hle hdist hreach]
    rfl
  · exact all_pushBack hm (rule.file hserved hle hhigh hdist hreach)

end Rule

/-- `InternalAddTimer` succeeds whenever the expiry is not behind the clock. -/
theorem internalAddTimer_isSome {m : TimerMaster τ} {slot : TimerSlot τ} {x : τ} {e : ℤ}
    (hclock : 1 ≤ m.timerJiffies) (hhigh : e < 2 ^ 31) (hle : m.timerJiffies ≤ e) :
    (m.internalAddTimer slot x e).isSome := by
  obtain ⟨i, hi, -⟩ := placeOf_eq (t := m.timerJiffies) (s := ⟨slot.id, x, e⟩) hle
    (by have : (kTVSize : ℤ) ^ 4 = 2 ^ 32 := rfl
        simp only [this]
        omega)
  simp [internalAddTimer_eq, hi]

theorem refinesBy_init (ok : (Fin 4 → ℤ) → Place → TimerSlot τ → Prop) (due : ℤ → Place → ℤ → ℤ) :
    RefinesBy ok due (State.init : State τ) Calendar.init := by
  have hempty (p : Place) (u : TimerSlot τ) : u ∉ (new : TimerMaster τ).vecs p := List.not_mem_nil
  refine ⟨⟨le_rfl, by simp [State.init, new], ?_, ?_, ?_, ?_, trivial⟩, ?_, rfl, ?_, rfl, rfl, rfl,
    rfl, rfl⟩
  · exact fun p u hu => absurd hu (hempty p u)
  · simp [State.toCall, State.init]
  · simp [State.toRearm, State.init]
  · simp [State.init, Updater.timers]
  · simp [State.init, Calendar.init, pending]
  · simp [State.served, State.init, Calendar.init, new]

theorem refines_init : Refines (State.init : State τ) Calendar.init :=
  refines_iff.mpr (refinesBy_init _ _)

section Simulation

variable [DecidableEq τ] {ok : (Fin 4 → ℤ) → Place → TimerSlot τ → Prop}
  {due : ℤ → Place → ℤ → ℤ} {s s' : State τ} {c : Calendar τ}

theorem RefinesBy.register (rule : FilingRule ok due) (h : RefinesBy ok due s c) {x : τ}
    {timeout : ℤ} (hstep : s.register x timeout = some s') :
    ∃ c', Calendar.step c (.register x timeout) = some c' ∧ RefinesBy ok due s' c' := by
  obtain ⟨⟨hc1, hc2, hfiled, htoCall, htoRearm, hlive, hold⟩, hentries, hclock, hserved, hcall,
    hrearm, hl, hnext, hcalls⟩ := id h
  unfold State.register at hstep
  simp only [Calendar.step, hl]
  split at hstep
  · rename_i hx
    rw [if_pos hx]
    simp only [Option.bind_eq_some_iff, Option.map_eq_some_iff] at hstep
    obtain ⟨e, he, m, hm, rfl⟩ := hstep
    obtain ⟨rfl, hlow, hhigh⟩ := addInt_eq_some he
    obtain ⟨-, hjiffies, hpending, hfiled'⟩ :=
      rule.internalAddTimer_spec hfiled (served_eq_or s) hc1 hc2 hlow hhigh hm
    have hsame : State.served { s with master := m, nextSlot := s.nextSlot + 1 } = s.served := by
      simp only [State.served, hjiffies]
    refine ⟨_, rfl, ⟨by simpa only [hjiffies], by simpa only [hjiffies],
      by simpa only [hsame], htoCall, htoRearm, hlive, by simpa only [hjiffies]⟩,
      ?_, by simp only [hclock, hjiffies], by simp only [hserved, hsame], hcall, hrearm, rfl,
      by simp only [hnext], hcalls⟩
    simp only [hpending, hsame, Multiset.map_cons, hentries, hnext, hserved, hclock]
    rfl
  · rename_i hx
    obtain rfl := Option.some.inj hstep
    rw [if_neg hx]
    exact ⟨c, rfl, h⟩

omit [DecidableEq τ] in
/-- What the entries and the current list are when a jiffy is taken. -/
theorem filter_pending (l : TList τ) (live : τ → Bool) {rest : Multiset (TimerSlot τ × ℤ)} {t : ℤ}
    (hrest : ∀ q ∈ rest, q.2 ≠ t) :
    ((rest + (l : Multiset (TimerSlot τ)).map fun u => (u, t)).map pendingEntry).filter
        (fun e => e.due ≠ t) = rest.map pendingEntry ∧
      (((rest + (l : Multiset (TimerSlot τ)).map fun u => (u, t)).map pendingEntry).filter
        (fun e => e.due = t ∧ live e.timer = true)).map (fun e => (e.id, e.timer)) =
        ids (l.filter fun u => live u.weakTimer) := by
  rw [Multiset.map_add, Multiset.map_map, Multiset.filter_add, Multiset.filter_add,
    Multiset.filter_map, Multiset.filter_map, Multiset.filter_map, Multiset.filter_map]
  constructor
  · have hall : rest.filter ((fun e : Entry τ => e.due ≠ t) ∘ pendingEntry) = rest :=
      Multiset.filter_eq_self.mpr fun q hq => hrest q hq
    have hnone : (l : Multiset (TimerSlot τ)).filter
        ((fun e : Entry τ => e.due ≠ t) ∘ pendingEntry ∘ fun u => (u, t)) = 0 :=
      Multiset.filter_eq_nil.mpr fun u _ => by simp [pendingEntry]
    rw [hall, hnone, Multiset.map_zero, add_zero]
  · have hnone : rest.filter
        ((fun e : Entry τ => e.due = t ∧ live e.timer = true) ∘ pendingEntry) = 0 :=
      Multiset.filter_eq_nil.mpr fun q hq h => hrest q hq h.1
    have hsome : (l : Multiset (TimerSlot τ)).filter
        ((fun e : Entry τ => e.due = t ∧ live e.timer = true) ∘ pendingEntry ∘ fun u => (u, t)) =
          (l : Multiset (TimerSlot τ)).filter fun u => live u.weakTimer = true :=
      Multiset.filter_congr fun u _ => by simp [pendingEntry]
    rw [hnone, hsome, Multiset.map_zero, zero_add, Multiset.map_map]
    simp [ids, Multiset.filter_coe, pendingEntry, Function.comp_def]

theorem RefinesBy.take (rule : FilingRule ok due) (h : RefinesBy ok due s c)
    (hstep : s.take = some s') :
    ∃ c', Calendar.step c .take = some c' ∧ RefinesBy ok due s' c' := by
  obtain ⟨⟨hc1, hc2, hfiled, htoCall, htoRearm, hlive, hold⟩, hentries, hclock, hserved, hcall,
    hrearm, hl, hnext, hcalls⟩ := h
  unfold State.take at hstep
  split at hstep
  swap
  · cases hstep
  rename_i target hup
  split at hstep
  swap
  · cases hstep
  obtain ⟨m', l, hcascade, ht, htimers, hpending, hlater, hfiled'⟩ :=
    rule.take_spec rfl hc1 (by simpa [State.served, hup] using hfiled) s.live
  rw [hcascade] at hstep
  obtain rfl := Option.some.inj hstep
  have hs : s.served = s.master.timerJiffies - 1 := by simp [State.served, hup]
  have hguard : c.toRearm = 0 ∧ c.toCall = 0 ∧ c.clock = c.served + 1 := by
    refine ⟨by simp [hrearm, State.toRearm, hup], by simp [hcall, State.toCall, hup], ?_⟩
    rw [hclock, hserved, hs]
    omega
  -- The slots that stay keep their due jiffies; the others are due now.
  obtain ⟨hstay, htaken⟩ := filter_pending l s.live hlater
  rw [← hpending, ← hs, ← hentries] at hstay htaken
  refine ⟨_, if_pos hguard, ⟨by simpa only [ht], by simpa only [ht],
    by simpa only [State.served, ht], fun t h => h, fun t h => h, ?_, trivial⟩, ?_,
    by simp only [hclock, ht], by simp only [State.served, hclock, ht], ?_, ?_, hl, hnext, hcalls⟩
  · intro t ht'
    have ht' : t ∈ (m'.takeTimers s.live).2 := ht'
    rw [htimers] at ht'
    simpa using List.of_mem_filter ht'
  · simp only [State.served, ht, hclock]
    exact hstay
  all_goals
    simp only [Calendar.batch, hl, hclock, State.toCall, State.toRearm, htimers]
    exact htaken

theorem RefinesBy.release (h : RefinesBy ok due s c) {x : τ} (hstep : s.release x = some s') :
    ∃ c', Calendar.step c (.release x) = some c' ∧ RefinesBy ok due s' c' := by
  obtain ⟨⟨hc1, hc2, hfiled, htoCall, htoRearm, hlive, hold⟩, hentries, hclock, hserved, hcall,
    hrearm, hl, hnext, hcalls⟩ := h
  unfold State.release at hstep
  split at hstep
  · cases hstep
  rename_i hheld
  obtain rfl := Option.some.inj hstep
  simp only [Bool.not_eq_true, List.any_eq_false, decide_eq_true_eq] at hheld
  have hnot : x ∉ (c.toCall + c.toRearm).map Prod.snd := by
    intro hx
    obtain ⟨q, hq, rfl⟩ := Multiset.mem_map.mp hx
    rw [hcall, hrearm] at hq
    rcases Multiset.mem_add.mp hq with hq | hq <;> obtain ⟨t, ht, rfl⟩ := mem_ids.mp hq
    · exact hheld t (htoCall t ht) rfl
    · exact hheld t (htoRearm t ht) rfl
  refine ⟨{ c with live := Function.update c.live x false }, if_neg hnot,
    ⟨hc1, hc2, hfiled, htoCall, htoRearm, ?_, hold⟩,
    hentries, hclock, hserved, hcall, hrearm, by simp only [hl], hnext, hcalls⟩
  intro t ht
  have hne : t.weakTimer ≠ x := hheld t ht
  simpa [hne] using hlive t ht

theorem RefinesBy.tick (h : RefinesBy ok due s c) (hstep : step s .tick = some s') :
    ∃ c', Calendar.step c .tick = some c' ∧ RefinesBy ok due s' c' := by
  obtain ⟨⟨hc1, hc2, hfiled, htoCall, htoRearm, hlive, hold⟩, hentries, hclock, hserved, hcall,
    hrearm, hl, hnext, hcalls⟩ := h
  simp only [Timer.step] at hstep
  split at hstep
  swap
  · cases hstep
  rename_i target timers hup
  rw [Option.map_eq_some_iff] at hstep
  obtain ⟨t, ht, rfl⟩ := hstep
  obtain ⟨rfl, -, hhigh⟩ := addInt_eq_some ht
  have hs : s.served = s.master.timerJiffies := by simp [State.served, hup]
  have hguard : c.clock = c.served := by rw [hclock, hserved, hs]
  refine ⟨_, if_pos hguard, ⟨by simp only; omega, hhigh, ?_, fun t ht => ht, fun t ht => ht, ?_,
    rfl⟩, ?_, by simp only [hclock], ?_, ?_, ?_, hl, hnext, hcalls⟩
  · simp only [State.served, hup, add_sub_cancel_right] at hfiled ⊢
    exact hfiled
  · simp only [hup] at hlive
    exact hlive
  · simpa only [State.served, hup, add_sub_cancel_right, pending, gather_clock] using hentries
  · simpa only [State.served, hup, add_sub_cancel_right] using hserved
  · simpa only [State.toCall, hup] using hcall
  · simpa only [State.toRearm, hup] using hrearm

theorem RefinesBy.expired (h : RefinesBy ok due s c) {slot : ℕ} {x : τ}
    (hstep : s.expired slot x = some s') :
    ∃ c', Calendar.step c (.expired slot x) = some c' ∧ RefinesBy ok due s' c' := by
  obtain ⟨⟨hc1, hc2, hfiled, htoCall, htoRearm, hlive, hold⟩, hentries, hclock, hserved, hcall,
    hrearm, hl, hnext, hcalls⟩ := h
  unfold State.expired at hstep
  split at hstep
  swap
  · cases hstep
  rename_i target old t todo timers hup
  split at hstep
  swap
  · cases hstep
  rename_i hhead
  obtain rfl := Option.some.inj hstep
  obtain ⟨rfl, rfl⟩ := hhead
  simp only [State.served, State.toCall, State.toRearm, hup, Updater.timers, Updater.Old] at *
  have hmem : (t.id, t.weakTimer) ∈ c.toCall := by simp [hcall]
  refine ⟨_, if_pos hmem, ⟨hc1, hc2, hfiled,
    fun u hu => htoCall u (List.mem_cons_of_mem _ hu), htoRearm, hlive, hold⟩, hentries, hclock,
    hserved, ?_, hrearm, hl, hnext, ?_⟩
  · simp only [hcall, ids_cons, Multiset.erase_cons_head]
    rfl
  · have : s.master.timerJiffies - 1 = old := by omega
    simp only [hcalls, hserved, this]

theorem RefinesBy.rearm (rule : FilingRule ok due) (h : RefinesBy ok due s c) {slot : ℕ} {x : τ}
    {period : Bool} {timeout : ℤ} (hstep : s.rearm slot x period timeout = some s') :
    ∃ c', Calendar.step c (.rearm slot x period timeout) = some c' ∧ RefinesBy ok due s' c' := by
  obtain ⟨⟨hc1, hc2, hfiled, htoCall, htoRearm, hlive, hold⟩, hentries, hclock, hserved, hcall,
    hrearm, hl, hnext, hcalls⟩ := h
  unfold State.rearm at hstep
  split at hstep
  swap
  · cases hstep
  rename_i target old t todo timers hup
  split at hstep
  swap
  · cases hstep
  rename_i hhead
  obtain ⟨rfl, rfl⟩ := hhead
  simp only [State.served, State.toCall, State.toRearm, hup, Updater.timers, Updater.Old] at *
  have hguard : (t.id, t.weakTimer) ∈ c.toRearm ∧ c.toCall = 0 :=
    ⟨by simp [hrearm], by simp [hcall]⟩
  have herase : c.toRearm.erase (t.id, t.weakTimer) = ids todo := by
    rw [hrearm, ids_cons, Multiset.erase_cons_head]
  have hrest : ∀ u ∈ todo, u ∈ timers := fun u hu => htoRearm u (List.mem_cons_of_mem _ hu)
  simp only [Calendar.step]
  rw [if_pos hguard]
  split at hstep
  · rename_i hperiod
    rw [if_pos hperiod]
    simp only [Option.bind_eq_some_iff, Option.map_eq_some_iff] at hstep
    obtain ⟨e, he, m, hm, rfl⟩ := hstep
    obtain ⟨rfl, hlow, hhigh⟩ := addInt_eq_some he
    obtain ⟨-, hjiffies, hpending, hfiled'⟩ :=
      rule.internalAddTimer_spec hfiled (Or.inr (by omega)) hc1 hc2 hlow hhigh hm
    have hserved' : c.served = old := by omega
    refine ⟨_, rfl, ⟨by simpa only [hjiffies], by simpa only [hjiffies], ?_, htoCall, hrest, hlive,
      by simpa only [Updater.Old, hjiffies]⟩, ?_, by simp only [hclock, hjiffies], ?_, ?_, ?_, hl,
      hnext, hcalls⟩
    · simpa only [State.served, hjiffies] using hfiled'
    · have hold' : s.master.timerJiffies - 1 = old := by omega
      rw [hold'] at hpending hentries
      simp only [State.served, hjiffies, hold', hpending, Multiset.map_cons, hentries, hserved]
      rfl
    · simp only [State.served, hserved, hjiffies]
    · simpa only [State.toCall] using hcall
    · simpa only [State.toRearm] using herase
  · rename_i hperiod
    rw [if_neg hperiod]
    obtain rfl := Option.some.inj hstep
    exact ⟨_, rfl, ⟨hc1, hc2, hfiled, htoCall, hrest, hlive, hold⟩, hentries, hclock, hserved,
      hcall, herase, hl, hnext, hcalls⟩

omit [DecidableEq τ] in
/-- A step of `Update` that only moves its thread along. -/
theorem RefinesBy.move (h : RefinesBy ok due s c) {u : Updater τ}
    (hserved : State.served { s with updater := u } = s.served) (hcalled : s.toCall = [])
    (htoCall : State.toCall { s with updater := u } = [])
    (htoRearm : State.toRearm { s with updater := u } = s.toRearm)
    (hheld : ∀ t ∈ s.toRearm, t ∈ u.timers) (htimers : ∀ t ∈ u.timers, t ∈ s.updater.timers)
    (hold : u.Old s.master.timerJiffies) : RefinesBy ok due { s with updater := u } c where
  good := {
    clock := h.good.clock
    clock_lt := h.good.clock_lt
    filed := by simpa only [hserved] using h.good.filed
    toCall := by simp [htoCall]
    toRearm := by simpa only [htoRearm] using hheld
    live := fun t ht => h.good.live t (htimers t ht)
    old := hold }
  entries := by simpa only [hserved] using h.entries
  clock := h.clock
  served := by simpa only [hserved] using h.served
  toCall := by simpa only [htoCall, hcalled] using h.toCall
  toRearm := by simpa only [htoRearm] using h.toRearm
  live := h.live
  nextSlot := h.nextSlot
  calls := h.calls

/-- **The step simulation.** Every step of the program is the calendar's step
under the same event. -/
theorem RefinesBy.step (rule : FilingRule ok due) (h : RefinesBy ok due s c) {a : Event τ}
    (hstep : Timer.step s a = some s') :
    ∃ c', Calendar.step c a = some c' ∧ RefinesBy ok due s' c' := by
  cases a with
  | register x timeout => exact h.register rule hstep
  | release x => exact h.release hstep
  | take => exact h.take rule hstep
  | tick => exact h.tick hstep
  | expired slot x => exact h.expired hstep
  | rearm slot x period timeout => exact h.rearm rule hstep
  | update jiffies =>
      simp only [Timer.step] at hstep
      split at hstep
      swap
      · simp at hstep
      rename_i hup
      split at hstep
      swap
      · cases hstep
      obtain rfl := Option.some.inj hstep
      refine ⟨c, rfl, h.move ?_ ?_ rfl ?_ ?_ ?_ trivial⟩
      all_goals simp [State.served, State.toCall, State.toRearm, Updater.timers, hup]
  | called =>
      simp only [Timer.step] at hstep
      split at hstep
      swap
      · cases hstep
      rename_i hup
      obtain rfl := Option.some.inj hstep
      have hold := h.good.old
      rw [hup] at hold
      refine ⟨c, rfl, h.move ?_ ?_ rfl ?_ ?_ ?_ hold⟩
      all_goals simp [State.served, State.toCall, State.toRearm, Updater.timers, hup]
  | next =>
      simp only [Timer.step] at hstep
      split at hstep
      swap
      · cases hstep
      rename_i hup
      obtain rfl := Option.some.inj hstep
      refine ⟨c, rfl, h.move ?_ ?_ rfl ?_ ?_ ?_ trivial⟩
      all_goals simp [State.served, State.toCall, State.toRearm, Updater.timers, hup]
  | «return» =>
      simp only [Timer.step] at hstep
      split at hstep
      swap
      · cases hstep
      rename_i target hup
      split at hstep
      swap
      · cases hstep
      obtain rfl := Option.some.inj hstep
      refine ⟨c, rfl, h.move ?_ ?_ rfl ?_ ?_ ?_ trivial⟩
      all_goals simp [State.served, State.toCall, State.toRearm, Updater.timers, hup]

theorem Refines.step (h : Refines s c) {a : Event τ} (hstep : Timer.step s a = some s') :
    ∃ c', Calendar.step c a = some c' ∧ Refines s' c' := by
  obtain ⟨c', hc', href⟩ := (refines_iff.mp h).step filed_rule hstep
  exact ⟨c', hc', refines_iff.mpr href⟩

end Simulation

end Tt3d.Timer
