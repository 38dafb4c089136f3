import Mathlib.Data.Multiset.AddSub
import Mathlib.Data.Multiset.Filter
import Mathlib.Tactic.Linarith
import Mathlib.Tactic.Ring
import Tt3d.Timer.TimerMaster

/-!
What the timer wheel is for: a calendar of timers.

A calendar is a multiset of entries with a due jiffy each. Serving a jiffy takes
off the entries due at it; those of live timers are called and then perhaps
entered anew, those of dead timers are dropped. There are no levels, no slots
and no cascades. The second half says when the calls of one entry happen.
-/

namespace Tt3d.Timer

variable {τ : Type*}

/-- The jiffy at which an expiry `e` is due when `m` has just been served: an
expiry that is already past waits for a full turn of the first level. -/
def dueAfter (m e : ℤ) : ℤ := if e ≤ m then e + kTVSize else e

theorem dueAfter_of_lt {m e : ℤ} (h : m < e) : dueAfter m e = e := if_neg (not_le.mpr h)

structure Entry (τ : Type*) where
  id : ℕ
  timer : τ
  due : ℤ
  deriving DecidableEq

structure Calendar (τ : Type*) where
  entries : Multiset (Entry τ)
  clock : ℤ
  /-- The last jiffy whose entries have been taken off. -/
  served : ℤ
  /-- Taken off at `served` and still to be called. -/
  toCall : Multiset (ℕ × τ)
  /-- Taken off at `served` and still to be entered anew or deleted. -/
  toRearm : Multiset (ℕ × τ)
  live : τ → Bool
  nextSlot : ℕ
  calls : List (Call τ)

namespace Calendar

def init : Calendar τ :=
  { entries := 0, clock := 1, served := 0, toCall := 0, toRearm := 0,
    live := fun _ => true, nextSlot := 0, calls := [] }

section Step

variable [DecidableEq τ]

/-- The entries due at the clock whose timers are alive. -/
def batch (c : Calendar τ) : Multiset (ℕ × τ) :=
  (c.entries.filter fun e => e.due = c.clock ∧ c.live e.timer = true).map fun e => (e.id, e.timer)

def step (c : Calendar τ) : Event τ → Option (Calendar τ)
  | .register x timeout =>
      if c.live x then
        some { c with
          entries := ⟨c.nextSlot, x, dueAfter c.served (timeout + c.clock)⟩ ::ₘ c.entries
          nextSlot := c.nextSlot + 1 }
      else some c
  | .release x =>
      if x ∈ (c.toCall + c.toRearm).map Prod.snd then none
      else some { c with live := Function.update c.live x false }
  | .take =>
      if c.toRearm = 0 ∧ c.toCall = 0 ∧ c.clock = c.served + 1 then
        some { c with
          entries := c.entries.filter fun e => e.due ≠ c.clock
          served := c.clock
          toCall := c.batch
          toRearm := c.batch }
      else none
  | .tick => if c.clock = c.served then some { c with clock := c.clock + 1 } else none
  | .expired slot x =>
      if (slot, x) ∈ c.toCall then
        some { c with
          toCall := c.toCall.erase (slot, x)
          calls := c.calls ++ [⟨c.served, slot, x⟩] }
      else none
  | .rearm slot x period timeout =>
      if (slot, x) ∈ c.toRearm ∧ c.toCall = 0 then
        let c' := { c with toRearm := c.toRearm.erase (slot, x) }
        if period then
          some { c' with
            entries := ⟨slot, x, dueAfter c.served (timeout + c.served)⟩ ::ₘ c.entries }
        else some c'
      else none
  | .update _ | .called | .next | .return => some c

end Step

end Calendar

/-! ### When an entry is due -/

/-- Jiffy `j` is one of `r + d, r + 2 * d, …` (with `period`), or is `r + d`. -/
def DueOn (r d : ℤ) (period : Bool) (j : ℤ) : Prop :=
  r < j ∧ if period then d ∣ j - r else j = r + d

instance (r d : ℤ) (period : Bool) : DecidablePred (DueOn r d period) := fun j => by
  unfold DueOn
  infer_instance

/-- The jiffies up to `m` at which a timer registered at `r` is due, in order. -/
def schedule (r d : ℤ) (period : Bool) (m : ℤ) : List ℤ :=
  ((List.range (m - r).toNat).map fun k : ℕ => r + 1 + k).filter fun j =>
    decide (DueOn r d period j)

theorem schedule_of_le {r d m : ℤ} {period : Bool} (h : m ≤ r) : schedule r d period m = [] := by
  rw [schedule, Int.toNat_of_nonpos (by omega)]
  rfl

theorem schedule_succ (r d m : ℤ) (period : Bool) :
    schedule r d period (m + 1) =
      schedule r d period m ++ if DueOn r d period (m + 1) then [m + 1] else [] := by
  by_cases hm : m < r
  · have hnot : ¬ DueOn r d period (m + 1) := fun h => by have := h.1; omega
    rw [schedule_of_le (by omega), schedule_of_le (by omega), if_neg hnot]
    rfl
  · have hnat : (m + 1 - r).toNat = (m - r).toNat + 1 := by omega
    have hlast : r + 1 + ((m - r).toNat : ℤ) = m + 1 := by omega
    rw [schedule, schedule, hnat, List.range_succ, List.map_append, List.filter_append,
      List.map_singleton, hlast, List.filter_singleton]
    simp

/-- How many times a periodic timer is due in `k` jiffies. -/
theorem length_schedule (r : ℤ) (d k : ℕ) : (schedule r d true (r + k)).length = k / d := by
  induction k with
  | zero => rw [schedule_of_le (by simp), Nat.zero_div, List.length_nil]
  | succ k ih =>
      have hdue : DueOn r d true (r + k + 1) ↔ d ∣ k + 1 := by
        have hsub : r + (k : ℤ) + 1 - r = ((k + 1 : ℕ) : ℤ) := by
          push_cast
          ring
        simp only [DueOn, if_true, hsub, Int.natCast_dvd_natCast]
        exact and_iff_right (by omega)
      rw [Nat.cast_add, Nat.cast_one, ← add_assoc, schedule_succ, List.length_append, ih,
        Nat.succ_div, apply_ite List.length, if_congr hdue rfl rfl]
      rfl

theorem dueOn_add {r d k j : ℤ} {period : Bool} :
    DueOn (r + k) d period (j + k) ↔ DueOn r d period j := by
  unfold DueOn
  cases period with
  | false =>
      simp only [Bool.false_eq_true, if_false]
      omega
  | true =>
      have hsub : j + k - (r + k) = j - r := by omega
      simp only [if_true, hsub, add_lt_add_iff_right]

/-- A schedule on a clock that is `k` ahead. -/
theorem schedule_add (r d m k : ℤ) (period : Bool) :
    schedule (r + k) d period (m + k) = (schedule r d period m).map (· + k) := by
  have hlength : m + k - (r + k) = m - r := by omega
  have hcomp : ((fun j => decide (DueOn (r + k) d period j)) ∘ fun j => j + k) =
      fun j => decide (DueOn r d period j) := by
    ext1 j
    simp only [Function.comp, dueOn_add]
  have hmap : (List.range (m - r).toNat).map (fun i : ℕ => r + k + 1 + i) =
      ((List.range (m - r).toNat).map fun i : ℕ => r + 1 + i).map (· + k) := by
    rw [List.map_map]
    apply List.map_congr_left
    intro i _
    show r + k + 1 + (i : ℤ) = r + 1 + i + k
    omega
  rw [schedule, schedule, hlength, hmap, List.filter_map, hcomp]

/-- `e` is the first jiffy after `m` at which the timer is due. -/
def NextDue (r d : ℤ) (period : Bool) (m e : ℤ) : Prop :=
  DueOn r d period e ∧ m < e ∧ ∀ j, m < j → j < e → ¬ DueOn r d period j

theorem nextDue_register {r d m : ℤ} (period : Bool) (hd : 1 ≤ d) (hm : m ≤ r) :
    NextDue r d period m (r + d) := by
  refine ⟨⟨by omega, by simp⟩, by omega, ?_⟩
  rintro j - hj ⟨hrj, hdue⟩
  cases period with
  | false => simp only [Bool.false_eq_true, if_false] at hdue; omega
  | true =>
      simp only [if_true] at hdue
      have := Int.le_of_dvd (by omega) hdue
      omega

theorem nextDue_rearm {r d m : ℤ} (hd : 1 ≤ d) (hm : DueOn r d true m) :
    NextDue r d true m (d + m) := by
  obtain ⟨hrm, hdvd⟩ := hm
  simp only [if_true] at hdvd
  refine ⟨⟨by omega, ?_⟩, by omega, ?_⟩
  · simp only [if_true]
    have : d + m - r = (m - r) + d := by ring
    rw [this]
    exact Int.dvd_add hdvd (Int.dvd_refl d)
  · rintro j hmj hj ⟨-, hdue⟩
    simp only [if_true] at hdue
    have hsub : d ∣ j - m := by
      have := Int.dvd_sub hdue hdvd
      rwa [show j - r - (m - r) = j - m by ring] at this
    have := Int.le_of_dvd (by omega) hsub
    omega

theorem nextDue_add {r d m e k : ℤ} {period : Bool} :
    NextDue (r + k) d period (m + k) (e + k) ↔ NextDue r d period m e := by
  have hfirst : (∀ j, m + k < j → j < e + k → ¬ DueOn (r + k) d period j) ↔
      ∀ j, m < j → j < e → ¬ DueOn r d period j := by
    constructor
    · intro h j hj hje
      rw [← dueOn_add (k := k)]
      exact h (j + k) (by omega) (by omega)
    · intro h j hj hje
      have hnot := h (j - k) (by omega) (by omega)
      rwa [← dueOn_add (k := k), sub_add_cancel] at hnot
  rw [NextDue, NextDue, dueOn_add, add_lt_add_iff_right, hfirst]

/-- Serving the next jiffy: either the entry is due now, or nothing changes. -/
theorem NextDue.serve {r d m e : ℤ} {period : Bool} (h : NextDue r d period m e) :
    if e = m + 1 then schedule r d period (m + 1) = schedule r d period m ++ [e]
    else NextDue r d period (m + 1) e ∧ schedule r d period (m + 1) = schedule r d period m := by
  obtain ⟨hdue, hlt, hfirst⟩ := h
  split
  · rename_i he
    rw [schedule_succ, if_pos (he ▸ hdue), he]
  · rename_i he
    refine ⟨⟨hdue, by omega, fun j hj => hfirst j (by omega)⟩, ?_⟩
    rw [schedule_succ, if_neg (hfirst (m + 1) (by omega) (by omega)), List.append_nil]

/-! ### When the calls of one entry happen -/

namespace Calendar

/-- Entry `n` of timer `x`, registered at `r` with timeout `d`: what the calendar
holds of it. -/
inductive Whereabouts (n : ℕ) (x : τ) (r d : ℤ) (period : Bool) (c : Calendar τ) : Prop
  | waiting (e : ℤ) (hdue : NextDue r d period c.served e)
      (hentries : c.entries.filter (fun e => e.id = n) = {⟨n, x, e⟩})
      (hrearm : c.toRearm.filter (fun q => q.1 = n) = 0)
      (hcall : c.toCall.filter (fun q => q.1 = n) = 0)
  | taken (hdue : DueOn r d period c.served)
      (hentries : c.entries.filter (fun e => e.id = n) = 0)
      (hrearm : c.toRearm.filter (fun q => q.1 = n) = {(n, x)})
      (hcall : c.toCall.filter (fun q => q.1 = n) = 0 ∨
        c.toCall.filter (fun q => q.1 = n) = {(n, x)})
  | gone (hperiod : period = false) (hpast : r + d ≤ c.served)
      (hentries : c.entries.filter (fun e => e.id = n) = 0)
      (hrearm : c.toRearm.filter (fun q => q.1 = n) = 0)
      (hcall : c.toCall.filter (fun q => q.1 = n) = 0)

/-- The calls made on slot `n`. -/
def callsOf (n : ℕ) (calls : List (Call τ)) : List (Call τ) := calls.filter fun q => q.slot = n

variable {n : ℕ} {x : τ} {r d : ℤ} {period : Bool} {c c' : Calendar τ}

theorem not_mem_of_filter {q : Multiset (ℕ × τ)} (h : q.filter (fun a => a.1 = n) = 0) :
    (n, x) ∉ q := by
  intro hmem
  have : (n, x) ∈ q.filter fun a => a.1 = n := Multiset.mem_filter.mpr ⟨hmem, rfl⟩
  rw [h] at this
  exact Multiset.notMem_zero _ this

theorem filter_rest {q rest : Multiset (ℕ × τ)} (hq : q = (n, x) ::ₘ rest)
    (h : q.filter (fun a => a.1 = n) = {(n, x)}) : rest.filter (fun a => a.1 = n) = 0 := by
  rw [hq, Multiset.filter_cons_of_pos (p := fun a => a.1 = n) rest rfl, ← Multiset.cons_zero] at h
  exact (Multiset.cons_inj_right _).mp h

theorem filter_entries_take (c : Calendar τ) (n : ℕ) :
    (c.entries.filter fun e => e.due ≠ c.clock).filter (fun e => e.id = n) =
      (c.entries.filter fun e => e.id = n).filter fun e => e.due ≠ c.clock :=
  Multiset.filter_comm _ _ _

theorem filter_batch (c : Calendar τ) (n : ℕ) :
    c.batch.filter (fun q => q.1 = n) =
      ((c.entries.filter fun e => e.id = n).filter fun e =>
        e.due = c.clock ∧ c.live e.timer = true).map fun e => (e.id, e.timer) := by
  rw [batch, Multiset.filter_map, Multiset.filter_comm]
  rfl

section Tracking

variable [DecidableEq τ]

/-- The calls made on an entry and the one that is under way are exactly those
of its schedule up to the jiffy served. -/
structure Tracked (n : ℕ) (x : τ) (r d : ℤ) (period : Bool) (c : Calendar τ) : Prop where
  known : n < c.nextSlot
  place : Whereabouts n x r d period c
  calls : callsOf n c.calls ++ (if (n, x) ∈ c.toCall then [⟨c.served, n, x⟩] else []) =
    (schedule r d period c.served).map fun j => ⟨j, n, x⟩

/-- Every answer about `x` when it is entered anew is the constant one. -/
def Constant (x : τ) (d : ℤ) (period : Bool) : Event τ → Prop
  | .rearm _ y p t => y = x → p = period ∧ (p = true → t = d)
  | _ => True

theorem Tracked.take (h : Tracked n x r d period c) (hlive : c.live x = true)
    (hstep : step c .take = some c') : Tracked n x r d period c' := by
  simp only [step] at hstep
  split at hstep
  swap
  · cases hstep
  rename_i hguard
  obtain ⟨hrearm0, hcall0, hclock⟩ := hguard
  obtain rfl := Option.some.inj hstep
  obtain ⟨hknown, hplace, hcalls⟩ := h
  have hcalls' : callsOf n c.calls = (schedule r d period c.served).map fun j => ⟨j, n, x⟩ := by
    simpa [hcall0] using hcalls
  cases hplace with
  | taken _ _ hrearm _ =>
      rw [hrearm0, Multiset.filter_zero] at hrearm
      exact absurd hrearm (Multiset.singleton_ne_zero _).symm
  | gone hperiod hpast hentries =>
      have hbatch : c.batch.filter (fun q => q.1 = n) = 0 := by
        rw [filter_batch, hentries]
        rfl
      have hnot : ¬ DueOn r d period (c.served + 1) := by
        rintro ⟨-, hdue⟩
        rw [hperiod] at hdue
        simp only [Bool.false_eq_true, if_false] at hdue
        omega
      refine ⟨hknown, .gone hperiod (by simp only [hclock]; omega) ?_ hbatch hbatch, ?_⟩
      · rw [filter_entries_take, hentries]
        rfl
      · have hpend : (n, x) ∉ c.batch := not_mem_of_filter hbatch
        simp only [hpend, if_false, List.append_nil, hcalls', hclock]
        rw [schedule_succ, if_neg hnot, List.append_nil]
  | waiting e hdue hentries =>
      have hserve := hdue.serve
      have hbatch := filter_batch c n
      rw [hentries, Multiset.filter_singleton] at hbatch
      have hentries' := filter_entries_take c n
      rw [hentries, Multiset.filter_singleton] at hentries'
      by_cases he : e = c.served + 1
      · rw [if_pos he] at hserve
        rw [if_pos ⟨he.trans hclock.symm, hlive⟩, Multiset.map_singleton] at hbatch
        rw [if_neg (not_not.mpr (he.trans hclock.symm))] at hentries'
        refine ⟨hknown, .taken ?_ hentries' hbatch (.inr hbatch), ?_⟩
        · simpa only [hclock, ← he] using hdue.1
        · have hpend : (n, x) ∈ c.batch :=
            Multiset.mem_of_mem_filter (hbatch ▸ Multiset.mem_singleton_self _)
          simp only [hpend, if_true, hcalls', hclock, hserve, List.map_append,
            List.map_singleton, he]
      · rw [if_neg he] at hserve
        rw [if_neg fun h => he (h.1.trans hclock)] at hbatch
        rw [if_pos (fun h => he (h.trans hclock))] at hentries'
        refine ⟨hknown, .waiting e ?_ hentries' hbatch hbatch, ?_⟩
        · simpa only [hclock] using hserve.1
        · have hpend : (n, x) ∉ c.batch := not_mem_of_filter hbatch
          simp only [hpend, if_false, List.append_nil, hcalls', hclock, hserve.2]

theorem Tracked.expired (h : Tracked n x r d period c) {m : ℕ} {y : τ}
    (hstep : step c (.expired m y) = some c') : Tracked n x r d period c' := by
  simp only [step] at hstep
  split at hstep
  swap
  · cases hstep
  rename_i hmem
  obtain rfl := Option.some.inj hstep
  obtain ⟨hknown, hplace, hcalls⟩ := h
  obtain ⟨rest, hrest⟩ := Multiset.exists_cons_of_mem hmem
  have herase : c.toCall.erase (m, y) = rest := by rw [hrest, Multiset.erase_cons_head]
  by_cases hmn : m = n
  · subst hmn
    have hin : (m, y) ∈ c.toCall.filter fun q => q.1 = m := Multiset.mem_filter.mpr ⟨hmem, rfl⟩
    cases hplace with
    | waiting _ _ _ _ hcall => exact absurd hin (by simp [hcall])
    | gone _ _ _ _ hcall => exact absurd hin (by simp [hcall])
    | taken hdue hentries hrearm hcall =>
        rcases hcall with hcall | hcall
        · exact absurd hin (by simp [hcall])
        obtain rfl : y = x := by
          rw [hcall, Multiset.mem_singleton] at hin
          exact congrArg Prod.snd hin
        have hrest0 := filter_rest hrest hcall
        refine ⟨hknown, .taken hdue hentries hrearm (.inl (by simpa only [herase])), ?_⟩
        have hpend : (m, y) ∉ rest := not_mem_of_filter hrest0
        simp only [herase, hpend, if_false, List.append_nil]
        simpa [hmem, callsOf, List.filter_append] using hcalls
  · have hfilter : (c.toCall.erase (m, y)).filter (fun q => q.1 = n) =
        c.toCall.filter fun q => q.1 = n := by
      rw [herase, hrest, Multiset.filter_cons_of_neg _ (by simpa using hmn)]
    have hmem_iff : (n, x) ∈ c.toCall.erase (m, y) ↔ (n, x) ∈ c.toCall :=
      Multiset.mem_erase_of_ne fun heq => hmn (congrArg Prod.fst heq).symm
    refine ⟨hknown, ?_, ?_⟩
    · cases hplace with
      | waiting e hdue hentries hrearm hcall =>
          exact .waiting e hdue hentries hrearm (by rw [hfilter, hcall])
      | taken hdue hentries hrearm hcall =>
          exact .taken hdue hentries hrearm (by rwa [hfilter])
      | gone hperiod hpast hentries hrearm hcall =>
          exact .gone hperiod hpast hentries hrearm (by rw [hfilter, hcall])
    · simp only [hmem_iff]
      simpa [callsOf, List.filter_append, hmn] using hcalls

theorem Tracked.rearm (h : Tracked n x r d period c) (hd : 1 ≤ d) {m : ℕ} {y : τ} {p : Bool}
    {t : ℤ} (hconst : Constant x d period (.rearm m y p t))
    (hstep : step c (.rearm m y p t) = some c') : Tracked n x r d period c' := by
  simp only [step] at hstep
  split at hstep
  swap
  · cases hstep
  rename_i hguard
  obtain ⟨hmem, hcall0⟩ := hguard
  obtain ⟨hknown, hplace, hcalls⟩ := h
  obtain ⟨rest, hrest⟩ := Multiset.exists_cons_of_mem hmem
  have herase : c.toRearm.erase (m, y) = rest := by rw [hrest, Multiset.erase_cons_head]
  by_cases hmn : m = n
  · subst hmn
    have hin : (m, y) ∈ c.toRearm.filter fun q => q.1 = m := Multiset.mem_filter.mpr ⟨hmem, rfl⟩
    cases hplace with
    | waiting _ _ _ hrearm => exact absurd hin (by simp [hrearm])
    | gone _ _ _ hrearm => exact absurd hin (by simp [hrearm])
    | taken hdue hentries hrearm hcall =>
        obtain rfl : y = x := by
          rw [hrearm, Multiset.mem_singleton] at hin
          exact congrArg Prod.snd hin
        have hrest0 := filter_rest hrest hrearm
        have hcall' : c.toCall.filter (fun q => q.1 = m) = 0 := by rw [hcall0, Multiset.filter_zero]
        obtain ⟨rfl, ht⟩ := hconst rfl
        cases p with
        | true =>
            obtain rfl := ht rfl
            obtain rfl := Option.some.inj hstep
            refine ⟨hknown, .waiting (t + c.served) (nextDue_rearm hd hdue) ?_
              (by simpa only [herase]) hcall', hcalls⟩
            rw [dueAfter_of_lt (by omega)]
            simp only [Multiset.filter_cons_of_pos, hentries, Multiset.cons_zero]
        | false =>
            obtain rfl := Option.some.inj hstep
            refine ⟨hknown, .gone rfl ?_ hentries (by simpa only [herase]) hcall', hcalls⟩
            have := hdue.2
            simp only [Bool.false_eq_true, if_false] at this
            exact this.ge
  · have hfilter : (c.toRearm.erase (m, y)).filter (fun q => q.1 = n) =
        c.toRearm.filter fun q => q.1 = n := by
      rw [herase, hrest, Multiset.filter_cons_of_neg _ (by simpa using hmn)]
    have hentries' : c'.entries.filter (fun e => e.id = n) =
        c.entries.filter fun e => e.id = n := by
      split at hstep <;> obtain rfl := Option.some.inj hstep
      · exact Multiset.filter_cons_of_neg _ (by simpa using hmn)
      · rfl
    have hrearm' : c'.toRearm = c.toRearm.erase (m, y) := by
      split at hstep <;> obtain rfl := Option.some.inj hstep <;> rfl
    have hsame : c'.toCall = c.toCall ∧ c'.served = c.served ∧ c'.calls = c.calls ∧
        c'.nextSlot = c.nextSlot := by
      split at hstep <;> obtain rfl := Option.some.inj hstep <;> exact ⟨rfl, rfl, rfl, rfl⟩
    obtain ⟨htoCall, hserved, hcalls', hnext⟩ := hsame
    refine ⟨by rwa [hnext], ?_, by rwa [htoCall, hserved, hcalls']⟩
    cases hplace with
    | waiting e hdue hentries hrearm hcall =>
        exact .waiting e (by rwa [hserved]) (by rwa [hentries']) (by rwa [hrearm', hfilter])
          (by rwa [htoCall])
    | taken hdue hentries hrearm hcall =>
        exact .taken (by rwa [hserved]) (by rwa [hentries']) (by rwa [hrearm', hfilter])
          (by rwa [htoCall])
    | gone hperiod hpast hentries hrearm hcall =>
        exact .gone hperiod (by rwa [hserved]) (by rwa [hentries']) (by rwa [hrearm', hfilter])
          (by rwa [htoCall])

theorem Tracked.step (h : Tracked n x r d period c) (hd : 1 ≤ d) {a : Event τ}
    (hconst : Constant x d period a) (hstep : step c a = some c') (hlive : c.live x = true) :
    Tracked n x r d period c' := by
  obtain ⟨hknown, hplace, hcalls⟩ := id h
  cases a with
  | register y t =>
      simp only [Calendar.step] at hstep
      split at hstep <;> obtain rfl := Option.some.inj hstep
      · -- The new entry has another number.
        have hentries : ∀ e : ℤ, (⟨c.nextSlot, y, e⟩ ::ₘ c.entries).filter (fun e => e.id = n) =
            c.entries.filter fun e => e.id = n := fun e =>
          Multiset.filter_cons_of_neg (p := fun e : Entry τ => e.id = n) _ hknown.ne'
        refine ⟨Nat.lt_succ_of_lt hknown, ?_, hcalls⟩
        cases hplace with
        | waiting e hdue he hrearm hcall =>
            exact .waiting e hdue ((hentries _).trans he) hrearm hcall
        | taken hdue he hrearm hcall => exact .taken hdue ((hentries _).trans he) hrearm hcall
        | gone hp hpast he hrearm hcall =>
            exact .gone hp hpast ((hentries _).trans he) hrearm hcall
      · exact h
  | release y =>
      simp only [Calendar.step] at hstep
      split at hstep
      · cases hstep
      obtain rfl := Option.some.inj hstep
      refine ⟨hknown, ?_, hcalls⟩
      cases hplace with
      | waiting e hdue he hrearm hcall => exact .waiting e hdue he hrearm hcall
      | taken hdue he hrearm hcall => exact .taken hdue he hrearm hcall
      | gone hp hpast he hrearm hcall => exact .gone hp hpast he hrearm hcall
  | take => exact h.take hlive hstep
  | tick =>
      simp only [Calendar.step] at hstep
      split at hstep
      swap
      · cases hstep
      obtain rfl := Option.some.inj hstep
      refine ⟨hknown, ?_, hcalls⟩
      cases hplace with
      | waiting e hdue he hrearm hcall => exact .waiting e hdue he hrearm hcall
      | taken hdue he hrearm hcall => exact .taken hdue he hrearm hcall
      | gone hp hpast he hrearm hcall => exact .gone hp hpast he hrearm hcall
  | expired m y => exact h.expired hstep
  | rearm m y p t => exact h.rearm hd hconst hstep
  | update j | called | next | «return» =>
      obtain rfl := Option.some.inj hstep
      exact h

/-- Death is for ever. -/
theorem live_of_step {a : Event τ} (hstep : step c a = some c') (h : c'.live x = true) :
    c.live x = true := by
  cases a with
  | release y =>
      simp only [Calendar.step] at hstep
      split at hstep
      · cases hstep
      obtain rfl := Option.some.inj hstep
      by_cases hxy : x = y
      · simp [hxy] at h
      · simpa [hxy] using h
  | register y t | take | tick | expired m y =>
      simp only [Calendar.step] at hstep
      split at hstep <;> cases hstep
      all_goals exact h
  | rearm m y p t =>
      simp only [Calendar.step] at hstep
      split at hstep
      · split at hstep <;> cases hstep <;> exact h
      · cases hstep
  | update j | called | next | «return» => cases hstep; exact h

theorem live_of_run {as : List (Event τ)} (hrun : Machine.run Calendar.step c as = some c')
    (h : c'.live x = true) : c.live x = true := by
  by_contra hdead
  exact Machine.run_invariant (I := fun c => c.live x ≠ true)
    (fun _ _ _ hI hstep hlive => hI (live_of_step hstep hlive)) hdead hrun h

/-- **The timing theorem.** From its registration on, the calls of a timer that
stays alive and answers alike are those of its schedule. -/
theorem Tracked.run (h : Tracked n x r d period c) (hd : 1 ≤ d) {as : List (Event τ)}
    (hconst : ∀ a ∈ as, Constant x d period a)
    (hrun : Machine.run Calendar.step c as = some c') (hlive : c'.live x = true) :
    Tracked n x r d period c' := by
  have hboth := Machine.run_invariant_of_forall
    (I := fun c => c.live x = true → Tracked n x r d period c) (P := Constant x d period)
    (fun c a c' ha hI hstep hlive' =>
      (hI (live_of_step hstep hlive')).step hd ha hstep (live_of_step hstep hlive'))
    hconst (fun _ => h) hrun
  exact hboth hlive

/-- Every number the calendar holds or has called is paired with its timer by `P`. -/
structure Everywhere (P : ℕ → τ → Prop) (c : Calendar τ) : Prop where
  entries : ∀ e ∈ c.entries, P e.id e.timer
  toCall : ∀ q ∈ c.toCall, P q.1 q.2
  toRearm : ∀ q ∈ c.toRearm, P q.1 q.2
  calls : ∀ q ∈ c.calls, P q.slot q.timer

omit [DecidableEq τ] in
theorem everywhere_init (P : ℕ → τ → Prop) : Everywhere P (init : Calendar τ) :=
  ⟨by simp [init], by simp [init], by simp [init], by simp [init]⟩

omit [DecidableEq τ] in
theorem Everywhere.mono {P Q : ℕ → τ → Prop} (h : Everywhere P c) (hPQ : ∀ m y, P m y → Q m y) :
    Everywhere Q c :=
  ⟨fun e he => hPQ _ _ (h.entries e he), fun q hq => hPQ _ _ (h.toCall q hq),
    fun q hq => hPQ _ _ (h.toRearm q hq), fun q hq => hPQ _ _ (h.calls q hq)⟩

/-- Only a registration brings in a new pair. -/
theorem Everywhere.step {P : ℕ → τ → Prop} (h : Everywhere P c) {a : Event τ}
    (hreg : ∀ y d, a = .register y d → c.live y = true → P c.nextSlot y)
    (hstep : Calendar.step c a = some c') : Everywhere P c' := by
  obtain ⟨hentries, htoCall, htoRearm, hcalls⟩ := id h
  cases a with
  | register y t =>
      simp only [Calendar.step] at hstep
      split at hstep <;> obtain rfl := Option.some.inj hstep
      · rename_i hy
        refine ⟨fun e he => ?_, htoCall, htoRearm, hcalls⟩
        rcases Multiset.mem_cons.mp he with rfl | he
        · exact hreg y t rfl hy
        · exact hentries e he
      · exact h
  | release y =>
      simp only [Calendar.step] at hstep
      split at hstep <;> cases hstep
      exact ⟨hentries, htoCall, htoRearm, hcalls⟩
  | take =>
      simp only [Calendar.step] at hstep
      split at hstep <;> cases hstep
      have hbatch : ∀ q ∈ c.batch, P q.1 q.2 := by
        intro q hq
        obtain ⟨e, he, rfl⟩ := Multiset.mem_map.mp hq
        exact hentries e (Multiset.mem_of_mem_filter he)
      exact ⟨fun e he => hentries e (Multiset.mem_of_mem_filter he), hbatch, hbatch, hcalls⟩
  | tick =>
      simp only [Calendar.step] at hstep
      split at hstep <;> cases hstep
      exact ⟨hentries, htoCall, htoRearm, hcalls⟩
  | expired m y =>
      simp only [Calendar.step] at hstep
      split at hstep <;> cases hstep
      rename_i hmem
      refine ⟨hentries, fun q hq => htoCall q (Multiset.mem_of_mem_erase hq), htoRearm, ?_⟩
      intro q hq
      rcases List.mem_append.mp hq with hq | hq
      · exact hcalls q hq
      · obtain rfl := List.mem_singleton.mp hq
        exact htoCall _ hmem
  | rearm m y p t =>
      simp only [Calendar.step] at hstep
      split at hstep
      swap
      · cases hstep
      rename_i hguard
      have hrest : ∀ q ∈ c.toRearm.erase (m, y), P q.1 q.2 := fun q hq =>
        htoRearm q (Multiset.mem_of_mem_erase hq)
      split at hstep <;> cases hstep
      · refine ⟨fun e he => ?_, htoCall, hrest, hcalls⟩
        rcases Multiset.mem_cons.mp he with rfl | he
        · exact htoRearm _ hguard.1
        · exact hentries e he
      · exact ⟨hentries, htoCall, hrest, hcalls⟩
  | update j | called | next | «return» => cases hstep; exact h

theorem Everywhere.run {P : ℕ → τ → Prop} (h : Everywhere P c) {as : List (Event τ)}
    (hreg : ∀ y d, .register y d ∈ as → ∀ m, P m y)
    (hrun : Machine.run Calendar.step c as = some c') : Everywhere P c' :=
  Machine.run_invariant_of_forall (P := fun a => ∀ y d, a = .register y d → ∀ m, P m y)
    (fun _ _ _ ha hI hstep => hI.step (fun y d hy _ => ha y d hy _) hstep)
    (fun a ha y d hy => hreg y d (by rwa [← hy])) h hrun

theorem nextSlot_le_of_step {a : Event τ} (hstep : step c a = some c') :
    c.nextSlot ≤ c'.nextSlot ∧ ∀ y d, a = .register y d → c.live y = true →
      c.nextSlot < c'.nextSlot := by
  cases a with
  | register y t =>
      simp only [Calendar.step] at hstep
      split at hstep <;> cases hstep
      · exact ⟨Nat.le_succ _, fun _ _ _ _ => Nat.lt_succ_self _⟩
      · rename_i hy
        refine ⟨le_rfl, fun z d hz hlive => absurd hlive ?_⟩
        cases hz
        exact hy
  | rearm m y p t =>
      simp only [Calendar.step] at hstep
      split at hstep
      · split at hstep
        all_goals cases hstep; simp
      · cases hstep
  | release y | take | tick | expired m y =>
      simp only [Calendar.step] at hstep
      split at hstep <;> cases hstep
      all_goals simp
  | update j | called | next | «return» => cases hstep; simp

theorem served_le_clock_of_step {a : Event τ} (h : c.served ≤ c.clock)
    (hstep : step c a = some c') : c'.served ≤ c'.clock := by
  cases a with
  | rearm m y p t =>
      simp only [Calendar.step] at hstep
      split at hstep
      · split at hstep <;> cases hstep <;> exact h
      · cases hstep
  | take =>
      simp only [Calendar.step] at hstep
      split at hstep <;> cases hstep
      exact le_rfl
  | tick =>
      simp only [Calendar.step] at hstep
      split at hstep <;> cases hstep
      exact h.trans (Int.le_add_one le_rfl)
  | register y t | release y | expired m y =>
      simp only [Calendar.step] at hstep
      split at hstep <;> cases hstep
      all_goals exact h
  | update j | called | next | «return» => cases hstep; exact h

/-- The numbers in use lie below the next one, and the clock is never behind the
last jiffy served. -/
structure Fresh (c : Calendar τ) : Prop where
  numbers : Everywhere (fun m _ => m < c.nextSlot) c
  served : c.served ≤ c.clock

omit [DecidableEq τ] in
theorem fresh_init : Fresh (init : Calendar τ) := ⟨everywhere_init _, by simp [init]⟩

theorem Fresh.step (h : Fresh c) {a : Event τ} (hstep : step c a = some c') : Fresh c' := by
  obtain ⟨hle, hlt⟩ := nextSlot_le_of_step hstep
  exact ⟨(h.numbers.mono fun _ _ hm => hm.trans_le hle).step hlt hstep,
    served_le_clock_of_step h.served hstep⟩

/-- A registration starts a track. -/
theorem Fresh.tracked_register (h : Fresh c) (hlive : c.live x = true) (hd : 1 ≤ d)
    (period : Bool) (hstep : Calendar.step c (.register x d) = some c') :
    Tracked c.nextSlot x c.clock d period c' := by
  simp only [Calendar.step, hlive, if_true] at hstep
  obtain rfl := Option.some.inj hstep
  have hserved := h.served
  have hentries : c.entries.filter (fun e => e.id = c.nextSlot) = 0 :=
    Multiset.filter_eq_nil.mpr fun e he => (h.numbers.entries e he).ne
  have hnone : ∀ q : Multiset (ℕ × τ), (∀ a ∈ q, a.1 < c.nextSlot) →
      q.filter (fun a => a.1 = c.nextSlot) = 0 := fun q hq =>
    Multiset.filter_eq_nil.mpr fun a ha => (hq a ha).ne
  have hcalls : callsOf c.nextSlot c.calls = [] :=
    List.filter_eq_nil_iff.mpr fun q hq => by simpa using (h.numbers.calls q hq).ne
  have hcall : (c.nextSlot, x) ∉ c.toCall := not_mem_of_filter (hnone _ h.numbers.toCall)
  refine ⟨Nat.lt_succ_self _, .waiting (c.clock + d) (nextDue_register period hd hserved) ?_
    (hnone _ h.numbers.toRearm) (hnone _ h.numbers.toCall), ?_⟩
  · rw [Multiset.filter_cons_of_pos (p := fun e : Entry τ => e.id = c.nextSlot) _ rfl, hentries,
      dueAfter_of_lt (by omega), add_comm d]
    rfl
  · simp only [hcall, if_false, hcalls, schedule_of_le hserved]
    rfl

/-- A call is made at a jiffy of the schedule, and is the last one there. -/
theorem Tracked.dueOn_of_expired (h : Tracked n x r d true c)
    (hstep : Calendar.step c (.expired n x) = some c') :
    DueOn r d true c'.served ∧ (n, x) ∉ c'.toCall := by
  simp only [Calendar.step] at hstep
  split at hstep <;> cases hstep
  rename_i hmem
  cases h.place with
  | waiting _ _ _ _ hcall => exact absurd hmem (not_mem_of_filter hcall)
  | gone hperiod => cases hperiod
  | taken hdue _ _ hcall =>
      refine ⟨hdue, ?_⟩
      rcases hcall with hcall | hcall
      · exact absurd hmem (not_mem_of_filter hcall)
      · exact not_mem_of_filter (filter_rest (Multiset.cons_erase hmem).symm hcall)

theorem live_of_step_of_ne {a : Event τ} (ha : a ≠ .release x) (hstep : step c a = some c') :
    c'.live x = c.live x := by
  cases a with
  | release y =>
      simp only [Calendar.step] at hstep
      split at hstep <;> cases hstep
      have hxy : x ≠ y := by
        rintro rfl
        exact ha rfl
      exact Function.update_of_ne hxy _ _
  | register y t | take | tick | expired m y =>
      simp only [Calendar.step] at hstep
      split at hstep <;> cases hstep
      all_goals rfl
  | rearm m y p t =>
      simp only [Calendar.step] at hstep
      split at hstep
      · split at hstep <;> cases hstep <;> rfl
      · cases hstep
  | update j | called | next | «return» => cases hstep; rfl

/-- A call is that of an entry taken off, and nothing else is one. -/
theorem calls_of_step {a : Event τ} (hstep : step c a = some c') :
    (∃ m y, a = .expired m y ∧ (m, y) ∈ c.toCall ∧ c'.calls = c.calls ++ [⟨c.served, m, y⟩]) ∨
      (∀ m y, a ≠ .expired m y) ∧ c'.calls = c.calls := by
  cases a with
  | expired m y =>
      simp only [Calendar.step] at hstep
      split at hstep <;> cases hstep
      rename_i hmem
      exact Or.inl ⟨m, y, rfl, hmem, rfl⟩
  | register y t | release y | take | tick =>
      simp only [Calendar.step] at hstep
      split at hstep <;> cases hstep
      all_goals exact Or.inr ⟨nofun, rfl⟩
  | rearm m y p t =>
      simp only [Calendar.step] at hstep
      split at hstep
      · split at hstep <;> cases hstep <;> exact Or.inr ⟨nofun, rfl⟩
      · cases hstep
  | update j | called | next | «return» => cases hstep; exact Or.inr ⟨nofun, rfl⟩

end Tracking

end Calendar

end Tt3d.Timer
