import Mathlib.Algebra.GroupWithZero.Nat
import Mathlib.Logic.Basic
import Mathlib.Data.Option.Basic
import Mathlib.Data.List.Induction

/-!
Machines given by a partial step function, and their runs.

A machine is a function `step : σ → α → Option σ`: from a state and an event
it gives the next state, or `none` when the event cannot happen there (it is
not enabled, or the program the machine models would abort). A run feeds a
list of events; the rules below lift a fact about one step to a fact about a
whole run.
-/

namespace Tt3d.Machine

variable {σ α β γ : Type*}

/-- The state after a list of events, oldest first. -/
def run (step : σ → α → Option σ) : σ → List α → Option σ
  | s, [] => some s
  | s, a :: as => (step s a).bind fun s' => run step s' as

section Equations

variable (step : σ → α → Option σ)

@[simp] theorem run_nil (s : σ) : run step s [] = some s := rfl

@[simp] theorem run_cons (s : σ) (a : α) (as : List α) :
    run step s (a :: as) = (step s a).bind fun s' => run step s' as := rfl

theorem run_cons_eq_some {s t : σ} {a : α} {as : List α} :
    run step s (a :: as) = some t ↔
      ∃ s', step s a = some s' ∧ run step s' as = some t := by
  simp [Option.bind_eq_some_iff]

theorem run_append (s : σ) (as bs : List α) :
    run step s (as ++ bs) = (run step s as).bind fun s' => run step s' bs := by
  induction as generalizing s with
  | nil => simp
  | cons a as ih => simp [ih, Option.bind_assoc]

theorem run_append_eq_some {s t : σ} {as bs : List α} :
    run step s (as ++ bs) = some t ↔
      ∃ s', run step s as = some s' ∧ run step s' bs = some t := by
  rw [run_append, Option.bind_eq_some_iff]

theorem run_concat_eq_some {s t : σ} {as : List α} {a : α} :
    run step s (as ++ [a]) = some t ↔
      ∃ s', run step s as = some s' ∧ step s' a = some t := by
  rw [run_append_eq_some]
  simp

/-- A round that is run again and again. -/
theorem run_replicate {as : List α} (k : ℕ) (f : ℕ → σ)
    (h : ∀ j < k, run step (f j) as = some (f (j + 1))) :
    run step (f 0) (List.replicate k as).flatten = some (f k) := by
  induction k with
  | zero => rfl
  | succ k ih =>
      have hrounds := ih fun j hj => h j (Nat.lt_succ_of_lt hj)
      rw [List.replicate_succ', List.flatten_append, List.flatten_singleton, run_append, hrounds,
        Option.bind_some, h k (Nat.lt_succ_self k)]

end Equations

variable {step : σ → α → Option σ}

/-- Every event of the list satisfies `P` in the state that it meets. -/
def Along (step : σ → α → Option σ) (P : σ → α → Prop) : σ → List α → Prop
  | _, [] => True
  | s, a :: as => P s a ∧ ∀ s', step s a = some s' → Along step P s' as

/-- **The invariant rule** for a run whose steps all meet a condition: what such a
step keeps, the run keeps. -/
theorem run_invariant_along {I : σ → Prop} {P : σ → α → Prop}
    (hstep : ∀ s a s', P s a → I s → step s a = some s' → I s')
    {s t : σ} {as : List α} (halong : Along step P s as) (hs : I s)
    (hrun : run step s as = some t) : I t := by
  induction as generalizing s with
  | nil =>
      obtain rfl : s = t := by simpa using hrun
      exact hs
  | cons a as ih =>
      obtain ⟨s', hs', hrest⟩ := (run_cons_eq_some step).mp hrun
      exact ih (halong.2 s' hs') (hstep s a s' halong.1 hs hs') hrest

instance Along.decidable {P : σ → α → Prop} [∀ s a, Decidable (P s a)] :
    ∀ (as : List α) (s : σ), Decidable (Along step P s as)
  | [], _ => isTrue trivial
  | a :: as, s =>
      match h : step s a with
      | none => decidable_of_iff (P s a) ⟨fun hP => ⟨hP, by simp [h]⟩, And.left⟩
      | some s' =>
          have := Along.decidable (P := P) as s'
          decidable_of_iff (P s a ∧ Along step P s' as) (and_congr_right fun _ => by simp [h])

theorem Along.of_forall {P : α → Prop} {as : List α} (h : ∀ a ∈ as, P a) (s : σ) :
    Along step (fun _ => P) s as := by
  induction as generalizing s with
  | nil => trivial
  | cons a as ih =>
      refine ⟨h a List.mem_cons_self, fun s' _ => ?_⟩
      exact ih (fun b hb => h b (List.mem_cons_of_mem a hb)) s'

theorem forall_of_along {P : α → Prop} {s t : σ} {as : List α}
    (h : Along step (fun _ => P) s as) (hrun : run step s as = some t) : ∀ a ∈ as, P a := by
  induction as generalizing s with
  | nil => exact fun a ha => absurd ha List.not_mem_nil
  | cons a as ih =>
      obtain ⟨s', hs', hrest⟩ := (run_cons_eq_some step).mp hrun
      exact List.forall_mem_cons.mpr ⟨h.1, ih (h.2 s' hs') hrest⟩

theorem Along.and {P Q : σ → α → Prop} {s : σ} {as : List α} (hP : Along step P s as)
    (hQ : Along step Q s as) : Along step (fun s a => P s a ∧ Q s a) s as := by
  induction as generalizing s with
  | nil => trivial
  | cons a as ih =>
      refine ⟨⟨hP.1, hQ.1⟩, fun s' hs' => ?_⟩
      exact ih (hP.2 s' hs') (hQ.2 s' hs')

/-- The invariant rule for a run all of whose events satisfy `P`. -/
theorem run_invariant_of_forall {I : σ → Prop} {P : α → Prop}
    (hstep : ∀ s a s', P a → I s → step s a = some s' → I s')
    {s t : σ} {as : List α} (hP : ∀ a ∈ as, P a) (hs : I s)
    (hrun : run step s as = some t) : I t :=
  run_invariant_along hstep (Along.of_forall hP s) hs hrun

/-- The invariant rule for any run. -/
theorem run_invariant {I : σ → Prop}
    (hstep : ∀ s a s', I s → step s a = some s' → I s')
    {s t : σ} {as : List α} (hs : I s) (hrun : run step s as = some t) : I t :=
  run_invariant_of_forall (P := fun _ => True) (fun s a s' _ => hstep s a s')
    (fun _ _ => trivial) hs hrun

theorem Along.imp {P Q : σ → α → Prop} {s : σ} {as : List α} (h : Along step P s as)
    (hPQ : ∀ s a, P s a → Q s a) : Along step Q s as := by
  induction as generalizing s with
  | nil => trivial
  | cons a as ih => exact ⟨hPQ s a h.1, fun s' hs' => ih (h.2 s' hs')⟩

theorem along_append {P : σ → α → Prop} {s : σ} {as bs : List α} :
    Along step P s (as ++ bs) ↔
      Along step P s as ∧ ∀ t, run step s as = some t → Along step P t bs := by
  induction as generalizing s with
  | nil => simp [Along]
  | cons a as ih =>
      simp only [List.cons_append, Along, ih, run_cons_eq_some]
      constructor
      · rintro ⟨hP, h⟩
        refine ⟨⟨hP, fun s' hs' => (h s' hs').1⟩, ?_⟩
        rintro t ⟨s', hs', ht⟩
        exact (h s' hs').2 t ht
      · rintro ⟨⟨hP, h⟩, hlast⟩
        exact ⟨hP, fun s' hs' => ⟨h s' hs', fun t ht => hlast t ⟨s', hs', ht⟩⟩⟩

/-- What the steps of a run that meet `P` keep holds wherever the run comes. -/
theorem Along.of_invariant {I : σ → Prop} {P : σ → α → Prop}
    (hstep : ∀ s a s', P s a → I s → step s a = some s' → I s')
    {s : σ} {as : List α} (halong : Along step P s as) (hs : I s) :
    Along step (fun s _ => I s) s as := by
  induction as generalizing s with
  | nil => trivial
  | cons a as ih =>
      refine ⟨hs, fun s' hs' => ?_⟩
      exact ih (halong.2 s' hs') (hstep s a s' halong.1 hs hs')

/-- A step that misses the condition `P` leads to `J`, and steps that meet `Q` do not
leave it: a run of such steps that does not end in `J` meets `P` all along. -/
theorem Along.of_run_along {I J : σ → Prop} {P Q : σ → α → Prop}
    (hI : ∀ s a s', I s → step s a = some s' → I s')
    (hmiss : ∀ s a s', I s → ¬ P s a → step s a = some s' → J s')
    (hJ : ∀ s a s', Q s a → I s → J s → step s a = some s' → J s')
    {s t : σ} {as : List α} (halong : Along step Q s as) (hs : I s)
    (hrun : run step s as = some t) (ht : ¬ J t) : Along step P s as := by
  induction as generalizing s with
  | nil => trivial
  | cons a as ih =>
      obtain ⟨s', hs', hrest⟩ := (run_cons_eq_some step).mp hrun
      have hI' := hI s a s' hs hs'
      have hrest' := halong.2 s' hs'
      refine ⟨?_, fun s'' hs'' => ?_⟩
      · by_contra hP
        apply ht
        have hkeep : ∀ u b u', Q u b → I u ∧ J u → step u b = some u' → I u' ∧ J u' :=
          fun u b u' hQ hu hstep => ⟨hI u b u' hu.1 hstep, hJ u b u' hQ hu.1 hu.2 hstep⟩
        exact (run_invariant_along hkeep hrest' ⟨hI', hmiss s a s' hs hP hs'⟩ hrest).2
      · obtain rfl : s' = s'' := Option.some.inj (hs'.symm.trans hs'')
        exact ih hrest' hI' hrest

/-- The same where no step leaves `J`. -/
theorem Along.of_run {I J : σ → Prop} {P : σ → α → Prop}
    (hI : ∀ s a s', I s → step s a = some s' → I s')
    (hmiss : ∀ s a s', I s → ¬ P s a → step s a = some s' → J s')
    (hJ : ∀ s a s', I s → J s → step s a = some s' → J s')
    {s t : σ} {as : List α} (hs : I s) (hrun : run step s as = some t) (ht : ¬ J t) :
    Along step P s as :=
  Along.of_run_along (Q := fun _ _ => True) hI hmiss (fun s a s' _ => hJ s a s')
    (Along.of_forall (fun _ _ => trivial) s) hs hrun ht

/-- What no step comes back to held at the start of a run that ends in it. -/
theorem run_backward {O : σ → Prop} (hO : ∀ s a s', step s a = some s' → O s' → O s)
    {s t : σ} {as : List α} (hrun : run step s as = some t) (ht : O t) : O s := by
  by_contra hs
  exact run_invariant (I := fun u => ¬ O u) (fun u a u' hu hstep hu' => hu (hO u a u' hstep hu'))
    hs hrun ht

/-- **The exactness rule** for the runs that stay in `O`, which is never entered
again: there `J` is never left, and from outside of it a step leads into it just when
it misses `P`. -/
theorem along_iff_not_within {I J O : σ → Prop} {P : σ → α → Prop}
    (hO : ∀ s a s', step s a = some s' → O s' → O s)
    (hI : ∀ s a s', I s → step s a = some s' → I s')
    (hiff : ∀ s a s', I s → O s' → ¬ J s → step s a = some s' → (J s' ↔ ¬ P s a))
    (hJ : ∀ s a s', I s → O s' → J s → step s a = some s' → J s')
    {s t : σ} {as : List α} (hs : I s) (hs' : ¬ J s) (hrun : run step s as = some t) (ht : O t) :
    Along step P s as ↔ ¬ J t := by
  induction as generalizing s with
  | nil =>
      obtain rfl : s = t := by simpa using hrun
      exact iff_of_true trivial hs'
  | cons a as ih =>
      obtain ⟨s', hstep, hrest⟩ := (run_cons_eq_some step).mp hrun
      have hopen : O s' := run_backward hO hrest ht
      have hI' := hI s a s' hs hstep
      by_cases hj : J s'
      · -- the run has entered `J`, and stays there
        have hmiss : ¬ P s a := (hiff s a s' hs hopen hs' hstep).mp hj
        have hstay : ∀ u b u', I u ∧ (O u → J u) → step u b = some u' → I u' ∧ (O u' → J u') := by
          rintro u b u' ⟨hu, hju⟩ hub
          refine ⟨hI u b u' hu hub, fun hu' => ?_⟩
          exact hJ u b u' hu hu' (hju (hO u b u' hub hu')) hub
        have hend := (run_invariant hstay ⟨hI', fun _ => hj⟩ hrest).2 ht
        exact iff_of_false (fun halong => hmiss halong.1) (not_not.mpr hend)
      · have hP : P s a := by
          by_contra hP
          exact hj ((hiff s a s' hs hopen hs' hstep).mpr hP)
        rw [← ih hI' hj hrest]
        constructor
        · intro halong
          exact halong.2 s' hstep
        · intro halong
          refine ⟨hP, fun s'' hs'' => ?_⟩
          obtain rfl : s' = s'' := Option.some.inj (hstep.symm.trans hs'')
          exact halong

/-- **The exactness rule.** `J` is never left, and from outside of it a step leads into
it just when it misses `P`: the runs that end outside of `J` are exactly those whose
steps all meet `P`. -/
theorem along_iff_not {I J : σ → Prop} {P : σ → α → Prop}
    (hI : ∀ s a s', I s → step s a = some s' → I s')
    (hiff : ∀ s a s', I s → ¬ J s → step s a = some s' → (J s' ↔ ¬ P s a))
    (hJ : ∀ s a s', I s → J s → step s a = some s' → J s')
    {s t : σ} {as : List α} (hs : I s) (hs' : ¬ J s) (hrun : run step s as = some t) :
    Along step P s as ↔ ¬ J t :=
  along_iff_not_within (O := fun _ => True) (fun _ _ _ _ _ => trivial) hI
    (fun u a u' hu _ => hiff u a u' hu) (fun u a u' hu _ => hJ u a u' hu) hs hs' hrun trivial

/-- Where each step from `I` stays in `I` just when it meets `P`, the steps of a run all
meet `P` just when the run is in `I` all along. -/
theorem along_iff_prefixes {I : σ → Prop} {P : σ → α → Prop}
    (hiff : ∀ s a s', I s → step s a = some s' → (I s' ↔ P s a))
    {s t : σ} {as : List α} (hs : I s) (hrun : run step s as = some t) :
    Along step P s as ↔ ∀ bs cs u, as = bs ++ cs → run step s bs = some u → I u := by
  induction as generalizing s with
  | nil =>
      refine iff_of_true trivial fun bs cs u heq hu => ?_
      obtain ⟨rfl, -⟩ := List.append_eq_nil_iff.mp heq.symm
      obtain rfl : s = u := by simpa using hu
      exact hs
  | cons a as ih =>
      obtain ⟨s', hs', hrest⟩ := (run_cons_eq_some step).mp hrun
      constructor
      · rintro ⟨hP, htail⟩ bs cs u heq hu
        have hI' := (hiff s a s' hs hs').mpr hP
        cases bs with
        | nil =>
            obtain rfl : s = u := by simpa using hu
            exact hs
        | cons b bs =>
            obtain ⟨rfl, rfl⟩ := List.cons.inj heq
            obtain ⟨u', hu', hrun'⟩ := (run_cons_eq_some step).mp hu
            obtain rfl := Option.some.inj (hs'.symm.trans hu')
            exact (ih hI' hrest).mp (htail s' hs') bs cs u rfl hrun'
      · intro hall
        have hI' : I s' := hall [a] as s' rfl ((run_cons_eq_some step).mpr ⟨s', hs', rfl⟩)
        refine ⟨(hiff s a s' hs hs').mp hI', fun s'' hs'' => ?_⟩
        obtain rfl := Option.some.inj (hs'.symm.trans hs'')
        refine (ih hI' hrest).mpr fun bs cs u heq hu => ?_
        exact hall (a :: bs) cs u (congrArg (a :: ·) heq)
          ((run_cons_eq_some step).mpr ⟨s', hs', hu⟩)

/-- Where every event is admissible by `A` and an admissible event can happen just
when it satisfies `P`, the run goes through just when all its events do. -/
theorem run_isSome_iff {I : σ → Prop} {A P : σ → α → Prop}
    (hI : ∀ s a s', I s → step s a = some s' → I s')
    (hiff : ∀ s a, I s → A s a → ((step s a).isSome ↔ P s a))
    {s : σ} {as : List α} (hs : I s) (hA : Along step A s as) :
    (run step s as).isSome ↔ Along step P s as := by
  induction as generalizing s with
  | nil => exact iff_of_true rfl trivial
  | cons a as ih =>
      have hhead := hiff s a hs hA.1
      show ((step s a).bind fun s' => run step s' as).isSome ↔
        P s a ∧ ∀ s', step s a = some s' → Along step P s' as
      cases hstep : step s a with
      | none =>
          refine iff_of_false (by simp) fun h => ?_
          rw [hstep] at hhead
          exact absurd (hhead.mpr h.1) (by simp)
      | some s' =>
          rw [hstep] at hhead
          have hrest := ih (hI s a s' hs hstep) (hA.2 s' hstep)
          constructor
          · rintro hrun
            refine ⟨hhead.mp rfl, fun s'' hs'' => ?_⟩
            obtain rfl := Option.some.inj hs''
            exact hrest.mp hrun
          · rintro ⟨-, htail⟩
            exact hrest.mpr (htail s' rfl)

/-- The invariant rule for a property of the whole history: it holds of the
empty history, and each further event keeps it. -/
theorem run_history {P : List α → σ → Prop} {s : σ} (hnil : P [] s)
    (hstep : ∀ as t a t', run step s as = some t → P as t → step t a = some t' →
      P (as ++ [a]) t')
    {t : σ} {as : List α} (hrun : run step s as = some t) : P as t := by
  induction as using List.reverseRecOn generalizing t with
  | nil =>
      obtain rfl : s = t := by simpa using hrun
      exact hnil
  | append_singleton as a ih =>
      obtain ⟨t', ht', hlast⟩ := (run_concat_eq_some step).mp hrun
      exact hstep as t' a t ht' (ih ht') hlast

/-- What is at a place of a history that has one more event. -/
theorem getElem?_concat_eq_some {as : List α} {a b : α} {i : ℕ} :
    (as ++ [a])[i]? = some b ↔ as[i]? = some b ∨ i = as.length ∧ a = b := by
  rcases Nat.lt_trichotomy i as.length with hlt | rfl | hgt
  · rw [List.getElem?_append_left hlt]
    exact (or_iff_left fun h => Nat.ne_of_lt hlt h.1).symm
  · rw [List.getElem?_concat_length, List.getElem?_eq_none (Nat.le_refl _)]
    simp
  · have hbeyond : (as ++ [a]).length ≤ i := by
      rw [List.length_append]
      exact hgt
    rw [List.getElem?_eq_none hbeyond, List.getElem?_eq_none (Nat.le_of_lt hgt)]
    exact iff_of_false nofun (by simp [Nat.ne_of_gt hgt])

/-- At some event of the history `P` held of what had come before and the event. -/
def Sometime (P : List α → α → Prop) (as : List α) : Prop :=
  ∃ bs b cs, as = bs ++ b :: cs ∧ P bs b

theorem not_sometime_nil (P : List α → α → Prop) : ¬ Sometime P [] := by
  rintro ⟨bs, b, cs, heq, -⟩
  exact absurd heq.symm (List.append_ne_nil_of_right_ne_nil bs (List.cons_ne_nil b cs))

theorem sometime_concat {P : List α → α → Prop} {as : List α} {a : α} :
    Sometime P (as ++ [a]) ↔ Sometime P as ∨ P as a := by
  constructor
  · rintro ⟨bs, b, cs, heq, hP⟩
    rcases List.eq_nil_or_concat cs with rfl | ⟨cs, c, rfl⟩
    · obtain ⟨rfl, rfl⟩ := List.append_singleton_inj.mp heq
      exact Or.inr hP
    · rw [List.concat_eq_append, ← List.cons_append, ← List.append_assoc] at heq
      exact Or.inl ⟨bs, b, cs, (List.append_singleton_inj.mp heq).1, hP⟩
  · rintro (⟨bs, b, cs, rfl, hP⟩ | hP)
    · exact ⟨bs, b, cs ++ [a], by simp, hP⟩
    · exact ⟨as, a, [], rfl, hP⟩

/-- **The termination rule.** A run of events that each lower a measure is no longer
than the measure where it starts. -/
theorem length_le_of_run {P : α → Prop} (μ : σ → ℕ)
    (hstep : ∀ s a s', P a → step s a = some s' → μ s' < μ s)
    {s t : σ} {as : List α} (hP : ∀ a ∈ as, P a) (hrun : run step s as = some t) :
    as.length ≤ μ s := by
  induction as generalizing s with
  | nil => exact Nat.zero_le _
  | cons a as ih =>
      obtain ⟨s', hs', hrest⟩ := (run_cons_eq_some step).mp hrun
      have hlt := hstep s a s' (hP a List.mem_cons_self) hs'
      have hle := ih (fun b hb => hP b (List.mem_cons_of_mem a hb)) hrest
      exact Nat.succ_le_of_lt (Nat.lt_of_le_of_lt hle hlt)

/-- The amounts of events of two kinds. -/
theorem sum_map_ite (p : α → Bool) (m n : ℕ) (as : List α) :
    (as.map fun a => if p a then m else n).sum =
      m * as.countP p + n * as.countP fun a => !p a := by
  induction as with
  | nil => rfl
  | cons a as ih =>
      rw [List.map_cons, List.sum_cons, List.countP_cons, List.countP_cons, ih]
      cases p a with
      | false =>
          simp only [Bool.false_eq_true, if_false, Bool.not_false, if_true, Nat.mul_add]
          omega
      | true =>
          simp only [Bool.false_eq_true, if_false, Bool.not_true, if_true, Nat.mul_add]
          omega

/-- **The accounting rule.** When each event spends and gains its own amounts of a
measure, so does a run. -/
theorem run_account {I : σ → Prop} (μ : σ → ℕ) (spent gained : α → ℕ)
    (hI : ∀ s a s', I s → step s a = some s' → I s')
    (hstep : ∀ s a s', I s → step s a = some s' → μ s' + spent a = μ s + gained a)
    {s t : σ} {as : List α} (hs : I s) (hrun : run step s as = some t) :
    μ t + (as.map spent).sum = μ s + (as.map gained).sum := by
  induction as generalizing s with
  | nil =>
      obtain rfl : s = t := by simpa using hrun
      rfl
  | cons a as ih =>
      obtain ⟨s', hs', hrest⟩ := (run_cons_eq_some step).mp hrun
      have hone := hstep s a s' hs hs'
      have hmany := ih (hI s a s' hs hs') hrest
      rw [List.map_cons, List.map_cons, List.sum_cons, List.sum_cons]
      omega

/-- The accounting rule where an event may lose more than it spends. -/
theorem run_account_le {I : σ → Prop} {P : α → Prop} (μ : σ → ℕ) (spent gained : α → ℕ)
    (hI : ∀ s a s', P a → I s → step s a = some s' → I s')
    (hstep : ∀ s a s', I s → step s a = some s' → μ s' + spent a ≤ μ s + gained a)
    {s t : σ} {as : List α} (hP : ∀ a ∈ as, P a) (hs : I s) (hrun : run step s as = some t) :
    μ t + (as.map spent).sum ≤ μ s + (as.map gained).sum := by
  induction as generalizing s with
  | nil =>
      obtain rfl : s = t := by simpa using hrun
      exact Nat.le_refl _
  | cons a as ih =>
      obtain ⟨s', hs', hrest⟩ := (run_cons_eq_some step).mp hrun
      have hone := hstep s a s' hs hs'
      have hmany := ih (fun b hb => hP b (List.mem_cons_of_mem a hb))
        (hI s a s' (hP a List.mem_cons_self) hs hs') hrest
      rw [List.map_cons, List.map_cons, List.sum_cons, List.sum_cons]
      omega

/-- The simulation rule for a run whose steps all meet a condition, in both machines. -/
theorem run_simulation_along_both {astep : γ → α → Option γ} {R : σ → γ → Prop}
    {P : σ → α → Prop} {Q : γ → α → Prop}
    (hstep : ∀ s a s' c, P s a → Q c a → R s c → step s a = some s' →
      ∃ c', astep c a = some c' ∧ R s' c')
    {s t : σ} {c : γ} {as : List α} (hP : Along step P s as) (hQ : Along astep Q c as)
    (hR : R s c) (hrun : run step s as = some t) : ∃ c', run astep c as = some c' ∧ R t c' := by
  induction as generalizing s c with
  | nil =>
      obtain rfl : s = t := by simpa using hrun
      exact ⟨c, rfl, hR⟩
  | cons a as ih =>
      obtain ⟨s', hs', hrest⟩ := (run_cons_eq_some step).mp hrun
      obtain ⟨c', hc', hR'⟩ := hstep s a s' c hP.1 hQ.1 hR hs'
      obtain ⟨d, hd, hRd⟩ := ih (hP.2 s' hs') (hQ.2 c' hc') hR' hrest
      exact ⟨d, (run_cons_eq_some astep).mpr ⟨c', hc', hd⟩, hRd⟩

/-- The simulation rule for a run of the first machine whose steps all meet a condition. -/
theorem run_simulation_along {astep : γ → α → Option γ} {R : σ → γ → Prop} {P : σ → α → Prop}
    (hstep : ∀ s a s' c, P s a → R s c → step s a = some s' →
      ∃ c', astep c a = some c' ∧ R s' c')
    {s t : σ} {c : γ} {as : List α} (halong : Along step P s as) (hR : R s c)
    (hrun : run step s as = some t) : ∃ c', run astep c as = some c' ∧ R t c' :=
  run_simulation_along_both (Q := fun _ _ => True) (fun s a s' c hP _ => hstep s a s' c hP)
    halong (Along.of_forall (fun _ _ => trivial) c) hR hrun

/-- **The simulation rule.** When each step of the first machine from related
states is matched by the second machine under the same event, so is each
run. -/
theorem run_simulation {astep : γ → α → Option γ} {R : σ → γ → Prop}
    (hstep : ∀ s a s' c, R s c → step s a = some s' →
      ∃ c', astep c a = some c' ∧ R s' c')
    {s t : σ} {c : γ} {as : List α} (hR : R s c) (hrun : run step s as = some t) :
    ∃ c', run astep c as = some c' ∧ R t c' :=
  run_simulation_along (P := fun _ _ => True) (fun s a s' c _ => hstep s a s' c)
    (Along.of_forall (fun _ _ => trivial) s) hR hrun

/-- The simulation rule where a step is matched by any number of steps, which show the
same of the events. -/
theorem run_simulation_stutter {ο : Type*} {astep : γ → β → Option γ} {R : σ → γ → Prop}
    (shown : α → List ο) (ashown : β → List ο)
    (hstep : ∀ s a s' c, R s c → step s a = some s' →
      ∃ bs c', run astep c bs = some c' ∧ bs.flatMap ashown = shown a ∧ R s' c')
    {s t : σ} {c : γ} {as : List α} (hR : R s c) (hrun : run step s as = some t) :
    ∃ bs c', run astep c bs = some c' ∧ bs.flatMap ashown = as.flatMap shown ∧ R t c' := by
  induction as generalizing s c with
  | nil =>
      obtain rfl : s = t := by simpa using hrun
      exact ⟨[], c, rfl, rfl, hR⟩
  | cons a as ih =>
      obtain ⟨s', hs', hrest⟩ := (run_cons_eq_some step).mp hrun
      obtain ⟨bs, c', hc', hbs, hR'⟩ := hstep s a s' c hR hs'
      obtain ⟨ds, d, hd, hds, hRd⟩ := ih hR' hrest
      refine ⟨bs ++ ds, d, (run_append_eq_some astep).mpr ⟨c', hc', hd⟩, ?_, hRd⟩
      rw [List.flatMap_append, List.flatMap_cons, hbs, hds]

/-- A run of a machine, seen by a component that takes part in some of its events. -/
theorem run_component {cstep : γ → β → Option γ} (view : σ → γ) (shown : α → Option β)
    (hstep : ∀ s a s', step s a = some s' → match shown a with
      | some b => cstep (view s) b = some (view s')
      | none => view s' = view s)
    {s t : σ} {as : List α} (hrun : run step s as = some t) :
    run cstep (view s) (as.filterMap shown) = some (view t) := by
  induction as generalizing s with
  | nil =>
      obtain rfl : s = t := by simpa using hrun
      rfl
  | cons a as ih =>
      obtain ⟨s', hs', hrest⟩ := (run_cons_eq_some step).mp hrun
      have hone := hstep s a s' hs'
      have hmany := ih hrest
      cases hb : shown a with
      | none =>
          rw [hb] at hone
          rw [List.filterMap_cons_none hb, ← hone]
          exact hmany
      | some b =>
          rw [hb] at hone
          rw [List.filterMap_cons_some hb]
          exact (run_cons_eq_some cstep).mpr ⟨view s', hone, hmany⟩

/-- Events that each lower a rank, which may depend on a state that is only known to
be there, do not go on for ever. -/
theorem exists_run_eq_none {ι : Type*} {r : ι → ι → Prop} (hr : WellFounded r) (μ : σ → γ → ι)
    {R : σ → γ → Prop} {P : α → Prop}
    (hstep : ∀ s a s' c, P a → R s c → step s a = some s' → ∃ c', R s' c' ∧ r (μ s' c') (μ s c))
    {s : σ} {c : γ} (hR : R s c) (as : ℕ → α) (hP : ∀ n, P (as n)) :
    ∃ n, run step s ((List.range n).map as) = none := by
  induction hμ : μ s c using hr.induction generalizing s c as with
  | _ i ih =>
      cases hs' : step s (as 0) with
      | none => exact ⟨1, by simp [hs']⟩
      | some s' =>
          obtain ⟨c', hR', hlt⟩ := hstep s (as 0) s' c (hP 0) hR hs'
          obtain ⟨n, hn⟩ :=
            ih _ (hμ ▸ hlt) hR' (fun k => as (k + 1)) (fun k => hP (k + 1)) rfl
          refine ⟨n + 1, ?_⟩
          rw [List.range_succ_eq_map, List.map_cons, List.map_map, run_cons, hs']
          exact hn

end Tt3d.Machine
