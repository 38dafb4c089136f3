import Mathlib.Data.Multiset.AddSub
import Tt3d.Lib.Machine

/-!
The intrusive reference count of `Atomic.hpp`, shared by any number of threads.

A release is two primitives: a compare-and-swap from 1 to 0, and a decrement when
that failed. The object is deleted only behind a swap that succeeds. Two threads
that give up the last two references may both fail the swap and then both
decrement; the count is right at every step, but nobody deletes the object.
-/

namespace Tt3d.Thread

/-- `atomic_inc( &count, n )`. -/
def atomicInc (count n : ℤ) : ℤ := count + n

/-- `atomic_dec( &count, n )`. -/
def atomicDec (count n : ℤ) : ℤ := count - n

/-- `atomic_compare_and_swap( &count, old, value )`: the new count and whether it
was swapped. -/
def atomicCompareAndSwap (count old value : ℤ) : ℤ × Bool :=
  if count = old then (value, true) else (count, false)

namespace Intrusive

/-- The object and the references to it. `refs` names, for every reference that is
not being released, the thread that holds it. -/
structure State (ι : Type*) where
  mIntrusiveCount : ℤ
  /-- The object exists and its first reference has been taken. -/
  created : Bool
  refs : Multiset ι
  /-- The threads in `intrusive_ptr_release` whose swap succeeded, at `delete`. -/
  deleting : Multiset ι
  /-- The threads in `intrusive_ptr_release` whose swap failed, at the decrement. -/
  decrementing : Multiset ι
  /-- How often the object has been deleted. -/
  deletes : ℕ
  deriving DecidableEq

/-- The constructor of the object: `mIntrusiveCount( 0 )`. -/
def State.init {ι : Type*} : State ι :=
  { mIntrusiveCount := 0, created := false, refs := 0, deleting := 0, decrementing := 0,
    deletes := 0 }

inductive Event (ι : Type*)
  /-- The thread that made the object takes the first reference. -/
  | create (i : ι)
  /-- `intrusive_ptr_add_ref`, called by `i` on a copy that thread `j` will hold. -/
  | addRef (i j : ι)
  /-- `intrusive_ptr_release`: the compare-and-swap. -/
  | compareAndSwap (i : ι)
  | delete (i : ι)
  | decrement (i : ι)
  deriving DecidableEq, Repr

section Step

variable {ι : Type*} [DecidableEq ι]

/-- Thread `i` is outside of `intrusive_ptr_release`. -/
def State.Idle (s : State ι) (i : ι) : Prop := i ∉ s.deleting ∧ i ∉ s.decrementing

instance (s : State ι) (i : ι) : Decidable (s.Idle i) := inferInstanceAs (Decidable (_ ∧ _))

def step (s : State ι) : Event ι → Option (State ι)
  | .create i =>
      if s.created = false then
        some { s with
          mIntrusiveCount := atomicInc s.mIntrusiveCount 1
          created := true
          refs := {i} }
      else none
  | .addRef i j =>
      if i ∈ s.refs ∧ s.Idle i then
        some { s with
          mIntrusiveCount := atomicInc s.mIntrusiveCount 1
          refs := j ::ₘ s.refs }
      else none
  | .compareAndSwap i =>
      if i ∈ s.refs ∧ s.Idle i then
        let r := atomicCompareAndSwap s.mIntrusiveCount 1 0
        let s := { s with mIntrusiveCount := r.1, refs := s.refs.erase i }
        if r.2 then some { s with deleting := i ::ₘ s.deleting }
        else some { s with decrementing := i ::ₘ s.decrementing }
      else none
  | .delete i =>
      if i ∈ s.deleting then
        some { s with deleting := s.deleting.erase i, deletes := s.deletes + 1 }
      else none
  | .decrement i =>
      if i ∈ s.decrementing then
        some { s with
          mIntrusiveCount := atomicDec s.mIntrusiveCount 1
          decrementing := s.decrementing.erase i }
      else none

end Step

/-! ### What the count is for -/

variable {ι : Type*} {s s' : State ι} {a : Event ι}

/-- The references not yet given up. -/
def State.held (s : State ι) : ℕ := s.refs.card + s.decrementing.card

/-- No release is in progress. -/
def State.Quiet (s : State ι) : Prop := s.deleting = 0 ∧ s.decrementing = 0

/-- The count does what it is for. -/
structure Exact (s : State ι) : Prop where
  count : s.mIntrusiveCount = s.held
  once : s.deletes ≤ 1
  unreferenced : s.deletes ≠ 0 → s.held = 0
  deleted : s.created = true → s.refs = 0 → s.Quiet → s.deletes = 1

/-- The deletions made or under way. -/
def State.deletions (s : State ι) : ℕ := s.deleting.card + s.deletes

/-- The count is right at every step, whatever the interleaving; and the object is
deleted at most once, after the last reference. -/
structure Counted (s : State ι) : Prop where
  count : s.mIntrusiveCount = s.held
  once : s.deletions ≤ 1
  unreferenced : s.deletions ≠ 0 → s.held = 0
  fresh : s.created = false → s.held = 0 ∧ s.deletions = 0

/-- The last reference is gone and nobody will delete the object. -/
def Leaked (s : State ι) : Prop := s.created = true ∧ s.held = 0 ∧ s.deletions = 0

/-- A decrement, behind a swap that failed, still finds another reference counted. -/
def DecrementsShared (s : State ι) : Event ι → Prop
  | .decrement _ => s.mIntrusiveCount ≠ 1
  | .create _ | .addRef _ _ | .compareAndSwap _ | .delete _ => True

instance (s : State ι) : ∀ a, Decidable (DecrementsShared s a)
  | .decrement _ => inferInstanceAs (Decidable (s.mIntrusiveCount ≠ 1))
  | .create _ | .addRef _ _ | .compareAndSwap _ | .delete _ => isTrue trivial

theorem counted_init : Counted (State.init : State ι) :=
  ⟨rfl, Nat.zero_le 1, fun h => absurd rfl h, fun _ => ⟨rfl, rfl⟩⟩

theorem Counted.exact_iff (h : Counted s) : Exact s ↔ ¬ Leaked s := by
  obtain ⟨hcount, honce, hun, -⟩ := h
  have hle : s.deletes ≤ s.deletions := Nat.le_add_left _ _
  constructor
  · rintro ⟨-, -, -, hdeleted⟩ ⟨hcreated, hheld, hnone⟩
    obtain ⟨hrefs, hdec⟩ := Nat.add_eq_zero_iff.mp hheld
    obtain ⟨hdel, hzero⟩ := Nat.add_eq_zero_iff.mp hnone
    rw [Multiset.card_eq_zero] at hrefs hdec hdel
    have := hdeleted hcreated hrefs ⟨hdel, hdec⟩
    omega
  · intro hleak
    refine ⟨hcount, by omega, fun hne => hun (by omega), fun hcreated hrefs hquiet => ?_⟩
    have hheld : s.held = 0 := by simp [State.held, hrefs, hquiet.2]
    have hdel : s.deletions = s.deletes := by simp [State.deletions, hquiet.1]
    by_contra hne
    exact hleak ⟨hcreated, hheld, by omega⟩

/-- What one primitive does to the count, the references and the deletions. -/
inductive Effect (s s' : State ι) : Event ι → Prop
  | create (i : ι) (hnew : s.created = false) (hcreated : s'.created = true)
      (hcount : s'.mIntrusiveCount = s.mIntrusiveCount + 1)
      (hheld : s'.held + s.refs.card = s.held + 1) (hdel : s'.deletions = s.deletions) :
      Effect s s' (.create i)
  | addRef (i j : ι) (hshared : s.held ≠ 0) (hcreated : s'.created = s.created)
      (hcount : s'.mIntrusiveCount = s.mIntrusiveCount + 1) (hheld : s'.held = s.held + 1)
      (hdel : s'.deletions = s.deletions) : Effect s s' (.addRef i j)
  | swapped (i : ι) (hlast : s.mIntrusiveCount = 1) (hcreated : s'.created = s.created)
      (hcount : s'.mIntrusiveCount = 0) (hheld : s'.held + 1 = s.held)
      (hdel : s'.deletions = s.deletions + 1) : Effect s s' (.compareAndSwap i)
  | missed (i : ι) (hshared : s.held ≠ 0) (hcreated : s'.created = s.created)
      (hcount : s'.mIntrusiveCount = s.mIntrusiveCount) (hheld : s'.held = s.held)
      (hdel : s'.deletions = s.deletions) : Effect s s' (.compareAndSwap i)
  | delete (i : ι) (hsome : s.deletions ≠ 0) (hcreated : s'.created = s.created)
      (hcount : s'.mIntrusiveCount = s.mIntrusiveCount) (hheld : s'.held = s.held)
      (hdel : s'.deletions = s.deletions) : Effect s s' (.delete i)
  | decrement (i : ι) (hcreated : s'.created = s.created)
      (hcount : s'.mIntrusiveCount = s.mIntrusiveCount - 1) (hheld : s'.held + 1 = s.held)
      (hdel : s'.deletions = s.deletions) : Effect s s' (.decrement i)

section Steps

variable [DecidableEq ι]

theorem effect_of_step (hstep : step s a = some s') : Effect s s' a := by
  cases a with
  | create i =>
      simp only [step] at hstep
      split at hstep <;> cases hstep
      rename_i hnew
      refine .create i hnew rfl rfl ?_ rfl
      simp only [State.held, Multiset.card_singleton]
      omega
  | addRef i j =>
      simp only [step] at hstep
      split at hstep <;> cases hstep
      rename_i hi
      have hpos : 0 < s.refs.card := Multiset.card_pos_iff_exists_mem.mpr ⟨i, hi.1⟩
      refine .addRef i j ?_ rfl rfl ?_ rfl
      · rw [State.held]
        omega
      · simp only [State.held, Multiset.card_cons]
        omega
  | compareAndSwap i =>
      simp only [step] at hstep
      split at hstep
      swap
      · cases hstep
      rename_i hi
      have hcard := Multiset.card_erase_add_one hi.1
      unfold atomicCompareAndSwap at hstep
      by_cases hone : s.mIntrusiveCount = 1
      · simp only [hone, if_true] at hstep
        cases hstep
        refine .swapped i hone rfl rfl ?_ ?_
        · simp only [State.held]
          omega
        · simp only [State.deletions, Multiset.card_cons]
          omega
      · simp only [hone, if_false, Bool.false_eq_true] at hstep
        cases hstep
        refine .missed i ?_ rfl rfl ?_ rfl
        · rw [State.held]
          omega
        · simp only [State.held, Multiset.card_cons]
          omega
  | delete i =>
      simp only [step] at hstep
      split at hstep <;> cases hstep
      rename_i hi
      have hcard := Multiset.card_erase_add_one hi
      refine .delete i ?_ rfl rfl rfl ?_
      · rw [State.deletions]
        omega
      · simp only [State.deletions]
        omega
  | decrement i =>
      simp only [step] at hstep
      split at hstep <;> cases hstep
      rename_i hi
      have hcard := Multiset.card_erase_add_one hi
      refine .decrement i rfl rfl ?_ rfl
      simp only [State.held]
      omega

theorem Counted.step (h : Counted s) (hstep : Intrusive.step s a = some s') : Counted s' := by
  obtain ⟨hcount, honce, hun, hfresh⟩ := h
  cases effect_of_step hstep with
  | create i hnew hcreated hcount' hheld hdel =>
      obtain ⟨hzero, hnone⟩ := hfresh hnew
      have hrefs : s.refs.card = 0 := (Nat.add_eq_zero_iff.mp hzero).1
      refine ⟨by omega, by omega, fun hne => by omega, fun hnot => ?_⟩
      rw [hcreated] at hnot
      cases hnot
  | addRef i j hshared hcreated hcount' hheld hdel =>
      refine ⟨by omega, by omega, fun hne => ?_, fun hnot => ?_⟩
      · exact absurd (hun (hdel ▸ hne)) hshared
      · exact absurd (hfresh (hcreated ▸ hnot)).1 hshared
  | swapped i hlast hcreated hcount' hheld hdel =>
      -- The only reference is gone, and no deletion was under way while it was there.
      have hnone : s.deletions = 0 := by
        by_contra hne
        have := hun hne
        omega
      refine ⟨by omega, by omega, fun _ => by omega, fun hnot => ?_⟩
      have := (hfresh (hcreated ▸ hnot)).1
      omega
  | missed i hshared hcreated hcount' hheld hdel =>
      refine ⟨by omega, by omega, fun hne => ?_, fun hnot => ?_⟩
      · exact absurd (hun (hdel ▸ hne)) hshared
      · exact absurd (hfresh (hcreated ▸ hnot)).1 hshared
  | delete i hsome hcreated hcount' hheld hdel =>
      refine ⟨by omega, by omega, fun _ => ?_, fun hnot => ?_⟩
      · rw [hheld, hun hsome]
      · exact absurd (hfresh (hcreated ▸ hnot)).2 hsome
  | decrement i hcreated hcount' hheld hdel =>
      refine ⟨by omega, by omega, fun hne => ?_, fun hnot => ?_⟩
      · have := hun (hdel ▸ hne)
        omega
      · have := (hfresh (hcreated ▸ hnot)).1
        omega

/-- From a state that is in order, the object leaks just when a decrement takes the
last reference. -/
theorem Counted.leaked_iff (h : Counted s) (hleak : ¬ Leaked s)
    (hstep : Intrusive.step s a = some s') : Leaked s' ↔ ¬ DecrementsShared s a := by
  have h' := h.step hstep
  obtain ⟨hcount, honce, hun, hfresh⟩ := h
  have hbefore := hleak
  unfold Leaked at hbefore ⊢
  cases effect_of_step hstep with
  | create i hnew hcreated hcount' hheld hdel =>
      have := (hfresh hnew).1
      refine iff_of_false (fun hl => ?_) (by simp [DecrementsShared])
      have := h'.count
      omega
  | addRef i j hshared hcreated hcount' hheld hdel =>
      refine iff_of_false (fun hl => ?_) (by simp [DecrementsShared])
      omega
  | swapped i hlast hcreated hcount' hheld hdel =>
      refine iff_of_false (fun hl => ?_) (by simp [DecrementsShared])
      omega
  | missed i hshared hcreated hcount' hheld hdel =>
      refine iff_of_false (fun hl => ?_) (by simp [DecrementsShared])
      omega
  | delete i hsome hcreated hcount' hheld hdel =>
      refine iff_of_false (fun hl => ?_) (by simp [DecrementsShared])
      omega
  | decrement i hcreated hcount' hheld hdel =>
      have hmade : s.created = true := by
        by_contra hnot
        have := (hfresh (by simpa using hnot)).1
        omega
      have hnone : s.deletions = 0 := by
        by_contra hne
        have := hun hne
        omega
      simp only [DecrementsShared, not_not]
      constructor
      · rintro ⟨-, hzero, -⟩
        omega
      · intro hone
        exact ⟨hcreated.trans hmade, by omega, by omega⟩

/-- Nothing happens to a leaked object any more. -/
theorem step_of_leaked (h : Leaked s) (a : Event ι) : step s a = none := by
  obtain ⟨hcreated, hheld, hnone⟩ := h
  rw [Option.eq_none_iff_forall_ne_some]
  intro s' hstep
  cases effect_of_step hstep with
  | create i hnew => exact absurd (hcreated.symm.trans hnew) (by decide)
  | addRef i j hshared => exact hshared hheld
  | swapped i hlast hcreated' hcount hheld' => omega
  | missed i hshared => exact hshared hheld
  | delete i hsome => exact hsome hnone
  | decrement i hcreated' hcount hheld' => omega

/-- **The intrusive count is exact** in every state of a run just when no decrement
behind a failed swap finds the count at 1. -/
theorem exact_iff_decrementsShared {es : List (Event ι)}
    (hrun : Machine.run step State.init es = some s) :
    Exact s ↔ Machine.Along step DecrementsShared State.init es := by
  have hcounted : Counted s :=
    Machine.run_invariant (fun _ _ _ h hstep => h.step hstep) counted_init hrun
  rw [hcounted.exact_iff]
  refine (Machine.along_iff_not (I := Counted) (fun _ _ _ h hstep => h.step hstep)
    (fun _ _ _ h hleak hstep => h.leaked_iff hleak hstep) (fun u b u' _ hleak hstep => ?_)
    counted_init (by simp [Leaked, State.init]) hrun).symm
  rw [step_of_leaked hleak b] at hstep
  cases hstep

end Steps

/-- Two threads that release one after the other. -/
theorem exact_iff_decrementsShared_sequential :
    ∃ s : State ℕ, Machine.run step State.init [.create 0, .addRef 0 1, .compareAndSwap 0,
        .decrement 0, .compareAndSwap 1, .delete 1] = some s ∧ s.deletes = 1 ∧ Exact s := by
  obtain ⟨s, hrun, hdeletes⟩ : ∃ s : State ℕ, Machine.run step State.init [.create 0, .addRef 0 1,
      .compareAndSwap 0, .decrement 0, .compareAndSwap 1, .delete 1] = some s ∧ s.deletes = 1 :=
    ⟨_, rfl, rfl⟩
  exact ⟨s, hrun, hdeletes, (exact_iff_decrementsShared hrun).mpr (by decide)⟩

/-- Two threads that release at once: both swaps fail at 2, both decrements follow,
and the object is never deleted. -/
theorem concurrent_releases_leak :
    ∃ s : State ℕ, Machine.run step State.init [.create 0, .addRef 0 1, .compareAndSwap 0,
        .compareAndSwap 1, .decrement 0, .decrement 1] = some s ∧
      s.created = true ∧ s.refs = 0 ∧ s.Quiet ∧ s.mIntrusiveCount = 0 ∧ s.deletes = 0 ∧
      ¬ Exact s := by
  obtain ⟨s, hrun, hcreated, hrefs, hquiet, hcount, hdeletes⟩ : ∃ s : State ℕ,
      Machine.run step State.init [.create 0, .addRef 0 1, .compareAndSwap 0,
        .compareAndSwap 1, .decrement 0, .decrement 1] = some s ∧
      s.created = true ∧ s.refs = 0 ∧ s.Quiet ∧ s.mIntrusiveCount = 0 ∧ s.deletes = 0 :=
    ⟨_, rfl, rfl, rfl, ⟨rfl, rfl⟩, rfl, rfl⟩
  refine ⟨s, hrun, hcreated, hrefs, hquiet, hcount, hdeletes, fun hexact => ?_⟩
  have := hexact.deleted hcreated hrefs hquiet
  omega

end Intrusive

end Tt3d.Thread
