import Mathlib.Data.Fintype.Card
import Mathlib.Logic.Function.Basic

/-!
A mutex that is locked shared, with the right to upgrade, or exclusively.

The mutex only counts. `Held` relates it to the threads that use it: the counts
are those of the modes in which the threads hold it. Each operation, done by a
thread that is entitled to it, keeps the relation.
-/

namespace Tt3d

structure UpgradeMutex where
  shared : ℕ := 0
  upgrade : Bool := false
  exclusive : Bool := false
  deriving DecidableEq, Repr

namespace UpgradeMutex

-- An operation has no result while its caller has to wait, or when nobody
-- holds what it gives back.

def lockShared (m : UpgradeMutex) : Option UpgradeMutex :=
  if m.exclusive then none else some { m with shared := m.shared + 1 }

def unlockShared (m : UpgradeMutex) : Option UpgradeMutex :=
  if m.shared = 0 then none else some { m with shared := m.shared - 1 }

def lockUpgrade (m : UpgradeMutex) : Option UpgradeMutex :=
  if m.exclusive ∨ m.upgrade then none else some { m with upgrade := true }

def unlockUpgradeAndLock (m : UpgradeMutex) : Option UpgradeMutex :=
  if m.upgrade ∧ m.shared = 0 then some { m with upgrade := false, exclusive := true } else none

def lock (m : UpgradeMutex) : Option UpgradeMutex :=
  if m.exclusive ∨ m.upgrade ∨ m.shared ≠ 0 then none else some { m with exclusive := true }

def unlock (m : UpgradeMutex) : Option UpgradeMutex :=
  if m.exclusive then some { m with exclusive := false } else none

section Waiting

variable {m : UpgradeMutex}

theorem lockShared_eq_none : m.lockShared = none ↔ m.exclusive = true := by
  simp [lockShared]

theorem unlockShared_eq_none : m.unlockShared = none ↔ m.shared = 0 := by
  simp [unlockShared]

theorem lockUpgrade_eq_none :
    m.lockUpgrade = none ↔ m.exclusive = true ∨ m.upgrade = true := by
  rw [lockUpgrade, ite_eq_left_iff]
  simp [or_iff_not_imp_left]

theorem unlockUpgradeAndLock_eq_none :
    m.unlockUpgradeAndLock = none ↔ (m.upgrade = true → m.shared ≠ 0) := by
  simp [unlockUpgradeAndLock]

theorem unlock_eq_none : m.unlock = none ↔ m.exclusive = false := by
  simp [unlock]

end Waiting

section Sharers

variable {m m' : UpgradeMutex}

theorem lockShared_eq_some (h : m.lockShared = some m') :
    m'.shared = m.shared + 1 ∧ m'.upgrade = m.upgrade := by
  unfold lockShared at h
  split at h
  · cases h
  · obtain rfl := Option.some.inj h
    exact ⟨rfl, rfl⟩

theorem unlockShared_eq_some (h : m.unlockShared = some m') :
    m'.shared + 1 = m.shared ∧ m'.upgrade = m.upgrade := by
  unfold unlockShared at h
  split at h
  · cases h
  · rename_i hpos
    obtain rfl := Option.some.inj h
    exact ⟨Nat.succ_pred_eq_of_pos (Nat.pos_of_ne_zero hpos), rfl⟩

theorem lock_eq_some (h : m.lock = some m') :
    m'.shared = m.shared ∧ m'.upgrade = m.upgrade := by
  unfold lock at h
  split at h
  · cases h
  · obtain rfl := Option.some.inj h
    exact ⟨rfl, rfl⟩

theorem unlock_eq_some (h : m.unlock = some m') :
    m'.shared = m.shared ∧ m'.upgrade = m.upgrade := by
  unfold unlock at h
  split at h
  · obtain rfl := Option.some.inj h
    exact ⟨rfl, rfl⟩
  · cases h

end Sharers

/-- How a thread holds the mutex. -/
inductive Mode
  | free
  | shared
  | upgrade
  | exclusive
  deriving DecidableEq, Repr

variable {ι : Type*} [Fintype ι]

/-- How many threads hold the mutex in the mode `l`. -/
def count (mode : ι → Mode) (l : Mode) : ℕ := (Finset.univ.filter fun i => mode i = l).card

/-- The mutex is held by the threads in these modes. -/
structure Held (m : UpgradeMutex) (mode : ι → Mode) : Prop where
  shared : m.shared = count mode .shared
  upgrade : m.upgrade.toNat = count mode .upgrade
  exclusive : m.exclusive.toNat = count mode .exclusive
  alone : m.exclusive = true → m.shared = 0 ∧ m.upgrade = false

variable {m m' : UpgradeMutex} {mode : ι → Mode} {i j : ι} {k l : Mode}

theorem count_pos (h : mode i = l) : 0 < count mode l :=
  Finset.card_pos.mpr ⟨i, by simpa using h⟩

theorem count_eq_zero : count mode l = 0 ↔ ∀ i, mode i ≠ l := by
  simp [count, Finset.filter_eq_empty_iff]

/-- A mutex that nobody holds is free. -/
theorem Held.eq_free (h : Held m mode) (hfree : ∀ i, mode i = .free) : m = {} := by
  obtain ⟨hshared, hupgrade, hexclusive, -⟩ := h
  have hzero : ∀ l, l ≠ .free → count mode l = 0 := fun l hl =>
    count_eq_zero.mpr fun i => by
      rw [hfree i]
      exact hl.symm
  rw [hzero _ (by simp)] at hshared hupgrade hexclusive
  obtain ⟨shared, upgrade, exclusive⟩ := m
  simp only [Bool.toNat_eq_zero] at hshared hupgrade hexclusive
  rw [hshared, hupgrade, hexclusive]

theorem held_free : Held {} fun _ : ι => Mode.free :=
  ⟨by simp [count], by simp [count], by simp [count], by simp⟩

/-- While a thread holds the mutex exclusively, no other holds it. -/
theorem Held.not_shared (h : Held m mode) (hi : mode i = .exclusive) : mode j ≠ .shared := by
  have hexcl : m.exclusive = true := by
    by_contra hnot
    have hpos := count_pos hi
    rw [← h.exclusive, Bool.not_eq_true _ |>.mp hnot] at hpos
    exact absurd hpos (by decide)
  have hzero := (h.alone hexcl).1
  rw [h.shared, count_eq_zero] at hzero
  exact hzero j

/-- The counts are those of the threads that hold the mutex. -/
theorem Held.shared_ne_zero_iff (h : Held m mode) : m.shared ≠ 0 ↔ ∃ i, mode i = .shared := by
  rw [h.shared, ne_eq, count_eq_zero]
  push Not
  rfl

theorem eq_true_iff_of_toNat {b : Bool} (h : b.toNat = count mode l) :
    b = true ↔ ∃ i, mode i = l := by
  cases b with
  | false => simpa using count_eq_zero.mp h.symm
  | true =>
      refine iff_of_true rfl ?_
      by_contra hnone
      rw [count_eq_zero.mpr fun i hi => hnone ⟨i, hi⟩] at h
      cases h

variable [DecidableEq ι]

/-- What the move of one thread does to the counts. -/
theorem count_update (mode : ι → Mode) (i : ι) (k l : Mode) :
    count (Function.update mode i k) l + (if mode i = l then 1 else 0) =
      count mode l + (if k = l then 1 else 0) := by
  have hsplit : ∀ f : ι → Mode, count f l =
      ((Finset.univ.erase i).filter fun j => f j = l).card + if f i = l then 1 else 0 := by
    intro f
    unfold count
    rw [← Finset.insert_erase (Finset.mem_univ i), Finset.filter_insert]
    split
    · rw [Finset.card_insert_of_notMem (by simp)]
      simp
    · simp
  have hrest : ((Finset.univ.erase i).filter fun j => Function.update mode i k j = l) =
      (Finset.univ.erase i).filter fun j => mode j = l :=
    Finset.filter_congr fun j hj => by rw [Function.update_of_ne (Finset.ne_of_mem_erase hj)]
  rw [hsplit, hsplit mode, hrest, Function.update_self]
  omega

/-- The move of one thread from its mode to `k`, and what it does to the mutex. -/
theorem Held.move (h : Held m mode) (i : ι) (k : Mode)
    (hshared : m'.shared + (if mode i = .shared then 1 else 0) =
      m.shared + (if k = .shared then 1 else 0))
    (hupgrade : m'.upgrade.toNat + (if mode i = .upgrade then 1 else 0) =
      m.upgrade.toNat + (if k = .upgrade then 1 else 0))
    (hexclusive : m'.exclusive.toNat + (if mode i = .exclusive then 1 else 0) =
      m.exclusive.toNat + (if k = .exclusive then 1 else 0))
    (halone : m'.exclusive = true → m'.shared = 0 ∧ m'.upgrade = false) :
    Held m' (Function.update mode i k) := by
  have hcount := count_update mode i k
  refine ⟨?_, ?_, ?_, halone⟩
  · have := hcount .shared
    rw [← h.shared] at this
    omega
  · have := hcount .upgrade
    rw [← h.upgrade] at this
    omega
  · have := hcount .exclusive
    rw [← h.exclusive] at this
    omega

theorem Held.lockShared (h : Held m mode) (hi : mode i = .free) (hlock : m.lockShared = some m') :
    Held m' (Function.update mode i .shared) := by
  unfold UpgradeMutex.lockShared at hlock
  split at hlock
  · cases hlock
  rename_i hexcl
  obtain rfl := Option.some.inj hlock
  apply h.move i .shared
  · simp [hi]
  · simp [hi]
  · simp [hi]
  · exact fun h => absurd h hexcl

theorem Held.unlockShared (h : Held m mode) (hi : mode i = .shared)
    (hunlock : m.unlockShared = some m') : Held m' (Function.update mode i .free) := by
  unfold UpgradeMutex.unlockShared at hunlock
  split at hunlock
  · cases hunlock
  rename_i hpos
  obtain rfl := Option.some.inj hunlock
  apply h.move i .free
  · simp only [hi, if_true, reduceCtorEq, if_false]
    omega
  · simp [hi]
  · simp [hi]
  · exact fun hexcl => absurd (h.alone hexcl).1 hpos

theorem Held.lockUpgrade (h : Held m mode) (hi : mode i = .free)
    (hlock : m.lockUpgrade = some m') : Held m' (Function.update mode i .upgrade) := by
  unfold UpgradeMutex.lockUpgrade at hlock
  split at hlock
  · cases hlock
  rename_i hnone
  obtain rfl := Option.some.inj hlock
  rw [not_or, Bool.not_eq_true, Bool.not_eq_true] at hnone
  apply h.move i .upgrade
  · simp [hi]
  · simp [hi, hnone.2]
  · simp [hi]
  · exact fun hexcl => absurd hexcl (by simp [hnone.1])

theorem Held.unlockUpgradeAndLock (h : Held m mode) (hi : mode i = .upgrade)
    (hlock : m.unlockUpgradeAndLock = some m') :
    Held m' (Function.update mode i .exclusive) := by
  unfold UpgradeMutex.unlockUpgradeAndLock at hlock
  split at hlock
  swap
  · cases hlock
  rename_i hup
  obtain rfl := Option.some.inj hlock
  have hexcl : m.exclusive = false := by
    rw [Bool.eq_false_iff]
    intro hexcl
    exact absurd hup.1 (by simp [(h.alone hexcl).2])
  apply h.move i .exclusive
  · simp [hi]
  · simp [hi, hup.1]
  · simp [hi, hexcl]
  · exact fun _ => ⟨hup.2, rfl⟩

theorem Held.unlock (h : Held m mode) (hi : mode i = .exclusive) (hunlock : m.unlock = some m') :
    Held m' (Function.update mode i .free) := by
  unfold UpgradeMutex.unlock at hunlock
  split at hunlock
  swap
  · cases hunlock
  rename_i hexcl
  obtain rfl := Option.some.inj hunlock
  apply h.move i .free
  · simp [hi]
  · simp [hi]
  · simp [hi, hexcl]
  · exact fun h => by cases h

end UpgradeMutex

end Tt3d
