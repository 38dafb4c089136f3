import Mathlib.Algebra.GroupWithZero.Nat
import Mathlib.Data.Fintype.Prod
import Mathlib.Data.Fintype.Pi
import Mathlib.Logic.Function.Basic
import Tt3d.Lib.Machine

/-!
The timer wheel of `TimerMaster`, as `TimerMaster.cpp` computes it.

An `int` is an integer; signed overflow is undefined behaviour and has no
result here. `x & kTVMask` and `x >> (N * kTVBits)` are remainder and floor
division by powers of two, which is what they are on two's complement numbers.
A failed `CHECK` has no result either. A `TimerSlot` is named by the number of
the allocation that made it, since the program passes slots by address.
-/

namespace Tt3d.Timer

def kTVBits : ℕ := 8

def kTVSize : ℕ := 2 ^ kTVBits

instance : NeZero kTVSize := ⟨by decide⟩

/-- `x & kTVMask`. -/
def mask (x : ℤ) : Fin kTVSize :=
  ⟨(x % kTVSize).toNat, by
    have h := Int.emod_lt_of_pos x (show (0 : ℤ) < kTVSize by decide)
    have h0 := Int.emod_nonneg x (show (kTVSize : ℤ) ≠ 0 by decide)
    omega⟩

/-- `x >> (n * kTVBits)`. -/
def shift (x : ℤ) (n : ℕ) : ℤ := x / (kTVSize : ℤ) ^ n

/-- Addition of two `int`s. -/
def addInt (x y : ℤ) : Option ℤ :=
  if -2 ^ 31 ≤ x + y ∧ x + y < 2 ^ 31 then some (x + y) else none

/-- `struct TimerSlot`; `id` stands for its address. -/
structure TimerSlot (τ : Type*) where
  id : ℕ
  weakTimer : τ
  jiffies : ℤ
  deriving DecidableEq, Repr

abbrev TList (τ : Type*) := List (TimerSlot τ)

/-- The place `vecs_[i][j]` of a list in the wheel. -/
abbrev Place := Fin 4 × Fin kTVSize

structure TimerMaster (τ : Type*) where
  timerJiffies : ℤ
  vecs : Place → TList τ

variable {τ : Type*}

namespace TimerMaster

/-- The constructor: every list is empty and the clock stands at 1. -/
def new : TimerMaster τ := { timerJiffies := 1, vecs := fun _ => [] }

def setList (m : TimerMaster τ) (p : Place) (l : TList τ) : TimerMaster τ :=
  { m with vecs := Function.update m.vecs p l }

def pushBack (m : TimerMaster τ) (p : Place) (s : TimerSlot τ) : TimerMaster τ :=
  m.setList p (m.vecs p ++ [s])

/-- `INDEX( n )`. -/
def index (m : TimerMaster τ) (n : ℕ) : Fin kTVSize := mask (shift m.timerJiffies n)

/-- The loop of `InternalAddTimer` over the levels. `idx` is an `int` compared
with the `uint64` `upper`, so it is converted to `uint64` first. -/
def findVec (idx : ℤ) : List (Fin 4) → (upper expires : ℤ) → Option Place
  | [], _, _ => none
  | i :: is, upper, expires =>
      let upper := upper * 2 ^ kTVBits
      if idx % 2 ^ 64 < upper then some (i, mask expires)
      else findVec idx is upper (shift expires 1)

/-- No result when `CHECK( v != NULL )` fails. -/
def internalAddTimer (m : TimerMaster τ) (slot : TimerSlot τ) (weakTimer : τ)
    (jiffies : ℤ) : Option (TimerMaster τ) :=
  let idx := jiffies - m.timerJiffies
  (findVec idx (List.finRange 4) 1 jiffies).map fun v =>
    m.pushBack v { slot with weakTimer := weakTimer, jiffies := jiffies }

/-- The loop of `CascadeTimers` over the list at `p`. The nodes before the
iterator have all been unlinked, so the iterator stands at the head of the
list; it is advanced before the head is filed anew, and once it is at the end
a node pushed behind it is not visited. Fuel counts visits. -/
def cascadeLoop (p : Place) : ℕ → TimerMaster τ → Option (TimerMaster τ)
  | 0, _ => none
  | fuel + 1, m =>
      match m.vecs p with
      | [] => some m
      | s :: it =>
          match (m.setList p it).internalAddTimer s s.weakTimer s.jiffies with
          | none => none
          | some m' => if it.isEmpty then some m' else cascadeLoop p fuel m'

/-- `CascadeTimers( &vecs_[ i ], index )`. A slot is filed by its own data and
the clock, so one that returned to the list under iteration would do so at
every visit: more visits than slots mean that the loop does not end. -/
def cascadeTimers (m : TimerMaster τ) (i : Fin 4) (index : Fin kTVSize) :
    Option (TimerMaster τ × Fin kTVSize) :=
  (cascadeLoop (i, index) ((m.vecs (i, index)).length + 1) m).bind fun m' =>
    if (m'.vecs (i, index)).isEmpty then some (m', index) else none

/-- The cascades at the head of the locked section of `Update`. -/
def cascade (m : TimerMaster τ) : Option (TimerMaster τ) :=
  if m.index 0 ≠ 0 then some m
  else (m.cascadeTimers 1 (m.index 1)).bind fun (m, r) =>
    if r ≠ 0 then some m
    else (m.cascadeTimers 2 (m.index 2)).bind fun (m, r) =>
      if r ≠ 0 then some m
      else (m.cascadeTimers 3 (m.index 3)).map Prod.fst

/-- The loop of the locked section: the list of the current jiffy is emptied,
the slots of dead timers are deleted and the others collected in `timers`. -/
def takeTimers (m : TimerMaster τ) (live : τ → Bool) : TimerMaster τ × TList τ :=
  let p : Place := (0, m.index 0)
  (m.setList p [], (m.vecs p).filter fun s => live s.weakTimer)

end TimerMaster

/-! ### The calls on one `TimerMaster`, interleaved -/

/-- Where the thread inside `Update` stands: outside, at the test of the outer
loop, between the locked section and the increment of the clock, in the loop
that calls `Expired`, or in the loop that files periodic timers again. The last
field is the vector `timers`, which keeps its timers alive. -/
inductive Updater (τ : Type*)
  | idle
  | testing (target : ℤ)
  | taken (target : ℤ) (timers : TList τ)
  | expiring (target old : ℤ) (todo timers : TList τ)
  | rearming (target old : ℤ) (todo timers : TList τ)
  deriving DecidableEq, Repr

/-- The strong references held in `timers`. -/
def Updater.timers : Updater τ → TList τ
  | .idle | .testing _ => []
  | .taken _ ts | .expiring _ _ _ ts | .rearming _ _ _ ts => ts

/-- One call of `Expired()`: the jiffy being processed, the slot and its timer. -/
structure Call (τ : Type*) where
  jiffy : ℤ
  slot : ℕ
  timer : τ
  deriving DecidableEq, Repr

structure State (τ : Type*) where
  master : TimerMaster τ
  updater : Updater τ
  /-- Which timers still have an owner outside the wheel. -/
  live : τ → Bool
  /-- The number of the next slot allocated. -/
  nextSlot : ℕ
  /-- The calls of `Expired()` made so far, oldest first. -/
  calls : List (Call τ)

def State.init : State τ :=
  { master := .new, updater := .idle, live := fun _ => true, nextSlot := 0, calls := [] }

/-- The atomic steps, with the answers that the timers give in them. -/
inductive Event (τ : Type*)
  | register (x : τ) (timeout : ℤ)
  | release (x : τ)
  | update (jiffies : ℤ)
  | take
  | tick
  | expired (slot : ℕ) (x : τ)
  | called
  | rearm (slot : ℕ) (x : τ) (period : Bool) (timeout : ℤ)
  | next
  | return
  deriving DecidableEq, Repr

section Step

variable [DecidableEq τ]

/-- `Register`, with the `Timeout()` it reads. -/
def State.register (s : State τ) (x : τ) (timeout : ℤ) : Option (State τ) :=
  if s.live x then
    (addInt timeout s.master.timerJiffies).bind fun jiffies =>
      (s.master.internalAddTimer ⟨s.nextSlot, x, jiffies⟩ x jiffies).map fun m =>
        { s with master := m, nextSlot := s.nextSlot + 1 }
  else some s

/-- The last owner of a timer lets go of it. -/
def State.release (s : State τ) (x : τ) : Option (State τ) :=
  if s.updater.timers.any fun slot => decide (slot.weakTimer = x) then none
  else some { s with live := Function.update s.live x false }

/-- The locked section of `Update`, when the loop test succeeds. -/
def State.take (s : State τ) : Option (State τ) :=
  match s.updater with
  | .testing target =>
      if s.master.timerJiffies ≤ target then
        s.master.cascade.map fun m =>
          { s with
            master := (m.takeTimers s.live).1
            updater := .taken target (m.takeTimers s.live).2 }
      else none
  | _ => none

/-- `timer->Expired()` on the next of `timers`. -/
def State.expired (s : State τ) (slot : ℕ) (x : τ) : Option (State τ) :=
  match s.updater with
  | .expiring target old (t :: todo) timers =>
      if t.id = slot ∧ t.weakTimer = x then
        some { s with
          updater := .expiring target old todo timers
          calls := s.calls ++ [⟨old, slot, x⟩] }
      else none
  | _ => none

/-- One turn of the last loop of `Update`: the slot of a periodic timer is filed
again, the slot of any other is deleted. -/
def State.rearm (s : State τ) (slot : ℕ) (x : τ) (period : Bool) (timeout : ℤ) :
    Option (State τ) :=
  match s.updater with
  | .rearming target old (t :: todo) timers =>
      if t.id = slot ∧ t.weakTimer = x then
        if period then
          (addInt timeout old).bind fun jiffies =>
            (s.master.internalAddTimer t x jiffies).map fun m =>
              { s with master := m, updater := .rearming target old todo timers }
        else some { s with updater := .rearming target old todo timers }
      else none
  | _ => none

def step (s : State τ) : Event τ → Option (State τ)
  | .register x timeout => s.register x timeout
  | .release x => s.release x
  | .update jiffies =>
      -- CHECK_GE( jiffies, timer_jiffies_ )
      if s.updater matches .idle ∧ s.master.timerJiffies ≤ jiffies then
        some { s with updater := .testing jiffies }
      else none
  | .take => s.take
  | .tick =>
      match s.updater with
      | .taken target timers =>
          (addInt s.master.timerJiffies 1).map fun t =>
            { s with
              master := { s.master with timerJiffies := t }
              updater := .expiring target s.master.timerJiffies timers timers }
      | _ => none
  | .expired slot x => s.expired slot x
  | .called =>
      match s.updater with
      | .expiring target old [] timers =>
          some { s with updater := .rearming target old timers timers }
      | _ => none
  | .rearm slot x period timeout => s.rearm slot x period timeout
  | .next =>
      match s.updater with
      | .rearming target _ [] _ => some { s with updater := .testing target }
      | _ => none
  | .return =>
      match s.updater with
      | .testing target =>
          if target < s.master.timerJiffies then some { s with updater := .idle } else none
      | _ => none

end Step

end Tt3d.Timer
