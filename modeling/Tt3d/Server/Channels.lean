import Mathlib.Data.List.Basic
import Mathlib.Data.Int.Notation

/-!
`channel_table_` and the notifier that counts it.

Three sections under `channel_table_mutex_` work on them: `HandleAccept` enters a
connection, `ConnectionClosed` takes it off again, and `Stop` takes off all that are
left. The notifier starts at 1, which only `Stop` subtracts.
-/

namespace Tt3d.Server

structure Notifier where
  count : ℤ := 1
  notified : Bool := false
  deriving DecidableEq, Repr

namespace Notifier

/-- `Dec`; no result when `CHECK_GE( count_, 0 )` fails. -/
def dec (n : Notifier) (cnt : ℤ) : Option Notifier :=
  let count := if 0 < cnt ∧ cnt ≤ n.count then n.count - cnt
    else if cnt < 0 then n.count - cnt
    else n.count
  let notified := n.notified || decide (count = 0)
  if 0 ≤ count then some { count := count, notified := notified } else none

def inc (n : Notifier) (cnt : ℤ) : Option Notifier := n.dec (-1 * cnt)

theorem dec_one {n : Notifier} (h : 1 ≤ n.count) :
    n.dec 1 = some { count := n.count - 1, notified := n.notified || decide (n.count = 1) } := by
  have hzero : n.count - 1 = 0 ↔ n.count = 1 := by omega
  simp only [dec, if_pos (show (0 : ℤ) < 1 ∧ 1 ≤ n.count from ⟨by decide, h⟩), hzero]
  exact if_pos (by omega)

theorem inc_one {n : Notifier} (h : 0 ≤ n.count) :
    n.inc 1 = some { n with count := n.count + 1 } := by
  have hneg : ¬ ((0 : ℤ) < -1 * 1 ∧ -1 * 1 ≤ n.count) := fun h => absurd h.1 (by decide)
  have hadd : n.count - -1 * 1 = n.count + 1 := by omega
  have hne : n.count + 1 ≠ 0 := by omega
  have hnonneg : 0 ≤ n.count + 1 := by omega
  simp only [inc, dec, if_neg hneg, if_pos (show (-1 * 1 : ℤ) < 0 by decide), hadd, if_pos hnonneg,
    decide_eq_false hne, Bool.or_false]

end Notifier

structure Channels (κ : Type*) where
  channelTable : List κ := []
  notifier : Notifier := {}
  deriving DecidableEq, Repr

namespace Channels

variable {κ : Type*} [DecidableEq κ]

/-- The section of `HandleAccept`, behind the registration of the listener. -/
def insert (s : Channels κ) (connection : κ) : Option (Channels κ) :=
  let table := if connection ∈ s.channelTable then s.channelTable
    else s.channelTable ++ [connection]
  (s.notifier.inc 1).map fun n => { channelTable := table, notifier := n }

/-- The section of `ConnectionClosed`. -/
def connectionClosed (s : Channels κ) (connection : κ) : Option (Channels κ) :=
  if connection ∈ s.channelTable then
    (s.notifier.dec 1).map fun n =>
      { channelTable := s.channelTable.erase connection, notifier := n }
  else some s

/-- The loop of `Stop` over the connections, each of which it disconnects. -/
def decAll (n : Notifier) : List κ → Option Notifier
  | [] => some n
  | _ :: table => (n.dec 1).bind fun n => decAll n table

/-- The section of `Stop`. -/
def closeAll (s : Channels κ) : Option (Channels κ) :=
  ((decAll s.notifier s.channelTable).bind fun n => n.dec 1).map fun n =>
    { channelTable := [], notifier := n }

/-! ### What the notifier counts -/

/-- Every connection of the table is counted, and one more; nobody has been woken. -/
structure Counted (s : Channels κ) : Prop where
  count : s.notifier.count = 1 + s.channelTable.length
  notified : s.notifier.notified = false

variable {s s' : Channels κ} {c : κ}

omit [DecidableEq κ] in
theorem counted_init : Counted ({} : Channels κ) := ⟨rfl, rfl⟩

theorem Counted.insert_eq (h : Counted s) (hnew : c ∉ s.channelTable) :
    s.insert c = some
      { channelTable := s.channelTable ++ [c]
        notifier := { s.notifier with count := s.notifier.count + 1 } } := by
  have hpos : 0 ≤ s.notifier.count := by
    rw [h.count]
    omega
  rw [insert, Notifier.inc_one hpos, if_neg hnew]
  rfl

theorem Counted.insert (h : Counted s) (hnew : c ∉ s.channelTable)
    (hinsert : s.insert c = some s') :
    Counted s' ∧ s'.channelTable = s.channelTable ++ [c] := by
  rw [h.insert_eq hnew] at hinsert
  obtain rfl := Option.some.inj hinsert
  have hcount := h.count
  refine ⟨⟨?_, h.notified⟩, rfl⟩
  simp only [List.length_append, List.length_singleton]
  omega

/-- A connection of the table is not the last that is counted. -/
theorem Counted.connectionClosed_eq (h : Counted s) (hmem : c ∈ s.channelTable) :
    s.connectionClosed c = some
      { channelTable := s.channelTable.erase c
        notifier := { s.notifier with count := s.notifier.count - 1 } } := by
  have hpos : 0 < s.channelTable.length := List.length_pos_of_mem hmem
  have hcount := h.count
  have hne : s.notifier.count ≠ 1 := by omega
  rw [connectionClosed, if_pos hmem, Notifier.dec_one (by omega), decide_eq_false hne,
    Bool.or_false]
  rfl

theorem Counted.connectionClosed (h : Counted s) (hclosed : s.connectionClosed c = some s') :
    Counted s' ∧ s'.channelTable = s.channelTable.erase c := by
  by_cases hmem : c ∈ s.channelTable
  · rw [h.connectionClosed_eq hmem] at hclosed
    obtain rfl := Option.some.inj hclosed
    have hpos : 0 < s.channelTable.length := List.length_pos_of_mem hmem
    have hcount := h.count
    refine ⟨⟨?_, h.notified⟩, rfl⟩
    simp only [List.length_erase_of_mem hmem]
    omega
  · rw [Channels.connectionClosed, if_neg hmem] at hclosed
    obtain rfl := Option.some.inj hclosed
    exact ⟨h, (List.erase_of_not_mem hmem).symm⟩

omit [DecidableEq κ] in
theorem decAll_eq (table : List κ) (n : Notifier) (h : (table.length : ℤ) < n.count) :
    decAll n table = some { n with count := n.count - table.length } := by
  induction table generalizing n with
  | nil => simp [decAll]
  | cons c table ih =>
      rw [List.length_cons] at h
      have hne : n.count ≠ 1 := by omega
      rw [decAll, Notifier.dec_one (by omega), decide_eq_false hne, Bool.or_false,
        Option.bind_some, ih _ (by simp only; omega)]
      have hlen : n.count - 1 - (table.length : ℤ) = n.count - ((table.length + 1 : ℕ) : ℤ) := by
        omega
      simp only [hlen, List.length_cons]

omit [DecidableEq κ] in
/-- `Stop` subtracts all that is counted. -/
theorem Counted.closeAll_eq (h : Counted s) :
    s.closeAll = some { channelTable := [], notifier := { count := 0, notified := true } } := by
  have hcount := h.count
  have hone : s.notifier.count - (s.channelTable.length : ℤ) = 1 := by omega
  rw [closeAll, decAll_eq _ _ (by omega), Option.bind_some, hone,
    Notifier.dec_one (Int.le_refl 1), h.notified]
  rfl

end Channels

end Tt3d.Server
