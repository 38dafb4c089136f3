import Mathlib.Algebra.BigOperators.Fin
import Mathlib.Algebra.Order.Group.Multiset
import Mathlib.Data.Multiset.Bind
import Mathlib.Data.Multiset.Range
import Tt3d.Network.WritePath

/-!
Who owns the strings that `EncodeMessage` allocates.

A reply is pushed and scheduled by `CallServiceMethodDone` in two calls that test
`CLOSING` each for itself; `CallMethod` keeps the mutex shared all along, so no close
falls into it. A store is deleted with the last of the buffers that share it: those of
the connection and the copies that the writes under way hold.
-/

namespace Tt3d.Network.Ownership

/-- The two strings of a frame, by the numbers of their allocations. -/
structure EncodeData where
  first : ℕ
  second : ℕ
  header : Bytes
  content : Bytes
  deriving DecidableEq, Repr

/-- The strings of an `EncodeData`, which may be a pair of null pointers. -/
def strings : Option EncodeData → Multiset ℕ
  | none => 0
  | some data => {data.first, data.second}

/-- A thread that sends a frame: in `CallMethod`, which holds the mutex of the status
shared, or in `CallServiceMethodDone`. -/
inductive Sender
  /-- In `CallMethod`, before `EncodeMessage`. -/
  | calling
  /-- Before `PushData`. -/
  | encoded (call : Bool) (data : Option EncodeData)
  /-- Before `ScheduleWrite`. -/
  | pushed (call : Bool) (data : Option EncodeData)
  deriving DecidableEq, Repr

/-- The thread is in `CallMethod`. -/
def Sender.locks : Sender → Bool
  | .calling => true
  | .encoded call _ | .pushed call _ => call

/-- The strings that the thread has allocated and not handed to `PushData`. -/
def Sender.strings : Sender → Multiset ℕ
  | .encoded _ data => Ownership.strings data
  | .calling | .pushed _ _ => 0

structure State where
  path : WritePath := {}
  /-- The strings in the `mStore` of each of the two buffers. -/
  stores : Fin 2 → Multiset ℕ := fun _ => 0
  /-- The buffers that each write under way has a copy of. -/
  writes : List (Fin 2) := []
  closing : Bool := false
  /-- `impl_` has been reset. -/
  destroyed : Bool := false
  senders : Multiset Sender := 0
  /-- The number of strings allocated. -/
  allocated : ℕ := 0
  /-- The strings that `PushData` refused. -/
  refused : Multiset ℕ := 0
  deletedBySenders : Multiset ℕ := 0
  deletedByStores : Multiset ℕ := 0

inductive Event
  /-- `CallServiceMethodDone`, to the end of `EncodeMessage`. -/
  | done (text : Option (Bytes × Bytes))
  | call
  /-- `CallMethod` fails to serialise the request. -/
  | callFails
  | encodeMessage (text : Option (Bytes × Bytes))
  | pushData (call : Bool) (data : Option EncodeData)
  | scheduleWrite (call : Bool) (data : Option EncodeData)
  /-- `Disconnect` sets `CLOSING`. -/
  | close
  | destroy
  | handleWrite (i byteTransferred : ℕ)
  /-- `HandleWrite` with an error, before its `Disconnect`. -/
  | writeFailed (i : ℕ)
  /-- A write completes on a connection that is closing. -/
  | writeIgnored (i : ℕ)
  deriving DecidableEq, Repr

/-- `EncodeMessage` in a thread. -/
def State.encodeMessage (s : State) (call : Bool) : Option (Bytes × Bytes) → State
  | none => { s with senders := .encoded call none ::ₘ s.senders }
  | some (header, content) =>
      { s with
        senders :=
          .encoded call (some ⟨s.allocated, s.allocated + 1, header, content⟩) ::ₘ s.senders
        allocated := s.allocated + 2 }

/-- `delete data.first; delete data.second;`. -/
def State.deleteData (s : State) (data : Option EncodeData) : State :=
  { s with deletedBySenders := strings data + s.deletedBySenders }

/-- `RawConnection::PushData`, which never fails. -/
def State.pushData (s : State) (data : Option EncodeData) : State :=
  let i := s.path.incomingIndex
  { s with
    path := s.path.pushData (data.map fun d => (d.header, d.content))
    stores := Function.update s.stores i (strings data + s.stores i) }

/-- `RawConnection::ScheduleWrite`, which never fails. -/
def State.scheduleWrite (s : State) : State :=
  let path := s.path.scheduleWrite
  { s with
    path := path
    writes := if s.path.outstanding.length < path.outstanding.length then
      s.writes ++ [path.switchIo.incomingIndex] else s.writes }

/-- `Connection::PushData` and what follows it in `CallServiceMethodDone`. -/
def State.pushReply (s : State) (data : Option EncodeData) : State :=
  if s.closing then { s.deleteData data with refused := strings data + s.refused }
  else s.pushData data

/-- `Connection::ScheduleWrite` and what follows it in `CallServiceMethodDone`. -/
def State.scheduleReply (s : State) (data : Option EncodeData) : State :=
  if s.closing then s.deleteData data else s.scheduleWrite

/-- The thread goes on from where it stands, or ends. -/
def State.move (s : State) (t : Sender) (next : Multiset Sender) : State :=
  { s with senders := next + s.senders.erase t }

/-- The write under way `i` gives up its copy of the buffers. -/
def State.dropWrite (s : State) (i : ℕ) : State :=
  { s with
    path := { s.path with outstanding := s.path.outstanding.eraseIdx i }
    writes := s.writes.eraseIdx i }

/-- The buffers of the connection and the writes under way share no store `i`. -/
def State.Unshared (s : State) (i : Fin 2) : Prop := s.destroyed = true ∧ i ∉ s.writes

instance (s : State) (i : Fin 2) : Decidable (s.Unshared i) := inferInstanceAs (Decidable (_ ∧ _))

/-- `~Store` of the stores that nobody shares any more. -/
def State.collect (s : State) : State :=
  { s with
    stores := fun i => if s.Unshared i then 0 else s.stores i
    deletedByStores := (∑ i, if s.Unshared i then s.stores i else 0) + s.deletedByStores }

def step (s : State) : Event → Option State
  | .done text => some (s.encodeMessage false text)
  | .call => if s.closing then some s else some { s with senders := .calling ::ₘ s.senders }
  | .callFails => if .calling ∈ s.senders then some (s.move .calling 0) else none
  | .encodeMessage text =>
      if .calling ∈ s.senders then some ((s.move .calling 0).encodeMessage true text) else none
  | .pushData call data =>
      if .encoded call data ∈ s.senders then
        let s := s.move (.encoded call data) {.pushed call data}
        some (if call then s.pushData data else s.pushReply data)
      else none
  | .scheduleWrite call data =>
      if .pushed call data ∈ s.senders then
        let s := s.move (.pushed call data) 0
        some (if call then s.scheduleWrite else s.scheduleReply data)
      else none
  | .close =>
      if s.closing = false ∧ ∀ t ∈ s.senders, t.locks = false then some { s with closing := true }
      else none
  | .destroy =>
      if s.closing ∧ s.destroyed = false then some ({ s with destroyed := true } : State).collect
      else none
  | .handleWrite i byteTransferred =>
      if s.closing then none
      else
        (s.path.step (.handleWrite i byteTransferred)).map fun path =>
          { s with
            path := path
            writes := s.writes.eraseIdx i ++
              if s.path.outstanding.length ≤ path.outstanding.length then
                [path.switchIo.incomingIndex] else [] }
  | .writeFailed i =>
      if s.closing = false ∧ i < s.writes.length then
        let s := s.dropWrite i
        some { s with path := { s.path with writing := false } }
      else none
  | .writeIgnored i =>
      if s.closing ∧ i < s.writes.length then some (s.dropWrite i).collect else none

/-! ### Where the strings are -/

/-- The strings allocated, as often as somebody owns them or has deleted them. -/
def State.held (s : State) : Multiset ℕ :=
  s.senders.bind Sender.strings + ∑ i, s.stores i + s.deletedBySenders + s.deletedByStores

/-- Every string is with the function that sends it, or in one store, or has been
deleted, and that once; a sender deletes what `PushData` refused. -/
structure Owned (s : State) : Prop where
  once : s.held = Multiset.range s.allocated
  refused : s.deletedBySenders = s.refused

/-- `ScheduleWrite` of a reply comes before the close, or there is nothing to delete. -/
def SchedulesOpen (s : State) : Event → Prop
  | .scheduleWrite false data => s.closing = true → data = none
  | .scheduleWrite true _ | .done _ | .call | .callFails | .encodeMessage _ | .pushData _ _ | .close
  | .destroy | .handleWrite _ _ | .writeFailed _ | .writeIgnored _ => True

instance (s : State) : ∀ e, Decidable (SchedulesOpen s e)
  | .scheduleWrite false data => inferInstanceAs (Decidable (s.closing = true → data = none))
  | .scheduleWrite true _ | .done _ | .call | .callFails | .encodeMessage _ | .pushData _ _ | .close
  | .destroy | .handleWrite _ _ | .writeFailed _ | .writeIgnored _ => isTrue trivial

/-! ### What one step does with them -/

variable {s s' : State}

theorem strings_eq_zero {data : Option EncodeData} : strings data = 0 ↔ data = none := by
  cases data with
  | none => simp [strings]
  | some data => simp [strings]

theorem range_add_two (n : ℕ) : Multiset.range (n + 2) = Multiset.range n + {n, n + 1} := by
  ext k
  simp only [Multiset.range_succ, Multiset.count_add, Multiset.insert_eq_cons,
    Multiset.count_cons, Multiset.count_singleton]
  omega

theorem held_move {t : Sender} (ht : t ∈ s.senders) (next : Multiset Sender) :
    (s.move t next).held + t.strings = s.held + next.bind Sender.strings := by
  have hsenders : s.senders.bind Sender.strings =
      t.strings + (s.senders.erase t).bind Sender.strings := by
    rw [← Multiset.cons_bind, Multiset.cons_erase ht]
  ext k
  simp only [State.held, State.move, hsenders, Multiset.add_bind, Multiset.count_add]
  omega

theorem held_deleteData (s : State) (data : Option EncodeData) :
    (s.deleteData data).held = s.held + strings data := by
  ext k
  simp only [State.held, State.deleteData, Multiset.count_add]
  omega

/-- `PushData` hands the strings to the store of the incoming buffers. -/
theorem held_pushData (s : State) (data : Option EncodeData) :
    (s.pushData data).held = s.held + strings data := by
  ext k
  rcases (by decide : ∀ i : Fin 2, i = 0 ∨ i = 1) s.path.incomingIndex with hi | hi
  all_goals
    simp only [State.held, State.pushData, hi, Function.update_apply, Fin.sum_univ_two,
      Multiset.count_add]
    simp
    omega

/-- The stores that are deleted hand their strings to the list of the deleted. -/
theorem held_collect (s : State) : s.collect.held = s.held := by
  ext k
  simp only [State.held, State.collect, Fin.sum_univ_two, Multiset.count_add]
  split <;> split <;> simp only [Multiset.count_zero] <;> omega

/-- `late` are the strings that a sender deletes although it has handed them to
`PushData` before. -/
structure Effect (s s' : State) (fresh refused late : Multiset ℕ) : Prop where
  held : s'.held = s.held + fresh + late
  allocated : Multiset.range s'.allocated = Multiset.range s.allocated + fresh
  deleted : s'.deletedBySenders = s.deletedBySenders + refused + late
  refused : s'.refused = s.refused + refused

/-- Nothing is allocated, and no sender deletes anything. -/
theorem Effect.of_held (hheld : s'.held = s.held) (hallocated : s'.allocated = s.allocated)
    (hdeleted : s'.deletedBySenders = s.deletedBySenders) (hrefused : s'.refused = s.refused) :
    Effect s s' 0 0 0 where
  held := by rw [hheld, Multiset.add_zero, Multiset.add_zero]
  allocated := by rw [hallocated, Multiset.add_zero]
  deleted := by rw [hdeleted, Multiset.add_zero, Multiset.add_zero]
  refused := by rw [hrefused, Multiset.add_zero]

theorem effect_encodeMessage (s : State) (call : Bool) (text : Option (Bytes × Bytes)) :
    ∃ fresh, Effect s (s.encodeMessage call text) fresh 0 0 := by
  cases text with
  | none =>
      refine ⟨0, Effect.of_held ?_ rfl rfl rfl⟩
      simp [State.encodeMessage, State.held, Sender.strings, strings]
  | some text =>
      refine ⟨{s.allocated, s.allocated + 1}, ?_, range_add_two s.allocated, ?_, ?_⟩
      · ext k
        simp only [State.encodeMessage, State.held, Multiset.cons_bind, Sender.strings, strings,
          Multiset.count_add, Multiset.count_zero]
        omega
      · simp [State.encodeMessage]
      · simp [State.encodeMessage]

/-- A thread that has not refused or deleted anything moves its strings to a store. -/
theorem effect_pushData {call : Bool} {data : Option EncodeData}
    (ht : .encoded call data ∈ s.senders) :
    Effect s ((s.move (.encoded call data) {.pushed call data}).pushData data) 0 0 0 := by
  refine Effect.of_held ?_ rfl rfl rfl
  rw [held_pushData]
  have hmove := held_move ht {.pushed call data}
  simpa [Sender.strings] using hmove

theorem effect_pushReply {call : Bool} {data : Option EncodeData}
    (ht : .encoded call data ∈ s.senders) :
    ∃ refused,
      Effect s ((s.move (.encoded call data) {.pushed call data}).pushReply data) 0 refused 0 := by
  rw [State.pushReply]
  split
  · -- the push is refused, and the sender deletes what it still owns
    refine ⟨strings data, ?_, (Multiset.add_zero _).symm, ?_, Multiset.add_comm _ _⟩
    · show ((s.move (.encoded call data) {.pushed call data}).deleteData data).held = _
      rw [held_deleteData]
      have hmove := held_move ht {.pushed call data}
      simpa [Sender.strings] using hmove
    · rw [Multiset.add_zero]
      exact Multiset.add_comm _ _
  · exact ⟨0, effect_pushData ht⟩

theorem effect_scheduleReply {call : Bool} {data : Option EncodeData}
    (ht : .pushed call data ∈ s.senders) :
    ∃ late, Effect s ((s.move (.pushed call data) 0).scheduleReply data) 0 0 late ∧
      (late = 0 ↔ (s.closing = true → data = none)) := by
  have hmove : (s.move (.pushed call data) 0).held = s.held := by
    simpa [Sender.strings] using held_move ht 0
  rw [State.scheduleReply]
  split
  · rename_i hclosing
    refine ⟨strings data, ⟨?_, (Multiset.add_zero _).symm, ?_, (Multiset.add_zero _).symm⟩, ?_⟩
    · rw [held_deleteData, hmove, Multiset.add_zero]
    · rw [Multiset.add_zero]
      exact Multiset.add_comm _ _
    · rw [strings_eq_zero]
      exact ⟨fun h _ => h, fun h => h hclosing⟩
  · rename_i hclosing
    refine ⟨0, Effect.of_held hmove rfl rfl rfl, ?_⟩
    exact iff_of_true rfl fun h => absurd h hclosing

/-- **What one step does**: only a reply that is scheduled after the close deletes
strings that somebody else owns or has deleted. -/
theorem step_effect {a : Event} (h : Ownership.step s a = some s') :
    ∃ fresh refused late, Effect s s' fresh refused late ∧ (late = 0 ↔ SchedulesOpen s a) := by
  have of_effect {fresh refused : Multiset ℕ} (heffect : Effect s s' fresh refused 0)
      (hopen : SchedulesOpen s a) :
      ∃ fresh refused late, Effect s s' fresh refused late ∧ (late = 0 ↔ SchedulesOpen s a) :=
    ⟨fresh, refused, 0, heffect, iff_of_true rfl hopen⟩
  cases a with
  | done text =>
      obtain rfl := Option.some.inj h
      obtain ⟨fresh, heffect⟩ := effect_encodeMessage s false text
      exact of_effect heffect trivial
  | call =>
      rw [Ownership.step] at h
      split at h <;> obtain rfl := Option.some.inj h
      · exact of_effect (Effect.of_held rfl rfl rfl rfl) trivial
      · refine of_effect (Effect.of_held ?_ rfl rfl rfl) trivial
        simp [State.held, Sender.strings]
  | callFails =>
      obtain ⟨hmem, h⟩ := Option.ite_none_right_eq_some.mp h
      obtain rfl := Option.some.inj h
      refine of_effect (Effect.of_held ?_ rfl rfl rfl) trivial
      simpa [Sender.strings] using held_move hmem 0
  | encodeMessage text =>
      obtain ⟨hmem, h⟩ := Option.ite_none_right_eq_some.mp h
      obtain rfl := Option.some.inj h
      have hmove : (s.move .calling 0).held = s.held := by
        simpa [Sender.strings] using held_move hmem 0
      obtain ⟨fresh, heffect⟩ := effect_encodeMessage (s.move .calling 0) true text
      have hsame : Effect s ((s.move .calling 0).encodeMessage true text) fresh 0 0 :=
        ⟨by rw [heffect.held, hmove], heffect.allocated, heffect.deleted, heffect.refused⟩
      exact of_effect hsame trivial
  | pushData call data =>
      obtain ⟨hmem, h⟩ := Option.ite_none_right_eq_some.mp h
      obtain rfl := Option.some.inj h
      cases call with
      | true => exact of_effect (effect_pushData hmem) trivial
      | false =>
          obtain ⟨refused, heffect⟩ := effect_pushReply hmem
          exact of_effect heffect trivial
  | scheduleWrite call data =>
      obtain ⟨hmem, h⟩ := Option.ite_none_right_eq_some.mp h
      obtain rfl := Option.some.inj h
      cases call with
      | true =>
          refine of_effect (Effect.of_held ?_ rfl rfl rfl) trivial
          show (s.move (.pushed true data) 0).held = s.held
          simpa [Sender.strings] using held_move hmem 0
      | false =>
          obtain ⟨late, heffect, hlate⟩ := effect_scheduleReply hmem
          exact ⟨0, 0, late, heffect, hlate⟩
  | close =>
      obtain ⟨-, h⟩ := Option.ite_none_right_eq_some.mp h
      obtain rfl := Option.some.inj h
      exact of_effect (Effect.of_held rfl rfl rfl rfl) trivial
  | destroy =>
      obtain ⟨-, h⟩ := Option.ite_none_right_eq_some.mp h
      obtain rfl := Option.some.inj h
      refine of_effect (Effect.of_held ?_ rfl rfl rfl) trivial
      rw [held_collect]
      rfl
  | handleWrite i byteTransferred =>
      obtain ⟨-, h⟩ := Option.ite_none_left_eq_some.mp h
      obtain ⟨path, -, rfl⟩ := Option.map_eq_some_iff.mp h
      exact of_effect (Effect.of_held rfl rfl rfl rfl) trivial
  | writeFailed i =>
      obtain ⟨-, h⟩ := Option.ite_none_right_eq_some.mp h
      obtain rfl := Option.some.inj h
      exact of_effect (Effect.of_held rfl rfl rfl rfl) trivial
  | writeIgnored i =>
      obtain ⟨-, h⟩ := Option.ite_none_right_eq_some.mp h
      obtain rfl := Option.some.inj h
      refine of_effect (Effect.of_held ?_ rfl rfl rfl) trivial
      rw [held_collect]
      rfl

/-! ### Whole runs -/

/-- `late` are the strings that have been deleted by a sender that did not own them any
more. -/
def Accounted (s : State) (late : Multiset ℕ) : Prop :=
  s.held = Multiset.range s.allocated + late ∧ s.deletedBySenders = s.refused + late

theorem accounted_init : Accounted {} 0 := ⟨rfl, rfl⟩

theorem Effect.accounted {fresh refused late before : Multiset ℕ}
    (heffect : Effect s s' fresh refused late) (h : Accounted s before) :
    Accounted s' (before + late) := by
  constructor
  · rw [heffect.held, heffect.allocated, h.1]
    ext k
    simp only [Multiset.count_add]
    omega
  · rw [heffect.deleted, heffect.refused, h.2]
    ext k
    simp only [Multiset.count_add]
    omega

theorem owned_iff {late : Multiset ℕ} (h : Accounted s late) : Owned s ↔ late = 0 := by
  constructor
  · intro howned
    have hcard := congrArg Multiset.card (h.1.symm.trans howned.once)
    rw [Multiset.card_add] at hcard
    exact Multiset.card_eq_zero.mp (by omega)
  · rintro rfl
    exact ⟨by rw [h.1, Multiset.add_zero], by rw [h.2, Multiset.add_zero]⟩

/-- **Every string has one owner, and is deleted once, in the runs in which each reply
is scheduled before the close.** -/
theorem owned_iff_schedulesOpen {es : List Event}
    (hrun : Machine.run Ownership.step {} es = some s) :
    Owned s ↔ Machine.Along Ownership.step SchedulesOpen {} es := by
  have hI : ∀ u a u', (∃ late, Accounted u late) → Ownership.step u a = some u' →
      ∃ late, Accounted u' late := by
    rintro u a u' ⟨before, hu⟩ hstep
    obtain ⟨fresh, refused, late, heffect, -⟩ := step_effect hstep
    exact ⟨before + late, heffect.accounted hu⟩
  -- what a step adds to the late deletions is never taken off again
  have hiff : ∀ u a u', (∃ late, Accounted u late) → ¬ ¬ Owned u →
      Ownership.step u a = some u' → (¬ Owned u' ↔ ¬ SchedulesOpen u a) := by
    rintro u a u' ⟨before, hu⟩ howned hstep
    obtain ⟨fresh, refused, late, heffect, hlate⟩ := step_effect hstep
    have hbefore : before = 0 := (owned_iff hu).mp (not_not.mp howned)
    rw [owned_iff (heffect.accounted hu), ← hlate, hbefore, Multiset.zero_add]
  have hJ : ∀ u a u', (∃ late, Accounted u late) → ¬ Owned u →
      Ownership.step u a = some u' → ¬ Owned u' := by
    rintro u a u' ⟨before, hu⟩ howned hstep
    obtain ⟨fresh, refused, late, heffect, -⟩ := step_effect hstep
    rw [owned_iff (heffect.accounted hu)]
    intro hzero
    have hcard := congrArg Multiset.card hzero
    rw [Multiset.card_add, Multiset.card_zero] at hcard
    exact howned ((owned_iff hu).mpr (Multiset.card_eq_zero.mp (by omega)))
  have hinit : ¬ ¬ Owned {} := not_not.mpr ((owned_iff accounted_init).mpr rfl)
  exact (Machine.along_iff_not hI hiff hJ ⟨0, accounted_init⟩ hinit hrun).trans not_not |>.symm

/-- The frame whose header is `[1]` and whose content is `[2]`. -/
def exampleData (n : ℕ) : EncodeData := ⟨n, n + 1, [1], [2]⟩

/-- A reply is sent and its write is under way when the connection goes away, and
another one is pushed and scheduled before. -/
def exampleRun : List Event :=
  [.done (some ([1], [2])), .pushData false (some (exampleData 0)),
    .scheduleWrite false (some (exampleData 0)), .handleWrite 0 1, .call,
    .encodeMessage (some ([1], [2])), .pushData true (some (exampleData 2)),
    .scheduleWrite true (some (exampleData 2)), .close, .destroy, .writeIgnored 0]

theorem owned_iff_schedulesOpen_run :
    ∃ s, Machine.run Ownership.step {} exampleRun = some s ∧ Owned s := by
  obtain ⟨s, hrun⟩ : ∃ s, Machine.run Ownership.step {} exampleRun = some s := ⟨_, rfl⟩
  exact ⟨s, hrun, (owned_iff_schedulesOpen hrun).mpr (by decide)⟩

/-- The close falls between the two calls of a completion: its strings are in a store,
and the completion deletes them. -/
theorem close_between_deletes_owned :
    ∃ s, Machine.run Ownership.step {}
        [.done (some ([1], [2])), .pushData false (some (exampleData 0)), .close,
          .scheduleWrite false (some (exampleData 0))] = some s ∧
      s.stores 1 + s.stores 0 = {0, 1} ∧ s.deletedBySenders = {0, 1} ∧ s.refused = 0 ∧
      ¬ Owned s := by
  refine ⟨_, rfl, rfl, rfl, rfl, ?_⟩
  intro h
  exact absurd h.refused (by decide)

end Tt3d.Network.Ownership
