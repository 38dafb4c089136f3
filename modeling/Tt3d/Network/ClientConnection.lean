import Tt3d.Lib.Machine

/-!
`ClientConnection`: `Connect`, `Disconnect` and the closes that come from the peer.

Each is carried through before the next: `Disconnect` closes with `async` clear and leaves
`impl_` as it is, a handler that finds an error closes with `async` set, and `ImplClosed`
resets `impl_`. Nothing clears `CLOSING`. The pool of services and the timer master are
started by the first `Connect` and go on.
-/

namespace Tt3d.Network.ClientConnection

/-- The bits of `RawConnectionStatus`. -/
structure Status where
  reading : Bool := false
  writing : Bool := false
  closing : Bool := false
  deriving DecidableEq, Repr

def Status.isIdle (status : Status) : Bool := status = {}

/-- What a `RawConnection` holds. -/
structure RawConnection where
  socket : Bool := false
  connection : Bool := true
  deriving DecidableEq, Repr

/-- A call of `Connect` that has returned. -/
structure Connected where
  /-- `IsConnected()` before. -/
  up : Bool
  /-- The TCP connect succeeds. -/
  tcp : Bool
  ret : Bool
  /-- `IsConnected()` after. -/
  connected : Bool
  deriving DecidableEq, Repr

structure State where
  status : Status := {}
  impl : Option RawConnection := none
  started : Bool := false
  /-- How often `Connect` has registered the connection in `timer_master_`. -/
  registered : ℕ := 0
  connects : List Connected := []
  deriving DecidableEq, Repr

/-- How `Connect` fails. -/
inductive Failure
  /-- `CHECK( impl_ == NULL )`. -/
  | check
  /-- `assert( !status->IsClosing( ) )` in `InitSocket`. -/
  | assertion
  deriving DecidableEq, Repr

/-- Where an error of the socket is found. -/
inductive Handler
  | handleRead
  | handleWrite
  | oobRecv
  | heartbeat
  deriving DecidableEq, Repr

namespace State

def isConnected (s : State) : Bool := !s.status.isIdle && !s.status.closing

def initSocket (s : State) (raw : RawConnection) : Except Failure State :=
  if s.status.closing then .error .assertion
  else .ok { s with
    impl := some { raw with socket := true }, status := { s.status with reading := true } }

def attach (s : State) : Except Failure State := s.initSocket {}

def connect (s : State) (tcp : Bool) : Except Failure (State × Bool) :=
  if s.isConnected then .ok (s, true)
  else if !tcp then .ok ({ s with started := true }, false)
  else if s.impl.isSome then .error .check
  else
    (State.attach { s with started := true }).map fun s =>
      ({ s with registered := s.registered + 1 }, true)

/-- `RawConnection::Disconnect`. -/
def rawDisconnect (s : State) (raw : RawConnection) (async : Bool) : State :=
  if s.status.closing then s
  else
    { s with
      status := { s.status with closing := true }
      impl := if async then none else some { raw with socket := false, connection := false } }

/-- `Connection::Disconnect`. -/
def disconnect (s : State) : State :=
  if s.status.closing then s
  else
    match s.impl with
    | some raw => s.rawDisconnect raw false
    | none => s

/-- The bit that a handler clears before it disconnects. -/
def clear (status : Status) : Handler → Status
  | .handleRead => { status with reading := false }
  | .handleWrite => { status with writing := false }
  | .oobRecv | .heartbeat => status

/-- The peer closes, and a handler finds the error; it does nothing if `CLOSING` is set. -/
def peerCloses (s : State) (handler : Handler) : State :=
  if s.status.closing then s
  else
    match s.impl with
    | some raw => State.rawDisconnect { s with status := clear s.status handler } raw true
    | none => s

/-- `ScheduleWrite`, with something to write. -/
def scheduleWrite (s : State) : State :=
  if s.status.closing ∨ s.impl.isNone then s
  else { s with status := { s.status with writing := true } }

end State

inductive Event
  | connect (tcp : Bool)
  | disconnect
  | peerCloses (handler : Handler)
  | scheduleWrite
  deriving DecidableEq, Repr

/-- No next state when `Connect` fails a check. -/
def step (s : State) : Event → Option State
  | .connect tcp =>
      match s.connect tcp with
      | .ok (s', ret) =>
          some { s' with connects := s.connects ++ [⟨s.isConnected, tcp, ret, s'.isConnected⟩] }
      | .error _ => none
  | .disconnect => some s.disconnect
  | .peerCloses handler => some (s.peerCloses handler)
  | .scheduleWrite => some s.scheduleWrite

/-- The return value says whether the connection is up. -/
def Connected.Right (r : Connected) : Prop :=
  (r.ret = true ↔ r.up = true ∨ r.tcp = true) ∧ (r.ret = true → r.connected = true)

/-- Every call of `Connect` comes to its end and is right. -/
def Reconnects (es : List Event) : Prop :=
  ∃ s, Machine.run step {} es = some s ∧ ∀ r ∈ s.connects, r.Right

/-! ### What the history says -/

/-- The event closes a connection that is up. -/
def Closes : Event → Prop
  | .disconnect | .peerCloses _ => True
  | .connect _ | .scheduleWrite => False

/-- The connection has been up and has been closed. -/
def Closed (es : List Event) : Prop :=
  Machine.Sometime (fun before e => Closes e ∧ .connect true ∈ before) es

/-- After a close, `Connect` has been called again with a peer that accepts. -/
def Reused (es : List Event) : Prop :=
  Machine.Sometime (fun before e => e = .connect true ∧ Closed before) es

/-- Where the connection is. -/
inductive Stage (es : List Event) (s : State) : Prop
  | fresh (hnone : .connect true ∉ es) (hstatus : s.status = {}) (himpl : s.impl = none)
  | up (hsome : .connect true ∈ es) (hreading : s.status.reading = true) (himpl : s.impl.isSome)
  | closed (hclosing : s.status.closing = true)

/-- The state after the history `es`. -/
structure Tracks (es : List Event) (s : State) : Prop where
  closing : s.status.closing = true ↔ Closed es
  stage : Stage es s
  right : ∀ r ∈ s.connects, r.Right

variable {es : List Event} {s s' : State} {a : Event}

theorem right_concat {rs : List Connected} {r : Connected} (hrs : ∀ r ∈ rs, r.Right)
    (hr : r.Right) : ∀ r' ∈ rs ++ [r], r'.Right :=
  List.forall_mem_append.mpr ⟨hrs, List.forall_mem_singleton.mpr hr⟩

theorem tracks_nil : Tracks [] {} := by
  refine ⟨iff_of_false (by decide) (Machine.not_sometime_nil _), ?_, ?_⟩
  · exact .fresh List.not_mem_nil rfl rfl
  · exact fun r hr => absurd hr List.not_mem_nil

theorem closed_concat :
    Closed (es ++ [a]) ↔ Closed es ∨ Closes a ∧ .connect true ∈ es := Machine.sometime_concat

theorem reused_concat :
    Reused (es ++ [a]) ↔ Reused es ∨ a = .connect true ∧ Closed es := Machine.sometime_concat

theorem isConnected_of_reading (hreading : s.status.reading = true)
    (hopen : s.status.closing = false) : s.isConnected = true := by
  have hidle : s.status ≠ {} := by
    intro heq
    rw [heq] at hreading
    cases hreading
  simp [State.isConnected, Status.isIdle, hidle, hopen]

theorem isConnected_of_closing (hclosing : s.status.closing = true) : s.isConnected = false := by
  simp [State.isConnected, hclosing]

/-- `Connect` on a connection that has been closed. -/
theorem connect_of_closing (hclosing : s.status.closing = true) (tcp : Bool) :
    s.connect tcp =
      if tcp then .error (if s.impl.isSome then .check else .assertion)
      else .ok ({ s with started := true }, false) := by
  rw [State.connect, if_neg (by simp [isConnected_of_closing hclosing])]
  cases tcp with
  | false => rfl
  | true =>
      cases himpl : s.impl with
      | some raw => rfl
      | none => simp [State.attach, State.initSocket, hclosing, Except.map]

/-- A step on a connection that has been closed changes nothing but the record. -/
theorem Tracks.step_of_closing (h : Tracks es s) (hclosing : s.status.closing = true)
    (hstep : step s a = some s') : Tracks (es ++ [a]) s' := by
  have hclosed := h.closing.mp hclosing
  have hkeep : ∀ {u : State}, u.status = s.status → (∀ r ∈ u.connects, r.Right) →
      Tracks (es ++ [a]) u := by
    intro u hstatus hright
    rw [← hstatus] at hclosing
    exact ⟨iff_of_true hclosing (closed_concat.mpr (Or.inl hclosed)), .closed hclosing, hright⟩
  cases a with
  | connect tcp =>
      simp only [step, connect_of_closing hclosing] at hstep
      cases tcp with
      | true => cases hstep
      | false =>
          obtain rfl := Option.some.inj hstep
          refine hkeep rfl (right_concat h.right ?_)
          rw [isConnected_of_closing hclosing]
          exact ⟨by simp, nofun⟩
  | disconnect =>
      rw [step, State.disconnect, if_pos hclosing] at hstep
      obtain rfl := Option.some.inj hstep
      exact hkeep rfl h.right
  | peerCloses handler =>
      rw [step, State.peerCloses, if_pos hclosing] at hstep
      obtain rfl := Option.some.inj hstep
      exact hkeep rfl h.right
  | scheduleWrite =>
      rw [step, State.scheduleWrite, if_pos (Or.inl hclosing)] at hstep
      obtain rfl := Option.some.inj hstep
      exact hkeep rfl h.right

theorem Tracks.step_of_fresh (h : Tracks es s) (hnone : .connect true ∉ es)
    (hstatus : s.status = {}) (himpl : s.impl = none) (hstep : step s a = some s') :
    Tracks (es ++ [a]) s' := by
  have hopen : s.status.closing = false := by rw [hstatus]
  have hdown : s.isConnected = false := by
    rw [State.isConnected, hstatus]
    rfl
  have hclosed : ¬ Closed (es ++ [a]) := by
    rw [closed_concat, ← h.closing, hopen]
    rintro (hclosing | ⟨-, hmem⟩)
    · cases hclosing
    · exact hnone hmem
  -- what leaves the connection as it is
  have hkeep : ∀ {u : State}, a ≠ .connect true → u.status = {} → u.impl = none →
      (∀ r ∈ u.connects, r.Right) → Tracks (es ++ [a]) u := by
    intro u ha hstatus himpl hright
    refine ⟨iff_of_false (by rw [hstatus]; nofun) hclosed, .fresh ?_ hstatus himpl, hright⟩
    rw [List.mem_append, List.mem_singleton, not_or]
    exact ⟨hnone, ha.symm⟩
  cases a with
  | connect tcp =>
      cases tcp with
      | false =>
          rw [step, State.connect, hdown] at hstep
          obtain rfl := Option.some.inj hstep
          exact hkeep nofun hstatus himpl (right_concat h.right ⟨by simp, nofun⟩)
      | true =>
          rw [step, State.connect, hdown, himpl, State.attach, State.initSocket, hstatus] at hstep
          obtain rfl := Option.some.inj hstep
          refine ⟨iff_of_false nofun hclosed, ?_, ?_⟩
          · exact .up (List.mem_append_right _ (List.mem_singleton_self _)) rfl rfl
          · exact right_concat h.right ⟨by simp, fun _ => rfl⟩
  | disconnect =>
      rw [step, State.disconnect, hopen, himpl] at hstep
      obtain rfl := Option.some.inj hstep
      exact hkeep nofun hstatus himpl h.right
  | peerCloses handler =>
      rw [step, State.peerCloses, hopen, himpl] at hstep
      obtain rfl := Option.some.inj hstep
      exact hkeep nofun hstatus himpl h.right
  | scheduleWrite =>
      have hidle : s.status.closing = true ∨ s.impl.isNone = true := Or.inr (by rw [himpl]; rfl)
      rw [step, State.scheduleWrite, if_pos hidle] at hstep
      obtain rfl := Option.some.inj hstep
      exact hkeep nofun hstatus himpl h.right

theorem Tracks.step_of_up (h : Tracks es s) (hsome : .connect true ∈ es)
    (hopen : s.status.closing = false) (hreading : s.status.reading = true)
    (himpl : s.impl.isSome) (hstep : step s a = some s') : Tracks (es ++ [a]) s' := by
  obtain ⟨raw, hraw⟩ := Option.isSome_iff_exists.mp himpl
  have hup := isConnected_of_reading hreading hopen
  have hmem : .connect true ∈ es ++ [a] := List.mem_append_left _ hsome
  have hnot : ¬ Closed es := by
    rw [← h.closing, hopen]
    nofun
  have hkeep : ∀ {u : State}, ¬ Closes a → u.status.closing = false → u.status.reading = true →
      u.impl.isSome → (∀ r ∈ u.connects, r.Right) → Tracks (es ++ [a]) u := by
    intro u ha hopen hreading himpl hright
    refine ⟨iff_of_false (by rw [hopen]; nofun) ?_, .up hmem hreading himpl, hright⟩
    rw [closed_concat]
    rintro (hclosed | ⟨hcloses, -⟩)
    · exact hnot hclosed
    · exact ha hcloses
  have hclose : ∀ {u : State}, Closes a → u.status.closing = true →
      (∀ r ∈ u.connects, r.Right) → Tracks (es ++ [a]) u := fun ha hclosing hright =>
    ⟨iff_of_true hclosing (closed_concat.mpr (Or.inr ⟨ha, hsome⟩)), .closed hclosing, hright⟩
  cases a with
  | connect tcp =>
      rw [step, State.connect, hup] at hstep
      obtain rfl := Option.some.inj hstep
      exact hkeep id hopen hreading himpl (right_concat h.right ⟨by simp, fun _ => hup⟩)
  | disconnect =>
      rw [step, State.disconnect, hopen, hraw] at hstep
      obtain rfl := Option.some.inj hstep
      refine hclose trivial ?_ ?_
      · simp [State.rawDisconnect, hopen]
      · simpa [State.rawDisconnect, hopen] using h.right
  | peerCloses handler =>
      rw [step, State.peerCloses, hopen, hraw] at hstep
      obtain rfl := Option.some.inj hstep
      -- no handler clears `CLOSING`
      have hopen' : (State.clear s.status handler).closing = false := by
        cases handler <;> exact hopen
      refine hclose trivial ?_ ?_
      · simp [State.rawDisconnect, hopen']
      · simpa [State.rawDisconnect, hopen'] using h.right
  | scheduleWrite =>
      rw [step, State.scheduleWrite, hopen, hraw] at hstep
      obtain rfl := Option.some.inj hstep
      exact hkeep id hopen hreading rfl h.right

theorem Tracks.step (h : Tracks es s) (hstep : ClientConnection.step s a = some s') :
    Tracks (es ++ [a]) s' := by
  cases hclosing : s.status.closing with
  | true => exact h.step_of_closing hclosing hstep
  | false =>
      cases h.stage with
      | fresh hnone hstatus himpl => exact h.step_of_fresh hnone hstatus himpl hstep
      | up hsome hreading himpl => exact h.step_of_up hsome hclosing hreading himpl hstep
      | closed hclosed =>
          rw [hclosing] at hclosed
          cases hclosed

/-- **Where a step fails**: in a `Connect` after a close, with a peer that accepts. -/
theorem Tracks.step_eq_none_iff (h : Tracks es s) :
    ClientConnection.step s a = none ↔ a = .connect true ∧ Closed es := by
  rw [← h.closing]
  cases a with
  | disconnect | peerCloses | scheduleWrite => exact iff_of_false nofun (fun h => nomatch h.1)
  | connect tcp =>
      cases hclosing : s.status.closing with
      | true =>
          simp only [ClientConnection.step, connect_of_closing hclosing]
          cases tcp <;> simp
      | false =>
          refine iff_of_false ?_ (fun h => nomatch h.2)
          cases h.stage with
          | closed hclosed =>
              rw [hclosing] at hclosed
              cases hclosed
          | up hsome hreading himpl =>
              rw [ClientConnection.step, State.connect, isConnected_of_reading hreading hclosing]
              nofun
          | fresh hnone hstatus himpl =>
              cases tcp <;>
                simp [ClientConnection.step, State.connect, State.isConnected, Status.isIdle,
                  himpl, hstatus, State.attach, State.initSocket, Except.map]

theorem tracks_run (hrun : Machine.run step {} es = some s) : Tracks es s ∧ ¬ Reused es := by
  refine Machine.run_history (P := fun es s => Tracks es s ∧ ¬ Reused es) ?_ ?_ hrun
  · exact ⟨tracks_nil, Machine.not_sometime_nil _⟩
  · rintro es t a t' - ⟨htracks, hnot⟩ hstep
    refine ⟨htracks.step hstep, ?_⟩
    rw [reused_concat]
    rintro (hreused | hfails)
    · exact hnot hreused
    · rw [htracks.step_eq_none_iff.mpr hfails] at hstep
      cases hstep

/-- **When a client connection can be reconnected.** -/
theorem reconnects_iff (es : List Event) : Reconnects es ↔ ¬ Reused es := by
  constructor
  · rintro ⟨s, hrun, -⟩
    exact (tracks_run hrun).2
  · intro h
    obtain ⟨s, hrun⟩ : ∃ s, Machine.run step {} es = some s := by
      induction es using List.reverseRecOn with
      | nil => exact ⟨{}, rfl⟩
      | append_singleton es a ih =>
          rw [reused_concat, not_or] at h
          obtain ⟨s, hrun⟩ := ih h.1
          obtain ⟨s', hs'⟩ := Option.ne_none_iff_exists'.mp
            (mt (tracks_run hrun).1.step_eq_none_iff.mp h.2)
          exact ⟨s', (Machine.run_concat_eq_some _).mpr ⟨s, hrun, hs'⟩⟩
    exact ⟨s, hrun, (tracks_run hrun).1.right⟩

/-- After a `Disconnect`, `impl_` is still set. -/
theorem not_reconnects : ¬ ∀ es, Reconnects es := by
  intro h
  obtain ⟨s, hrun, -⟩ := h [.connect true, .disconnect, .connect true]
  cases hrun

end Tt3d.Network.ClientConnection
