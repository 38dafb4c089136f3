import Tt3d.Lib.UpgradeMutex
import Tt3d.Network.Decoding

/-!
The read handler of a connection, one completed read after the other.

`ReadHandler` takes the shared lock that `HandleRead` gives back, by arming the
next read or by `Disconnect`. An exception leaves the handler at once: nothing
after it is done.
-/

namespace Tt3d.Network

open Feed RawConnectionImpl

variable {σ : Type*}

/-- A read that has completed: with an error, or with some bytes. -/
inductive Completion
  | error
  | bytes (chunk : Bytes)
  deriving DecidableEq, Repr

/-- The reading side of a connection after `InitSocket`. -/
structure ReadSide (σ : Type*) where
  conn : RawConnectionImpl σ
  mutex : UpgradeMutex := {}
  reading : Bool := true
  closing : Bool := false
  /-- An `async_read_some` is outstanding. -/
  armed : Bool := true
  deriving Repr

namespace ReadSide

/-- `Disconnect`. -/
def disconnect (r : ReadSide σ) : Option (ReadSide σ) :=
  if r.closing then r.mutex.unlockShared.map fun mutex => { r with mutex := mutex }
  else
    r.mutex.unlockShared.bind fun mutex =>
      mutex.lockUpgrade.bind fun mutex =>
        mutex.unlockUpgradeAndLock.bind fun mutex =>
          if r.closing then mutex.unlock.map fun mutex => { r with mutex := mutex }
          else mutex.unlock.map fun mutex => { r with mutex := mutex, closing := true }

variable (codec : MetaCodec) (handle : Handler σ)

/-- `HandleRead`, and the exception that leaves it. -/
def handleRead (r : ReadSide σ) : Completion → Option (ReadSide σ × Option Fault)
  | .error => ({ r with reading := false } : ReadSide σ).disconnect.map (·, none)
  | .bytes chunk =>
      match r.conn.decode codec handle chunk with
      | .error fault => some (r, some fault)
      | .ok (conn, false, _) =>
          ({ r with conn := conn, reading := false } : ReadSide σ).disconnect.map (·, none)
      | .ok (conn, true, _) =>
          r.mutex.unlockShared.map fun mutex =>
            ({ r with conn := conn, armed := true, mutex := mutex }, none)

/-- `ReadHandler::operator()`. -/
def readHandler (r : ReadSide σ) (c : Completion) : Option (ReadSide σ × Option Fault) :=
  r.mutex.lockShared.bind fun mutex =>
    if r.closing then
      mutex.unlockShared.map fun mutex => ({ r with mutex := mutex, armed := false }, none)
    else ({ r with mutex := mutex, armed := false } : ReadSide σ).handleRead codec handle c

/-- What each handler comes to, as long as a read is armed and none has thrown. -/
def readHandlers : ReadSide σ → List Completion → List (Option (ReadSide σ × Option Fault))
  | _, [] => []
  | r, c :: cs =>
      if r.armed then
        match r.readHandler codec handle c with
        | some (r', none) => some (r', none) :: readHandlers r' cs
        | result => [result]
      else []

end ReadSide

/-- A handler ends well when it threw nothing, left the lock free, and either
armed the next read or closed the connection. -/
def EndsWell (result : Option (ReadSide σ × Option Fault)) : Prop :=
  ∃ r, result = some (r, none) ∧ r.mutex = {} ∧
    (r.armed = true ∧ r.closing = false ∨ r.armed = false ∧ r.closing = true)

/-- The bytes received, up to the first read error. -/
def received : List Completion → Bytes
  | [] => []
  | .error :: _ => []
  | .bytes chunk :: cs => chunk ++ received cs

section Handlers

variable {codec : MetaCodec} {handle : Handler σ}

theorem readHandlers_of_not_armed {r : ReadSide σ} (h : r.armed = false) (cs : List Completion) :
    r.readHandlers codec handle cs = [] := by
  cases cs with
  | nil => rfl
  | cons c cs => simp [ReadSide.readHandlers, h]

/-- A read side between two handlers. -/
def ReadSide.idle (conn : RawConnectionImpl σ) : ReadSide σ := { conn := conn }

theorem readHandlers_idle (conn : RawConnectionImpl σ) (c : Completion) (cs : List Completion) :
    (ReadSide.idle conn).readHandlers codec handle (c :: cs) =
      match (ReadSide.idle conn).readHandler codec handle c with
      | some (r', none) => some (r', none) :: r'.readHandlers codec handle cs
      | result => [result] := rfl

theorem readHandler_error (conn : RawConnectionImpl σ) :
    (ReadSide.idle conn).readHandler codec handle .error =
      some ({ conn := conn, reading := false, closing := true, armed := false }, none) := rfl

theorem readHandler_bytes (conn : RawConnectionImpl σ) (chunk : Bytes) :
    (ReadSide.idle conn).readHandler codec handle (.bytes chunk) =
      match feed (turn codec handle) conn chunk with
      | .next conn' => some (.idle conn', none)
      | .stop (.ok conn', _) =>
          some ({ conn := conn', reading := false, closing := true, armed := false }, none)
      | .stop (.error fault, _) =>
          some ({ conn := conn, mutex := { shared := 1 }, armed := false }, some fault) := by
  have h : (ReadSide.idle conn).readHandler codec handle (.bytes chunk) =
      ReadSide.handleRead codec handle
        { conn := conn, mutex := { shared := 1 }, armed := false } (.bytes chunk) := rfl
  rw [h, ReadSide.handleRead, decode_eq]
  rcases feed (turn codec handle) conn chunk with conn' | ⟨fault | conn', rest⟩
  · rfl
  · rfl
  · rfl

/-- The handlers all end well exactly when the bytes received cause no fault. -/
theorem endsWell_iff_outcome (conn : RawConnectionImpl σ) (reads : List Completion) :
    (∀ result ∈ (ReadSide.idle conn).readHandlers codec handle reads, EndsWell result) ↔
      ∃ v, outcome (feed (turn codec handle) conn (received reads)) = .ok v := by
  induction reads generalizing conn with
  | nil => exact iff_of_true (by simp [ReadSide.readHandlers]) ⟨_, rfl⟩
  | cons c reads ih =>
      cases c with
      | error =>
          refine iff_of_true ?_ ⟨_, rfl⟩
          rw [readHandlers_idle, readHandler_error]
          simp only [readHandlers_of_not_armed, List.mem_singleton, forall_eq]
          exact ⟨_, rfl, rfl, Or.inr ⟨rfl, rfl⟩⟩
      | bytes chunk =>
          rw [readHandlers_idle, readHandler_bytes, received]
          rcases hfeed : feed (turn codec handle) conn chunk with conn' | ⟨fault | conn', rest⟩
          · rw [feed_append_next hfeed, ← ih conn']
            simp only [List.mem_cons, forall_eq_or_imp]
            exact and_iff_right ⟨_, rfl, rfl, Or.inl ⟨rfl, rfl⟩⟩
          · rw [feed_append_stop hfeed]
            refine iff_of_false ?_ ?_
            · intro h
              obtain ⟨r, hr, -⟩ := h _ (List.mem_singleton_self _)
              cases hr
            · rintro ⟨v, hv⟩
              cases hv
          · rw [feed_append_stop hfeed]
            refine iff_of_true ?_ ⟨_, rfl⟩
            simp only [readHandlers_of_not_armed, List.mem_singleton, forall_eq]
            exact ⟨_, rfl, rfl, Or.inr ⟨rfl, rfl⟩⟩

/-- **What a peer must not send.** Every read handler ends well exactly when each
length prefix that is completed in the stream is below `2 ^ 31 - 1`. -/
theorem readHandlers_endsWell_iff (codec : MetaCodec) (handle : Handler σ) (s : σ)
    (reads : List Completion) :
    (∀ result ∈ (ReadSide.idle { service := s }).readHandlers codec handle reads,
        EndsWell result) ↔
      ∀ n ∈ (parse codec handle s (received reads)).prefixes, n < 2 ^ 31 - 1 := by
  rw [endsWell_iff_outcome]
  constructor
  · rintro ⟨v, hv⟩ n hn
    by_contra hbig
    obtain ⟨fault, hfault⟩ := outcome_fault codec handle { service := s }
      (received reads) rfl ⟨n, hn, by omega⟩
    rw [hfault] at hv
    cases hv
  · intro hsmall
    obtain ⟨d, hd⟩ := outcome_eq_parse codec handle { service := s }
      (received reads) rfl fun n hn => by
        have := hsmall n hn
        omega
    exact ⟨_, hd⟩

/-- The length 2147483648 is no `int`: the exception leaves the handler with the
shared lock held, no read armed and `CLOSING` clear. -/
theorem readHandlers_large_length :
    ¬ ∀ result ∈ (ReadSide.idle { service := () }).readHandlers MetaCodec.short
        (fun s _ => (true, s)) [.bytes [50, 49, 52, 55, 52, 56, 51, 54, 52, 56, 58]],
      EndsWell result := by
  have hrun : (ReadSide.idle { service := () }).readHandlers MetaCodec.short
      (fun s _ => (true, s)) [.bytes [50, 49, 52, 55, 52, 56, 51, 54, 52, 56, 58]] =
        [some ({ conn := { service := () }, mutex := { shared := 1 }, armed := false },
          some .badLexicalCast)] := rfl
  rw [hrun]
  intro h
  obtain ⟨r, hr, -⟩ := h _ (List.mem_singleton_self _)
  cases hr

end Handlers

end Tt3d.Network
