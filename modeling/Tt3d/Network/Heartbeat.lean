import Tt3d.Timer.Timing

/-!
The heartbeats of the connections of one process.

A connection is a timer of its own: `Expired` sends one byte out of band, and
`OOBRecv` counts the bytes of the other side. Every step of the timer master is
here as it is there; what a connection answers is read off the connection.
`Heartbeat` holds the shared lock from the test of `IsClosing` to the
comparison, so `CLOSING` is not set in between, but bytes do arrive.
-/

namespace Tt3d.Network.Heartbeat

open Timer

def kHeartbeatUnsyncWindow : ℤ := 2

def kTimeoutSec : ℤ := 30

/-- What the heartbeats of one connection read and write. -/
structure Pulse where
  /-- `impl_` is set. -/
  attached : Bool := false
  reading : Bool := false
  writing : Bool := false
  closing : Bool := false
  /-- `StartOOBRecv` has armed a receive. -/
  receiving : Bool := false
  sendPackage : ℤ := 0
  recvPackage : ℤ := 0
  deriving DecidableEq, Repr

namespace Pulse

def isIdle (p : Pulse) : Bool := !p.reading && !p.writing && !p.closing

def isConnected (p : Pulse) : Bool := !p.isIdle && !p.closing

/-- `Attach` and `InitSocket`. No result when `CHECK( impl_ == NULL )` or the
assertion that the connection is not closing fails. -/
def attach (p : Pulse) : Option Pulse :=
  if p.attached || p.closing then none
  else some { p with
    attached := true, receiving := true, reading := true, sendPackage := 0, recvPackage := 0 }

/-- `++send_package_`. -/
def countSent (p : Pulse) : Option Pulse :=
  (addInt p.sendPackage 1).map fun n => { p with sendPackage := n }

/-- The comparison at the end of `Heartbeat`. -/
def unsynced (p : Pulse) : Bool :=
  decide (kHeartbeatUnsyncWindow < |p.sendPackage - p.recvPackage|)

/-- `OOBRecv` under its `ReadHandler`, for the receive that is armed. On an error
`Disconnect` follows and no further receive is armed. -/
def oobRecv (p : Pulse) (e : Bool) : Option Pulse :=
  if p.receiving then
    if p.closing || e then some { p with receiving := false }
    else (addInt p.recvPackage 1).map fun n => { p with recvPackage := n }
  else none

/-- The connection reads, receives heartbeats and is not closing. -/
structure InOrder (p : Pulse) : Prop where
  attached : p.attached = true
  reading : p.reading = true
  receiving : p.receiving = true
  unclosed : p.closing = false

end Pulse

variable {τ : Type*}

/-- Where the timer thread stands in `Expired`: outside, past the `send` of
`Heartbeat`, or inside the `Disconnect` that `Heartbeat` calls. -/
inductive Beat (τ : Type*)
  | out
  | sent (x : τ)
  | leaving (x : τ)
  deriving DecidableEq, Repr

structure Process (τ : Type*) where
  timers : Timer.State τ
  conns : τ → Pulse
  beat : Beat τ

inductive Event (τ : Type*)
  | attach (x : τ)
  /-- A step of the timer master, apart from the calls of `Expired`. -/
  | timer (a : Timer.Event τ)
  /-- `Expired` on the next timer, up to the `send`, and whether that went well. -/
  | expired (slot : ℕ) (x : τ) (sent : Bool)
  /-- The rest of `Heartbeat`. -/
  | test
  /-- The `Disconnect` of the timer thread sets `CLOSING`. -/
  | leave
  | oobRecv (x : τ) (e : Bool)
  /-- `HandleRead` fails and clears `READING`. -/
  | readFails (x : τ)
  /-- `SetWriting` and `ClearWriting`. -/
  | writing (x : τ) (b : Bool)
  /-- Another thread's `Disconnect` sets `CLOSING`. -/
  | disconnect (x : τ)
  deriving DecidableEq, Repr

namespace Process

def init : Process τ := { timers := .init, conns := fun _ => {}, beat := .out }

/-- The connections answer so, and the timer thread is free for the step. -/
def Answers (s : Process τ) : Timer.Event τ → Prop
  | .register _ timeout => timeout = kTimeoutSec
  -- CHECK( !IsConnected() ) in the destructor
  | .release x => (s.conns x).isConnected = false
  | .rearm _ x period timeout =>
      s.beat = .out ∧ period = (s.conns x).isConnected ∧ timeout = kTimeoutSec
  | .expired _ _ => False
  | .update _ | .take | .tick | .called | .next | .return => s.beat = .out

variable [DecidableEq τ]

instance (s : Process τ) : ∀ a : Timer.Event τ, Decidable (s.Answers a)
  | .register _ timeout => inferInstanceAs (Decidable (timeout = kTimeoutSec))
  | .release x => inferInstanceAs (Decidable ((s.conns x).isConnected = false))
  | .rearm _ x period timeout => inferInstanceAs (Decidable
      (s.beat = .out ∧ period = (s.conns x).isConnected ∧ timeout = kTimeoutSec))
  | .expired _ _ => inferInstanceAs (Decidable False)
  | .update _ | .take | .tick | .called | .next | .return =>
      inferInstanceAs (Decidable (s.beat = .out))

def set (s : Process τ) (x : τ) (p : Pulse) : Process τ :=
  { s with conns := Function.update s.conns x p }

/-- `Connection::Expired` up to the `send` of `Heartbeat`. -/
def startBeat (s : Process τ) (x : τ) (sent : Bool) : Beat τ :=
  if (s.conns x).closing || !(s.conns x).attached then .out
  else if sent then .sent x
  else .leaving x

end Process

variable [DecidableEq τ]

def step (s : Process τ) : Event τ → Option (Process τ)
  | .attach x =>
      if s.timers.live x then (s.conns x).attach.map fun p => s.set x p else none
  | .timer a =>
      if s.Answers a then (Timer.step s.timers a).map fun t => { s with timers := t } else none
  | .expired slot x sent =>
      if s.beat = .out then
        (Timer.step s.timers (.expired slot x)).map fun t =>
          { s with timers := t, beat := s.startBeat x sent }
      else none
  | .test =>
      match s.beat with
      | .sent x =>
          (s.conns x).countSent.map fun p =>
            { s.set x p with beat := if p.unsynced then .leaving x else .out }
      | _ => none
  | .leave =>
      match s.beat with
      | .leaving x => some { s.set x { s.conns x with closing := true } with beat := .out }
      | _ => none
  | .oobRecv x e => ((s.conns x).oobRecv e).map fun p => s.set x p
  | .readFails x =>
      if (s.conns x).reading ∧ (s.conns x).closing = false then
        some (s.set x { s.conns x with reading := false })
      else none
  | .writing x b =>
      if (s.conns x).attached then some (s.set x { s.conns x with writing := b }) else none
  | .disconnect x =>
      -- the exclusive lock is not to be had while `Heartbeat` holds the shared one
      if (s.conns x).attached ∧ s.beat ≠ .sent x then
        some (s.set x { s.conns x with closing := true })
      else none

/-- What the timer master sees of an event. -/
def Event.shown : Event τ → Option (Timer.Event τ)
  | .timer a => some a
  | .expired slot x _ => some (.expired slot x)
  | .attach _ | .test | .leave | .oobRecv _ _ | .readFails _ | .writing _ _ | .disconnect _ => none

/-- The bytes of the other side that connection `x` has received. -/
def arrivals (x : τ) (es : List (Event τ)) : ℕ := es.count (.oobRecv x false)

/-- The bytes that connection `x` has sent: the one past the `send` is not counted yet. -/
def Process.sentBytes (s : Process τ) (x : τ) : ℤ :=
  (s.conns x).sendPackage + ((if s.beat = .sent x then 1 else 0 : ℕ) : ℤ)

/-- The bytes that the event puts on the wire for connection `x`. -/
def bytesSent (x : τ) (s : Process τ) : Event τ → ℕ
  | .expired _ y true =>
      if y = x ∧ (s.conns x).attached = true ∧ (s.conns x).closing = false then 1 else 0
  | _ => 0

/-- By how much the event moves `send_package_` of connection `x`. -/
def bytesTested (x : τ) (s : Process τ) : Event τ → ℕ
  | .test => if s.beat = .sent x then 1 else 0
  | _ => 0

/-- By how much the event moves `recv_package_` of connection `x`. -/
def bytesCounted (x : τ) (s : Process τ) : Event τ → ℕ
  | .oobRecv y false => if y = x ∧ (s.conns x).closing = false then 1 else 0
  | _ => 0

/-- Nothing has gone wrong with connection `x`. -/
structure Process.Sound (s : Process τ) (x : τ) : Prop where
  inOrder : (s.conns x).InOrder
  staying : s.beat ≠ .leaving x

/-- The event does connection `x` no harm. -/
def Keeps (x : τ) (s : Process τ) : Event τ → Prop
  | .expired _ y sent => y = x → sent = true
  | .test =>
      s.beat = .sent x →
        |(s.conns x).sendPackage + 1 - (s.conns x).recvPackage| ≤ kHeartbeatUnsyncWindow
  | .oobRecv y e => y = x → e = false
  | .readFails y | .disconnect y => y ≠ x
  | .attach _ | .timer _ | .leave | .writing _ _ => True

/-! ### The connection by itself -/

namespace Pulse

variable {p p' : Pulse} {e : Bool}

theorem InOrder.isConnected (h : p.InOrder) : p.isConnected = true := by
  simp [Pulse.isConnected, isIdle, h.reading, h.unclosed]

theorem countSent_eq_some (h : p.countSent = some p') :
    p' = { p with sendPackage := p.sendPackage + 1 } := by
  obtain ⟨n, hn, rfl⟩ := Option.map_eq_some_iff.mp h
  rw [(addInt_eq_some hn).1]

/-- What a receive that completes does: it is the last one, or it is counted. -/
theorem oobRecv_eq_some (h : p.oobRecv e = some p') :
    p.receiving = true ∧
      ((p.closing || e) = true ∧ p' = { p with receiving := false } ∨
        (p.closing || e) = false ∧ p' = { p with recvPackage := p.recvPackage + 1 }) := by
  unfold oobRecv at h
  split at h
  · rename_i hreceiving
    refine ⟨hreceiving, ?_⟩
    split at h
    · rename_i hlast
      exact Or.inl ⟨hlast, (Option.some.inj h).symm⟩
    · rename_i hcounted
      obtain ⟨n, hn, rfl⟩ := Option.map_eq_some_iff.mp h
      rw [(addInt_eq_some hn).1]
      exact Or.inr ⟨Bool.eq_false_iff.mpr hcounted, rfl⟩
  · cases h

theorem attach_eq_some (h : p.attach = some p') :
    p.attached = false ∧ p.closing = false ∧
      p' = { p with
        attached := true, receiving := true, reading := true, sendPackage := 0,
        recvPackage := 0 } := by
  unfold attach at h
  split at h
  · cases h
  · rename_i hguard
    rw [Bool.or_eq_true, not_or, Bool.not_eq_true, Bool.not_eq_true] at hguard
    exact ⟨hguard.1, hguard.2, (Option.some.inj h).symm⟩

theorem InOrder.oobRecv_iff (h : p.InOrder) (hrecv : p.oobRecv e = some p') :
    p'.InOrder ↔ e = false := by
  obtain ⟨-, ⟨hlast, rfl⟩ | ⟨hcounted, rfl⟩⟩ := oobRecv_eq_some hrecv
  · rw [h.unclosed, Bool.false_or] at hlast
    refine iff_of_false (fun hp => ?_) (by simp [hlast])
    exact absurd hp.receiving Bool.false_ne_true
  · rw [h.unclosed, Bool.false_or] at hcounted
    exact iff_of_true ⟨h.attached, h.reading, h.receiving, h.unclosed⟩ hcounted

end Pulse

/-! ### What an event does to one connection -/

section Step

variable {s s' : Process τ} {a : Event τ} {x y : τ} {p : Pulse}

@[simp] theorem Process.timers_set (s : Process τ) (y : τ) (p : Pulse) :
    (s.set y p).timers = s.timers := rfl

@[simp] theorem Process.beat_set (s : Process τ) (y : τ) (p : Pulse) :
    (s.set y p).beat = s.beat := rfl

@[simp] theorem Process.conns_set_self (s : Process τ) (x : τ) (p : Pulse) :
    (s.set x p).conns x = p := by
  simp [Process.set]

@[simp] theorem Process.conns_set_of_ne (s : Process τ) (h : y ≠ x) (p : Pulse) :
    (s.set y p).conns x = s.conns x := by
  simp [Process.set, Ne.symm h]

theorem Process.sound_set_of_ne (h : y ≠ x) : (s.set y p).Sound x ↔ s.Sound x := by
  constructor
  · rintro ⟨hp, hb⟩
    exact ⟨by rwa [conns_set_of_ne s h] at hp, hb⟩
  · rintro ⟨hp, hb⟩
    exact ⟨by rwa [conns_set_of_ne s h], hb⟩

theorem Process.sound_set_self (hb : s.beat ≠ .leaving x) :
    (s.set x p).Sound x ↔ p.InOrder := by
  constructor
  · rintro ⟨hp, -⟩
    rwa [conns_set_self] at hp
  · intro hp
    exact ⟨by rwa [conns_set_self], hb⟩

/-- An event that is no step of the timer master leaves it alone. -/
theorem shown_of_step (hstep : step s a = some s') :
    match a.shown with
    | some b => Timer.step s.timers b = some s'.timers
    | none => s'.timers = s.timers := by
  cases a with
  | attach y =>
      simp only [step] at hstep
      split at hstep
      · obtain ⟨p, -, rfl⟩ := Option.map_eq_some_iff.mp hstep
        rfl
      · cases hstep
  | timer b =>
      simp only [step] at hstep
      split at hstep
      · obtain ⟨t, ht, rfl⟩ := Option.map_eq_some_iff.mp hstep
        exact ht
      · cases hstep
  | expired slot y sent =>
      simp only [step] at hstep
      split at hstep
      · obtain ⟨t, ht, rfl⟩ := Option.map_eq_some_iff.mp hstep
        exact ht
      · cases hstep
  | test =>
      simp only [step] at hstep
      split at hstep
      · obtain ⟨p, -, rfl⟩ := Option.map_eq_some_iff.mp hstep
        rfl
      · cases hstep
  | leave =>
      simp only [step] at hstep
      split at hstep <;> cases hstep
      rfl
  | oobRecv y e =>
      obtain ⟨p, -, rfl⟩ := Option.map_eq_some_iff.mp hstep
      rfl
  | readFails y | writing y b | disconnect y =>
      simp only [step] at hstep
      split at hstep <;> cases hstep
      rfl

/-- A sound connection comes out of a step sound just when the event does it no harm. -/
theorem Process.Sound.step_iff (h : s.Sound x) (hstep : Heartbeat.step s a = some s') :
    s'.Sound x ↔ Keeps x s a := by
  obtain ⟨hp, hb⟩ := id h
  cases a with
  | attach y =>
      simp only [Heartbeat.step] at hstep
      split at hstep
      swap
      · cases hstep
      obtain ⟨p, hattach, rfl⟩ := Option.map_eq_some_iff.mp hstep
      refine iff_of_true ?_ trivial
      have hyx : y ≠ x := by
        rintro rfl
        exact absurd ((Pulse.attach_eq_some hattach).1.symm.trans hp.attached) Bool.false_ne_true
      exact (sound_set_of_ne hyx).mpr h
  | timer b =>
      simp only [Heartbeat.step] at hstep
      split at hstep
      · obtain ⟨t, -, rfl⟩ := Option.map_eq_some_iff.mp hstep
        exact iff_of_true ⟨hp, hb⟩ trivial
      · cases hstep
  | expired slot y sent =>
      simp only [Heartbeat.step] at hstep
      split at hstep
      swap
      · cases hstep
      obtain ⟨t, -, rfl⟩ := Option.map_eq_some_iff.mp hstep
      have hbeat : s.startBeat y sent ≠ .leaving x ↔ (y = x → sent = true) := by
        unfold startBeat
        by_cases hyx : y = x
        · subst hyx
          cases sent <;> simp [hp.unclosed, hp.attached]
        · cases sent <;> cases (s.conns y).closing <;> cases (s.conns y).attached <;> simp [hyx]
      constructor
      · rintro ⟨-, hout⟩
        exact hbeat.mp hout
      · intro hkeeps
        exact ⟨hp, hbeat.mpr hkeeps⟩
  | test =>
      simp only [Heartbeat.step] at hstep
      split at hstep
      swap
      · cases hstep
      rename_i y hsent
      obtain ⟨p, hcount, rfl⟩ := Option.map_eq_some_iff.mp hstep
      obtain rfl := Pulse.countSent_eq_some hcount
      by_cases hyx : y = x
      · subst hyx
        have horder : ({ s.conns y with sendPackage := (s.conns y).sendPackage + 1 } :
            Pulse).InOrder := ⟨hp.attached, hp.reading, hp.receiving, hp.unclosed⟩
        have hkeeps : Keeps y s .test ↔
            |(s.conns y).sendPackage + 1 - (s.conns y).recvPackage| ≤ kHeartbeatUnsyncWindow :=
          ⟨fun hk => hk hsent, fun hle _ => hle⟩
        rw [hkeeps]
        constructor
        · rintro ⟨-, hstay⟩
          by_contra hle
          apply hstay
          exact if_pos (decide_eq_true (not_le.mp hle))
        · intro hle
          have hsynced : ¬ Pulse.unsynced
              { s.conns y with sendPackage := (s.conns y).sendPackage + 1 } = true := by
            simpa [Pulse.unsynced] using hle
          refine ⟨by simpa [set] using horder, ?_⟩
          rw [if_neg hsynced]
          exact nofun
      · have hout : ¬ s.beat = .sent x := by simp [hsent, hyx]
        refine iff_of_true ⟨by simpa [set, Ne.symm hyx] using hp, ?_⟩ fun hx => absurd hx hout
        show (if _ then Beat.leaving y else .out) ≠ .leaving x
        split <;> simp [hyx]
  | leave =>
      simp only [Heartbeat.step] at hstep
      split at hstep
      swap
      · cases hstep
      rename_i y hleaving
      obtain rfl := Option.some.inj hstep
      have hyx : y ≠ x := by
        rintro rfl
        exact hb hleaving
      exact iff_of_true ⟨by simpa [set, Ne.symm hyx] using hp, nofun⟩ trivial
  | oobRecv y e =>
      obtain ⟨p, hrecv, rfl⟩ := Option.map_eq_some_iff.mp hstep
      by_cases hyx : y = x
      · subst hyx
        rw [sound_set_self hb, hp.oobRecv_iff hrecv]
        exact ⟨fun he _ => he, fun hkeeps => hkeeps rfl⟩
      · rw [sound_set_of_ne hyx]
        exact iff_of_true h fun hxy => absurd hxy hyx
  | readFails y =>
      simp only [Heartbeat.step] at hstep
      split at hstep <;> cases hstep
      by_cases hyx : y = x
      · subst hyx
        rw [sound_set_self hb]
        exact iff_of_false (fun hp' => absurd hp'.reading Bool.false_ne_true) fun hne => hne rfl
      · exact iff_of_true ((sound_set_of_ne hyx).mpr h) hyx
  | writing y b =>
      simp only [Heartbeat.step] at hstep
      split at hstep <;> cases hstep
      refine iff_of_true ?_ trivial
      by_cases hyx : y = x
      · subst hyx
        exact (sound_set_self hb).mpr ⟨hp.attached, hp.reading, hp.receiving, hp.unclosed⟩
      · exact (sound_set_of_ne hyx).mpr h
  | disconnect y =>
      simp only [Heartbeat.step] at hstep
      split at hstep <;> cases hstep
      by_cases hyx : y = x
      · subst hyx
        rw [sound_set_self hb]
        exact iff_of_false (fun hp' => absurd hp'.unclosed.symm Bool.false_ne_true)
          fun hne => hne rfl
      · exact iff_of_true ((sound_set_of_ne hyx).mpr h) hyx

/-- A connection that has been attached is never sound again after a fault. -/
theorem sound_of_step (hatt : (s.conns x).attached = true) (hstep : step s a = some s')
    (h : s'.Sound x) : s.Sound x := by
  obtain ⟨hp, hb⟩ := h
  cases a with
  | attach y =>
      simp only [step] at hstep
      split at hstep
      swap
      · cases hstep
      obtain ⟨p, hattach, rfl⟩ := Option.map_eq_some_iff.mp hstep
      have hyx : y ≠ x := by
        rintro rfl
        exact absurd ((Pulse.attach_eq_some hattach).1.symm.trans hatt) Bool.false_ne_true
      exact (Process.sound_set_of_ne hyx).mp ⟨hp, hb⟩
  | timer b =>
      simp only [step] at hstep
      split at hstep
      · obtain ⟨t, -, rfl⟩ := Option.map_eq_some_iff.mp hstep
        exact ⟨hp, hb⟩
      · cases hstep
  | expired slot y sent =>
      simp only [step] at hstep
      split at hstep
      · rename_i hout
        obtain ⟨t, -, rfl⟩ := Option.map_eq_some_iff.mp hstep
        exact ⟨hp, by rw [hout]; exact nofun⟩
      · cases hstep
  | test =>
      simp only [step] at hstep
      split at hstep
      swap
      · cases hstep
      rename_i y hsent
      obtain ⟨p, hcount, rfl⟩ := Option.map_eq_some_iff.mp hstep
      obtain rfl := Pulse.countSent_eq_some hcount
      refine ⟨?_, by rw [hsent]; exact nofun⟩
      by_cases hyx : y = x
      · subst hyx
        have hp' : ({ s.conns y with sendPackage := (s.conns y).sendPackage + 1 } :
            Pulse).InOrder := by simpa [Process.set] using hp
        exact ⟨hp'.attached, hp'.reading, hp'.receiving, hp'.unclosed⟩
      · simpa [Process.set, Ne.symm hyx] using hp
  | leave =>
      simp only [step] at hstep
      split at hstep
      swap
      · cases hstep
      rename_i y hleaving
      obtain rfl := Option.some.inj hstep
      by_cases hyx : y = x
      · subst hyx
        have hclosing := hp.unclosed
        simp [Process.set] at hclosing
      · refine ⟨by simpa [Process.set, Ne.symm hyx] using hp, ?_⟩
        rw [hleaving]
        exact fun heq => hyx (Beat.leaving.inj heq)
  | oobRecv y e =>
      obtain ⟨p, hrecv, rfl⟩ := Option.map_eq_some_iff.mp hstep
      by_cases hyx : y = x
      · subst hyx
        rw [Process.conns_set_self] at hp
        obtain ⟨-, ⟨-, rfl⟩ | ⟨-, rfl⟩⟩ := Pulse.oobRecv_eq_some hrecv
        · exact absurd hp.receiving Bool.false_ne_true
        · exact ⟨⟨hp.attached, hp.reading, hp.receiving, hp.unclosed⟩, hb⟩
      · exact (Process.sound_set_of_ne hyx).mp ⟨hp, hb⟩
  | readFails y | writing y b | disconnect y =>
      simp only [step] at hstep
      split at hstep <;> cases hstep
      by_cases hyx : y = x
      · subst hyx
        rw [Process.conns_set_self] at hp
        first
          | exact absurd hp.reading Bool.false_ne_true
          | exact absurd hp.unclosed.symm Bool.false_ne_true
          | exact ⟨⟨hp.attached, hp.reading, hp.receiving, hp.unclosed⟩, hb⟩
      · exact (Process.sound_set_of_ne hyx).mp ⟨hp, hb⟩

/-- An event attaches the connection, or leaves it as attached as it is; the counters
move at the comparison and at the bytes that are counted. -/
theorem conns_of_step (hstep : step s a = some s') :
    (a = .attach x ∧ s.timers.live x = true ∧ (s.conns x).attach = some (s'.conns x)) ∨
      ((s'.conns x).attached = (s.conns x).attached ∧
        (s'.conns x).sendPackage = (s.conns x).sendPackage + bytesTested x s a ∧
        (s'.conns x).recvPackage = (s.conns x).recvPackage + bytesCounted x s a) := by
  have hsame : ∀ p : Pulse, p = s.conns x → p.attached = (s.conns x).attached ∧
      p.sendPackage = (s.conns x).sendPackage + ((0 : ℕ) : ℤ) ∧
        p.recvPackage = (s.conns x).recvPackage + ((0 : ℕ) : ℤ) := by
    rintro p rfl
    exact ⟨rfl, (add_zero _).symm, (add_zero _).symm⟩
  cases a with
  | attach y =>
      simp only [step] at hstep
      split at hstep
      swap
      · cases hstep
      rename_i hlive
      obtain ⟨p, hattach, rfl⟩ := Option.map_eq_some_iff.mp hstep
      by_cases hyx : y = x
      · subst hyx
        exact Or.inl ⟨rfl, hlive, by rwa [Process.conns_set_self]⟩
      · exact Or.inr (hsame _ (Process.conns_set_of_ne s hyx p))
  | timer b | expired slot y sent =>
      simp only [step] at hstep
      split at hstep
      · obtain ⟨t, -, rfl⟩ := Option.map_eq_some_iff.mp hstep
        exact Or.inr (hsame _ rfl)
      · cases hstep
  | test =>
      right
      simp only [step] at hstep
      split at hstep
      swap
      · cases hstep
      rename_i y hsent
      obtain ⟨p, hcount, rfl⟩ := Option.map_eq_some_iff.mp hstep
      obtain rfl := Pulse.countSent_eq_some hcount
      by_cases hyx : y = x
      · subst hyx
        simp [Process.set, hsent, bytesTested, bytesCounted]
      · simp [Process.set, hsent, hyx, Ne.symm hyx, bytesTested, bytesCounted]
  | leave =>
      right
      simp only [step] at hstep
      split at hstep <;> cases hstep
      rename_i y _
      by_cases hyx : y = x
      · subst hyx
        simp [Process.set, bytesTested, bytesCounted]
      · simp [Process.set, Ne.symm hyx, bytesTested, bytesCounted]
  | oobRecv y e =>
      right
      obtain ⟨p, hrecv, rfl⟩ := Option.map_eq_some_iff.mp hstep
      by_cases hyx : y = x
      · subst hyx
        rw [Process.conns_set_self]
        obtain ⟨-, ⟨hlast, rfl⟩ | ⟨hcounted, rfl⟩⟩ := Pulse.oobRecv_eq_some hrecv
        · have hnone : bytesCounted y s (.oobRecv y e) = 0 := by
            cases e with
            | false => simpa [bytesCounted] using hlast
            | true => rfl
          rw [hnone]
          exact ⟨rfl, (add_zero _).symm, (add_zero _).symm⟩
        · obtain ⟨hclosing, rfl⟩ := Bool.or_eq_false_iff.mp hcounted
          simp [bytesTested, bytesCounted, hclosing]
      · have hnone : bytesCounted x s (.oobRecv y e) = 0 := by
          cases e <;> simp [bytesCounted, hyx]
        rw [hnone]
        exact hsame _ (Process.conns_set_of_ne s hyx p)
  | readFails y | writing y b | disconnect y =>
      right
      simp only [step] at hstep
      split at hstep <;> cases hstep
      by_cases hyx : y = x
      · subst hyx
        simp [bytesTested, bytesCounted]
      · exact hsame _ (Process.conns_set_of_ne s hyx _)

theorem counters_of_step (hatt : (s.conns x).attached = true) (hstep : step s a = some s') :
    (s'.conns x).attached = true ∧
      (s'.conns x).sendPackage = (s.conns x).sendPackage + bytesTested x s a ∧
      (s'.conns x).recvPackage = (s.conns x).recvPackage + bytesCounted x s a := by
  obtain ⟨-, -, hattach⟩ | ⟨hsame, hcounters⟩ := conns_of_step (x := x) hstep
  · exact absurd ((Pulse.attach_eq_some hattach).1.symm.trans hatt) Bool.false_ne_true
  · exact ⟨hsame.trans hatt, hcounters⟩

theorem Process.startBeat_eq_sent {sent : Bool} :
    s.startBeat y sent = .sent x ↔
      sent = true ∧ y = x ∧ (s.conns x).attached = true ∧ (s.conns x).closing = false := by
  unfold startBeat
  by_cases hyx : y = x
  · subst hyx
    cases sent <;> cases (s.conns y).closing <;> cases (s.conns y).attached <;> simp
  · cases sent <;> cases (s.conns y).closing <;> cases (s.conns y).attached <;> simp [hyx]

/-- What is past the `send` is counted by the comparison. -/
theorem beat_of_step (hstep : step s a = some s') :
    (if s'.beat = .sent x then 1 else 0) + bytesTested x s a =
      (if s.beat = .sent x then 1 else 0) + bytesSent x s a := by
  cases a with
  | expired slot y sent =>
      simp only [step] at hstep
      split at hstep
      swap
      · cases hstep
      rename_i hout
      obtain ⟨t, -, rfl⟩ := Option.map_eq_some_iff.mp hstep
      show (if s.startBeat y sent = .sent x then 1 else 0) + 0 = _
      rw [hout]
      cases sent <;> simp [Process.startBeat_eq_sent, bytesSent]
  | test =>
      simp only [step] at hstep
      split at hstep
      swap
      · cases hstep
      rename_i y hsent
      obtain ⟨p, -, rfl⟩ := Option.map_eq_some_iff.mp hstep
      have hgone : ¬ (if p.unsynced then Beat.leaving y else .out) = .sent x := by
        split <;> exact nofun
      show (if _ = _ then 1 else 0) + _ = _ + 0
      rw [if_neg hgone, Nat.zero_add]
      rfl
  | leave =>
      simp only [step] at hstep
      split at hstep <;> cases hstep
      rename_i y hleaving
      simp [hleaving, bytesTested, bytesSent]
  | attach y | timer b =>
      simp only [step] at hstep
      split at hstep
      · obtain ⟨p, -, rfl⟩ := Option.map_eq_some_iff.mp hstep
        rfl
      · cases hstep
  | oobRecv y e =>
      obtain ⟨p, -, rfl⟩ := Option.map_eq_some_iff.mp hstep
      rfl
  | readFails y | writing y b | disconnect y =>
      simp only [step] at hstep
      split at hstep <;> cases hstep
      rfl

theorem sentBytes_of_step (hatt : (s.conns x).attached = true) (hstep : step s a = some s') :
    s'.sentBytes x = s.sentBytes x + bytesSent x s a := by
  have hsend := (counters_of_step hatt hstep).2.1
  have hbeat := beat_of_step (x := x) hstep
  unfold Process.sentBytes
  rw [hsend]
  omega

end Step

/-! ### One connection over whole runs -/

section Run

variable {s s' : Process τ} {a : Event τ} {x : τ} {c : Calendar τ} {n : ℕ} {r : ℤ}

/-- The calendar that goes with a process takes part in each of its steps. -/
theorem exists_calendar (h : Refines s.timers c) (hstep : step s a = some s') :
    ∃ c', Refines s'.timers c' ∧ match a.shown with
      | some b => Calendar.step c b = some c'
      | none => c' = c := by
  have hshown := shown_of_step hstep
  cases hb : a.shown with
  | none =>
      rw [hb] at hshown
      exact ⟨c, hshown ▸ h, rfl⟩
  | some b =>
      rw [hb] at hshown
      obtain ⟨c', hc', href⟩ := h.step hshown
      exact ⟨c', href, hc'⟩

omit [DecidableEq τ] in
theorem shown_eq_register {y : τ} {d : ℤ} (h : a.shown = some (.register y d)) :
    a = .timer (.register y d) := by
  cases a <;> cases h
  rfl

/-- A sound connection is a periodic timer and is not destroyed. -/
theorem Process.Sound.answers (h : s.Sound x) {b : Timer.Event τ} (hb : a.shown = some b)
    (hstep : Heartbeat.step s a = some s') :
    Calendar.Constant x kTimeoutSec true b ∧ b ≠ .release x := by
  cases a with
  | timer b' =>
      obtain rfl : b' = b := Option.some.inj hb
      have hanswers : s.Answers b' := by
        by_contra hnot
        simp [Heartbeat.step, hnot] at hstep
      constructor
      · cases b' with
        | rearm m y p t =>
            rintro rfl
            obtain ⟨-, rfl, rfl⟩ := hanswers
            exact ⟨h.inOrder.isConnected, fun _ => rfl⟩
        | _ => trivial
      · rintro rfl
        exact absurd (hanswers.symm.trans h.inOrder.isConnected) Bool.false_ne_true
  | expired slot y sent =>
      obtain rfl : Timer.Event.expired slot y = b := Option.some.inj hb
      exact ⟨trivial, nofun⟩
  | attach y | test | leave | oobRecv y e | readFails y | writing y e | disconnect y => cases hb

/-- Before connection `x` is registered, no heartbeat of it has been sent. -/
structure Unwatched (x : τ) (s : Process τ) (c : Calendar τ) : Prop where
  refines : Refines s.timers c
  fresh : c.Fresh
  absent : c.Everywhere fun _ y => y ≠ x
  idle : s.beat ≠ .sent x
  sendPackage : (s.conns x).sendPackage = 0
  recvPackage : 0 ≤ (s.conns x).recvPackage
  live : s.Sound x → c.live x = true

omit [DecidableEq τ] in
theorem unwatched_init : Unwatched x (Process.init : Process τ) Calendar.init :=
  ⟨refines_init, Calendar.fresh_init, Calendar.everywhere_init _, nofun, rfl, le_rfl,
    fun _ => rfl⟩

theorem Unwatched.step (h : Unwatched x s c) (ha : ∀ t, a ≠ .timer (.register x t))
    (hstep : Heartbeat.step s a = some s') : ∃ c', Unwatched x s' c' := by
  obtain ⟨c', href, hc'⟩ := exists_calendar h.refines hstep
  have hgrow : c'.Fresh ∧ c'.Everywhere fun _ y => y ≠ x := by
    cases hb : a.shown with
    | none =>
        rw [hb] at hc'
        obtain rfl := hc'
        exact ⟨h.fresh, h.absent⟩
    | some b =>
        rw [hb] at hc'
        refine ⟨h.fresh.step hc', h.absent.step ?_ hc'⟩
        rintro y d rfl -
        rintro rfl
        exact ha d (shown_eq_register hb)
  -- `Expired` is not called on a timer that is not registered
  have hnone : bytesSent x s a = 0 := by
    cases a with
    | expired slot y sent =>
        rcases Calendar.calls_of_step hc' with ⟨m, z, heq, hmem, -⟩ | ⟨hnot, -⟩
        · cases heq
          have hyx : y ≠ x := h.absent.toCall _ hmem
          cases sent <;> simp [bytesSent, hyx]
        · exact absurd rfl (hnot slot y)
    | attach y | timer b | test | leave | oobRecv y e | readFails y | writing y e
    | disconnect y => rfl
  have hbeat := beat_of_step (x := x) hstep
  rw [if_neg h.idle, hnone] at hbeat
  have htested : bytesTested x s a = 0 := by omega
  have hidle : s'.beat ≠ .sent x := by
    intro hsent
    rw [if_pos hsent] at hbeat
    omega
  have hlive' : c.live x = true → s.Sound x → c'.live x = true := by
    intro hlive hsound
    cases hb : a.shown with
    | none =>
        rw [hb] at hc'
        obtain rfl := hc'
        exact hlive
    | some b =>
        rw [hb] at hc'
        exact (Calendar.live_of_step_of_ne (hsound.answers hb hstep).2 hc').trans hlive
  rcases conns_of_step (x := x) hstep with ⟨rfl, hlive, hattach⟩ | ⟨hatt, hsend, hrecv⟩
  · obtain ⟨-, -, hfresh⟩ := Pulse.attach_eq_some hattach
    obtain rfl : c' = c := hc'
    refine ⟨c', href, hgrow.1, hgrow.2, hidle, by rw [hfresh], by rw [hfresh], fun _ => ?_⟩
    rwa [h.refines.live]
  · refine ⟨c', href, hgrow.1, hgrow.2, hidle, ?_, ?_, fun hsound' => ?_⟩
    · rw [hsend, htested, h.sendPackage]
      rfl
    · have := h.recvPackage
      omega
    · have hsound := sound_of_step (hatt ▸ hsound'.inOrder.attached) hstep hsound'
      exact hlive' (h.live hsound) hsound

/-- What holds of a sound connection that is registered under number `n` since
jiffy `r`. -/
structure Beating (n : ℕ) (x : τ) (r : ℤ) (s : Process τ) (c : Calendar τ) : Prop where
  tracked : c.Tracked n x r kTimeoutSec true
  live : c.live x = true
  beats : s.sentBytes x = (Calendar.callsOf n c.calls).length
  window : (s.conns x).sendPackage ≤ (s.conns x).recvPackage + kHeartbeatUnsyncWindow
  onTime : s.beat = .sent x → DueOn r kTimeoutSec true c.served ∧ (n, x) ∉ c.toCall

structure Watched (n : ℕ) (x : τ) (r : ℤ) (s : Process τ) (c : Calendar τ) : Prop where
  refines : Refines s.timers c
  attached : (s.conns x).attached = true
  known : n < c.nextSlot
  only : c.Everywhere fun m y => y = x ↔ m = n
  beating : s.Sound x → Beating n x r s c

/-- The calls of a sound connection are the bytes that it sends. -/
theorem callsOf_of_step (hsound : s.Sound x) (hkeeps : Keeps x s a)
    (hstep : Heartbeat.step s a = some s')
    (honly : c.Everywhere fun m y => y = x ↔ m = n) {c' : Calendar τ}
    (hc' : match a.shown with | some b => Calendar.step c b = some c' | none => c' = c) :
    (Calendar.callsOf n c'.calls).length =
      (Calendar.callsOf n c.calls).length + bytesSent x s a := by
  cases a with
  | expired slot y sent =>
      rcases Calendar.calls_of_step hc' with ⟨m, z, heq, hmem, hcalls⟩ | ⟨hnot, -⟩
      swap
      · exact absurd rfl (hnot slot y)
      cases heq
      have hpair : y = x ↔ slot = n := honly.toCall _ hmem
      rw [hcalls, Calendar.callsOf, List.filter_append, List.length_append]
      congr 1
      by_cases hyx : y = x
      · obtain rfl : sent = true := hkeeps hyx
        simp [bytesSent, hyx, hpair.mp hyx, hsound.inOrder.attached, hsound.inOrder.unclosed]
      · have hslot : slot ≠ n := fun heq => hyx (hpair.mpr heq)
        cases sent <;> simp [bytesSent, hyx, hslot]
  | timer b =>
      rcases Calendar.calls_of_step hc' with ⟨m, z, rfl, -, -⟩ | ⟨-, hcalls⟩
      · simp [Heartbeat.step, Process.Answers] at hstep
      · rw [hcalls]
        rfl
  | attach y | test | leave | oobRecv y e | readFails y | writing y e | disconnect y =>
      obtain rfl := hc'
      rfl

/-- The timer thread stays at the jiffy of the heartbeat that it is about. -/
theorem calendar_of_beat (hbeat : s.beat = .sent x) (hstep : Heartbeat.step s a = some s')
    {c' : Calendar τ}
    (hc' : match a.shown with | some b => Calendar.step c b = some c' | none => c' = c) :
    c'.served = c.served ∧ c'.toCall = c.toCall := by
  have hbusy : ¬ s.beat = .out := by
    rw [hbeat]
    exact nofun
  cases a with
  | timer b =>
      have hanswers : s.Answers b := by
        by_contra hnot
        simp [Heartbeat.step, hnot] at hstep
      cases b with
      | register y t | release y =>
          simp only [Event.shown, Calendar.step] at hc'
          split at hc' <;> cases hc'
          all_goals exact ⟨rfl, rfl⟩
      | rearm m y p t => exact absurd hanswers.1 hbusy
      | expired m y => exact hanswers.elim
      | update j | take | tick | called | next | «return» => exact absurd hanswers hbusy
  | expired slot y sent => simp [Heartbeat.step, hbusy] at hstep
  | attach y | test | leave | oobRecv y e | readFails y | writing y e | disconnect y =>
      obtain rfl := hc'
      exact ⟨rfl, rfl⟩

theorem sent_of_step (hstep : Heartbeat.step s a = some s') (h : s'.beat = .sent x) :
    s.beat = .sent x ∨ ∃ slot, a = .expired slot x true := by
  have hbeat := beat_of_step (x := x) hstep
  rw [if_pos h] at hbeat
  by_cases hs : s.beat = .sent x
  · exact Or.inl hs
  · rw [if_neg hs] at hbeat
    have hpos : bytesSent x s a ≠ 0 := by omega
    unfold bytesSent at hpos
    split at hpos
    · rename_i slot y
      split at hpos
      · rename_i hopen
        exact Or.inr ⟨slot, hopen.1 ▸ rfl⟩
      · exact absurd rfl hpos
    · exact absurd rfl hpos

theorem Watched.step (h : Watched n x r s c) (ha : ∀ t, a ≠ .timer (.register x t))
    (hstep : Heartbeat.step s a = some s') : ∃ c', Watched n x r s' c' := by
  obtain ⟨c', href, hc'⟩ := exists_calendar h.refines hstep
  obtain ⟨hatt, hsend, hrecv⟩ := counters_of_step h.attached hstep
  have hgrow : n < c'.nextSlot ∧ c'.Everywhere fun m y => y = x ↔ m = n := by
    cases hb : a.shown with
    | none =>
        rw [hb] at hc'
        obtain rfl := hc'
        exact ⟨h.known, h.only⟩
    | some b =>
        rw [hb] at hc'
        refine ⟨h.known.trans_le (Calendar.nextSlot_le_of_step hc').1, h.only.step ?_ hc'⟩
        rintro y d rfl -
        have hyx : y ≠ x := by
          rintro rfl
          exact ha d (shown_eq_register hb)
        exact iff_of_false hyx h.known.ne'
  refine ⟨c', href, hatt, hgrow.1, hgrow.2, fun hsound' => ?_⟩
  have hsound := sound_of_step h.attached hstep hsound'
  have hkeeps := (hsound.step_iff hstep).mp hsound'
  obtain ⟨htrack, hlive, hbeats, hwindow, honTime⟩ := h.beating hsound
  have hentry : c'.Tracked n x r kTimeoutSec true ∧ c'.live x = true := by
    cases hb : a.shown with
    | none =>
        rw [hb] at hc'
        obtain rfl := hc'
        exact ⟨htrack, hlive⟩
    | some b =>
        rw [hb] at hc'
        obtain ⟨hconst, hrelease⟩ := hsound.answers hb hstep
        exact ⟨htrack.step (by decide) hconst hc' hlive,
          (Calendar.live_of_step_of_ne hrelease hc').trans hlive⟩
  refine ⟨hentry.1, hentry.2, ?_, ?_, fun hsent => ?_⟩
  · have hsent := sentBytes_of_step h.attached hstep
    have hcalls := callsOf_of_step hsound hkeeps hstep h.only hc'
    omega
  · cases a with
    | test =>
        by_cases hsent : s.beat = .sent x
        · have hle := (abs_le.mp (hkeeps hsent)).2
          have hone : bytesTested x s .test = 1 := if_pos hsent
          rw [hsend, hrecv, hone]
          push_cast
          omega
        · have hnone : bytesTested x s .test = 0 := if_neg hsent
          rw [hsend, hrecv, hnone]
          omega
    | attach y | timer b | expired slot y sent | leave | oobRecv y e | readFails y
    | writing y e | disconnect y =>
        rw [hsend, hrecv]
        show _ + ((0 : ℕ) : ℤ) ≤ _
        omega
  · rcases sent_of_step hstep hsent with hbeat | ⟨slot, rfl⟩
    · obtain ⟨hserved, hcall⟩ := calendar_of_beat hbeat hstep hc'
      rw [hserved, hcall]
      exact honTime hbeat
    · rcases Calendar.calls_of_step hc' with ⟨m, y, heq, hmem, -⟩ | ⟨hnot, -⟩
      · cases heq
        obtain rfl : slot = n := (h.only.toCall _ hmem).mp rfl
        exact htrack.dueOn_of_expired hc'
      · exact absurd rfl (hnot slot x)

/-- The registration of a sound connection. -/
theorem Unwatched.register (h : Unwatched x s c) (hsound : s.Sound x)
    (hstep : Heartbeat.step s (.timer (.register x kTimeoutSec)) = some s') :
    ∃ c', Watched s.timers.nextSlot x s.timers.master.timerJiffies s' c' := by
  obtain ⟨c', href, hc'⟩ := exists_calendar h.refines hstep
  obtain ⟨hatt, hsend, hrecv⟩ := counters_of_step hsound.inOrder.attached hstep
  have hlive := h.live hsound
  have htrack := h.fresh.tracked_register hlive (by decide) true hc'
  have honly : c'.Everywhere fun m y => y = x ↔ m = c.nextSlot := by
    have hpairs : c.Everywhere fun m y => y = x ↔ m = c.nextSlot := by
      refine ⟨fun e he => ?_, fun q hq => ?_, fun q hq => ?_, fun q hq => ?_⟩
      · exact iff_of_false (h.absent.entries e he) (h.fresh.numbers.entries e he).ne
      · exact iff_of_false (h.absent.toCall q hq) (h.fresh.numbers.toCall q hq).ne
      · exact iff_of_false (h.absent.toRearm q hq) (h.fresh.numbers.toRearm q hq).ne
      · exact iff_of_false (h.absent.calls q hq) (h.fresh.numbers.calls q hq).ne
    refine hpairs.step ?_ hc'
    rintro y d heq -
    cases heq
    exact iff_of_true rfl rfl
  rw [← h.refines.nextSlot, ← h.refines.clock]
  refine ⟨c', href, hatt, (Calendar.nextSlot_le_of_step hc').2 x kTimeoutSec rfl hlive, honly,
    fun _ => ⟨htrack, ?_, ?_, ?_, fun hsent => ?_⟩⟩
  · have hkept : Timer.Event.register x kTimeoutSec ≠ .release x := nofun
    exact (Calendar.live_of_step_of_ne hkept hc').trans hlive
  · have hsent := sentBytes_of_step hsound.inOrder.attached hstep
    have hzero : s.sentBytes x = 0 := by
      rw [Process.sentBytes, h.sendPackage, if_neg h.idle]
      rfl
    have hcalls : c'.calls = c.calls := by
      rcases Calendar.calls_of_step hc' with ⟨m, y, heq, -, -⟩ | ⟨-, hcalls⟩
      · cases heq
      · exact hcalls
    have hnone : Calendar.callsOf c.nextSlot c'.calls = [] := by
      rw [hcalls]
      exact List.filter_eq_nil_iff.mpr fun q hq => by
        simpa using (h.fresh.numbers.calls q hq).ne
    rw [hsent, hzero, hnone]
    rfl
  · have hnonneg := h.recvPackage
    have hzero := h.sendPackage
    rw [hsend, hrecv]
    show _ + ((0 : ℕ) : ℤ) ≤ _ + ((0 : ℕ) : ℤ) + 2
    omega
  · rcases sent_of_step hstep hsent with hbeat | ⟨slot, heq⟩
    · exact absurd hbeat h.idle
    · cases heq

/-- After `k` jiffies one byte has been sent for each period, the one apart that is due
now and still to be sent. -/
theorem Beating.sentBytes (h : Beating n x r s c) {k : ℕ} (hk : c.served = r + k) :
    s.sentBytes x = (k / 30 : ℕ) ∧ (n, x) ∉ c.toCall ∨
      s.sentBytes x + 1 = (k / 30 : ℕ) ∧ k % 30 = 0 ∧ (n, x) ∈ c.toCall := by
  have hlength : (schedule r kTimeoutSec true (r + k)).length = k / 30 := length_schedule r 30 k
  have hcalls := congrArg List.length h.tracked.calls
  rw [List.length_append, List.length_map, hk, hlength] at hcalls
  have hbeats := h.beats
  by_cases hmem : (n, x) ∈ c.toCall
  · right
    rw [if_pos hmem, List.length_singleton] at hcalls
    refine ⟨by omega, ?_, hmem⟩
    cases h.tracked.place with
    | waiting _ _ _ _ hcall => exact absurd hmem (Calendar.not_mem_of_filter hcall)
    | gone hperiod => cases hperiod
    | taken hdue =>
        have hdvd := hdue.2
        rw [if_pos rfl, hk, add_sub_cancel_left] at hdvd
        unfold kTimeoutSec at hdvd
        omega
  · left
    rw [if_neg hmem, List.length_nil] at hcalls
    exact ⟨by omega, hmem⟩

variable {es es₁ es₂ : List (Event τ)} {s₁ : Process τ}

theorem unwatched_run (ha : ∀ t, .timer (.register x t) ∉ es)
    (hrun : Machine.run step .init es = some s) : ∃ c, Unwatched x s c :=
  Machine.run_invariant_of_forall (I := fun s => ∃ c, Unwatched x s c)
    (P := fun a => ∀ t, a ≠ .timer (.register x t))
    (fun _ _ _ ha ⟨_, h⟩ hstep => h.step ha hstep)
    (fun a has t (hat : a = .timer (.register x t)) => ha t (by rwa [← hat]))
    ⟨_, unwatched_init⟩ hrun

theorem Watched.run (h : Watched n x r s c) (ha : ∀ t, .timer (.register x t) ∉ es)
    (hrun : Machine.run Heartbeat.step s es = some s') : ∃ c', Watched n x r s' c' :=
  Machine.run_invariant_of_forall (I := fun s => ∃ c, Watched n x r s c)
    (P := fun a => ∀ t, a ≠ .timer (.register x t))
    (fun _ _ _ ha ⟨_, h⟩ hstep => h.step ha hstep)
    (fun a has t (hat : a = .timer (.register x t)) => ha t (by rwa [← hat])) ⟨c, h⟩ hrun

/-- A connection that is registered once, at `s₁`, is watched from then on. -/
theorem watched_run (hrun₁ : Machine.run step .init es₁ = some s₁) (hsound : s₁.Sound x)
    (honce : ∀ t, .timer (.register x t) ∉ es₁ ++ es₂)
    (hrun : Machine.run step s₁ (.timer (.register x kTimeoutSec) :: es₂) = some s) :
    ∃ c, Watched s₁.timers.nextSlot x s₁.timers.master.timerJiffies s c := by
  obtain ⟨c₁, hun⟩ := unwatched_run (fun t ht => honce t (List.mem_append_left _ ht)) hrun₁
  obtain ⟨s₂, hreg, hrest⟩ := (Machine.run_cons_eq_some _).mp hrun
  obtain ⟨c₂, hwatched⟩ := hun.register hsound hreg
  exact hwatched.run (fun t ht => honce t (List.mem_append_right _ ht)) hrest

/-- The bytes a connection counts while it stays sound are those that arrive. -/
theorem recvPackage_of_run (hatt : (s.conns x).attached = true)
    (hrun : Machine.run step s es = some s') (hsound : s'.Sound x) :
    (s'.conns x).recvPackage = (s.conns x).recvPackage + arrivals x es := by
  suffices hhistory : (s'.conns x).attached = true ∧ (s'.Sound x →
      (s'.conns x).recvPackage = (s.conns x).recvPackage + arrivals x es) from
    hhistory.2 hsound
  refine Machine.run_history (P := fun as t => (t.conns x).attached = true ∧ (t.Sound x →
    (t.conns x).recvPackage = (s.conns x).recvPackage + arrivals x as))
    ⟨hatt, fun _ => (add_zero _).symm⟩ ?_ hrun
  · rintro as t a t' - ⟨hatt, hcount⟩ hstep
    obtain ⟨hatt', -, hrecv⟩ := counters_of_step hatt hstep
    refine ⟨hatt', fun hsound' => ?_⟩
    have hsound := sound_of_step hatt hstep hsound'
    have hone : bytesCounted x t a = [a].count (.oobRecv x false) := by
      cases a with
      | oobRecv y e =>
          by_cases hyx : y = x
          · subst hyx
            cases e <;> simp [bytesCounted, hsound.inOrder.unclosed]
          · cases e <;> simp [bytesCounted, hyx]
      | attach y | timer b | expired slot y sent | test | leave | readFails y | writing y e
      | disconnect y => simp [bytesCounted]
    rw [hrecv, hcount hsound, hone, arrivals, arrivals, List.count_append]
    push_cast
    ring

/-- A connection is sound just as long as no event does it harm; until then it sends a
byte at each jiffy of its schedule. -/
theorem run_heartbeats (hrun₁ : Machine.run step .init es₁ = some s₁) (hsound : s₁.Sound x)
    (honce : ∀ t, .timer (.register x t) ∉ es₁ ++ es₂)
    (hrun : Machine.run step s₁ (.timer (.register x kTimeoutSec) :: es₂) = some s) :
    (s.Sound x ↔
        Machine.Along step (Keeps x) s₁ (.timer (.register x kTimeoutSec) :: es₂)) ∧
      (s.Sound x →
        Calendar.callsOf s₁.timers.nextSlot s.timers.calls ++
            s.timers.owed s₁.timers.nextSlot =
          (schedule s₁.timers.master.timerJiffies kTimeoutSec true s.timers.served).map
            (⟨·, s₁.timers.nextSlot, x⟩) ∧
        s.sentBytes x = (Calendar.callsOf s₁.timers.nextSlot s.timers.calls).length ∧
        (s.conns x).recvPackage = (s₁.conns x).recvPackage + arrivals x es₂) := by
  have hatt := hsound.inOrder.attached
  constructor
  · have hiff : Machine.Along step (Keeps x) s₁ _ ↔ ¬ ¬ s.Sound x := Machine.along_iff_not
      (I := fun s => (s.conns x).attached = true) (J := fun s => ¬ s.Sound x)
      (fun s a s' h hstep => (counters_of_step h hstep).1)
      (fun s a s' h hnot hstep => not_congr ((not_not.mp hnot).step_iff hstep))
      (fun s a s' h hnot hstep hsound' => hnot (sound_of_step h hstep hsound'))
      hatt (not_not.mpr hsound) hrun
    rw [hiff, not_not]
  · intro hend
    obtain ⟨c, hwatched⟩ := watched_run hrun₁ hsound honce hrun
    obtain ⟨htrack, -, hbeats, -, -⟩ := hwatched.beating hend
    have href := hwatched.refines
    have hcalls := htrack.calls
    rw [← owed_eq (refines_iff.mp href) htrack, href.calls, href.served] at hcalls
    refine ⟨hcalls, by rw [hbeats, href.calls], ?_⟩
    have hother : Event.timer (.register x kTimeoutSec) ≠ .oobRecv x false := nofun
    rw [recvPackage_of_run hatt hrun hend, arrivals, List.count_cons_of_ne hother]
    rfl

end Run

/-- A jiffy at which nothing is due. -/
def quietJiffy : List (Event ℕ) := [.timer .take, .timer .tick, .timer .called, .timer .next]

/-- A jiffy at which connection 7 sends a heartbeat. -/
def beatJiffy : List (Event ℕ) :=
  [.timer .take, .timer .tick, .expired 0 7 true, .test, .timer .called,
    .timer (.rearm 0 7 true kTimeoutSec), .timer .next]

/-- The first heartbeat of a connection registered at jiffy 1. -/
def firstBeat : List (Event ℕ) :=
  .timer (.update 31) :: ((List.replicate 30 quietJiffy).flatten ++ beatJiffy)

/-- Connection 7 after `Attach`. -/
def attached : Process ℕ :=
  Process.init.set 7 { attached := true, reading := true, receiving := true }

theorem run_attach : Machine.run step Process.init [.attach 7] = some attached := rfl

theorem sound_attached : attached.Sound 7 := ⟨⟨rfl, rfl, rfl, rfl⟩, nofun⟩

theorem firstBeat_once (t : ℤ) : Event.timer (.register 7 t) ∉ [.attach 7] ++ firstBeat := by
  simp [firstBeat, quietJiffy, beatJiffy]

theorem exists_run_firstBeat :
    ∃ s : Process ℕ, Machine.run step attached (.timer (.register 7 kTimeoutSec) :: firstBeat) =
      some s ∧ s.Sound 7 ∧ s.beat = .out ∧ s.timers.owed 0 = [] ∧ s.timers.served = 31 := by
  have hend : (Machine.run step attached (.timer (.register 7 kTimeoutSec) :: firstBeat)).map
      (fun s => (s.conns 7, s.beat, s.timers.owed 0, s.timers.served)) =
      some ({ attached.conns 7 with sendPackage := 1 }, .out, [], 31) := by decide +kernel
  obtain ⟨s, hs, heq⟩ := Option.map_eq_some_iff.mp hend
  simp only [Prod.mk.injEq] at heq
  obtain ⟨hpulse, hbeat, howed, hserved⟩ := heq
  refine ⟨s, hs, ⟨?_, by rw [hbeat]; exact nofun⟩, hbeat, howed, hserved⟩
  rw [hpulse]
  exact ⟨rfl, rfl, rfl, rfl⟩

/-- The call at jiffy 31 and nothing else. -/
theorem run_heartbeats_first_beat :
    ∃ s : Process ℕ, Machine.run step attached
        (.timer (.register 7 kTimeoutSec) :: firstBeat) = some s ∧
      Machine.Along step (Keeps 7) attached (.timer (.register 7 kTimeoutSec) :: firstBeat) ∧
      Calendar.callsOf 0 s.timers.calls = [⟨31, 0, 7⟩] := by
  obtain ⟨s, hs, hsound, -, howed, hserved⟩ := exists_run_firstBeat
  have hall := run_heartbeats run_attach sound_attached firstBeat_once hs
  refine ⟨s, hs, hall.1.mp hsound, ?_⟩
  have hcalls : Calendar.callsOf 0 s.timers.calls ++ s.timers.owed 0 =
      (schedule 1 kTimeoutSec true s.timers.served).map (⟨·, 0, 7⟩) := (hall.2 hsound).1
  rw [howed, hserved, List.append_nil] at hcalls
  rw [hcalls]
  decide

section Run

variable {s : Process τ} {x : τ} {es₁ es₂ : List (Event τ)} {s₁ : Process τ}

/-- A connection that is sound, and whose calls are done, has received a byte in the time
that the window leaves: one whose peer falls silent is not sound for longer. -/
theorem run_silence (hrun₁ : Machine.run step .init es₁ = some s₁) (hsound : s₁.Sound x)
    (honce : ∀ t, .timer (.register x t) ∉ es₁ ++ es₂)
    (hrun : Machine.run step s₁ (.timer (.register x kTimeoutSec) :: es₂) = some s)
    (howed : s.timers.owed s₁.timers.nextSlot = []) (hout : s.beat ≠ .sent x) (hend : s.Sound x) :
    s.timers.served < s₁.timers.master.timerJiffies +
      kTimeoutSec * ((s.conns x).recvPackage + kHeartbeatUnsyncWindow + 1) := by
  obtain ⟨c, hwatched⟩ := watched_run hrun₁ hsound honce hrun
  have hbeating := hwatched.beating hend
  have href := hwatched.refines
  have hwindow := hbeating.window
  have hpending : s.sentBytes x = (s.conns x).sendPackage := by
    rw [Process.sentBytes, if_neg hout]
    exact add_zero _
  unfold kTimeoutSec kHeartbeatUnsyncWindow at *
  rcases le_total s.timers.served s₁.timers.master.timerJiffies with hle | hle
  · have hnonneg := hbeating.beats
    omega
  · obtain ⟨k, hk⟩ := Int.le.dest hle
    rcases hbeating.sentBytes (href.served.trans hk.symm) with ⟨hsent, -⟩ | ⟨-, -, hmem⟩
    · omega
    · -- the call would be owed
      have hcalls := owed_eq (refines_iff.mp href) hbeating.tracked
      rw [howed, if_pos hmem] at hcalls
      cases hcalls

end Run

/-- Without any byte of its peer the connection is sound after one heartbeat. -/
theorem run_silence_first_beat :
    ∃ s : Process ℕ, Machine.run step attached
        (.timer (.register 7 kTimeoutSec) :: firstBeat) = some s ∧
      s.timers.served <
        1 + kTimeoutSec * ((s.conns 7).recvPackage + kHeartbeatUnsyncWindow + 1) := by
  obtain ⟨s, hs, hsound, hout, howed, -⟩ := exists_run_firstBeat
  exact ⟨s, hs, run_silence run_attach sound_attached firstBeat_once hs howed
    (by rw [hout]; exact nofun) hsound⟩

end Tt3d.Network.Heartbeat
