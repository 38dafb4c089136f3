import Tt3d.Network.Heartbeat

/-!
The heartbeats between two processes.

Both ends of a connection bear one name. A byte out of band is on the wire
until the other end receives it, or is lost there. When the clocks of the two
timer masters run in step and the wire is quick enough, no end ever finds the
counters apart.
-/

namespace Tt3d.Network.HeartbeatPeers

open Timer Heartbeat

variable {τ : Type*}

structure Peers (τ : Type*) where
  process : Bool → Process τ
  /-- The bytes on their way to a process, by connection. -/
  wire : Bool → τ → ℕ

inductive Event (τ : Type*)
  | at (p : Bool) (a : Heartbeat.Event τ)
  | lost (p : Bool) (x : τ)
  deriving DecidableEq, Repr

def Peers.init : Peers τ := { process := fun _ => .init, wire := fun _ _ => 0 }

variable [DecidableEq τ]

/-- The bytes for connection `x` that the event takes off the wire. -/
def bytesTaken (x : τ) (a : Heartbeat.Event τ) : ℕ := if a = .oobRecv x false then 1 else 0

/-- The wire has the byte that the event receives. -/
def Peers.Delivers (s : Peers τ) (p : Bool) : Heartbeat.Event τ → Prop
  | .oobRecv x false => 0 < s.wire p x
  | _ => True

instance (s : Peers τ) (p : Bool) (a : Heartbeat.Event τ) : Decidable (s.Delivers p a) := by
  unfold Peers.Delivers
  split <;> infer_instance

def step (s : Peers τ) : Event τ → Option (Peers τ)
  | .at p a =>
      if s.Delivers p a then
        (Heartbeat.step (s.process p) a).map fun t =>
          { process := Function.update s.process p t
            wire := fun q x =>
              if q = p then s.wire q x - bytesTaken x a
              else s.wire q x + bytesSent x (s.process p) a }
      else none
  | .lost p x =>
      if 0 < s.wire p x then
        some { s with
          wire := fun q y => if q = p ∧ y = x then s.wire q y - 1 else s.wire q y }
      else none

/-- What process `p` sees of an event. -/
def Event.shown (p : Bool) : Event τ → Option (Heartbeat.Event τ)
  | .at q a => if q = p then some a else none
  | .lost _ _ => none

/-- Connection `x` is registered once in these events of one process, at jiffy `r`,
when it is sound. -/
def Registered (x : τ) (r : ℤ) (es : List (Heartbeat.Event τ)) : Prop :=
  ∃ es₁ es₂ t, es = es₁ ++ .timer (.register x kTimeoutSec) :: es₂ ∧
    Machine.run Heartbeat.step .init es₁ = some t ∧ t.Sound x ∧
    t.timers.master.timerJiffies = r ∧ ∀ d, .timer (.register x d) ∉ es₁ ++ es₂

/-- Apart from the comparison, the event does connection `x` no harm. -/
def Harmless (x : τ) : Heartbeat.Event τ → Prop
  | .expired _ y sent => y = x → sent = true
  | .oobRecv y e => y = x → e = false
  | .readFails y | .disconnect y => y ≠ x
  | .attach _ | .timer _ | .test | .leave | .writing _ _ => True

/-- The jiffies since the registration in process `p`. -/
def Peers.age (s : Peers τ) (r : Bool → ℤ) (p : Bool) : ℤ := (s.process p).timers.served - r p

/-- No end of connection `x` is harmed. When one compares its counters, the clocks are
less than a period apart and at most one byte is on its way to it. -/
def InStep (x : τ) (r : Bool → ℤ) (s : Peers τ) : Event τ → Prop
  | .at p a =>
      Harmless x a ∧ (a = .test → (s.process p).beat = .sent x →
        |s.age r p - s.age r (!p)| < kTimeoutSec ∧ s.wire p x ≤ 1)
  | .lost _ y => y ≠ x

/-! ### One process -/

section Process

variable {t t' : Process τ} {a : Heartbeat.Event τ} {x : τ}

/-- Connection `x` has not been attached yet. -/
structure Pristine (x : τ) (t : Process τ) : Prop where
  pulse : t.conns x = {}
  notSent : t.beat ≠ .sent x
  notLeaving : t.beat ≠ .leaving x

/-- What is not attached has never been. -/
def Untouched (x : τ) (t : Process τ) : Prop := (t.conns x).attached = false → Pristine x t

omit [DecidableEq τ] in
theorem untouched_init : Untouched x (Process.init : Process τ) := fun _ => ⟨rfl, nofun, nofun⟩

theorem Untouched.step (h : Untouched x t) (hstep : Heartbeat.step t a = some t') :
    Untouched x t' := by
  intro hatt'
  have hatt : (t.conns x).attached = false := by
    rcases conns_of_step (x := x) hstep with ⟨-, -, hattach⟩ | ⟨hsame, -⟩
    · obtain ⟨-, -, hfresh⟩ := Pulse.attach_eq_some hattach
      rw [hfresh] at hatt'
      cases hatt'
    · exact hsame ▸ hatt'
  obtain ⟨hpulse, hsent, hleaving⟩ := h hatt
  cases a with
  | attach y =>
      simp only [Heartbeat.step] at hstep
      split at hstep
      swap
      · cases hstep
      obtain ⟨p, hattach, rfl⟩ := Option.map_eq_some_iff.mp hstep
      have hyx : y ≠ x := by
        rintro rfl
        obtain ⟨-, -, rfl⟩ := Pulse.attach_eq_some hattach
        simp at hatt'
      exact ⟨(Process.conns_set_of_ne t hyx p).trans hpulse, hsent, hleaving⟩
  | timer b =>
      simp only [Heartbeat.step] at hstep
      split at hstep
      · obtain ⟨u, -, rfl⟩ := Option.map_eq_some_iff.mp hstep
        exact ⟨hpulse, hsent, hleaving⟩
      · cases hstep
  | expired slot y sent =>
      simp only [Heartbeat.step] at hstep
      split at hstep
      swap
      · cases hstep
      obtain ⟨u, -, rfl⟩ := Option.map_eq_some_iff.mp hstep
      refine ⟨hpulse, fun hbeat => ?_, fun hbeat => ?_⟩
      · exact absurd (hatt.symm.trans (Process.startBeat_eq_sent.mp hbeat).2.2.1)
          Bool.false_ne_true
      · have hbeat' : t.startBeat y sent = .leaving x := hbeat
        unfold Process.startBeat at hbeat'
        split at hbeat'
        · cases hbeat'
        · rename_i hopen
          split at hbeat' <;> cases hbeat'
          simp [hatt] at hopen
  | test =>
      simp only [Heartbeat.step] at hstep
      split at hstep
      swap
      · cases hstep
      rename_i y hy
      obtain ⟨p, -, rfl⟩ := Option.map_eq_some_iff.mp hstep
      have hyx : y ≠ x := by
        rintro rfl
        exact hsent hy
      refine ⟨(Process.conns_set_of_ne t hyx p).trans hpulse, ?_, ?_⟩
      · show (if _ then Beat.leaving y else .out) ≠ .sent x
        split <;> simp
      · show (if _ then Beat.leaving y else .out) ≠ .leaving x
        split <;> simp [hyx]
  | leave =>
      simp only [Heartbeat.step] at hstep
      split at hstep
      swap
      · cases hstep
      rename_i y hy
      obtain rfl := Option.some.inj hstep
      have hyx : y ≠ x := by
        rintro rfl
        exact hleaving hy
      exact ⟨(Process.conns_set_of_ne t hyx _).trans hpulse, by simp, by simp⟩
  | oobRecv y e =>
      obtain ⟨p, hrecv, rfl⟩ := Option.map_eq_some_iff.mp hstep
      have hyx : y ≠ x := by
        rintro rfl
        have hreceiving := (Pulse.oobRecv_eq_some hrecv).1
        rw [hpulse] at hreceiving
        cases hreceiving
      exact ⟨(Process.conns_set_of_ne t hyx p).trans hpulse, hsent, hleaving⟩
  | readFails y | writing y b | disconnect y =>
      simp only [Heartbeat.step] at hstep
      split at hstep <;> cases hstep
      rename_i hguard
      have hyx : y ≠ x := by
        rintro rfl
        rw [hpulse] at hguard
        simp at hguard
      exact ⟨(Process.conns_set_of_ne t hyx _).trans hpulse, hsent, hleaving⟩

/-- Attaching a connection for the first time changes none of its counters. -/
theorem Untouched.counters (h : Untouched x t) (hstep : Heartbeat.step t a = some t') :
    t'.sentBytes x = t.sentBytes x + bytesSent x t a ∧
      (t'.conns x).recvPackage = (t.conns x).recvPackage + bytesCounted x t a := by
  have hbeat := beat_of_step (x := x) hstep
  rcases conns_of_step (x := x) hstep with ⟨rfl, -, hattach⟩ | ⟨-, hsend, hrecv⟩
  · obtain ⟨hatt, -, hfresh⟩ := Pulse.attach_eq_some hattach
    have hpulse := (h hatt).pulse
    constructor
    · simp only [Process.sentBytes, hfresh, hpulse]
      simp only [bytesTested, bytesSent] at hbeat ⊢
      omega
    · rw [hfresh, hpulse]
      rfl
  · refine ⟨?_, hrecv⟩
    simp only [Process.sentBytes, hsend]
    omega

theorem bytesCounted_eq_bytesTaken (h : Untouched x t)
    (ht : (t.conns x).attached = false ∨ t.Sound x) : bytesCounted x t a = bytesTaken x a := by
  have hunclosed : (t.conns x).closing = false := by
    rcases ht with hatt | hsound
    · rw [(h hatt).pulse]
    · exact hsound.inOrder.unclosed
  cases a with
  | oobRecv y e => cases e <;> simp [bytesCounted, bytesTaken, hunclosed]
  | attach y | timer b | expired slot y sent | test | leave | readFails y | writing y b
  | disconnect y => simp [bytesCounted, bytesTaken]

end Process

/-! ### Both processes -/

section Step

variable {s s' : Peers τ} {a : Event τ} {b : Heartbeat.Event τ} {p q : Bool} {x : τ}

theorem step_at_eq_some (hstep : step s (.at q b) = some s') :
    Heartbeat.step (s.process q) b = some (s'.process q) ∧
      s'.process (!q) = s.process (!q) ∧ ∀ x,
        s'.wire q x + bytesTaken x b = s.wire q x ∧
        s'.wire (!q) x = s.wire (!q) x + bytesSent x (s.process q) b := by
  simp only [step] at hstep
  split at hstep
  swap
  · cases hstep
  rename_i hdelivers
  obtain ⟨t, ht, rfl⟩ := Option.map_eq_some_iff.mp hstep
  refine ⟨by simpa using ht, by simp, fun x => ⟨?_, by simp⟩⟩
  simp only [if_true]
  by_cases hb : b = .oobRecv x false
  · subst hb
    have hpos : 0 < s.wire q x := hdelivers
    rw [bytesTaken, if_pos rfl]
    omega
  · rw [bytesTaken, if_neg hb]
    rfl

theorem process_of_step (p : Bool) (hstep : step s a = some s') :
    match a.shown p with
    | some b => Heartbeat.step (s.process p) b = some (s'.process p)
    | none => s'.process p = s.process p := by
  cases a with
  | «at» q b =>
      obtain ⟨hq, hother, -⟩ := step_at_eq_some hstep
      by_cases hqp : q = p
      · subst hqp
        simpa [Event.shown] using hq
      · obtain rfl : p = !q := Bool.eq_not.mpr (Ne.symm hqp)
        simpa [Event.shown] using hother
  | lost q y =>
      simp only [step] at hstep
      split at hstep <;> cases hstep
      rfl

/-- The bytes that process `p` has counted for connection `x` and those on their way to
it are the bytes that the other one has sent. -/
def Flow (x : τ) (p : Bool) (s : Peers τ) : Prop :=
  ((s.process p).conns x).attached = false ∨ (s.process p).Sound x →
    ((s.process p).conns x).recvPackage + s.wire p x = (s.process (!p)).sentBytes x

theorem Flow.step (h : Flow x p s) (hun : ∀ q, Untouched x (s.process q))
    (hlost : ∀ q, a ≠ .lost q x) (hstep : HeartbeatPeers.step s a = some s') : Flow x p s' := by
  intro hp'
  cases a with
  | lost q y =>
      have hyx : y ≠ x := by
        rintro rfl
        exact hlost q rfl
      simp only [HeartbeatPeers.step] at hstep
      split at hstep <;> cases hstep
      have hsame : ¬ (p = q ∧ x = y) := fun hpx => hyx hpx.2.symm
      simpa [hsame] using h hp'
  | «at» q b =>
      obtain ⟨hq, hother, hwire⟩ := step_at_eq_some hstep
      obtain ⟨htaken, hsent⟩ := hwire x
      obtain ⟨hsentBytes, hrecv⟩ := (hun q).counters hq
      by_cases hqp : q = p
      · subst hqp
        have hp : ((s.process q).conns x).attached = false ∨ (s.process q).Sound x := by
          by_cases hatt : ((s.process q).conns x).attached = true
          · have hatt' := (counters_of_step hatt hq).1
            rcases hp' with hnot | hsound'
            · exact absurd (hnot.symm.trans hatt') Bool.false_ne_true
            · exact Or.inr (sound_of_step hatt hq hsound')
          · exact Or.inl (Bool.eq_false_iff.mpr hatt)
        have hflow := h hp
        rw [hrecv, hother, bytesCounted_eq_bytesTaken (hun q) hp]
        omega
      · obtain rfl : p = !q := Bool.eq_not.mpr (Ne.symm hqp)
        rw [hother] at hp'
        have hflow := h hp'
        rw [Bool.not_not] at hflow ⊢
        rw [hother, hsent, hsentBytes]
        push_cast
        omega

/-- What the runs considered keep: both ends are sound, and heartbeats are sent, on
their way or counted. -/
structure Synced (x : τ) (r : Bool → ℤ) (s : Peers τ) : Prop where
  untouched : ∀ p, Untouched x (s.process p)
  flow : ∀ p, Flow x p s
  watched : ∀ p, ∃ n c, Watched n x (r p) (s.process p) c
  sound : ∀ p, (s.process p).Sound x

/-- When an end compares its counters, the other one has sent as many heartbeats, or one
less, and one of them may be on its way. -/
theorem Synced.window {r : Bool → ℤ} (h : Synced x r s) (hbeat : (s.process p).beat = .sent x)
    (hage : |s.age r p - s.age r (!p)| < kTimeoutSec) (hwire : s.wire p x ≤ 1) :
    |((s.process p).conns x).sendPackage + 1 - ((s.process p).conns x).recvPackage| ≤
      kHeartbeatUnsyncWindow := by
  obtain ⟨n, c, hp⟩ := h.watched p
  obtain ⟨m, d, hq⟩ := h.watched (!p)
  have hpb := hp.beating (h.sound p)
  have hqb := hq.beating (h.sound !p)
  have hflow := h.flow p (Or.inr (h.sound p))
  obtain ⟨hdue, hcalled⟩ := hpb.onTime hbeat
  obtain ⟨hlt, hdvd⟩ := hdue
  have hcounted : (s.process p).sentBytes x = ((s.process p).conns x).sendPackage + 1 := by
    rw [Process.sentBytes, if_pos hbeat]
    rfl
  rw [if_pos rfl] at hdvd
  unfold Peers.age at hage
  rw [← hp.refines.served, ← hq.refines.served, abs_lt] at hage
  rw [abs_le]
  unfold kTimeoutSec kHeartbeatUnsyncWindow at *
  obtain ⟨k, hk⟩ := Int.le.dest (Int.le_of_lt hlt)
  have hkdvd : k % 30 = 0 := by omega
  obtain ⟨l, hl⟩ : ∃ l : ℕ, r (!p) + l = d.served := Int.le.dest (by omega)
  have hown : (s.process p).sentBytes x = (k / 30 : ℕ) := by
    rcases hpb.sentBytes hk.symm with ⟨hsent, -⟩ | ⟨-, -, hmem⟩
    · exact hsent
    · exact absurd hmem hcalled
  have hother := hqb.sentBytes hl.symm
  omega

theorem Synced.keeps {r : Bool → ℤ} (h : Synced x r s) (hin : InStep x r s (.at p b)) :
    Keeps x (s.process p) b := by
  obtain ⟨hharmless, hclocks⟩ := hin
  cases b with
  | test =>
      intro hbeat
      obtain ⟨hage, hwire⟩ := hclocks rfl hbeat
      exact h.window hbeat hage hwire
  | attach y | timer e | expired slot y sent | leave | oobRecv y e | readFails y | writing y e
  | disconnect y => exact hharmless

omit [DecidableEq τ] in
theorem shown_eq_some (h : a.shown p = some b) : a = .at p b := by
  cases a with
  | «at» q e =>
      simp only [Event.shown] at h
      split at h
      · rename_i hqp
        rw [hqp, Option.some.inj h]
      · cases h
  | lost q y => cases h

theorem Synced.step {r : Bool → ℤ} (h : Synced x r s) (hin : InStep x r s a)
    (ha : ∀ q d, a ≠ .at q (.timer (.register x d))) (hstep : HeartbeatPeers.step s a = some s') :
    Synced x r s' := by
  have hlost : ∀ q, a ≠ .lost q x := by
    rintro q rfl
    exact hin rfl
  have hone : ∀ p, Untouched x (s'.process p) ∧
      (∃ n c, Watched n x (r p) (s'.process p) c) ∧ (s'.process p).Sound x := by
    intro p
    have hp := process_of_step p hstep
    obtain ⟨n, c, hwatched⟩ := h.watched p
    cases hb : a.shown p with
    | none =>
        rw [hb] at hp
        rw [hp]
        exact ⟨h.untouched p, ⟨n, c, hwatched⟩, h.sound p⟩
    | some b =>
        rw [hb] at hp
        obtain rfl := shown_eq_some hb
        have honce : ∀ d, b ≠ .timer (.register x d) := by
          rintro d rfl
          exact ha p d rfl
        obtain ⟨c', hwatched'⟩ := hwatched.step honce hp
        exact ⟨(h.untouched p).step hp, ⟨n, c', hwatched'⟩,
          ((h.sound p).step_iff hp).mpr (h.keeps hin)⟩
  exact ⟨fun p => (hone p).1, fun p => (h.flow p).step h.untouched hlost hstep,
    fun p => (hone p).2.1, fun p => (hone p).2.2⟩

end Step

/-! ### Whole runs -/

section Run

variable {s s₁ : Peers τ} {es₁ es₂ : List (Event τ)} {x : τ} {r : Bool → ℤ}

theorem process_run (p : Bool) (hrun : Machine.run step .init es₁ = some s) :
    Machine.run Heartbeat.step .init (es₁.filterMap (Event.shown p)) = some (s.process p) := by
  refine Machine.run_component (fun s : Peers τ => s.process p) (Event.shown p) ?_ hrun
  intro u a u' hstep
  have hp := process_of_step p hstep
  cases hb : a.shown p with
  | none =>
      rw [hb] at hp
      exact hp
  | some b =>
      rw [hb] at hp
      exact hp

theorem untouched_run (hrun : Machine.run step .init es₁ = some s) (p : Bool) :
    Untouched x (s.process p) :=
  Machine.run_invariant (I := Untouched x) (fun _ _ _ h hstep => h.step hstep)
    untouched_init (process_run p hrun)

theorem flow_run (hlost : ∀ q, .lost q x ∉ es₁) (hrun : Machine.run step .init es₁ = some s)
    (p : Bool) : Flow x p s := by
  have hboth : (∀ q, Untouched x (s.process q)) ∧ Flow x p s := by
    refine Machine.run_invariant_of_forall (P := fun a => ∀ q, a ≠ .lost q x)
      (I := fun s => (∀ q, Untouched x (s.process q)) ∧ Flow x p s) ?_ ?_ ?_ hrun
    · rintro u a u' ha ⟨hun, hflow⟩ hstep
      refine ⟨fun q => ?_, hflow.step hun ha hstep⟩
      have hq := process_of_step q hstep
      cases hb : a.shown q with
      | none =>
          rw [hb] at hq
          exact hq ▸ hun q
      | some b =>
          rw [hb] at hq
          exact (hun q).step hq
    · rintro a ha q rfl
      exact hlost q ha
    · exact ⟨fun _ => untouched_init, fun _ => rfl⟩
  exact hboth.2

theorem Registered.watched {p : Bool} (hrun : Machine.run step .init es₁ = some s)
    (h : Registered x (r p) (es₁.filterMap (Event.shown p))) :
    ∃ n c, Watched n x (r p) (s.process p) c := by
  obtain ⟨fs₁, fs₂, t, heq, ht, hsound, hr, honce⟩ := h
  have hp := process_run p hrun
  rw [heq] at hp
  obtain ⟨t', ht', hrest⟩ := (Machine.run_append_eq_some _).mp hp
  obtain rfl := Option.some.inj (ht.symm.trans ht')
  obtain ⟨c, hwatched⟩ := watched_run ht hsound honce hrest
  exact ⟨_, c, hr ▸ hwatched⟩

/-- Two ends whose clocks run in step and whose wire is quick enough stay sound for ever:
no heartbeat closes a connection that nothing else has harmed. -/
theorem run_in_step (hrun₁ : Machine.run step .init es₁ = some s₁)
    (hreg : ∀ p, Registered x (r p) (es₁.filterMap (Event.shown p)))
    (hsound : ∀ p, (s₁.process p).Sound x)
    (honce : ∀ p d, .at p (.timer (.register x d)) ∉ es₂) (hlost : ∀ p, .lost p x ∉ es₁)
    (hrun : Machine.run step s₁ es₂ = some s) (halong : Machine.Along step (InStep x r) s₁ es₂) :
    ∀ p, (s.process p).Sound x := by
  have hstart : Synced x r s₁ :=
    ⟨untouched_run hrun₁, flow_run hlost hrun₁, fun p => (hreg p).watched hrun₁, hsound⟩
  have hnone : Machine.Along step (fun _ a => ∀ p d, a ≠ .at p (.timer (.register x d))) s₁ es₂ :=
    Machine.Along.of_forall (fun a ha p d (h : a = .at p (.timer (.register x d))) =>
      honce p d (by rwa [← h])) s₁
  have hend : Synced x r s :=
    Machine.run_invariant_along (fun _ _ _ ⟨hin, hnone⟩ h hstep => h.step hin hnone hstep)
      (halong.and hnone) hstart hrun
  exact hend.sound

end Run

instance (x : τ) (a : Heartbeat.Event τ) : Decidable (Harmless x a) := by
  cases a <;> unfold Harmless <;> infer_instance

instance (x : τ) (r : Bool → ℤ) (s : Peers τ) (a : Event τ) : Decidable (InStep x r s a) := by
  cases a <;> unfold InStep <;> infer_instance

/-- The same events in both processes. -/
def both (es : List (Heartbeat.Event ℕ)) : List (Event ℕ) := es.map (.at false) ++ es.map (.at true)

def opening : List (Event ℕ) := both [.attach 7, .timer (.register 7 kTimeoutSec)]

/-- The first heartbeat each way. -/
def exchange : List (Event ℕ) :=
  both [.timer (.update 31)] ++ (List.replicate 30 (both quietJiffy)).flatten ++ both beatJiffy ++
    both [.oobRecv 7 false]

theorem registered_opening (p : Bool) : Registered 7 1 (opening.filterMap (Event.shown p)) := by
  refine ⟨[.attach 7], [], attached, ?_, rfl, sound_attached, rfl, ?_⟩
  · cases p <;> rfl
  · simp

theorem run_in_step_exchange :
    ∃ s₁ s : Peers ℕ, Machine.run step .init opening = some s₁ ∧
      Machine.run step s₁ exchange = some s ∧ ∀ p, (s.process p).Sound 7 := by
  have hopen : (Machine.run step (Peers.init : Peers ℕ) opening).map
      (fun s => ((s.process false).conns 7, (s.process false).beat,
        (s.process true).conns 7, (s.process true).beat)) =
      some (attached.conns 7, .out, attached.conns 7, .out) := by decide +kernel
  obtain ⟨s₁, hs₁, heq⟩ := Option.map_eq_some_iff.mp hopen
  simp only [Prod.mk.injEq] at heq
  obtain ⟨hconn, hbeat, hconn', hbeat'⟩ := heq
  have hsound : ∀ p, (s₁.process p).Sound 7 := by
    intro p
    cases p with
    | false => exact ⟨hconn ▸ sound_attached.inOrder, by rw [hbeat]; exact nofun⟩
    | true => exact ⟨hconn' ▸ sound_attached.inOrder, by rw [hbeat']; exact nofun⟩
  have hsome : ((Machine.run step (Peers.init : Peers ℕ) opening).bind fun s =>
      Machine.run step s exchange).isSome := by decide +kernel
  have halong : ∀ s ∈ Machine.run step (Peers.init : Peers ℕ) opening,
      Machine.Along step (InStep 7 fun _ => 1) s exchange := by decide +kernel
  have hnone : ∀ a ∈ exchange, (a matches .at _ (.timer (.register _ _))) = false := by
    decide +kernel
  rw [hs₁, Option.bind_some] at hsome
  obtain ⟨s, hs⟩ := Option.isSome_iff_exists.mp hsome
  refine ⟨s₁, s, hs₁, hs, run_in_step hs₁ registered_opening hsound ?_ ?_ hs (halong s₁ hs₁)⟩
  · intro p d hmem
    exact absurd (hnone _ hmem) (by simp)
  · decide

end Tt3d.Network.HeartbeatPeers
