import Tt3d.Network.Peers

/-!
The calls of two peers all come to an end.

A call costs nine events besides itself: its request is pushed, written, received,
handled, replied to and returned from, and the response is written, received and
handled. What is still to happen of these is counted here, and every event takes
one off.
-/

namespace Tt3d.Network.Peers

def Event.isCall : Event → Bool
  | .call .. => true
  | _ => false

/-- The events that are to come for a frame that the decoder has completed. -/
def workOf (m : MetaData) : ℕ := if m.type = .request then 6 else 1

def Handling.work (m : MetaData) : Handling → ℕ
  | .idle => 0
  | .received _ => workOf m
  | .serving _ => 5
  | .replied => 1

/-- The events that are to come for the frames of a list, each `n` events away from
the decoder. -/
def workIn (n : ℕ) (fs : List Frame) : ℕ := (fs.map fun f => workOf f.message + n).sum

def Peer.work (x : Peer) : ℕ :=
  workIn 3 x.toPush + workIn 2 x.queue + workIn 1 x.wire + x.handling.work x.meta_

/-- The events that are to come for the calls that have been made. -/
def work (s : State) : ℕ := (s false).work + (s true).work

/-- Nothing can happen but a new call. -/
def Quiet (services : Services) (s : State) : Prop :=
  ∀ e : Event, e.isCall = false → step services s e = none

/-- Every call of the peer has been completed once, with its response, and nothing of
it is left in the table. -/
structure Resolved (x : Peer) : Prop where
  table : x.table = []
  once : (x.completed.map Prod.fst).Perm (List.range x.made)
  own : ∀ q ∈ x.completed, q ∈ x.answers

@[simp] theorem workIn_nil (n : ℕ) : workIn n [] = 0 := rfl

@[simp] theorem workIn_cons (n : ℕ) (f : Frame) (fs : List Frame) :
    workIn n (f :: fs) = workOf f.message + n + workIn n fs := rfl

@[simp] theorem workIn_append (n : ℕ) (fs gs : List Frame) :
    workIn n (fs ++ gs) = workIn n fs + workIn n gs := by
  simp [workIn]

theorem workIn_eraseIdx {n i : ℕ} {fs : List Frame} {f : Frame} (hf : fs[i]? = some f) :
    workIn n fs = workOf f.message + n + workIn n (fs.eraseIdx i) := by
  obtain ⟨hi, rfl⟩ := List.getElem?_eq_some_iff.mp hf
  have hperm := List.getElem_cons_eraseIdx_perm hi
  exact ((hperm.map fun f : Frame => workOf f.message + n).sum_nat).symm

theorem workOf_pos (m : MetaData) : 0 < workOf m := by
  unfold workOf
  split
  · decide
  · decide

theorem workIn_eq_zero_iff {n : ℕ} {fs : List Frame} : workIn n fs = 0 ↔ fs = [] := by
  cases fs with
  | nil => simp
  | cons f fs =>
      have hpos := workOf_pos f.message
      simp only [workIn_cons, reduceCtorEq, iff_false]
      omega

theorem work_eq (s : State) (p : Bool) : work s = (s p).work + (s !p).work := by
  cases p with
  | false => rfl
  | true => exact Nat.add_comm _ _

theorem work_update (s : State) (p : Bool) (x : Peer) :
    work (Function.update s p x) = x.work + (s !p).work := by
  rw [work_eq _ p]
  simp

theorem work_update_both (s : State) (p : Bool) (x y : Peer) :
    work (Function.update (Function.update s p x) (!p) y) = x.work + y.work := by
  rw [work_eq _ p]
  simp

/-! ### One event -/

variable {services : Services} {p : Bool} {x x' y : Peer} {s s' : State} {e : Event}

theorem work_callMethod {requestIdentify base : UInt64} {seq : ℤ} {content : Bytes}
    (h : callMethod services p x requestIdentify base seq content = some x') :
    x'.work = x.work + 9 := by
  obtain ⟨r, -, -, rfl⟩ := callMethod_eq_some h
  have hrequest : workOf (callMethodMeta requestIdentify r content) = 6 := rfl
  simp only [Peer.work, workIn_append, workIn_cons, workIn_nil, hrequest]
  omega

theorem work_handleFrame {o : ℕ} (hx : Pair services p x y) (hy : Pair services (!p) y x)
    (hhandling : x.handling = .received o) :
    (handleFrame services p x o).work + 1 = x.work := by
  obtain ⟨htype, heq⟩ | ⟨htype, heq⟩ := handleFrame_eq hx hy hhandling
  · have hmeta : workOf x.meta_ = 6 := if_pos htype
    rw [heq]
    simp only [Peer.work, hhandling, Handling.work, hmeta]
  · have hmeta : workOf x.meta_ = 1 := if_neg (by rw [htype]; decide)
    rw [heq]
    simp only [Peer.work, hhandling, Handling.work, hmeta]

/-- Every event but a call takes one off what is to come, and a call adds nine. -/
theorem Inv.work_step (h : Inv services s) (hstep : Peers.step services s e = some s') :
    work s' + (if e.isCall then 0 else 1) = work s + (if e.isCall then 9 else 0) := by
  have hother : ∀ p, Pair services (!p) (s !p) (s p) := fun p => by
    have := h !p
    rwa [Bool.not_not] at this
  cases e with
  | call p requestIdentify base seq content =>
      simp only [Peers.step, Option.map_eq_some_iff] at hstep
      obtain ⟨x', hcall, rfl⟩ := hstep
      have hwork := work_callMethod hcall
      rw [work_update, work_eq s p, hwork]
      simp only [Event.isCall, if_true]
      omega
  | push p i =>
      simp only [Peers.step, Option.map_eq_some_iff] at hstep
      obtain ⟨f, hf, rfl⟩ := hstep
      have herase := workIn_eraseIdx (n := 3) hf
      rw [work_update, work_eq s p]
      simp only [Event.isCall, Bool.false_eq_true, if_false, Peer.work, workIn_append, workIn_cons,
        workIn_nil, herase]
      omega
  | write p =>
      simp only [Peers.step] at hstep
      split at hstep
      · cases hstep
      rename_i f queue hqueue
      obtain rfl := Option.some.inj hstep
      rw [work_update, work_eq s p]
      simp only [Event.isCall, Bool.false_eq_true, if_false, Peer.work, workIn_append, workIn_cons,
        workIn_nil, hqueue]
      omega
  | receive p =>
      simp only [Peers.step] at hstep
      split at hstep
      · rename_i f wire hidle hunbroken hwire
        obtain rfl := Option.some.inj hstep
        obtain ⟨hwell, -⟩ := pair_receive (h p) (hother p) hidle hwire
        rw [work_update_both, work_eq s p]
        simp only [Event.isCall, Bool.false_eq_true, if_false, Peer.work, hwell, hidle, hwire,
          workIn_cons, Handling.work, if_true]
        omega
      · cases hstep
  | handle p =>
      simp only [Peers.step] at hstep
      split at hstep
      · rename_i o hhandling
        obtain rfl := Option.some.inj hstep
        have hwork := work_handleFrame (h p) (hother p) hhandling
        rw [work_update, work_eq s p, ← hwork]
        simp only [Event.isCall, Bool.false_eq_true, if_false]
        omega
      · cases hstep
  | reply p content =>
      simp only [Peers.step] at hstep
      split at hstep
      · rename_i o hhandling
        split at hstep
        · obtain rfl := Option.some.inj hstep
          have hresponse : workOf (responseMeta (s p).meta_ content) = 1 := rfl
          rw [work_update_both, work_eq s p]
          simp only [Event.isCall, Bool.false_eq_true, if_false, Peer.work, hhandling,
            Handling.work, workIn_append, workIn_cons, workIn_nil, hresponse]
          omega
        · cases hstep
      · cases hstep
  | returns p =>
      simp only [Peers.step, Option.ite_none_right_eq_some, Option.some.injEq] at hstep
      obtain ⟨hreplied, rfl⟩ := hstep
      rw [work_update, work_eq s p]
      simp only [Event.isCall, Bool.false_eq_true, if_false, Peer.work, hreplied, Handling.work]
      omega

theorem Inv.work_run {es : List Event} (h : Inv services s)
    (hrun : Machine.run (Peers.step services) s es = some s') :
    work s' + (es.countP fun e => !e.isCall) = work s + 9 * es.countP Event.isCall := by
  have haccount := Machine.run_account work (fun e : Event => if e.isCall then 0 else 1)
    (fun e => if e.isCall then 9 else 0) (fun t e t' h hstep => Inv.step h hstep)
    (fun t e t' h hstep => Inv.work_step h hstep) h hrun
  rw [Machine.sum_map_ite, Machine.sum_map_ite] at haccount
  omega

/-! ### When nothing is to come -/

theorem Peer.work_eq_zero_iff :
    x.work = 0 ↔ x.toPush = [] ∧ x.queue = [] ∧ x.wire = [] ∧ x.handling = .idle := by
  have hhandling : x.handling.work x.meta_ = 0 ↔ x.handling = .idle := by
    cases x.handling with
    | idle => simp [Handling.work]
    | received o => simpa [Handling.work] using (workOf_pos x.meta_).ne'
    | serving o => simp [Handling.work]
    | replied => simp [Handling.work]
  unfold Peer.work
  rw [Nat.add_eq_zero_iff, Nat.add_eq_zero_iff, Nat.add_eq_zero_iff, workIn_eq_zero_iff,
    workIn_eq_zero_iff, workIn_eq_zero_iff, hhandling, and_assoc, and_assoc]

theorem work_eq_zero_of_quiet (h : Inv services s) (hquiet : Quiet services s) :
    work s = 0 := by
  have hidle : ∀ p, (s p).handling = .idle := by
    intro p
    cases hhandling : (s p).handling with
    | idle => rfl
    | received o =>
        have hstuck := hquiet (.handle p) rfl
        simp [step, hhandling] at hstuck
    | serving o =>
        have hstuck := hquiet (.reply p [0]) rfl
        simp [step, hhandling] at hstuck
    | replied =>
        have hstuck := hquiet (.returns p) rfl
        simp [step, hhandling] at hstuck
  have hzero : ∀ p, (s p).work = 0 := by
    intro p
    rw [Peer.work_eq_zero_iff]
    refine ⟨?_, ?_, ?_, hidle p⟩
    · cases htoPush : (s p).toPush with
      | nil => rfl
      | cons f fs =>
          have hstuck := hquiet (.push p 0) rfl
          simp [step, htoPush] at hstuck
    · cases hqueue : (s p).queue with
      | nil => rfl
      | cons f fs =>
          have hstuck := hquiet (.write p) rfl
          simp [step, hqueue] at hstuck
    · -- the other peer is idle and has not given up, so it would read
      cases hwire : (s p).wire with
      | nil => rfl
      | cons f fs =>
          have hstuck := hquiet (.receive !p) rfl
          simp [step, hidle !p, (h !p).link.unbroken, hwire] at hstuck
  rw [work_eq s false, hzero, hzero]

theorem quiet_of_work_eq_zero (h : Inv services s) (hzero : work s = 0) :
    Quiet services s := by
  intro e he
  by_contra hstep
  obtain ⟨s', hs'⟩ := Option.ne_none_iff_exists'.mp hstep
  have hwork := h.work_step hs'
  simp only [he, hzero, Bool.false_eq_true, if_false] at hwork
  omega

theorem Inv.resolved (h : Inv services s) (hzero : work s = 0) (p : Bool) : Resolved (s p) := by
  have hall : ∀ p, (s p).work = 0 := by
    intro p
    rw [work_eq s p] at hzero
    exact (Nat.add_eq_zero_iff.mp hzero).1
  obtain ⟨hpush, hqueue, hwire, hidle⟩ := Peer.work_eq_zero_iff.mp (hall p)
  obtain ⟨hpush', hqueue', hwire', hidle'⟩ := Peer.work_eq_zero_iff.mp (hall !p)
  have hnone : outstanding (s p) (s !p) = [] := by
    simp [outstanding, sent, Peer.handled, hpush, hqueue, hwire, hidle, hpush', hqueue', hwire',
      hidle', requests, responses]
  have hanswered := (h p).answered
  refine ⟨?_, ?_, hanswered.own⟩
  · have htable := hanswered.table
    rwa [hnone, List.perm_nil] at htable
  · have honce := hanswered.once
    rwa [hnone] at honce

/-- **Calls come to an end.** Whatever the order of the events, there are at most nine
others for each call. They are all there just when nothing but a new call can happen,
and then every call of both peers has been completed once, with its response. -/
theorem run_resolved {es : List Event}
    (hrun : Machine.run (step services) (fun _ => {}) es = some s) :
    (es.countP fun e => !e.isCall) ≤ 9 * es.countP Event.isCall ∧
      ((es.countP fun e => !e.isCall) = 9 * es.countP Event.isCall ↔ Quiet services s) ∧
      (Quiet services s → ∀ p, Resolved (s p)) := by
  have hinv : Inv services s :=
    Machine.run_invariant (fun t e t' h hstep => Inv.step h hstep) inv_init hrun
  have haccount := inv_init.work_run hrun
  have hinit : work (fun _ => ({} : Peer)) = 0 := rfl
  rw [hinit] at haccount
  have hquiet : work s = 0 ↔ Quiet services s :=
    ⟨quiet_of_work_eq_zero hinv, work_eq_zero_of_quiet hinv⟩
  refine ⟨?_, ?_, ?_⟩
  · omega
  · rw [← hquiet]
    omega
  · intro hq
    exact hinv.resolved (hquiet.mpr hq)

/-- A call and a call back, and then nothing more can happen. -/
theorem run_resolved_both_called :
    ∃ s, Machine.run
        (step { registered := fun p m => m = if p then 5 else 6, parses := fun _ _ _ => true })
        (fun _ => {})
        [.call false 5 100 1 [1], .push false 0, .write false, .receive true, .handle true,
          .call true 6 100 3 [3], .reply true [22], .push true 0, .returns true, .write true,
          .receive false, .handle false, .write true, .receive false, .handle false,
          .reply false [11], .write false, .returns false, .receive true, .handle true] = some s ∧
      (s false).completed = [(0, [22])] ∧ (s true).completed = [(0, [11])] ∧
      Quiet { registered := fun p m => m = if p then 5 else 6, parses := fun _ _ _ => true } s ∧
      ∀ p, Resolved (s p) := by
  obtain ⟨s, hrun, hfalse, htrue⟩ : ∃ s, Machine.run
        (step { registered := fun p m => m = if p then 5 else 6, parses := fun _ _ _ => true })
        (fun _ => {})
        [.call false 5 100 1 [1], .push false 0, .write false, .receive true, .handle true,
          .call true 6 100 3 [3], .reply true [22], .push true 0, .returns true, .write true,
          .receive false, .handle false, .write true, .receive false, .handle false,
          .reply false [11], .write false, .returns false, .receive true, .handle true] = some s ∧
      (s false).completed = [(0, [22])] ∧ (s true).completed = [(0, [11])] := ⟨_, rfl, rfl, rfl⟩
  obtain ⟨-, hquiet, hresolved⟩ := run_resolved hrun
  have hq := hquiet.mp (by decide)
  exact ⟨s, hrun, hfalse, htrue, hq, hresolved hq⟩

end Tt3d.Network.Peers
