import Tt3d.Lib.Machine
import Tt3d.Network.Frames
import Tt3d.Network.ResponseTable

/-!
How replies are tagged.

`HandleService` gives the service a `done` closure that holds a pointer to the
decoder of the connection. `CallServiceMethodDone` looks through that pointer for
the identifier to reply to, whenever the service runs the closure. The decoder has
one `meta_`, which each further frame overwrites.
-/

namespace Tt3d.Network.Replies

open Feed RawConnectionImpl

/-- The `done` closures given out and not yet run, by number, each with the request
it is to answer, and the calls that wait for a response. -/
structure Service where
  closures : List (ℕ × MetaData) := []
  made : ℕ := 0
  responses : ResponseTable Unit := []
  deriving Repr

/-- `RawProtobufConnection::Handle`: a registered method is served, when the request
parses; anything else must be a response. -/
def handle (registered : UInt64 → Bool) (parses : UInt64 → Bytes → Bool) : Handler Service :=
  fun s m =>
    if registered m.identify then
      if parses m.identify m.content then
        (true, { s with closures := s.closures ++ [(s.made, m)], made := s.made + 1 })
      else (true, s)
    else
      match s.responses.find m.identify with
      | none => (false, s)
      | some _ => (true, { s with responses := s.responses.erase m.identify })

structure State where
  conn : RawConnectionImpl Service := { service := {} }
  /-- What each content that was complete parsed to, oldest first. -/
  decoded : List MetaData := []
  reading : Bool := true
  closing : Bool := false
  /-- The replies queued, each with the request whose closure was run. -/
  replies : List (MetaData × MetaData) := []
  deriving Repr

inductive Event
  /-- The decoder reads a byte. -/
  | byte (input : UInt8)
  /-- `CallMethod` enters a call. -/
  | call (responseIdentify : UInt64) (seq : ℤ)
  /-- The service runs a closure, with the response serialised to `content`. -/
  | done (closure : ℕ) (content : Bytes)
  | close
  deriving DecidableEq, Repr

/-- The content that a byte completes. -/
def completed (d : ProtobufDecoder) (input : UInt8) : Option Bytes :=
  if d.state = .content ∧ d.content.written.length + 1 = d.content.capacity then
    some (d.content.written ++ [input])
  else none

section Machine

variable (codec : MetaCodec) (registered : UInt64 → Bool) (parses : UInt64 → Bytes → Bool)

def parsedBy (d : ProtobufDecoder) (input : UInt8) : List MetaData :=
  ((completed d input).map fun bytes => (codec.parseFromArray bytes).1).toList

def step (s : State) : Event → Option State
  | .byte input =>
      if s.closing ∨ !s.reading then none
      else
        let decoded := s.decoded ++ parsedBy codec s.conn.decoder input
        match turn codec (handle registered parses) s.conn input with
        | .next conn => some { s with conn := conn, decoded := decoded }
        | .stop (.ok conn) => some { s with conn := conn, decoded := decoded, reading := false }
        | .stop (.error _) => none
  | .call responseIdentify seq =>
      let service := s.conn.service
      (service.responses.searchFree (service.responses.length + 1) responseIdentify seq).map
        fun r =>
          { s with
            conn := { s.conn with
              service := { service with responses := service.responses.insert r () } } }
  | .done closure content =>
      let service := s.conn.service
      (service.closures.find? fun q => q.1 = closure).map fun q =>
        { s with
          conn := { s.conn with
            service := { service with closures := service.closures.erase q } }
          -- a closing connection does not take the reply
          replies :=
            if s.closing then s.replies
            else s.replies ++ [(q.2, responseMeta s.conn.decoder.meta_ content)] }
  | .close => some { s with closing := true }

end Machine

/-- The frame decoded last asks for the same response identifier as the request
that the step answers. -/
def InTime (s : State) : Event → Prop
  | .done closure _ =>
      s.closing = false → ∀ q, (s.conn.service.closures.find? fun q => q.1 = closure) = some q →
        (s.decoded.getLastD {}).responseIdentify = q.2.responseIdentify
  | _ => True

instance (s : State) : ∀ e, Decidable (InTime s e)
  | .done closure _ => inferInstanceAs (Decidable (s.closing = false →
      ∀ q ∈ s.conn.service.closures.find? fun q => q.1 = closure,
        (s.decoded.getLastD {}).responseIdentify = q.2.responseIdentify))
  | .byte _ | .call _ _ | .close => isTrue trivial

/-- Every reply has the identifier that its request asked for. -/
def Tagged (s : State) : Prop :=
  ∀ q ∈ s.replies, q.2.identify = q.1.responseIdentify

variable {codec : MetaCodec} {registered : UInt64 → Bool} {parses : UInt64 → Bytes → Bool}
  {s s' : State} {e : Event}

/-- `Decode` of a chunk is a step for each byte that it takes. -/
theorem run_decode {conn' : RawConnectionImpl Service} {ok : Bool} {chunk rest : Bytes}
    (hopen : s.closing = false) (hreading : s.reading = true)
    (h : s.conn.decode codec (handle registered parses) chunk = .ok (conn', ok, rest)) :
    ∃ read decoded, chunk = read ++ rest ∧
      Machine.run (step codec registered parses) s (read.map Event.byte) =
        some { s with conn := conn', decoded := decoded, reading := ok } := by
  rw [decode_eq] at h
  induction chunk generalizing s with
  | nil =>
      cases h
      exact ⟨[], s.decoded, rfl, by rw [← hreading]; rfl⟩
  | cons input chunk ih =>
      have hbyte : step codec registered parses s (.byte input) =
          match turn codec (handle registered parses) s.conn input with
          | .next conn => some { s with
              conn := conn, decoded := s.decoded ++ parsedBy codec s.conn.decoder input }
          | .stop (.ok conn) => some { s with
              conn := conn, decoded := s.decoded ++ parsedBy codec s.conn.decoder input,
              reading := false }
          | .stop (.error _) => none := by
        simp only [step, hopen, hreading, Bool.not_true, Bool.false_eq_true, or_self, if_false]
      cases hturn : turn codec (handle registered parses) s.conn input with
      | next conn =>
          rw [feed_cons_next hturn] at h
          obtain ⟨read, decoded, rfl, hrun⟩ := ih (s := { s with
            conn := conn, decoded := s.decoded ++ parsedBy codec s.conn.decoder input })
            hopen hreading h
          refine ⟨input :: read, decoded, rfl, ?_⟩
          rw [List.map_cons, Machine.run_cons, hbyte, hturn]
          exact hrun
      | stop r =>
          rw [feed_cons_stop hturn] at h
          rcases r with fault | conn
          · cases h
          · cases h
            refine ⟨[input], s.decoded ++ parsedBy codec s.conn.decoder input, rfl, ?_⟩
            rw [List.map_singleton, Machine.run_cons, hbyte, hturn]
            rfl

/-! ### The decoder's `meta_` is the content parsed last -/

/-- In the content: the byte completes it, or the content is not parsed. -/
theorem meta_consume_content {lengthStore : Bytes} {length : ℕ} {written : Bytes} {capacity : ℕ}
    {meta_ : MetaData} {d' : ProtobufDecoder} {input : UInt8} {result : Tribool}
    (h : ProtobufDecoder.consume codec ⟨.content, lengthStore, length, ⟨written, capacity⟩, meta_⟩
      input = .ok (d', result)) :
    d'.meta_ = ((completed ⟨.content, lengthStore, length, ⟨written, capacity⟩, meta_⟩ input).map
      fun bytes => (codec.parseFromArray bytes).1).getD meta_ := by
  simp only [ProtobufDecoder.consume] at h
  split at h
  · rename_i hfull
    cases h
    have hlen : written.length = capacity := Buffer.full_iff.mp hfull
    simp [completed, hlen]
  rcases hpush : Buffer.pushBack ⟨written, capacity⟩ input with fault | content
  · rw [hpush] at h
    cases h
  have hcontent : content = ⟨written ++ [input], capacity⟩ := by
    rw [Buffer.pushBack] at hpush
    split at hpush
    · cases hpush
      rfl
    · cases hpush
  subst hcontent
  simp only [hpush, Except.map, Except.ok.injEq] at h
  by_cases hlast : written.length + 1 = capacity
  · -- the content is complete: whatever becomes of it, it was parsed into `meta_`
    have hfull : Buffer.full ⟨written ++ [input], capacity⟩ = true :=
      Buffer.full_iff.mpr (by simpa using hlast)
    rw [if_pos hfull] at h
    have hd' : d'.meta_ = (codec.parseFromArray (written ++ [input])).1 := by
      split at h
      · cases h
        rfl
      split at h
      · cases h
        rfl
      split at h
      · cases h
        rfl
      · cases h
        rfl
    simp [completed, hlast, hd']
  · have hfull : ¬ Buffer.full ⟨written ++ [input], capacity⟩ = true := by
      rw [Buffer.full_iff]
      simpa using hlast
    rw [if_neg hfull] at h
    cases h
    simp [completed, hlast]

theorem meta_consume {d d' : ProtobufDecoder} {input : UInt8} {result : Tribool}
    (h : d.consume codec input = .ok (d', result)) :
    d'.meta_ = ((completed d input).map fun bytes => (codec.parseFromArray bytes).1).getD
      d.meta_ := by
  obtain ⟨state, lengthStore, length, ⟨written, capacity⟩, meta_⟩ := d
  cases state with
  | start =>
      simp only [ProtobufDecoder.consume] at h
      split at h
      · cases h
        rfl
      · cases h
        rfl
  | «end» =>
      simp only [ProtobufDecoder.consume] at h
      split at h
      · cases h
        rfl
      · cases h
        rfl
  | length =>
      simp only [ProtobufDecoder.consume] at h
      split at h
      · rcases hcast : lexicalCastInt lengthStore with fault | n
        · rw [hcast] at h
          cases h
        · rw [hcast] at h
          rcases hreserve : Buffer.reserve ⟨written, capacity⟩ n with fault | content
          · simp only [Except.bind, hreserve, Except.map] at h
            cases h
          · simp only [Except.bind, hreserve, Except.map, Except.ok.injEq, Prod.mk.injEq] at h
            obtain ⟨rfl, -⟩ := h
            rfl
      · split at h
        · cases h
          rfl
        · cases h
          rfl
  | content => exact meta_consume_content h

theorem getLastD_parsedBy (decoded : List MetaData) (d : ProtobufDecoder) (input : UInt8) :
    (decoded ++ parsedBy codec d input).getLastD {} =
      ((completed d input).map fun bytes => (codec.parseFromArray bytes).1).getD
        (decoded.getLastD {}) := by
  unfold parsedBy
  cases (completed d input).map fun bytes => (codec.parseFromArray bytes).1 with
  | none => simp
  | some m => simp

theorem meta_handleMessage {σ : Type*} (h : Handler σ) (conn : RawConnectionImpl σ) :
    (conn.handleMessage h).1.decoder.meta_ = conn.decoder.meta_ := by
  simp only [handleMessage]
  split
  · rfl
  · rfl

/-- The turns that a byte can take, but for the faults. -/
theorem meta_turn {conn conn' : RawConnectionImpl Service} {input : UInt8}
    {h : Handler Service}
    (hturn : turn codec h conn input = .next conn' ∨ turn codec h conn input = .stop (.ok conn')) :
    conn'.decoder.meta_ =
      ((completed conn.decoder input).map fun bytes => (codec.parseFromArray bytes).1).getD
        conn.decoder.meta_ := by
  unfold turn at hturn
  rcases hconsume : conn.decoder.consume codec input with fault | ⟨decoder, result⟩
  · simp [hconsume] at hturn
  -- `Handle` and the reset after it leave `meta_` as `Consume` left it
  rw [← meta_consume hconsume]
  rw [hconsume] at hturn
  cases result with
  | indeterminate =>
      obtain h | h := hturn
      · cases h
        rfl
      · cases h
  | «false» =>
      obtain h | h := hturn
      · cases h
      · cases h
        rfl
  | «true» =>
      have hmeta := meta_handleMessage h { conn with decoder := decoder }
      simp only at hturn
      rcases hhandle : handleMessage h { conn with decoder := decoder } with ⟨conn'', accepted⟩
      rw [hhandle] at hturn hmeta
      cases accepted with
      | «true» =>
          obtain h | h := hturn
          · cases h
            exact hmeta
          · cases h
      | «false» =>
          obtain h | h := hturn
          · cases h
          · cases h
            exact hmeta

/-- What `CallServiceMethodDone` finds behind its pointer. -/
def Current (s : State) : Prop := s.conn.decoder.meta_ = s.decoded.getLastD {}

theorem Current.step (h : Current s)
    (hstep : Replies.step codec registered parses s e = some s') : Current s' := by
  have hturn : ∀ {input conn'},
      turn codec (handle registered parses) s.conn input = .next conn' ∨
        turn codec (handle registered parses) s.conn input = .stop (.ok conn') →
      conn'.decoder.meta_ =
        (s.decoded ++ parsedBy codec s.conn.decoder input).getLastD {} := by
    intro input conn' hconn
    rw [meta_turn hconn, getLastD_parsedBy, show s.conn.decoder.meta_ = _ from h]
  cases e with
  | byte input =>
      simp only [Replies.step] at hstep
      split at hstep
      · cases hstep
      split at hstep
      · rename_i conn' hconn
        cases hstep
        exact hturn (Or.inl hconn)
      · rename_i conn' hconn
        cases hstep
        exact hturn (Or.inr hconn)
      · cases hstep
  | call responseIdentify seq =>
      simp only [Replies.step, Option.map_eq_some_iff] at hstep
      obtain ⟨r, -, rfl⟩ := hstep
      exact h
  | done closure content =>
      simp only [Replies.step, Option.map_eq_some_iff] at hstep
      obtain ⟨q, -, rfl⟩ := hstep
      exact h
  | close =>
      cases hstep
      exact h

/-! ### Which replies are queued -/

/-- A step that queues nothing, or one that runs a closure of an open connection. -/
theorem replies_step (hstep : step codec registered parses s e = some s') :
    s'.replies = s.replies ∧ InTime s e ∨
      ∃ closure content q, e = .done closure content ∧ s.closing = false ∧
        (s.conn.service.closures.find? fun q => q.1 = closure) = some q ∧
        s'.replies = s.replies ++ [(q.2, responseMeta s.conn.decoder.meta_ content)] := by
  cases e with
  | byte input =>
      simp only [step] at hstep
      split at hstep
      · cases hstep
      split at hstep
      · cases hstep
        exact Or.inl ⟨rfl, trivial⟩
      · cases hstep
        exact Or.inl ⟨rfl, trivial⟩
      · cases hstep
  | call responseIdentify seq =>
      simp only [step, Option.map_eq_some_iff] at hstep
      obtain ⟨r, -, rfl⟩ := hstep
      exact Or.inl ⟨rfl, trivial⟩
  | done closure content =>
      simp only [step, Option.map_eq_some_iff] at hstep
      obtain ⟨q, hq, rfl⟩ := hstep
      cases hclosing : s.closing with
      | «true» =>
          refine Or.inl ⟨rfl, fun hopen => ?_⟩
          rw [hclosing] at hopen
          cases hopen
      | «false» => exact Or.inr ⟨closure, content, q, rfl, rfl, hq, rfl⟩
  | close =>
      cases hstep
      exact Or.inl ⟨rfl, trivial⟩

theorem tagged_concat {request reply : MetaData} {replies : List (MetaData × MetaData)} :
    (∀ q ∈ replies ++ [(request, reply)], q.2.identify = q.1.responseIdentify) ↔
      (∀ q ∈ replies, q.2.identify = q.1.responseIdentify) ∧
        reply.identify = request.responseIdentify := by
  simp [or_imp, forall_and]

/-- The reply to a request is tagged by the frame decoded last. -/
theorem tagged_step_iff (h : Current s) (hstep : step codec registered parses s e = some s') :
    Tagged s' ↔ Tagged s ∧ InTime s e := by
  obtain ⟨hreplies, htime⟩ | ⟨closure, content, q, rfl, hopen, hq, hreplies⟩ := replies_step hstep
  · rw [Tagged, Tagged, hreplies]
    exact (and_iff_left htime).symm
  · rw [Tagged, Tagged, hreplies, tagged_concat]
    refine and_congr_right fun _ => ?_
    have hidentify : (responseMeta s.conn.decoder.meta_ content).identify =
        (s.decoded.getLastD {}).responseIdentify := by
      rw [show s.conn.decoder.meta_ = _ from h]
      rfl
    rw [hidentify]
    constructor
    · intro heq _ q' hq'
      obtain rfl : q = q' := Option.some.inj (hq.symm.trans hq')
      exact heq
    · intro htime
      exact htime hopen q hq

/-- **When every reply is tagged with its request**: exactly when each closure that
an open connection's service runs finds a frame decoded last that asks for the
same response identifier. -/
theorem run_tagged_iff {es : List Event}
    (hrun : Machine.run (step codec registered parses) {} es = some s) :
    Tagged s ↔ Machine.Along (step codec registered parses) InTime {} es := by
  have hinit : Current {} := rfl
  constructor
  · intro htagged
    apply Machine.Along.of_run (I := Current) (J := fun t => ¬ Tagged t)
      (fun t e t' h => h.step) ?_ ?_ hinit hrun (not_not.mpr htagged)
    · intro t e t' h hmiss hstep htagged'
      exact hmiss ((tagged_step_iff h hstep).mp htagged').2
    · intro t e t' h hbad hstep htagged'
      exact hbad ((tagged_step_iff h hstep).mp htagged').1
  · intro halong
    have hkeep : ∀ t e t', InTime t e → Current t ∧ Tagged t →
        step codec registered parses t e = some t' → Current t' ∧ Tagged t' :=
      fun t e t' htime h hstep =>
        ⟨h.1.step hstep, (tagged_step_iff h.1 hstep).mpr ⟨h.2, htime⟩⟩
    have htagged : Tagged {} := fun q hq => by cases hq
    exact (Machine.run_invariant_along hkeep halong ⟨hinit, htagged⟩ hrun).2

/-- The bytes of a request to method 5 that asks for identifier 9, which is answered. -/
theorem run_tagged_iff_in_time :
    ∃ s, Machine.run (step MetaCodec.short (fun _ => true) fun _ _ => true) {}
        ([57, 58, 8, 1, 16, 5, 24, 9, 34, 1, 66].map Event.byte ++ [.done 0 [67]]) = some s ∧
      s.replies.map (fun q => (q.1.responseIdentify, q.2.identify)) = [(9, 9)] ∧ Tagged s := by
  obtain ⟨s, hrun, hreplies⟩ : ∃ s,
      Machine.run (step MetaCodec.short (fun _ => true) fun _ _ => true) {}
        ([57, 58, 8, 1, 16, 5, 24, 9, 34, 1, 66].map Event.byte ++ [.done 0 [67]]) = some s ∧
      s.replies.map (fun q => (q.1.responseIdentify, q.2.identify)) = [(9, 9)] := ⟨_, rfl, rfl⟩
  exact ⟨s, hrun, hreplies, (run_tagged_iff hrun).mpr (by decide)⟩

/-- Two requests, for the identifiers 9 and 10; the service runs the closure of the
first one after the second was decoded, and the reply is tagged 10. -/
theorem run_untagged :
    ∃ s, Machine.run (step MetaCodec.short (fun _ => true) fun _ _ => true) {}
        ([57, 58, 8, 1, 16, 5, 24, 9, 34, 1, 66,
          57, 58, 8, 1, 16, 5, 24, 10, 34, 1, 66].map Event.byte ++ [.done 0 [67]]) = some s ∧
      s.replies.map (fun q => (q.1.responseIdentify, q.2.identify)) = [(9, 10)] ∧
      ¬ Tagged s := by
  refine ⟨_, rfl, rfl, fun h => ?_⟩
  have := h _ (List.mem_singleton_self _)
  exact absurd this (by decide)

end Tt3d.Network.Replies
