import Tt3d.Network.Frames
import Tt3d.Network.WritePath

/-!
One direction of a connection, from `PushData` at the sender to `Handle` at the
receiver.

The bytes that the sender's socket accepts arrive in order, and a read takes some of
those that have not been read, a buffer full at most. When `Decode` returns false
the receiver disconnects, and reads no more.
-/

namespace Tt3d.Network

open Feed RawConnectionImpl

variable {σ : Type*} {codec : MetaCodec} {handle : Handler σ}

/-! ### Bytes on their way to a decoder -/

/-- The frame of `m` is read as `m` from wherever a frame can begin. -/
def Readable (codec : MetaCodec) (m : MetaData) : Prop :=
  ∀ d : ProtobufDecoder, d.state = .start → Accepts codec d (encoded codec m) m

theorem Sendable.readable {m : MetaData} (h : Sendable codec m) (hinv : codec.Inverts m) :
    Readable codec m := by
  obtain ⟨bytes, hbytes, hpos, hmax⟩ := h.encodes
  intro d hd
  exact (accepts_encoded_iff hbytes hinv h.responseIdentify hd).mpr ⟨h.content, hpos, by omega⟩

/-- `bytes` are what the decoder is still to read of the messages: the rest of the
frame that it is in, and whole frames after it. -/
def Awaits (codec : MetaCodec) (d : ProtobufDecoder) (bytes : Bytes) : List MetaData → Prop
  | [] => bytes = [] ∧ d.state = .start
  | m :: ms => ∃ bs, bytes = bs ++ (ms.map (encoded codec)).flatten ∧ Accepts codec d bs m

variable {d d' : ProtobufDecoder} {bytes : Bytes} {m : MetaData} {ms : List MetaData}

theorem awaits_frames (hd : d.state = .start) (hms : ∀ m ∈ ms, Readable codec m) :
    Awaits codec d (ms.map (encoded codec)).flatten ms := by
  cases ms with
  | nil => exact ⟨rfl, hd⟩
  | cons m ms => exact ⟨encoded codec m, rfl, hms m List.mem_cons_self d hd⟩

/-- A frame more at the end. -/
theorem Awaits.push (h : Awaits codec d bytes ms) (hm : Readable codec m) :
    Awaits codec d (bytes ++ encoded codec m) (ms ++ [m]) := by
  cases ms with
  | nil =>
      obtain ⟨rfl, hd⟩ := h
      exact ⟨encoded codec m, by simp, hm d hd⟩
  | cons m' ms =>
      obtain ⟨bs, rfl, haccepts⟩ := h
      exact ⟨bs, by simp, haccepts⟩

/-- What one byte does: it belongs to the first message, and completes it or not. -/
theorem Awaits.consume {b : UInt8} (h : Awaits codec d (b :: bytes) ms)
    (hms : ∀ m ∈ ms, Readable codec m) :
    ∃ m ms', ms = m :: ms' ∧
      ((∃ d', d.consume codec b = .ok (d', .indeterminate) ∧ Awaits codec d' bytes ms) ∨
        ∃ d', d.consume codec b = .ok (d', .true) ∧ d'.meta_ = m ∧
          Awaits codec d'.reset bytes ms') := by
  cases ms with
  | nil => cases h.1
  | cons m ms =>
      refine ⟨m, ms, rfl, ?_⟩
      obtain ⟨bs, hbytes, d', hdecode, hmeta⟩ := h
      cases bs with
      | nil => cases hdecode
      | cons b' bs =>
          obtain ⟨rfl, rfl⟩ := List.cons.inj hbytes
          rw [ProtobufDecoder.decode] at hdecode
          split at hdecode
          · cases hdecode
          · rename_i d'' hconsume
            exact Or.inl ⟨d'', hconsume, bs, rfl, d', hdecode, hmeta⟩
          · rename_i d'' result hnot hconsume
            cases hdecode
            refine Or.inr ⟨d', hconsume, hmeta, ?_⟩
            exact awaits_frames rfl fun m' hm' => hms m' (List.mem_cons_of_mem m hm')

/-! ### What `Handle` sees -/

/-- The state of `Handle` after the messages. -/
def serviceAfter (handle : Handler σ) : σ → List MetaData → σ
  | s, [] => s
  | s, m :: ms => serviceAfter handle (handle s m).2 ms

/-- The messages up to the first that `Handle` refuses. -/
def seen (handle : Handler σ) : σ → List MetaData → List MetaData
  | _, [] => []
  | s, m :: ms => m :: if (handle s m).1 then seen handle (handle s m).2 ms else []

theorem serviceAfter_append (s : σ) (ms ns : List MetaData) :
    serviceAfter handle s (ms ++ ns) = serviceAfter handle (serviceAfter handle s ms) ns := by
  induction ms generalizing s with
  | nil => rfl
  | cons m ms ih => exact ih _

theorem acceptsAll_append (s : σ) (ms ns : List MetaData) :
    acceptsAll handle s (ms ++ ns) =
      (acceptsAll handle s ms && acceptsAll handle (serviceAfter handle s ms) ns) := by
  induction ms generalizing s with
  | nil => rfl
  | cons m ms ih =>
      rw [List.cons_append, acceptsAll, acceptsAll, ih, Bool.and_assoc]
      rfl

theorem seen_append {s : σ} (h : acceptsAll handle s ms = true) (ns : List MetaData) :
    seen handle s (ms ++ ns) = ms ++ seen handle (serviceAfter handle s ms) ns := by
  induction ms generalizing s with
  | nil => rfl
  | cons m ms ih =>
      rw [acceptsAll, Bool.and_eq_true] at h
      rw [List.cons_append, seen, if_pos h.1, ih h.2]
      rfl

/-- A chunk of awaited bytes hands over messages in order, until it ends or `Handle`
refuses one. -/
theorem feed_awaits {conn : RawConnectionImpl σ} {chunk rest : Bytes}
    (h : Awaits codec conn.decoder (chunk ++ rest) ms) (hms : ∀ m ∈ ms, Readable codec m) :
    (∃ conn' done todo, feed (turn codec handle) conn chunk = .next conn' ∧ ms = done ++ todo ∧
      conn'.handled = conn.handled ++ done ∧ acceptsAll handle conn.service done = true ∧
      conn'.service = serviceAfter handle conn.service done ∧
      Awaits codec conn'.decoder rest todo) ∨
    ∃ conn' done m todo unread,
      feed (turn codec handle) conn chunk = .stop (.ok conn', unread) ∧ ms = done ++ m :: todo ∧
      conn'.handled = conn.handled ++ done ++ [m] ∧ acceptsAll handle conn.service done = true ∧
      (handle (serviceAfter handle conn.service done) m).1 = false := by
  induction chunk generalizing conn ms with
  | nil => exact Or.inl ⟨conn, [], ms, rfl, rfl, (List.append_nil _).symm, rfl, rfl, h⟩
  | cons b chunk ih =>
      obtain ⟨m, ms', rfl, ⟨d', hconsume, hawaits⟩ | ⟨d', hconsume, hmeta, hawaits⟩⟩ :=
        h.consume hms
      · have hturn : turn codec handle conn b = .next { conn with decoder := d' } := by
          simp only [turn, hconsume]
        rw [feed_cons_next hturn]
        have hnext : Awaits codec ({ conn with decoder := d' } : RawConnectionImpl σ).decoder
            (chunk ++ rest) (m :: ms') := hawaits
        exact ih hnext hms
      · have hms' : ∀ n ∈ ms', Readable codec n := fun n hn => hms n (List.mem_cons_of_mem m hn)
        cases hverdict : (handle conn.service m).1 with
        | false =>
            have hturn : turn codec handle conn b =
                .stop (.ok { decoder := d', service := (handle conn.service m).2,
                             handled := conn.handled ++ [m] }) := by
              simp only [turn, hconsume, handleMessage, hmeta, hverdict, Bool.false_eq_true,
                if_false]
            rw [feed_cons_stop hturn]
            exact Or.inr ⟨_, [], m, ms', chunk, rfl, rfl, by simp, rfl, hverdict⟩
        | true =>
            have hturn : turn codec handle conn b =
                .next { decoder := d'.reset, service := (handle conn.service m).2,
                        handled := conn.handled ++ [m] } := by
              simp only [turn, hconsume, handleMessage, hmeta, hverdict, if_true]
            have hnext : Awaits codec
                ({ decoder := d'.reset, service := (handle conn.service m).2,
                   handled := conn.handled ++ [m] } : RawConnectionImpl σ).decoder
                (chunk ++ rest) ms' := hawaits
            rw [feed_cons_next hturn]
            obtain ⟨conn', done, todo, hfeed, rfl, hhandled, haccept, hservice, hrest⟩ |
                ⟨conn', done, n, todo, unread, hfeed, rfl, hhandled, haccept, hrefuse⟩ :=
              ih hnext hms'
            · refine Or.inl ⟨conn', m :: done, todo, hfeed, rfl, ?_, ?_, hservice, hrest⟩
              · simp [hhandled]
              · rw [acceptsAll, hverdict]
                exact haccept
            · refine Or.inr ⟨conn', m :: done, n, todo, unread, hfeed, rfl, ?_, ?_, hrefuse⟩
              · simp [hhandled]
              · rw [acceptsAll, hverdict]
                exact haccept

/-! ### The two ends -/

structure Transport (σ : Type*) where
  sender : WritePath := {}
  /-- How many of the bytes that the sender's socket accepted have been read. -/
  taken : ℕ := 0
  receiver : RawConnectionImpl σ
  /-- `Decode` has returned false. -/
  closed : Bool := false
  /-- The receiver did not survive a chunk. -/
  crashed : Bool := false

namespace Transport

def kBufferSize : ℕ := 8192

inductive Event
  /-- `PushData` of the message, encoded. -/
  | pushData (m : MetaData)
  | scheduleWrite
  | handleWrite (i byteTransferred : ℕ)
  | handleRead (bytesTransferred : ℕ)
  deriving DecidableEq, Repr

/-- A write of some bytes takes one of them at least. -/
def step (codec : MetaCodec) (handle : Handler σ) (t : Transport σ) :
    Event → Option (Transport σ)
  | .pushData m => some { t with sender := t.sender.pushData (encodeMessage codec m) }
  | .scheduleWrite => some { t with sender := t.sender.scheduleWrite }
  | .handleWrite i byteTransferred =>
      if 0 < byteTransferred ∨ t.sender.outstanding[i]? = some [] then
        (t.sender.step (.handleWrite i byteTransferred)).map fun sender =>
          { t with sender := sender }
      else none
  | .handleRead bytesTransferred =>
      if t.closed = false ∧ t.crashed = false ∧ 0 < bytesTransferred ∧
          bytesTransferred ≤ kBufferSize ∧
          t.taken + bytesTransferred ≤ t.sender.accepted.length then
        match t.receiver.decode codec handle
            ((t.sender.accepted.drop t.taken).take bytesTransferred) with
        | .error _ => some { t with taken := t.taken + bytesTransferred, crashed := true }
        | .ok (receiver, result, _) =>
            some { t with
              taken := t.taken + bytesTransferred
              receiver := receiver
              closed := !result }
      else none

/-- The messages pushed in a history, oldest first. -/
def pushed (es : List Event) : List MetaData :=
  es.filterMap fun
    | .pushData m => some m
    | _ => none

/-- Every `PushData` of the history has been followed by a `ScheduleWrite`. -/
def Scheduled (es : List Event) : Prop :=
  ∀ es₁ m es₂, es = es₁ ++ .pushData m :: es₂ → .scheduleWrite ∈ es₂

/-- No write and no read can complete. -/
def Quiet (codec : MetaCodec) (handle : Handler σ) (t : Transport σ) : Prop :=
  (∀ i n, step codec handle t (.handleWrite i n) = none) ∧
    ∀ n, step codec handle t (.handleRead n) = none

def Event.isIo : Event → Bool
  | .handleWrite .. | .handleRead .. => true
  | _ => false

/-- The bytes that the receiver has not read. -/
def unread (t : Transport σ) : Bytes := t.sender.accepted.drop t.taken ++ t.sender.unsent

/-- The receiver has handled the first messages and awaits the others. -/
structure Open (codec : MetaCodec) (handle : Handler σ) (s : σ) (ms : List MetaData)
    (t : Transport σ) : Prop where
  open_ : t.closed = false
  accepts : acceptsAll handle s t.receiver.handled = true
  service : t.receiver.service = serviceAfter handle s t.receiver.handled
  awaits : ∃ todo, ms = t.receiver.handled ++ todo ∧ (∀ m ∈ todo, Readable codec m) ∧
    Awaits codec t.receiver.decoder t.unread todo

/-- `Handle` refused the last message that it saw, and no other. -/
structure Refused (handle : Handler σ) (s : σ) (ms : List MetaData) (t : Transport σ) :
    Prop where
  closed : t.closed = true
  refuses : ∃ done m todo, t.receiver.handled = done ++ [m] ∧ ms = done ++ m :: todo ∧
    acceptsAll handle s done = true ∧ (handle (serviceAfter handle s done) m).1 = false

structure Delivers (codec : MetaCodec) (handle : Handler σ) (s : σ) (ms : List MetaData)
    (t : Transport σ) : Prop where
  sender : t.sender.Good
  taken : t.taken ≤ t.sender.accepted.length
  survives : t.crashed = false
  receiver : Open codec handle s ms t ∨ Refused handle s ms t

variable {s : σ} {t t' : Transport σ}

theorem delivers_init : Delivers codec handle s [] { receiver := { service := s } } :=
  ⟨WritePath.good_init, le_rfl, rfl, Or.inl ⟨rfl, rfl, rfl, [], rfl, by simp, rfl, rfl⟩⟩

/-- The bytes that `PushData` adds. -/
theorem frame_encodeMessage (m : MetaData) :
    WritePath.frame (encodeMessage codec m) = encoded codec m := by
  unfold encoded
  cases encodeMessage codec m with
  | none => rfl
  | some d => rfl

theorem Delivers.pushData (h : Delivers codec handle s ms t) (hm : Readable codec m) :
    Delivers codec handle s (ms ++ [m])
      { t with sender := t.sender.pushData (encodeMessage codec m) } := by
  obtain ⟨hgood, haccepted, hunsent⟩ := h.sender.pushData (encodeMessage codec m)
  refine ⟨hgood, ?_, h.survives, ?_⟩
  · show t.taken ≤ (t.sender.pushData _).accepted.length
    rw [haccepted]
    exact h.taken
  · obtain hopen | ⟨hclosed, done, n, todo, hhandled, rfl, haccept, hrefuse⟩ := h.receiver
    · obtain ⟨todo, rfl, htodo, hawaits⟩ := hopen.awaits
      refine Or.inl ⟨hopen.open_, hopen.accepts, hopen.service, todo ++ [m], ?_, ?_, ?_⟩
      · exact List.append_assoc ..
      · intro n hn
        rcases List.mem_append.mp hn with hn | hn
        · exact htodo n hn
        · rw [List.mem_singleton.mp hn]
          exact hm
      · have hunread : unread { t with sender := t.sender.pushData (encodeMessage codec m) } =
            t.unread ++ encoded codec m := by
          simp only [unread, haccepted, hunsent, frame_encodeMessage, List.append_assoc]
        rw [hunread]
        exact hawaits.push hm
    · exact Or.inr ⟨hclosed, done, n, todo ++ [m], hhandled, by simp, haccept, hrefuse⟩

/-- What is unread stays the same while the sender moves bytes. -/
theorem drop_accepted_append_unsent {w w' : WritePath} {taken : ℕ}
    (htaken : taken ≤ w.accepted.length) (hlen : w.accepted.length ≤ w'.accepted.length)
    (hbytes : w'.accepted ++ w'.unsent = w.accepted ++ w.unsent) :
    w'.accepted.drop taken ++ w'.unsent = w.accepted.drop taken ++ w.unsent := by
  rw [← List.drop_append_of_le_length (htaken.trans hlen),
    ← List.drop_append_of_le_length htaken, hbytes]

/-- The sender moves bytes, and the receiver does not see it. -/
theorem Delivers.send {w : WritePath} (h : Delivers codec handle s ms t) (hgood : w.Good)
    (hlen : t.sender.accepted.length ≤ w.accepted.length)
    (hbytes : w.accepted ++ w.unsent = t.sender.accepted ++ t.sender.unsent) :
    Delivers codec handle s ms { t with sender := w } := by
  have htaken : t.taken ≤ w.accepted.length := h.taken.trans hlen
  have hunread : unread { t with sender := w } = t.unread :=
    drop_accepted_append_unsent h.taken hlen hbytes
  refine ⟨hgood, htaken, h.survives, ?_⟩
  rcases h.receiver with ⟨hopen, haccepts, hservice, todo, hms, htodo, hawaits⟩ | hrefused
  · refine Or.inl ⟨hopen, haccepts, hservice, todo, hms, htodo, ?_⟩
    rw [hunread]
    exact hawaits
  · exact Or.inr ⟨hrefused.closed, hrefused.refuses⟩

theorem step_handleRead {n : ℕ} (hstep : step codec handle t (.handleRead n) = some t') :
    0 < n ∧ t.taken + n ≤ t.sender.accepted.length ∧ t'.sender = t.sender ∧
      t'.taken = t.taken + n := by
  simp only [step, Option.ite_none_right_eq_some] at hstep
  obtain ⟨⟨-, -, hpos, -, hlen⟩, hstep⟩ := hstep
  split at hstep
  · obtain rfl := Option.some.inj hstep
    exact ⟨hpos, hlen, rfl, rfl⟩
  · obtain rfl := Option.some.inj hstep
    exact ⟨hpos, hlen, rfl, rfl⟩

/-- A chunk is read: it is the front of what is unread. -/
theorem Delivers.handleRead {n : ℕ} (h : Delivers codec handle s ms t)
    (hstep : step codec handle t (.handleRead n) = some t') :
    Delivers codec handle s ms t' := by
  simp only [step, Option.ite_none_right_eq_some] at hstep
  obtain ⟨⟨hclosed, -, -, -, hlen⟩, hstep⟩ := hstep
  obtain hopen | hrefused := h.receiver
  swap
  · rw [hrefused.closed] at hclosed
    cases hclosed
  obtain ⟨todo, rfl, htodo, hawaits⟩ := hopen.awaits
  have hsplit : t.unread = (t.sender.accepted.drop t.taken).take n ++
      (t.sender.accepted.drop (t.taken + n) ++ t.sender.unsent) := by
    rw [unread, ← List.append_assoc, ← List.drop_drop, List.take_append_drop]
  rw [hsplit] at hawaits
  rw [decode_eq] at hstep
  obtain ⟨conn', done, todo', hfeed, rfl, hhandled, haccept, hservice, hrest⟩ |
      ⟨conn', done, m, todo', unread, hfeed, rfl, hhandled, haccept, hrefuse⟩ :=
    @feed_awaits σ codec handle _ _ _ _ hawaits htodo
  · rw [hfeed] at hstep
    obtain rfl := Option.some.inj hstep
    refine ⟨h.sender, hlen, h.survives, Or.inl ⟨rfl, ?_, ?_, todo', ?_, ?_, hrest⟩⟩
    · show acceptsAll handle s conn'.handled = true
      rw [hhandled, acceptsAll_append, hopen.accepts, ← hopen.service]
      exact haccept
    · show conn'.service = serviceAfter handle s conn'.handled
      rw [hhandled, serviceAfter_append, ← hopen.service]
      exact hservice
    · show _ = conn'.handled ++ todo'
      rw [hhandled, List.append_assoc]
    · exact fun m hm => htodo m (List.mem_append_right done hm)
  · rw [hfeed] at hstep
    obtain rfl := Option.some.inj hstep
    refine ⟨h.sender, hlen, h.survives,
      Or.inr ⟨rfl, t.receiver.handled ++ done, m, todo', hhandled, ?_, ?_, ?_⟩⟩
    · rw [List.append_assoc]
    · rw [acceptsAll_append, hopen.accepts, ← hopen.service]
      exact haccept
    · rw [serviceAfter_append, ← hopen.service]
      exact hrefuse

theorem Delivers.step {e : Event} (h : Delivers codec handle s ms t)
    (he : ∀ m, e = .pushData m → Readable codec m)
    (hstep : Transport.step codec handle t e = some t') :
    Delivers codec handle s (ms ++ pushed [e]) t' := by
  cases e with
  | pushData m =>
      obtain rfl := Option.some.inj hstep
      exact h.pushData (he m rfl)
  | scheduleWrite =>
      obtain rfl := Option.some.inj hstep
      obtain ⟨hgood, haccepted, hunsent, -⟩ := h.sender.scheduleWrite
      show Delivers codec handle s (ms ++ []) _
      rw [List.append_nil]
      exact h.send hgood (by rw [haccepted]) (by rw [haccepted, hunsent])
  | handleWrite i n =>
      simp only [Transport.step, Option.ite_none_right_eq_some, Option.map_eq_some_iff] at hstep
      obtain ⟨hn, w, hw, rfl⟩ := hstep
      obtain ⟨hgood, hbytes, -⟩ := h.sender.handleWrite hw
      obtain ⟨hlen, -⟩ := h.sender.handleWrite_progress hn hw
      show Delivers codec handle s (ms ++ []) _
      rw [List.append_nil]
      exact h.send hgood (by omega) hbytes
  | handleRead n =>
      show Delivers codec handle s (ms ++ []) _
      rw [List.append_nil]
      exact h.handleRead hstep

/-! ### Bytes run out -/

/-- What is still to do for the bytes that were pushed: each is accepted and read, and
each buffer is passed. -/
def work (t : Transport σ) : ℕ :=
  2 * t.sender.unsent.length + (t.sender.accepted.length - t.taken) + t.sender.pieces

/-- What a pushed message adds to it. -/
def cost (codec : MetaCodec) : Event → ℕ
  | .pushData m => 2 * (encoded codec m).length + 2
  | _ => 0

theorem Delivers.work_step {e : Event} (h : Delivers codec handle s ms t)
    (hstep : Transport.step codec handle t e = some t') :
    work t' + (if e.isIo then 1 else 0) ≤ work t + cost codec e := by
  have htaken := h.taken
  cases e with
  | pushData m =>
      obtain rfl := Option.some.inj hstep
      obtain ⟨-, haccepted, hunsent⟩ := h.sender.pushData (encodeMessage codec m)
      have hpieces := h.sender.pieces_pushData (encodeMessage codec m)
      rw [frame_encodeMessage] at hunsent
      simp only [work, cost, Event.isIo, Bool.false_eq_true, if_false, haccepted, hunsent,
        List.length_append]
      omega
  | scheduleWrite =>
      obtain rfl := Option.some.inj hstep
      obtain ⟨-, haccepted, hunsent, -⟩ := h.sender.scheduleWrite
      have hpieces := WritePath.pieces_scheduleWrite t.sender
      simp only [work, cost, Event.isIo, Bool.false_eq_true, if_false, haccepted, hunsent,
        hpieces]
      omega
  | handleWrite i n =>
      simp only [Transport.step, Option.ite_none_right_eq_some, Option.map_eq_some_iff] at hstep
      obtain ⟨hn, w, hw, rfl⟩ := hstep
      obtain ⟨-, hbytes, -⟩ := h.sender.handleWrite hw
      obtain ⟨hlen, hle, hzero⟩ := h.sender.handleWrite_progress hn hw
      have hsum := congrArg List.length hbytes
      rw [List.length_append, List.length_append] at hsum
      simp only [work, cost, Event.isIo, if_true]
      rcases Nat.eq_zero_or_pos n with hn0 | hpos
      · have hlt := hzero hn0
        omega
      · omega
  | handleRead n =>
      obtain ⟨hpos, hlen, hsender, hread⟩ := step_handleRead hstep
      simp only [work, cost, Event.isIo, if_true, hsender, hread]
      omega

/-- Nothing is seen after the message that was refused. -/
theorem Refused.handled_eq (h : Refused handle s ms t) :
    t.receiver.handled = seen handle s ms := by
  obtain ⟨-, done, m, todo, hhandled, rfl, haccept, hrefuse⟩ := h
  rw [hhandled, seen_append haccept, seen, if_neg (by simp [hrefuse])]

/-- With no write to come the sender is idle, and has sent all that was scheduled; with
no read to come the receiver has closed, or has read it all. -/
theorem Delivers.handled_eq (h : Delivers codec handle s ms t)
    (hidle : t.sender.writing = false → t.sender.unsent = []) (hquiet : Quiet codec handle t) :
    t.receiver.handled = seen handle s ms := by
  obtain hopen | hrefused := h.receiver
  · have hwriting : t.sender.writing = false := by
      by_contra hbusy
      rw [Bool.not_eq_false] at hbusy
      obtain ⟨n, w, hn, hw⟩ := h.sender.exists_handleWrite hbusy
      have hstuck := hquiet.1 0 n
      rw [Transport.step, if_pos hn, hw] at hstuck
      cases hstuck
    have hread : t.sender.accepted.length ≤ t.taken := by
      by_contra hlt
      have hstuck := hquiet.2 1
      rw [Transport.step, if_pos ⟨hopen.open_, h.survives, Nat.one_pos, by decide, by omega⟩]
        at hstuck
      split at hstuck
      · cases hstuck
      · cases hstuck
    obtain ⟨todo, rfl, -, hawaits⟩ := hopen.awaits
    have hunread : t.unread = [] := by
      rw [unread, hidle hwriting, List.drop_eq_nil_of_le hread, List.append_nil]
    rw [hunread] at hawaits
    cases todo with
    | nil =>
        have hseen := seen_append hopen.accepts []
        rw [hseen, seen, List.append_nil]
    | cons m todo =>
        -- a frame is not complete before its last byte
        obtain ⟨bs, hbs, d', hdecode, -⟩ := hawaits
        obtain ⟨rfl, -⟩ := List.append_eq_nil_iff.mp hbs.symm
        cases hdecode
  · exact hrefused.handled_eq

theorem Delivers.handled_prefix (h : Delivers codec handle s ms t) :
    t.receiver.handled <+: seen handle s ms := by
  obtain hopen | hrefused := h.receiver
  · obtain ⟨todo, rfl, -, -⟩ := hopen.awaits
    rw [seen_append hopen.accepts]
    exact List.prefix_append _ _
  · exact hrefused.handled_eq ▸ List.prefix_refl _

theorem Delivers.closed_iff (h : Delivers codec handle s ms t) :
    t.closed = true ↔ acceptsAll handle s t.receiver.handled = false := by
  obtain hopen | ⟨hclosed, done, m, todo, hhandled, rfl, haccept, hrefuse⟩ := h.receiver
  · rw [hopen.open_, hopen.accepts]
    simp
  · rw [hclosed, hhandled, acceptsAll_append, haccept, acceptsAll, hrefuse]
    simp

/-- **The stream delivers.** However pushes, writes and reads interleave and however
the bytes are cut, the receiver survives, it handles the messages pushed in their order
up to the first that `Handle` refuses, and it closes just when one is refused. The
messages bound the writes and the reads, and when none is left to complete, all that
were scheduled have been handled. -/
theorem run_delivers {es : List Event}
    (hsendable : ∀ m, .pushData m ∈ es → Sendable codec m ∧ codec.Inverts m)
    (hrun : Machine.run (Transport.step codec handle) { receiver := { service := s } } es =
      some t) :
    t.crashed = false ∧ t.receiver.handled <+: seen handle s (pushed es) ∧
      (t.closed = true ↔ acceptsAll handle s t.receiver.handled = false) ∧
      es.countP Event.isIo ≤ (es.map (cost codec)).sum ∧
      (Scheduled es → Quiet codec handle t →
        t.receiver.handled = seen handle s (pushed es)) := by
  have hreadable : ∀ m, .pushData m ∈ es → Readable codec m := fun m hm =>
    (hsendable m hm).1.readable (hsendable m hm).2
  have hinv : (∀ m, .pushData m ∈ es → Readable codec m) →
      Delivers codec handle s (pushed es) t ∧
        (Scheduled es → t.sender.writing = false → t.sender.unsent = []) := by
    refine Machine.run_history (P := fun es t =>
      (∀ m, .pushData m ∈ es → Readable codec m) → Delivers codec handle s (pushed es) t ∧
        (Scheduled es → t.sender.writing = false → t.sender.unsent = [])) ?_ ?_ hrun
    · exact fun _ => ⟨delivers_init, fun _ _ => rfl⟩
    · intro es t e t' _ ih hstep hall
      obtain ⟨hdelivers, hidle⟩ := ih fun m hm => hall m (List.mem_append_left _ hm)
      have hlast : ∀ m, e = .pushData m → Readable codec m := fun m hm =>
        hall m (List.mem_append_right _ (by rw [hm]; exact List.mem_singleton_self _))
      have hpushed : pushed (es ++ [e]) = pushed es ++ pushed [e] := List.filterMap_append ..
      refine ⟨?_, fun hscheduled => ?_⟩
      · rw [hpushed]
        exact hdelivers.step hlast hstep
      · -- a push just made has no schedule behind it
        cases e with
        | pushData m => exact absurd (hscheduled es m [] rfl) List.not_mem_nil
        | scheduleWrite =>
            obtain rfl := Option.some.inj hstep
            exact hdelivers.sender.scheduleWrite.2.2.2
        | handleWrite i n =>
            simp only [Transport.step, Option.ite_none_right_eq_some,
              Option.map_eq_some_iff] at hstep
            obtain ⟨-, w, hw, rfl⟩ := hstep
            exact (hdelivers.sender.handleWrite hw).2.2
        | handleRead n =>
            obtain ⟨-, -, hsender, -⟩ := step_handleRead hstep
            rw [hsender]
            apply hidle
            rintro es₁ m es₂ rfl
            have hmem := hscheduled es₁ m (es₂ ++ [.handleRead n]) (by simp)
            simpa using hmem
  obtain ⟨hdelivers, hidle⟩ := hinv hreadable
  refine ⟨hdelivers.survives, hdelivers.handled_prefix, hdelivers.closed_iff, ?_,
    fun hscheduled hquiet => hdelivers.handled_eq (hidle hscheduled) hquiet⟩
  have haccount := Machine.run_account_le (I := fun u => ∃ ms, Delivers codec handle s ms u)
    (P := fun e => ∀ m, e = .pushData m → Readable codec m) work
    (fun e : Event => if e.isIo then 1 else 0) (cost codec) ?_ ?_ ?_ ⟨[], delivers_init⟩ hrun
  · rw [Machine.sum_map_ite] at haccount
    have hzero : work ({ receiver := { service := s } } : Transport σ) = 0 := rfl
    omega
  · rintro u e u' he ⟨ms, h⟩ hstep
    exact ⟨_, h.step he hstep⟩
  · rintro u e u' ⟨ms, h⟩ hstep
    exact h.work_step hstep
  · rintro e he m rfl
    exact hreadable m he

/-- A request and a response, the second pushed while the first is written, read in
three chunks that end inside of frames. `Handle` refuses the response. -/
theorem run_delivers_two_frames :
    ∃ t, Machine.run
        (Transport.step MetaCodec.short fun (s : ℕ) m => (m.type = .request, s + 1))
        { receiver := { service := 0 } }
        [.pushData (callMethodMeta 5 9 [66]), .scheduleWrite,
          .pushData (responseMeta (callMethodMeta 4 5 [1]) [65]), .handleWrite 0 4,
          .handleRead 3, .scheduleWrite, .handleWrite 0 7, .handleRead 8, .handleWrite 0 9,
          .handleRead 9] = some t ∧
      t.crashed = false ∧
      t.receiver.handled = [callMethodMeta 5 9 [66],
        responseMeta (callMethodMeta 4 5 [1]) [65]] ∧
      (t.closed = true ↔
        acceptsAll (fun (s : ℕ) m => (m.type = .request, s + 1)) 0 t.receiver.handled = false) := by
  obtain ⟨t, hrun, hhandled⟩ : ∃ t, Machine.run
        (Transport.step MetaCodec.short fun (s : ℕ) m => (m.type = .request, s + 1))
        { receiver := { service := 0 } }
        [.pushData (callMethodMeta 5 9 [66]), .scheduleWrite,
          .pushData (responseMeta (callMethodMeta 4 5 [1]) [65]), .handleWrite 0 4,
          .handleRead 3, .scheduleWrite, .handleWrite 0 7, .handleRead 8, .handleWrite 0 9,
          .handleRead 9] = some t ∧
      t.receiver.handled = [callMethodMeta 5 9 [66],
        responseMeta (callMethodMeta 4 5 [1]) [65]] := ⟨_, rfl, rfl⟩
  have hsendable : ∀ m, .pushData m ∈ [Event.pushData (callMethodMeta 5 9 [66]), .scheduleWrite,
      .pushData (responseMeta (callMethodMeta 4 5 [1]) [65]), .handleWrite 0 4, .handleRead 3,
      .scheduleWrite, .handleWrite 0 7, .handleRead 8, .handleWrite 0 9, .handleRead 9] →
      Sendable MetaCodec.short m ∧ MetaCodec.short.Inverts m := by
    intro m hm
    simp only [List.mem_cons, Event.pushData.injEq, reduceCtorEq, List.not_mem_nil, or_false,
      false_or] at hm
    rcases hm with rfl | rfl
    · refine ⟨⟨by decide, by decide, _, rfl, by decide, by decide⟩, fun bytes hbytes => ?_⟩
      obtain rfl := Option.some.inj hbytes
      decide
    · refine ⟨⟨by decide, by decide, _, rfl, by decide, by decide⟩, fun bytes hbytes => ?_⟩
      obtain rfl := Option.some.inj hbytes
      decide
  obtain ⟨hcrashed, -, hclosed, -⟩ := run_delivers hsendable hrun
  exact ⟨t, hrun, hcrashed, hhandled, hclosed⟩

end Transport

end Tt3d.Network
