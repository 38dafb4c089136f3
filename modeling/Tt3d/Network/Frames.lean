import Tt3d.Network.Decoding

/-!
The frames that the two senders push, and whether the peer's decoder takes them.

`CallMethod` sends requests and `CallServiceMethodDone` sends responses. Both set
all required fields of the `MetaData`; neither looks at the content.
-/

namespace Tt3d.Network

open Feed RawConnectionImpl

variable {codec : MetaCodec}

/-- `meta` in `CallMethod`, with the request serialised into its content. -/
def callMethodMeta (requestIdentify responseIdentify : UInt64) (content : Bytes) : MetaData :=
  { type_ := some .request
    identify_ := some requestIdentify
    responseIdentify_ := some responseIdentify
    content_ := some content }

/-- `response_meta` in `CallServiceMethodDone`, with the response serialised into
its content. -/
def responseMeta (requestMeta : MetaData) (content : Bytes) : MetaData :=
  { type_ := some .response
    identify_ := some requestMeta.responseIdentify
    content_ := some content }

/-- The decoder completes `m` with the last byte of `stream`. -/
def Accepts (codec : MetaCodec) (d : ProtobufDecoder) (stream : Bytes) (m : MetaData) : Prop :=
  ∃ d', d.decode codec stream = .ok (d', .true, []) ∧ d'.meta_ = m

/-- The handler that refuses everything: it shows what the decoder completes. -/
def refuse : Handler Unit := fun s _ => (false, s)

theorem accepts_iff_outcome {d : ProtobufDecoder} {stream : Bytes} {m : MetaData} :
    Accepts codec d stream m ↔
      ∃ d', outcome (feed (turn codec refuse) { decoder := d, service := () } stream) =
        .ok ({ decoder := d', service := (), handled := [m] }, false, []) := by
  rw [outcome_feed]
  unfold Accepts
  rcases d.decode codec stream with fault | ⟨d', result, rest⟩
  · simp
  · cases result with
    | «true» =>
        simp only [handleMessage, refuse, Bool.false_eq_true, if_false, List.nil_append,
          Except.ok.injEq, Prod.mk.injEq, true_and]
        constructor
        · rintro ⟨_, ⟨rfl, rfl⟩, hm⟩
          exact ⟨d', by rw [hm], rfl⟩
        · rintro ⟨d'', hconn, rfl⟩
          cases hconn
          exact ⟨d', ⟨rfl, rfl⟩, rfl⟩
    | «false» => simp
    | indeterminate => simp

/-- A frame is accepted exactly when its content is not empty and its length is
that of a frame. -/
theorem accepts_encoded_iff {m : MetaData} {bytes : Bytes}
    (hbytes : codec.appendToString m = some bytes) (hinv : codec.Inverts m)
    (hidentify : m.type = .request → m.hasResponseIdentify = true) {d : ProtobufDecoder}
    (hstart : d.state = .start) :
    Accepts codec d (encoded codec m) m ↔
      m.content ≠ [] ∧ 1 ≤ bytes.length ∧ bytes.length < 2 ^ 31 - 1 := by
  have happend : encoded codec m ++ [] = encoded codec m := List.append_nil _
  have hheader := encoded_append hbytes []
  rw [List.append_nil, List.append_nil] at hheader
  rw [accepts_iff_outcome]
  constructor
  · rintro ⟨d', hd'⟩
    -- A frame that is too long is not survived, so `Reads` applies to the others.
    have hmax : bytes.length < 2 ^ 31 - 1 := by
      by_contra hbig
      have hfault : ∃ fault rest, feed (turn codec refuse) { decoder := d, service := () }
          (encoded codec m) = .stop (.error fault, rest) :=
        feed_fault codec refuse hstart (n := bytes.length)
          (by rw [hheader, lengthPrefix_header]) (by omega)
      obtain ⟨fault, rest, hfault⟩ := hfault
      rw [hfault] at hd'
      cases hd'
    have hreads : Reads codec refuse { decoder := d, service := () } (encoded codec m)
        (readFrame codec (encoded codec m)) :=
      feed_frame hstart fun n hn => by
        rw [hheader, lengthPrefix_header, Option.some.injEq] at hn
        omega
    rw [hheader, readFrame_header, ← hheader] at hreads
    have hpos : 1 ≤ bytes.length := by
      by_contra hzero
      obtain rfl : bytes = [] := List.length_eq_zero_iff.mp (by omega)
      obtain ⟨d'', hd''⟩ := hreads
      rw [hd''] at hd'
      cases hd'
    refine ⟨fun hempty => ?_, hpos, hmax⟩
    have hnone : legalMessage codec bytes = none := by
      unfold legalMessage
      rw [hinv bytes hbytes]
      exact if_neg fun h => h.2.2 hempty
    have hcontent : readContent codec bytes.length (bytes ++ []) =
        (legalMessage codec bytes).elim (.malformed []) (.message · []) :=
      readContent_encoded hpos []
    rw [List.append_nil, hnone, Option.elim_none] at hcontent
    rw [hcontent] at hreads
    obtain ⟨d'', hd''⟩ := hreads
    rw [hd''] at hd'
    cases hd'
  · rintro ⟨hcontent, hpos, hmax⟩
    have hsend : Sendable codec m := ⟨hcontent, hidentify, bytes, hbytes, hpos, by omega⟩
    have hreads : Reads codec refuse { decoder := d, service := () } (encoded codec m ++ [])
        (readFrame codec (encoded codec m ++ [])) :=
      feed_frame hstart fun n => lengthPrefix_encoded hsend
    rw [readFrame_encoded hsend hinv, happend] at hreads
    simp only [Reads] at hreads
    rw [if_neg (by simp [refuse])] at hreads
    obtain ⟨d', hd'⟩ := hreads
    exact ⟨d', by rw [hd']; rfl⟩

/-- **When a sender's frame is accepted**: exactly when the serialised request or
response is not empty and the frame is not too long. -/
theorem senders_frames_accepted_iff (codec : MetaCodec) {d : ProtobufDecoder}
    (hstart : d.state = .start) :
    (∀ requestIdentify responseIdentify content bytes,
      codec.appendToString (callMethodMeta requestIdentify responseIdentify content) =
          some bytes →
        codec.Inverts (callMethodMeta requestIdentify responseIdentify content) →
        (Accepts codec d
            (encoded codec (callMethodMeta requestIdentify responseIdentify content))
            (callMethodMeta requestIdentify responseIdentify content) ↔
          content ≠ [] ∧ 1 ≤ bytes.length ∧ bytes.length < 2 ^ 31 - 1)) ∧
    ∀ requestMeta content bytes,
      codec.appendToString (responseMeta requestMeta content) = some bytes →
        codec.Inverts (responseMeta requestMeta content) →
        (Accepts codec d (encoded codec (responseMeta requestMeta content))
            (responseMeta requestMeta content) ↔
          content ≠ [] ∧ 1 ≤ bytes.length ∧ bytes.length < 2 ^ 31 - 1) := by
  refine ⟨fun requestIdentify responseIdentify content bytes hbytes hinv => ?_,
    fun requestMeta content bytes hbytes hinv => ?_⟩
  · exact accepts_encoded_iff hbytes hinv (fun _ => rfl) hstart
  · exact accepts_encoded_iff hbytes hinv (fun h => by cases h) hstart

/-- A request with one byte of content, and the decoder of a new connection. -/
theorem senders_frames_accepted_request :
    Accepts MetaCodec.short {} (encoded MetaCodec.short (callMethodMeta 5 9 [66]))
        (callMethodMeta 5 9 [66]) ↔
      ([66] : Bytes) ≠ [] ∧ 1 ≤ 9 ∧ 9 < 2 ^ 31 - 1 := by
  refine (senders_frames_accepted_iff MetaCodec.short rfl).1 5 9 [66]
    [8, 1, 16, 5, 24, 9, 34, 1, 66] rfl ?_
  rintro bytes hbytes
  obtain rfl := Option.some.inj hbytes
  decide

/-- A request and a response without content are encoded, and both are rejected. -/
theorem senders_frames_empty_content :
    (MetaCodec.short.appendToString (callMethodMeta 5 9 []) = some [8, 1, 16, 5, 24, 9, 34, 0] ∧
      MetaCodec.short.Inverts (callMethodMeta 5 9 []) ∧
      ¬ Accepts MetaCodec.short {} (encoded MetaCodec.short (callMethodMeta 5 9 []))
        (callMethodMeta 5 9 [])) ∧
    (MetaCodec.short.appendToString (responseMeta (callMethodMeta 5 9 [66]) []) =
        some [8, 2, 16, 9, 34, 0] ∧
      MetaCodec.short.Inverts (responseMeta (callMethodMeta 5 9 [66]) []) ∧
      ¬ Accepts MetaCodec.short {}
        (encoded MetaCodec.short (responseMeta (callMethodMeta 5 9 [66]) []))
        (responseMeta (callMethodMeta 5 9 [66]) [])) := by
  refine ⟨⟨rfl, ?_, ?_⟩, rfl, ?_, ?_⟩
  · rintro bytes hbytes
    obtain rfl := Option.some.inj hbytes
    decide
  · rintro ⟨d', hd', -⟩
    cases hd'
  · rintro bytes hbytes
    obtain rfl := Option.some.inj hbytes
    decide
  · rintro ⟨d', hd', -⟩
    cases hd'

end Tt3d.Network
