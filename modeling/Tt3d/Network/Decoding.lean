import Tt3d.Network.Grammar

/-!
The decoder accepts its grammar, and decoding undoes encoding.

Both results are about streams cut into chunks anywhere. The first compares the
incremental decoder with the parser of whole streams, frame after frame; the
second runs it on what `EncodeMessage` wrote.
-/

namespace Tt3d.Network

open Decimal Feed RawConnectionImpl

variable {σ : Type*} {codec : MetaCodec} {handle : Handler σ}

/-! ### The parser, frame by frame -/

theorem parse_of_incomplete {s : σ} {stream : Bytes} (h : readFrame codec stream = .incomplete) :
    parse codec handle s stream = { service := s, prefixes := (lengthPrefix stream).toList } := by
  rw [parse]
  split
  · rfl
  · rename_i hframe
    rw [h] at hframe
    cases hframe
  · rename_i hframe
    rw [h] at hframe
    cases hframe

theorem parse_of_malformed {s : σ} {stream rest : Bytes}
    (h : readFrame codec stream = .malformed rest) :
    parse codec handle s stream =
      { accepted := false, rest := rest, service := s,
        prefixes := (lengthPrefix stream).toList } := by
  rw [parse]
  split
  · rename_i hframe
    rw [h] at hframe
    cases hframe
  · rename_i hframe
    rw [h] at hframe
    cases hframe
    rfl
  · rename_i hframe
    rw [h] at hframe
    cases hframe

theorem parse_of_message {s : σ} {stream rest : Bytes} {m : MetaData}
    (h : readFrame codec stream = .message m rest) :
    parse codec handle s stream =
      if (handle s m).1 then
        { parse codec handle (handle s m).2 rest with
          handled := m :: (parse codec handle (handle s m).2 rest).handled
          prefixes := (lengthPrefix stream).toList ++
            (parse codec handle (handle s m).2 rest).prefixes }
      else
        { handled := [m], accepted := false, rest := rest, service := (handle s m).2,
          prefixes := (lengthPrefix stream).toList } := by
  rw [parse]
  split
  · rename_i hframe
    rw [h] at hframe
    cases hframe
  · rename_i hframe
    rw [h] at hframe
    cases hframe
  · rename_i hframe
    rw [h] at hframe
    cases hframe
    rfl

/-- The first length prefix is one of those the parser meets. -/
theorem mem_prefixes {s : σ} {stream : Bytes} {n : ℕ} (h : lengthPrefix stream = some n) :
    n ∈ (parse codec handle s stream).prefixes := by
  have hmem : n ∈ (lengthPrefix stream).toList := by simp [h]
  cases hframe : readFrame codec stream with
  | incomplete => rwa [parse_of_incomplete hframe]
  | malformed rest => rwa [parse_of_malformed hframe]
  | message m rest =>
      rw [parse_of_message hframe]
      split
      · exact List.mem_append_left _ hmem
      · exact hmem

/-- The result of `Decode` on a whole stream, in the parser's words. -/
theorem outcome_eq_parse (codec : MetaCodec) (handle : Handler σ) (conn : RawConnectionImpl σ)
    (stream : Bytes) (hstart : conn.decoder.state = .start)
    (hsmall : ∀ n ∈ (parse codec handle conn.service stream).prefixes, n + 1 < 2 ^ 31) :
    ∃ d, outcome (feed (turn codec handle) conn stream) =
      .ok ({ decoder := d
             service := (parse codec handle conn.service stream).service
             handled := conn.handled ++ (parse codec handle conn.service stream).handled },
        (parse codec handle conn.service stream).accepted,
        (parse codec handle conn.service stream).rest) := by
  -- By induction on the stream, frame by frame.
  induction hlen : stream.length using Nat.strong_induction_on generalizing conn stream with
  | _ len ih =>
      have hreads : Reads codec handle conn stream (readFrame codec stream) :=
        feed_frame hstart fun n hn => hsmall n (mem_prefixes hn)
      cases hframe : readFrame codec stream with
      | incomplete =>
          rw [hframe] at hreads
          obtain ⟨d, hd⟩ := hreads
          rw [parse_of_incomplete hframe, hd]
          exact ⟨d, by simp [outcome]⟩
      | malformed rest =>
          rw [hframe] at hreads
          obtain ⟨d, hd⟩ := hreads
          rw [parse_of_malformed hframe, hd]
          exact ⟨d, by simp [outcome]⟩
      | message m rest =>
          rw [hframe] at hreads
          rw [parse_of_message hframe] at hsmall ⊢
          simp only [Reads] at hreads
          split at hreads
          · rename_i haccept
            rw [if_pos haccept] at hsmall ⊢
            obtain ⟨d, hd⟩ := ih rest.length (hlen ▸ readFrame_rest hframe)
              (conn.afterMessage handle m) rest rfl
              (fun n hn => hsmall n (List.mem_append_right _ hn)) rfl
            refine ⟨d, ?_⟩
            rw [hreads, hd]
            simp [afterMessage]
          · rename_i hrefuse
            obtain ⟨d, hd⟩ := hreads
            rw [if_neg hrefuse, hd]
            exact ⟨d, rfl⟩

/-- A length prefix that is too large ends `Decode` with a fault. -/
theorem outcome_fault (codec : MetaCodec) (handle : Handler σ) (conn : RawConnectionImpl σ)
    (stream : Bytes) (hstart : conn.decoder.state = .start)
    (hbig : ∃ n ∈ (parse codec handle conn.service stream).prefixes, ¬ n + 1 < 2 ^ 31) :
    ∃ fault, outcome (feed (turn codec handle) conn stream) = .error fault := by
  induction hlen : stream.length using Nat.strong_induction_on generalizing conn stream with
  | _ len ih =>
      by_cases hfirst : ∃ n, lengthPrefix stream = some n ∧ ¬ n + 1 < 2 ^ 31
      · obtain ⟨n, hn, hbig⟩ := hfirst
        obtain ⟨fault, rest, hfault⟩ := feed_fault codec handle hstart hn hbig
        exact ⟨fault, by rw [hfault]; rfl⟩
      have hsmall : ∀ n, lengthPrefix stream = some n → n + 1 < 2 ^ 31 := fun n hn => by
        by_contra hnot
        exact hfirst ⟨n, hn, hnot⟩
      have hreads : Reads codec handle conn stream (readFrame codec stream) :=
        feed_frame hstart hsmall
      obtain ⟨n, hn, hbig⟩ := hbig
      have hlater : n ∉ (lengthPrefix stream).toList := fun h =>
        hbig (hsmall n (by simpa using h))
      -- The prefix lies in a later frame, so this one is a message that is accepted.
      cases hframe : readFrame codec stream with
      | incomplete =>
          rw [parse_of_incomplete hframe] at hn
          exact absurd hn hlater
      | malformed rest =>
          rw [parse_of_malformed hframe] at hn
          exact absurd hn hlater
      | message m rest =>
          rw [parse_of_message hframe] at hn
          rw [hframe] at hreads
          simp only [Reads] at hreads
          split at hreads
          · rename_i haccept
            rw [if_pos haccept] at hn
            rw [hreads]
            exact ih rest.length (hlen ▸ readFrame_rest hframe) (conn.afterMessage handle m) rest
              rfl ⟨n, (List.mem_append.mp hn).resolve_left hlater, hbig⟩ rfl
          · rename_i hrefuse
            rw [if_neg hrefuse] at hn
            exact absurd hn hlater

/-- **The decoder accepts exactly its grammar.** However the stream is cut, the
messages handed to `Handle`, the verdict and the byte at which a stream is
rejected are those of the reference parser. -/
theorem decodeChunks_eq_parse (codec : MetaCodec) (handle : Handler σ) (s : σ)
    (chunks : List Bytes)
    (hsmall : ∀ n ∈ (parse codec handle s chunks.flatten).prefixes, n < 2 ^ 31 - 1) :
    (∃ d, decodeChunks codec handle { service := s } chunks =
      .ok ({ decoder := d
             service := (parse codec handle s chunks.flatten).service
             handled := (parse codec handle s chunks.flatten).handled },
        (parse codec handle s chunks.flatten).accepted,
        (parse codec handle s chunks.flatten).rest)) ∧
    ∀ chunks', chunks'.flatten = chunks.flatten →
      decodeChunks codec handle { service := s } chunks' =
        decodeChunks codec handle { service := s } chunks := by
  refine ⟨?_, fun chunks' h => by rw [decodeChunks_eq, decodeChunks_eq, h]⟩
  rw [decodeChunks_eq]
  obtain ⟨d, hd⟩ := outcome_eq_parse codec handle { service := s } chunks.flatten rfl fun n hn => by
    have := hsmall n hn
    omega
  exact ⟨d, by simpa using hd⟩

/-- One response frame, in three chunks. -/
theorem decodeChunks_eq_parse_response :
    ∃ d, decodeChunks MetaCodec.short (fun s m => (true, m :: s)) { service := [] }
        [[55], [58, 8, 2], [16, 5, 34, 1, 65]] =
      .ok ({ decoder := d
             service := (parse MetaCodec.short (fun s m => (true, m :: s)) []
               [55, 58, 8, 2, 16, 5, 34, 1, 65]).service
             handled := (parse MetaCodec.short (fun s m => (true, m :: s)) []
               [55, 58, 8, 2, 16, 5, 34, 1, 65]).handled },
        (parse MetaCodec.short (fun s m => (true, m :: s)) []
          [55, 58, 8, 2, 16, 5, 34, 1, 65]).accepted,
        (parse MetaCodec.short (fun s m => (true, m :: s)) []
          [55, 58, 8, 2, 16, 5, 34, 1, 65]).rest) := by
  have hframe : readFrame MetaCodec.short [55, 58, 8, 2, 16, 5, 34, 1, 65] =
      .message { type_ := some .response, identify_ := some 5, content_ := some [65] } [] := by
    decide
  have hnone : readFrame MetaCodec.short [] = .incomplete := rfl
  refine (decodeChunks_eq_parse MetaCodec.short (fun s m => (true, m :: s)) []
    [[55], [58, 8, 2], [16, 5, 34, 1, 65]] ?_).1
  simp only [List.flatten_cons, List.flatten_nil, List.append_nil, List.cons_append,
    List.nil_append]
  rw [parse_of_message hframe, if_pos rfl, parse_of_incomplete hnone]
  decide

/-! ### Decoding what was encoded -/

/-- The bytes that `InternalPushData` queues for a message. -/
def encoded (codec : MetaCodec) (m : MetaData) : Bytes :=
  match encodeMessage codec m with
  | some (header, content) => header ++ content
  | none => []

/-- A message that may be sent: the receiver's checks hold of it, and its size is
that of a frame. -/
structure Sendable (codec : MetaCodec) (m : MetaData) : Prop where
  content : m.content ≠ []
  responseIdentify : m.type = .request → m.hasResponseIdentify = true
  encodes : ∃ bytes, codec.appendToString m = some bytes ∧ 1 ≤ bytes.length ∧
    bytes.length ≤ 2 ^ 31 - 2

/-- `Handle` accepts each of the messages when it sees them in this order. -/
def acceptsAll (handle : Handler σ) : σ → List MetaData → Bool
  | _, [] => true
  | s, m :: ms => (handle s m).1 && acceptsAll handle (handle s m).2 ms

theorem takeWhile_header (n : ℕ) (tail : Bytes) :
    (print n ++ colon :: tail).takeWhile isDigit = print n := by
  rw [List.takeWhile_append_of_pos fun b => isDigit_of_mem_print]
  simp [show isDigit colon = false from rfl]

theorem dropWhile_header (n : ℕ) (tail : Bytes) :
    (print n ++ colon :: tail).dropWhile isDigit = colon :: tail := by
  rw [List.dropWhile_append_of_pos fun b => isDigit_of_mem_print]
  simp [show isDigit colon = false from rfl]

theorem readFrame_header (n : ℕ) (tail : Bytes) :
    readFrame codec (print n ++ colon :: tail) = readContent codec n tail := by
  have hframe : ¬ (print n = [] ∨ colon ≠ colon) := by simp [print_ne_nil]
  simp only [readFrame, takeWhile_header, dropWhile_header, if_neg hframe, value_print]

theorem lengthPrefix_header (n : ℕ) (tail : Bytes) :
    lengthPrefix (print n ++ colon :: tail) = some n := by
  have hframe : ¬ (print n = [] ∨ colon ≠ colon) := by simp [print_ne_nil]
  simp only [lengthPrefix, takeWhile_header, dropWhile_header, if_neg hframe, value_print]

theorem encoded_append {m : MetaData} {bytes : Bytes} (h : codec.appendToString m = some bytes)
    (rest : Bytes) : encoded codec m ++ rest = print bytes.length ++ colon :: (bytes ++ rest) := by
  simp [encoded, encodeMessage, h]

/-- The content of an encoded frame is read as the message, if it may be sent. -/
theorem readContent_encoded {bytes : Bytes} (hpos : 1 ≤ bytes.length) (rest : Bytes) :
    readContent codec bytes.length (bytes ++ rest) =
      (legalMessage codec bytes).elim (.malformed rest) (.message · rest) := by
  unfold readContent
  rw [if_neg (by omega), if_neg (by simp), List.take_left, List.drop_left]
  cases legalMessage codec bytes with
  | none => rfl
  | some m => rfl

theorem legalMessage_encoded {m : MetaData} {bytes : Bytes} (h : Sendable codec m)
    (hparse : codec.parseFromArray bytes = (m, true)) : legalMessage codec bytes = some m := by
  unfold legalMessage
  rw [hparse]
  exact if_pos ⟨rfl, h.responseIdentify, h.content⟩

/-- A frame that was encoded is read as the message it was encoded from. -/
theorem readFrame_encoded {m : MetaData} (h : Sendable codec m) (hinv : codec.Inverts m)
    (rest : Bytes) : readFrame codec (encoded codec m ++ rest) = .message m rest := by
  obtain ⟨bytes, hbytes, hpos, -⟩ := h.encodes
  rw [encoded_append hbytes, readFrame_header, readContent_encoded hpos,
    legalMessage_encoded h (hinv bytes hbytes), Option.elim_some]

theorem lengthPrefix_encoded {m : MetaData} (h : Sendable codec m) {rest : Bytes} {n : ℕ}
    (hn : lengthPrefix (encoded codec m ++ rest) = some n) : n + 1 < 2 ^ 31 := by
  obtain ⟨bytes, hbytes, hpos, hmax⟩ := h.encodes
  rw [encoded_append hbytes, lengthPrefix_header, Option.some.injEq] at hn
  omega

/-- The step of the round trip: one encoded message, from one boundary to the next. -/
theorem feed_encoded {conn : RawConnectionImpl σ} {m : MetaData}
    (hstart : conn.decoder.state = .start) (h : Sendable codec m) (hinv : codec.Inverts m)
    (haccept : (handle conn.service m).1 = true) (rest : Bytes) :
    feed (turn codec handle) conn (encoded codec m ++ rest) =
      feed (turn codec handle) (conn.afterMessage handle m) rest := by
  have hreads : Reads codec handle conn (encoded codec m ++ rest)
      (readFrame codec (encoded codec m ++ rest)) :=
    feed_frame hstart fun n => lengthPrefix_encoded h
  rw [readFrame_encoded h hinv] at hreads
  simp only [Reads] at hreads
  rwa [if_pos haccept] at hreads

/-- The run of the round trip, by induction on the messages: the decoder stands
between two frames after each of them. -/
theorem feed_encoded_list {msgs : List MetaData} (conn : RawConnectionImpl σ)
    (hstart : conn.decoder = { meta_ := conn.decoder.meta_ })
    (hmsgs : ∀ m ∈ msgs, Sendable codec m ∧ codec.Inverts m)
    (haccept : acceptsAll handle conn.service msgs = true) :
    ∃ conn' : RawConnectionImpl σ,
      feed (turn codec handle) conn (msgs.map (encoded codec)).flatten = .next conn' ∧
      conn'.handled = conn.handled ++ msgs ∧ conn'.decoder = { meta_ := conn'.decoder.meta_ } := by
  induction msgs generalizing conn with
  | nil => exact ⟨conn, rfl, (List.append_nil _).symm, hstart⟩
  | cons m msgs ih =>
      obtain ⟨hsend, hinv⟩ := hmsgs m List.mem_cons_self
      rw [acceptsAll, Bool.and_eq_true] at haccept
      rw [List.map_cons, List.flatten_cons,
        feed_encoded (by rw [hstart]) hsend hinv haccept.1]
      obtain ⟨conn', hfeed, hhandled, hidle⟩ := ih (conn.afterMessage handle m) rfl
        (fun m' hm' => hmsgs m' (List.mem_cons_of_mem m hm')) haccept.2
      refine ⟨conn', hfeed, ?_, hidle⟩
      rw [hhandled]
      simp [afterMessage]

/-- **Decoding undoes encoding**, over any list of messages and any way to cut the
bytes into chunks. -/
theorem decodeChunks_encoded (codec : MetaCodec) (handle : Handler σ) (s : σ)
    (msgs : List MetaData) (chunks : List Bytes) (hmsgs : ∀ m ∈ msgs, Sendable codec m)
    (hinv : ∀ m ∈ msgs, codec.Inverts m) (haccept : acceptsAll handle s msgs = true)
    (hchunks : chunks.flatten = (msgs.map (encoded codec)).flatten) :
    ∃ conn, decodeChunks codec handle { service := s } chunks = .ok (conn, true, []) ∧
      conn.handled = msgs ∧ conn.decoder.state = .start ∧ conn.decoder.lengthStore = [] ∧
      conn.decoder.content = {} := by
  obtain ⟨conn, hfeed, hhandled, hidle⟩ := feed_encoded_list { service := s } rfl
    (fun m hm => ⟨hmsgs m hm, hinv m hm⟩) haccept
  refine ⟨conn, ?_, hhandled, by rw [hidle], by rw [hidle], by rw [hidle]⟩
  rw [decodeChunks_eq, hchunks, hfeed]
  rfl

/-- A request and a response, cut inside the digits and inside the contents. -/
theorem decodeChunks_encoded_two :
    ∃ conn, decodeChunks MetaCodec.short (fun (s : ℕ) _ => (true, s + 1)) { service := 0 }
        [[57], [58, 8, 1, 16, 5, 24], [], [9, 34, 1, 66, 55, 58, 8, 2], [16, 5, 34, 1, 65]] =
          .ok (conn, true, []) ∧
      conn.handled =
        [{ type_ := some .request, identify_ := some 5, responseIdentify_ := some 9,
           content_ := some [66] },
          { type_ := some .response, identify_ := some 5, content_ := some [65] }] ∧
      conn.decoder.state = .start ∧ conn.decoder.lengthStore = [] ∧ conn.decoder.content = {} := by
  refine decodeChunks_encoded MetaCodec.short (fun s _ => (true, s + 1)) 0 _ _ ?_ ?_ rfl
    (by decide)
  · simp only [List.mem_cons, List.not_mem_nil, or_false, forall_eq_or_imp, forall_eq]
    exact ⟨⟨by decide, by decide, _, rfl, by decide, by decide⟩,
      ⟨by decide, by decide, _, rfl, by decide, by decide⟩⟩
  · simp only [List.mem_cons, List.not_mem_nil, or_false, forall_eq_or_imp, forall_eq]
    constructor
    · rintro bytes hbytes
      obtain rfl := Option.some.inj hbytes
      decide
    · rintro bytes hbytes
      obtain rfl := Option.some.inj hbytes
      decide

end Tt3d.Network
