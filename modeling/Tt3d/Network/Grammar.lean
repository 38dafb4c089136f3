import Mathlib.Data.List.TakeWhile
import Tt3d.Network.Stream

/-!
The grammar of the line format, as a parser of whole streams.

The parser sees the stream at once: it looks for the end of the digits, cuts off
as many bytes as they say and reads them. `feed_frame` says that the incremental
decoder, started between two frames, does the same one byte at a time.
-/

namespace Tt3d.Network

open Decimal Feed

/-! ### The parser -/

/-- The message in the content of a frame, if it is one that may be sent. -/
def legalMessage (codec : MetaCodec) (content : Bytes) : Option MetaData :=
  let parsed := codec.parseFromArray content
  if parsed.2 ∧ (parsed.1.type = .request → parsed.1.hasResponseIdentify) ∧ parsed.1.content ≠ []
  then some parsed.1 else none

/-- What stands at the front of a stream; `rest` is what follows the frame, or the
first byte that shows it to be wrong. -/
inductive Frame
  | incomplete
  | malformed (rest : Bytes)
  | message (m : MetaData) (rest : Bytes)
  deriving DecidableEq, Repr

/-- The part of a frame after the colon. -/
def readContent (codec : MetaCodec) (n : ℕ) (stream : Bytes) : Frame :=
  if n = 0 then
    match stream with
    | [] => .incomplete
    | _ :: rest => .malformed rest
  else if stream.length < n then .incomplete
  else
    match legalMessage codec (stream.take n) with
    | none => .malformed (stream.drop n)
    | some m => .message m (stream.drop n)

def readFrame (codec : MetaCodec) (stream : Bytes) : Frame :=
  match stream.dropWhile isDigit with
  | [] => .incomplete
  | c :: rest =>
      if stream.takeWhile isDigit = [] ∨ c ≠ colon then .malformed rest
      else readContent codec (value (stream.takeWhile isDigit)) rest

/-- The length prefix at the front of a stream, when it is completed. -/
def lengthPrefix (stream : Bytes) : Option ℕ :=
  match stream.dropWhile isDigit with
  | [] => none
  | c :: _ =>
      if stream.takeWhile isDigit = [] ∨ c ≠ colon then none
      else some (value (stream.takeWhile isDigit))

structure Parse (σ : Type*) where
  /-- The messages handed to `Handle`, in order. -/
  handled : List MetaData := []
  accepted : Bool := true
  /-- What follows the byte at which the stream was rejected. -/
  rest : Bytes := []
  service : σ
  /-- The values of the length prefixes that were completed. -/
  prefixes : List ℕ := []
  deriving Repr

theorem readContent_rest {codec : MetaCodec} {n : ℕ} {stream rest : Bytes} {m : MetaData}
    (h : readContent codec n stream = .message m rest) : rest.length < stream.length := by
  unfold readContent at h
  split at h
  · split at h <;> cases h
  split at h
  · cases h
  split at h
  · cases h
  · cases h
    rw [List.length_drop]
    omega

theorem readFrame_rest {codec : MetaCodec} {stream rest : Bytes} {m : MetaData}
    (h : readFrame codec stream = .message m rest) : rest.length < stream.length := by
  unfold readFrame at h
  split at h
  · cases h
  rename_i c tail htail
  split at h
  · cases h
  have hlt := readContent_rest h
  have hle : (stream.dropWhile isDigit).length ≤ stream.length := List.length_dropWhile_le ..
  rw [htail, List.length_cons] at hle
  omega

variable {σ : Type*}

/-- The reference parser: frame after frame, until one is wrong or refused. -/
def parse (codec : MetaCodec) (handle : Handler σ) (s : σ) (stream : Bytes) : Parse σ :=
  match _h : readFrame codec stream with
  | .incomplete => { service := s, prefixes := (lengthPrefix stream).toList }
  | .malformed rest =>
      { accepted := false, rest := rest, service := s, prefixes := (lengthPrefix stream).toList }
  | .message m rest =>
      if (handle s m).1 then
        let p := parse codec handle (handle s m).2 rest
        { p with
          handled := m :: p.handled
          prefixes := (lengthPrefix stream).toList ++ p.prefixes }
      else
        { handled := [m], accepted := false, rest := rest, service := (handle s m).2,
          prefixes := (lengthPrefix stream).toList }
termination_by stream.length
decreasing_by exact readFrame_rest _h

/-! ### The decoder inside a frame -/

section Frames

variable {codec : MetaCodec} {handle : Handler σ} {conn : RawConnectionImpl σ}

namespace RawConnectionImpl

/-- The connection between two frames, after a message was accepted. -/
def afterMessage (conn : RawConnectionImpl σ) (handle : Handler σ) (m : MetaData) :
    RawConnectionImpl σ :=
  { decoder := { meta_ := m }
    service := (handle conn.service m).2
    handled := conn.handled ++ [m] }

theorem turn_of_indeterminate {b : UInt8} {d : ProtobufDecoder}
    (h : conn.decoder.consume codec b = .ok (d, .indeterminate)) :
    turn codec handle conn b = .next { conn with decoder := d } := by
  rw [turn, h]

theorem turn_of_false {b : UInt8} {d : ProtobufDecoder}
    (h : conn.decoder.consume codec b = .ok (d, .false)) :
    turn codec handle conn b = .stop (.ok { conn with decoder := d }) := by
  rw [turn, h]

theorem feed_digits {ds : Bytes} (hstate : conn.decoder.state = .length)
    (hdigits : ∀ b ∈ ds, isDigit b = true) :
    feed (turn codec handle) conn ds =
      .next { conn with decoder :=
        { conn.decoder with lengthStore := conn.decoder.lengthStore ++ ds } } := by
  induction ds generalizing conn with
  | nil => simp
  | cons b ds ih =>
      have hb : isDigit b = true := hdigits b List.mem_cons_self
      have hcolon : b ≠ colon := by
        rintro rfl
        cases hb
      have hturn : turn codec handle conn b = .next { conn with decoder :=
          { conn.decoder with lengthStore := conn.decoder.lengthStore ++ [b] } } := by
        apply turn_of_indeterminate
        simp [ProtobufDecoder.consume, hstate, hcolon, hb]
      rw [feed_cons_next hturn]
      refine Eq.trans (ih ?_ fun c hc => hdigits c (List.mem_cons_of_mem b hc)) ?_
      · exact hstate
      · simp

theorem feed_first_digits {ds : Bytes} (hstate : conn.decoder.state = .start) (hne : ds ≠ [])
    (hdigits : ∀ b ∈ ds, isDigit b = true) :
    feed (turn codec handle) conn ds =
      .next { conn with decoder := { conn.decoder with state := .length, lengthStore := ds } } := by
  obtain ⟨b, ds, rfl⟩ := List.exists_cons_of_ne_nil hne
  have hb : isDigit b = true := hdigits b List.mem_cons_self
  have hturn : turn codec handle conn b = .next { conn with decoder :=
      { conn.decoder with state := .length, lengthStore := [b] } } := by
    apply turn_of_indeterminate
    simp [ProtobufDecoder.consume, hstate, hb]
  rw [feed_cons_next hturn]
  refine Eq.trans (feed_digits ?_ fun c hc => hdigits c (List.mem_cons_of_mem b hc)) ?_
  · rfl
  · rfl

theorem turn_colon (hstate : conn.decoder.state = .length)
    (hsmall : value conn.decoder.lengthStore + 1 < 2 ^ 31) :
    turn codec handle conn colon = .next { conn with decoder :=
      { conn.decoder with
        state := .content
        length := value conn.decoder.lengthStore
        content := { capacity := value conn.decoder.lengthStore } } } := by
  have hcast : lexicalCastInt conn.decoder.lengthStore = .ok (value conn.decoder.lengthStore) :=
    if_pos (by omega)
  apply turn_of_indeterminate
  simp only [ProtobufDecoder.consume, hstate, if_true, hcast, Except.bind, Buffer.reserve,
    if_pos hsmall]
  rfl

/-- A length that no `int` holds, or that overflows in `reserve`, is not survived. -/
theorem turn_colon_fault (hstate : conn.decoder.state = .length)
    (hbig : ¬ value conn.decoder.lengthStore + 1 < 2 ^ 31) :
    ∃ fault, turn codec handle conn colon = .stop (.error fault) := by
  by_cases hint : value conn.decoder.lengthStore < 2 ^ 31
  · refine ⟨.intOverflow, ?_⟩
    simp only [turn, ProtobufDecoder.consume, hstate, if_true, lexicalCastInt, if_pos hint,
      Except.bind, Buffer.reserve, if_neg hbig, Except.map]
  · refine ⟨.badLexicalCast, ?_⟩
    simp only [turn, ProtobufDecoder.consume, hstate, if_true, lexicalCastInt, if_neg hint,
      Except.bind]

theorem feed_content {bytes w : Bytes} {n : ℕ} (hstate : conn.decoder.state = .content)
    (hbuffer : conn.decoder.content = ⟨w, n⟩) (hroom : w.length + bytes.length < n) :
    feed (turn codec handle) conn bytes =
      .next { conn with decoder := { conn.decoder with content := ⟨w ++ bytes, n⟩ } } := by
  induction bytes generalizing conn w with
  | nil =>
      rw [List.append_nil, ← hbuffer]
      rfl
  | cons input bytes ih =>
      rw [List.length_cons] at hroom
      have hmore : (w ++ [input]).length < n := by
        rw [List.length_append, List.length_singleton]
        omega
      have hturn : turn codec handle conn input = .next { conn with decoder :=
          { conn.decoder with content := ⟨w ++ [input], n⟩ } } := by
        apply turn_of_indeterminate
        simp [ProtobufDecoder.consume, hstate, hbuffer,
          Buffer.full_eq_false (w := w) (n := n) (by omega),
          Buffer.pushBack_of_lt (w := w) (n := n) input (by omega), Except.map,
          Buffer.full_eq_false hmore]
      rw [feed_cons_next hturn]
      refine Eq.trans (ih ?_ rfl ?_) ?_
      · exact hstate
      · rw [List.length_append, List.length_singleton]
        omega
      · rw [List.append_assoc]
        rfl

/-- `Consume` of the byte that completes a frame. -/
theorem consume_last (codec : MetaCodec) {d : ProtobufDecoder} (input : UInt8) {w : Bytes} {n : ℕ}
    (hstate : d.state = .content) (hbuffer : d.content = ⟨w, n⟩) (hlast : w.length + 1 = n) :
    match legalMessage codec (w ++ [input]) with
    | none => ∃ d', d.consume codec input = .ok (d', .false)
    | some m => d.consume codec input =
        .ok ({ d with state := .end, content := ⟨w ++ [input], n⟩, meta_ := m }, .true) := by
  have hfull : Buffer.full ⟨w, n⟩ = false := Buffer.full_eq_false (by omega)
  have hcomplete : Buffer.full ⟨w ++ [input], n⟩ = true := by
    rw [Buffer.full_iff, List.length_append, List.length_singleton, hlast]
  simp only [ProtobufDecoder.consume, hstate, hbuffer, hfull, Bool.false_eq_true, if_false,
    Buffer.pushBack_of_lt input (show w.length < n by omega), Except.map, hcomplete, if_true,
    Buffer.content, legalMessage]
  rcases codec.parseFromArray (w ++ [input]) with ⟨m, ok⟩
  cases ok with
  | false => simp
  | true =>
      by_cases htype : m.type = .request ∧ m.hasResponseIdentify = false
      · simp [htype.1, htype.2]
      · by_cases hempty : m.content = []
        · simp [hempty]
        · have hok : m.type = .request → m.hasResponseIdentify = true := fun h => by
            simpa [h] using htype
          rw [if_pos (show true = true ∧ (m.type = .request → m.hasResponseIdentify = true) ∧
            m.content ≠ [] from ⟨rfl, hok, hempty⟩)]
          simp [htype, hempty]

theorem turn_last (codec : MetaCodec) (handle : Handler σ) (conn : RawConnectionImpl σ)
    (input : UInt8) {w : Bytes} {n : ℕ} (hstate : conn.decoder.state = .content)
    (hbuffer : conn.decoder.content = ⟨w, n⟩) (hlast : w.length + 1 = n) :
    match legalMessage codec (w ++ [input]) with
    | none => ∃ d, turn codec handle conn input = .stop (.ok { conn with decoder := d })
    | some m =>
        if (handle conn.service m).1 then
          turn codec handle conn input = .next (conn.afterMessage handle m)
        else ∃ d, turn codec handle conn input =
          .stop (.ok { conn.afterMessage handle m with decoder := d }) := by
  have hconsume := consume_last codec input hstate hbuffer hlast
  cases hlegal : legalMessage codec (w ++ [input]) with
  | none =>
      rw [hlegal] at hconsume
      obtain ⟨d, hd⟩ := hconsume
      exact ⟨d, turn_of_false hd⟩
  | some m =>
      rw [hlegal] at hconsume
      simp only at hconsume ⊢
      split
      · rename_i haccept
        simp only [turn, hconsume, handleMessage, haccept, if_true]
        rfl
      · rename_i hrefuse
        simp only [turn, hconsume, handleMessage, hrefuse]
        exact ⟨_, rfl⟩

/-- What the decoder does with a stream when this stands at the front of it. -/
def Reads (codec : MetaCodec) (handle : Handler σ) (conn : RawConnectionImpl σ) (stream : Bytes) :
    Frame → Prop
  | .incomplete => ∃ d, feed (turn codec handle) conn stream = .next { conn with decoder := d }
  | .malformed rest =>
      ∃ d, feed (turn codec handle) conn stream = .stop (.ok { conn with decoder := d }, rest)
  | .message m rest =>
      if (handle conn.service m).1 then
        feed (turn codec handle) conn stream =
          feed (turn codec handle) (conn.afterMessage handle m) rest
      else ∃ d, feed (turn codec handle) conn stream =
        .stop (.ok { conn.afterMessage handle m with decoder := d }, rest)

theorem Reads.of_feed_eq {d : ProtobufDecoder} {stream rest : Bytes} {f : Frame}
    (hfeed : feed (turn codec handle) conn stream =
      feed (turn codec handle) { conn with decoder := d } rest)
    (h : Reads codec handle { conn with decoder := d } rest f) :
    Reads codec handle conn stream f := by
  cases f with
  | incomplete =>
      obtain ⟨d', hd'⟩ := h
      exact ⟨d', hfeed.trans hd'⟩
  | malformed rest' =>
      obtain ⟨d', hd'⟩ := h
      exact ⟨d', hfeed.trans hd'⟩
  | message m rest' =>
      simp only [Reads] at h ⊢
      split at h
      · rename_i haccept
        rw [if_pos haccept]
        exact hfeed.trans h
      · rename_i hrefuse
        obtain ⟨d', hd'⟩ := h
        rw [if_neg hrefuse]
        exact ⟨d', hfeed.trans hd'⟩

/-- The content of a frame, from the colon on. -/
theorem feed_readContent {n : ℕ} {stream : Bytes} (hstate : conn.decoder.state = .content)
    (hbuffer : conn.decoder.content = ⟨[], n⟩) :
    Reads codec handle conn stream (readContent codec n stream) := by
  unfold readContent
  by_cases hn : n = 0
  · subst hn
    cases stream with
    | nil => exact ⟨conn.decoder, rfl⟩
    | cons b rest =>
        -- A content of no bytes is full, and a full one rejects the next byte.
        refine ⟨conn.decoder, feed_cons_stop (turn_of_false ?_) rest⟩
        simp only [ProtobufDecoder.consume, hstate, hbuffer]
        rfl
  rw [if_neg hn]
  by_cases hshort : stream.length < n
  · rw [if_pos hshort]
    exact ⟨_, feed_content hstate hbuffer (by simpa using hshort)⟩
  rw [if_neg hshort]
  obtain ⟨w, input, hw⟩ : ∃ w input, stream.take n = w ++ [input] := by
    refine ⟨_, _, (List.dropLast_append_getLast ?_).symm⟩
    intro hnil
    have := congrArg List.length hnil
    rw [List.length_take, List.length_nil] at this
    omega
  have hlast : w.length + 1 = n := by
    have := congrArg List.length hw
    rw [List.length_take, List.length_append, List.length_singleton] at this
    omega
  have hstream : stream = w ++ input :: stream.drop n := by
    rw [List.append_cons, ← hw, List.take_append_drop]
  have hfeed : feed (turn codec handle) conn w =
      .next { conn with decoder := { conn.decoder with content := ⟨w, n⟩ } } :=
    feed_content hstate hbuffer (by simp only [List.length_nil]; omega)
  have hsplit := feed_append_next hfeed (input :: stream.drop n)
  rw [← hstream] at hsplit
  have hturn := turn_last codec handle
    { conn with decoder := { conn.decoder with content := ⟨w, n⟩ } } input hstate rfl hlast
  rw [hw]
  unfold Reads
  cases hlegal : legalMessage codec (w ++ [input]) with
  | none =>
      rw [hlegal] at hturn
      obtain ⟨d, hd⟩ := hturn
      exact ⟨d, hsplit.trans (feed_cons_stop hd _)⟩
  | some m =>
      rw [hlegal] at hturn
      simp only at hturn ⊢
      split
      · rename_i haccept
        rw [if_pos haccept] at hturn
        exact hsplit.trans (feed_cons_next hturn _)
      · rename_i hrefuse
        rw [if_neg hrefuse] at hturn
        obtain ⟨d, hd⟩ := hturn
        exact ⟨d, hsplit.trans (feed_cons_stop hd _)⟩

theorem isDigit_of_mem_takeWhile {stream : Bytes} {b : UInt8}
    (h : b ∈ stream.takeWhile isDigit) : isDigit b = true := List.mem_takeWhile_imp h

/-- The digits at the front of a stream take the decoder into the length. -/
theorem feed_takeWhile {stream : Bytes} (hstart : conn.decoder.state = .start)
    (hne : stream.takeWhile isDigit ≠ []) :
    feed (turn codec handle) conn stream =
      feed (turn codec handle)
        { conn with decoder :=
          { conn.decoder with state := .length, lengthStore := stream.takeWhile isDigit } }
        (stream.dropWhile isDigit) := by
  have hdigits : feed (turn codec handle) conn (stream.takeWhile isDigit) =
      .next { conn with decoder :=
        { conn.decoder with state := .length, lengthStore := stream.takeWhile isDigit } } :=
    feed_first_digits hstart hne fun b => isDigit_of_mem_takeWhile
  have h := feed_append_next hdigits (stream.dropWhile isDigit)
  rwa [List.takeWhile_append_dropWhile] at h

/-- **The frame rule.** Between two frames the decoder reads what stands at the
front of the stream. -/
theorem feed_frame {stream : Bytes} (hstart : conn.decoder.state = .start)
    (hsmall : ∀ n, lengthPrefix stream = some n → n + 1 < 2 ^ 31) :
    Reads codec handle conn stream (readFrame codec stream) := by
  unfold readFrame
  unfold lengthPrefix at hsmall
  by_cases hne : stream.takeWhile isDigit = []
  · have hdrop : stream.dropWhile isDigit = stream := by
      conv_rhs => rw [← List.takeWhile_append_dropWhile (p := isDigit) (l := stream), hne]
      rfl
    rw [hdrop]
    cases stream with
    | nil => exact ⟨conn.decoder, rfl⟩
    | cons c rest =>
        have hc : isDigit c = false := by
          cases hd : isDigit c with
          | false => rfl
          | true => simp [hd] at hne
        simp only
        rw [if_pos (Or.inl hne)]
        refine ⟨conn.decoder, feed_cons_stop (turn_of_false ?_) rest⟩
        simp [ProtobufDecoder.consume, hstart, hc]
  · refine Reads.of_feed_eq (feed_takeWhile hstart hne) ?_
    cases hdrop : stream.dropWhile isDigit with
    | nil => exact ⟨_, rfl⟩
    | cons c rest =>
        rw [hdrop] at hsmall
        by_cases hc : c = colon
        · have hframe : ¬ (stream.takeWhile isDigit = [] ∨ c ≠ colon) := by simp [hne, hc]
          subst hc
          simp only [if_neg hframe] at hsmall ⊢
          refine Reads.of_feed_eq (feed_cons_next (turn_colon rfl (hsmall _ rfl)) rest) ?_
          exact feed_readContent rfl rfl
        · simp only
          rw [if_pos (Or.inr hc)]
          have hdigit : isDigit c = false := by
            have hhead := List.head_dropWhile_not isDigit (l := stream) (by simp [hdrop])
            simpa [hdrop] using hhead
          refine ⟨{ conn.decoder with state := .length, lengthStore := stream.takeWhile isDigit },
            feed_cons_stop (turn_of_false ?_) rest⟩
          simp only [ProtobufDecoder.consume, if_neg hc, hdigit, Bool.not_false, if_true]

/-- A length prefix that is too large is not survived. -/
theorem feed_fault (codec : MetaCodec) (handle : Handler σ) {stream : Bytes} {n : ℕ}
    (hstart : conn.decoder.state = .start) (hlength : lengthPrefix stream = some n)
    (hbig : ¬ n + 1 < 2 ^ 31) :
    ∃ fault rest, feed (turn codec handle) conn stream = .stop (.error fault, rest) := by
  unfold lengthPrefix at hlength
  cases hdrop : stream.dropWhile isDigit with
  | nil =>
      rw [hdrop] at hlength
      cases hlength
  | cons c rest =>
      rw [hdrop] at hlength
      simp only at hlength
      split at hlength
      · cases hlength
      · rename_i hframe
        cases hlength
        rw [not_or, not_not] at hframe
        obtain ⟨hne, rfl⟩ := hframe
        rw [feed_takeWhile hstart hne, hdrop]
        have hfault : ∃ fault, turn codec handle { conn with decoder :=
            { conn.decoder with state := .length, lengthStore := stream.takeWhile isDigit } }
              colon = .stop (.error fault) := turn_colon_fault rfl hbig
        obtain ⟨fault, hfault⟩ := hfault
        exact ⟨fault, rest, feed_cons_stop hfault rest⟩

end RawConnectionImpl

end Frames

end Tt3d.Network
