import Tt3d.Lib.Feed
import Tt3d.Network.LineFormat

/-!
The decoder as a machine that reads one byte at a time.

`Decode` of `RawConnectionImpl` calls `Decode` of `ProtobufDecoder`, which calls
`Consume`; unfolded, the two loops are one loop over the bytes, which does not
see where a chunk ends.
-/

namespace Tt3d.Network

open Feed

namespace RawConnectionImpl

variable {σ : Type*} (codec : MetaCodec) (handle : Handler σ)

/-- What one byte does to the connection. -/
def turn (conn : RawConnectionImpl σ) (input : UInt8) :
    Turn (RawConnectionImpl σ) (Except Fault (RawConnectionImpl σ)) :=
  match conn.decoder.consume codec input with
  | .error fault => .stop (.error fault)
  | .ok (decoder, .indeterminate) => .next { conn with decoder := decoder }
  | .ok (decoder, .false) => .stop (.ok { conn with decoder := decoder })
  | .ok (decoder, .true) =>
      match ({ conn with decoder := decoder } : RawConnectionImpl σ).handleMessage handle with
      | (conn, true) => .next conn
      | (conn, false) => .stop (.ok conn)

/-- What `Decode` returns when the bytes did this. -/
def outcome : Turn (RawConnectionImpl σ) (Except Fault (RawConnectionImpl σ) × Bytes) →
    Except Fault (RawConnectionImpl σ × Bool × Bytes)
  | .next conn => .ok (conn, true, [])
  | .stop (.error fault, _) => .error fault
  | .stop (.ok conn, rest) => .ok (conn, false, rest)

/-- Up to the next message, the bytes do what `ProtobufDecoder::Decode` says. -/
theorem outcome_feed (conn : RawConnectionImpl σ) (bytes : Bytes) :
    outcome (feed (turn codec handle) conn bytes) =
      match conn.decoder.decode codec bytes with
      | .error fault => .error fault
      | .ok (decoder, .true, rest) =>
          match ({ conn with decoder := decoder } : RawConnectionImpl σ).handleMessage handle with
          | (conn, true) => outcome (feed (turn codec handle) conn rest)
          | (conn, false) => .ok (conn, false, rest)
      | .ok (decoder, .false, rest) => .ok ({ conn with decoder := decoder }, false, rest)
      | .ok (decoder, .indeterminate, rest) =>
          .ok ({ conn with decoder := decoder }, true, rest) := by
  induction bytes generalizing conn with
  | nil => rfl
  | cons input rest ih =>
      rw [feed_cons, ProtobufDecoder.decode, turn]
      rcases conn.decoder.consume codec input with fault | ⟨decoder, result⟩
      · rfl
      · cases result with
        | «true» =>
            simp only
            rcases handleMessage handle _ with ⟨conn', _ | _⟩
            · rfl
            · rfl
        | «false» => rfl
        | indeterminate => exact ih _

/-- Each call of `ProtobufDecoder::Decode` takes a byte. -/
theorem decode_rest_length {d d' : ProtobufDecoder} {bytes rest : Bytes} {result : Tribool}
    (h : d.decode codec bytes = .ok (d', result, rest)) : rest.length ≤ bytes.length - 1 := by
  induction bytes generalizing d with
  | nil =>
      cases h
      exact le_rfl
  | cons input bytes ih =>
      rw [ProtobufDecoder.decode] at h
      split at h
      · cases h
      · exact (ih h).trans (by simp)
      · cases h
        simp

theorem decodeLoop_eq {fuel : ℕ} (conn : RawConnectionImpl σ) {bytes : Bytes}
    (h : bytes.length ≤ fuel) :
    decodeLoop codec handle fuel conn bytes = outcome (feed (turn codec handle) conn bytes) := by
  induction fuel generalizing conn bytes with
  | zero =>
      obtain rfl : bytes = [] := List.length_eq_zero_iff.mp (Nat.le_zero.mp h)
      rfl
  | succ fuel ih =>
      cases bytes with
      | nil => rfl
      | cons input bytes =>
          rw [outcome_feed, decodeLoop, if_neg (by simp)]
          rcases hdecode : conn.decoder.decode codec (input :: bytes) with
            fault | ⟨decoder, result, rest⟩
          · rfl
          · cases result with
            | «true» =>
                -- A message was completed: the fuel covers what follows it.
                have hrest := decode_rest_length codec hdecode
                have hfuel : rest.length ≤ fuel := by
                  simp only [List.length_cons] at hrest h
                  omega
                simp only
                rcases handleMessage handle _ with ⟨conn', _ | _⟩
                · rfl
                · exact ih conn' hfuel
            | «false» => rfl
            | indeterminate => rfl

theorem decode_eq (conn : RawConnectionImpl σ) (bytes : Bytes) :
    conn.decode codec handle bytes = outcome (feed (turn codec handle) conn bytes) :=
  decodeLoop_eq codec handle conn le_rfl

/-- **Chunks do not matter**: reading chunk after chunk is reading the stream. -/
theorem decodeChunks_eq (conn : RawConnectionImpl σ) (chunks : List Bytes) :
    conn.decodeChunks codec handle chunks =
      outcome (feed (turn codec handle) conn chunks.flatten) := by
  rw [← feedChunks_eq]
  induction chunks generalizing conn with
  | nil => rfl
  | cons chunk chunks ih =>
      rw [decodeChunks, feedChunks, decode_eq]
      cases feed (turn codec handle) conn chunk with
      | next conn' => exact ih conn'
      | stop r =>
          obtain ⟨fault | conn', rest⟩ := r
          · rfl
          · rfl

end RawConnectionImpl

end Tt3d.Network
