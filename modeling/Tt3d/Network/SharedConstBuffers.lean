import Tt3d.Network.LineFormat

/-!
`SharedConstBuffers`, the sequence of buffers handed to the socket.

Buffers are pushed at the end. `consume` moves `mStart` over the buffers that
were sent and cuts the front off the one that was sent in part, so what is to be
sent is the concatenation of the buffers from `mStart` on.

Sizes and positions are natural numbers here; `BufferCopies` has the `int`s of the
source, and that the two agree where none overflows.
-/

namespace Tt3d.Network

structure SharedConstBuffers where
  mBuffer : List Bytes := []
  mStart : ℕ := 0
  deriving DecidableEq, Repr

namespace SharedConstBuffers

def push (b : SharedConstBuffers) (data : Bytes) : SharedConstBuffers :=
  { b with mBuffer := b.mBuffer ++ [data] }

def empty (b : SharedConstBuffers) : Bool := b.mStart = b.mBuffer.length

/-- The loop of `consume`; `rest` are the buffers from `i` on. -/
def consumeLoop (b : SharedConstBuffers) : (rest : List Bytes) → (i size : ℕ) → SharedConstBuffers
  | [], _, _ => { b with mStart := b.mBuffer.length }
  | buffer :: rest, i, size =>
      if size > buffer.length then consumeLoop b rest (i + 1) (size - buffer.length)
      else if size = buffer.length then { b with mStart := i + 1 }
      else { mBuffer := b.mBuffer.set i (buffer.drop size), mStart := i }

def consume (b : SharedConstBuffers) (size : ℕ) : SharedConstBuffers :=
  b.consumeLoop (b.mBuffer.drop b.mStart) b.mStart size

/-- The bytes between `begin()` and `end()`. -/
def content (b : SharedConstBuffers) : Bytes := (b.mBuffer.drop b.mStart).flatten

/-- `mStart` is a position of `mBuffer`, or its end. -/
def Valid (b : SharedConstBuffers) : Prop := b.mStart ≤ b.mBuffer.length

variable {b : SharedConstBuffers}

theorem valid_new : Valid {} := le_rfl

theorem Valid.push (h : b.Valid) (data : Bytes) : (b.push data).Valid := by
  unfold Valid at h ⊢
  simp only [SharedConstBuffers.push, List.length_append, List.length_singleton]
  omega

theorem content_push (h : b.Valid) (data : Bytes) : (b.push data).content = b.content ++ data := by
  rw [content, SharedConstBuffers.push, List.drop_append_of_le_length h, List.flatten_append,
    List.flatten_singleton]
  rfl

theorem content_of_empty (h : b.empty = true) : b.content = [] := by
  have hstart : b.mStart = b.mBuffer.length := by simpa [empty] using h
  rw [content, hstart, List.drop_length]
  rfl

/-- The loop drops bytes from the front of the buffers it has not passed. -/
theorem consumeLoop_spec {rest : List Bytes} {i size : ℕ} (hrest : b.mBuffer.drop i = rest)
    (hi : i ≤ b.mBuffer.length) :
    (b.consumeLoop rest i size).Valid ∧
      (b.consumeLoop rest i size).content = rest.flatten.drop size := by
  induction rest generalizing i size with
  | nil =>
      refine ⟨le_rfl, ?_⟩
      simp [consumeLoop, content]
  | cons buffer rest ih =>
      have hlt : i < b.mBuffer.length := by
        by_contra hge
        rw [List.drop_eq_nil_of_le (by omega)] at hrest
        cases hrest
      have hnext : b.mBuffer.drop (i + 1) = rest := by
        rw [← List.tail_drop, hrest]
        rfl
      rw [consumeLoop, List.flatten_cons, List.drop_append]
      split
      · rename_i hgt
        obtain ⟨hvalid, hcontent⟩ := @ih (i + 1) (size - buffer.length) hnext (by omega)
        have hnil : buffer.drop size = [] := List.drop_eq_nil_of_le (by omega)
        exact ⟨hvalid, by rw [hcontent, hnil, List.nil_append]⟩
      · split
        · rename_i hle heq
          refine ⟨by simp only [Valid]; omega, ?_⟩
          rw [heq, List.drop_length, Nat.sub_self]
          simp [content, hnext]
        · rename_i hle hne
          refine ⟨by simp only [Valid, List.length_set]; omega, ?_⟩
          rw [Nat.sub_eq_zero_of_le (by omega), List.drop_zero, content, List.drop_eq_getElem_cons
            (by simpa using hlt), List.drop_set_of_lt (Nat.lt_succ_self i), hnext]
          simp

theorem Valid.consume (h : b.Valid) (size : ℕ) : (b.consume size).Valid :=
  (consumeLoop_spec rfl h).1

/-- **Consuming drops bytes from the front.** -/
theorem content_consume (h : b.Valid) (size : ℕ) :
    (b.consume size).content = b.content.drop size := (consumeLoop_spec rfl h).2

/-! ### The buffers that are left -/

/-- How many buffers there are between `begin()` and `end()`. -/
def pieces (b : SharedConstBuffers) : ℕ := b.mBuffer.length - b.mStart

theorem pieces_push (h : b.Valid) (data : Bytes) : (b.push data).pieces = b.pieces + 1 := by
  unfold Valid at h
  simp only [pieces, push, List.length_append, List.length_singleton]
  omega

theorem le_mStart_consumeLoop {rest : List Bytes} {i size : ℕ} (hi : i ≤ b.mBuffer.length)
    (hrest : b.mBuffer.drop i = rest) :
    (b.consumeLoop rest i size).mBuffer.length = b.mBuffer.length ∧
      i ≤ (b.consumeLoop rest i size).mStart := by
  induction rest generalizing i size with
  | nil => exact ⟨rfl, hi⟩
  | cons buffer rest ih =>
      have hlt : i < b.mBuffer.length := by
        by_contra hge
        rw [List.drop_eq_nil_of_le (by omega)] at hrest
        cases hrest
      have hnext : b.mBuffer.drop (i + 1) = rest := by
        rw [← List.tail_drop, hrest]
        rfl
      rw [consumeLoop]
      split
      · obtain ⟨hlen, hle⟩ := @ih (i + 1) (size - buffer.length) hlt hnext
        exact ⟨hlen, by omega⟩
      · split
        · exact ⟨rfl, Nat.le_succ i⟩
        · exact ⟨List.length_set .., le_rfl⟩

theorem pieces_consume_le (h : b.Valid) (size : ℕ) : (b.consume size).pieces ≤ b.pieces := by
  have hconsume : (b.consume size).mBuffer.length = b.mBuffer.length ∧
      b.mStart ≤ (b.consume size).mStart := le_mStart_consumeLoop h rfl
  unfold pieces
  omega

/-- Consuming nothing still passes a buffer without bytes. -/
theorem pieces_consume_zero (hempty : b.empty = false) (h : b.Valid) (hcontent : b.content = []) :
    (b.consume 0).pieces < b.pieces := by
  unfold Valid at h
  have hlt : b.mStart < b.mBuffer.length := by
    rw [empty, decide_eq_false_iff_not] at hempty
    omega
  have hdrop := List.drop_eq_getElem_cons hlt
  have hnil : b.mBuffer[b.mStart] = [] := by
    rw [content, hdrop, List.flatten_cons, List.append_eq_nil_iff] at hcontent
    exact hcontent.1
  have hconsume : b.consume 0 = { b with mStart := b.mStart + 1 } := by
    rw [consume, hdrop, hnil, consumeLoop, if_neg (by simp), if_pos (by simp)]
  rw [hconsume]
  simp only [pieces]
  omega

end SharedConstBuffers

end Tt3d.Network
