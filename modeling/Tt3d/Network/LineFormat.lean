import Tt3d.Lib.Decimal

/-!
The line format `length:content` of `RawProtobufConnection`, and its decoder.

A `char` is a byte and an `int` a number; a computation that the program does not
survive (an exception, a signed overflow, a write past the end) is a `Fault`. The
protobuf library is a parameter: what it writes for a `MetaData`, and what it
reads from an array.
-/

namespace Tt3d.Network

open Decimal

abbrev Bytes := List UInt8

/-! ### `MetaData` -/

inductive MetaType
  | request
  | response
  deriving DecidableEq, Repr

/-- A message of `meta.proto`; a field that is not set is `none`. -/
structure MetaData where
  type_ : Option MetaType := none
  identify_ : Option UInt64 := none
  responseIdentify_ : Option UInt64 := none
  content_ : Option Bytes := none
  deriving DecidableEq, Repr

namespace MetaData

-- A field that is not set reads as its default.

def type (m : MetaData) : MetaType := m.type_.getD .request

def identify (m : MetaData) : UInt64 := m.identify_.getD 0

def responseIdentify (m : MetaData) : UInt64 := m.responseIdentify_.getD 0

def hasResponseIdentify (m : MetaData) : Bool := m.responseIdentify_.isSome

def content (m : MetaData) : Bytes := m.content_.getD []

end MetaData

/-- `AppendToString` on an empty string, and `ParseFromArray`: the message it
leaves behind, and whether it succeeded. -/
structure MetaCodec where
  appendToString : MetaData → Option Bytes
  parseFromArray : Bytes → MetaData × Bool

/-- The wire format of `meta.proto` for numbers and lengths below 128, each of
which is one byte on the wire. -/
def MetaCodec.short : MetaCodec where
  appendToString m := do
    let type : UInt8 := match ← m.type_ with
      | .request => 1
      | .response => 2
    let identify ← m.identify_
    let content ← m.content_
    let responseIdentify : Bytes := match m.responseIdentify_ with
      | some r => [0x18, r.toUInt8]
      | none => []
    if identify < 128 ∧ m.responseIdentify < 128 ∧ content.length < 128 then
      some ([0x08, type, 0x10, identify.toUInt8] ++ responseIdentify ++
        [0x22, UInt8.ofNat content.length] ++ content)
    else none
  parseFromArray bytes :=
    let type (t : UInt8) : MetaType := if t = 1 then .request else .response
    match bytes with
    | 0x08 :: t :: 0x10 :: i :: 0x18 :: r :: 0x22 :: n :: content =>
        ({ type_ := some (type t), identify_ := some i.toUInt64,
           responseIdentify_ := some r.toUInt64, content_ := some content },
          (t = 1 || t = 2) && decide (n.toNat = content.length))
    | 0x08 :: t :: 0x10 :: i :: 0x22 :: n :: content =>
        ({ type_ := some (type t), identify_ := some i.toUInt64, content_ := some content },
          (t = 1 || t = 2) && decide (n.toNat = content.length))
    | _ => ({}, false)

/-- The bytes written for `m` are read back as `m`. -/
def MetaCodec.Inverts (codec : MetaCodec) (m : MetaData) : Prop :=
  ∀ bytes, codec.appendToString m = some bytes → codec.parseFromArray bytes = (m, true)

def colon : UInt8 := 58

/-- `EncodeMessage`: the header and the content, or a pair of null pointers. -/
def encodeMessage (codec : MetaCodec) (msg : MetaData) : Option (Bytes × Bytes) :=
  (codec.appendToString msg).map fun content => (print content.length ++ [colon], content)

/-! ### The decoder -/

inductive Fault
  /-- `lexical_cast` throws. -/
  | badLexicalCast
  /-- An `int` overflows. -/
  | intOverflow
  /-- An array is written at or beyond its capacity. -/
  | outOfBounds
  deriving DecidableEq, Repr

/-- `Buffer`; the cells of `t_` below `size_` are the ones in `written`. -/
structure Buffer where
  written : Bytes := []
  capacity : ℕ := 0
  deriving DecidableEq, Repr

namespace Buffer

def clear (_ : Buffer) : Buffer := {}

/-- `new T[ capacity + 1 ]`. -/
def reserve (_ : Buffer) (capacity : ℕ) : Except Fault Buffer :=
  if capacity + 1 < 2 ^ 31 then .ok { written := [], capacity := capacity }
  else .error .intOverflow

/-- The array has a cell more than `capacity`, but to write there is a fault too. -/
def pushBack (b : Buffer) (t : UInt8) : Except Fault Buffer :=
  if b.written.length < b.capacity then .ok { b with written := b.written ++ [t] }
  else .error .outOfBounds

/-- `size()`, the room that is left. -/
def size (b : Buffer) : ℤ := b.capacity - b.written.length

def full (b : Buffer) : Bool := b.size = 0

/-- The array `content()`, up to the cells written. -/
def content (b : Buffer) : Bytes := b.written

theorem full_iff {w : Bytes} {n : ℕ} : full ⟨w, n⟩ = true ↔ w.length = n := by
  rw [full, decide_eq_true_iff]
  show (n : ℤ) - w.length = 0 ↔ _
  omega

theorem full_eq_false {w : Bytes} {n : ℕ} (h : w.length < n) : full ⟨w, n⟩ = false := by
  rw [Bool.eq_false_iff, Ne, full_iff]
  omega

theorem pushBack_of_lt {w : Bytes} {n : ℕ} (t : UInt8) (h : w.length < n) :
    pushBack ⟨w, n⟩ t = .ok ⟨w ++ [t], n⟩ := if_pos h

end Buffer

inductive Tribool
  | true
  | false
  | indeterminate
  deriving DecidableEq, Repr

inductive DecoderState
  | start
  | length
  | content
  | «end»
  deriving DecidableEq, Repr

structure ProtobufDecoder where
  state : DecoderState := .start
  lengthStore : Bytes := []
  length : ℕ := 0
  content : Buffer := {}
  meta_ : MetaData := {}
  deriving DecidableEq, Repr

/-- `lexical_cast<int>` of a string of digits. -/
def lexicalCastInt (digits : Bytes) : Except Fault ℕ :=
  if value digits < 2 ^ 31 then .ok (value digits) else .error .badLexicalCast

namespace ProtobufDecoder

def reset (d : ProtobufDecoder) : ProtobufDecoder :=
  { d with state := .start, lengthStore := [], length := 0, content := d.content.clear }

/-- `Consume`, handle the next character of input. -/
def consume (codec : MetaCodec) (d : ProtobufDecoder) (input : UInt8) :
    Except Fault (ProtobufDecoder × Tribool) :=
  match d.state with
  | .end | .start =>
      if isDigit input then
        .ok ({ d with state := .length, lengthStore := [input] }, .indeterminate)
      else .ok (d, .false)
  | .length =>
      if input = colon then
        (lexicalCastInt d.lengthStore).bind fun length =>
          (d.content.reserve length).map fun content =>
            ({ d with state := .content, length := length, content := content }, .indeterminate)
      else if !isDigit input then .ok (d, .false)
      else .ok ({ d with lengthStore := d.lengthStore ++ [input] }, .indeterminate)
  | .content =>
      if d.content.full then .ok (d, .false)
      else
        (d.content.pushBack input).map fun content =>
          if content.full then
            let parsed := codec.parseFromArray content.content
            let d := { d with content := content, meta_ := parsed.1 }
            if !parsed.2 then (d, .false)
            else if d.meta_.type = .request ∧ !d.meta_.hasResponseIdentify then (d, .false)
            else if d.meta_.content.isEmpty then (d, .false)
            else ({ d with state := .end }, .true)
          else ({ d with content := content }, .indeterminate)

/-- `ProtobufDecoder::Decode`, with the input it leaves. -/
def decode (codec : MetaCodec) : ProtobufDecoder → Bytes →
    Except Fault (ProtobufDecoder × Tribool × Bytes)
  | d, [] => .ok (d, .indeterminate, [])
  | d, input :: rest =>
      match consume codec d input with
      | .error fault => .error fault
      | .ok (d, .indeterminate) => decode codec d rest
      | .ok (d, result) => .ok (d, result, rest)

end ProtobufDecoder

/-! ### `RawConnectionImpl< ProtobufDecoder >` -/

/-- What `Handle` does with a message: it may use and change a state of its own,
and it accepts the message or refuses it. -/
abbrev Handler (σ : Type*) := σ → MetaData → Bool × σ

structure RawConnectionImpl (σ : Type*) where
  decoder : ProtobufDecoder := {}
  service : σ
  /-- The messages handed to `Handle` so far. -/
  handled : List MetaData := []
  deriving Repr

namespace RawConnectionImpl

variable {σ : Type*} (codec : MetaCodec) (handle : Handler σ)

/-- The call of `Handle`, and the reset after it. -/
def handleMessage (conn : RawConnectionImpl σ) : RawConnectionImpl σ × Bool :=
  let r := handle conn.service conn.decoder.meta_
  let conn := { conn with service := r.2, handled := conn.handled ++ [conn.decoder.meta_] }
  if r.1 then ({ conn with decoder := conn.decoder.reset }, true) else (conn, false)

/-- The loop of `Decode` over the bytes read, with those it leaves. Each turn takes
at least one byte, so the fuel is the number of bytes. -/
def decodeLoop : ℕ → RawConnectionImpl σ → Bytes →
    Except Fault (RawConnectionImpl σ × Bool × Bytes)
  | 0, conn, bytes => .ok (conn, true, bytes)
  | fuel + 1, conn, bytes =>
      if bytes.isEmpty then .ok (conn, true, [])
      else
        match conn.decoder.decode codec bytes with
        | .error fault => .error fault
        | .ok (decoder, .true, rest) =>
            match ({ conn with decoder := decoder } : RawConnectionImpl σ).handleMessage handle with
            | (conn, true) => decodeLoop fuel conn rest
            | (conn, false) => .ok (conn, false, rest)
        | .ok (decoder, .false, rest) => .ok ({ conn with decoder := decoder }, false, rest)
        | .ok (decoder, .indeterminate, rest) => .ok ({ conn with decoder := decoder }, true, rest)

/-- `Decode`. -/
def decode (conn : RawConnectionImpl σ) (bytes : Bytes) :
    Except Fault (RawConnectionImpl σ × Bool × Bytes) :=
  decodeLoop codec handle bytes.length conn bytes

/-- One `Decode` for each chunk that is read, until one returns false. -/
def decodeChunks : RawConnectionImpl σ → List Bytes →
    Except Fault (RawConnectionImpl σ × Bool × Bytes)
  | conn, [] => .ok (conn, true, [])
  | conn, chunk :: chunks =>
      match conn.decode codec handle chunk with
      | .error fault => .error fault
      | .ok (conn, true, _) => decodeChunks conn chunks
      | .ok (conn, false, rest) => .ok (conn, false, rest ++ chunks.flatten)

end RawConnectionImpl

end Tt3d.Network
