import Mathlib.Data.List.Forall2
import Tt3d.Lib.Machine
import Tt3d.Lib.MachineInt
import Tt3d.Network.SharedConstBuffers
import Tt3d.Timer.TimerMaster

/-!
Copies of `SharedConstBuffers`, in memory.

A buffer is a pointer to a part of a string, and copies share the store that deletes
the strings: it does so when the last of them lets go of it. Objects, stores and strings
are named by the number of their construction. `mStart` and the indices of the loops are
`int`s, which are converted where they meet the size of a vector; an operation has no
result where one of them overflows.
-/

namespace Tt3d.Network.BufferCopies

open MachineInt (toInt toSize)
open Timer (addInt)

/-- What is at a place of a memory from which things are deleted. -/
def slot {α : Type*} (l : List (Option α)) (x : ℕ) : Option α := (l[x]?).join

/-- `boost::asio::const_buffer`: `size` bytes of a string, from `offset` on. -/
structure ConstBuffer where
  string : ℕ
  offset : ℕ
  size : ℕ
  deriving DecidableEq, Repr

/-- `mBuffer[ i ] + n`. -/
def ConstBuffer.advance (c : ConstBuffer) (n : ℕ) : ConstBuffer :=
  { c with offset := c.offset + n, size := c.size - n }

structure Buffers where
  mBuffer : List ConstBuffer := []
  mStart : ℤ := 0
  mStore : ℕ
  deriving DecidableEq, Repr

namespace Buffers

def push (b : Buffers) (string size : ℕ) : Buffers :=
  { b with mBuffer := b.mBuffer ++ [{ string := string, offset := 0, size := size }] }

def empty (b : Buffers) : Bool := toSize b.mStart = b.mBuffer.length

/-- The buffers from `mStart` on. -/
def rest (b : Buffers) : List ConstBuffer := b.mBuffer.drop (toSize b.mStart)

/-- The loop of `size`; `rest` are the buffers from `i` on. -/
def sizeLoop : (rest : List ConstBuffer) → (i s : ℤ) → Option ℤ
  | [], _, s => some s
  | buffer :: rest, i, s =>
      (addInt s (toInt buffer.size)).bind fun s => (addInt i 1).bind fun i => sizeLoop rest i s

def size (b : Buffers) : Option ℤ := sizeLoop b.rest b.mStart 0

/-- The loop of `consume`; `rest` are the buffers from `i` on. -/
def consumeLoop (b : Buffers) : (rest : List ConstBuffer) → (i size : ℤ) → Option Buffers
  | [], _, _ => some { b with mStart := toInt b.mBuffer.length }
  | buffer :: rest, i, size =>
      let bsize := toInt buffer.size
      if size > bsize then
        (addInt size (-bsize)).bind fun size => (addInt i 1).bind fun i =>
          consumeLoop b rest i size
      else if size = bsize then (addInt i 1).map fun i => { b with mStart := i }
      else
        some { b with
          mBuffer := b.mBuffer.set (toSize i) (buffer.advance size.toNat)
          mStart := i }

def consume (b : Buffers) (size : ℤ) : Option Buffers := b.consumeLoop b.rest b.mStart size

end Buffers

structure Store where
  data : List ℕ := []
  /-- The copies that share the store. -/
  useCount : ℕ := 1
  deriving DecidableEq, Repr

structure State where
  /-- The strings; a deleted one is gone. -/
  strings : List (Option Bytes) := []
  stores : List Store := []
  /-- The objects; a destroyed one is gone. -/
  objects : List (Option Buffers) := []
  deriving DecidableEq, Repr

/-- The loop in the destructor of a store; `data` are its strings from `i` on. -/
def deleteAll (strings : List (Option Bytes)) :
    (data : List ℕ) → (i : ℤ) → Option (List (Option Bytes))
  | [], _ => some strings
  | a :: data, i => (addInt i 1).bind fun i => deleteAll (strings.set a none) data i

/-- `new Store`. -/
def Store.new : Store := {}

/-- What the constructor makes, with the store `k`. -/
def Buffers.new (k : ℕ) : Buffers := { mStore := k }

namespace State

def object (s : State) (x : ℕ) : Option Buffers := slot s.objects x

def setObject (s : State) (x : ℕ) (o : Option Buffers) : State :=
  { s with objects := s.objects.set x o }

/-- One more copy shares store `k`. -/
def share (s : State) (k : ℕ) : State :=
  match s.stores[k]? with
  | none => s
  | some store =>
      { s with stores := s.stores.set k { store with useCount := store.useCount + 1 } }

/-- A copy lets go of store `k`. -/
def release (s : State) (k : ℕ) : Option State :=
  match s.stores[k]? with
  | none => some s
  | some store =>
      if store.useCount = 1 then
        (deleteAll s.strings store.data 0).map fun strings =>
          { s with
            strings := strings
            stores := s.stores.set k { data := [], useCount := 0 } }
      else
        some { s with stores := s.stores.set k { store with useCount := store.useCount - 1 } }

def construct (s : State) : State :=
  { s with
    stores := s.stores ++ [Store.new]
    objects := s.objects ++ [some (Buffers.new s.stores.length)] }

/-- `push( new string( data ) )`. -/
def push (s : State) (x : ℕ) (data : Bytes) : Option State :=
  (s.object x).bind fun b =>
    (s.stores[b.mStore]?).map fun store =>
      { strings := s.strings ++ [some data]
        stores := s.stores.set b.mStore { store with data := store.data ++ [s.strings.length] }
        objects := s.objects.set x (some (b.push s.strings.length data.length)) }

def consume (s : State) (x : ℕ) (size : ℕ) : Option State :=
  (s.object x).bind fun b => (b.consume size).map fun b => s.setObject x (some b)

/-- `mStore.reset( new Store )` on the way. -/
def clear (s : State) (x : ℕ) : Option State :=
  (s.object x).bind fun b =>
    ({ s with stores := s.stores ++ [Store.new] }.setObject x
      (some (Buffers.new s.stores.length))).release b.mStore

/-- The copy constructor. -/
def copy (s : State) (y : ℕ) : Option State :=
  (s.object y).map fun b => { s.share b.mStore with objects := s.objects ++ [some b] }

/-- The assignment of object `y` to object `x`. -/
def assign (s : State) (x y : ℕ) : Option State :=
  (s.object x).bind fun old =>
    (s.object y).bind fun b => ((s.share b.mStore).setObject x (some b)).release old.mStore

/-- The destructor. -/
def destroy (s : State) (x : ℕ) : Option State :=
  (s.object x).bind fun b => (s.setObject x none).release b.mStore

end State

inductive Event
  | construct
  | push (x : ℕ) (data : Bytes)
  | consume (x : ℕ) (size : ℕ)
  | clear (x : ℕ)
  | copy (y : ℕ)
  | assign (x y : ℕ)
  | destroy (x : ℕ)
  deriving DecidableEq, Repr

def step (s : State) : Event → Option State
  | .construct => some s.construct
  | .push x data => s.push x data
  | .consume x size => s.consume x size
  | .clear x => s.clear x
  | .copy y => s.copy y
  | .assign x y => s.assign x y
  | .destroy x => s.destroy x

/-- The bytes that a buffer points to; no result for a string that has been deleted. -/
def ConstBuffer.bytes (strings : List (Option Bytes)) (c : ConstBuffer) : Option Bytes :=
  (slot strings c.string).map fun data => (data.drop c.offset).take c.size

/-- The bytes of the buffers. -/
def readAll (strings : List (Option Bytes)) : List ConstBuffer → Option Bytes
  | [] => some []
  | c :: rest => (c.bytes strings).bind fun bytes => (readAll strings rest).map (bytes ++ ·)

/-- The bytes between `begin()` and `end()`; no result where `begin()` is not in the
vector. -/
def State.content (s : State) (b : Buffers) : Option Bytes :=
  if 0 ≤ b.mStart ∧ b.mStart ≤ b.mBuffer.length then
    readAll s.strings (b.mBuffer.drop b.mStart.toNat)
  else none

/-- A store that takes a string has room for it: the `int` in its destructor gets past
all strings. -/
def Fits (s : State) : Event → Prop
  | .push x _ => ∀ b ∈ s.object x, ∀ store ∈ s.stores[b.mStore]?, store.data.length + 1 < 2 ^ 31
  | .construct | .consume _ _ | .clear _ | .copy _ | .assign _ _ | .destroy _ => True

instance (s : State) : ∀ a, Decidable (Fits s a)
  | .push x _ => inferInstanceAs (Decidable
      (∀ b ∈ s.object x, ∀ store ∈ s.stores[b.mStore]?, store.data.length + 1 < 2 ^ 31))
  | .construct | .consume _ _ | .clear _ | .copy _ | .assign _ _ | .destroy _ => isTrue trivial

/-! ### The reference queues -/

namespace Queues

/-- One queue of bytes for each object, each on its own. -/
def step (q : List (Option Bytes)) : Event → Option (List (Option Bytes))
  | .construct => some (q ++ [some []])
  | .push x data => (slot q x).map fun bytes => q.set x (some (bytes ++ data))
  | .consume x size => (slot q x).map fun bytes => q.set x (some (bytes.drop size))
  | .clear x => (slot q x).map fun _ => q.set x (some [])
  | .copy y => (slot q y).map fun bytes => q ++ [some bytes]
  | .assign x y => (slot q x).bind fun _ => (slot q y).map fun bytes => q.set x (some bytes)
  | .destroy x => (slot q x).map fun _ => q.set x none

/-- No content reaches `2 ^ 31` bytes, and what is consumed is an `int`. -/
def Small (q : List (Option Bytes)) : Event → Prop
  | .push x data => ((slot q x).getD []).length + data.length < 2 ^ 31
  | .consume _ size => size < 2 ^ 31
  | .construct | .clear _ | .copy _ | .assign _ _ | .destroy _ => True

instance (q : List (Option Bytes)) : ∀ a, Decidable (Small q a)
  | .push x data => inferInstanceAs (Decidable
      (((slot q x).getD []).length + data.length < 2 ^ 31))
  | .consume _ size => inferInstanceAs (Decidable (size < 2 ^ 31))
  | .construct | .clear _ | .copy _ | .assign _ _ | .destroy _ => isTrue trivial

end Queues

/-! ### Places -/

section Slot

variable {α : Type*} {l : List (Option α)} {x y : ℕ} {a : α}

theorem slot_eq_some : slot l x = some a ↔ l[x]? = some (some a) := by
  simp [slot, Option.join_eq_some_iff]

theorem lt_of_slot (h : slot l x = some a) : x < l.length :=
  (List.getElem?_eq_some_iff.mp (slot_eq_some.mp h)).1

theorem slot_set_self (h : x < l.length) (o : Option α) : slot (l.set x o) x = o := by
  simp [slot, h]

theorem slot_set_ne (h : x ≠ y) (o : Option α) : slot (l.set x o) y = slot l y := by
  rw [slot, List.getElem?_set_ne h, slot]

theorem slot_append_of_lt (h : x < l.length) (l' : List (Option α)) :
    slot (l ++ l') x = slot l x := by
  rw [slot, List.getElem?_append_left h, slot]

theorem slot_concat_self (o : Option α) : slot (l ++ [o]) l.length = o := by
  simp [slot]

theorem slot_concat_of_ne (h : x ≠ l.length) (o : Option α) :
    slot (l ++ [o]) x = slot l x := by
  rcases Nat.lt_or_gt_of_ne h with hlt | hgt
  · exact slot_append_of_lt hlt [o]
  · rw [slot, slot, List.getElem?_eq_none (by simp; omega), List.getElem?_eq_none (by omega)]

theorem slot_set_cases {o : Option α} (h : slot (l.set x o) y = some a) :
    x = y ∧ o = some a ∨ x ≠ y ∧ slot l y = some a := by
  by_cases hxy : x = y
  · subst hxy
    have hlt := lt_of_slot h
    rw [List.length_set] at hlt
    exact Or.inl ⟨rfl, (slot_set_self hlt o).symm.trans h⟩
  · exact Or.inr ⟨hxy, (slot_set_ne hxy o).symm.trans h⟩

theorem slot_concat_cases {o : Option α} (h : slot (l ++ [o]) x = some a) :
    x = l.length ∧ o = some a ∨ x ≠ l.length ∧ slot l x = some a := by
  by_cases hx : x = l.length
  · subst hx
    exact Or.inl ⟨rfl, (slot_concat_self o).symm.trans h⟩
  · exact Or.inr ⟨hx, (slot_concat_of_ne hx o).symm.trans h⟩

end Slot

/-! ### What a copy shows -/

/-- A buffer points to `bytes`. -/
def Points (strings : List (Option Bytes)) (c : ConstBuffer) (bytes : Bytes) : Prop :=
  ∃ data, slot strings c.string = some data ∧ c.offset + c.size ≤ data.length ∧
    bytes = (data.drop c.offset).take c.size

/-- A copy points to the buffers of `v`. -/
structure Shows (strings : List (Option Bytes)) (b : Buffers) (v : SharedConstBuffers) :
    Prop where
  buffers : List.Forall₂ (Points strings) b.mBuffer v.mBuffer
  start : b.mStart = (v.mStart : ℤ)

variable {strings strings' : List (Option Bytes)} {c : ConstBuffer} {bytes : Bytes} {b : Buffers}
  {v : SharedConstBuffers}

theorem Points.bytes_eq (h : Points strings c bytes) : c.bytes strings = some bytes := by
  obtain ⟨data, hdata, -, rfl⟩ := h
  rw [ConstBuffer.bytes, hdata]
  rfl

theorem Points.size_eq (h : Points strings c bytes) : c.size = bytes.length := by
  obtain ⟨data, -, hle, rfl⟩ := h
  rw [List.length_take, List.length_drop]
  omega

theorem Points.congr (h : Points strings c bytes)
    (hsame : slot strings' c.string = slot strings c.string) : Points strings' c bytes := by
  obtain ⟨data, hdata, hle, rfl⟩ := h
  exact ⟨data, hsame.trans hdata, hle, rfl⟩

theorem Points.advance (h : Points strings c bytes) {n : ℕ} (hn : n ≤ c.size) :
    Points strings (c.advance n) (bytes.drop n) := by
  obtain ⟨data, hdata, hle, rfl⟩ := h
  refine ⟨data, hdata, by simp only [ConstBuffer.advance]; omega, ?_⟩
  rw [List.drop_take, List.drop_drop]
  rfl

theorem readAll_eq {l : List ConstBuffer} {vs : List Bytes}
    (h : List.Forall₂ (Points strings) l vs) : readAll strings l = some vs.flatten := by
  induction h with
  | nil => rfl
  | cons hc hrest ih =>
      rw [readAll, hc.bytes_eq, ih]
      rfl

theorem Shows.start_range (h : Shows strings b v) (hv : v.Valid) :
    0 ≤ b.mStart ∧ b.mStart ≤ b.mBuffer.length := by
  rw [h.start, h.buffers.length_eq]
  exact ⟨Int.natCast_nonneg _, Int.ofNat_le.mpr hv⟩

theorem Shows.content_eq {s : State} (h : Shows s.strings b v) (hv : v.Valid) :
    s.content b = some v.content := by
  rw [State.content, if_pos (h.start_range hv), SharedConstBuffers.content, h.start,
    Int.toNat_natCast]
  exact readAll_eq (List.forall₂_drop v.mStart h.buffers)

/-- The position of `begin()`, where the buffers are counted by an `int`. -/
theorem Shows.toSize_eq (h : Shows strings b v) (hv : v.Valid) (hlen : b.mBuffer.length < 2 ^ 31) :
    toSize b.mStart = v.mStart := by
  rw [SharedConstBuffers.Valid, ← h.buffers.length_eq] at hv
  rw [h.start]
  exact MachineInt.toSize_natCast (by omega)

theorem Shows.empty_eq (h : Shows strings b v) (hv : v.Valid)
    (hlen : b.mBuffer.length < 2 ^ 31) : b.empty = v.empty := by
  rw [Buffers.empty, SharedConstBuffers.empty, h.toSize_eq hv hlen, h.buffers.length_eq]

theorem Shows.rest (h : Shows strings b v) (hv : v.Valid) (hlen : b.mBuffer.length < 2 ^ 31) :
    List.Forall₂ (Points strings) b.rest (v.mBuffer.drop v.mStart) := by
  rw [Buffers.rest, h.toSize_eq hv hlen]
  exact List.forall₂_drop v.mStart h.buffers

/-- The loops from `mStart` on count no further than the buffers. -/
theorem Shows.mStart_add (h : Shows strings b v) (hv : v.Valid)
    (hlen : b.mBuffer.length < 2 ^ 31) : v.mStart + b.rest.length < 2 ^ 31 := by
  have hle : v.mStart ≤ b.mBuffer.length := by
    rw [h.buffers.length_eq]
    exact hv
  rw [Buffers.rest, List.length_drop, h.toSize_eq hv hlen]
  omega

theorem Shows.congr (h : Shows strings b v)
    (hsame : ∀ c ∈ b.mBuffer, slot strings' c.string = slot strings c.string) :
    Shows strings' b v := by
  refine ⟨?_, h.start⟩
  refine (List.forall₂_iff_zip.mpr ⟨h.buffers.length_eq, fun {c bytes} hmem => ?_⟩)
  have hpoints := List.forall₂_zip h.buffers hmem
  exact hpoints.congr (hsame c (List.of_mem_zip hmem).1)

/-- The bytes of a buffer that is still to be sent are part of the content. -/
theorem length_le_content {bytes : Bytes} (h : bytes ∈ v.mBuffer.drop v.mStart) :
    bytes.length ≤ v.content.length := (List.sublist_flatten_of_mem h).length_le

theorem addInt_natCast {m n : ℕ} (h : m + n < 2 ^ 31) :
    addInt m n = some ((m + n : ℕ) : ℤ) := by
  rw [addInt, if_pos (by omega), Nat.cast_add]

theorem addInt_one {i : ℕ} (h : i + 1 < 2 ^ 31) : addInt i 1 = some ((i + 1 : ℕ) : ℤ) :=
  addInt_natCast h

theorem sizeLoop_eq {l : List ConstBuffer} {vs : List Bytes}
    (h : List.Forall₂ (Points strings) l vs) {i n : ℕ} (hi : i + l.length < 2 ^ 31)
    (hsmall : n + vs.flatten.length < 2 ^ 31) :
    Buffers.sizeLoop l i n = some (n + vs.flatten.length : ℕ) := by
  induction h generalizing i n with
  | nil => rfl
  | @cons c bytes l vs hc hrest ih =>
      rw [List.length_cons] at hi
      rw [List.flatten_cons, List.length_append] at hsmall ⊢
      have hint : toInt c.size = bytes.length := by
        rw [hc.size_eq]
        exact MachineInt.toInt_of_lt (by omega)
      rw [Buffers.sizeLoop, hint, addInt_natCast (by omega), Option.bind_some,
        addInt_one (by omega), Option.bind_some, ih (by omega) (by omega), Nat.add_assoc]

/-- `size()` is the number of bytes. -/
theorem Shows.size_eq (h : Shows strings b v) (hv : v.Valid) (hlen : b.mBuffer.length < 2 ^ 31)
    (hsmall : v.content.length < 2 ^ 31) : b.size = some (v.content.length : ℤ) := by
  rw [SharedConstBuffers.content] at hsmall ⊢
  have hsize := sizeLoop_eq (n := 0) (h.rest hv hlen) (h.mStart_add hv hlen) (by omega)
  rw [Nat.zero_add, ← h.start] at hsize
  exact hsize

theorem Shows.push (h : Shows strings b v) (data : Bytes) :
    Shows (strings ++ [some data]) (b.push strings.length data.length) (v.push data) := by
  have hold : List.Forall₂ (Points (strings ++ [some data])) b.mBuffer v.mBuffer := by
    refine h.buffers.imp fun c bytes hc => hc.congr ?_
    obtain ⟨d, hd, -, -⟩ := hc
    exact slot_append_of_lt (lt_of_slot hd) _
  refine ⟨List.rel_append hold (.cons ?_ .nil), h.start⟩
  exact ⟨data, slot_concat_self _, by simp, by simp⟩

theorem forall₂_set {α β : Type*} {R : α → β → Prop} {l : List α} {m : List β}
    (h : List.Forall₂ R l m) {a : α} {b : β} (hab : R a b) (i : ℕ) :
    List.Forall₂ R (l.set i a) (m.set i b) := by
  induction h generalizing i with
  | nil => exact .nil
  | cons hc hrest ih =>
      cases i with
      | zero => exact .cons hab hrest
      | succ i => exact .cons hc (ih i)

theorem Shows.consumeLoop (h : Shows strings b v) {l : List ConstBuffer} {vs : List Bytes}
    (hl : List.Forall₂ (Points strings) l vs) (hsmall : ∀ bytes ∈ vs, bytes.length < 2 ^ 31)
    {i size : ℕ} (hi : i + l.length < 2 ^ 31) (hlen : b.mBuffer.length < 2 ^ 31)
    (hsize : size < 2 ^ 31) :
    ∃ b', b.consumeLoop l i size = some b' ∧ Shows strings b' (v.consumeLoop vs i size) := by
  induction hl generalizing i size with
  | nil =>
      have hend : toInt b.mBuffer.length = (v.mBuffer.length : ℤ) := by
        rw [MachineInt.toInt_of_lt hlen, h.buffers.length_eq]
      rw [Buffers.consumeLoop, hend, SharedConstBuffers.consumeLoop]
      exact ⟨_, rfl, h.buffers, rfl⟩
  | @cons c bytes l vs hc hrest ih =>
      rw [List.length_cons] at hi
      have hint : toInt c.size = bytes.length := by
        rw [hc.size_eq]
        exact MachineInt.toInt_of_lt (hsmall bytes List.mem_cons_self)
      simp only [Buffers.consumeLoop, SharedConstBuffers.consumeLoop, hint, gt_iff_lt, Nat.cast_lt,
        Nat.cast_inj]
      split
      · rename_i hlt
        have hsub : addInt size (-(bytes.length : ℤ)) = some ((size - bytes.length : ℕ) : ℤ) := by
          rw [addInt, if_pos (by omega), Nat.cast_sub hlt.le]
          rfl
        rw [hsub, Option.bind_some, addInt_one (by omega), Option.bind_some]
        exact ih (fun bytes hmem => hsmall bytes (List.mem_cons_of_mem _ hmem)) (by omega)
          (by omega)
      · split
        · rw [addInt_one (by omega)]
          exact ⟨_, rfl, h.buffers, rfl⟩
        · rename_i hle hne
          have hadvance := hc.advance (n := size) (by rw [hc.size_eq]; omega)
          rw [Int.toNat_natCast, MachineInt.toSize_natCast (by omega)]
          exact ⟨_, rfl, forall₂_set h.buffers hadvance i, rfl⟩

theorem Shows.consume (h : Shows strings b v) (hv : v.Valid) (hlen : b.mBuffer.length < 2 ^ 31)
    (hsmall : v.content.length < 2 ^ 31) {size : ℕ} (hsize : size < 2 ^ 31) :
    ∃ b', b.consume size = some b' ∧ Shows strings b' (v.consume size) := by
  rw [Buffers.consume, SharedConstBuffers.consume, h.start]
  refine h.consumeLoop (h.rest hv hlen) (fun bytes hmem => ?_) (h.mStart_add hv hlen) hlen hsize
  exact (length_le_content hmem).trans_lt hsmall

/-! ### Who keeps the strings -/

/-- The object is a copy that shares store `k`. -/
def Holds (k : ℕ) (o : Option Buffers) : Prop := o.map Buffers.mStore = some k

instance (k : ℕ) (o : Option Buffers) : Decidable (Holds k o) :=
  inferInstanceAs (Decidable (_ = _))

/-- The pointers of a copy are to strings of its store, and no more than these. -/
def Kept (stores : List Store) (b : Buffers) : Prop :=
  ∃ store, stores[b.mStore]? = some store ∧ b.mBuffer.length ≤ store.data.length ∧
    ∀ c ∈ b.mBuffer, c.string ∈ store.data

/-- Every store counts the copies that share it, and one more if an operation under way
holds it; no string is in two stores, and an `int` counts the strings of each. -/
structure Owned (extra : Option ℕ) (s : State) : Prop where
  counted : ∀ k store, s.stores[k]? = some store →
    store.useCount = s.objects.countP (fun o => Holds k o) + if extra = some k then 1 else 0
  kept : ∀ x b, s.object x = some b → Kept s.stores b
  apart : ∀ (k l : ℕ) (store store' : Store), s.stores[k]? = some store →
    s.stores[l]? = some store' → ∀ a ∈ store.data, a ∈ store'.data → k = l
  allocated : ∀ (k : ℕ) (store : Store), s.stores[k]? = some store →
    ∀ a ∈ store.data, a < s.strings.length
  room : ∀ (k : ℕ) (store : Store), s.stores[k]? = some store → store.data.length < 2 ^ 31

/-- Each object shows what is in its queue. -/
structure Represents (s : State) (q : List (Option Bytes)) : Prop where
  length : s.objects.length = q.length
  live : ∀ x b, s.object x = some b →
    ∃ v, Shows s.strings b v ∧ v.Valid ∧ slot q x = some v.content
  gone : ∀ x, s.object x = none → slot q x = none

variable {s : State} {q : List (Option Bytes)} {extra extra' : Option ℕ} {x k : ℕ}
  {store store' : Store}

theorem owned_init : Owned none {} := by
  refine ⟨fun k store h => ?_, fun x b h => ?_, fun k l store store' h => ?_,
    fun k store h => ?_, fun k store h => ?_⟩
  · cases h
  · cases h
  · cases h
  · cases h
  · cases h

/-- The destructor of a store deletes its strings and no others. -/
theorem exists_deleteAll (strings : List (Option Bytes)) (data : List ℕ) (i : ℕ)
    (hi : i + data.length < 2 ^ 31) :
    ∃ strings', deleteAll strings data i = some strings' ∧
      strings'.length = strings.length ∧
      ∀ a ∉ data, slot strings' a = slot strings a := by
  induction data generalizing strings i with
  | nil => exact ⟨strings, rfl, rfl, fun _ _ => rfl⟩
  | cons d data ih =>
      rw [List.length_cons] at hi
      obtain ⟨strings', hstrings, hlength, hslot⟩ :=
        ih (strings.set d none) (i + 1) (by omega)
      refine ⟨strings', ?_, ?_, fun a ha => ?_⟩
      · rw [deleteAll, addInt_one (by omega), Option.bind_some, hstrings]
      · rw [hlength, List.length_set]
      · rw [List.mem_cons, not_or] at ha
        rw [hslot a ha.2, slot_set_ne (Ne.symm ha.1)]

/-- A store is updated: what it keeps newly is allocated on the way, and it drops strings
only when no copy shares it. -/
theorem Owned.setStore (h : Owned extra s) (store' : Store) (hk : s.stores[k]? = some store)
    (hnew : ∀ a ∈ store'.data, a ∈ store.data ∨ s.strings.length ≤ a)
    (hkeep : store.data <+: store'.data ∨ ∀ x b, s.object x = some b → b.mStore ≠ k)
    (hroom : store'.data.length < 2 ^ 31)
    (hlt : ∀ a ∈ store'.data, a < strings'.length) (hlen : s.strings.length ≤ strings'.length)
    (hcount : store'.useCount =
      s.objects.countP (fun o => Holds k o) + if extra' = some k then 1 else 0)
    (hextra : ∀ l, l ≠ k → (extra' = some l ↔ extra = some l)) :
    Owned extra' { s with strings := strings', stores := s.stores.set k store' } := by
  obtain ⟨hcounted, hkept, hapart, hallocated, hroom'⟩ := h
  have hself : (s.stores.set k store')[k]? = some store' :=
    List.getElem?_set_self (List.getElem?_eq_some_iff.mp hk).1
  have hother : ∀ {l : ℕ}, l ≠ k → (s.stores.set k store')[l]? = s.stores[l]? := fun hl =>
    List.getElem?_set_ne hl.symm
  refine ⟨fun l st hl => ?_, fun x b hb => ?_, fun l m st st' hl hm a ha ha' => ?_,
    fun l st hl a ha => ?_, fun l st hl => ?_⟩
  · by_cases hlk : l = k
    · subst hlk
      obtain rfl := Option.some.inj (hself.symm.trans hl)
      exact hcount
    · rw [if_congr (hextra l hlk) rfl rfl]
      exact hcounted l st ((hother hlk).symm.trans hl)
  · obtain ⟨st, hst, hle, hmem⟩ := hkept x b hb
    by_cases hbk : b.mStore = k
    · rw [hbk, hk] at hst
      obtain rfl := Option.some.inj hst
      have hprefix := hkeep.resolve_right fun hnone => hnone x b hb hbk
      exact ⟨store', hbk ▸ hself, hle.trans hprefix.length_le,
        fun c hc => hprefix.subset (hmem c hc)⟩
    · exact ⟨st, (hother hbk).trans hst, hle, hmem⟩
  · -- a string of the updated store is an old one or in no other store
    have hnot : ∀ {l : ℕ} {st : Store}, l ≠ k → s.stores[l]? = some st → a ∈ st.data →
        a ∉ store'.data := by
      intro l st hlk hl ha hmem
      rcases hnew a hmem with hold | hge
      · exact hlk (hapart l k st store hl hk a ha hold)
      · exact Nat.not_lt_of_le hge (hallocated l st hl a ha)
    by_cases hlk : l = k
    · by_cases hmk : m = k
      · exact hlk.trans hmk.symm
      · subst hlk
        obtain rfl := Option.some.inj (hself.symm.trans hl)
        exact absurd ha (hnot hmk ((hother hmk).symm.trans hm) ha')
    · have hl' := (hother hlk).symm.trans hl
      by_cases hmk : m = k
      · subst hmk
        obtain rfl := Option.some.inj (hself.symm.trans hm)
        exact absurd ha' (hnot hlk hl' ha)
      · exact hapart l m st st' hl' ((hother hmk).symm.trans hm) a ha ha'
  · by_cases hlk : l = k
    · subst hlk
      obtain rfl := Option.some.inj (hself.symm.trans hl)
      exact hlt a ha
    · exact (hallocated l st ((hother hlk).symm.trans hl) a ha).trans_le hlen
  · by_cases hlk : l = k
    · subst hlk
      obtain rfl := Option.some.inj (hself.symm.trans hl)
      exact hroom
    · exact hroom' l st ((hother hlk).symm.trans hl)

/-- One more reference to a store, which the operation holds. -/
theorem Owned.share (h : Owned none s) (k : ℕ) : Owned (some k) (s.share k) := by
  rw [State.share]
  split
  · rename_i hnone
    refine ⟨fun l store hl => ?_, h.kept, h.apart, h.allocated, h.room⟩
    have hlk : k ≠ l := by
      rintro rfl
      rw [hnone] at hl
      cases hl
    simpa [hlk] using h.counted l store hl
  · rename_i store hstore
    have hcount := h.counted k store hstore
    refine h.setStore ⟨store.data, store.useCount + 1⟩ hstore (fun a ha => Or.inl ha)
      (Or.inl (List.prefix_refl _)) (h.room k store hstore) (h.allocated k store hstore) le_rfl ?_
      fun l hl => ?_
    · simpa using hcount
    · simp [hl.symm]

/-- A new store, which the operation holds. -/
theorem Owned.newStore (h : Owned none s) :
    Owned (some s.stores.length) { s with stores := s.stores ++ [Store.new] } := by
  obtain ⟨hcounted, hkept, hapart, hallocated, hroom⟩ := h
  have hnot : ∀ x b, s.object x = some b → b.mStore ≠ s.stores.length := by
    intro x b hb heq
    obtain ⟨st, hst, -⟩ := hkept x b hb
    exact (List.getElem?_eq_some_iff.mp hst).1.ne heq
  refine ⟨fun l st hl => ?_, fun x b hb => ?_, fun l m st st' hl hm a ha ha' => ?_,
    fun l st hl a ha => ?_, fun l st hl => ?_⟩
  · rcases Machine.getElem?_concat_eq_some.mp hl with hl | ⟨rfl, rfl⟩
    · have hne : s.stores.length ≠ l := (List.getElem?_eq_some_iff.mp hl).1.ne'
      simpa [hne] using hcounted l st hl
    · have hzero : s.objects.countP (fun o => Holds s.stores.length o) = 0 := by
        rw [List.countP_eq_zero]
        rintro o ho hholds
        obtain ⟨b, rfl, hb⟩ := Option.map_eq_some_iff.mp (of_decide_eq_true hholds)
        obtain ⟨x, hx⟩ := List.getElem?_of_mem ho
        exact hnot x b (slot_eq_some.mpr hx) hb
      simp [hzero, Store.new]
  · obtain ⟨st, hst, hkeeps⟩ := hkept x b hb
    exact ⟨st, (List.getElem?_append_left (List.getElem?_eq_some_iff.mp hst).1).trans hst, hkeeps⟩
  · rcases Machine.getElem?_concat_eq_some.mp hl with hl | ⟨rfl, rfl⟩
    · rcases Machine.getElem?_concat_eq_some.mp hm with hm | ⟨rfl, rfl⟩
      · exact hapart l m st st' hl hm a ha ha'
      · cases ha'
    · cases ha
  · rcases Machine.getElem?_concat_eq_some.mp hl with hl | ⟨rfl, rfl⟩
    · exact hallocated l st hl a ha
    · cases ha
  · rcases Machine.getElem?_concat_eq_some.mp hl with hl | ⟨rfl, rfl⟩
    · exact hroom l st hl
    · exact Nat.two_pow_pos 31

/-- **Letting go of a store** changes what no copy shows: it deletes the strings only
when no copy is left that shares it. -/
theorem Owned.release (h : Owned (some k) s) (hq : Represents s q) :
    ∃ s', s.release k = some s' ∧ Owned none s' ∧ Represents s' q := by
  rw [State.release]
  split
  · rename_i hnone
    refine ⟨s, rfl, ⟨fun l store hl => ?_, h.kept, h.apart, h.allocated, h.room⟩, hq⟩
    have hlk : k ≠ l := by
      rintro rfl
      rw [hnone] at hl
      cases hl
    simpa [hlk] using h.counted l store hl
  rename_i store hstore
  have hcount := h.counted k store hstore
  rw [if_pos rfl] at hcount
  split
  · -- the last one: no object shares the store
    rename_i hone
    have hother : ∀ x b, s.object x = some b → b.mStore ≠ k := by
      rintro x b hb rfl
      have hpos : 0 < s.objects.countP (fun o => Holds b.mStore o) :=
        List.countP_pos_iff.mpr ⟨some b, List.mem_of_getElem? (slot_eq_some.mp hb), by simp [Holds]⟩
      omega
    have hroom := h.room k store hstore
    obtain ⟨strings', hdelete, hlength, hslot⟩ :=
      exists_deleteAll s.strings store.data 0 (by omega)
    refine ⟨_, by rw [Nat.cast_zero] at hdelete; rw [hdelete]; rfl, ?_, ?_⟩
    · refine h.setStore ⟨[], 0⟩ hstore (fun a ha => absurd ha List.not_mem_nil)
        (Or.inr hother) (Nat.two_pow_pos 31) (fun a ha => absurd ha List.not_mem_nil) hlength.ge ?_
        fun l hl => ?_
      · simp only [reduceCtorEq, if_false]
        omega
      · simp [hl.symm]
    · refine ⟨hq.length, fun x b hb => ?_, hq.gone⟩
      obtain ⟨v, hshows, hv⟩ := hq.live x b hb
      obtain ⟨st, hst, -, hmem⟩ := h.kept x b hb
      refine ⟨v, hshows.congr fun c hc => hslot _ fun hdel => ?_, hv⟩
      exact hother x b hb (h.apart _ _ _ _ hst hstore _ (hmem c hc) hdel)
  · -- other copies still share the store
    refine ⟨_, rfl, ?_, ⟨hq.length, hq.live, hq.gone⟩⟩
    refine h.setStore ⟨store.data, store.useCount - 1⟩ hstore (fun a ha => Or.inl ha)
      (Or.inl (List.prefix_refl _)) (h.room k store hstore) (h.allocated k store hstore) le_rfl ?_
      fun l hl => ?_
    · simp only [reduceCtorEq, if_false]
      omega
    · simp [hl.symm]

variable {o : Option Buffers} {old : Buffers}

/-- The copies that share a store when an object has been replaced. -/
theorem countP_setObject (hx : s.object x = some old) (o : Option Buffers) (k : ℕ) :
    (s.objects.set x o).countP (fun o => Holds k o) + (if Holds k (some old) then 1 else 0) =
      s.objects.countP (fun o => Holds k o) + if Holds k o then 1 else 0 := by
  have hlt := lt_of_slot hx
  have hget : s.objects[x] = some old := by
    have := slot_eq_some.mp hx
    rw [List.getElem?_eq_getElem hlt] at this
    exact Option.some.inj this
  have hpos : Holds k (some old) → 0 < s.objects.countP (fun o => Holds k o) := fun hholds =>
    List.countP_pos_iff.mpr ⟨_, List.getElem_mem hlt, by simpa [hget] using hholds⟩
  have hset := List.countP_set (p := fun o => decide (Holds k o)) (a := o) hlt
  simp only [hget, decide_eq_true_eq] at hset
  rw [hset]
  by_cases hholds : Holds k (some old)
  · have := hpos hholds
    simp only [if_pos hholds]
    omega
  · simp only [if_neg hholds]
    omega

/-- An object is replaced: the operation holds the store of the old one afterwards. -/
theorem Owned.setObject (h : Owned extra s) (hx : s.object x = some old)
    (ho : o.map Buffers.mStore = extra) (hkept : ∀ b, o = some b → Kept s.stores b) :
    Owned (some old.mStore) (s.setObject x o) := by
  refine ⟨fun k store hk => ?_, fun y b hb => ?_, h.apart, h.allocated, h.room⟩
  · have hset := countP_setObject hx o k
    have hnew : Holds k o ↔ extra = some k := by rw [Holds, ho]
    have hold : Holds k (some old) ↔ some old.mStore = some k := Iff.rfl
    rw [if_congr hold rfl rfl, if_congr hnew rfl rfl, ← h.counted k store hk] at hset
    exact hset.symm
  · rcases slot_set_cases hb with ⟨rfl, ho⟩ | ⟨-, hb⟩
    · exact hkept b ho
    · exact h.kept y b hb

/-- An object is updated and keeps its store. -/
theorem Owned.updateObject (h : Owned none s) (hx : s.object x = some old)
    (hb : b.mStore = old.mStore) (hkept : Kept s.stores b) :
    Owned none (s.setObject x (some b)) := by
  refine ⟨fun k store hk => ?_, fun y c hc => ?_, h.apart, h.allocated, h.room⟩
  · have hset := countP_setObject hx (some b) k
    have hsame : Holds k (some b) ↔ Holds k (some old) := by
      simp only [Holds, Option.map_some, hb]
    rw [if_congr hsame rfl rfl] at hset
    rw [h.counted k store hk, State.setObject, Nat.add_right_cancel hset]
  · rcases slot_set_cases hc with ⟨rfl, hsame⟩ | ⟨-, hc⟩
    · obtain rfl := Option.some.inj hsame
      exact hkept
    · exact h.kept y c hc

/-- A new object takes over the reference that the operation holds. -/
theorem Owned.concat (h : Owned (some b.mStore) s) (hkept : Kept s.stores b) :
    Owned none { s with objects := s.objects ++ [some b] } := by
  refine ⟨fun k store hk => ?_, fun y c hc => ?_, h.apart, h.allocated, h.room⟩
  · have hcount := h.counted k store hk
    have hholds : Holds k (some b) ↔ some b.mStore = some k := Iff.rfl
    simp only [List.countP_append, List.countP_singleton, decide_eq_true_eq,
      if_congr hholds rfl rfl]
    simpa using hcount
  · rcases slot_concat_cases hc with ⟨rfl, hnew⟩ | ⟨-, hc⟩
    · obtain rfl := Option.some.inj hnew
      exact hkept
    · exact h.kept y c hc

theorem Represents.setObject (h : Represents s q) (hx : s.object x = some old) (o' : Option Bytes)
    (hlive : ∀ b, o = some b → ∃ v, Shows s.strings b v ∧ v.Valid ∧ o' = some v.content)
    (hgone : o = none → o' = none) : Represents (s.setObject x o) (q.set x o') := by
  have hlt := lt_of_slot hx
  have hltq : x < q.length := h.length ▸ hlt
  refine ⟨by simp [State.setObject, h.length], fun y b hb => ?_, fun y hy => ?_⟩
  · rcases slot_set_cases hb with ⟨rfl, ho⟩ | ⟨hxy, hb⟩
    · rw [slot_set_self hltq]
      exact hlive b ho
    · rw [slot_set_ne hxy]
      exact h.live y b hb
  · by_cases hxy : x = y
    · subst hxy
      rw [slot_set_self hltq]
      exact hgone ((slot_set_self hlt o).symm.trans hy)
    · rw [slot_set_ne hxy]
      exact h.gone y ((slot_set_ne hxy o).symm.trans hy)

theorem Represents.concat (h : Represents s q) (hshows : Shows s.strings b v) (hv : v.Valid) :
    Represents { s with objects := s.objects ++ [some b] } (q ++ [some v.content]) := by
  refine ⟨by simp [h.length], fun y c hc => ?_, fun y hy => ?_⟩
  · rcases slot_concat_cases hc with ⟨rfl, hnew⟩ | ⟨hlen, hc⟩
    · obtain rfl := Option.some.inj hnew
      exact ⟨v, hshows, hv, by rw [h.length, slot_concat_self]⟩
    · rw [slot_concat_of_ne (h.length ▸ hlen)]
      exact h.live y c hc
  · by_cases hlen : y = s.objects.length
    · subst hlen
      exact absurd ((slot_concat_self (some b)).symm.trans hy) (by simp)
    · rw [slot_concat_of_ne (h.length ▸ hlen)]
      exact h.gone y ((slot_concat_of_ne hlen (some b)).symm.trans hy)

/-! ### Steps and runs -/

/-- The objects in memory are the reference queues. -/
structure Refines (s : State) (q : List (Option Bytes)) : Prop where
  owned : Owned none s
  represents : Represents s q
  small : ∀ x bytes, slot q x = some bytes → bytes.length < 2 ^ 31

theorem refines_init : Refines {} [] := by
  refine ⟨owned_init, ⟨rfl, fun x b h => ?_, fun _ _ => rfl⟩, fun x bytes h => ?_⟩
  · cases h
  · cases h

/-- An `int` counts the buffers of an object. -/
theorem Refines.length_lt (h : Refines s q) (hb : s.object x = some b) :
    b.mBuffer.length < 2 ^ 31 := by
  obtain ⟨store, hstore, hle, -⟩ := h.owned.kept x b hb
  exact hle.trans_lt (h.owned.room _ _ hstore)

/-- The object of a queue. -/
theorem Refines.object (h : Refines s q) (hx : slot q x = some bytes) :
    ∃ b v, s.object x = some b ∧ Kept s.stores b ∧ Shows s.strings b v ∧ v.Valid ∧
      v.content = bytes := by
  cases hb : s.object x with
  | none =>
      rw [h.represents.gone x hb] at hx
      cases hx
  | some b =>
      obtain ⟨v, hshows, hv, hq⟩ := h.represents.live x b hb
      exact ⟨b, v, rfl, h.owned.kept x b hb, hshows, hv, Option.some.inj (hq.symm.trans hx)⟩

theorem shows_new (k : ℕ) : Shows strings (Buffers.new k) {} := ⟨.nil, rfl⟩

theorem kept_newStore (stores : List Store) :
    Kept (stores ++ [Store.new]) (Buffers.new stores.length) :=
  ⟨Store.new, by simp [Buffers.new], Nat.zero_le _, fun c hc => absurd hc List.not_mem_nil⟩

theorem Kept.share (h : Kept s.stores b) (k : ℕ) : Kept (s.share k).stores b := by
  rw [State.share]
  split
  · exact h
  · rename_i store hstore
    obtain ⟨st, hst, hmem⟩ := h
    by_cases hk : k = b.mStore
    · subst hk
      obtain rfl := Option.some.inj (hstore.symm.trans hst)
      exact ⟨_, List.getElem?_set_self (List.getElem?_eq_some_iff.mp hst).1, hmem⟩
    · exact ⟨st, (List.getElem?_set_ne hk).trans hst, hmem⟩

theorem share_objects (s : State) (k : ℕ) : (s.share k).objects = s.objects := by
  rw [State.share]
  split <;> rfl

theorem share_strings (s : State) (k : ℕ) : (s.share k).strings = s.strings := by
  rw [State.share]
  split <;> rfl

theorem Represents.congr {s' : State} (h : Represents s q) (hobjects : s'.objects = s.objects)
    (hstrings : s'.strings = s.strings) : Represents s' q := by
  refine ⟨hobjects ▸ h.length, fun x b hb => ?_, fun x hx => ?_⟩
  · rw [State.object, hobjects] at hb
    rw [hstrings]
    exact h.live x b hb
  · rw [State.object, hobjects] at hx
    exact h.gone x hx

/-- What a queue may be after one place of it was set. -/
theorem small_set (h : ∀ x bytes, slot q x = some bytes → bytes.length < 2 ^ 31)
    {o : Option Bytes} (ho : ∀ bytes, o = some bytes → bytes.length < 2 ^ 31) (x : ℕ) :
    ∀ y bytes, slot (q.set x o) y = some bytes → bytes.length < 2 ^ 31 := by
  intro y bytes hy
  rcases slot_set_cases hy with ⟨rfl, hnew⟩ | ⟨-, hy⟩
  · exact ho bytes hnew
  · exact h y bytes hy

theorem small_concat (h : ∀ x bytes, slot q x = some bytes → bytes.length < 2 ^ 31)
    (hbytes : bytes.length < 2 ^ 31) :
    ∀ y bytes', slot (q ++ [some bytes]) y = some bytes' → bytes'.length < 2 ^ 31 := by
  intro y bytes' hy
  rcases slot_concat_cases hy with ⟨rfl, hnew⟩ | ⟨-, hy⟩
  · obtain rfl := Option.some.inj hnew
    exact hbytes
  · exact h y bytes' hy

theorem Refines.construct (h : Refines s q) : Refines s.construct (q ++ [some []]) := by
  have hkept := kept_newStore s.stores
  have hrep : Represents { s with stores := s.stores ++ [Store.new] } q :=
    h.represents.congr rfl rfl
  have howned := Owned.concat (b := Buffers.new s.stores.length) h.owned.newStore hkept
  refine ⟨howned, ?_, small_concat h.small (by simp)⟩
  exact hrep.concat (shows_new _) SharedConstBuffers.valid_new

theorem Refines.push (h : Refines s q) (hx : slot q x = some bytes) {data : Bytes}
    (hsmall : bytes.length + data.length < 2 ^ 31) (hfits : Fits s (.push x data)) :
    ∃ s', s.push x data = some s' ∧ Refines s' (q.set x (some (bytes ++ data))) := by
  obtain ⟨b, v, hb, ⟨store, hstore, hle, hmem⟩, hshows, hv, rfl⟩ := h.object hx
  have hroom := hfits b hb store hstore
  have hcount := h.owned.counted b.mStore store hstore
  refine ⟨_, by rw [State.push, hb, Option.bind_some, hstore]; rfl, ?_⟩
  set a := s.strings.length with ha
  -- the store takes the string, then the object is replaced by one that points to it
  have howned : Owned none { s with
      strings := s.strings ++ [some data]
      stores := s.stores.set b.mStore { store with data := store.data ++ [a] } } := by
    refine h.owned.setStore _ hstore (fun c hc => ?_)
      (Or.inl (List.prefix_append store.data [a])) (by simpa using hroom) (fun c hc => ?_) (by simp)
      hcount fun l _ => Iff.rfl
    · rcases List.mem_append.mp hc with hc | hc
      · exact Or.inl hc
      · exact Or.inr (List.mem_singleton.mp hc).ge
    · rw [List.length_append, List.length_singleton]
      rcases List.mem_append.mp hc with hc | hc
      · exact Nat.lt_succ_of_lt (h.owned.allocated _ _ hstore c hc)
      · rw [List.mem_singleton.mp hc]
        omega
  have hself : (s.stores.set b.mStore { store with data := store.data ++ [a] })[b.mStore]? =
      some { store with data := store.data ++ [a] } :=
    List.getElem?_set_self (List.getElem?_eq_some_iff.mp hstore).1
  have hrep : Represents { s with
      strings := s.strings ++ [some data]
      stores := s.stores.set b.mStore { store with data := store.data ++ [a] } } q := by
    refine ⟨h.represents.length, fun y c hc => ?_, h.represents.gone⟩
    obtain ⟨w, hw, hrest⟩ := h.represents.live y c hc
    obtain ⟨st, hst, -, hin⟩ := h.owned.kept y c hc
    refine ⟨w, hw.congr fun e he => ?_, hrest⟩
    exact slot_append_of_lt (h.owned.allocated _ _ hst _ (hin e he)) _
  have hnew : ∀ c, some (b.push a data.length) = some c → ∃ w,
      Shows (s.strings ++ [some data]) c w ∧ w.Valid ∧
        some (v.content ++ data) = some w.content := by
    intro c hc
    obtain rfl := Option.some.inj hc
    exact ⟨v.push data, hshows.push data, hv.push data,
      congrArg some (SharedConstBuffers.content_push hv data).symm⟩
  refine ⟨?_, hrep.setObject hb _ hnew (fun hnone => by cases hnone), small_set h.small ?_ x⟩
  · refine howned.updateObject hb rfl ⟨_, hself, by simpa [Buffers.push] using hle, fun c hc => ?_⟩
    rcases List.mem_append.mp hc with hc | hc
    · exact List.mem_append_left [a] (hmem c hc)
    · rw [List.mem_singleton.mp hc]
      exact List.mem_append_right store.data (List.mem_singleton_self a)
  · intro bytes' hbytes
    obtain rfl := Option.some.inj hbytes
    rw [List.length_append]
    exact hsmall

/-- `consume` moves no buffer to another string or store, and keeps those sent. -/
theorem consumeLoop_eq_some {b' : Buffers} {l : List ConstBuffer} {i size : ℤ}
    (hl : l ⊆ b.mBuffer) (h : b.consumeLoop l i size = some b') :
    b'.mStore = b.mStore ∧ b'.mBuffer.length = b.mBuffer.length ∧
      ∀ c ∈ b'.mBuffer, ∃ d ∈ b.mBuffer, c.string = d.string := by
  have hsame : ∀ c ∈ b.mBuffer, ∃ d ∈ b.mBuffer, c.string = d.string := fun c hc => ⟨c, hc, rfl⟩
  induction l generalizing i size with
  | nil =>
      obtain rfl := Option.some.inj h
      exact ⟨rfl, rfl, hsame⟩
  | cons d l ih =>
      simp only [Buffers.consumeLoop] at h
      split at h
      · obtain ⟨size', -, h⟩ := Option.bind_eq_some_iff.mp h
        obtain ⟨i', -, h⟩ := Option.bind_eq_some_iff.mp h
        exact ih (List.subset_of_cons_subset hl) h
      · split at h
        · obtain ⟨i', -, rfl⟩ := Option.map_eq_some_iff.mp h
          exact ⟨rfl, rfl, hsame⟩
        · obtain rfl := Option.some.inj h
          refine ⟨rfl, List.length_set, fun c hc => ?_⟩
          rcases List.mem_or_eq_of_mem_set hc with hc | rfl
          · exact hsame c hc
          · exact ⟨d, hl List.mem_cons_self, rfl⟩

theorem Refines.consume (h : Refines s q) (hx : slot q x = some bytes) {size : ℕ}
    (hsize : size < 2 ^ 31) :
    ∃ s', s.consume x size = some s' ∧ Refines s' (q.set x (some (bytes.drop size))) := by
  obtain ⟨b, v, hb, ⟨store, hstore, hle, hmem⟩, hshows, hv, rfl⟩ := h.object hx
  obtain ⟨b', hconsume, hshows'⟩ := hshows.consume hv (h.length_lt hb) (h.small x _ hx) hsize
  obtain ⟨hsame, hlength, hstrings⟩ := consumeLoop_eq_some (List.drop_subset ..) hconsume
  refine ⟨_, by rw [State.consume, hb, Option.bind_some, hconsume]; rfl, ?_⟩
  refine ⟨h.owned.updateObject hb hsame ⟨store, by rw [hsame, hstore], by rwa [hlength],
      fun c hc => ?_⟩,
    h.represents.setObject hb _ (fun c hc => ?_) (fun hnone => by cases hnone),
    small_set h.small (fun bytes' hbytes => ?_) x⟩
  · obtain ⟨d, hd, hstring⟩ := hstrings c hc
    rw [hstring]
    exact hmem d hd
  · obtain rfl := Option.some.inj hc
    exact ⟨v.consume size, hshows', hv.consume size,
      congrArg some (SharedConstBuffers.content_consume hv size).symm⟩
  · obtain rfl := Option.some.inj hbytes
    have hsmall := h.small x _ hx
    rw [List.length_drop]
    omega

theorem Refines.clear (h : Refines s q) (hx : slot q x = some bytes) :
    ∃ s', s.clear x = some s' ∧ Refines s' (q.set x (some [])) := by
  obtain ⟨b, v, hb, -, -, -, rfl⟩ := h.object hx
  have hrep : Represents { s with stores := s.stores ++ [Store.new] } q :=
    h.represents.congr rfl rfl
  have howned := h.owned.newStore.setObject (o := some (Buffers.new s.stores.length)) hb rfl
    (fun c hc => by
      obtain rfl := Option.some.inj hc
      exact kept_newStore s.stores)
  have hset := hrep.setObject (o := some (Buffers.new s.stores.length)) hb (some [])
    (fun c hc => by
      obtain rfl := Option.some.inj hc
      exact ⟨{}, shows_new _, SharedConstBuffers.valid_new, rfl⟩) (fun hnone => by cases hnone)
  obtain ⟨s', hs', howned', hrep'⟩ := howned.release hset
  refine ⟨s', by rw [State.clear, hb]; exact hs', howned', hrep', small_set h.small ?_ x⟩
  intro bytes' hbytes
  obtain rfl := Option.some.inj hbytes
  exact Nat.two_pow_pos 31

theorem Refines.copy (h : Refines s q) (hx : slot q x = some bytes) :
    ∃ s', s.copy x = some s' ∧ Refines s' (q ++ [some bytes]) := by
  obtain ⟨b, v, hb, hkept, hshows, hv, rfl⟩ := h.object hx
  have hrep : Represents (s.share b.mStore) q :=
    h.represents.congr (share_objects ..) (share_strings ..)
  refine ⟨_, by rw [State.copy, hb]; rfl, ?_⟩
  rw [← share_objects s b.mStore]
  refine ⟨(h.owned.share b.mStore).concat (hkept.share _), hrep.concat ?_ hv,
    small_concat h.small (h.small x _ hx)⟩
  rw [share_strings]
  exact hshows

theorem Refines.assign (h : Refines s q) (hx : slot q x = some bytes) {y : ℕ} {bytes' : Bytes}
    (hy : slot q y = some bytes') :
    ∃ s', s.assign x y = some s' ∧ Refines s' (q.set x (some bytes')) := by
  obtain ⟨old, -, hold, -, -, -, -⟩ := h.object hx
  obtain ⟨b, v, hb, hkept, hshows, hv, rfl⟩ := h.object hy
  have hrep : Represents (s.share b.mStore) q :=
    h.represents.congr (share_objects ..) (share_strings ..)
  have hold' : (s.share b.mStore).object x = some old := by
    rw [State.object, share_objects]
    exact hold
  have howned := (h.owned.share b.mStore).setObject (o := some b) hold' rfl (fun c hc => by
    obtain rfl := Option.some.inj hc
    exact hkept.share _)
  have hset := hrep.setObject (o := some b) hold' (some v.content) (fun c hc => by
    obtain rfl := Option.some.inj hc
    rw [share_strings]
    exact ⟨v, hshows, hv, rfl⟩) (fun hnone => by cases hnone)
  obtain ⟨s', hs', howned', hrep'⟩ := howned.release hset
  refine ⟨s', by rw [State.assign, hold, Option.bind_some, hb]; exact hs', howned', hrep',
    small_set h.small (fun bytes hbytes => ?_) x⟩
  obtain rfl := Option.some.inj hbytes
  exact h.small y _ hy

theorem Refines.destroy (h : Refines s q) (hx : slot q x = some bytes) :
    ∃ s', s.destroy x = some s' ∧ Refines s' (q.set x none) := by
  obtain ⟨b, v, hb, -, -, -, rfl⟩ := h.object hx
  have howned := h.owned.setObject (o := none) hb rfl (fun c hc => by cases hc)
  have hset := h.represents.setObject (o := none) hb none (fun c hc => by cases hc)
    (fun _ => rfl)
  obtain ⟨s', hs', howned', hrep'⟩ := howned.release hset
  refine ⟨s', by rw [State.destroy, hb]; exact hs', howned', hrep', small_set h.small ?_ x⟩
  intro bytes' hbytes
  cases hbytes

/-- **The step simulation.** Every step of the reference queues is one in memory. -/
theorem Refines.step (h : Refines s q) {a : Event} {q' : List (Option Bytes)}
    (hsmall : Queues.Small q a) (hfits : Fits s a) (hstep : Queues.step q a = some q') :
    ∃ s', BufferCopies.step s a = some s' ∧ Refines s' q' := by
  cases a with
  | construct =>
      obtain rfl := Option.some.inj hstep
      exact ⟨_, rfl, h.construct⟩
  | push x data =>
      obtain ⟨bytes, hx, rfl⟩ := Option.map_eq_some_iff.mp hstep
      rw [Queues.Small, hx] at hsmall
      exact h.push hx hsmall hfits
  | consume x size =>
      obtain ⟨bytes, hx, rfl⟩ := Option.map_eq_some_iff.mp hstep
      exact h.consume hx hsmall
  | clear x =>
      obtain ⟨bytes, hx, rfl⟩ := Option.map_eq_some_iff.mp hstep
      exact h.clear hx
  | copy y =>
      obtain ⟨bytes, hy, rfl⟩ := Option.map_eq_some_iff.mp hstep
      exact h.copy hy
  | assign x y =>
      obtain ⟨bytes, hx, hstep⟩ := Option.bind_eq_some_iff.mp hstep
      obtain ⟨bytes', hy, rfl⟩ := Option.map_eq_some_iff.mp hstep
      exact h.assign hx hy
  | destroy x =>
      obtain ⟨bytes, hx, rfl⟩ := Option.map_eq_some_iff.mp hstep
      exact h.destroy hx

/-- The object that an event is about. -/
def Event.target : Event → Option ℕ
  | .push x _ | .consume x _ | .clear x | .assign x _ | .destroy x => some x
  | .construct | .copy _ => none

theorem release_objects {s s' : State} {k : ℕ} (h : s.release k = some s') :
    s'.objects = s.objects := by
  rw [State.release] at h
  split at h
  · obtain rfl := Option.some.inj h
    rfl
  · split at h
    · obtain ⟨strings, -, rfl⟩ := Option.map_eq_some_iff.mp h
      rfl
    · obtain rfl := Option.some.inj h
      rfl

theorem object_frame {s' : State} {a : Event} (hstep : BufferCopies.step s a = some s')
    (hx : a.target ≠ some x) (hb : s.object x = some b) : s'.object x = some b := by
  have hne : ∀ {y : ℕ}, a.target = some y → y ≠ x := by
    rintro y hy rfl
    exact hx hy
  have hlt := lt_of_slot hb
  cases a with
  | construct =>
      obtain rfl := Option.some.inj hstep
      exact (slot_append_of_lt hlt _).trans hb
  | push y data =>
      obtain ⟨c, -, hstep⟩ := Option.bind_eq_some_iff.mp hstep
      obtain ⟨store, -, rfl⟩ := Option.map_eq_some_iff.mp hstep
      exact (slot_set_ne (hne rfl) _).trans hb
  | consume y size =>
      obtain ⟨c, -, hstep⟩ := Option.bind_eq_some_iff.mp hstep
      obtain ⟨c', -, rfl⟩ := Option.map_eq_some_iff.mp hstep
      exact (slot_set_ne (hne rfl) _).trans hb
  | clear y =>
      obtain ⟨c, -, hstep⟩ := Option.bind_eq_some_iff.mp hstep
      rw [State.object, release_objects hstep]
      exact (slot_set_ne (hne rfl) _).trans hb
  | copy y =>
      obtain ⟨c, -, rfl⟩ := Option.map_eq_some_iff.mp hstep
      exact (slot_append_of_lt hlt _).trans hb
  | assign y z =>
      obtain ⟨old, -, hstep⟩ := Option.bind_eq_some_iff.mp hstep
      obtain ⟨c, -, hstep⟩ := Option.bind_eq_some_iff.mp hstep
      rw [State.object, release_objects hstep, State.setObject, share_objects]
      exact (slot_set_ne (hne rfl) _).trans hb
  | destroy y =>
      obtain ⟨c, -, hstep⟩ := Option.bind_eq_some_iff.mp hstep
      rw [State.object, release_objects hstep]
      exact (slot_set_ne (hne rfl) _).trans hb

theorem queue_frame {q' : List (Option Bytes)} {a : Event} (hstep : Queues.step q a = some q')
    (hx : a.target ≠ some x) (hbytes : slot q x = some bytes) : slot q' x = some bytes := by
  have hne : ∀ {y : ℕ}, a.target = some y → y ≠ x := by
    rintro y hy rfl
    exact hx hy
  have hlt := lt_of_slot hbytes
  cases a with
  | construct =>
      obtain rfl := Option.some.inj hstep
      exact (slot_append_of_lt hlt _).trans hbytes
  | push y | consume y | clear y | destroy y =>
      obtain ⟨c, -, rfl⟩ := Option.map_eq_some_iff.mp hstep
      exact (slot_set_ne (hne rfl) _).trans hbytes
  | copy y =>
      obtain ⟨c, -, rfl⟩ := Option.map_eq_some_iff.mp hstep
      exact (slot_append_of_lt hlt _).trans hbytes
  | assign y z =>
      obtain ⟨old, -, hstep⟩ := Option.bind_eq_some_iff.mp hstep
      obtain ⟨c, -, rfl⟩ := Option.map_eq_some_iff.mp hstep
      exact (slot_set_ne (hne rfl) _).trans hbytes

/-- What one copy shows, and what its operations answer. -/
structure Seen (s : State) (b : Buffers) (bytes : Bytes) : Prop where
  content : s.content b = some bytes
  size : b.size = some (bytes.length : ℤ)
  start : 0 ≤ b.mStart ∧ b.mStart ≤ b.mBuffer.length
  empty : b.empty = true → bytes = []

theorem Refines.seen (h : Refines s q) (hx : slot q x = some bytes) :
    ∃ b, s.object x = some b ∧ Seen s b bytes := by
  obtain ⟨b, v, hb, -, hshows, hv, rfl⟩ := h.object hx
  have hlen := h.length_lt hb
  refine ⟨b, hb, hshows.content_eq hv, hshows.size_eq hv hlen (h.small x _ hx),
    hshows.start_range hv, fun hempty => ?_⟩
  rw [hshows.empty_eq hv hlen] at hempty
  exact SharedConstBuffers.content_of_empty hempty

/-- **`SharedConstBuffers` is a byte queue**, and copies are queues of their own, as long as
an `int` counts the strings of each store: any operations on any number of copies go
through, each copy shows the bytes of its reference queue, and an operation on one leaves
what the others show. -/
theorem run_byteQueues {es : List Event} (hrun : Machine.run Queues.step [] es = some q)
    (hsmall : Machine.Along Queues.step Queues.Small [] es)
    (hfits : Machine.Along step Fits {} es) :
    ∃ s, Machine.run step {} es = some s ∧ s.objects.length = q.length ∧
      (∀ x bytes, slot q x = some bytes → ∃ b, s.object x = some b ∧ Seen s b bytes) ∧
      (∀ x, slot q x = none → s.object x = none) ∧
      ∀ a q', Queues.step q a = some q' → Queues.Small q a → Fits s a →
        ∃ s', step s a = some s' ∧ ∀ x b, a.target ≠ some x → s.object x = some b →
          s'.object x = some b ∧ s'.content b = s.content b := by
  have hstep : ∀ (q : List (Option Bytes)) (a : Event) (q' : List (Option Bytes)) (s : State),
      Queues.Small q a → Fits s a → Refines s q → Queues.step q a = some q' →
      ∃ s', step s a = some s' ∧ Refines s' q' := fun _ _ _ _ ha hfits h hq => h.step ha hfits hq
  obtain ⟨s, hs, href⟩ := Machine.run_simulation_along_both hstep hsmall hfits refines_init hrun
  refine ⟨s, hs, href.represents.length, fun x bytes hx => href.seen hx, fun x hx => ?_,
    fun a q' hq' ha hfit => ?_⟩
  · cases hb : s.object x with
    | none => rfl
    | some b =>
        obtain ⟨v, -, -, hv⟩ := href.represents.live x b hb
        rw [hv] at hx
        cases hx
  · obtain ⟨s', hs', href'⟩ := href.step ha hfit hq'
    refine ⟨s', hs', fun x b hne hb => ?_⟩
    have hb' := object_frame hs' hne hb
    obtain ⟨v, hshows, hv, hx⟩ := href.represents.live x b hb
    obtain ⟨v', hshows', hv', hx'⟩ := href'.represents.live x b hb'
    refine ⟨hb', ?_⟩
    rw [hshows.content_eq hv, hshows'.content_eq hv', ← hx, ← hx', queue_frame hq' hne hx, hx]

/-- Two strings, a copy, a part of a string and then a string and a part of it consumed,
and a clear: the copy still shows both strings. -/
theorem run_byteQueues_copy :
    ∃ s, Machine.run step {} [.construct, .push 0 [104, 105], .push 0 [33], .copy 0,
        .consume 0 1, .push 0 [], .consume 0 1, .clear 0] = some s ∧
      (∃ b, s.object 0 = some b ∧ Seen s b []) ∧ ∃ b, s.object 1 = some b ∧
        Seen s b [104, 105, 33] := by
  have hrun : Machine.run Queues.step [] [.construct, .push 0 [104, 105], .push 0 [33], .copy 0,
      .consume 0 1, .push 0 [], .consume 0 1, .clear 0] = some [some [], some [104, 105, 33]] := by
    decide
  obtain ⟨s, hs, -, hseen, -, -⟩ := run_byteQueues hrun (by decide) (by decide)
  exact ⟨s, hs, hseen 0 [] rfl, hseen 1 [104, 105, 33] rfl⟩

/-! ### Past the `int` -/

/-- A new object, `n` empty strings pushed, and one byte more consumed than they have. -/
def emptyStrings (n : ℕ) : List Event :=
  .construct :: (List.replicate n (.push 0 []) ++ [.consume 0 1])

/-- Object 0 has `n` buffers, all empty and none of them consumed. -/
def Empties (n : ℕ) (s : State) : Prop :=
  ∃ b store, s.object 0 = some b ∧ s.stores[b.mStore]? = some store ∧ b.mStart = 0 ∧
    b.mBuffer.length = n ∧ ∀ c ∈ b.mBuffer, c.size = 0

theorem Empties.push {n : ℕ} (h : Empties n s) :
    ∃ s', step s (.push 0 []) = some s' ∧ Empties (n + 1) s' := by
  obtain ⟨b, store, hb, hstore, hstart, hlen, hsize⟩ := h
  refine ⟨_, by rw [step, State.push, hb, Option.bind_some, hstore]; rfl, ?_⟩
  refine ⟨_, _, slot_set_self (lt_of_slot hb) _,
    List.getElem?_set_self (List.getElem?_eq_some_iff.mp hstore).1, hstart, ?_, fun c hc => ?_⟩
  · rw [Buffers.push, List.length_append, hlen, List.length_singleton]
  · rcases List.mem_append.mp hc with hc | hc
    · exact hsize c hc
    · obtain rfl := List.mem_singleton.mp hc
      rfl

theorem Empties.run {m : ℕ} (h : Empties m s) (n : ℕ) :
    ∃ s', Machine.run step s (List.replicate n (.push 0 [])) = some s' ∧ Empties (m + n) s' := by
  induction n generalizing s m with
  | zero => exact ⟨s, rfl, h⟩
  | succ n ih =>
      obtain ⟨s', hs', h'⟩ := h.push
      obtain ⟨t, ht, hempties⟩ := ih h'
      refine ⟨t, (Machine.run_cons_eq_some step).mpr ⟨s', hs', ht⟩, ?_⟩
      rwa [Nat.add_right_comm] at hempties

/-- The index leaves the `int` where the buffers do and none of them has a byte. -/
theorem consumeLoop_eq_none {l : List ConstBuffer} (hl : ∀ c ∈ l, c.size = 0) {i : ℕ}
    (hi : i < 2 ^ 31) (hlong : 2 ^ 31 ≤ i + l.length) : b.consumeLoop l i 1 = none := by
  induction l generalizing i with
  | nil => exact absurd hlong (by rw [List.length_nil]; omega)
  | cons c l ih =>
      rw [List.length_cons] at hlong
      have hint : toInt c.size = 0 := by rw [hl c List.mem_cons_self]; rfl
      simp only [Buffers.consumeLoop, hint, gt_iff_lt, zero_lt_one, if_true, neg_zero]
      have hone : addInt 1 0 = some 1 := rfl
      rw [hone, Option.bind_some]
      by_cases hlast : i + 1 < 2 ^ 31
      · rw [addInt_one hlast, Option.bind_some]
        exact ih (fun c hc => hl c (List.mem_cons_of_mem _ hc)) hlast (by omega)
      · rw [addInt, if_neg (by omega)]
        rfl

theorem Empties.consume {n : ℕ} (h : Empties n s) (hn : 2 ^ 31 ≤ n) :
    step s (.consume 0 1) = none := by
  obtain ⟨b, store, hb, -, hstart, hlen, hsize⟩ := h
  have hnone : b.consume 1 = none := by
    have hrest : b.rest = b.mBuffer := by rw [Buffers.rest, hstart]; rfl
    rw [Buffers.consume, hrest, hstart]
    exact consumeLoop_eq_none (i := 0) hsize (by omega) (by omega)
  rw [step, State.consume, hb, Option.bind_some, Nat.cast_one, hnone]
  rfl

theorem run_emptyStrings {n : ℕ} (hn : 2 ^ 31 ≤ n) :
    Machine.run step {} (emptyStrings n) = none := by
  have hnew : Empties 0 ({} : State).construct := ⟨Buffers.new 0, Store.new, rfl, rfl, rfl, rfl,
    fun c hc => absurd hc List.not_mem_nil⟩
  obtain ⟨s, hs, h⟩ := hnew.run n
  rw [Nat.zero_add] at h
  rw [emptyStrings, Machine.run_cons, step, Option.bind_some, Machine.run_append, hs,
    Option.bind_some, Machine.run_cons, h.consume hn]
  rfl

/-- The reference queue takes them all, and stays empty. -/
theorem queues_emptyStrings (n : ℕ) :
    Machine.run Queues.step [] (emptyStrings n) = some [some []] ∧
      Machine.Along Queues.step Queues.Small [] (emptyStrings n) := by
  have hpushes : Machine.run Queues.step [some []]
      (List.replicate n (.push 0 []) ++ [.consume 0 1]) = some [some []] ∧
      Machine.Along Queues.step Queues.Small [some []]
        (List.replicate n (.push 0 []) ++ [.consume 0 1]) := by
    induction n with
    | zero => decide
    | succ n ih =>
        refine ⟨ih.1, by decide, fun q' hq' => ?_⟩
        obtain rfl := Option.some.inj hq'
        exact ih.2
  refine ⟨hpushes.1, trivial, fun q' hq' => ?_⟩
  obtain rfl := Option.some.inj hq'
  exact hpushes.2

/-- No byte is ever there, and yet `2 ^ 31` empty strings take the index of `consume` past
the `int`. -/
theorem emptyStrings_overflow :
    Machine.run Queues.step [] (emptyStrings (2 ^ 31)) = some [some []] ∧
      Machine.Along Queues.step Queues.Small [] (emptyStrings (2 ^ 31)) ∧
      Machine.run step {} (emptyStrings (2 ^ 31)) = none :=
  ⟨(queues_emptyStrings _).1, (queues_emptyStrings _).2, run_emptyStrings le_rfl⟩

end Tt3d.Network.BufferCopies
