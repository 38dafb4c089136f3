import Tt3d.Lib.Machine
import Tt3d.Network.SharedConstBuffers

/-!
The double-buffered write path of `RawConnection`.

Callers push frames into the incoming buffers while the outcoming ones are being
written; the two change places when a write is scheduled or completed. Each
section under `incoming_mutex_` is one step. No write fails, and nothing closes
the connection.
-/

namespace Tt3d.Network

structure WritePath where
  duplex : Fin 2 → SharedConstBuffers := fun _ => {}
  incomingIndex : Fin 2 := 0
  /-- The `WRITTING` bit. -/
  writing : Bool := false
  /-- The buffers handed to each `async_write_some` that has not completed. -/
  outstanding : List Bytes := []
  /-- The bytes that the socket has accepted. -/
  accepted : Bytes := []

namespace WritePath

def incoming (w : WritePath) : SharedConstBuffers := w.duplex w.incomingIndex

def outcoming (w : WritePath) : SharedConstBuffers := w.duplex (1 - w.incomingIndex)

def setIncoming (w : WritePath) (b : SharedConstBuffers) : WritePath :=
  { w with duplex := Function.update w.duplex w.incomingIndex b }

def setOutcoming (w : WritePath) (b : SharedConstBuffers) : WritePath :=
  { w with duplex := Function.update w.duplex (1 - w.incomingIndex) b }

/-- `SwitchIO`. -/
def switchIo (w : WritePath) : WritePath := { w with incomingIndex := 1 - w.incomingIndex }

/-- `mSocket->async_write_some( *outcoming(), h )`. -/
def asyncWriteSome (w : WritePath) : WritePath :=
  { w with outstanding := w.outstanding ++ [w.outcoming.content] }

/-- `PushData` of an `EncodeData`; a null pair pushes nothing. -/
def pushData (w : WritePath) : Option (Bytes × Bytes) → WritePath
  | none => w
  | some (header, content) => w.setIncoming ((w.incoming.push header).push content)

def scheduleWrite (w : WritePath) : WritePath :=
  if w.writing then w
  else
    let w := ({ w with writing := true } : WritePath).switchIo
    if w.outcoming.empty then { w with writing := false } else w.asyncWriteSome

/-- `HandleWrite`, after the write completed with `byteTransferred` bytes. -/
def handleWrite (w : WritePath) (byteTransferred : ℕ) : WritePath :=
  let w := w.setOutcoming (w.outcoming.consume byteTransferred)
  if !w.outcoming.empty then w.asyncWriteSome
  else
    let w := w.switchIo
    if !w.outcoming.empty then w.asyncWriteSome else { w with writing := false }

inductive Event
  | pushData (data : Option (Bytes × Bytes))
  | scheduleWrite
  /-- The `i`-th outstanding write completes. -/
  | handleWrite (i byteTransferred : ℕ)
  deriving DecidableEq, Repr

def step (w : WritePath) : Event → Option WritePath
  | .pushData data => some (w.pushData data)
  | .scheduleWrite => some w.scheduleWrite
  | .handleWrite i byteTransferred =>
      (w.outstanding[i]?).bind fun buffers =>
        if byteTransferred ≤ buffers.length then
          some (({ w with
            outstanding := w.outstanding.eraseIdx i
            accepted := w.accepted ++ buffers.take byteTransferred } : WritePath).handleWrite
              byteTransferred)
        else none

/-! ### The two buffers -/

variable {w w' : WritePath}

theorem one_sub_ne (i : Fin 2) : 1 - i ≠ i := by
  revert i
  decide

theorem one_sub_one_sub (i : Fin 2) : 1 - (1 - i) = i := by
  revert i
  decide

@[simp] theorem incoming_switchIo (w : WritePath) : w.switchIo.incoming = w.outcoming := rfl

@[simp] theorem outcoming_switchIo (w : WritePath) : w.switchIo.outcoming = w.incoming := by
  rw [outcoming, switchIo, one_sub_one_sub]
  rfl

@[simp] theorem incoming_setIncoming (w : WritePath) (b : SharedConstBuffers) :
    (w.setIncoming b).incoming = b := Function.update_self ..

@[simp] theorem outcoming_setIncoming (w : WritePath) (b : SharedConstBuffers) :
    (w.setIncoming b).outcoming = w.outcoming := Function.update_of_ne (one_sub_ne _) ..

@[simp] theorem incoming_setOutcoming (w : WritePath) (b : SharedConstBuffers) :
    (w.setOutcoming b).incoming = w.incoming := Function.update_of_ne (one_sub_ne _).symm ..

@[simp] theorem outcoming_setOutcoming (w : WritePath) (b : SharedConstBuffers) :
    (w.setOutcoming b).outcoming = b := Function.update_self ..

@[simp] theorem incoming_asyncWriteSome (w : WritePath) :
    w.asyncWriteSome.incoming = w.incoming := rfl

@[simp] theorem outcoming_asyncWriteSome (w : WritePath) :
    w.asyncWriteSome.outcoming = w.outcoming := rfl

@[simp] theorem setIncoming_writing (w : WritePath) (b : SharedConstBuffers) :
    (w.setIncoming b).writing = w.writing := rfl

@[simp] theorem setIncoming_outstanding (w : WritePath) (b : SharedConstBuffers) :
    (w.setIncoming b).outstanding = w.outstanding := rfl

@[simp] theorem setOutcoming_writing (w : WritePath) (b : SharedConstBuffers) :
    (w.setOutcoming b).writing = w.writing := rfl

@[simp] theorem setOutcoming_outstanding (w : WritePath) (b : SharedConstBuffers) :
    (w.setOutcoming b).outstanding = w.outstanding := rfl

/-- The bytes pushed that the socket has not accepted. -/
def unsent (w : WritePath) : Bytes := w.outcoming.content ++ w.incoming.content

/-- The bytes that one `PushData` adds. -/
def frame : Option (Bytes × Bytes) → Bytes
  | none => []
  | some (header, content) => header ++ content

/-- What the bit and the buffers have to do with each other. -/
structure Good (w : WritePath) : Prop where
  incoming : w.incoming.Valid
  outcoming : w.outcoming.Valid
  idle : w.writing = false → w.outstanding = [] ∧ w.outcoming.empty = true
  busy : w.writing = true → w.outstanding = [w.outcoming.content] ∧ w.outcoming.empty = false

theorem good_init : Good {} := by
  refine ⟨SharedConstBuffers.valid_new, SharedConstBuffers.valid_new, fun _ => ⟨rfl, rfl⟩, ?_⟩
  rintro ⟨⟩

theorem Good.pushData (h : Good w) (data : Option (Bytes × Bytes)) :
    Good (w.pushData data) ∧ (w.pushData data).accepted = w.accepted ∧
      (w.pushData data).unsent = w.unsent ++ frame data := by
  cases data with
  | none => exact ⟨h, rfl, (List.append_nil _).symm⟩
  | some d =>
      obtain ⟨header, content⟩ := d
      have hpush := h.incoming.push header
      refine ⟨⟨?_, ?_, ?_, ?_⟩, rfl, ?_⟩
      · simpa [WritePath.pushData] using hpush.push content
      · simpa [WritePath.pushData] using h.outcoming
      · intro hidle
        simpa [WritePath.pushData] using h.idle hidle
      · intro hbusy
        simpa [WritePath.pushData] using h.busy hbusy
      · simp [WritePath.pushData, unsent, frame, SharedConstBuffers.content_push hpush,
          SharedConstBuffers.content_push h.incoming]

/-- The end of both sections that flip the buffers: a write of what is outcoming
then, if there is any. -/
def flip (w : WritePath) : WritePath :=
  if w.incoming.empty then { w.switchIo with writing := false }
  else { w.switchIo with writing := true, outstanding := w.outstanding ++ [w.incoming.content] }

theorem scheduleWrite_eq_flip (h : w.writing = false) : w.scheduleWrite = w.flip := by
  have hout : ({ w with writing := true } : WritePath).switchIo.outcoming = w.incoming := by
    rw [outcoming_switchIo]
    rfl
  simp only [scheduleWrite, h, Bool.false_eq_true, if_false, hout, flip, asyncWriteSome]
  rfl

theorem handleWrite_eq {n : ℕ} (h : w.writing = true) :
    w.handleWrite n =
      if (w.outcoming.consume n).empty then (w.setOutcoming (w.outcoming.consume n)).flip
      else (w.setOutcoming (w.outcoming.consume n)).asyncWriteSome := by
  rw [handleWrite]
  cases hempty : (w.outcoming.consume n).empty with
  | false => simp [hempty]
  | true =>
      cases hin : w.incoming.empty with
      | false =>
          simp only [outcoming_setOutcoming, hempty, outcoming_switchIo, incoming_setOutcoming, hin,
            asyncWriteSome, flip, Bool.not_true, Bool.not_false, if_true, Bool.false_eq_true,
            if_false]
          rw [← h]
          rfl
      | true => simp [hempty, hin, flip]

theorem Good.flip (hin : w.incoming.Valid) (hout : w.outcoming.Valid)
    (hempty : w.outcoming.empty = true) (houtstanding : w.outstanding = []) :
    Good w.flip ∧ w.flip.accepted = w.accepted ∧ w.flip.unsent = w.unsent ∧
      (w.flip.writing = false → w.flip.unsent = []) := by
  have hnil := SharedConstBuffers.content_of_empty hempty
  have hincoming : w.flip.incoming = w.outcoming := by
    unfold WritePath.flip
    split <;> rfl
  have houtcoming : w.flip.outcoming = w.incoming := by
    unfold WritePath.flip
    split <;> exact outcoming_switchIo w
  have hunsent : w.flip.unsent = w.unsent := by
    rw [unsent, unsent, hincoming, houtcoming, hnil, List.append_nil, List.nil_append]
  cases hin' : w.incoming.empty with
  | false =>
      have hwriting : w.flip.writing = true := by simp [WritePath.flip, hin']
      refine ⟨⟨by rwa [hincoming], by rwa [houtcoming], ?_, fun _ => ⟨?_, by rwa [houtcoming]⟩⟩, ?_,
        hunsent, ?_⟩
      · simp [hwriting]
      · rw [houtcoming]
        simp [WritePath.flip, hin', houtstanding]
      · simp [WritePath.flip, hin']
        rfl
      · simp [hwriting]
  | true =>
      have hwriting : w.flip.writing = false := by simp [WritePath.flip, hin']
      refine ⟨⟨by rwa [hincoming], by rwa [houtcoming], fun _ => ⟨?_, by rwa [houtcoming]⟩, ?_⟩, ?_,
        hunsent, fun _ => ?_⟩
      · simp only [WritePath.flip, hin', if_true]
        exact houtstanding
      · simp [hwriting]
      · simp only [WritePath.flip, hin', if_true]
        rfl
      · rw [unsent, hincoming, houtcoming, hnil, SharedConstBuffers.content_of_empty hin']
        rfl

theorem Good.scheduleWrite (h : Good w) :
    Good w.scheduleWrite ∧ w.scheduleWrite.accepted = w.accepted ∧
      w.scheduleWrite.unsent = w.unsent ∧
      (w.scheduleWrite.writing = false → w.scheduleWrite.unsent = []) := by
  cases hw : w.writing with
  | true =>
      have heq : w.scheduleWrite = w := by simp [WritePath.scheduleWrite, hw]
      rw [heq]
      exact ⟨h, rfl, rfl, fun hidle => by simp [hw] at hidle⟩
  | false =>
      rw [scheduleWrite_eq_flip hw]
      exact Good.flip h.incoming h.outcoming (h.idle hw).2 (h.idle hw).1

/-- `HandleWrite` drops the bytes that were written, and writes on or flips. -/
theorem handleWrite_spec {n : ℕ} (hin : w.incoming.Valid) (hout : w.outcoming.Valid)
    (hwriting : w.writing = true) (houtstanding : w.outstanding = []) :
    Good (w.handleWrite n) ∧ (w.handleWrite n).accepted = w.accepted ∧
      (w.handleWrite n).unsent = w.outcoming.content.drop n ++ w.incoming.content ∧
      ((w.handleWrite n).writing = false → (w.handleWrite n).unsent = []) := by
  have hvalid := hout.consume n
  have hunsent : (w.setOutcoming (w.outcoming.consume n)).unsent =
      w.outcoming.content.drop n ++ w.incoming.content := by
    rw [unsent, outcoming_setOutcoming, incoming_setOutcoming,
      SharedConstBuffers.content_consume hout]
  rw [handleWrite_eq hwriting]
  split
  · rename_i hdone
    obtain ⟨hgood, haccepted, hflip, hidle⟩ :=
      Good.flip (w := w.setOutcoming (w.outcoming.consume n))
        (by rwa [incoming_setOutcoming]) (by rwa [outcoming_setOutcoming])
        (by rwa [outcoming_setOutcoming]) (by rwa [setOutcoming_outstanding])
    exact ⟨hgood, haccepted, hflip.trans hunsent, hidle⟩
  · rename_i hmore
    rw [Bool.not_eq_true] at hmore
    have hbusy : (w.setOutcoming (w.outcoming.consume n)).asyncWriteSome.writing = true := hwriting
    refine ⟨⟨?_, ?_, ?_, fun _ => ⟨?_, ?_⟩⟩, rfl, hunsent, ?_⟩
    · rwa [incoming_asyncWriteSome, incoming_setOutcoming]
    · rwa [outcoming_asyncWriteSome, outcoming_setOutcoming]
    · simp [hbusy]
    · rw [asyncWriteSome, setOutcoming_outstanding, houtstanding]
      rfl
    · rwa [outcoming_asyncWriteSome, outcoming_setOutcoming]
    · simp [hbusy]

/-- A write completes: the bytes that were accepted leave the unsent ones. -/
theorem Good.handleWrite (h : Good w) {i n : ℕ} (hstep : step w (.handleWrite i n) = some w') :
    Good w' ∧ w'.accepted ++ w'.unsent = w.accepted ++ w.unsent ∧
      (w'.writing = false → w'.unsent = []) := by
  simp only [step, Option.bind_eq_some_iff] at hstep
  obtain ⟨buffers, hbuffers, hstep⟩ := hstep
  split at hstep
  swap
  · cases hstep
  have hwriting : w.writing = true := by
    by_contra hnot
    rw [Bool.not_eq_true] at hnot
    rw [(h.idle hnot).1] at hbuffers
    cases hbuffers
  obtain ⟨houtstanding, -⟩ := h.busy hwriting
  obtain ⟨rfl, rfl⟩ : i = 0 ∧ buffers = w.outcoming.content := by
    rw [houtstanding] at hbuffers
    cases i with
    | zero => exact ⟨rfl, (Option.some.inj hbuffers).symm⟩
    | succ i => simp at hbuffers
  obtain ⟨hgood, haccepted, hunsent, hidle⟩ :=
    handleWrite_spec (w := { w with
      outstanding := w.outstanding.eraseIdx 0
      accepted := w.accepted ++ w.outcoming.content.take n })
      (n := n) h.incoming h.outcoming hwriting (by simp [houtstanding])
  obtain rfl := Option.some.inj hstep
  refine ⟨hgood, ?_, hidle⟩
  have hsplit : w.outcoming.content.take n ++ w.outcoming.content.drop n = w.outcoming.content :=
    List.take_append_drop ..
  calc _ = (w.accepted ++ w.outcoming.content.take n) ++
        (w.outcoming.content.drop n ++ w.incoming.content) := by rw [haccepted, hunsent]; rfl
    _ = w.accepted ++ ((w.outcoming.content.take n ++ w.outcoming.content.drop n) ++
        w.incoming.content) := by simp only [List.append_assoc]
    _ = w.accepted ++ w.unsent := by rw [hsplit]; rfl

/-! ### The buffers that are left -/

/-- The buffers that have not been written to their end. -/
def pieces (w : WritePath) : ℕ := w.outcoming.pieces + w.incoming.pieces

theorem Good.pieces_pushData (h : Good w) (data : Option (Bytes × Bytes)) :
    (w.pushData data).pieces ≤ w.pieces + 2 := by
  cases data with
  | none => exact Nat.le_add_right _ _
  | some d =>
      obtain ⟨header, content⟩ := d
      have hheader := SharedConstBuffers.pieces_push h.incoming header
      have hcontent := SharedConstBuffers.pieces_push (h.incoming.push header) content
      simp only [WritePath.pieces, WritePath.pushData, outcoming_setIncoming,
        incoming_setIncoming]
      omega

theorem pieces_flip (w : WritePath) : w.flip.pieces = w.pieces := by
  have hincoming : w.flip.incoming = w.outcoming := by
    unfold WritePath.flip
    split <;> rfl
  have houtcoming : w.flip.outcoming = w.incoming := by
    unfold WritePath.flip
    split <;> exact outcoming_switchIo w
  rw [pieces, pieces, hincoming, houtcoming, Nat.add_comm]

theorem pieces_scheduleWrite (w : WritePath) : w.scheduleWrite.pieces = w.pieces := by
  cases hw : w.writing with
  | true => simp [scheduleWrite, hw]
  | false => rw [scheduleWrite_eq_flip hw, pieces_flip]

/-- A write that completes with some bytes, or with none of an empty buffer, leaves
less to do: the bytes are accepted, and no buffer is added. -/
theorem Good.handleWrite_progress (h : Good w) {i n : ℕ}
    (hn : 0 < n ∨ w.outstanding[i]? = some []) (hstep : step w (.handleWrite i n) = some w') :
    w'.accepted.length = w.accepted.length + n ∧ w'.pieces ≤ w.pieces ∧
      (n = 0 → w'.pieces < w.pieces) := by
  simp only [step, Option.bind_eq_some_iff] at hstep
  obtain ⟨buffers, hbuffers, hstep⟩ := hstep
  split at hstep
  swap
  · cases hstep
  rename_i hle
  obtain rfl := Option.some.inj hstep
  have hwriting : w.writing = true := by
    by_contra hnot
    rw [Bool.not_eq_true] at hnot
    rw [(h.idle hnot).1] at hbuffers
    cases hbuffers
  obtain ⟨houtstanding, hmore⟩ := h.busy hwriting
  obtain ⟨rfl, rfl⟩ : i = 0 ∧ buffers = w.outcoming.content := by
    rw [houtstanding] at hbuffers
    cases i with
    | zero => exact ⟨rfl, (Option.some.inj hbuffers).symm⟩
    | succ i => simp at hbuffers
  have hpieces := SharedConstBuffers.pieces_consume_le h.outcoming n
  rw [handleWrite_eq (by exact hwriting)]
  set v : WritePath := { w with
    outstanding := w.outstanding.eraseIdx 0
    accepted := w.accepted ++ w.outcoming.content.take n } with hv
  have hset : (v.setOutcoming (v.outcoming.consume n)).pieces =
      (w.outcoming.consume n).pieces + w.incoming.pieces := by
    rw [WritePath.pieces, outcoming_setOutcoming, incoming_setOutcoming]
    rfl
  have haccepted : v.accepted.length = w.accepted.length + n := by
    simp only [hv, List.length_append, List.length_take]
    omega
  have hzero : n = 0 → (w.outcoming.consume n).pieces < w.outcoming.pieces := by
    rintro rfl
    rcases hn with hn | hn
    · exact absurd hn (Nat.lt_irrefl 0)
    · rw [hbuffers] at hn
      exact SharedConstBuffers.pieces_consume_zero hmore h.outcoming (Option.some.inj hn)
  have hless : ∀ u : WritePath, u.accepted = v.accepted →
      u.pieces = (v.setOutcoming (v.outcoming.consume n)).pieces →
      u.accepted.length = w.accepted.length + n ∧ u.pieces ≤ w.pieces ∧
        (n = 0 → u.pieces < w.pieces) := by
    intro u hu hu'
    rw [hu, hu', hset, haccepted, WritePath.pieces]
    refine ⟨rfl, by omega, fun h0 => ?_⟩
    have := hzero h0
    omega
  split
  · apply hless
    · unfold WritePath.flip
      split <;> rfl
    · exact pieces_flip _
  · exact hless _ rfl rfl

/-- While the bit is set a write can complete. -/
theorem Good.exists_handleWrite (h : Good w) (hw : w.writing = true) :
    ∃ n w', (0 < n ∨ w.outstanding[0]? = some []) ∧ step w (.handleWrite 0 n) = some w' := by
  obtain ⟨houtstanding, -⟩ := h.busy hw
  have hsome : (step w (.handleWrite 0 w.outcoming.content.length)).isSome := by
    rw [step, houtstanding, List.getElem?_cons_zero, Option.bind_some, if_pos (Nat.le_refl _)]
    rfl
  obtain ⟨w', hw'⟩ := Option.isSome_iff_exists.mp hsome
  refine ⟨_, w', ?_, hw'⟩
  rw [houtstanding]
  cases w.outcoming.content with
  | nil => exact Or.inr rfl
  | cons b bs => exact Or.inl (Nat.zero_lt_succ _)

/-! ### Whole runs -/

/-- The frames pushed in a history, in push order. -/
def frames (es : List Event) : Bytes :=
  es.flatMap fun
    | .pushData data => frame data
    | _ => []

/-- Every `PushData` of the history has been followed by a `ScheduleWrite`. -/
def Scheduled (es : List Event) : Prop :=
  ∀ es₁ data es₂, es = es₁ ++ .pushData data :: es₂ → .scheduleWrite ∈ es₂

/-- **The write path.** In every state that a run reaches: what the socket has
accepted and what is still to be sent are the frames pushed, in push order; one
write at most is outstanding, and one is exactly while `WRITTING` is set; nothing
is outcoming while it is clear; and when every push has been scheduled, unsent
bytes have a write to take them. -/
theorem run_writePath {es : List Event} (hrun : Machine.run step {} es = some w) :
    w.accepted ++ w.outcoming.content ++ w.incoming.content = frames es ∧
    (w.outstanding.length ≤ 1 ∧ (w.outstanding.length = 1 ↔ w.writing = true)) ∧
    (w.writing = false → w.outcoming.empty = true) ∧
    (Scheduled es → w.outcoming.content ++ w.incoming.content ≠ [] →
      w.outstanding.length = 1) := by
  have hinv : Good w ∧ w.accepted ++ w.unsent = frames es ∧
      (Scheduled es → w.writing = false → w.unsent = []) := by
    refine Machine.run_history
      (P := fun es w => Good w ∧ w.accepted ++ w.unsent = frames es ∧
        (Scheduled es → w.writing = false → w.unsent = [])) ?_ ?_ hrun
    · exact ⟨good_init, rfl, fun _ _ => rfl⟩
    · rintro es w e w' - ⟨hgood, hbytes, hidle⟩ hstep
      have hframes : ∀ e, frames (es ++ [e]) = frames es ++ frames [e] := fun e => by
        simp [frames, List.flatMap_append]
      cases e with
      | pushData data =>
          obtain rfl := Option.some.inj hstep
          obtain ⟨hgood', haccepted, hunsent⟩ := hgood.pushData data
          refine ⟨hgood', ?_, fun hsched => ?_⟩
          · rw [haccepted, hunsent, hframes, ← hbytes]
            simp [frames]
          · -- The push just made has no schedule behind it.
            exact absurd (hsched es data [] rfl) List.not_mem_nil
      | scheduleWrite =>
          obtain rfl := Option.some.inj hstep
          obtain ⟨hgood', haccepted, hunsent, hidle'⟩ := hgood.scheduleWrite
          refine ⟨hgood', ?_, fun _ => hidle'⟩
          rw [haccepted, hunsent, hframes, hbytes]
          simp [frames]
      | handleWrite i n =>
          obtain ⟨hgood', hbytes', hidle'⟩ := hgood.handleWrite hstep
          refine ⟨hgood', ?_, fun _ => hidle'⟩
          rw [hbytes', hframes, hbytes]
          simp [frames]
  obtain ⟨hgood, hbytes, hidle⟩ := hinv
  refine ⟨by rw [← hbytes, unsent, List.append_assoc], ?_, fun h => (hgood.idle h).2, ?_⟩
  · cases hw : w.writing with
    | false => simp [(hgood.idle hw).1]
    | true => simp [(hgood.busy hw).1]
  · intro hsched hunsent
    cases hw : w.writing with
    | false => exact absurd (hidle hsched hw) hunsent
    | true => simp [(hgood.busy hw).1]

/-- Two frames, the second pushed while the first is written in two parts. -/
theorem run_writePath_two_frames :
    ∃ w, Machine.run step {} [.pushData (some ([49, 58], [65])), .scheduleWrite,
        .pushData (some ([49, 58], [66])), .handleWrite 0 2, .scheduleWrite,
        .handleWrite 0 1] = some w ∧
      w.accepted ++ w.outcoming.content ++ w.incoming.content = [49, 58, 65, 49, 58, 66] := by
  obtain ⟨w, hw⟩ := Option.isSome_iff_exists.mp (show (Machine.run step {}
    [.pushData (some ([49, 58], [65])), .scheduleWrite, .pushData (some ([49, 58], [66])),
      .handleWrite 0 2, .scheduleWrite, .handleWrite 0 1]).isSome by decide)
  exact ⟨w, hw, (run_writePath hw).1⟩

end WritePath

end Tt3d.Network
