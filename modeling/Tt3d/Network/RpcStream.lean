import Mathlib.Data.Prod.Lex
import Tt3d.Network.Resolution
import Tt3d.Network.Transport

/-!
The calls of two peers over the bytes of one connection.

Between `CallMethod` and `Handle` stand the buffers of the write path, partial
writes, chunks and the decoder. Each run of all this is matched by a run of the two
peers that exchange whole frames, where a frame is on its way until the decoder
completes it.
-/

namespace Tt3d.Network.RpcStream

open Peers (Services)

/-- Where the thread that reads is. -/
inductive Handling
  | idle
  /-- The decoder has completed a message. -/
  | received
  /-- A method runs, and has not run `done`. -/
  | serving
  /-- The method has run `done`. -/
  | replied
  deriving DecidableEq, Repr

structure Peer where
  table : ResponseTable ℕ := []
  /-- The calls made, numbered from 0. -/
  made : ℕ := 0
  /-- The requests that `CallMethod` is to push. -/
  toPush : List MetaData := []
  /-- How many threads have pushed a message and are to call `ScheduleWrite`. -/
  toSchedule : ℕ := 0
  path : WritePath := {}
  /-- How many of the bytes that the other peer's socket accepted have been read. -/
  taken : ℕ := 0
  /-- What `Decode` has not come to of the bytes that were read. -/
  chunk : Bytes := []
  decoder : ProtobufDecoder := {}
  handling : Handling := .idle
  /-- `Decode` has returned false. -/
  closed : Bool := false
  /-- `Decode` did not survive a chunk. -/
  crashed : Bool := false
  /-- The calls completed, with the responses they got. -/
  completed : List (ℕ × Bytes) := []

abbrev State := Bool → Peer

inductive Event
  | call (p : Bool) (requestIdentify responseIdentify : UInt64) (seq : ℤ) (content : Bytes)
  /-- A thread in `CallMethod` pushes its request. -/
  | pushData (p : Bool) (i : ℕ)
  | scheduleWrite (p : Bool)
  | handleWrite (p : Bool) (i byteTransferred : ℕ)
  | handleRead (p : Bool) (bytesTransferred : ℕ)
  /-- The decoder runs to the end of a message or of the chunk. -/
  | decode (p : Bool)
  | handle (p : Bool)
  /-- The method that runs at `p` runs `done`. -/
  | reply (p : Bool) (content : Bytes)
  | returns (p : Bool)
  deriving DecidableEq, Repr

def Event.isCall : Event → Bool
  | .call .. => true
  | _ => false

/-- The message is encoded, in a frame that is not too long, and reads back. -/
def fits (codec : MetaCodec) (m : MetaData) : Bool :=
  match codec.appendToString m with
  | none => false
  | some bytes =>
      1 ≤ bytes.length && bytes.length ≤ 2 ^ 31 - 2 && codec.parseFromArray bytes = (m, true)

/-- The messages that are sent are those whose frames fit the line format. -/
def callMethod (codec : MetaCodec) (services : Services) (p : Bool) (x : Peer)
    (requestIdentify responseIdentify : UInt64) (seq : ℤ) (content : Bytes) : Option Peer :=
  if services.registered (!p) requestIdentify ∧ services.parses (!p) requestIdentify content ∧
      content ≠ [] then
    (x.table.searchFree (x.table.length + 1) responseIdentify seq).bind fun r =>
      if services.registered p r ∨ fits codec (callMethodMeta requestIdentify r content) = false
        then none
      else
        some { x with
          table := x.table.insert r x.made
          toPush := x.toPush ++ [callMethodMeta requestIdentify r content]
          made := x.made + 1 }
  else none

/-- `PushData` of the message, encoded; the thread is then to schedule the write. -/
def Peer.pushData (codec : MetaCodec) (x : Peer) (m : MetaData) : Peer :=
  { x with path := x.path.pushData (encodeMessage codec m), toSchedule := x.toSchedule + 1 }

/-- `Handle` has returned true. -/
def Peer.handleDone (x : Peer) : Peer :=
  { x with handling := .idle, decoder := x.decoder.reset }

/-- `Handle` of the message that the decoder holds. -/
def Peer.handle (services : Services) (p : Bool) (x : Peer) : Peer :=
  let m := x.decoder.meta_
  if services.registered p m.identify then
    if services.parses p m.identify m.content then { x with handling := .serving }
    else x.handleDone
  else
    match x.table.find m.identify with
    | none => { x with handling := .idle, closed := true }
    | some c =>
        { x.handleDone with
          table := x.table.erase m.identify
          completed := x.completed ++ [(c, m.content)] }

/-- The part of `Decode` up to a call of `Handle`, or to its end. -/
def Peer.decode (codec : MetaCodec) (x : Peer) : Peer :=
  match x.decoder.decode codec x.chunk with
  | .error _ => { x with crashed := true }
  | .ok (decoder, .true, rest) =>
      { x with decoder := decoder, chunk := rest, handling := .received }
  | .ok (decoder, .false, rest) => { x with decoder := decoder, chunk := rest, closed := true }
  | .ok (decoder, .indeterminate, rest) => { x with decoder := decoder, chunk := rest }

/-- The thread that reads is in neither `Handle` nor a connection that it left. -/
def Peer.Reading (x : Peer) : Prop :=
  x.handling = .idle ∧ x.closed = false ∧ x.crashed = false

instance (x : Peer) : Decidable x.Reading := inferInstanceAs (Decidable (_ ∧ _ ∧ _))

def step (codec : MetaCodec) (services : Services) (c : State) : Event → Option State
  | .call p requestIdentify responseIdentify seq content =>
      (callMethod codec services p (c p) requestIdentify responseIdentify seq content).map
        (Function.update c p)
  | .pushData p i =>
      (c p).toPush[i]?.map fun m =>
        Function.update c p
          (({ c p with toPush := (c p).toPush.eraseIdx i } : Peer).pushData codec m)
  | .scheduleWrite p =>
      if 0 < (c p).toSchedule then
        some (Function.update c p
          { c p with path := (c p).path.scheduleWrite, toSchedule := (c p).toSchedule - 1 })
      else none
  | .handleWrite p i byteTransferred =>
      if 0 < byteTransferred ∨ (c p).path.outstanding[i]? = some [] then
        ((c p).path.step (.handleWrite i byteTransferred)).map fun path =>
          Function.update c p { c p with path := path }
      else none
  | .handleRead p bytesTransferred =>
      if (c p).Reading ∧ (c p).chunk = [] ∧ 0 < bytesTransferred ∧
          bytesTransferred ≤ Transport.kBufferSize ∧
          (c p).taken + bytesTransferred ≤ (c !p).path.accepted.length then
        some (Function.update c p
          { c p with
            chunk := ((c !p).path.accepted.drop (c p).taken).take bytesTransferred
            taken := (c p).taken + bytesTransferred })
      else none
  | .decode p =>
      if (c p).Reading ∧ (c p).chunk ≠ [] then
        some (Function.update c p ((c p).decode codec))
      else none
  | .handle p =>
      if (c p).handling = .received then some (Function.update c p ((c p).handle services p))
      else none
  | .reply p content =>
      if (c p).handling = .serving ∧ content ≠ [] ∧
          fits codec (responseMeta (c p).decoder.meta_ content) then
        some (Function.update c p
          { (c p).pushData codec (responseMeta (c p).decoder.meta_ content) with
            handling := .replied })
      else none
  | .returns p =>
      if (c p).handling = .replied then some (Function.update c p (c p).handleDone) else none

/-! ### One peer, and what one peer has sent to the other -/

/-- The decoder as it will be when `Handle` has returned. -/
def Peer.reader (x : Peer) : ProtobufDecoder :=
  if x.handling = .idle then x.decoder else x.decoder.reset

/-- The thread that reads stands where `a` says, with the same message. -/
def SameHandling (x : Peer) (a : Peers.Peer) : Prop :=
  match x.handling with
  | .idle => a.handling = .idle
  | .received => ∃ o, a.handling = .received o ∧ a.meta_ = x.decoder.meta_
  | .serving => ∃ o, a.handling = .serving o ∧ a.meta_ = x.decoder.meta_
  | .replied => a.handling = .replied

structure Matches (codec : MetaCodec) (x : Peer) (a : Peers.Peer) : Prop where
  table : a.table = x.table
  made : a.made = x.made
  completed : a.completed = x.completed
  toPush : a.toPush.map Peers.Frame.message = x.toPush
  wire : a.wire = []
  handling : SameHandling x a
  readable : ∀ m ∈ x.toPush, Readable codec m
  open_ : x.closed = false
  survives : x.crashed = false
  path : x.path.Good
  scheduled : x.toSchedule = 0 → x.path.writing = false → x.path.unsent = []

/-- What was pushed to `path` and is not decoded are the frames of the messages. -/
structure Carries (codec : MetaCodec) (path : WritePath) (taken : ℕ) (chunk : Bytes)
    (reader : ProtobufDecoder) (ms : List MetaData) : Prop where
  accepted : taken ≤ path.accepted.length
  readable : ∀ m ∈ ms, Readable codec m
  awaits : Awaits codec reader (chunk ++ (path.accepted.drop taken ++ path.unsent)) ms

def queued (a : Peers.Peer) : List MetaData := a.queue.map Peers.Frame.message

/-- The state over the bytes and the one over whole frames. -/
structure Rel (codec : MetaCodec) (services : Services) (c : State) (a : Peers.State) :
    Prop where
  inv : Peers.Inv services a
  peers : ∀ p, Matches codec (c p) (a p)
  carries : ∀ p, Carries codec (c p).path (c !p).taken (c !p).chunk (c !p).reader (queued (a p))

variable {codec : MetaCodec} {services : Services} {c c' : State} {a a' : Peers.State}
  {p : Bool} {x x' y : Peer} {b b' : Peers.Peer} {m : MetaData} {ms : List MetaData}

theorem readable_of_fits (hwell : Peers.wellFormed m = true) (h : fits codec m = true) :
    Readable codec m := by
  unfold fits at h
  split at h
  · cases h
  · rename_i bytes hbytes
    simp only [Bool.and_eq_true, decide_eq_true_eq] at h
    intro d hd
    refine Peers.accepts_of_wellFormed hwell hbytes ?_ h.1.1 (by omega) hd
    intro bytes' hbytes'
    obtain rfl := Option.some.inj (hbytes.symm.trans hbytes')
    exact h.2

theorem rel_init : Rel codec services (fun _ => {}) fun _ => {} := by
  refine ⟨Peers.inv_init, fun p => ?_, fun p => ?_⟩
  · exact ⟨rfl, rfl, rfl, rfl, rfl, rfl, by simp, rfl, rfl, WritePath.good_init, fun _ _ => rfl⟩
  · exact ⟨le_rfl, by simp [queued], rfl, rfl⟩

/-- What the decoder makes of a chunk: it completes the first message, or runs to the
end of the chunk. -/
theorem decode_awaits {d : ProtobufDecoder} {chunk rest : Bytes}
    (h : Awaits codec d (chunk ++ rest) ms) (hms : ∀ m ∈ ms, Readable codec m) :
    (∃ d', d.decode codec chunk = .ok (d', .indeterminate, []) ∧ Awaits codec d' rest ms) ∨
      ∃ d' m ms' unread, d.decode codec chunk = .ok (d', .true, unread) ∧ ms = m :: ms' ∧
        d'.meta_ = m ∧ unread.length < chunk.length ∧
        Awaits codec d'.reset (unread ++ rest) ms' := by
  induction chunk generalizing d with
  | nil => exact Or.inl ⟨d, rfl, h⟩
  | cons b chunk ih =>
      obtain ⟨m, ms', rfl, ⟨d', hconsume, hawaits⟩ | ⟨d', hconsume, hmeta, hawaits⟩⟩ :=
        h.consume hms
      · rw [ProtobufDecoder.decode, hconsume]
        obtain hend | ⟨d'', n, ns, unread, hdecode, heq, hmeta, hlt, hrest⟩ := ih hawaits
        · exact Or.inl hend
        · exact Or.inr ⟨d'', n, ns, unread, hdecode, heq, hmeta, Nat.lt_succ_of_lt hlt, hrest⟩
      · rw [ProtobufDecoder.decode, hconsume]
        exact Or.inr ⟨d', m, ms', chunk, rfl, rfl, hmeta, Nat.lt_succ_self _, hawaits⟩

theorem Rel.intro (hinv : Peers.Inv services a') (ha : a' p = b) (ha' : a' (!p) = b')
    (hx : Matches codec x b) (hy : Matches codec (c !p) b')
    (hsent : Carries codec x.path (c !p).taken (c !p).chunk (c !p).reader (queued b))
    (hback : Carries codec (c !p).path x.taken x.chunk x.reader (queued b')) :
    Rel codec services (Function.update c p x) a' := by
  have hcases : ∀ q, q = p ∨ q = !p := by
    intro q
    cases p <;> cases q <;> simp
  refine ⟨hinv, fun q => ?_, fun q => ?_⟩
  · obtain rfl | rfl := hcases q
    · simpa [ha] using hx
    · simpa [ha'] using hy
  · obtain rfl | rfl := hcases q
    · simpa [ha] using hsent
    · simpa [ha'] using hback

/-- A step that the peers with whole frames do not see. -/
theorem Rel.silent (h : Rel codec services c a) (hx : Matches codec x (a p))
    (hsent : Carries codec x.path (c !p).taken (c !p).chunk (c !p).reader (queued (a p)))
    (hback : Carries codec (c !p).path x.taken x.chunk x.reader (queued (a !p))) :
    Rel codec services (Function.update c p x) a :=
  Rel.intro h.inv rfl rfl hx (h.peers !p) hsent hback

theorem Rel.back (h : Rel codec services c a) (p : Bool) :
    Carries codec (c !p).path (c p).taken (c p).chunk (c p).reader (queued (a !p)) := by
  have := h.carries !p
  rwa [Bool.not_not] at this

/-! ### The bytes that are on their way -/

variable {path path' : WritePath} {taken : ℕ} {chunk : Bytes} {reader : ProtobufDecoder}

theorem Carries.pushData (h : Carries codec path taken chunk reader ms) (hpath : path.Good)
    (hm : Readable codec m) :
    Carries codec (path.pushData (encodeMessage codec m)) taken chunk reader (ms ++ [m]) := by
  obtain ⟨-, haccepted, hunsent⟩ := hpath.pushData (encodeMessage codec m)
  refine ⟨?_, ?_, ?_⟩
  · rw [haccepted]
    exact h.accepted
  · intro n hn
    rcases List.mem_append.mp hn with hn | hn
    · exact h.readable n hn
    · rw [List.mem_singleton.mp hn]
      exact hm
  · rw [haccepted, hunsent, Transport.frame_encodeMessage, ← List.append_assoc (List.drop _ _),
      ← List.append_assoc chunk]
    exact h.awaits.push hm

theorem Carries.send (h : Carries codec path taken chunk reader ms)
    (hlen : path.accepted.length ≤ path'.accepted.length)
    (hbytes : path'.accepted ++ path'.unsent = path.accepted ++ path.unsent) :
    Carries codec path' taken chunk reader ms := by
  refine ⟨h.accepted.trans hlen, h.readable, ?_⟩
  rw [Transport.drop_accepted_append_unsent h.accepted hlen hbytes]
  exact h.awaits

/-- A chunk is taken from the bytes that were accepted. -/
theorem Carries.read {n : ℕ} (h : Carries codec path taken [] reader ms)
    (hn : taken + n ≤ path.accepted.length) :
    Carries codec path (taken + n) ((path.accepted.drop taken).take n) reader ms := by
  refine ⟨hn, h.readable, ?_⟩
  have hsplit : (path.accepted.drop taken).take n ++ path.accepted.drop (taken + n) =
      path.accepted.drop taken := by
    rw [← List.drop_drop, List.take_append_drop]
  rw [← List.append_assoc, hsplit]
  exact h.awaits

/-! ### The steps -/

theorem callMethod_eq_some {requestIdentify base : UInt64} {seq : ℤ} {content : Bytes}
    (h : Matches codec x b)
    (hcall : callMethod codec services p x requestIdentify base seq content = some x') :
    ∃ r m, Readable codec m ∧
      x' = { x with
        table := x.table.insert r x.made
        toPush := x.toPush ++ [m]
        made := x.made + 1 } ∧
      Peers.callMethod services p b requestIdentify base seq content = some { b with
        table := b.table.insert r b.made
        toPush := b.toPush ++ [⟨m, b.made⟩]
        made := b.made + 1 } := by
  simp only [callMethod, Option.ite_none_right_eq_some, Option.bind_eq_some_iff] at hcall
  obtain ⟨hguard, r, hr, hcall⟩ := hcall
  simp only [Option.ite_none_left_eq_some, Option.some.injEq, not_or, Bool.not_eq_true,
    Bool.not_eq_false] at hcall
  obtain ⟨⟨hown, hfits⟩, rfl⟩ := hcall
  have hwell : Peers.wellFormed (callMethodMeta requestIdentify r content) = true := by
    simp [Peers.wellFormed, callMethodMeta, MetaData.content, MetaData.hasResponseIdentify,
      hguard.2.2]
  refine ⟨r, callMethodMeta requestIdentify r content, readable_of_fits hwell hfits, rfl, ?_⟩
  rw [Peers.callMethod, if_pos hguard, h.table, hr, Option.bind_some, if_neg (by simp [hown])]

theorem Rel.call {requestIdentify base : UInt64} {seq : ℤ} {content : Bytes}
    (h : Rel codec services c a)
    (hcall : callMethod codec services p (c p) requestIdentify base seq content = some x) :
    ∃ a', Peers.step services a (.call p requestIdentify base seq content) = some a' ∧
      Rel codec services (Function.update c p x) a' := by
  have hmatch := h.peers p
  obtain ⟨r, m, hm, rfl, hpeer⟩ := callMethod_eq_some hmatch hcall
  have hstep : Peers.step services a (.call p requestIdentify base seq content) =
      some (Function.update a p { a p with
        table := (a p).table.insert r (a p).made
        toPush := (a p).toPush ++ [⟨m, (a p).made⟩]
        made := (a p).made + 1 }) := by
    rw [Peers.step, hpeer, Option.map_some]
  refine ⟨_, hstep, Rel.intro (Peers.Inv.step h.inv hstep) (Function.update_self ..) (by simp) ?_
    (h.peers !p) (h.carries p) (h.back p)⟩
  refine { hmatch with table := ?_, made := ?_, toPush := ?_, readable := ?_ }
  · show ResponseTable.insert (a p).table r (a p).made = (c p).table.insert r (c p).made
    rw [hmatch.table, hmatch.made]
  · show (a p).made + 1 = (c p).made + 1
    rw [hmatch.made]
  · show ((a p).toPush ++ [_]).map _ = (c p).toPush ++ [m]
    rw [List.map_append, hmatch.toPush]
    rfl
  · intro n hn
    rcases List.mem_append.mp hn with hn | hn
    · exact hmatch.readable n hn
    · rw [List.mem_singleton.mp hn]
      exact hm

/-- A thread that has pushed is yet to schedule the write. -/
theorem Matches.pushData (h : Matches codec x b) (m : MetaData) :
    (x.path.pushData (encodeMessage codec m)).Good ∧
      (x.toSchedule + 1 = 0 →
        (x.path.pushData (encodeMessage codec m)).writing = false →
          (x.path.pushData (encodeMessage codec m)).unsent = []) :=
  ⟨(h.path.pushData _).1, fun hzero => absurd hzero (Nat.succ_ne_zero _)⟩

theorem Rel.pushData {i : ℕ} (h : Rel codec services c a) (hm : (c p).toPush[i]? = some m) :
    ∃ a', Peers.step services a (.push p i) = some a' ∧
      Rel codec services (Function.update c p
        (({ c p with toPush := (c p).toPush.eraseIdx i } : Peer).pushData codec m)) a' := by
  have hmatch := h.peers p
  obtain ⟨f, hf, rfl⟩ : ∃ f, (a p).toPush[i]? = some f ∧ f.message = m := by
    rw [← hmatch.toPush, List.getElem?_map, Option.map_eq_some_iff] at hm
    exact hm
  have hstep : Peers.step services a (.push p i) = some (Function.update a p
      { a p with toPush := (a p).toPush.eraseIdx i, queue := (a p).queue ++ [f] }) := by
    rw [Peers.step, hf, Option.map_some]
  have hreadable := hmatch.readable f.message (List.mem_of_getElem? hm)
  obtain ⟨hgood, hscheduled⟩ := hmatch.pushData f.message
  refine ⟨_, hstep, Rel.intro (Peers.Inv.step h.inv hstep) (Function.update_self ..) (by simp) ?_
    (h.peers !p) ?_ (h.back p)⟩
  · refine { hmatch with
      toPush := ?_, readable := ?_, path := hgood, scheduled := hscheduled }
    · show ((a p).toPush.eraseIdx i).map _ = (c p).toPush.eraseIdx i
      rw [← hmatch.toPush, List.eraseIdx_map]
    · intro n hn
      exact hmatch.readable n (List.mem_of_mem_eraseIdx hn)
  · have hqueue : queued { a p with
        toPush := (a p).toPush.eraseIdx i, queue := (a p).queue ++ [f] } =
        queued (a p) ++ [f.message] := List.map_append ..
    rw [hqueue]
    exact (h.carries p).pushData hmatch.path hreadable

theorem Rel.scheduleWrite (h : Rel codec services c a) :
    Rel codec services (Function.update c p
      { c p with path := (c p).path.scheduleWrite, toSchedule := (c p).toSchedule - 1 }) a := by
  have hmatch := h.peers p
  obtain ⟨hgood, haccepted, hunsent, hidle⟩ := hmatch.path.scheduleWrite
  refine h.silent ?_ ?_ (h.back p)
  · exact { hmatch with path := hgood, scheduled := fun _ => hidle }
  · exact (h.carries p).send (by rw [haccepted]) (by rw [haccepted, hunsent])

theorem Rel.handleWrite {i n : ℕ} (h : Rel codec services c a)
    (hn : 0 < n ∨ (c p).path.outstanding[i]? = some [])
    (hpath : (c p).path.step (.handleWrite i n) = some path) :
    Rel codec services (Function.update c p { c p with path := path }) a := by
  have hmatch := h.peers p
  obtain ⟨hgood, hbytes, hidle⟩ := hmatch.path.handleWrite hpath
  obtain ⟨hlen, -⟩ := hmatch.path.handleWrite_progress hn hpath
  have hle : (c p).path.accepted.length ≤ path.accepted.length := by omega
  refine h.silent ?_ ?_ (h.back p)
  · exact { hmatch with path := hgood, scheduled := fun _ => hidle }
  · exact (h.carries p).send hle hbytes

theorem Rel.handleRead {n : ℕ} (h : Rel codec services c a) (hchunk : (c p).chunk = [])
    (hn : (c p).taken + n ≤ (c !p).path.accepted.length) :
    Rel codec services (Function.update c p
      { c p with
        chunk := ((c !p).path.accepted.drop (c p).taken).take n
        taken := (c p).taken + n }) a := by
  have hmatch := h.peers p
  refine h.silent ?_ (h.carries p) ?_
  · exact { hmatch with }
  · have hback := h.back p
    rw [hchunk] at hback
    exact hback.read hn

/-- The first frame of the other peer is written and received. -/
theorem write_receive {f : Peers.Frame} {fs : List Peers.Frame} (hinv : Peers.Inv services a)
    (hidle : (a p).handling = .idle) (hqueue : (a !p).queue = f :: fs) (hwire : (a !p).wire = []) :
    ∃ a', Machine.run (Peers.step services) a [.write !p, .receive p] = some a' ∧
      Peers.Inv services a' ∧
      a' p = { a p with meta_ := f.message, handling := .received f.origin } ∧
      a' (!p) = { a !p with queue := fs } := by
  have hback := hinv !p
  rw [Bool.not_not] at hback
  have hwell : Peers.wellFormed f.message = true := by
    refine (hback.link.legal f ?_).wellFormed
    simp [Peers.sent, hqueue]
  have hbroken : (a p).broken = false := (hinv p).link.unbroken
  have hrun : ∃ a', Machine.run (Peers.step services) a [.write !p, .receive p] = some a' ∧
      a' p = { a p with meta_ := f.message, handling := .received f.origin } ∧
      a' (!p) = { a !p with queue := fs } := by
    rw [Machine.run_cons, Peers.step, hqueue, Option.bind_some, Machine.run_cons, Peers.step]
    simp [hidle, hbroken, hwire, hwell]
  obtain ⟨a', ha', hp, hnp⟩ := hrun
  refine ⟨a', ha', ?_, hp, hnp⟩
  exact Machine.run_invariant (fun t e t' ht hstep => Peers.Inv.step ht hstep) hinv ha'

/-- The decoder runs to the end of the chunk, or completes the first frame of the other
peer, which is then written and received. -/
theorem Rel.decode (h : Rel codec services c a) (hidle : (c p).handling = .idle)
    (hchunk : (c p).chunk ≠ []) :
    (Rel codec services (Function.update c p ((c p).decode codec)) a ∧
      ((c p).decode codec).path = (c p).path ∧ ((c p).decode codec).taken = (c p).taken ∧
      ((c p).decode codec).toSchedule = (c p).toSchedule ∧
      ((c p).decode codec).chunk.length < (c p).chunk.length) ∨
    ∃ a', Machine.run (Peers.step services) a [.write !p, .receive p] = some a' ∧
      Rel codec services (Function.update c p ((c p).decode codec)) a' := by
  have hmatch := h.peers p
  have hback := h.back p
  have hreader : (c p).reader = (c p).decoder := if_pos hidle
  rw [hreader] at hback
  obtain ⟨d, hdecode, hrest⟩ | ⟨d, m, ms, unread, hdecode, hqueue, hmeta, hlt, hrest⟩ :=
    decode_awaits hback.awaits hback.readable
  · have heq : (c p).decode codec = { c p with decoder := d, chunk := [] } := by
      rw [Peer.decode, hdecode]
    rw [heq]
    refine Or.inl ⟨h.silent ?_ (h.carries p) ⟨hback.accepted, hback.readable, ?_⟩, rfl, rfl, rfl,
      List.length_pos_iff.mpr hchunk⟩
    · have hsame : SameHandling { c p with decoder := d, chunk := [] } (a p) := by
        have := hmatch.handling
        simp only [SameHandling, hidle] at this ⊢
        exact this
      exact { hmatch with handling := hsame }
    · have hreader' : ({ c p with decoder := d, chunk := [] } : Peer).reader = d := if_pos hidle
      rw [hreader']
      exact hrest
  · have heq : (c p).decode codec =
        { c p with decoder := d, chunk := unread, handling := .received } := by
      rw [Peer.decode, hdecode]
    obtain ⟨f, fs, hfs, rfl, rfl⟩ := List.map_eq_cons_iff.mp hqueue
    have hidle' : (a p).handling = .idle := by
      have := hmatch.handling
      simp only [SameHandling, hidle] at this
      exact this
    obtain ⟨a', hrun, hinv, hp, hnp⟩ := write_receive h.inv hidle' hfs (h.peers !p).wire
    refine Or.inr ⟨a', hrun, ?_⟩
    rw [heq]
    have hother := h.peers !p
    refine Rel.intro hinv hp hnp ?_ ?_ (h.carries p) ⟨hback.accepted, ?_, hrest⟩
    · exact { hmatch with handling := ⟨f.origin, rfl, hmeta.symm⟩ }
    · exact { hother with }
    · intro n hn
      exact hback.readable n (by rw [hqueue]; exact List.mem_cons_of_mem _ hn)

/-- Until `Handle` has returned, the decoder that reads on is the one reset. -/
theorem reader_of_ne_idle (h : x.handling ≠ .idle) : x.reader = x.decoder.reset := if_neg h

theorem Rel.handle (h : Rel codec services c a) (hreceived : (c p).handling = .received) :
    ∃ a', Peers.step services a (.handle p) = some a' ∧
      Rel codec services (Function.update c p ((c p).handle services p)) a' := by
  have hmatch := h.peers p
  obtain ⟨o, ho, hmeta⟩ : ∃ o, (a p).handling = .received o ∧
      (a p).meta_ = (c p).decoder.meta_ := by
    have := hmatch.handling
    simp only [SameHandling, hreceived] at this
    exact this
  have hstep : Peers.step services a (.handle p) =
      some (Function.update a p (Peers.handleFrame services p (a p) o)) := by
    simp only [Peers.step, ho]
  have hinv := Peers.Inv.step h.inv hstep
  have hback := h.back p
  rw [reader_of_ne_idle (by rw [hreceived]; decide)] at hback
  refine ⟨_, hstep, ?_⟩
  -- the thread that reads goes on from a decoder that is reset, or is about to be
  have hintro : ∀ x' b', Peers.handleFrame services p (a p) o = b' → Matches codec x' b' →
      x'.path = (c p).path → x'.taken = (c p).taken → x'.chunk = (c p).chunk →
      x'.reader = (c p).decoder.reset → b'.queue = (a p).queue →
      Rel codec services (Function.update c p x')
        (Function.update a p (Peers.handleFrame services p (a p) o)) := by
    intro x' b' hb' hx' hpath htaken hchunk hreader hqueue
    refine Rel.intro hinv ((Function.update_self ..).trans hb') (by simp) hx' (h.peers !p) ?_ ?_
    · rw [hpath, queued, hqueue]
      exact h.carries p
    · rw [htaken, hchunk, hreader]
      exact hback
  simp only [Peer.handle, ← hmeta]
  by_cases hregistered : services.registered p (a p).meta_.identify = true
  · by_cases hparses : services.parses p (a p).meta_.identify (a p).meta_.content = true
    · rw [if_pos hregistered, if_pos hparses]
      refine hintro _ { a p with handling := .serving o } ?_ ?_ rfl rfl rfl rfl rfl
      · rw [Peers.handleFrame, if_pos hregistered, if_pos hparses]
      · exact { hmatch with handling := ⟨o, rfl, hmeta⟩ }
    · rw [if_pos hregistered, if_neg hparses]
      refine hintro _ { a p with handling := .idle } ?_ ?_ rfl rfl rfl rfl rfl
      · rw [Peers.handleFrame, if_pos hregistered, if_neg hparses]
      · exact { hmatch with handling := rfl }
  · rw [if_neg hregistered]
    cases hfind : (c p).table.find (a p).meta_.identify with
    | none =>
        -- the peers with whole frames never miss an entry
        have hmiss : (Peers.handleFrame services p (a p) o).broken = true := by
          rw [Peers.handleFrame, if_neg hregistered, hmatch.table, hfind]
        have hunbroken := (hinv p).link.unbroken
        rw [Function.update_self, hmiss] at hunbroken
        cases hunbroken
    | some call =>
        refine hintro _ { a p with
          table := (a p).table.erase (a p).meta_.identify
          completed := (a p).completed ++ [(call, (a p).meta_.content)]
          handling := .idle } ?_ ?_ rfl rfl rfl rfl rfl
        · rw [Peers.handleFrame, if_neg hregistered, hmatch.table, hfind]
        · refine { hmatch with table := ?_, completed := ?_, handling := rfl }
          · exact congrArg (ResponseTable.erase · _) hmatch.table
          · exact congrArg (· ++ _) hmatch.completed

theorem Rel.reply {content : Bytes} (h : Rel codec services c a)
    (hserving : (c p).handling = .serving) (hcontent : content ≠ [])
    (hfits : fits codec (responseMeta (c p).decoder.meta_ content) = true) :
    ∃ a', Peers.step services a (.reply p content) = some a' ∧
      Rel codec services (Function.update c p
        { (c p).pushData codec (responseMeta (c p).decoder.meta_ content) with
          handling := .replied }) a' := by
  have hmatch := h.peers p
  obtain ⟨o, ho, hmeta⟩ : ∃ o, (a p).handling = .serving o ∧ (a p).meta_ = (c p).decoder.meta_ := by
    have := hmatch.handling
    simp only [SameHandling, hserving] at this
    exact this
  obtain ⟨a', hstep, hp, hnp⟩ : ∃ a', Peers.step services a (.reply p content) = some a' ∧
      a' p = { a p with
        queue := (a p).queue ++ [⟨responseMeta (c p).decoder.meta_ content, o⟩]
        handling := .replied } ∧
      a' (!p) = { a !p with answers := (a !p).answers ++ [(o, content)] } := by
    simp only [Peers.step, ho, if_pos hcontent, hmeta]
    exact ⟨_, rfl, by simp, by simp⟩
  have hwell : Peers.wellFormed (responseMeta (c p).decoder.meta_ content) = true := by
    simp [Peers.wellFormed, responseMeta, MetaData.content, MetaData.type, hcontent]
  obtain ⟨hgood, hscheduled⟩ := hmatch.pushData (responseMeta (c p).decoder.meta_ content)
  have hback := h.back p
  rw [reader_of_ne_idle (by rw [hserving]; decide)] at hback
  have hother := h.peers !p
  refine ⟨a', hstep, Rel.intro (Peers.Inv.step h.inv hstep) hp hnp ?_ ?_ ?_ hback⟩
  · exact { hmatch with handling := rfl, path := hgood, scheduled := hscheduled }
  · exact { hother with }
  · have hqueue : queued { a p with
        queue := (a p).queue ++ [⟨responseMeta (c p).decoder.meta_ content, o⟩]
        handling := .replied } =
        queued (a p) ++ [responseMeta (c p).decoder.meta_ content] := List.map_append ..
    rw [hqueue]
    exact (h.carries p).pushData hmatch.path (readable_of_fits hwell hfits)

theorem Rel.returns (h : Rel codec services c a) (hreplied : (c p).handling = .replied) :
    ∃ a', Peers.step services a (.returns p) = some a' ∧
      Rel codec services (Function.update c p (c p).handleDone) a' := by
  have hmatch := h.peers p
  have ho : (a p).handling = .replied := by
    have := hmatch.handling
    simp only [SameHandling, hreplied] at this
    exact this
  have hstep : Peers.step services a (.returns p) =
      some (Function.update a p { a p with handling := .idle }) := by
    simp only [Peers.step, if_pos ho]
  have hback := h.back p
  rw [reader_of_ne_idle (by rw [hreplied]; decide)] at hback
  refine ⟨_, hstep, Rel.intro (Peers.Inv.step h.inv hstep) (Function.update_self ..) (by simp) ?_
    (h.peers !p) (h.carries p) hback⟩
  exact { hmatch with handling := rfl }

/-! ### Bytes run out -/

/-- What is still to do for the bytes that `x` has pushed and `y` has not decoded. -/
def streamWork (x y : Peer) : ℕ :=
  3 * x.path.unsent.length + 2 * (x.path.accepted.length - y.taken) + x.path.pieces +
    x.toSchedule + y.chunk.length

def bytesWork (c : State) : ℕ := streamWork (c false) (c true) + streamWork (c true) (c false)

theorem bytesWork_eq (c : State) (p : Bool) :
    bytesWork c = streamWork (c p) (c !p) + streamWork (c !p) (c p) := by
  cases p with
  | false => rfl
  | true => exact Nat.add_comm _ _

theorem bytesWork_update (c : State) (p : Bool) (x : Peer) :
    bytesWork (Function.update c p x) = streamWork x (c !p) + streamWork (c !p) x := by
  rw [bytesWork_eq _ p]
  simp

/-- The step has brought the calls, or the bytes that they wait for, further. -/
def Progress (c : State) (a : Peers.State) (c' : State) (a' : Peers.State) : Prop :=
  Peers.work a' < Peers.work a ∨ Peers.work a' = Peers.work a ∧ bytesWork c' < bytesWork c

theorem progress_of_step {e : Peers.Event} (hinv : Peers.Inv services a)
    (he : e.isCall = false) (hstep : Peers.step services a e = some a') : Progress c a c' a' := by
  have hwork := Peers.Inv.work_step hinv hstep
  simp only [he, Bool.false_eq_true, if_false] at hwork
  exact Or.inl (by omega)

/-- What the two peers show of an event: all but the way of the frames. -/
def shownFrames : Peers.Event → List Peers.Event
  | .write _ | .receive _ => []
  | e => [e]

def shown : Event → List Peers.Event
  | .call p requestIdentify responseIdentify seq content =>
      [.call p requestIdentify responseIdentify seq content]
  | .pushData p i => [.push p i]
  | .handle p => [.handle p]
  | .reply p content => [.reply p content]
  | .returns p => [.returns p]
  | .scheduleWrite _ | .handleWrite .. | .handleRead .. | .decode _ => []

/-- Each step over the bytes is matched by steps with whole frames. -/
theorem Rel.step {e : Event} (h : Rel codec services c a)
    (hstep : RpcStream.step codec services c e = some c') :
    ∃ es a', Machine.run (Peers.step services) a es = some a' ∧
      es.flatMap shownFrames = shown e ∧ Rel codec services c' a' ∧
      (e.isCall = false → Progress c a c' a') := by
  have hone : ∀ {e' : Peers.Event} {a' : Peers.State}, Peers.step services a e' = some a' →
      Machine.run (Peers.step services) a [e'] = some a' := by
    intro e' a' hstep'
    rw [Machine.run_cons, hstep']
    rfl
  cases e with
  | call p requestIdentify base seq content =>
      simp only [RpcStream.step, Option.map_eq_some_iff] at hstep
      obtain ⟨x, hx, rfl⟩ := hstep
      obtain ⟨a', ha', hrel⟩ := h.call hx
      exact ⟨_, a', hone ha', rfl, hrel, nofun⟩
  | pushData p i =>
      simp only [RpcStream.step, Option.map_eq_some_iff] at hstep
      obtain ⟨m, hm, rfl⟩ := hstep
      obtain ⟨a', ha', hrel⟩ := h.pushData hm
      exact ⟨_, a', hone ha', rfl, hrel, fun _ => progress_of_step h.inv rfl ha'⟩
  | scheduleWrite p =>
      simp only [RpcStream.step, Option.ite_none_right_eq_some, Option.some.injEq] at hstep
      obtain ⟨hpos, rfl⟩ := hstep
      refine ⟨[], a, rfl, rfl, h.scheduleWrite, fun _ => Or.inr ⟨rfl, ?_⟩⟩
      obtain ⟨-, haccepted, hunsent, -⟩ := (h.peers p).path.scheduleWrite
      have hpieces := WritePath.pieces_scheduleWrite (c p).path
      rw [bytesWork_update, bytesWork_eq c p]
      simp only [streamWork, haccepted, hunsent, hpieces]
      omega
  | handleWrite p i n =>
      simp only [RpcStream.step, Option.ite_none_right_eq_some, Option.map_eq_some_iff] at hstep
      obtain ⟨hn, path, hpath, rfl⟩ := hstep
      refine ⟨[], a, rfl, rfl, h.handleWrite hn hpath, fun _ => Or.inr ⟨rfl, ?_⟩⟩
      obtain ⟨-, hbytes, -⟩ := (h.peers p).path.handleWrite hpath
      obtain ⟨hlen, hle, hzero⟩ := (h.peers p).path.handleWrite_progress hn hpath
      have htaken := (h.carries p).accepted
      have hsum := congrArg List.length hbytes
      rw [List.length_append, List.length_append] at hsum
      rw [bytesWork_update, bytesWork_eq c p]
      simp only [streamWork]
      rcases Nat.eq_zero_or_pos n with hn0 | hpos
      · have hlt := hzero hn0
        omega
      · omega
  | handleRead p n =>
      simp only [RpcStream.step, Option.ite_none_right_eq_some, Option.some.injEq] at hstep
      obtain ⟨⟨-, hchunk, hpos, -, hlen⟩, rfl⟩ := hstep
      refine ⟨[], a, rfl, rfl, h.handleRead hchunk hlen, fun _ => Or.inr ⟨rfl, ?_⟩⟩
      rw [bytesWork_update, bytesWork_eq c p]
      simp only [streamWork, hchunk, List.length_take, List.length_drop, List.length_nil]
      omega
  | decode p =>
      simp only [RpcStream.step, Option.ite_none_right_eq_some, Option.some.injEq] at hstep
      obtain ⟨⟨hreading, hchunk⟩, rfl⟩ := hstep
      obtain ⟨hrel, hpath, htaken, hschedule, hlt⟩ | ⟨a', hrun, hrel⟩ :=
        h.decode hreading.1 hchunk
      · refine ⟨[], a, rfl, rfl, hrel, fun _ => Or.inr ⟨rfl, ?_⟩⟩
        rw [bytesWork_update, bytesWork_eq c p]
        simp only [streamWork, hpath, htaken, hschedule]
        omega
      · refine ⟨_, a', hrun, rfl, hrel, fun _ => Or.inl ?_⟩
        have hwork := h.inv.work_run hrun
        have hevents : ([.write !p, .receive p] : List Peers.Event).countP
            (fun e => !e.isCall) = 2 := rfl
        have hcalls : ([.write !p, .receive p] : List Peers.Event).countP
            Peers.Event.isCall = 0 := rfl
        omega
  | handle p =>
      simp only [RpcStream.step, Option.ite_none_right_eq_some, Option.some.injEq] at hstep
      obtain ⟨hreceived, rfl⟩ := hstep
      obtain ⟨a', ha', hrel⟩ := h.handle hreceived
      exact ⟨_, a', hone ha', rfl, hrel, fun _ => progress_of_step h.inv rfl ha'⟩
  | reply p content =>
      simp only [RpcStream.step, Option.ite_none_right_eq_some, Option.some.injEq] at hstep
      obtain ⟨⟨hserving, hcontent, hfits⟩, rfl⟩ := hstep
      obtain ⟨a', ha', hrel⟩ := h.reply hserving hcontent hfits
      exact ⟨_, a', hone ha', rfl, hrel, fun _ => progress_of_step h.inv rfl ha'⟩
  | returns p =>
      simp only [RpcStream.step, Option.ite_none_right_eq_some, Option.some.injEq] at hstep
      obtain ⟨hreplied, rfl⟩ := hstep
      obtain ⟨a', ha', hrel⟩ := h.returns hreplied
      exact ⟨_, a', hone ha', rfl, hrel, fun _ => progress_of_step h.inv rfl ha'⟩

theorem rel_run {es : List Event}
    (hrun : Machine.run (RpcStream.step codec services) (fun _ => {}) es = some c) :
    ∃ es' a, Machine.run (Peers.step services) (fun _ => {}) es' = some a ∧
      es'.flatMap shownFrames = es.flatMap shown ∧ Rel codec services c a := by
  refine Machine.run_simulation_stutter shown shownFrames ?_ rel_init hrun
  intro s e s' a h hstep
  obtain ⟨es, a', hrun', hshown, hrel, -⟩ := h.step hstep
  exact ⟨es, a', hrun', hshown, hrel⟩

/-- **The bytes carry the calls.** Each run over the bytes is a run of the two peers
that exchange whole frames, with the same calls, pushes, handled messages and replies in
the same order: it ends with the same tables and the same calls completed with the same
responses. No decoder fails, and no peer gives the connection up. -/
theorem run_refines {es : List Event}
    (hrun : Machine.run (RpcStream.step codec services) (fun _ => {}) es = some c) :
    ∃ es' a, Machine.run (Peers.step services) (fun _ => {}) es' = some a ∧
      es'.flatMap shownFrames = es.flatMap shown ∧
      ∀ p, (c p).closed = false ∧ (c p).crashed = false ∧ (c p).table = (a p).table ∧
        (c p).made = (a p).made ∧ (c p).completed = (a p).completed := by
  obtain ⟨es', a, hrun', hshown, hrel⟩ := rel_run hrun
  refine ⟨es', a, hrun', hshown, fun p => ?_⟩
  have hmatch := hrel.peers p
  exact ⟨hmatch.open_, hmatch.survives, hmatch.table.symm, hmatch.made.symm,
    hmatch.completed.symm⟩

/-- A call and its response, the request written and read in two parts. -/
theorem run_refines_one_call :
    ∃ c, Machine.run (RpcStream.step MetaCodec.short
          { registered := fun p m => m = if p then 5 else 6, parses := fun _ _ _ => true })
        (fun _ => {})
        [.call false 5 100 1 [1], .pushData false 0, .scheduleWrite false, .handleWrite false 0 4,
          .handleRead true 4, .handleWrite false 0 7, .decode true, .handleRead true 7,
          .decode true, .handle true, .reply true [22], .scheduleWrite true, .returns true,
          .handleWrite true 0 9, .handleRead false 9, .decode false, .handle false] = some c ∧
      ∃ es' a, Machine.run (Peers.step
          { registered := fun p m => m = if p then 5 else 6, parses := fun _ _ _ => true })
        (fun _ => {}) es' = some a ∧ (a false).completed = [(0, [22])] := by
  obtain ⟨c, hrun, hcompleted⟩ : ∃ c, Machine.run (RpcStream.step MetaCodec.short
          { registered := fun p m => m = if p then 5 else 6, parses := fun _ _ _ => true })
        (fun _ => {})
        [.call false 5 100 1 [1], .pushData false 0, .scheduleWrite false, .handleWrite false 0 4,
          .handleRead true 4, .handleWrite false 0 7, .decode true, .handleRead true 7,
          .decode true, .handle true, .reply true [22], .scheduleWrite true, .returns true,
          .handleWrite true 0 9, .handleRead false 9, .decode false, .handle false] = some c ∧
      (c false).completed = [(0, [22])] := ⟨_, rfl, rfl⟩
  obtain ⟨es', a, hrun', -, hsame⟩ := run_refines hrun
  obtain ⟨-, -, -, -, heq⟩ := hsame false
  exact ⟨c, hrun, es', a, hrun', heq ▸ hcompleted⟩

/-! ### When nothing can happen -/

/-- Nothing can happen but a new call. -/
def Quiet (codec : MetaCodec) (services : Services) (c : State) : Prop :=
  ∀ e : Event, e.isCall = false → RpcStream.step codec services c e = none

theorem Quiet.idle (hquiet : Quiet codec services c) (hserving : (c p).handling ≠ .serving) :
    (c p).handling = .idle := by
  cases hhandling : (c p).handling with
  | idle => rfl
  | received =>
      have hstuck := hquiet (.handle p) rfl
      rw [RpcStream.step, if_pos hhandling] at hstuck
      cases hstuck
  | serving => exact absurd hhandling hserving
  | replied =>
      have hstuck := hquiet (.returns p) rfl
      rw [RpcStream.step, if_pos hhandling] at hstuck
      cases hstuck

/-- All that was pushed has been scheduled, written, read and decoded. -/
theorem Rel.queue_eq_nil (h : Rel codec services c a) (hquiet : Quiet codec services c)
    (hidle : (c !p).handling = .idle) : (a p).queue = [] := by
  have hmatch := h.peers p
  have hcarries := h.carries p
  have hreading : (c !p).Reading := ⟨hidle, (h.peers !p).open_, (h.peers !p).survives⟩
  have hschedule : (c p).toSchedule = 0 := by
    by_contra hpos
    have hstuck := hquiet (.scheduleWrite p) rfl
    rw [RpcStream.step, if_pos (Nat.pos_of_ne_zero hpos)] at hstuck
    cases hstuck
  have hwriting : (c p).path.writing = false := by
    by_contra hbusy
    rw [Bool.not_eq_false] at hbusy
    obtain ⟨n, path, hn, hpath⟩ := hmatch.path.exists_handleWrite hbusy
    have hstuck := hquiet (.handleWrite p 0 n) rfl
    rw [RpcStream.step, if_pos hn, hpath] at hstuck
    cases hstuck
  have hchunk : (c !p).chunk = [] := by
    by_contra hne
    have hstuck := hquiet (.decode !p) rfl
    rw [RpcStream.step, if_pos ⟨hreading, hne⟩] at hstuck
    cases hstuck
  have hread : (c p).path.accepted.length ≤ (c !p).taken := by
    by_contra hlt
    have hstuck := hquiet (.handleRead (!p) 1) rfl
    rw [RpcStream.step, Bool.not_not,
      if_pos ⟨hreading, hchunk, Nat.one_pos, by decide, by omega⟩] at hstuck
    cases hstuck
  have hawaits := hcarries.awaits
  rw [hchunk, List.drop_eq_nil_of_le hread, hmatch.scheduled hschedule hwriting] at hawaits
  cases hqueue : (a p).queue with
  | nil => rfl
  | cons f fs =>
      -- a frame is not complete before its last byte
      rw [queued, hqueue] at hawaits
      obtain ⟨bs, hbs, d', hdecode, -⟩ := hawaits
      obtain ⟨rfl, -⟩ := List.append_eq_nil_iff.mp hbs.symm
      cases hdecode

theorem Rel.work_eq_zero (h : Rel codec services c a) (hquiet : Quiet codec services c)
    (hserving : ∀ p, (c p).handling ≠ .serving) : Peers.work a = 0 := by
  have hzero : ∀ p, (a p).work = 0 := by
    intro p
    have hmatch := h.peers p
    have hidle := hquiet.idle (hserving p)
    rw [Peers.Peer.work_eq_zero_iff]
    refine ⟨?_, h.queue_eq_nil hquiet (hquiet.idle (hserving !p)), hmatch.wire, ?_⟩
    · cases htoPush : (c p).toPush with
      | nil =>
          have heq := hmatch.toPush
          rw [htoPush] at heq
          exact List.map_eq_nil_iff.mp heq
      | cons m ms =>
          have hstuck := hquiet (.pushData p 0) rfl
          rw [RpcStream.step, htoPush] at hstuck
          cases hstuck
    · have hsame := hmatch.handling
      simp only [SameHandling, hidle] at hsame
      exact hsame
  rw [Peers.work_eq a false, hzero, hzero]

/-- **The calls end over the bytes.** From any state reached, what is not a new call
does not go on for ever; and when nothing else can happen and no method is running, both
tables are empty and each call has been completed once. -/
theorem run_ends {es : List Event}
    (hrun : Machine.run (RpcStream.step codec services) (fun _ => {}) es = some c) :
    (∀ f : ℕ → Event, (∀ n, (f n).isCall = false) →
      ∃ n, Machine.run (RpcStream.step codec services) c ((List.range n).map f) = none) ∧
    (Quiet codec services c → (∀ p, (c p).handling ≠ .serving) →
      ∀ p, (c p).table = [] ∧ ((c p).completed.map Prod.fst).Perm (List.range (c p).made)) := by
  obtain ⟨es', a, -, -, hrel⟩ := rel_run hrun
  constructor
  · intro f hf
    have hwf : WellFounded fun i j : ℕ ×ₗ ℕ => i < j := wellFounded_lt
    refine Machine.exists_run_eq_none (P := fun e : Event => e.isCall = false) hwf
      (fun c a => toLex (Peers.work a, bytesWork c)) ?_ hrel f hf
    intro s e s' b he h hstep
    obtain ⟨-, b', -, -, h', hprogress⟩ := h.step hstep
    exact ⟨b', h', Prod.Lex.toLex_lt_toLex.mpr (hprogress he)⟩
  · intro hquiet hserving p
    have hresolved := hrel.inv.resolved (hrel.work_eq_zero hquiet hserving) p
    have hmatch := hrel.peers p
    refine ⟨hmatch.table ▸ hresolved.table, ?_⟩
    rw [← hmatch.completed, ← hmatch.made]
    exact hresolved.once

/-- After a call and its response no read goes on for ever. -/
theorem run_ends_one_call :
    ∃ c, Machine.run (RpcStream.step MetaCodec.short
          { registered := fun p m => m = if p then 5 else 6, parses := fun _ _ _ => true })
        (fun _ => {})
        [.call false 5 100 1 [1], .pushData false 0, .scheduleWrite false, .handleWrite false 0 4,
          .handleRead true 4, .handleWrite false 0 7, .decode true, .handleRead true 7,
          .decode true, .handle true, .reply true [22], .scheduleWrite true, .returns true,
          .handleWrite true 0 9, .handleRead false 9, .decode false, .handle false] = some c ∧
      (c false).completed = [(0, [22])] ∧
      ∃ n, Machine.run (RpcStream.step MetaCodec.short
          { registered := fun p m => m = if p then 5 else 6, parses := fun _ _ _ => true }) c
        ((List.range n).map fun _ => .handleRead true 1) = none := by
  obtain ⟨c, hrun, hcompleted⟩ : ∃ c, Machine.run (RpcStream.step MetaCodec.short
          { registered := fun p m => m = if p then 5 else 6, parses := fun _ _ _ => true })
        (fun _ => {})
        [.call false 5 100 1 [1], .pushData false 0, .scheduleWrite false, .handleWrite false 0 4,
          .handleRead true 4, .handleWrite false 0 7, .decode true, .handleRead true 7,
          .decode true, .handle true, .reply true [22], .scheduleWrite true, .returns true,
          .handleWrite true 0 9, .handleRead false 9, .decode false, .handle false] = some c ∧
      (c false).completed = [(0, [22])] := ⟨_, rfl, rfl⟩
  exact ⟨c, hrun, hcompleted, (run_ends hrun).1 (fun _ => .handleRead true 1) fun _ => rfl⟩

end Tt3d.Network.RpcStream
