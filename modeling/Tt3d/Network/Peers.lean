import Tt3d.Lib.Machine
import Tt3d.Network.Frames
import Tt3d.Network.ResponseTable

/-!
Two peers that call each other's services over one connection.

Each direction is a queue of whole frames, first in, first out: what `PushData`
took, then what was written and not yet read. `CallMethod` has two steps, the
section that enters the call into the table and the push of its request. A read
frame is handled until `Handle` returns, and the next one is read only then. A
service runs `done` before its method returns.
-/

namespace Tt3d.Network.Peers

/-- A message that is sent, and the number of the call that it is for, which is not
part of the message. -/
structure Frame where
  message : MetaData
  origin : ℕ
  deriving DecidableEq, Repr

/-- Where the thread that reads is, with the call that the frame in `meta_` is for. -/
inductive Handling
  | idle
  /-- The decoder has completed a frame. -/
  | received (origin : ℕ)
  /-- A method runs, and has not run `done`. -/
  | serving (origin : ℕ)
  /-- The method has run `done`. -/
  | replied
  deriving DecidableEq, Repr

structure Peer where
  table : ResponseTable ℕ := []
  /-- The calls made, numbered from 0. -/
  made : ℕ := 0
  /-- The requests that `CallMethod` is to push. -/
  toPush : List Frame := []
  /-- The frames pushed and not written, oldest first. -/
  queue : List Frame := []
  /-- The frames written and not read by the other peer, oldest first. -/
  wire : List Frame := []
  /-- The message that the decoder holds. -/
  meta_ : MetaData := {}
  handling : Handling := .idle
  /-- The reading side gave up: a frame it cannot read or has no handler for. -/
  broken : Bool := false
  /-- The calls completed, with the responses they got. -/
  completed : List (ℕ × Bytes) := []
  /-- The calls that the other peer's services answered, with their responses. -/
  answers : List (ℕ × Bytes) := []
  deriving Repr

/-- What is registered at each peer, and which requests parse there. -/
structure Services where
  registered : Bool → UInt64 → Bool
  parses : Bool → UInt64 → Bytes → Bool

abbrev State := Bool → Peer

inductive Event
  /-- The first section of `CallMethod` at peer `p`. -/
  | call (p : Bool) (requestIdentify responseIdentify : UInt64) (seq : ℤ) (content : Bytes)
  /-- A thread in `CallMethod` pushes its request; they come in any order. -/
  | push (p : Bool) (i : ℕ)
  | write (p : Bool)
  | receive (p : Bool)
  | handle (p : Bool)
  /-- The method that runs at `p` runs `done`. -/
  | reply (p : Bool) (content : Bytes)
  | returns (p : Bool)
  deriving DecidableEq, Repr

/-- `Consume` completes the message. -/
def wellFormed (m : MetaData) : Bool :=
  !m.content.isEmpty && (m.type = .response || m.hasResponseIdentify)

/-- A well-formed message is one that the decoder takes, if its length is that of a
frame. -/
theorem accepts_of_wellFormed {codec : MetaCodec} {m : MetaData} {bytes : Bytes}
    (h : wellFormed m = true) (hbytes : codec.appendToString m = some bytes)
    (hinv : codec.Inverts m) (hpos : 1 ≤ bytes.length) (hmax : bytes.length < 2 ^ 31 - 1)
    {d : ProtobufDecoder} (hstart : d.state = .start) : Accepts codec d (encoded codec m) m := by
  simp only [wellFormed, Bool.and_eq_true, Bool.or_eq_true, Bool.not_eq_true',
    List.isEmpty_eq_false_iff, decide_eq_true_eq] at h
  refine (accepts_encoded_iff hbytes hinv (fun hrequest => ?_) hstart).mpr ⟨h.1, hpos, hmax⟩
  rcases h.2 with hresponse | hidentify
  · rw [hrequest] at hresponse
    cases hresponse
  · exact hidentify

/-- `CallMethod` of a registered method, with a request that is not empty and parses;
the response identifier it finds is not the fingerprint of a method of its own. -/
def callMethod (services : Services) (p : Bool) (x : Peer)
    (requestIdentify responseIdentify : UInt64) (seq : ℤ) (content : Bytes) : Option Peer :=
  if services.registered (!p) requestIdentify ∧ services.parses (!p) requestIdentify content ∧
      content ≠ [] then
    (x.table.searchFree (x.table.length + 1) responseIdentify seq).bind fun r =>
      if services.registered p r then none
      else
        some { x with
          table := x.table.insert r x.made
          toPush := x.toPush ++ [⟨callMethodMeta requestIdentify r content, x.made⟩]
          made := x.made + 1 }
  else none

/-- `Handle` of the frame that the decoder holds. -/
def handleFrame (services : Services) (p : Bool) (x : Peer) (origin : ℕ) : Peer :=
  if services.registered p x.meta_.identify then
    if services.parses p x.meta_.identify x.meta_.content then
      { x with handling := .serving origin }
    else { x with handling := .idle }
  else
    match x.table.find x.meta_.identify with
    | none => { x with handling := .idle, broken := true }
    | some c =>
        { x with
          table := x.table.erase x.meta_.identify
          completed := x.completed ++ [(c, x.meta_.content)]
          handling := .idle }

def step (services : Services) (s : State) : Event → Option State
  | .call p requestIdentify responseIdentify seq content =>
      (callMethod services p (s p) requestIdentify responseIdentify seq content).map
        (Function.update s p)
  | .push p i =>
      (s p).toPush[i]?.map fun f =>
        Function.update s p
          { s p with toPush := (s p).toPush.eraseIdx i, queue := (s p).queue ++ [f] }
  | .write p =>
      match (s p).queue with
      | [] => none
      | f :: queue =>
          some (Function.update s p { s p with queue := queue, wire := (s p).wire ++ [f] })
  | .receive p =>
      match (s p).handling, (s p).broken, (s !p).wire with
      | .idle, false, f :: wire =>
          let x := { s p with
            meta_ := f.message
            handling := if wellFormed f.message then .received f.origin else .idle
            broken := !wellFormed f.message }
          some (Function.update (Function.update s p x) (!p) { s !p with wire := wire })
      | _, _, _ => none
  | .handle p =>
      match (s p).handling with
      | .received origin => some (Function.update s p (handleFrame services p (s p) origin))
      | _ => none
  | .reply p content =>
      match (s p).handling with
      | .serving origin =>
          if content ≠ [] then
            let x := { s p with
              queue := (s p).queue ++ [⟨responseMeta (s p).meta_ content, origin⟩]
              handling := .replied }
            let y := { s !p with answers := (s !p).answers ++ [(origin, content)] }
            some (Function.update (Function.update s p x) (!p) y)
          else none
      | _ => none
  | .returns p =>
      if (s p).handling = .replied then
        some (Function.update s p { s p with handling := .idle })
      else none

/-! ### What is outstanding -/

/-- The frame that a peer is handling and has not answered. -/
def Peer.handled (x : Peer) : List Frame :=
  match x.handling with
  | .received origin | .serving origin => [⟨x.meta_, origin⟩]
  | .idle | .replied => []

/-- The frames of `x`, to be pushed, queued, in flight or being handled at `y`. -/
def sent (x y : Peer) : List Frame := x.toPush ++ x.queue ++ x.wire ++ y.handled

/-- The identifiers that the requests among the frames are to be answered with, and
their calls. -/
def requests (fs : List Frame) : List (UInt64 × ℕ) :=
  fs.filterMap fun f =>
    if f.message.type = .request then some (f.message.responseIdentify, f.origin) else none

/-- The identifiers of the responses among the frames, and their calls. -/
def responses (fs : List Frame) : List (UInt64 × ℕ) :=
  fs.filterMap fun f =>
    if f.message.type = .response then some (f.message.identify, f.origin) else none

/-- The calls of `x` whose request or response is on its way. -/
def outstanding (x y : Peer) : List (UInt64 × ℕ) := requests (sent x y) ++ responses (sent y x)

/-- The calls of one peer are answered. -/
structure Answered (s : State) (p : Bool) : Prop where
  unbroken : (s p).broken = false
  /-- The table has the entries of the outstanding calls and no others. -/
  table : (s p).table.Perm (outstanding (s p) (s !p))
  /-- Each call made is outstanding or completed, and that once. -/
  once : ((outstanding (s p) (s !p)).map Prod.snd ++ (s p).completed.map Prod.fst).Perm
    (List.range (s p).made)
  /-- A call is completed with the response that its request produced. -/
  own : ∀ q ∈ (s p).completed, q ∈ (s p).answers
  /-- A request produces one response. -/
  answers : ((s p).answers.map Prod.fst).Nodup

/-! ### The calls of one peer and the frames on their way

`fs` are the frames that the peer has sent, and `gs` those of the other peer.
-/

@[simp] theorem requests_cons (f : Frame) (fs : List Frame) :
    requests (f :: fs) =
      if f.message.type = .request then
        (f.message.responseIdentify, f.origin) :: requests fs
      else requests fs := by
  unfold requests
  split
  · rename_i h
    simp [h]
  · rename_i h
    simp [h]

@[simp] theorem responses_cons (f : Frame) (fs : List Frame) :
    responses (f :: fs) =
      if f.message.type = .response then (f.message.identify, f.origin) :: responses fs
      else responses fs := by
  unfold responses
  split
  · rename_i h
    simp [h]
  · rename_i h
    simp [h]

theorem requests_perm {fs fs' : List Frame} (h : fs.Perm fs') :
    (requests fs).Perm (requests fs') := h.filterMap _

theorem responses_perm {fs fs' : List Frame} (h : fs.Perm fs') :
    (responses fs).Perm (responses fs') := h.filterMap _

/-- What holds of a frame that peer `p` has sent. -/
structure Legal (services : Services) (p : Bool) (m : MetaData) : Prop where
  wellFormed : wellFormed m = true
  request : m.type = .request →
    services.registered (!p) m.identify = true ∧
      services.parses (!p) m.identify m.content = true ∧
      services.registered p m.responseIdentify = false
  response : m.type = .response → services.registered (!p) m.identify = false

structure Link (services : Services) (p : Bool) (x : Peer) (fs gs : List Frame) : Prop where
  unbroken : x.broken = false
  valid : x.table.Valid
  table : x.table.Perm (requests fs ++ responses gs)
  once : ((requests fs ++ responses gs).map Prod.snd ++ x.completed.map Prod.fst).Perm
    (List.range x.made)
  own : ∀ q ∈ x.completed, q ∈ x.answers
  answers : (x.answers.map Prod.fst).Nodup
  answered : ∀ c ∈ x.answers.map Prod.fst, c < x.made
  unanswered : ∀ e ∈ requests fs, e.2 ∉ x.answers.map Prod.fst
  responses : ∀ g ∈ gs, g.message.type = .response → (g.origin, g.message.content) ∈ x.answers
  legal : ∀ f ∈ fs, Legal services p f.message

variable {services : Services} {p : Bool} {x x' y : Peer} {f : Frame} {fs fs' gs gs' : List Frame}

theorem link_init : Link services p {} [] [] := by
  refine ⟨rfl, List.nodup_nil, List.Perm.refl _, List.Perm.refl _, ?_, List.nodup_nil, ?_, ?_, ?_,
    ?_⟩
  · simp
  · simp
  · simp [requests]
  · simp
  · simp

/-- The calls of two peers stand the same. -/
structure Same (x x' : Peer) : Prop where
  broken : x'.broken = x.broken
  table : x'.table = x.table
  made : x'.made = x.made
  completed : x'.completed = x.completed
  answers : x'.answers = x.answers

/-- Only what is in the lists matters, and not where. -/
theorem Link.move (h : Link services p x fs gs) (hfs : fs.Perm fs') (hgs : gs.Perm gs')
    (hx : Same x x') : Link services p x' fs' gs' := by
  obtain ⟨hbroken, htable, hmade, hcompleted, hanswers⟩ := hx
  have hperm := (requests_perm hfs).append (responses_perm hgs)
  refine ⟨?_, ?_, ?_, ?_, ?_, ?_, ?_, ?_, ?_, ?_⟩
  · rw [hbroken]
    exact h.unbroken
  · rw [htable]
    exact h.valid
  · rw [htable]
    exact h.table.trans hperm
  · rw [hcompleted, hmade]
    exact ((hperm.symm.map Prod.snd).append_right _).trans h.once
  · rw [hcompleted, hanswers]
    exact h.own
  · rw [hanswers]
    exact h.answers
  · rw [hanswers, hmade]
    exact h.answered
  · rw [hanswers]
    intro e he
    exact h.unanswered e ((requests_perm hfs).mem_iff.mpr he)
  · rw [hanswers]
    intro g hg
    exact h.responses g (hgs.mem_iff.mpr hg)
  · intro f hf
    exact h.legal f (hfs.mem_iff.mpr hf)

theorem Link.calls_lt (h : Link services p x fs gs) {e : UInt64 × ℕ}
    (he : e ∈ requests fs ++ Peers.responses gs) : e.2 < x.made := by
  apply List.mem_range.mp
  exact h.once.mem_iff.mp (List.mem_append_left _ (List.mem_map_of_mem he))

/-! #### A call -/

theorem Link.call {r : UInt64} (h : Link services p x fs gs) (hfree : x.table.find r = none)
    (hlegal : Legal services p f.message) (hrequest : f.message.type = .request)
    (hr : f.message.responseIdentify = r) (hf : f.origin = x.made) :
    Link services p
      { x with table := x.table.insert r x.made, toPush := x.toPush ++ [f], made := x.made + 1 }
      (f :: fs) gs := by
  have hcons : requests (f :: fs) = (r, x.made) :: requests fs := by
    rw [requests_cons, if_pos hrequest, hr, hf]
  refine ⟨h.unbroken, h.valid.insert hfree _, ?_, ?_, h.own, h.answers, ?_, ?_, h.responses, ?_⟩
  · rw [hcons]
    calc
      List.Perm (x.table.insert r x.made) (x.table ++ [(r, x.made)]) := by
        rw [ResponseTable.insert_of_find_eq_none hfree]
      List.Perm _ ((r, x.made) :: x.table) := List.perm_append_singleton _ _
      List.Perm _ ((r, x.made) :: (requests fs ++ Peers.responses gs)) := h.table.cons _
  · rw [hcons, List.range_succ]
    calc
      List.Perm _ (x.made :: List.range x.made) := h.once.cons _
      List.Perm _ (List.range x.made ++ [x.made]) := (List.perm_append_singleton _ _).symm
  · intro c hc
    exact (h.answered c hc).trans (Nat.lt_succ_self _)
  · rw [hcons]
    intro e he
    rcases List.mem_cons.mp he with rfl | he
    · -- the number of the new call is above all that were answered
      intro hmem
      exact Nat.lt_irrefl _ (h.answered _ hmem)
    · exact h.unanswered e he
  · intro f' hf'
    rcases List.mem_cons.mp hf' with rfl | hf'
    · exact hlegal
    · exact h.legal f' hf'

/-- The request of the other peer's call. -/
theorem Link.cons_request (h : Link services p x fs gs) (hrequest : f.message.type = .request) :
    Link services p x fs (f :: gs) := by
  have hcons : Peers.responses (f :: gs) = Peers.responses gs := by
    simp [hrequest]
  refine ⟨h.unbroken, h.valid, ?_, ?_, h.own, h.answers, h.answered, h.unanswered, ?_, h.legal⟩
  · rw [hcons]
    exact h.table
  · rw [hcons]
    exact h.once
  · intro g hg hresponse
    rcases List.mem_cons.mp hg with rfl | hg
    · rw [hrequest] at hresponse
      cases hresponse
    · exact h.responses g hg hresponse

/-! #### A reply

`f` is the request and `g` the response.
-/

variable {g : Frame}

theorem Link.answer (h : Link services p x (f :: fs) gs) (hrequest : f.message.type = .request)
    (hresponse : g.message.type = .response)
    (hidentify : g.message.identify = f.message.responseIdentify) (horigin : g.origin = f.origin) :
    Link services p { x with answers := x.answers ++ [(g.origin, g.message.content)] }
      fs (g :: gs) := by
  have hf : requests (f :: fs) = (f.message.responseIdentify, f.origin) :: requests fs := by
    rw [requests_cons, if_pos hrequest]
  have hg : Peers.responses (g :: gs) =
      (f.message.responseIdentify, f.origin) :: Peers.responses gs := by
    rw [responses_cons, if_pos hresponse, hidentify, horigin]
  have hperm : (requests (f :: fs) ++ Peers.responses gs).Perm
      (requests fs ++ Peers.responses (g :: gs)) := by
    rw [hf, hg]
    exact List.perm_middle.symm
  have hmem : (f.message.responseIdentify, f.origin) ∈ requests (f :: fs) := by
    rw [hf]
    exact List.mem_cons_self
  have hlt : f.origin < x.made := h.calls_lt (List.mem_append_left _ hmem)
  have hnew : f.origin ∉ x.answers.map Prod.fst := h.unanswered _ hmem
  refine ⟨h.unbroken, h.valid, h.table.trans hperm, ?_, ?_, ?_, ?_, ?_, ?_, ?_⟩
  · exact ((hperm.symm.map Prod.snd).append_right _).trans h.once
  · intro q hq
    exact List.mem_append_left _ (h.own q hq)
  · rw [List.map_append, List.map_singleton, horigin]
    exact List.nodup_append_comm.mp (List.nodup_cons.mpr ⟨hnew, h.answers⟩)
  · intro c hc
    rw [List.map_append, List.map_singleton, horigin] at hc
    rcases List.mem_append.mp hc with hc | hc
    · exact h.answered c hc
    · rw [List.mem_singleton.mp hc]
      exact hlt
  · intro e he hmem'
    rw [List.map_append, List.map_singleton, horigin] at hmem'
    rcases List.mem_append.mp hmem' with hmem' | hmem'
    · exact h.unanswered e (by rw [hf]; exact List.mem_cons_of_mem _ he) hmem'
    · -- no other request is for the call that is answered
      have hnodup := h.once.nodup_iff.mpr List.nodup_range
      rw [hf, List.cons_append, List.map_cons, List.cons_append, List.nodup_cons] at hnodup
      have heq : e.2 = f.origin := List.mem_singleton.mp hmem'
      apply hnodup.1
      show f.origin ∈ _
      rw [← heq]
      apply List.mem_append_left
      exact List.mem_map_of_mem (List.mem_append_left _ he)
  · intro g' hg' hresponse'
    rcases List.mem_cons.mp hg' with rfl | hg'
    · exact List.mem_append_right _ (List.mem_singleton_self _)
    · exact List.mem_append_left _ (h.responses g' hg' hresponse')
  · intro f' hf'
    exact h.legal f' (List.mem_cons_of_mem _ hf')

/-- The peer that answers has a frame more on the way, and no call less. -/
theorem Link.reply (h : Link services p x fs (f :: gs)) (hrequest : f.message.type = .request)
    (hresponse : g.message.type = .response) (hlegal : Legal services p g.message) :
    Link services p x (g :: fs) gs := by
  have hf : Peers.responses (f :: gs) = Peers.responses gs := by
    simp [hrequest]
  have hg : requests (g :: fs) = requests fs := by
    simp [hresponse]
  refine ⟨h.unbroken, h.valid, ?_, ?_, h.own, h.answers, h.answered, ?_, ?_, ?_⟩
  · rw [hg, ← hf]
    exact h.table
  · rw [hg, ← hf]
    exact h.once
  · rw [hg]
    exact h.unanswered
  · intro g' hg'
    exact h.responses g' (List.mem_cons_of_mem _ hg')
  · intro f' hf'
    rcases List.mem_cons.mp hf' with rfl | hf'
    · exact hlegal
    · exact h.legal f' hf'

/-! #### A response arrives -/

theorem Link.find_origin (h : Link services p x fs (f :: gs))
    (hresponse : f.message.type = .response) :
    x.table.find f.message.identify = some f.origin := by
  rw [h.valid.find_eq_some_iff, h.table.mem_iff, responses_cons, if_pos hresponse]
  exact List.mem_append_right _ List.mem_cons_self

theorem Link.complete (h : Link services p x fs (f :: gs)) (hresponse : f.message.type = .response)
    (k : Handling) :
    Link services p
      { x with
        table := x.table.erase f.message.identify
        completed := x.completed ++ [(f.origin, f.message.content)]
        handling := k } fs gs := by
  have hperm : (requests fs ++ Peers.responses (f :: gs)).Perm
      ((f.message.identify, f.origin) :: (requests fs ++ Peers.responses gs)) := by
    rw [responses_cons, if_pos hresponse]
    exact List.perm_middle
  have hmem : (f.message.identify, f.origin) ∈ x.table :=
    ResponseTable.mem_of_find (h.find_origin hresponse)
  refine ⟨h.unbroken, h.valid.erase _, ?_, ?_, ?_, h.answers, h.answered, h.unanswered, ?_,
    h.legal⟩
  · apply (List.perm_cons (f.message.identify, f.origin)).mp
    exact (h.valid.perm_cons_erase hmem).symm.trans (h.table.trans hperm)
  · have honce := ((hperm.symm.map Prod.snd).append_right _).trans h.once
    rw [List.map_cons, List.cons_append] at honce
    have hcompleted : (x.completed ++ [(f.origin, f.message.content)]).map Prod.fst =
        x.completed.map Prod.fst ++ [f.origin] := by simp
    rw [hcompleted, ← List.append_assoc]
    exact (List.perm_append_singleton _ _).trans honce
  · intro q hq
    rcases List.mem_append.mp hq with hq | hq
    · exact h.own q hq
    · rw [List.mem_singleton.mp hq]
      exact h.responses f List.mem_cons_self hresponse
  · intro g' hg'
    exact h.responses g' (List.mem_cons_of_mem _ hg')

theorem Link.of_cons_response (h : Link services p x (f :: fs) gs)
    (hresponse : f.message.type = .response) : Link services p x fs gs := by
  have hf : requests (f :: fs) = requests fs := by
    simp [hresponse]
  refine ⟨h.unbroken, h.valid, ?_, ?_, h.own, h.answers, h.answered, ?_, h.responses, ?_⟩
  · rw [← hf]
    exact h.table
  · rw [← hf]
    exact h.once
  · rw [← hf]
    exact h.unanswered
  · intro f' hf'
    exact h.legal f' (List.mem_cons_of_mem _ hf')

/-! ### The two peers together -/

/-- A method runs for a request only. -/
def Peer.Serving (x : Peer) : Prop :=
  ∀ origin, x.handling = .serving origin → x.meta_.type = .request

structure Pair (services : Services) (p : Bool) (x y : Peer) : Prop where
  link : Link services p x (sent x y) (sent y x)
  serving : x.Serving

def Inv (services : Services) (s : State) : Prop := ∀ p, Pair services p (s p) (s !p)

theorem sent_of_received {o : ℕ} (hx : x.handling = .received o) :
    (sent y x).Perm (⟨x.meta_, o⟩ :: (y.toPush ++ y.queue ++ y.wire)) := by
  rw [sent, Peer.handled, hx]
  exact List.perm_append_singleton _ _

theorem sent_of_serving {o : ℕ} (hx : x.handling = .serving o) :
    (sent y x).Perm (⟨x.meta_, o⟩ :: (y.toPush ++ y.queue ++ y.wire)) := by
  rw [sent, Peer.handled, hx]
  exact List.perm_append_singleton _ _

theorem sent_of_idle (hx : x.handling = .idle ∨ x.handling = .replied) :
    sent y x = y.toPush ++ y.queue ++ y.wire := by
  rcases hx with hx | hx
  · rw [sent, Peer.handled, hx, List.append_nil]
  · rw [sent, Peer.handled, hx, List.append_nil]

/-- A request that is pushed is on its way before and after. -/
theorem sent_push {i : ℕ} (hf : x.toPush[i]? = some f) :
    (sent x y).Perm
      (sent { x with toPush := x.toPush.eraseIdx i, queue := x.queue ++ [f] } y) := by
  obtain ⟨hi, rfl⟩ := List.getElem?_eq_some_iff.mp hf
  have htoPush := List.getElem_cons_eraseIdx_perm hi
  simp only [sent, List.append_assoc, List.singleton_append]
  refine (htoPush.symm.append_right _).trans ?_
  rw [List.cons_append, ← List.append_assoc, ← List.append_assoc (List.eraseIdx _ _)]
  exact List.perm_middle.symm

theorem sent_write {queue : List Frame} (hqueue : x.queue = f :: queue) :
    (sent x y).Perm (sent { x with queue := queue, wire := x.wire ++ [f] } y) := by
  simp only [sent, hqueue, List.append_assoc, List.singleton_append]
  apply List.Perm.append_left
  rw [List.cons_append, ← List.append_assoc, ← List.append_assoc queue]
  exact List.perm_middle.symm

theorem Inv.intro {s : State} (p : Bool) (hx : Pair services p (s p) (s !p))
    (hy : Pair services (!p) (s !p) (s p)) : Inv services s := by
  intro q
  by_cases hq : q = p
  · subst hq
    exact hx
  · obtain rfl : q = !p := by
      cases p
      · simpa using hq
      · simpa using hq
    rw [Bool.not_not]
    exact hy

variable {y' : Peer}

/-- Frames move on, and nothing else changes. -/
theorem pair_move (hx : Pair services p x y) (hy : Pair services (!p) y x)
    (hsent : (sent x y).Perm (sent x' y')) (hback : (sent y x).Perm (sent y' x'))
    (hxx : Same x x') (hyy : Same y y') (hserving : x'.Serving) (hserving' : y'.Serving) :
    Pair services p x' y' ∧ Pair services (!p) y' x' :=
  ⟨⟨hx.link.move hsent hback hxx, hserving⟩, ⟨hy.link.move hback hsent hyy, hserving'⟩⟩

theorem callMethod_eq_some {requestIdentify base : UInt64} {seq : ℤ} {content : Bytes}
    (h : callMethod services p x requestIdentify base seq content = some x') :
    ∃ r, x.table.find r = none ∧
      Legal services p (callMethodMeta requestIdentify r content) ∧
      x' = { x with
        table := x.table.insert r x.made
        toPush := x.toPush ++ [⟨callMethodMeta requestIdentify r content, x.made⟩]
        made := x.made + 1 } := by
  simp only [callMethod, Option.ite_none_right_eq_some, Option.bind_eq_some_iff] at h
  obtain ⟨⟨hregistered, hparses, hcontent⟩, r, hr, h⟩ := h
  simp only [Option.ite_none_left_eq_some, Option.some.injEq] at h
  obtain ⟨hown, rfl⟩ := h
  refine ⟨r, ResponseTable.find_searchFree hr, ⟨?_, ?_, ?_⟩, rfl⟩
  · simp [wellFormed, callMethodMeta, MetaData.content, MetaData.hasResponseIdentify, hcontent]
  · intro _
    exact ⟨hregistered, hparses, Bool.eq_false_iff.mpr hown⟩
  · intro htype
    cases htype

theorem pair_call {requestIdentify base : UInt64} {seq : ℤ} {content : Bytes}
    (hx : Pair services p x y) (hy : Pair services (!p) y x)
    (h : callMethod services p x requestIdentify base seq content = some x') :
    Pair services p x' y ∧ Pair services (!p) y x' := by
  obtain ⟨r, hfree, hlegal, rfl⟩ := callMethod_eq_some h
  have hsent : ∀ f : Frame, (f :: sent x y).Perm
      (x.toPush ++ [f] ++ x.queue ++ x.wire ++ y.handled) := by
    intro f
    simp only [sent, List.append_assoc, List.singleton_append]
    exact List.perm_middle.symm
  have hcall := hx.link.call (f := ⟨callMethodMeta requestIdentify r content, x.made⟩)
    hfree hlegal rfl rfl rfl
  have hother := hy.link.cons_request (f := ⟨callMethodMeta requestIdentify r content, x.made⟩) rfl
  exact ⟨⟨hcall.move (hsent _) (List.Perm.refl _) ⟨rfl, rfl, rfl, rfl, rfl⟩, hx.serving⟩,
    ⟨hother.move (List.Perm.refl _) (hsent _) ⟨rfl, rfl, rfl, rfl, rfl⟩, hy.serving⟩⟩

/-- The request that a method answers is off the way, and the response is on it. -/
theorem pair_reply {o : ℕ} {content : Bytes} (hx : Pair services p x y)
    (hy : Pair services (!p) y x) (hhandling : x.handling = .serving o) (hcontent : content ≠ []) :
    let x' := { x with
      queue := x.queue ++ [⟨responseMeta x.meta_ content, o⟩], handling := .replied }
    let y' := { y with answers := y.answers ++ [(o, content)] }
    Pair services p x' y' ∧ Pair services (!p) y' x' := by
  intro x' y'
  have hrequest := hx.serving o hhandling
  have hback : (sent y x).Perm (⟨x.meta_, o⟩ :: sent y' x') := by
    rw [sent_of_idle (x := x') (Or.inr rfl)]
    exact sent_of_serving hhandling
  have hsent : (⟨responseMeta x.meta_ content, o⟩ :: sent x y).Perm (sent x' y') := by
    show (_ :: (x.toPush ++ x.queue ++ x.wire ++ y.handled)).Perm
      (x.toPush ++ (x.queue ++ [_]) ++ x.wire ++ y.handled)
    simp only [List.append_assoc, List.singleton_append]
    rw [← List.append_assoc, ← List.append_assoc x.toPush]
    exact List.perm_middle.symm
  -- the caller chose the identifier so that it is no method of its own
  have hlegal : Legal services p (responseMeta x.meta_ content) := by
    have hf : Legal services (!p) x.meta_ :=
      hy.link.legal ⟨x.meta_, o⟩ (hback.mem_iff.mpr List.mem_cons_self)
    refine ⟨?_, ?_, fun _ => (hf.request hrequest).2.2⟩
    · simp [wellFormed, responseMeta, MetaData.content, MetaData.type, hcontent]
    · intro htype
      cases htype
  have hreply := (hx.link.move (List.Perm.refl _) hback ⟨rfl, rfl, rfl, rfl, rfl⟩).reply
    (g := ⟨responseMeta x.meta_ content, o⟩) hrequest rfl hlegal
  have hanswer := (hy.link.move hback (List.Perm.refl _) ⟨rfl, rfl, rfl, rfl, rfl⟩).answer
    (g := ⟨responseMeta x.meta_ content, o⟩) hrequest rfl rfl rfl
  refine ⟨⟨hreply.move hsent (List.Perm.refl _) ⟨rfl, rfl, rfl, rfl, rfl⟩, ?_⟩,
    ⟨hanswer.move (List.Perm.refl _) hsent ⟨rfl, rfl, rfl, rfl, rfl⟩, hy.serving⟩⟩
  intro o' ho'
  cases ho'

/-- A request is served, and a response finds the call that it is for. -/
theorem handleFrame_eq {o : ℕ} (hx : Pair services p x y) (hy : Pair services (!p) y x)
    (hhandling : x.handling = .received o) :
    x.meta_.type = .request ∧ handleFrame services p x o = { x with handling := .serving o } ∨
      x.meta_.type = .response ∧ handleFrame services p x o =
        { x with
          table := x.table.erase x.meta_.identify
          completed := x.completed ++ [(o, x.meta_.content)]
          handling := .idle } := by
  have hback := sent_of_received (y := y) hhandling
  have hf : Legal services (!p) x.meta_ :=
    hy.link.legal ⟨x.meta_, o⟩ (hback.mem_iff.mpr List.mem_cons_self)
  unfold handleFrame
  cases htype : x.meta_.type with
  | request =>
      have hrequest := hf.request htype
      rw [Bool.not_not] at hrequest
      rw [if_pos hrequest.1, if_pos hrequest.2.1]
      exact Or.inl ⟨rfl, rfl⟩
  | response =>
      have hresponse := hf.response htype
      rw [Bool.not_not] at hresponse
      have hfind := (hx.link.move (List.Perm.refl _) hback ⟨rfl, rfl, rfl, rfl, rfl⟩ :
        Link services p x _ _).find_origin htype
      rw [if_neg (by simp [hresponse])]
      simp only at hfind
      rw [hfind]
      exact Or.inr ⟨rfl, rfl⟩

theorem pair_handle {o : ℕ} (hx : Pair services p x y) (hy : Pair services (!p) y x)
    (hhandling : x.handling = .received o) :
    Pair services p (handleFrame services p x o) y ∧
      Pair services (!p) y (handleFrame services p x o) := by
  have hback := sent_of_received (y := y) hhandling
  obtain ⟨hrequest, heq⟩ | ⟨hresponse, heq⟩ := handleFrame_eq hx hy hhandling
  · rw [heq]
    refine pair_move hx hy (List.Perm.refl _) ?_ ?_ ?_ ?_ hy.serving
    · exact hback.trans (List.perm_append_singleton _ _).symm
    · exact ⟨rfl, rfl, rfl, rfl, rfl⟩
    · exact ⟨rfl, rfl, rfl, rfl, rfl⟩
    · intro o' _
      exact hrequest
  · rw [heq]
    have hcomplete := (hx.link.move (List.Perm.refl _) hback ⟨rfl, rfl, rfl, rfl, rfl⟩ :
      Link services p x _ _).complete hresponse .idle
    have hother := (hy.link.move hback (List.Perm.refl _) ⟨rfl, rfl, rfl, rfl, rfl⟩ :
      Link services (!p) y _ _).of_cons_response hresponse
    refine ⟨⟨?_, ?_⟩, ⟨?_, hy.serving⟩⟩
    · rw [sent_of_idle (y := y) (Or.inl rfl)]
      exact hcomplete
    · intro o' ho'
      cases ho'
    · rw [sent_of_idle (y := y) (Or.inl rfl)]
      exact hother

/-- A frame that a peer has sent is well-formed, so the decoder takes it. -/
theorem pair_receive {wire : List Frame} (hx : Pair services p x y) (hy : Pair services (!p) y x)
    (hidle : x.handling = .idle) (hwire : y.wire = f :: wire) :
    wellFormed f.message = true ∧
      Pair services p
        { x with meta_ := f.message, handling := .received f.origin, broken := false }
        { y with wire := wire } ∧
      Pair services (!p) { y with wire := wire }
        { x with meta_ := f.message, handling := .received f.origin, broken := false } := by
  have hback : (sent y x).Perm (f :: (y.toPush ++ y.queue ++ wire)) := by
    rw [sent_of_idle (Or.inl hidle), hwire]
    exact List.perm_middle
  refine ⟨(hy.link.legal f (hback.mem_iff.mpr List.mem_cons_self)).wellFormed, ?_⟩
  refine pair_move hx hy (List.Perm.refl _) ?_ ?_ ?_ ?_ hy.serving
  · exact hback.trans (List.perm_append_singleton _ _).symm
  · exact ⟨hx.link.unbroken.symm, rfl, rfl, rfl, rfl⟩
  · exact ⟨rfl, rfl, rfl, rfl, rfl⟩
  · intro o ho
    cases ho

variable {s s' : State} {e : Event}

theorem Inv.step (h : Inv services s) (hstep : Peers.step services s e = some s') :
    Inv services s' := by
  have hother : ∀ p, Pair services (!p) (s !p) (s p) := fun p => by
    have := h !p
    rwa [Bool.not_not] at this
  -- a step of one peer, then of both
  have hone : ∀ p x', Pair services p x' (s !p) ∧ Pair services (!p) (s !p) x' →
      Inv services (Function.update s p x') := by
    rintro p x' ⟨hx, hy⟩
    apply Inv.intro p
    · simpa using hx
    · simpa using hy
  have hboth : ∀ p x' y', Pair services p x' y' ∧ Pair services (!p) y' x' →
      Inv services (Function.update (Function.update s p x') (!p) y') := by
    rintro p x' y' ⟨hx, hy⟩
    apply Inv.intro p
    · simpa using hx
    · simpa using hy
  cases e with
  | call p requestIdentify base seq content =>
      simp only [Peers.step, Option.map_eq_some_iff] at hstep
      obtain ⟨x', hcall, rfl⟩ := hstep
      exact hone p x' (pair_call (h p) (hother p) hcall)
  | push p i =>
      simp only [Peers.step, Option.map_eq_some_iff] at hstep
      obtain ⟨f, hf, rfl⟩ := hstep
      apply hone p
      refine pair_move (h p) (hother p) (sent_push hf) (List.Perm.refl _) ?_ ?_ (h p).serving
        (hother p).serving
      · exact ⟨rfl, rfl, rfl, rfl, rfl⟩
      · exact ⟨rfl, rfl, rfl, rfl, rfl⟩
  | write p =>
      simp only [Peers.step] at hstep
      split at hstep
      · cases hstep
      rename_i f queue hqueue
      obtain rfl := Option.some.inj hstep
      apply hone p
      refine pair_move (h p) (hother p) (sent_write hqueue) (List.Perm.refl _) ?_ ?_ (h p).serving
        (hother p).serving
      · exact ⟨rfl, rfl, rfl, rfl, rfl⟩
      · exact ⟨rfl, rfl, rfl, rfl, rfl⟩
  | receive p =>
      simp only [Peers.step] at hstep
      split at hstep
      · rename_i f wire hidle hunbroken hwire
        obtain rfl := Option.some.inj hstep
        obtain ⟨hwell, hpairs⟩ := pair_receive (h p) (hother p) hidle hwire
        simp only [hwell, if_true, Bool.not_true]
        exact hboth p _ _ hpairs
      · cases hstep
  | handle p =>
      simp only [Peers.step] at hstep
      split at hstep
      · rename_i origin hhandling
        obtain rfl := Option.some.inj hstep
        exact hone p _ (pair_handle (h p) (hother p) hhandling)
      · cases hstep
  | reply p content =>
      simp only [Peers.step] at hstep
      split at hstep
      · rename_i origin hhandling
        split at hstep
        · rename_i hcontent
          obtain rfl := Option.some.inj hstep
          exact hboth p _ _ (pair_reply (h p) (hother p) hhandling hcontent)
        · cases hstep
      · cases hstep
  | returns p =>
      simp only [Peers.step, Option.ite_none_right_eq_some, Option.some.injEq] at hstep
      obtain ⟨hreplied, rfl⟩ := hstep
      apply hone p
      refine pair_move (h p) (hother p) (List.Perm.refl _) ?_ ?_ ?_ ?_ (hother p).serving
      · rw [sent_of_idle (Or.inr hreplied), sent_of_idle (Or.inl rfl)]
      · exact ⟨rfl, rfl, rfl, rfl, rfl⟩
      · exact ⟨rfl, rfl, rfl, rfl, rfl⟩
      · intro o ho
        cases ho

theorem inv_init : Inv services fun _ => {} := fun p =>
  ⟨link_init, fun o ho => by cases ho⟩

theorem Pair.answered {s : State} (h : Pair services p (s p) (s !p)) : Answered s p :=
  ⟨h.link.unbroken, h.link.table, h.link.once, h.link.own, h.link.answers⟩

/-- **Answers reach their calls.** Whatever the order of the steps, at both peers the
table has the outstanding calls and no others, and each call is completed at most
once, with the response that its request produced. -/
theorem run_answered {es : List Event}
    (hrun : Machine.run (step services) (fun _ => {}) es = some s) (p : Bool) : Answered s p := by
  have hinv : Inv services s :=
    Machine.run_invariant (fun t e t' h hstep => Inv.step h hstep) inv_init hrun
  exact (hinv p).answered

/-- Two calls with one response type, pushed and answered in the other order, and a
call back from inside the service. -/
theorem run_answered_two_calls :
    ∃ s, Machine.run
        (step { registered := fun p m => m = if p then 5 else 6, parses := fun _ _ _ => true })
        (fun _ => {})
        [.call false 5 100 1 [1], .call false 5 100 1 [2], .push false 1, .push false 0,
          .write false, .write false, .receive true, .handle true, .call true 6 100 3 [3],
          .reply true [22], .push true 0, .returns true, .receive true, .handle true, .write true,
          .receive false, .handle false, .reply true [11], .write true, .receive false,
          .handle false, .write true] = some s ∧
      (s false).completed = [(1, [22])] ∧ (s true).table = [(100, 0)] ∧ ∀ p, Answered s p := by
  obtain ⟨s, hrun, hcompleted, htable⟩ : ∃ s, Machine.run
        (step { registered := fun p m => m = if p then 5 else 6, parses := fun _ _ _ => true })
        (fun _ => {})
        [.call false 5 100 1 [1], .call false 5 100 1 [2], .push false 1, .push false 0,
          .write false, .write false, .receive true, .handle true, .call true 6 100 3 [3],
          .reply true [22], .push true 0, .returns true, .receive true, .handle true, .write true,
          .receive false, .handle false, .reply true [11], .write true, .receive false,
          .handle false, .write true] = some s ∧
      (s false).completed = [(1, [22])] ∧ (s true).table = [(100, 0)] := ⟨_, rfl, rfl, rfl⟩
  exact ⟨s, hrun, hcompleted, htable, run_answered hrun⟩

end Tt3d.Network.Peers
