import Tt3d.Core.Lookup8
import Tt3d.Network.Dispatch

/-!
Which method a call runs.

Both ends know a method by the fingerprint of its full name: `RegisterService` enters
the handlers under it, and `CallMethod` sends it. The services are registered before
there is a connection. The calls that a peer makes and the methods that it starts are
kept beside the peers.
-/

namespace Tt3d.Network.Registration

open Core.Lookup8 (hash8)
open Dispatch (HandlerTable serviceHandle)
open Peers (Peer sent)

/-! ### `RegisterService` -/

/-- A service, named by a number, with the full names of its methods. -/
structure Service where
  id : ℕ
  methods : List Bytes
  deriving DecidableEq, Repr

/-- What a handler is bound to. -/
structure Method where
  service : ℕ
  name : Bytes
  deriving DecidableEq, Repr

/-- A turn of the loop in `RegisterService`; the `CHECK` aborts. -/
def registerMethod (service : ℕ) (t : ResponseTable Method) (name : Bytes) :
    Option (ResponseTable Method) :=
  let methodFingerprint := hash8 name
  if (t.find methodFingerprint).isSome then none
  else some (t.insert methodFingerprint ⟨service, name⟩)

/-- `handler_table_`, made where there is none. -/
def handlers (table : HandlerTable Method) : ResponseTable Method := table.getD []

@[simp] theorem handlers_none : handlers none = [] := rfl

@[simp] theorem handlers_some (t : ResponseTable Method) : handlers (some t) = t := rfl

def registerService (table : HandlerTable Method) (service : Service) :
    Option (HandlerTable Method) :=
  (service.methods.foldlM (registerMethod service.id) (handlers table)).map some

/-- The methods of the services under their fingerprints. -/
def entries (services : List Service) : ResponseTable Method :=
  services.flatMap fun s => s.methods.map fun name => (hash8 name, ⟨s.id, name⟩)

theorem entries_append (services services' : List Service) :
    entries (services ++ services') = entries services ++ entries services' :=
  List.flatMap_append

theorem mem_entries {services : List Service} {identify : UInt64} {m : Method} :
    (identify, m) ∈ entries services ↔
      ∃ s ∈ services, s.id = m.service ∧ m.name ∈ s.methods ∧ hash8 m.name = identify := by
  simp only [entries, List.mem_flatMap, List.mem_map, Prod.mk.injEq]
  constructor
  · rintro ⟨s, hs, name, hname, rfl, rfl⟩
    exact ⟨s, hs, rfl, hname, rfl⟩
  · rintro ⟨s, hs, hid, hname, rfl⟩
    exact ⟨s, hs, m.name, hname, rfl, by rw [hid]⟩

/-- The loop goes through just when no fingerprint comes twice. -/
theorem foldlM_registerMethod (service : ℕ) (names : List Bytes) {t u : ResponseTable Method}
    (ht : t.Valid) :
    names.foldlM (registerMethod service) t = some u ↔
      u = t ++ names.map (fun name => (hash8 name, ⟨service, name⟩)) ∧ u.Valid := by
  induction names generalizing t with
  | nil =>
      simp only [List.foldlM_nil, List.map_nil, List.append_nil]
      constructor
      · rintro h
        obtain rfl := Option.some.inj h
        exact ⟨rfl, ht⟩
      · rintro ⟨rfl, -⟩
        rfl
  | cons name names ih =>
      rw [List.foldlM_cons, registerMethod]
      cases hfind : t.find (hash8 name) with
      | some m =>
          refine iff_of_false (by simp) ?_
          rintro ⟨rfl, hvalid⟩
          have hmem : hash8 name ∈ t.map Prod.fst := by
            by_contra hnot
            rw [ResponseTable.find_eq_none_iff.mpr hnot] at hfind
            cases hfind
          rw [ResponseTable.Valid, List.map_append, List.map_cons, List.map_cons] at hvalid
          exact (List.nodup_append.mp hvalid).2.2 _ hmem _ List.mem_cons_self rfl
      | none =>
          simp only [Option.isSome_none, Bool.false_eq_true, if_false, Option.bind_eq_bind,
            Option.bind_some]
          rw [ih (ht.insert hfind _), ResponseTable.insert_of_find_eq_none hfind, List.map_cons,
            List.append_assoc, List.singleton_append]

theorem registerService_eq_some_iff {table table' : HandlerTable Method} {service : Service}
    (ht : (handlers table).Valid) :
    registerService table service = some table' ↔
      table' = some (handlers table ++ entries [service]) ∧ (handlers table').Valid := by
  have hentries : entries [service] =
      service.methods.map fun name => (hash8 name, ⟨service.id, name⟩) := by
    simp [entries]
  rw [registerService, Option.map_eq_some_iff, hentries]
  constructor
  · rintro ⟨u, hu, rfl⟩
    obtain ⟨rfl, hvalid⟩ := (foldlM_registerMethod _ _ ht).mp hu
    exact ⟨rfl, hvalid⟩
  · rintro ⟨rfl, hvalid⟩
    exact ⟨_, (foldlM_registerMethod _ _ ht).mpr ⟨rfl, hvalid⟩, rfl⟩

theorem run_registerService_from {table table' : HandlerTable Method} {services : List Service}
    (ht : (handlers table).Valid) :
    Machine.run registerService table services = some table' ↔
      table' = (if services = [] then table else some (handlers table ++ entries services)) ∧
        (handlers table').Valid := by
  induction services generalizing table with
  | nil =>
      simp only [Machine.run_nil, Option.some.injEq, if_true]
      constructor
      · rintro rfl
        exact ⟨rfl, ht⟩
      · rintro ⟨rfl, -⟩
        rfl
  | cons service services ih =>
      have hcons : entries (service :: services) = entries [service] ++ entries services :=
        entries_append [service] services
      rw [Machine.run_cons_eq_some, if_neg (by simp), hcons, ← List.append_assoc]
      constructor
      · rintro ⟨u, hu, hrest⟩
        obtain ⟨rfl, hvalid⟩ := (registerService_eq_some_iff ht).mp hu
        obtain ⟨rfl, hvalid'⟩ := (ih hvalid).mp hrest
        refine ⟨?_, hvalid'⟩
        split
        · rename_i hnil
          simp [hnil, entries]
        · rfl
      · rintro ⟨rfl, hvalid⟩
        have hfirst : (handlers (some (handlers table ++ entries [service]))).Valid :=
          hvalid.sublist ((List.sublist_append_left _ _).map _)
        refine ⟨_, (registerService_eq_some_iff ht).mpr ⟨rfl, hfirst⟩, ?_⟩
        refine (ih hfirst).mpr ⟨?_, hvalid⟩
        split
        · rename_i hnil
          simp [hnil, entries]
        · rfl

/-- The registrations go through just when the fingerprints of all methods differ; then
the table has all methods under their fingerprints. -/
theorem run_registerService_eq_some_iff {services : List Service} {table : HandlerTable Method} :
    Machine.run registerService none services = some table ↔
      table = (if services = [] then none else some (entries services)) ∧
        (entries services).Valid := by
  have hempty : (handlers none).Valid := List.nodup_nil
  rw [run_registerService_from hempty]
  refine and_congr_right fun htable => ?_
  rw [htable]
  split
  · rename_i hnil
    simp [hnil, entries]
  · rfl

/-- The method whose handler runs for an identifier. -/
def lookup (table : HandlerTable Method) (identify : UInt64) : Option Method :=
  table.bind fun t => ResponseTable.find t identify

theorem serviceHandle_eq_lookup (table : HandlerTable Method) (m : MetaData) :
    serviceHandle table m = lookup table m.identify := rfl

theorem lookup_eq_some_iff {services : List Service} {table : HandlerTable Method}
    (htable : Machine.run registerService none services = some table) {identify : UInt64}
    {m : Method} :
    lookup table identify = some m ↔
      ∃ s ∈ services, s.id = m.service ∧ m.name ∈ s.methods ∧ hash8 m.name = identify := by
  obtain ⟨rfl, hvalid⟩ := run_registerService_eq_some_iff.mp htable
  rw [← mem_entries]
  split
  · rename_i hnil
    simp [hnil, lookup, entries]
  · exact hvalid.find_eq_some_iff

/-- A registered method is found by its name. -/
theorem lookup_hash8 {services : List Service} {table : HandlerTable Method}
    (htable : Machine.run registerService none services = some table) {s : Service}
    (hs : s ∈ services) {name : Bytes} (hname : name ∈ s.methods) :
    lookup table (hash8 name) = some ⟨s.id, name⟩ :=
  (lookup_eq_some_iff htable).mpr ⟨s, hs, rfl, hname, rfl⟩

/-! ### Calls and the methods they start -/

/-- A method that has been started, by the number of the call, with its request. -/
structure Start where
  call : ℕ
  method : Method
  request : Bytes
  deriving DecidableEq, Repr

structure State where
  peers : Peers.State := fun _ => {}
  /-- The names and requests of the calls that a peer has made. -/
  calls : Bool → List (Bytes × Bytes) := fun _ => []
  /-- The methods that have been started at a peer. -/
  starts : Bool → List Start := fun _ => []

inductive Event
  /-- `CallMethod`, by the full names of the method and of its response type. -/
  | call (p : Bool) (method response : Bytes) (seq : ℤ) (content : Bytes)
  | push (p : Bool) (i : ℕ)
  | write (p : Bool)
  | receive (p : Bool)
  | handle (p : Bool)
  | reply (p : Bool) (content : Bytes)
  | returns (p : Bool)
  deriving DecidableEq, Repr

def Event.toPeers : Event → Peers.Event
  | .call p method response seq content => .call p (hash8 method) (hash8 response) seq content
  | .push p i => .push p i
  | .write p => .write p
  | .receive p => .receive p
  | .handle p => .handle p
  | .reply p content => .reply p content
  | .returns p => .returns p

section Machine

variable (tables : Bool → HandlerTable Method) (parses : Method → Bytes → Bool)

def services : Peers.Services where
  registered p identify := (lookup (tables p) identify).isSome
  parses p identify content := (lookup (tables p) identify).any fun m => parses m content

/-- The method that `Handle` of the frame in `meta_` starts. -/
def started (table : HandlerTable Method) (x : Peer) : List Start :=
  match x.handling, serviceHandle table x.meta_ with
  | .received c, some m =>
      if parses m x.meta_.content then [⟨c, m, x.meta_.content⟩] else []
  | _, _ => []

def step (s : State) (e : Event) : Option State :=
  (Peers.step (services tables parses) s.peers e.toPeers).map fun peers =>
    { peers := peers
      calls := match e with
        | .call p method _ _ content =>
            Function.update s.calls p (s.calls p ++ [(method, content)])
        | _ => s.calls
      starts := match e with
        | .handle p =>
            Function.update s.starts p
              (s.starts p ++ started parses (tables p) (s.peers p))
        | _ => s.starts }

end Machine

/-- The call whose method runs. -/
def current (y : Peer) : List ℕ :=
  match y.handling with
  | .serving c => [c]
  | _ => []

/-- The calls of `x` and the methods that they have started at `y`. -/
structure Traced (table : HandlerTable Method) (calls : List (Bytes × Bytes))
    (starts : List Start) (x y : Peer) : Prop where
  made : calls.length = x.made
  requests : ∀ f ∈ sent x y, f.message.type = .request → ∃ name,
    calls[f.origin]? = some (name, f.message.content) ∧ f.message.identify = hash8 name
  named : ∀ st ∈ starts, ∃ name,
    calls[st.call]? = some (name, st.request) ∧ lookup table (hash8 name) = some st.method
  order : starts.map Start.call = x.answers.map Prod.fst ++ current y

section Traced

variable {table : HandlerTable Method} {calls : List (Bytes × Bytes)} {starts : List Start}
  {x x' y y' : Peer}

theorem traced_init (table : HandlerTable Method) : Traced table [] [] {} {} :=
  ⟨rfl, by simp [sent, Peer.handled], by simp, rfl⟩

/-- Requests move on, and no call is made, started or answered. -/
theorem Traced.move (h : Traced table calls starts x y) (hmade : x'.made = x.made)
    (hrequests : ∀ f ∈ sent x' y', f.message.type = .request → f ∈ sent x y)
    (hanswers : x'.answers = x.answers) (hcurrent : current y' = current y) :
    Traced table calls starts x' y' := by
  refine ⟨h.made.trans hmade.symm, fun f hf htype => h.requests f (hrequests f hf htype) htype,
    h.named, ?_⟩
  rw [hanswers, hcurrent]
  exact h.order

theorem Traced.call {name content : Bytes} {r : UInt64} (h : Traced table calls starts x y) :
    Traced table (calls ++ [(name, content)]) starts
      { x with
        table := x.table.insert r x.made
        toPush := x.toPush ++ [⟨callMethodMeta (hash8 name) r content, x.made⟩]
        made := x.made + 1 } y := by
  have hold : ∀ {c : ℕ} {e : Bytes × Bytes}, calls[c]? = some e →
      (calls ++ [(name, content)])[c]? = some e := by
    intro c e hc
    rw [List.getElem?_append_left (List.getElem?_eq_some_iff.mp hc).1]
    exact hc
  refine ⟨by simp [h.made], ?_, ?_, h.order⟩
  · intro f hf htype
    simp only [sent, List.mem_append, List.mem_singleton] at hf
    have hcase : f ∈ sent x y ∨ f = ⟨callMethodMeta (hash8 name) r content, x.made⟩ := by
      simp only [sent, List.mem_append]
      tauto
    rcases hcase with hf | rfl
    · obtain ⟨name', hcall, hidentify⟩ := h.requests f hf htype
      exact ⟨name', hold hcall, hidentify⟩
    · refine ⟨name, ?_, rfl⟩
      rw [← h.made, List.getElem?_concat_length]
      rfl
  · intro st hst
    obtain ⟨name', hcall, hlookup⟩ := h.named st hst
    exact ⟨name', hold hcall, hlookup⟩

/-- `Handle` starts the method that the request names. -/
theorem Traced.start {c : ℕ} {m : Method} (h : Traced table calls starts x y)
    (hhandling : y.handling = .received c) (htype : y.meta_.type = .request)
    (hlookup : lookup table y.meta_.identify = some m) :
    Traced table calls (starts ++ [⟨c, m, y.meta_.content⟩]) x
      { y with handling := .serving c } := by
  have hcurrent : current y = [] := by rw [current, hhandling]
  have hsame : sent x { y with handling := .serving c } = sent x y := by
    simp [sent, Peer.handled, hhandling]
  refine ⟨h.made, ?_, ?_, ?_⟩
  · rw [hsame]
    exact h.requests
  · intro st hst
    rw [List.mem_append, List.mem_singleton] at hst
    rcases hst with hst | rfl
    · exact h.named st hst
    · have hmem : (⟨y.meta_, c⟩ : Peers.Frame) ∈ sent x y := by
        simp [sent, Peer.handled, hhandling]
      obtain ⟨name, hcall, hidentify⟩ := h.requests _ hmem htype
      exact ⟨name, hcall, by rw [← hidentify, hlookup]⟩
  · rw [List.map_append, h.order, hcurrent, List.append_nil]
    rfl

/-- The method that runs runs `done`. -/
theorem Traced.answer {c : ℕ} {content : Bytes} {fs : List Peers.Frame}
    (h : Traced table calls starts x y) (hhandling : y.handling = .serving c) :
    Traced table calls starts { x with answers := x.answers ++ [(c, content)] }
      { y with queue := fs, handling := .replied } := by
  refine ⟨h.made, ?_, h.named, ?_⟩
  · intro f hf
    apply h.requests f
    simp only [sent, List.mem_append, Peer.handled, List.not_mem_nil, or_false] at hf ⊢
    exact Or.inl hf
  · rw [h.order, current, hhandling]
    simp [current]

end Traced

structure Good (tables : Bool → HandlerTable Method) (parses : Method → Bytes → Bool)
    (s : State) : Prop where
  peers : Peers.Inv (services tables parses) s.peers
  traced : ∀ p, Traced (tables !p) (s.calls p) (s.starts !p) (s.peers p) (s.peers !p)

section Good

variable {tables : Bool → HandlerTable Method} {parses : Method → Bytes → Bool} {s s' : State}
  {e : Event}

theorem good_init (tables : Bool → HandlerTable Method) (parses : Method → Bytes → Bool) :
    Good tables parses {} :=
  ⟨Peers.inv_init, fun _ => traced_init _⟩

theorem Good.back (h : Good tables parses s) (p : Bool) :
    Traced (tables p) (s.calls !p) (s.starts p) (s.peers !p) (s.peers p) := by
  have hback := h.traced !p
  rwa [Bool.not_not] at hback

theorem Good.intro (p : Bool) (hpeers : Peers.Inv (services tables parses) s.peers)
    (hthere : Traced (tables !p) (s.calls p) (s.starts !p) (s.peers p) (s.peers !p))
    (hback : Traced (tables p) (s.calls !p) (s.starts p) (s.peers !p) (s.peers p)) :
    Good tables parses s := by
  refine ⟨hpeers, fun q => ?_⟩
  by_cases hq : q = p
  · rwa [hq]
  · obtain rfl : q = !p := by
      cases p
      · simpa using hq
      · simpa using hq
    rwa [Bool.not_not]

section Peers

variable {peers : Peers.State} {calls : Bool → List (Bytes × Bytes)} {starts : Bool → List Start}
  {p : Bool} {x y : Peer}

/-- A step of one peer. -/
theorem Good.one (hpeers : Peers.Inv (services tables parses) (Function.update peers p x))
    (hthere : Traced (tables !p) (calls p) (starts !p) x (peers !p))
    (hback : Traced (tables p) (calls !p) (starts p) (peers !p) x) :
    Good tables parses ⟨Function.update peers p x, calls, starts⟩ := by
  apply Good.intro p hpeers
  · simpa using hthere
  · simpa using hback

/-- A step of both. -/
theorem Good.both
    (hpeers : Peers.Inv (services tables parses)
      (Function.update (Function.update peers p x) (!p) y))
    (hthere : Traced (tables !p) (calls p) (starts !p) x y)
    (hback : Traced (tables p) (calls !p) (starts p) y x) :
    Good tables parses ⟨Function.update (Function.update peers p x) (!p) y, calls, starts⟩ := by
  apply Good.intro p hpeers
  · simpa using hthere
  · simpa using hback

end Peers

theorem Good.other (h : Good tables parses s) (p : Bool) :
    Peers.Pair (services tables parses) (!p) (s.peers !p) (s.peers p) := by
  have hother := h.peers !p
  rwa [Bool.not_not] at hother

/-- `Handle` of a request starts its method, and `Handle` of a response none. -/
theorem Good.handle (h : Good tables parses s) {p : Bool} {c : ℕ}
    (hhandling : (s.peers p).handling = .received c) :
    Traced (tables !p) (s.calls p) (s.starts !p)
        (Peers.handleFrame (services tables parses) p (s.peers p) c) (s.peers !p) ∧
      Traced (tables p) (s.calls !p)
        (s.starts p ++ started parses (tables p) (s.peers p)) (s.peers !p)
        (Peers.handleFrame (services tables parses) p (s.peers p) c) := by
  have hmem : (⟨(s.peers p).meta_, c⟩ : Peers.Frame) ∈ sent (s.peers !p) (s.peers p) := by
    simp [sent, Peer.handled, hhandling]
  have hlegal := (h.other p).link.legal _ hmem
  obtain ⟨hrequest, heq⟩ | ⟨hresponse, heq⟩ :=
    Peers.handleFrame_eq (h.peers p) (h.other p) hhandling
  · rw [heq]
    obtain ⟨hregistered, hparses, -⟩ := hlegal.request hrequest
    simp only [services, Bool.not_not] at hregistered hparses
    obtain ⟨m, hm⟩ := Option.isSome_iff_exists.mp hregistered
    have hstarted : started parses (tables p) (s.peers p) =
        [⟨c, m, (s.peers p).meta_.content⟩] := by
      rw [hm, Option.any_some] at hparses
      rw [started, hhandling, serviceHandle_eq_lookup, hm]
      exact if_pos hparses
    rw [hstarted]
    exact ⟨(h.traced p).move rfl (fun f hf _ => hf) rfl rfl,
      (h.back p).start hhandling hrequest hm⟩
  · rw [heq]
    have hnone : lookup (tables p) (s.peers p).meta_.identify = none := by
      simpa [services] using hlegal.response hresponse
    have hstarted : started parses (tables p) (s.peers p) = [] := by
      rw [started, hhandling, serviceHandle_eq_lookup, hnone]
    rw [hstarted, List.append_nil]
    refine ⟨(h.traced p).move rfl (fun f hf _ => hf) rfl rfl,
      (h.back p).move rfl (fun f hf _ => ?_) rfl ?_⟩
    · simp only [sent, Peer.handled, List.mem_append, List.not_mem_nil, or_false] at hf ⊢
      exact Or.inl hf
    · rw [current, current, hhandling]

theorem Good.step (h : Good tables parses s)
    (hstep : Registration.step tables parses s e = some s') : Good tables parses s' := by
  obtain ⟨peers, hpeers, rfl⟩ := Option.map_eq_some_iff.mp hstep
  have hinv : Peers.Inv (services tables parses) peers := h.peers.step hpeers
  cases e with
  | call p name response seq content =>
      simp only [Event.toPeers, Peers.step, Option.map_eq_some_iff] at hpeers
      obtain ⟨x', hcall, rfl⟩ := hpeers
      obtain ⟨r, -, -, rfl⟩ := Peers.callMethod_eq_some hcall
      apply Good.one hinv
      · simpa using (h.traced p).call
      · dsimp only
        rw [Function.update_of_ne (by simp)]
        exact (h.back p).move rfl (fun f hf _ => hf) rfl rfl
  | push p i =>
      simp only [Event.toPeers, Peers.step, Option.map_eq_some_iff] at hpeers
      obtain ⟨f, hf, rfl⟩ := hpeers
      apply Good.one hinv
      · have hsent := Peers.sent_push (y := s.peers !p) hf
        exact (h.traced p).move rfl (fun f hf _ => hsent.mem_iff.mpr hf) rfl rfl
      · exact (h.back p).move rfl (fun f hf _ => hf) rfl rfl
  | write p =>
      simp only [Event.toPeers, Peers.step] at hpeers
      split at hpeers
      · cases hpeers
      rename_i f queue hqueue
      obtain rfl := Option.some.inj hpeers
      apply Good.one hinv
      · have hsent := Peers.sent_write (y := s.peers !p) hqueue
        exact (h.traced p).move rfl (fun f hf _ => hsent.mem_iff.mpr hf) rfl rfl
      · exact (h.back p).move rfl (fun f hf _ => hf) rfl rfl
  | receive p =>
      simp only [Event.toPeers, Peers.step] at hpeers
      split at hpeers
      swap
      · cases hpeers
      rename_i f wire hidle hunbroken hwire
      obtain rfl := Option.some.inj hpeers
      obtain ⟨hwell, -⟩ := Peers.pair_receive (h.peers p) (h.other p) hidle hwire
      simp only [hwell, if_true, Bool.not_true] at hinv ⊢
      apply Good.both hinv
      · exact (h.traced p).move rfl (fun f hf _ => hf) rfl rfl
      · refine (h.back p).move rfl (fun g hg _ => ?_) rfl ?_
        · simp only [sent, Peer.handled, hwire, List.mem_append, List.mem_cons,
            List.not_mem_nil, or_false] at hg ⊢
          tauto
        · rw [current, current, hidle]
  | handle p =>
      simp only [Event.toPeers, Peers.step] at hpeers
      split at hpeers
      swap
      · cases hpeers
      rename_i c hhandling
      obtain rfl := Option.some.inj hpeers
      apply Good.one hinv
      · dsimp only
        rw [Function.update_of_ne (by simp)]
        exact (h.handle hhandling).1
      · dsimp only
        rw [Function.update_self]
        exact (h.handle hhandling).2
  | reply p content =>
      simp only [Event.toPeers, Peers.step] at hpeers
      split at hpeers
      swap
      · cases hpeers
      rename_i c hhandling
      split at hpeers
      swap
      · cases hpeers
      obtain rfl := Option.some.inj hpeers
      apply Good.both hinv
      · refine (h.traced p).move rfl (fun f hf htype => ?_) rfl rfl
        simp only [sent, List.mem_append, List.mem_singleton] at hf
        have hne : f ≠ ⟨responseMeta (s.peers p).meta_ content, c⟩ := by
          rintro rfl
          cases htype
        simp only [sent, List.mem_append]
        tauto
      · exact (h.back p).answer hhandling
  | returns p =>
      simp only [Event.toPeers, Peers.step, Option.ite_none_right_eq_some,
        Option.some.injEq] at hpeers
      obtain ⟨hreplied, rfl⟩ := hpeers
      apply Good.one hinv
      · exact (h.traced p).move rfl (fun f hf _ => hf) rfl rfl
      · refine (h.back p).move rfl ?_ rfl ?_
        · rw [Peers.sent_of_idle (Or.inr hreplied), Peers.sent_of_idle (Or.inl rfl)]
          exact fun f hf _ => hf
        · rw [current, current, hreplied]

theorem good_run {es : List Event}
    (hrun : Machine.run (Registration.step tables parses) {} es = some s) : Good tables parses s :=
  Machine.run_invariant (fun _ _ _ h hstep => h.step hstep) (good_init tables parses) hrun

/-- No call starts a method twice. -/
theorem Good.nodup_starts (h : Good tables parses s) (p : Bool) :
    ((s.starts !p).map Start.call).Nodup := by
  have hlink := (h.peers p).link
  rw [(h.traced p).order]
  refine hlink.answers.append ?_ ?_
  · unfold current
    split
    · exact List.nodup_singleton _
    · exact List.nodup_nil
  · intro c hanswered hcurrent
    unfold current at hcurrent
    split at hcurrent
    swap
    · exact absurd hcurrent List.not_mem_nil
    rename_i c' hserving
    obtain rfl := List.mem_singleton.mp hcurrent
    -- its request is still on its way
    have hmem : (⟨(s.peers !p).meta_, c⟩ : Peers.Frame) ∈ sent (s.peers p) (s.peers !p) := by
      simp [sent, Peer.handled, hserving]
    have htype := (h.other p).serving c hserving
    have hrequest : ((s.peers !p).meta_.responseIdentify, c) ∈
        Peers.requests (sent (s.peers p) (s.peers !p)) :=
      List.mem_filterMap.mpr ⟨_, hmem, by simp [htype]⟩
    exact hlink.unanswered _ hrequest hanswered

/-- **A call runs the method that it names.** Whatever the order of the steps, a method
that runs for a call has the request of the call and the fingerprint of the name that the
call was made by; it is the method of that name, where one is registered at the peer. No
call starts a method twice, and one that has been completed has started its method, and
has been completed with what this one answered. -/
theorem run_starts {registered : Bool → List Service}
    (htables : ∀ p, Machine.run registerService none (registered p) = some (tables p))
    {es : List Event} (hrun : Machine.run (Registration.step tables parses) {} es = some s)
    (p : Bool) :
    (∀ st ∈ s.starts !p, ∃ name, (s.calls p)[st.call]? = some (name, st.request) ∧
      hash8 st.method.name = hash8 name ∧
      (∃ service ∈ registered !p,
        service.id = st.method.service ∧ st.method.name ∈ service.methods) ∧
      ∀ service ∈ registered !p, name ∈ service.methods → st.method = ⟨service.id, name⟩) ∧
    ((s.starts !p).map Start.call).Nodup ∧
    (∀ q ∈ (s.peers p).completed,
      q ∈ (s.peers p).answers ∧ q.1 ∈ (s.starts !p).map Start.call) ∧
    ((s.peers p).completed.map Prod.fst).Nodup := by
  have h := good_run hrun
  have hlink := (h.peers p).link
  refine ⟨fun st hst => ?_, h.nodup_starts p, fun q hq => ⟨hlink.own q hq, ?_⟩, ?_⟩
  · obtain ⟨name, hcall, hlookup⟩ := (h.traced p).named st hst
    obtain ⟨service, hservice, hid, hname, hhash⟩ :=
      (lookup_eq_some_iff (htables _)).mp hlookup
    refine ⟨name, hcall, hhash, ⟨service, hservice, hid, hname⟩, fun service' hs hmethod => ?_⟩
    have hregistered := lookup_hash8 (htables _) hs hmethod
    exact Option.some.inj (hlookup.symm.trans hregistered)
  · rw [(h.traced p).order]
    exact List.mem_append_left _ (List.mem_map_of_mem (hlink.own q hq))
  · have hnodup := hlink.once.nodup_iff.mpr List.nodup_range
    exact (List.nodup_append.mp hnodup).2.1

/-- Two services with one method each, and a call of the second. -/
theorem run_starts_two_services :
    ∃ table s, Machine.run registerService none [⟨1, [[97]]⟩, ⟨2, [[98, 99]]⟩] = some table ∧
      Machine.run (Registration.step (fun _ => table) fun _ _ => true) {}
        [.call false [98, 99] [100] 1 [7], .push false 0, .write false, .receive true,
          .handle true, .reply true [8], .write true, .receive false, .handle false] = some s ∧
      s.starts true = [⟨0, ⟨2, [98, 99]⟩, [7]⟩] ∧ (s.peers false).completed = [(0, [8])] ∧
      ((s.starts true).map Start.call).Nodup := by
  have htable : Machine.run registerService none [⟨1, [[97]]⟩, ⟨2, [[98, 99]]⟩] =
      some (some (entries [⟨1, [[97]]⟩, ⟨2, [[98, 99]]⟩])) := by decide +kernel
  have hshown : (Machine.run (Registration.step
      (fun _ => some (entries [⟨1, [[97]]⟩, ⟨2, [[98, 99]]⟩])) fun _ _ => true) {}
        [.call false [98, 99] [100] 1 [7], .push false 0, .write false, .receive true,
          .handle true, .reply true [8], .write true, .receive false, .handle false]).map
        (fun s => (s.starts true, (s.peers false).completed)) =
      some ([⟨0, ⟨2, [98, 99]⟩, [7]⟩], [(0, [8])]) := by decide +kernel
  obtain ⟨s, hs, hvalues⟩ := Option.map_eq_some_iff.mp hshown
  obtain ⟨hstarts, hcompleted⟩ := Prod.mk.inj hvalues
  exact ⟨_, s, htable, hs, hstarts, hcompleted, (run_starts (fun _ => htable) hs false).2.1⟩

end Good

end Tt3d.Network.Registration
