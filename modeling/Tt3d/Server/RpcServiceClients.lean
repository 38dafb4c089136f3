import Mathlib.Data.List.Lemmas
import Tt3d.Core.Coordinate
import Tt3d.Lib.FirstSeen
import Tt3d.Lib.MachineInt
import Tt3d.Server.ConcurrentContainer

/-!
`RpcServiceClients`: the requests `Register` and `RegisterViewport`.

The clients are allocated one after another and named by the number of the allocation;
one that `Add` rejects stays in the memory and is not referred to any more. The default
constructor of `ThreeDCoordinate` makes the position of a new viewport, and the request
is written over it.
-/

namespace Tt3d.Server

open Tt3d.Core (Fault Coordinate ThreeDCoordinate)
open MachineInt (toInt)

inductive ViewSize
  | small
  | medium
  | large
  deriving DecidableEq, Repr

/-- The values of `EViewSize`. -/
def ViewSize.value : ViewSize → ℕ
  | .small => 1
  | .medium => 2
  | .large => 3

structure ViewPort where
  name : String
  pos : ThreeDCoordinate ℤ := {}
  direction : ThreeDCoordinate ℤ := {}
  /-- The union of `evs` and `ivs`, which the constructor leaves as it is. -/
  viewsize : Option ℕ := none
  deriving DecidableEq, Repr

structure Client where
  login : String
  password : String := ""
  viewports : List (String × ViewPort) := []
  deriving DecidableEq, Repr

/-- `viewports[ name ] = viewport`. -/
def setViewport (viewports : List (String × ViewPort)) (name : String) (viewport : ViewPort) :
    List (String × ViewPort) :=
  if name ∈ viewports.map Prod.fst then
    viewports.map fun e => if e.1 = name then (name, viewport) else e
  else viewports ++ [(name, viewport)]

structure GeneralResponse where
  code : ℕ := 0
  text : Option String := none
  close : Bool := false
  deriving DecidableEq, Repr

structure ClientRequest where
  login : String
  password : Option String := none
  deriving DecidableEq, Repr

structure ClientResponse where
  response : GeneralResponse
  clientid : Option UInt32 := none
  deriving DecidableEq, Repr

structure Viewport where
  name : String
  x : UInt32
  y : UInt32
  viewsize : Option ViewSize := none
  iviewsize : Option UInt32 := none
  deriving DecidableEq, Repr

structure RegisterViewportRequest where
  clientid : UInt32
  viewport : Viewport
  deriving DecidableEq, Repr

structure RegisterViewportResponse where
  response : GeneralResponse
  viewportid : Option UInt32 := none
  deriving DecidableEq, Repr

structure Game where
  /-- The clients allocated. -/
  memory : List Client := []
  clients : ConcurrentContainer ℕ := {}
  deriving DecidableEq, Repr

namespace Game

/-- `client->login`. -/
def login (memory : List Client) (client : ℕ) : Option String :=
  (memory[client]?).map Client.login

def register (g : Game) (request : ClientRequest) : Game × ClientResponse :=
  let new : Client := { login := request.login, password := request.password.getD "" }
  let memory := g.memory ++ [new]
  let added := g.clients.add (Clients.isUniqueLogin (login memory)) g.memory.length
  let userID := toInt added.2
  ({ memory := memory, clients := added.1 },
    if userID = 0 then
      { response := { code := 1, text := some "Failed to add client", close := true } }
    else { response := {}, clientid := some (UInt32.ofInt userID) })

/-- The writes to the position of the new viewport. -/
def writePos (pos : ThreeDCoordinate ℤ) (x y : ℤ) : Except Fault (ThreeDCoordinate ℤ) :=
  (pos.setX x).bind fun pos => pos.setY y

/-- `RegisterViewport`, with the writes to the position as a parameter. -/
def registerViewportWith
    (write : ThreeDCoordinate ℤ → (x y : ℤ) → Except Fault (ThreeDCoordinate ℤ)) (g : Game)
    (request : RegisterViewportRequest) : Except Fault (Game × RegisterViewportResponse) :=
  match g.clients.get request.clientid.toNat with
  | none => .ok (g, { response := { code := 1 } })
  | some client =>
      let viewport : ViewPort := { name := request.viewport.name }
      (write viewport.pos (toInt request.viewport.x.toNat) (toInt request.viewport.y.toNat)).map
        fun pos =>
          let evs := request.viewport.viewsize.map ViewSize.value
          let ivs := request.viewport.iviewsize.map UInt32.toNat
          let viewport := { viewport with pos := pos, viewsize := ivs.or evs }
          let viewports :=
            setViewport (((g.memory[client]?).map Client.viewports).getD []) viewport.name viewport
          ({ g with memory := g.memory.modify client fun c => { c with viewports := viewports } },
            { response := {}, viewportid := some (UInt32.ofNat viewports.length) })

def registerViewport (g : Game) (request : RegisterViewportRequest) :
    Except Fault (Game × RegisterViewportResponse) := g.registerViewportWith writePos request

end Game

/-! ### The identifiers of the viewports -/

namespace Viewports

open FirstSeen (seen Grouped)

/-- A successful `RegisterViewport`: for which client, under which name, and the identifier
that it was answered with. -/
structure Registered where
  client : ℕ
  name : String
  viewportid : UInt32
  deriving DecidableEq, Repr

structure State where
  game : Game := {}
  /-- The successful requests, oldest first. -/
  registered : List Registered := []
  deriving DecidableEq, Repr

inductive Event
  | register (request : ClientRequest)
  | registerViewport (request : RegisterViewportRequest)
  deriving DecidableEq, Repr

/-- The successful requests for one client. -/
def State.registeredFor (s : State) (client : ℕ) : List Registered :=
  s.registered.filter fun r => r.client = client

def State.namesFor (s : State) (client : ℕ) : List String :=
  (s.registeredFor client).map Registered.name

-- What the writes to the position make of it; they succeed.
variable (write : ThreeDCoordinate ℤ → (x y : ℤ) → ThreeDCoordinate ℤ)

/-- The requests of any clients, in their order. -/
def step (s : State) : Event → Option State
  | .register request => some { s with game := (s.game.register request).1 }
  | .registerViewport request =>
      match s.game.registerViewportWith (fun pos x y => .ok (write pos x y)) request with
      | .error _ => none
      | .ok (game, response) =>
          match s.game.clients.get request.clientid.toNat, response.viewportid with
          | some client, some viewportid =>
              some { game := game
                     registered := s.registered ++ [⟨client, request.viewport.name, viewportid⟩] }
          | _, _ => some { s with game := game }

/-- The map of a client has the names requested for it as its keys, and every identifier
is the size that the map had. -/
structure Counted (s : State) : Prop where
  stored : ∀ c ∈ s.game.clients.mItems, c < s.game.memory.length
  fresh : ∀ r ∈ s.registered, r.client < s.game.memory.length
  nodup : ∀ (c : ℕ) (client : Client), s.game.memory[c]? = some client →
    (client.viewports.map Prod.fst).Nodup
  keys : ∀ (c : ℕ) (client : Client), s.game.memory[c]? = some client →
    (client.viewports.map Prod.fst).toFinset = (s.namesFor c).toFinset
  ids : ∀ (c i : ℕ) (r : Registered), (s.registeredFor c)[i]? = some r →
    r.viewportid = UInt32.ofNat (seen (s.namesFor c) i)

variable {write} {s s' : State} {m : List (String × ViewPort)} {name : String} {v : ViewPort}

theorem keys_setViewport :
    (setViewport m name v).map Prod.fst =
      if name ∈ m.map Prod.fst then m.map Prod.fst else m.map Prod.fst ++ [name] := by
  rw [setViewport]
  split
  · rw [List.map_map]
    refine List.map_congr_left fun e _ => ?_
    show (if e.1 = name then (name, v) else e).1 = e.1
    split
    · rename_i heq
      exact heq.symm
    · rfl
  · rw [List.map_append]
    rfl

theorem nodup_setViewport (h : (m.map Prod.fst).Nodup) :
    ((setViewport m name v).map Prod.fst).Nodup := by
  rw [keys_setViewport]
  split
  · exact h
  · rename_i hnew
    exact List.nodup_append.mpr ⟨h, List.nodup_singleton _, fun k hk k' hk' heq =>
      hnew (List.mem_singleton.mp hk' ▸ heq ▸ hk)⟩

theorem toFinset_setViewport :
    ((setViewport m name v).map Prod.fst).toFinset = insert name (m.map Prod.fst).toFinset := by
  rw [keys_setViewport]
  split
  · rename_i hmem
    rw [Finset.insert_eq_of_mem (List.mem_toFinset.mpr hmem)]
  · ext k
    simp

theorem counted_init : Counted {} := by
  refine ⟨fun c hc => ?_, fun r hr => ?_, fun c client h => ?_, fun c client h => ?_,
    fun c i r h => ?_⟩
  · cases hc
  · cases hr
  · cases h
  · cases h
  · cases h

theorem Counted.register (h : Counted s) (request : ClientRequest) :
    Counted { s with game := (s.game.register request).1 } := by
  set new : Client := { login := request.login, password := request.password.getD "" }
  have hmemory : (s.game.register request).1.memory = s.game.memory ++ [new] := rfl
  -- nothing has been requested yet for the new client
  have hnone : s.namesFor s.game.memory.length = [] := by
    have : s.registeredFor s.game.memory.length = [] :=
      List.filter_eq_nil_iff.mpr fun r hr heq =>
        (h.fresh r hr).ne (of_decide_eq_true heq)
    rw [State.namesFor, this]
    rfl
  refine ⟨fun c hc => ?_, fun r hr => ?_, fun c client hc => ?_, fun c client hc => ?_, h.ids⟩
  · rw [hmemory, List.length_append, List.length_singleton]
    simp only [Game.register, ConcurrentContainer.add] at hc
    split at hc
    · rcases List.mem_append.mp hc with hc | hc
      · exact Nat.lt_succ_of_lt (h.stored c hc)
      · rw [List.mem_singleton.mp hc]
        exact Nat.lt_succ_self _
    · exact Nat.lt_succ_of_lt (h.stored c hc)
  · rw [hmemory, List.length_append, List.length_singleton]
    exact Nat.lt_succ_of_lt (h.fresh r hr)
  · rcases Machine.getElem?_concat_eq_some.mp hc with hc | ⟨rfl, rfl⟩
    · exact h.nodup c client hc
    · exact List.nodup_nil
  · rcases Machine.getElem?_concat_eq_some.mp hc with hc | ⟨rfl, rfl⟩
    · exact h.keys c client hc
    · show _ = (s.namesFor s.game.memory.length).toFinset
      rw [hnone]
      rfl

/-- What a successful request for client `c` makes of the state. -/
theorem Counted.registerViewport (h : Counted s) {c : ℕ} (hc : c ∈ s.game.clients.mItems) :
    let m := setViewport (((s.game.memory[c]?).map Client.viewports).getD []) name v
    Counted {
      game := { s.game with
        memory := s.game.memory.modify c fun client => { client with viewports := m } }
      registered := s.registered ++ [⟨c, name, UInt32.ofNat m.length⟩] } := by
  intro m
  have hlt := h.stored c hc
  set client := s.game.memory[c] with hclient
  have hget : s.game.memory[c]? = some client := List.getElem?_eq_getElem hlt
  have hm : m = setViewport client.viewports name v := by
    show setViewport _ _ _ = _
    rw [hget]
    rfl
  have hkeys : (m.map Prod.fst).toFinset = insert name (s.namesFor c).toFinset := by
    rw [hm, toFinset_setViewport, h.keys c client hget]
  have hnodup : (m.map Prod.fst).Nodup := by
    rw [hm]
    exact nodup_setViewport (h.nodup c client hget)
  have hlen : m.length = (insert name (s.namesFor c).toFinset).card := by
    rw [← hkeys, List.toFinset_card_of_nodup hnodup, List.length_map]
  set s' : State := {
    game := { s.game with
      memory := s.game.memory.modify c fun client => { client with viewports := m } }
    registered := s.registered ++ [⟨c, name, UInt32.ofNat m.length⟩] } with hs'
  have hself : s'.registeredFor c = s.registeredFor c ++ [⟨c, name, UInt32.ofNat m.length⟩] := by
    show List.filter _ (s.registered ++ _) = _
    rw [List.filter_append]
    simp [State.registeredFor]
  have hother : ∀ {d : ℕ}, d ≠ c → s'.registeredFor d = s.registeredFor d := by
    intro d hd
    show List.filter _ (s.registered ++ _) = _
    rw [List.filter_append]
    simp [State.registeredFor, hd.symm]
  have hmemory : ∀ {d : ℕ} {client' : Client}, s'.game.memory[d]? = some client' →
      d = c ∧ client'.viewports = m ∨ d ≠ c ∧ s.game.memory[d]? = some client' := by
    intro d client' hd
    rw [hs', List.getElem?_modify] at hd
    split at hd
    · rename_i hdc
      subst hdc
      rw [hget] at hd
      obtain rfl := Option.some.inj hd
      exact Or.inl ⟨rfl, rfl⟩
    · rename_i hdc
      rw [id_map'] at hd
      exact Or.inr ⟨Ne.symm hdc, hd⟩
  have hnames : s'.namesFor c = s.namesFor c ++ [name] := by
    rw [State.namesFor, hself, List.map_append]
    rfl
  have hlength : s'.game.memory.length = s.game.memory.length := List.length_modify _ _ _
  refine ⟨fun d hd => ?_, fun r hr => ?_, fun d client' hd => ?_, fun d client' hd => ?_,
    fun d i r hr => ?_⟩
  · rw [hlength]
    exact h.stored d hd
  · rw [hlength]
    rcases List.mem_append.mp hr with hr | hr
    · exact h.fresh r hr
    · rw [List.mem_singleton.mp hr]
      exact hlt
  · rcases hmemory hd with ⟨-, hviewports⟩ | ⟨-, hd⟩
    · rw [hviewports]
      exact hnodup
    · exact h.nodup d client' hd
  · rcases hmemory hd with ⟨rfl, hviewports⟩ | ⟨hne, hd⟩
    · rw [hviewports, hkeys, hnames, List.toFinset_append, Finset.union_comm]
      rfl
    · rw [State.namesFor, hother hne]
      exact h.keys d client' hd
  · by_cases hdc : d = c
    · subst hdc
      rw [hself] at hr
      rw [hnames]
      have hcount : (s.namesFor d).length = (s.registeredFor d).length := List.length_map _
      rcases Machine.getElem?_concat_eq_some.mp hr with hr | ⟨rfl, rfl⟩
      · have hlt := (List.getElem?_eq_some_iff.mp hr).1
        rw [FirstSeen.seen_append (by rw [hcount]; exact hlt)]
        exact h.ids d i r hr
      · rw [← hcount, FirstSeen.seen_concat, ← hlen]
    · rw [hother hdc] at hr
      rw [State.namesFor, hother hdc]
      exact h.ids d i r hr

theorem Counted.step (h : Counted s) {a : Event} (hstep : Viewports.step write s a = some s') :
    Counted s' := by
  cases a with
  | register request =>
      obtain rfl := Option.some.inj hstep
      exact h.register request
  | registerViewport request =>
      simp only [Viewports.step, Game.registerViewportWith] at hstep
      cases hget : s.game.clients.get request.clientid.toNat with
      | none =>
          rw [hget] at hstep
          obtain rfl := Option.some.inj hstep
          exact h
      | some c =>
          rw [hget] at hstep
          obtain rfl := Option.some.inj hstep
          have hmem := List.mem_of_getElem? (ConcurrentContainer.get_eq_some_iff.mp hget).2
          exact h.registerViewport hmem

/-- The identifier tells the viewport of client `c` in the requests so far. -/
def State.Identified (s : State) (c : ℕ) : Prop :=
  ∀ (i j : ℕ) (p q : Registered), (s.registeredFor c)[i]? = some p →
    (s.registeredFor c)[j]? = some q → (p.viewportid = q.viewportid ↔ p.name = q.name)

/-- **When the identifiers of viewports identify them**: exactly if every name that is
requested again directly repeats the request before it, and there are no more names than
identifiers. -/
theorem viewportIds_iff {es : List Event} (hrun : Machine.run (step write) {} es = some s)
    (c : ℕ) :
    s.Identified c ↔ Grouped (s.namesFor c) ∧ (s.namesFor c).toFinset.card ≤ 2 ^ 32 := by
  have h : Counted s :=
    Machine.run_invariant (fun _ _ _ h hstep => h.step hstep) counted_init hrun
  have hid : ∀ {i : ℕ} {p : Registered}, (s.registeredFor c)[i]? = some p →
      p.viewportid.toNat = seen (s.namesFor c) i % 2 ^ 32 := by
    intro i p hp
    rw [h.ids c i p hp]
    rfl
  have hname : ∀ {i : ℕ} {p : Registered}, (s.registeredFor c)[i]? = some p →
      (s.namesFor c)[i]? = some p.name := by
    intro i p hp
    rw [State.namesFor, List.getElem?_map, hp]
    rfl
  rw [← FirstSeen.seen_mod_iff (by decide : 0 < 2 ^ 32)]
  constructor
  · intro hall i j x y hx hy
    obtain ⟨p, hp, rfl⟩ := Option.map_eq_some_iff.mp ((List.getElem?_map ..).symm.trans hx)
    obtain ⟨q, hq, rfl⟩ := Option.map_eq_some_iff.mp ((List.getElem?_map ..).symm.trans hy)
    rw [← hid hp, ← hid hq, UInt32.toNat_inj]
    exact hall i j p q hp hq
  · intro hall i j p q hp hq
    rw [← UInt32.toNat_inj, hid hp, hid hq]
    exact hall i j p.name q.name (hname hp) (hname hq)

/-- One client, and viewports for it. -/
def requests (names : List String) : List Event :=
  .register { login := "UserNameTest" } ::
    names.map fun name => .registerViewport { clientid := 1, viewport := ⟨name, 3, 4, none, none⟩ }

/-- The map viewport moved, and the render viewport. -/
theorem viewportIds_iff_moved :
    ∃ s, Machine.run (step fun pos _ _ => pos) {} (requests ["map", "map", "render"]) = some s ∧
      (s.registeredFor 0).map Registered.viewportid = [1, 1, 2] ∧ s.Identified 0 := by
  obtain ⟨s, hrun, hids, hnames⟩ : ∃ s,
      Machine.run (step fun pos _ _ => pos) {} (requests ["map", "map", "render"]) = some s ∧
      (s.registeredFor 0).map Registered.viewportid = [1, 1, 2] ∧
      s.namesFor 0 = ["map", "map", "render"] := ⟨_, rfl, by decide, by decide⟩
  refine ⟨s, hrun, hids, (viewportIds_iff hrun 0).mpr ?_⟩
  rw [hnames]
  refine ⟨?_, by decide⟩
  intro i x hx hmem
  match i, hx with
  | 0, hx => exact hx
  | 1, hx =>
      obtain rfl := Option.some.inj hx
      exact absurd hmem (by decide)

/-- The map viewport asked for again after the render viewport gets the identifier of
the latter. -/
theorem not_viewportIds :
    ¬ ∀ (write : ThreeDCoordinate ℤ → (x y : ℤ) → ThreeDCoordinate ℤ) (es : List Event)
        (s : State), Machine.run (step write) {} es = some s → ∀ c, s.Identified c := by
  intro h
  have hall := h (fun pos _ _ => pos) (requests ["map", "render", "map"]) _ rfl 0
  have heq := (hall 1 2 ⟨0, "render", 2⟩ ⟨0, "map", 2⟩ rfl rfl).mp rfl
  exact absurd heq (by decide)

end Viewports

/-! ### The components of a coordinate -/

/-- The first write to the position of a new viewport is beyond the end of its vector. -/
theorem Game.registerViewport_of_get {g : Game} {request : RegisterViewportRequest} {client : ℕ}
    (h : g.clients.get request.clientid.toNat = some client) :
    g.registerViewport request = .error .undefined := by
  rw [registerViewport, registerViewportWith, h]
  rfl

/-- The handler has a result. -/
def Game.Handles (g : Game) (request : RegisterViewportRequest) : Prop :=
  ∃ result, g.registerViewport request = .ok result

/-- **When coordinates have the components of their dimension**: exactly if every
construction fills them, which a new viewport's does not. -/
theorem components_iff {T : Type*} {es : List (Core.Event T)} {s : List (Core.Variable T)}
    (hrun : Machine.run Core.step [] es = some s) :
    ((∀ es₁ es₂ s₁, es = es₁ ++ es₂ → Machine.run Core.step [] es₁ = some s₁ → Core.Sound s₁) ↔
      ∀ a ∈ es, Core.Fills a) ∧
    ∀ (g : Game) (request : RegisterViewportRequest),
      g.Handles request ↔ g.clients.get request.clientid.toNat = none := by
  refine ⟨Core.sound_iff_fills hrun, fun g request => ?_⟩
  cases hget : g.clients.get request.clientid.toNat with
  | none =>
      refine iff_of_true ⟨(g, { response := { code := 1 } }), ?_⟩ rfl
      rw [Game.registerViewport, Game.registerViewportWith, hget]
  | some client =>
      refine iff_of_false ?_ (Option.some_ne_none client)
      rintro ⟨result, hresult⟩
      rw [Game.registerViewport_of_get hget] at hresult
      cases hresult

/-- A point, its projection, and an upgraded copy of that. -/
theorem components_iff_projection :
    ∃ s, Machine.run Core.step []
        [.construct .threeD (.three 4 5 6), .project 0, .copy 1 .twoD] = some s ∧
      Core.Sound (T := ℤ) s := by
  have hrun : Machine.run Core.step ([] : List (Core.Variable ℤ))
      [.construct .threeD (.three 4 5 6), .project 0, .copy 1 .twoD] = some _ := rfl
  refine ⟨_, hrun, (components_iff hrun).1.mpr ?_ _ [] _ (List.append_nil _).symm hrun⟩
  decide

/-- The default constructor, and the first viewport of the first client. -/
theorem not_components :
    ¬ ((∀ (es : List (Core.Event ℤ)) (s : List (Core.Variable ℤ)),
        Machine.run Core.step [] es = some s → Core.Sound s) ∧
      ∀ (g : Game) (request : RegisterViewportRequest), g.Handles request) := by
  rintro ⟨hsound, -⟩
  have hfull := (hsound [.construct .threeD .default] _ rfl _ List.mem_cons_self).1
  cases hfull

end Tt3d.Server
