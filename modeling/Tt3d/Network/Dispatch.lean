import Tt3d.Network.Peers

/-!
Who handles a message: the two `Handle`s and their tables.

A message goes to the service whose method has its identifier, and without one to
the pending call that has it. Neither `Handle` reads the type of the message, so a
response may start a method and a request may complete a call.
-/

namespace Tt3d.Network.Dispatch

/-- `handler_table_`: the handlers of the registered methods by the fingerprints of
their names; there is no table until a service has been registered. -/
abbrev HandlerTable (μ : Type*) := Option (List (UInt64 × μ))

/-- What `RawProtobufConnection::Handle` does with a message. -/
structure Handled (μ κ : Type*) where
  /-- The method whose handler runs. -/
  service : Option μ
  /-- The pending call whose handler runs. -/
  response : Option κ
  table : ResponseTable κ
  result : Bool
  deriving DecidableEq, Repr

variable {μ κ : Type*}

/-- `ProtobufConnection::Handle`: the handler that it runs, and otherwise `false`. -/
def serviceHandle (handlerTable : HandlerTable μ) (m : MetaData) : Option μ :=
  handlerTable.bind fun t => (List.find? (fun e => e.1 = m.identify) t).map Prod.snd

/-- `RawProtobufConnection::Handle`. -/
def handle (handlerTable : HandlerTable μ) (t : ResponseTable κ) (m : MetaData) : Handled μ κ :=
  match serviceHandle handlerTable m with
  | some h => { service := some h, response := none, table := t, result := true }
  | none =>
      match t.find m.identify with
      | none => { service := none, response := none, table := t, result := false }
      | some c =>
          { service := none, response := some c, table := t.erase m.identify, result := true }

variable {handlerTable : HandlerTable μ} {t : ResponseTable κ} {m : MetaData}

@[simp] theorem service_handle :
    (handle handlerTable t m).service = serviceHandle handlerTable m := by
  unfold handle
  split
  · rename_i h hservice
    exact hservice.symm
  · rename_i hservice
    split <;> exact hservice.symm

theorem handle_of_service {h : μ} (hservice : serviceHandle handlerTable m = some h) :
    handle handlerTable t m = ⟨some h, none, t, true⟩ := by
  simp only [handle, hservice]

theorem handle_of_pending {c : κ} (hservice : serviceHandle handlerTable m = none)
    (hfind : t.find m.identify = some c) :
    handle handlerTable t m = ⟨none, some c, t.erase m.identify, true⟩ := by
  simp only [handle, hservice, hfind]

theorem handle_of_unknown (hservice : serviceHandle handlerTable m = none)
    (hfind : t.find m.identify = none) : handle handlerTable t m = ⟨none, none, t, false⟩ := by
  simp only [handle, hservice, hfind]

/-! ### The type of a message -/

/-- The message is handled as what it is. -/
structure RespectsType (handlerTable : HandlerTable μ) (t : ResponseTable κ) (m : MetaData) :
    Prop where
  noService : m.type = .response → (handle handlerTable t m).service = none
  noResponse : m.type = .request →
    (handle handlerTable t m).response = none ∧ (handle handlerTable t m).table = t
  completes : m.type = .response → ∀ c, t.find m.identify = some c →
    (handle handlerTable t m).response = some c ∧
      (handle handlerTable t m).table = t.erase m.identify
  untouched : m.type = .request → serviceHandle handlerTable m = none →
    (handle handlerTable t m).table = t

/-- The identifier of the message is not one of the other kind. -/
structure Unambiguous (handlerTable : HandlerTable μ) (t : ResponseTable κ) (m : MetaData) :
    Prop where
  response : m.type = .response → serviceHandle handlerTable m = none
  request : m.type = .request →
    (serviceHandle handlerTable m).isSome ∨ t.find m.identify = none

/-- **The dispatch respects the type of a message** exactly when the identifier does
not belong to the other kind. -/
theorem respectsType_iff_unambiguous (handlerTable : HandlerTable μ) (t : ResponseTable κ)
    (m : MetaData) : RespectsType handlerTable t m ↔ Unambiguous handlerTable t m := by
  constructor
  · rintro ⟨hno, hnone, -, -⟩
    refine ⟨fun htype => by rw [← service_handle (t := t)]; exact hno htype, fun htype => ?_⟩
    cases hservice : serviceHandle handlerTable m with
    | some h => exact Or.inl rfl
    | none =>
        right
        cases hfind : t.find m.identify with
        | none => rfl
        | some c =>
            have hresponse := (hnone htype).1
            rw [handle_of_pending hservice hfind] at hresponse
            cases hresponse
  · rintro ⟨hresponse, hrequest⟩
    have hkept : m.type = .request →
        (handle handlerTable t m).response = none ∧ (handle handlerTable t m).table = t := by
      intro htype
      cases hservice : serviceHandle handlerTable m with
      | some h =>
          rw [handle_of_service hservice]
          exact ⟨rfl, rfl⟩
      | none =>
          have hfind := (hrequest htype).resolve_left (by simp [hservice])
          rw [handle_of_unknown hservice hfind]
          exact ⟨rfl, rfl⟩
    refine ⟨fun htype => ?_, hkept, fun htype c hfind => ?_, fun htype _ => (hkept htype).2⟩
    · rw [service_handle]
      exact hresponse htype
    · rw [handle_of_pending (hresponse htype) hfind]
      exact ⟨rfl, rfl⟩

/-- A response whose identifier is the fingerprint of a method starts the method, and
the call that waits for it is not completed; a request with the identifier of a
pending call completes it. -/
theorem handle_ignores_type :
    (let m : MetaData := { type_ := some .response, identify_ := some 5, content_ := some [0] }
     Peers.wellFormed m = true ∧
      handle (some [(5, 1)]) [(5, 2)] m = ⟨some 1, none, [(5, 2)], true⟩ ∧
      ¬ RespectsType (some [(5, 1)]) [(5, 2)] m) ∧
    (let m : MetaData :=
      { type_ := some .request, identify_ := some 5, responseIdentify_ := some 9,
        content_ := some [0] }
     Peers.wellFormed m = true ∧
      handle (some [(6, 1)]) [(5, 2)] m = ⟨none, some 2, [], true⟩ ∧
      ¬ RespectsType (some [(6, 1)]) [(5, 2)] m) := by
  refine ⟨⟨rfl, rfl, fun h => ?_⟩, ⟨rfl, rfl, fun h => ?_⟩⟩
  · exact absurd (h.noService rfl) (by decide)
  · exact absurd (h.noResponse rfl).1 (by decide)

/-! ### The peers -/

/-- What a peer does with a frame is what `Handle` does with its message. -/
theorem handleFrame_eq_handle {services : Peers.Services} {p : Bool} {x : Peers.Peer}
    (origin : ℕ)
    (hservices : services.registered p x.meta_.identify =
      (serviceHandle handlerTable x.meta_).isSome) :
    (Peers.handleFrame services p x origin).table = (handle handlerTable x.table x.meta_).table ∧
      (Peers.handleFrame services p x origin).broken =
        (x.broken || !(handle handlerTable x.table x.meta_).result) ∧
      (Peers.handleFrame services p x origin).completed =
        x.completed ++ (handle handlerTable x.table x.meta_).response.toList.map
          fun c => (c, x.meta_.content) := by
  unfold Peers.handleFrame
  cases hservice : serviceHandle handlerTable x.meta_ with
  | some h =>
      rw [hservices, hservice, handle_of_service hservice]
      split
      · split <;> simp
      · rename_i hnot
        exact absurd rfl hnot
  | none =>
      rw [hservices, hservice]
      simp only [Option.isSome_none, Bool.false_eq_true, if_false]
      cases hfind : x.table.find x.meta_.identify with
      | none =>
          rw [handle_of_unknown hservice hfind]
          simp
      | some c =>
          rw [handle_of_pending hservice hfind]
          simp

end Tt3d.Network.Dispatch
