import Tt3d.Network.Peers

/-!
What `Handle` owes the other peer: a reply for each request that it takes, or the end
of the connection.

The two peers of `Peers` may now call whatever they like with whatever content, a
request may fail to serialise, and either side may close. An entry of a table is owed
to a frame, or to a call whose own clean-up is still to come.
-/

namespace Tt3d.Network.Obligations

structure State where
  peers : Peers.State := fun _ => {}
  /-- The identifiers of the calls in `CallMethod` whose request did not serialise. -/
  failed : Bool → List UInt64 := fun _ => []
  /-- The `response_identify` of each request that `Handle` has taken. -/
  taken : Bool → List UInt64 := fun _ => []
  /-- The `response_identify` of each request that a reply frame answers. -/
  replied : Bool → List UInt64 := fun _ => []

inductive Event
  /-- `CallMethod` at peer `p`, to the end of its first section; without a content the
  request does not serialise. -/
  | call (p : Bool) (requestIdentify responseIdentify : UInt64) (seq : ℤ) (content : Option Bytes)
  /-- The section after `failed`. -/
  | cleanUp (p : Bool) (i : ℕ)
  | push (p : Bool) (i : ℕ)
  | write (p : Bool)
  | receive (p : Bool)
  | handle (p : Bool)
  /-- The method that runs at `p` runs `done`. -/
  | reply (p : Bool) (content : Bytes)
  | returns (p : Bool)
  /-- `Disconnect` by a thread that neither reads nor calls. -/
  | close (p : Bool)
  deriving DecidableEq, Repr

/-- What `CallMethod` enters under the identifier `r`. -/
def State.enter (s : State) (p : Bool) (requestIdentify r : UInt64) : Option Bytes → State
  | none =>
      let x := s.peers p
      { s with
        peers := Function.update s.peers p
          { x with table := x.table.insert r x.made, made := x.made + 1 }
        failed := Function.update s.failed p (s.failed p ++ [r]) }
  | some content =>
      let x := s.peers p
      { s with
        peers := Function.update s.peers p
          { x with
            table := x.table.insert r x.made
            toPush := x.toPush ++ [⟨callMethodMeta requestIdentify r content, x.made⟩]
            made := x.made + 1 } }

/-- The `response_identify` of the message, if it is a request. -/
def requestOf (m : MetaData) : List UInt64 := if m.type = .request then [m.responseIdentify] else []

/-- `CallServiceMethodDone` for the request that the decoder holds. -/
def State.reply (s : State) (p : Bool) (origin : ℕ) (content : Bytes) : State :=
  let x := s.peers p
  { s with
    peers := Function.update s.peers p
      { x with
        queue := x.queue ++ [⟨responseMeta x.meta_ content, origin⟩]
        handling := .replied }
    replied := Function.update s.replied p (s.replied p ++ requestOf x.meta_) }

def step (services : Peers.Services) (s : State) : Event → Option State
  | .call p requestIdentify responseIdentify seq content =>
      let x := s.peers p
      if x.broken then some s
      else
        (x.table.searchFree (x.table.length + 1) responseIdentify seq).map fun r =>
          s.enter p requestIdentify r content
  | .cleanUp p i =>
      (s.failed p)[i]?.map fun r =>
        { s with
          peers := Function.update s.peers p
            { s.peers p with table := (s.peers p).table.erase r }
          failed := Function.update s.failed p ((s.failed p).eraseIdx i) }
  | .push p i =>
      (Peers.step services s.peers (.push p i)).map fun peers => { s with peers := peers }
  | .write p =>
      if (s.peers p).broken then none
      else (Peers.step services s.peers (.write p)).map fun peers => { s with peers := peers }
  | .receive p =>
      (Peers.step services s.peers (.receive p)).map fun peers => { s with peers := peers }
  | .handle p =>
      let x := s.peers p
      (Peers.step services s.peers (.handle p)).map fun peers =>
        { s with
          peers := peers
          taken := if (peers p).broken then s.taken
            else Function.update s.taken p (s.taken p ++ requestOf x.meta_) }
  | .reply p content =>
      match (s.peers p).handling with
      | .serving origin => some (s.reply p origin content)
      | .idle | .received _ | .replied => none
  | .returns p =>
      (Peers.step services s.peers (.returns p)).map fun peers => { s with peers := peers }
  | .close p =>
      let x := s.peers p
      if x.handling = .idle ∧ x.toPush = [] ∧ s.failed p = [] then
        some { s with peers := Function.update s.peers p { x with broken := true } }
      else none

/-! ### What is owed -/

def Open (s : State) : Prop := ∀ p, (s.peers p).broken = false

/-- No frame is on its way, no handler runs and no thread is in `CallMethod`. -/
structure Quiet (s : State) : Prop where
  toPush : ∀ p, (s.peers p).toPush = []
  queue : ∀ p, (s.peers p).queue = []
  wire : ∀ p, (s.peers p).wire = []
  handling : ∀ p, (s.peers p).handling = .idle
  failed : ∀ p, s.failed p = []

/-- Nobody waits, and every request was replied to. -/
structure Discharged (s : State) : Prop where
  table : ∀ p, (s.peers p).table = []
  replied : ∀ p, s.replied p = s.taken p

/-- A method that is registered can parse the message, and a request without one is
not in the way of a response; a call that failed finds its own entry. -/
def Answers (services : Peers.Services) (s : State) : Event → Prop
  | .handle p =>
      let m := (s.peers p).meta_
      if services.registered p m.identify then services.parses p m.identify m.content = true
      else m.type = .request → (s.peers p).table.find m.identify = none
  | .cleanUp p i => ∀ r, (s.failed p)[i]? = some r → (s.peers p).table.find r ≠ none
  | .call _ _ _ _ _ | .push _ _ | .write _ | .receive _ | .reply _ _ | .returns _ | .close _ => True

instance (services : Peers.Services) (s : State) : ∀ e, Decidable (Answers services s e)
  | .handle p => inferInstanceAs (Decidable
      (if services.registered p (s.peers p).meta_.identify then
        services.parses p (s.peers p).meta_.identify (s.peers p).meta_.content = true
      else (s.peers p).meta_.type = .request →
        (s.peers p).table.find (s.peers p).meta_.identify = none))
  | .cleanUp p i =>
      decidable_of_iff ((s.failed p)[i]?.all fun r => ((s.peers p).table.find r).isSome) (by
        simp only [Option.all_eq_true, Option.isSome_iff_ne_none]
        rfl)
  | .call _ _ _ _ _ | .push _ _ | .write _ | .receive _ | .reply _ _ | .returns _
  | .close _ => isTrue trivial

/-- The frames that the entries of `x` or of the other peer are owed to. -/
def load (x : Peers.Peer) : ℕ :=
  x.toPush.length + x.queue.length + x.wire.length + x.handled.length

/-- The request that a method runs for. -/
def served (x : Peers.Peer) : List UInt64 :=
  match x.handling with
  | .serving _ => requestOf x.meta_
  | .idle | .received _ | .replied => []

def State.entries (s : State) (p : Bool) : ℕ := (s.peers p).table.length

def State.carried (s : State) (p : Bool) : ℕ := load (s.peers p) + (s.failed p).length

def State.answered (s : State) (p : Bool) : List UInt64 := s.replied p ++ served (s.peers p)

/-- Of both peers. -/
def total (f : Bool → ℕ) : ℕ := f false + f true

theorem total_eq (f : Bool → ℕ) (p : Bool) : total f = f p + f (!p) := by
  cases p with
  | false => rfl
  | true => exact Nat.add_comm _ _

/-- One step: `lost` entries have nothing left that they are owed to, and of the
`fresh` requests taken some are not `accepted` by a method. -/
structure Effect (s s' : State) (lost : ℕ) (fresh accepted : Bool → List UInt64) : Prop where
  entries : total s'.entries + total s.carried = total s.entries + total s'.carried + lost
  taken : ∀ p, s'.taken p = s.taken p ++ fresh p
  answered : ∀ p, s'.answered p = s.answered p ++ accepted p
  accepted : ∀ p, (accepted p).Sublist (fresh p)

variable {services : Peers.Services} {s s' : State}

theorem not_ne_self (p : Bool) : (!p) ≠ p := by
  cases p <;> decide

/-- What happens at one peer `p`, which becomes `x`. -/
theorem Effect.of_peer {p : Bool} {x : Peers.Peer} {failed replied fresh accepted : List UInt64}
    {lost : ℕ} (hpeers : s'.peers = Function.update s.peers p x)
    (hfailed : s'.failed = Function.update s.failed p failed)
    (htaken : s'.taken = Function.update s.taken p (s.taken p ++ fresh))
    (hreplied : s'.replied = Function.update s.replied p replied)
    (hanswered : replied ++ served x = s.answered p ++ accepted)
    (haccepted : accepted.Sublist fresh)
    (hcount : x.table.length + s.carried p = s.entries p + (load x + failed.length) + lost) :
    Effect s s' lost (Function.update (fun _ => []) p fresh)
      (Function.update (fun _ => []) p accepted) := by
  refine ⟨?_, fun q => ?_, fun q => ?_, fun q => ?_⟩
  · rw [total_eq _ p, total_eq _ p, total_eq _ p, total_eq _ p]
    simp only [State.entries, State.carried, hpeers, hfailed, Function.update_self,
      Function.update_of_ne (not_ne_self p)] at hcount ⊢
    omega
  · rw [htaken]
    rcases eq_or_ne q p with rfl | hne
    · simp
    · simp [hne]
  · rw [State.answered, hreplied, hpeers]
    rcases eq_or_ne q p with rfl | hne
    · simpa using hanswered
    · simp [hne, State.answered]
  · rcases eq_or_ne q p with rfl | hne
    · simpa using haccepted
    · simp [hne]

/-- A step at `p` in which no request is taken. -/
theorem Effect.of_local {p : Bool} {x : Peers.Peer} {failed replied : List UInt64} {lost : ℕ}
    (hpeers : s'.peers = Function.update s.peers p x)
    (hfailed : s'.failed = Function.update s.failed p failed) (htaken : s'.taken = s.taken)
    (hreplied : s'.replied = Function.update s.replied p replied)
    (hanswered : replied ++ served x = s.answered p)
    (hcount : x.table.length + s.carried p = s.entries p + (load x + failed.length) + lost) :
    Effect s s' lost (fun _ => []) (fun _ => []) := by
  have h : Effect s s' lost (Function.update (fun _ => []) p [])
      (Function.update (fun _ => []) p []) :=
    Effect.of_peer hpeers hfailed (by rw [htaken, List.append_nil, Function.update_eq_self])
      hreplied (by rw [hanswered, List.append_nil]) (List.Sublist.refl _) hcount
  rwa [Function.update_eq_self] at h

/-! ### What the steps of `CallMethod` do -/

theorem length_insert {t : ResponseTable ℕ} {r : UInt64} (hfree : t.find r = none) (c : ℕ) :
    (t.insert r c).length = t.length + 1 := by
  rw [ResponseTable.insert_of_find_eq_none hfree, List.length_append]
  rfl

theorem effect_enter {p : Bool} {requestIdentify r : UInt64} {content : Option Bytes}
    (hfree : (s.peers p).table.find r = none) :
    Effect s (s.enter p requestIdentify r content) 0 (fun _ => []) (fun _ => []) := by
  cases content with
  | none =>
      refine Effect.of_local rfl rfl rfl (Function.update_eq_self p s.replied).symm rfl ?_
      show ((s.peers p).table.insert r (s.peers p).made).length + _ = _
      rw [length_insert hfree, List.length_append]
      simp only [State.carried, State.entries, load, Peers.Peer.handled, List.length_singleton]
      omega
  | some content =>
      refine Effect.of_local rfl (Function.update_eq_self p s.failed).symm rfl
        (Function.update_eq_self p s.replied).symm rfl ?_
      show ((s.peers p).table.insert r (s.peers p).made).length + _ = _
      rw [length_insert hfree]
      simp only [State.carried, State.entries, load, Peers.Peer.handled, List.length_append,
        List.length_singleton]
      omega

/-- A clean-up that does not find its entry leaves another one behind. -/
theorem effect_cleanUp {p : Bool} {i : ℕ} (hvalid : (s.peers p).table.Valid)
    (hstep : step services s (.cleanUp p i) = some s') :
    ∃ lost, Effect s s' lost (fun _ => []) (fun _ => []) ∧
      (lost = 0 ↔ Answers services s (.cleanUp p i)) := by
  obtain ⟨r, hr, rfl⟩ := Option.map_eq_some_iff.mp hstep
  have hlength : ((s.failed p).eraseIdx i).length + 1 = (s.failed p).length := by
    have hi := (List.getElem?_eq_some_iff.mp hr).1
    rw [List.length_eraseIdx_of_lt hi]
    omega
  have hanswers : Answers services s (.cleanUp p i) ↔ (s.peers p).table.find r ≠ none := by
    constructor
    · intro h
      exact h r hr
    · intro h r' hr'
      rw [Option.some.inj (hr'.symm.trans hr)]
      exact h
  rw [hanswers]
  cases hfind : (s.peers p).table.find r with
  | none =>
      have herase : (s.peers p).table.erase r = (s.peers p).table :=
        List.filter_eq_self.mpr fun e he => by
          have hmem := ResponseTable.find_eq_none_iff.mp hfind
          simpa using fun heq : e.1 = r => hmem (heq ▸ List.mem_map_of_mem he)
      refine ⟨1, Effect.of_local rfl rfl rfl (Function.update_eq_self p s.replied).symm rfl ?_,
        by simp⟩
      show ((s.peers p).table.erase r).length + _ = _
      rw [herase]
      simp only [State.carried, State.entries, load, Peers.Peer.handled]
      omega
  | some c =>
      have herase := (hvalid.perm_cons_erase (ResponseTable.mem_of_find hfind)).length_eq
      rw [List.length_cons] at herase
      refine ⟨0, Effect.of_local rfl rfl rfl (Function.update_eq_self p s.replied).symm rfl ?_,
        by simp⟩
      simp only [State.carried, State.entries, load, Peers.Peer.handled]
      omega

/-! ### What the other steps do -/

/-- A frame moves on, or a handler returns. -/
theorem effect_move {p : Bool} {x : Peers.Peer} (htable : x.table = (s.peers p).table)
    (hserved : served x = served (s.peers p)) (hload : load x = load (s.peers p)) :
    Effect s { s with peers := Function.update s.peers p x } 0 (fun _ => []) (fun _ => []) := by
  refine Effect.of_local rfl (Function.update_eq_self p s.failed).symm rfl
    (Function.update_eq_self p s.replied).symm (by rw [hserved]; rfl) ?_
  rw [htable, hload, State.carried, State.entries]
  omega

theorem effect_push {p : Bool} {i : ℕ} (hstep : step services s (.push p i) = some s') :
    Effect s s' 0 (fun _ => []) (fun _ => []) := by
  obtain ⟨peers, hpeers, rfl⟩ := Option.map_eq_some_iff.mp hstep
  obtain ⟨f, hf, rfl⟩ := Option.map_eq_some_iff.mp hpeers
  refine effect_move rfl rfl ?_
  have hi := (List.getElem?_eq_some_iff.mp hf).1
  simp only [load, Peers.Peer.handled, List.length_append, List.length_singleton,
    List.length_eraseIdx_of_lt hi]
  omega

theorem effect_write {p : Bool} (hstep : step services s (.write p) = some s') :
    Effect s s' 0 (fun _ => []) (fun _ => []) := by
  obtain ⟨-, hstep⟩ := Option.ite_none_left_eq_some.mp hstep
  obtain ⟨peers, hpeers, rfl⟩ := Option.map_eq_some_iff.mp hstep
  simp only [Peers.step] at hpeers
  split at hpeers
  · cases hpeers
  · rename_i f queue hqueue
    obtain rfl := Option.some.inj hpeers
    refine effect_move rfl rfl ?_
    simp only [load, Peers.Peer.handled, hqueue, List.length_append, List.length_cons,
      List.length_nil]
    omega

/-- The frame that `p` reads comes from the other peer's wire. -/
theorem effect_receive {p : Bool} (hopen : Open s')
    (hstep : step services s (.receive p) = some s') :
    Effect s s' 0 (fun _ => []) (fun _ => []) := by
  obtain ⟨peers, hpeers, rfl⟩ := Option.map_eq_some_iff.mp hstep
  simp only [Peers.step] at hpeers
  split at hpeers
  · rename_i f wire hidle hbroken hwire
    obtain rfl := Option.some.inj hpeers
    have hne := not_ne_self p
    have hwellFormed : Peers.wellFormed f.message = true := by
      simpa [hne.symm] using hopen p
    refine ⟨?_, fun q => (List.append_nil _).symm, fun q => ?_, fun q => List.Sublist.refl _⟩
    · rw [total_eq _ p, total_eq _ p, total_eq _ p, total_eq _ p]
      simp only [State.entries, State.carried, Function.update_self,
        Function.update_of_ne hne.symm, load, Peers.Peer.handled, hidle, hwire, hwellFormed,
        List.length_cons, List.length_nil, if_true]
      omega
    · rw [State.answered, State.answered, List.append_nil]
      rcases eq_or_ne q p with rfl | hq
      · simp [served, hidle, hwellFormed, hne.symm]
      · obtain rfl : q = !p := by cases q <;> cases p <;> simp_all
        simp [served]
  · cases hpeers

theorem effect_reply {p : Bool} {content : Bytes}
    (hstep : step services s (.reply p content) = some s') :
    Effect s s' 0 (fun _ => []) (fun _ => []) := by
  simp only [step] at hstep
  split at hstep
  · rename_i origin hserving
    obtain rfl := Option.some.inj hstep
    refine Effect.of_local rfl (Function.update_eq_self p s.failed).symm rfl rfl ?_ ?_
    · simp [served, State.answered, hserving]
    · simp only [State.carried, State.entries, load, Peers.Peer.handled, hserving,
        List.length_append, List.length_cons, List.length_nil]
      omega
  all_goals cases hstep

theorem effect_returns {p : Bool} (hstep : step services s (.returns p) = some s') :
    Effect s s' 0 (fun _ => []) (fun _ => []) := by
  obtain ⟨peers, hpeers, rfl⟩ := Option.map_eq_some_iff.mp hstep
  obtain ⟨hreplied, hpeers⟩ := Option.ite_none_right_eq_some.mp hpeers
  obtain rfl := Option.some.inj hpeers
  refine effect_move rfl ?_ ?_
  · simp [served, hreplied]
  · simp [load, Peers.Peer.handled, hreplied]

/-- `Handle` takes the message that the decoder holds, and the peer becomes `x`. -/
theorem effect_take {p : Bool} {x : Peers.Peer} {lost : ℕ}
    (hreplied : s.answered p = s.replied p)
    (hserved : (served x).Sublist (requestOf (s.peers p).meta_))
    (hcount : x.table.length + s.carried p = s.entries p + (load x + (s.failed p).length) + lost) :
    Effect s
      { s with
        peers := Function.update s.peers p x
        taken := Function.update s.taken p (s.taken p ++ requestOf (s.peers p).meta_) }
      lost (Function.update (fun _ => []) p (requestOf (s.peers p).meta_))
      (Function.update (fun _ => []) p (served x)) :=
  Effect.of_peer rfl (Function.update_eq_self p s.failed).symm rfl
    (Function.update_eq_self p s.replied).symm (by rw [hreplied]) hserved hcount

theorem update_nil_inj {p : Bool} {l k : List UInt64} :
    Function.update (fun _ : Bool => ([] : List UInt64)) p l = Function.update (fun _ => []) p k ↔
      l = k := by
  constructor
  · intro h
    simpa using congrFun h p
  · rintro rfl
    rfl

theorem requestOf_eq_nil {m : MetaData} : requestOf m = [] ↔ m.type ≠ .request := by
  unfold requestOf
  split <;> simp_all

/-- Either a method runs, or the entry of a call is taken, or nothing is done. -/
theorem effect_handle {p : Bool} (hvalid : (s.peers p).table.Valid) (hopen : Open s')
    (hstep : step services s (.handle p) = some s') :
    ∃ lost fresh accepted, Effect s s' lost fresh accepted ∧
      (lost = 0 ∧ accepted = fresh ↔ Answers services s (.handle p)) := by
  obtain ⟨peers, hpeers, rfl⟩ := Option.map_eq_some_iff.mp hstep
  simp only [Peers.step] at hpeers
  split at hpeers
  · rename_i origin hreceived
    obtain rfl := Option.some.inj hpeers
    have hunbroken : (Peers.handleFrame services p (s.peers p) origin).broken = false := by
      simpa using hopen p
    have hreplied : s.answered p = s.replied p := by
      simp [State.answered, served, hreceived]
    simp only [Function.update_self, hunbroken, Bool.false_eq_true, if_false, Answers]
    by_cases hregistered : services.registered p (s.peers p).meta_.identify = true
    · by_cases hparses :
        services.parses p (s.peers p).meta_.identify (s.peers p).meta_.content = true
      · have hserving : Peers.handleFrame services p (s.peers p) origin =
            { s.peers p with handling := .serving origin } := by
          simp [Peers.handleFrame, hregistered, hparses]
        rw [hserving]
        refine ⟨0, _, _, effect_take hreplied (List.Sublist.refl _) ?_, ?_⟩
        · simp only [State.carried, State.entries, load, Peers.Peer.handled, hreceived]
          omega
        · simp [served, hregistered, hparses]
      · -- the handler of the method returns without a word
        have hdropped : Peers.handleFrame services p (s.peers p) origin =
            { s.peers p with handling := .idle } := by
          simp [Peers.handleFrame, hregistered, hparses]
        rw [hdropped]
        refine ⟨1, _, _, effect_take hreplied (List.nil_sublist _) ?_, ?_⟩
        · simp only [State.carried, State.entries, load, Peers.Peer.handled, hreceived,
            List.length_cons, List.length_nil]
          omega
        · simp [hregistered, hparses]
    · cases hfind : (s.peers p).table.find (s.peers p).meta_.identify with
      | none => simp [Peers.handleFrame, hregistered, hfind] at hunbroken
      | some c =>
          have htaken : Peers.handleFrame services p (s.peers p) origin =
              { s.peers p with
                table := (s.peers p).table.erase (s.peers p).meta_.identify
                completed := (s.peers p).completed ++ [(c, (s.peers p).meta_.content)]
                handling := .idle } := by
            simp [Peers.handleFrame, hregistered, hfind]
          rw [htaken]
          refine ⟨0, _, _, effect_take hreplied (List.nil_sublist _) ?_, ?_⟩
          · have herase := (hvalid.perm_cons_erase (ResponseTable.mem_of_find hfind)).length_eq
            simp only [State.carried, State.entries, load, Peers.Peer.handled, hreceived,
              List.length_cons, List.length_nil] at herase ⊢
            omega
          · rw [update_nil_inj, eq_comm (a := served _)]
            simp [served, hregistered, requestOf_eq_nil]
  · cases hpeers

/-- **What one step owes**: nothing is lost and every request is accepted just when the
step answers. -/
theorem step_effect {a : Event} (hvalid : ∀ p, (s.peers p).table.Valid) (hopen : Open s')
    (hstep : step services s a = some s') :
    ∃ lost fresh accepted, Effect s s' lost fresh accepted ∧
      (lost = 0 ∧ accepted = fresh ↔ Answers services s a) := by
  have of_effect (heffect : Effect s s' 0 (fun _ => []) (fun _ => []))
      (hanswers : Answers services s a) :
      ∃ lost fresh accepted, Effect s s' lost fresh accepted ∧
        (lost = 0 ∧ accepted = fresh ↔ Answers services s a) :=
    ⟨0, _, _, heffect, iff_of_true ⟨rfl, rfl⟩ hanswers⟩
  cases a with
  | call p requestIdentify responseIdentify seq content =>
      simp only [step] at hstep
      split at hstep
      · rename_i hbroken
        obtain rfl := Option.some.inj hstep
        rw [hopen p] at hbroken
        cases hbroken
      · obtain ⟨r, hr, rfl⟩ := Option.map_eq_some_iff.mp hstep
        exact of_effect (effect_enter (ResponseTable.find_searchFree hr)) trivial
  | cleanUp p i =>
      obtain ⟨lost, heffect, hlost⟩ := effect_cleanUp (hvalid p) hstep
      exact ⟨lost, _, _, heffect, by simpa using hlost⟩
  | push p i => exact of_effect (effect_push hstep) trivial
  | write p => exact of_effect (effect_write hstep) trivial
  | receive p => exact of_effect (effect_receive hopen hstep) trivial
  | handle p => exact effect_handle (hvalid p) hopen hstep
  | reply p content => exact of_effect (effect_reply hstep) trivial
  | returns p => exact of_effect (effect_returns hstep) trivial
  | close p =>
      obtain ⟨-, hstep⟩ := Option.ite_none_right_eq_some.mp hstep
      obtain rfl := Option.some.inj hstep
      have hbroken := hopen p
      simp at hbroken

/-! ### Whole runs -/

/-- A peer never opens again, and its entries keep distinct identifiers. -/
structure Keeps (x x' : Peers.Peer) : Prop where
  broken : x.broken = true → x'.broken = true
  valid : x.table.Valid → x'.table.Valid

theorem Keeps.refl (x : Peers.Peer) : Keeps x x := ⟨id, id⟩

theorem Keeps.update {peers : Peers.State} {p : Bool} {x : Peers.Peer} (h : Keeps (peers p) x)
    (q : Bool) : Keeps (peers q) (Function.update peers p x q) := by
  rcases eq_or_ne q p with rfl | hne
  · rw [Function.update_self]
    exact h
  · rw [Function.update_of_ne hne]
    exact Keeps.refl _

theorem keeps_handleFrame (p : Bool) (x : Peers.Peer) (origin : ℕ) :
    Keeps x (Peers.handleFrame services p x origin) := by
  unfold Peers.handleFrame
  split
  · split <;> exact ⟨id, id⟩
  · split
    · exact ⟨fun _ => rfl, id⟩
    · exact ⟨id, fun h => h.erase _⟩

theorem keeps_peersStep {peers peers' : Peers.State} {a : Peers.Event}
    (ha : ∀ p requestIdentify responseIdentify seq content,
      a ≠ .call p requestIdentify responseIdentify seq content)
    (hstep : Peers.step services peers a = some peers') (q : Bool) :
    Keeps (peers q) (peers' q) := by
  cases a with
  | call p requestIdentify responseIdentify seq content => exact absurd rfl (ha _ _ _ _ _)
  | push p i =>
      obtain ⟨f, -, rfl⟩ := Option.map_eq_some_iff.mp hstep
      refine Keeps.update ?_ q
      exact ⟨id, id⟩
  | write p =>
      simp only [Peers.step] at hstep
      split at hstep
      · cases hstep
      · obtain rfl := Option.some.inj hstep
        refine Keeps.update ?_ q
        exact ⟨id, id⟩
  | receive p =>
      simp only [Peers.step] at hstep
      split at hstep
      · rename_i f wire hidle hbroken hwire
        obtain rfl := Option.some.inj hstep
        rcases eq_or_ne q (!p) with rfl | hne
        · rw [Function.update_self]
          exact ⟨id, id⟩
        · rw [Function.update_of_ne hne]
          refine Keeps.update ?_ q
          refine ⟨fun h => ?_, id⟩
          rw [hbroken] at h
          cases h
      · cases hstep
  | handle p =>
      simp only [Peers.step] at hstep
      split at hstep
      · obtain rfl := Option.some.inj hstep
        exact (keeps_handleFrame p _ _).update q
      · cases hstep
  | reply p content =>
      simp only [Peers.step] at hstep
      split at hstep
      · obtain ⟨-, hstep⟩ := Option.ite_none_right_eq_some.mp hstep
        obtain rfl := Option.some.inj hstep
        rcases eq_or_ne q (!p) with rfl | hne
        · rw [Function.update_self]
          exact ⟨id, id⟩
        · rw [Function.update_of_ne hne]
          refine Keeps.update ?_ q
          exact ⟨id, id⟩
      · cases hstep
  | returns p =>
      obtain ⟨-, hstep⟩ := Option.ite_none_right_eq_some.mp hstep
      obtain rfl := Option.some.inj hstep
      refine Keeps.update ?_ q
      exact ⟨id, id⟩

theorem keeps_step {a : Event} (hstep : step services s a = some s') (q : Bool) :
    Keeps (s.peers q) (s'.peers q) := by
  cases a with
  | call p requestIdentify responseIdentify seq content =>
      simp only [step] at hstep
      split at hstep
      · obtain rfl := Option.some.inj hstep
        exact Keeps.refl _
      · obtain ⟨r, hr, rfl⟩ := Option.map_eq_some_iff.mp hstep
        have hinsert : (s.peers p).table.Valid →
            ((s.peers p).table.insert r (s.peers p).made).Valid :=
          fun h => h.insert (ResponseTable.find_searchFree hr) _
        cases content with
        | none =>
            refine Keeps.update ?_ q
            exact ⟨id, hinsert⟩
        | some content =>
            refine Keeps.update ?_ q
            exact ⟨id, hinsert⟩
  | cleanUp p i =>
      obtain ⟨r, -, rfl⟩ := Option.map_eq_some_iff.mp hstep
      refine Keeps.update ?_ q
      exact ⟨id, fun h => h.erase r⟩
  | push p i =>
      obtain ⟨peers, hpeers, rfl⟩ := Option.map_eq_some_iff.mp hstep
      exact keeps_peersStep (by simp) hpeers q
  | write p =>
      obtain ⟨-, hstep⟩ := Option.ite_none_left_eq_some.mp hstep
      obtain ⟨peers, hpeers, rfl⟩ := Option.map_eq_some_iff.mp hstep
      exact keeps_peersStep (by simp) hpeers q
  | receive p =>
      obtain ⟨peers, hpeers, rfl⟩ := Option.map_eq_some_iff.mp hstep
      exact keeps_peersStep (by simp) hpeers q
  | handle p =>
      obtain ⟨peers, hpeers, rfl⟩ := Option.map_eq_some_iff.mp hstep
      exact keeps_peersStep (by simp) hpeers q
  | reply p content =>
      simp only [step] at hstep
      split at hstep
      · obtain rfl := Option.some.inj hstep
        refine Keeps.update ?_ q
        exact ⟨id, id⟩
      all_goals cases hstep
  | returns p =>
      obtain ⟨peers, hpeers, rfl⟩ := Option.map_eq_some_iff.mp hstep
      exact keeps_peersStep (by simp) hpeers q
  | close p =>
      obtain ⟨-, hstep⟩ := Option.ite_none_right_eq_some.mp hstep
      obtain rfl := Option.some.inj hstep
      refine Keeps.update ?_ q
      exact ⟨fun _ => rfl, id⟩

theorem open_backward {a : Event} (hstep : step services s a = some s') (hopen : Open s') :
    Open s := by
  intro p
  by_contra hbroken
  have h := (keeps_step hstep p).broken (by simpa using hbroken)
  rw [hopen p] at h
  cases h

/-- Every entry has something that it is owed to, and every request taken is being
served or was replied to. -/
structure Settled (s : State) : Prop where
  entries : total s.entries = total s.carried
  answered : ∀ p, s.answered p = s.taken p

/-- What holds of an open connection whether or not requests were dropped. -/
structure Owed (s : State) : Prop where
  valid : ∀ p, (s.peers p).table.Valid
  entries : Open s → total s.carried ≤ total s.entries
  answered : Open s → ∀ p, (s.answered p).Sublist (s.taken p)

theorem owed_init : Owed {} :=
  ⟨fun _ => List.nodup_nil, fun _ => le_rfl, fun _ _ => List.Sublist.refl _⟩

theorem settled_init : Settled {} := ⟨rfl, fun _ => rfl⟩

theorem Owed.step {a : Event} (h : Owed s) (hstep : Obligations.step services s a = some s') :
    Owed s' := by
  refine ⟨fun p => (keeps_step hstep p).valid (h.valid p), fun hopen => ?_, fun hopen p => ?_⟩
  · obtain ⟨lost, fresh, accepted, heffect, -⟩ := step_effect h.valid hopen hstep
    have hle := h.entries (open_backward hstep hopen)
    have hentries := heffect.entries
    omega
  · obtain ⟨lost, fresh, accepted, heffect, -⟩ := step_effect h.valid hopen hstep
    rw [heffect.answered, heffect.taken]
    exact (h.answered (open_backward hstep hopen) p).append (heffect.accepted p)

theorem Settled.step_iff {a : Event} (howed : Owed s) (hopen : Open s') (h : Settled s)
    (hstep : Obligations.step services s a = some s') : Settled s' ↔ Answers services s a := by
  obtain ⟨lost, fresh, accepted, heffect, hanswers⟩ := step_effect howed.valid hopen hstep
  have hentries := heffect.entries
  have hsettled := h.entries
  rw [← hanswers]
  constructor
  · intro h'
    refine ⟨?_, ?_⟩
    · have := h'.entries
      omega
    · ext1 p
      have hp := h'.answered p
      rw [heffect.answered, heffect.taken, h.answered p] at hp
      exact List.append_cancel_left hp
  · rintro ⟨hlost, rfl⟩
    refine ⟨by omega, fun p => ?_⟩
    rw [heffect.answered, heffect.taken, h.answered p]

theorem Settled.of_step {a : Event} (howed : Owed s) (hopen : Open s')
    (hstep : Obligations.step services s a = some s') (h : Settled s') : Settled s := by
  obtain ⟨lost, fresh, accepted, heffect, -⟩ := step_effect howed.valid hopen hstep
  have hopen' := open_backward hstep hopen
  refine ⟨?_, fun p => ?_⟩
  · have hle := howed.entries hopen'
    have hentries := heffect.entries
    have := h.entries
    omega
  · apply (howed.answered hopen' p).eq_of_length
    have hlength := congrArg List.length (h.answered p)
    rw [heffect.answered, heffect.taken, List.length_append, List.length_append] at hlength
    have hle := (howed.answered hopen' p).length_le
    have hle' := (heffect.accepted p).length_le
    omega

theorem settled_iff_answers {es : List Event} (hrun : Machine.run (step services) {} es = some s)
    (hopen : Open s) : Settled s ↔ Machine.Along (step services) (Answers services) {} es := by
  have h := Machine.along_iff_not_within (I := Owed) (J := fun u => ¬ Settled u)
    (fun u a u' hstep => open_backward hstep) (fun u a u' hu hstep => hu.step hstep)
    (fun u a u' hu hopen hj hstep =>
      not_congr (Settled.step_iff hu hopen (not_not.mp hj) hstep))
    (fun u a u' hu hopen hj hstep h => hj (Settled.of_step hu hopen hstep h))
    owed_init (not_not.mpr settled_init) hrun hopen
  exact (h.trans not_not).symm

/-- When everything has come to rest, only a table or a request that nobody answered
can be left. -/
theorem discharged_iff_settled (h : Quiet s) : Discharged s ↔ Settled s := by
  have hcarried : total s.carried = 0 := by
    simp [total, State.carried, load, Peers.Peer.handled, h.toPush, h.queue, h.wire, h.handling,
      h.failed]
  have hanswered (p : Bool) : s.answered p = s.replied p := by
    simp [State.answered, served, h.handling]
  constructor
  · intro hdischarged
    refine ⟨?_, fun p => (hanswered p).trans (hdischarged.replied p)⟩
    rw [hcarried]
    simp [total, State.entries, hdischarged.table]
  · intro hsettled
    refine ⟨fun p => ?_, fun p => (hanswered p).symm.trans (hsettled.answered p)⟩
    have hentries := hsettled.entries
    rw [hcarried, total_eq _ p] at hentries
    exact List.length_eq_zero_iff.mp (Nat.eq_zero_of_add_eq_zero_right hentries)

/-- **No call is dropped on an open connection** in the runs whose steps all answer: when
nothing is under way any more, the tables are empty and every request was replied to. -/
theorem discharged_iff_answers {es : List Event}
    (hrun : Machine.run (step services) {} es = some s) (hopen : Open s) (hquiet : Quiet s) :
    Discharged s ↔ Machine.Along (step services) (Answers services) {} es :=
  (discharged_iff_settled hquiet).trans (settled_iff_answers hrun hopen)

/-- Each peer has one method, of the fingerprint 5, whose requests are `[66]`. -/
def exampleServices : Peers.Services :=
  { registered := fun _ identify => identify = 5
    parses := fun _ _ content => content = [66] }

/-- Both peers call each other, and one of them once more without success. -/
def exampleRun : List Event :=
  [.call true 5 9 1 (some [66]), .call false 5 9 1 (some [66]), .call true 5 9 1 none,
    .push false 0, .push true 0, .write true, .receive false, .handle false, .cleanUp true 0,
    .reply false [7], .returns false, .write false, .receive true, .handle true, .reply true [8],
    .write true, .returns true, .write false, .receive true, .handle true, .receive false,
    .handle false]

theorem discharged_iff_answers_both :
    ∃ s, Machine.run (step exampleServices) {} exampleRun = some s ∧ Discharged s := by
  obtain ⟨s, hrun, hopen, htoPush, hqueue, hwire, hhandling, hfailed⟩ :
      ∃ s, Machine.run (step exampleServices) {} exampleRun = some s ∧
        (∀ p, (s.peers p).broken = false) ∧ (∀ p, (s.peers p).toPush = []) ∧
        (∀ p, (s.peers p).queue = []) ∧ (∀ p, (s.peers p).wire = []) ∧
        (∀ p, (s.peers p).handling = .idle) ∧ ∀ p, s.failed p = [] := by
    refine ⟨_, rfl, ?_⟩
    decide
  have hquiet : Quiet s := ⟨htoPush, hqueue, hwire, hhandling, hfailed⟩
  exact ⟨s, hrun, (discharged_iff_answers hrun hopen hquiet).mpr (by decide)⟩

/-- A request that does not parse: nothing is under way, the connection is open, and the
caller waits. -/
theorem call_of_garbage_waits :
    ∃ s, Machine.run (step exampleServices) {}
        [.call true 5 9 1 (some [0]), .push true 0, .write true, .receive false,
          .handle false] = some s ∧
      Open s ∧ Quiet s ∧ (s.peers true).table = [(9, 0)] ∧ s.taken false = [9] ∧
      s.replied false = [] ∧ ¬ Discharged s := by
  refine ⟨_, rfl, ?_, ?_, rfl, rfl, rfl, ?_⟩
  · intro p
    cases p <;> rfl
  · constructor <;> intro p <;> cases p <;> rfl
  · intro h
    have := h.table true
    cases this

end Tt3d.Network.Obligations
