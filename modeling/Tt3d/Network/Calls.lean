import Tt3d.Lib.Machine
import Tt3d.Network.ResponseTable

/-!
How the calls on one connection are resolved.

`CallMethod` enters a call into the response table, and five paths run its `done`
closure: the response, the clean-up of a request that did not serialise, the
release of the table, and the refusal of a call on a closing connection (a
response that does not parse is run like any other). Every section under
`mResponseHandlerTableMutex` is one step. `PushData` and `ScheduleWrite` of a
`RawConnection` always succeed.
-/

namespace Tt3d.Network.Calls

/-- Where the thread inside `CallMethod` stands. -/
inductive Stage
  | notMade
  /-- The entry is in the table; the request is to be pushed. -/
  | pushing
  /-- The request did not serialise; the entry under `r` is to be erased. -/
  | failed (r : UInt64)
  /-- `done` is to be run. -/
  | failing
  | returned
  deriving DecidableEq, Repr

def Stage.inProgress : Stage → Bool
  | .notMade | .returned => false
  | _ => true

structure State (κ : Type*) where
  table : ResponseTable κ := []
  stage : κ → Stage := fun _ => .notMade
  /-- The calls made, on the open or on the closing connection. -/
  made : List κ := []
  /-- The closures that `Handle` has taken out of the table. -/
  taken : List κ := []
  /-- The closures that `ReleaseResponseTable` has taken out of the table. -/
  released : List κ := []
  /-- The reads go on: every frame so far had a handler. -/
  reading : Bool := true
  closing : Bool := false
  releasing : Bool := false
  destroyed : Bool := false
  /-- The calls whose `done` was run, oldest first. -/
  runs : List κ := []
  /-- Which call's clean-up removed which call's entry. -/
  removed : List (κ × κ) := []

inductive Event (κ : Type*)
  /-- `CallMethod` finds the connection closing. -/
  | refuse (c : κ)
  /-- The first section of `CallMethod`. -/
  | call (c : κ) (responseIdentify : UInt64) (seq : ℤ) (serialises : Bool)
  | push (c : κ)
  /-- The section after `failed`. -/
  | cleanUp (c : κ)
  | fail (c : κ)
  /-- A frame arrives, with this `identify`. -/
  | handle (identify : UInt64)
  | runTaken (c : κ)
  /-- `CLOSING` is set, under the exclusive lock. -/
  | close
  | release
  | runReleased (c : κ)
  | destroy
  deriving DecidableEq, Repr

variable {κ : Type*} [DecidableEq κ]

/-- `registered` are the fingerprints that `ProtobufConnection::Handle` serves. -/
def step (registered : UInt64 → Bool) (s : State κ) : Event κ → Option (State κ)
  | .refuse c =>
      if s.closing ∧ s.stage c = .notMade then
        some { s with
          made := s.made ++ [c]
          stage := Function.update s.stage c .returned
          runs := s.runs ++ [c] }
      else none
  | .call c responseIdentify seq serialises =>
      if !s.closing ∧ s.stage c = .notMade then
        (s.table.searchFree (s.table.length + 1) responseIdentify seq).map fun r =>
          { s with
            made := s.made ++ [c]
            table := s.table.insert r c
            stage := Function.update s.stage c (if serialises then .pushing else .failed r) }
      else none
  | .push c =>
      if s.stage c = .pushing then some { s with stage := Function.update s.stage c .returned }
      else none
  | .cleanUp c =>
      match s.stage c with
      | .failed r =>
          some { s with
            table := s.table.erase r
            stage := Function.update s.stage c .failing
            removed := s.removed ++ ((s.table.find r).map fun o => (c, o)).toList }
      | _ => none
  | .fail c =>
      if s.stage c = .failing then
        some { s with stage := Function.update s.stage c .returned, runs := s.runs ++ [c] }
      else none
  | .handle identify =>
      if s.closing ∨ !s.reading ∨ s.taken ≠ [] then none
      else if registered identify then some s
      else
        match s.table.find identify with
        | none => some { s with reading := false }
        | some c => some { s with table := s.table.erase identify, taken := [c] }
  | .runTaken c =>
      if c ∈ s.taken then some { s with taken := s.taken.erase c, runs := s.runs ++ [c] } else none
  | .close =>
      if !s.closing ∧ s.taken = [] ∧ s.made.all (fun c => !(s.stage c).inProgress) then
        some { s with closing := true }
      else none
  | .release =>
      if s.closing ∧ !s.releasing then
        some { s with releasing := true, released := s.table.map Prod.snd, table := [] }
      else none
  | .runReleased c =>
      if c ∈ s.released then
        some { s with released := s.released.erase c, runs := s.runs ++ [c] }
      else none
  | .destroy =>
      if s.releasing ∧ s.released = [] then some { s with destroyed := true } else none

/-- The step takes the entry of a call whose request did not serialise. -/
def TakesFailed (registered : UInt64 → Bool) (s : State κ) : Event κ → Prop
  | .handle identify =>
      registered identify = false ∧
        ∃ c r, s.table.find identify = some c ∧ s.stage c = .failed r
  | _ => False

/-- Every call is resolved once, and by its own entry. -/
structure Resolved (s : State κ) : Prop where
  atMostOnce : ∀ c, s.runs.count c ≤ 1
  own : ∀ q ∈ s.removed, q.1 = q.2
  exactlyOnce : s.destroyed = true → ∀ c ∈ s.made, s.runs.count c = 1

variable {registered : UInt64 → Bool} {s s' : State κ} {e : Event κ}

/-- What a step does, a constructor for each way that an event can go. -/
inductive Steps (registered : UInt64 → Bool) (s : State κ) : Event κ → State κ → Prop
  | refuse {c : κ} (hclosing : s.closing = true) (hstage : s.stage c = .notMade) :
      Steps registered s (.refuse c)
        { s with
          made := s.made ++ [c]
          stage := Function.update s.stage c .returned
          runs := s.runs ++ [c] }
  | call {c : κ} {responseIdentify r : UInt64} {seq : ℤ} {serialises : Bool}
      (hopen : s.closing = false) (hstage : s.stage c = .notMade) (hfree : s.table.find r = none) :
      Steps registered s (.call c responseIdentify seq serialises)
        { s with
          made := s.made ++ [c]
          table := s.table.insert r c
          stage := Function.update s.stage c (if serialises then .pushing else .failed r) }
  | push {c : κ} (hstage : s.stage c = .pushing) :
      Steps registered s (.push c) { s with stage := Function.update s.stage c .returned }
  | cleanUp {c : κ} {r : UInt64} (hstage : s.stage c = .failed r) :
      Steps registered s (.cleanUp c)
        { s with
          table := s.table.erase r
          stage := Function.update s.stage c .failing
          removed := s.removed ++ ((s.table.find r).map fun o => (c, o)).toList }
  | fail {c : κ} (hstage : s.stage c = .failing) :
      Steps registered s (.fail c)
        { s with stage := Function.update s.stage c .returned, runs := s.runs ++ [c] }
  | serve {identify : UInt64} (hregistered : registered identify = true) :
      Steps registered s (.handle identify) s
  | drop {identify : UInt64} (hfind : s.table.find identify = none) :
      Steps registered s (.handle identify) { s with reading := false }
  | take {identify : UInt64} {c : κ} (hopen : s.closing = false) (htaken : s.taken = [])
      (hregistered : registered identify = false) (hfind : s.table.find identify = some c) :
      Steps registered s (.handle identify)
        { s with table := s.table.erase identify, taken := [c] }
  | runTaken {c : κ} (htaken : c ∈ s.taken) :
      Steps registered s (.runTaken c)
        { s with taken := s.taken.erase c, runs := s.runs ++ [c] }
  | close (htaken : s.taken = []) (hmade : ∀ c ∈ s.made, (s.stage c).inProgress = false) :
      Steps registered s .close { s with closing := true }
  | release (hclosing : s.closing = true) (hreleasing : s.releasing = false) :
      Steps registered s .release
        { s with releasing := true, released := s.table.map Prod.snd, table := [] }
  | runReleased {c : κ} (hreleased : c ∈ s.released) :
      Steps registered s (.runReleased c)
        { s with released := s.released.erase c, runs := s.runs ++ [c] }
  | destroy (hreleasing : s.releasing = true) (hreleased : s.released = []) :
      Steps registered s .destroy { s with destroyed := true }

theorem steps_of_step (hstep : step registered s e = some s') : Steps registered s e s' := by
  cases e with
  | refuse c =>
      simp only [step, Option.ite_none_right_eq_some, Option.some.injEq] at hstep
      obtain ⟨⟨hclosing, hstage⟩, rfl⟩ := hstep
      exact .refuse hclosing hstage
  | call c responseIdentify seq serialises =>
      simp only [step, Option.ite_none_right_eq_some, Option.map_eq_some_iff] at hstep
      obtain ⟨⟨hopen, hstage⟩, r, hr, rfl⟩ := hstep
      exact .call (by simpa using hopen) hstage (ResponseTable.find_searchFree hr)
  | push c =>
      simp only [step, Option.ite_none_right_eq_some, Option.some.injEq] at hstep
      obtain ⟨hstage, rfl⟩ := hstep
      exact .push hstage
  | cleanUp c =>
      simp only [step] at hstep
      split at hstep
      · rename_i r hstage
        obtain rfl := Option.some.inj hstep
        exact .cleanUp hstage
      · cases hstep
  | fail c =>
      simp only [step, Option.ite_none_right_eq_some, Option.some.injEq] at hstep
      obtain ⟨hstage, rfl⟩ := hstep
      exact .fail hstage
  | handle identify =>
      simp only [step, Option.ite_none_left_eq_some, not_or, ne_eq, not_not] at hstep
      obtain ⟨⟨hopen, hreading, htaken⟩, hstep⟩ := hstep
      split at hstep
      · rename_i hregistered
        obtain rfl := Option.some.inj hstep
        exact .serve hregistered
      rename_i hregistered
      split at hstep
      · rename_i hfind
        obtain rfl := Option.some.inj hstep
        exact .drop hfind
      · rename_i c hfind
        obtain rfl := Option.some.inj hstep
        exact .take (by simpa using hopen) htaken (by simpa using hregistered) hfind
  | runTaken c =>
      simp only [step, Option.ite_none_right_eq_some, Option.some.injEq] at hstep
      obtain ⟨htaken, rfl⟩ := hstep
      exact .runTaken htaken
  | close =>
      simp only [step, Option.ite_none_right_eq_some, Option.some.injEq, List.all_eq_true,
        Bool.not_eq_true'] at hstep
      obtain ⟨⟨_, htaken, hmade⟩, rfl⟩ := hstep
      exact .close htaken hmade
  | release =>
      simp only [step, Option.ite_none_right_eq_some, Option.some.injEq, Bool.not_eq_true'] at hstep
      obtain ⟨⟨hclosing, hreleasing⟩, rfl⟩ := hstep
      exact .release hclosing hreleasing
  | runReleased c =>
      simp only [step, Option.ite_none_right_eq_some, Option.some.injEq] at hstep
      obtain ⟨hreleased, rfl⟩ := hstep
      exact .runReleased hreleased
  | destroy =>
      simp only [step, Option.ite_none_right_eq_some, Option.some.injEq] at hstep
      obtain ⟨⟨hreleasing, hreleased⟩, rfl⟩ := hstep
      exact .destroy hreleasing hreleased

/-! ### What holds in any case -/

structure Base (s : State κ) : Prop where
  table : s.table.Valid
  made : ∀ c, s.stage c ≠ .notMade ↔ c ∈ s.made
  nodup : s.made.Nodup
  closing : s.closing = true → s.taken = [] ∧ ∀ c, (s.stage c).inProgress = false
  releasing : s.releasing = true → s.closing = true ∧ s.table = []
  released : s.releasing = false → s.released = []
  destroyed : s.destroyed = true → s.releasing = true ∧ s.released = []

omit [DecidableEq κ] in
theorem base_init : Base ({} : State κ) := by
  refine ⟨List.nodup_nil, ?_, List.nodup_nil, ?_, ?_, ?_, ?_⟩
  · simp
  · simp
  · simp
  · simp
  · simp

omit [DecidableEq κ] in
theorem Base.fresh (h : Base s) {c : κ} (hc : s.stage c = .notMade) : c ∉ s.made :=
  fun hmade => (h.made c).mpr hmade hc

omit [DecidableEq κ] in
theorem Base.open_of_inProgress (h : Base s) {c : κ} (hc : (s.stage c).inProgress = true) :
    s.closing = false := by
  by_contra hclosing
  have := (h.closing (by simpa using hclosing)).2 c
  simp [hc] at this

omit [DecidableEq κ] in
theorem Base.nodup_concat (h : Base s) {c : κ} (hc : s.stage c = .notMade) :
    (s.made ++ [c]).Nodup :=
  List.nodup_append_comm.mp (List.nodup_cons.mpr ⟨h.fresh hc, h.nodup⟩)

theorem inProgress_update {c d : κ} {stage : κ → Stage} {k : Stage} (hk : k.inProgress = false)
    (h : (stage d).inProgress = false) : (Function.update stage c k d).inProgress = false := by
  by_cases hd : d = c
  · subst hd
    simpa using hk
  · simpa [hd] using h

/-- A call moves on from a stage at which it is made already. -/
theorem Base.made_update (h : Base s) {c : κ} {k : Stage} (hk : k ≠ .notMade)
    (hc : s.stage c ≠ .notMade) (d : κ) :
    Function.update s.stage c k d ≠ .notMade ↔ d ∈ s.made := by
  by_cases hd : d = c
  · subst hd
    simpa [hk] using (h.made d).mp hc
  · simpa [hd] using h.made d

theorem Base.made_concat (h : Base s) {c : κ} {k : Stage} (hk : k ≠ .notMade) (d : κ) :
    Function.update s.stage c k d ≠ .notMade ↔ d ∈ s.made ++ [c] := by
  by_cases hd : d = c
  · subst hd
    simpa using hk
  · simpa [hd] using h.made d

theorem Base.step (h : Base s) (hstep : Calls.step registered s e = some s') : Base s' := by
  cases steps_of_step hstep with
  | @refuse c hclosing hstage =>
      refine ⟨h.table, h.made_concat (by simp), h.nodup_concat hstage,
        fun hcl => ⟨(h.closing hcl).1, fun d => ?_⟩, h.releasing, h.released, h.destroyed⟩
      exact inProgress_update rfl ((h.closing hcl).2 d)
  | @call c responseIdentify r seq serialises hopen hstage hfree =>
      have hk : (if serialises then Stage.pushing else .failed r) ≠ .notMade := by
        cases serialises
        · simp
        · simp
      refine ⟨h.table.insert hfree c, h.made_concat hk, h.nodup_concat hstage, ?_, ?_,
        h.released, h.destroyed⟩
      · intro hcl
        exact absurd hcl (by simp [hopen])
      · intro hrel
        exact absurd (h.releasing hrel).1 (by simp [hopen])
  | @push c hstage =>
      refine ⟨h.table, h.made_update (by simp) (by simp [hstage]), h.nodup,
        fun hcl => ⟨(h.closing hcl).1, fun d => ?_⟩, h.releasing, h.released, h.destroyed⟩
      exact inProgress_update rfl ((h.closing hcl).2 d)
  | @cleanUp c r hstage =>
      have hopen : s.closing = false := h.open_of_inProgress (by rw [hstage]; rfl)
      refine ⟨h.table.erase r, h.made_update (by simp) (by simp [hstage]), h.nodup, ?_, ?_,
        h.released, h.destroyed⟩
      · intro hcl
        exact absurd hcl (by simp [hopen])
      · intro hrel
        exact absurd (h.releasing hrel).1 (by simp [hopen])
  | @fail c hstage =>
      refine ⟨h.table, h.made_update (by simp) (by simp [hstage]), h.nodup,
        fun hcl => ⟨(h.closing hcl).1, fun d => ?_⟩, h.releasing, h.released, h.destroyed⟩
      exact inProgress_update rfl ((h.closing hcl).2 d)
  | serve _ => exact h
  | drop _ => exact ⟨h.table, h.made, h.nodup, h.closing, h.releasing, h.released, h.destroyed⟩
  | @take identify c hopen _ _ _ =>
      refine ⟨h.table.erase identify, h.made, h.nodup, ?_, ?_, h.released, h.destroyed⟩
      · intro hcl
        exact absurd hcl (by simp [hopen])
      · intro hrel
        exact absurd (h.releasing hrel).1 (by simp [hopen])
  | @runTaken c htaken =>
      refine ⟨h.table, h.made, h.nodup, fun hcl => ?_, h.releasing, h.released, h.destroyed⟩
      rw [(h.closing hcl).1] at htaken
      cases htaken
  | close htaken hmade =>
      refine ⟨h.table, h.made, h.nodup, fun _ => ⟨htaken, fun c => ?_⟩,
        fun hrel => ⟨rfl, (h.releasing hrel).2⟩, h.released, h.destroyed⟩
      by_cases hc : c ∈ s.made
      · exact hmade c hc
      · have hstage : s.stage c = .notMade := by
          by_contra hne
          exact hc ((h.made c).mp hne)
        show (s.stage c).inProgress = false
        rw [hstage]
        rfl
  | release hclosing hreleasing =>
      refine ⟨List.nodup_nil, h.made, h.nodup, h.closing, fun _ => ⟨hclosing, rfl⟩, ?_, ?_⟩
      · intro hrel
        cases hrel
      · intro hd
        exact absurd (h.destroyed hd).1 (by simp [hreleasing])
  | @runReleased c hreleased =>
      refine ⟨h.table, h.made, h.nodup, h.closing, h.releasing, fun hrel => ?_, fun hd => ?_⟩
      · rw [h.released hrel] at hreleased
        cases hreleased
      · rw [(h.destroyed hd).2] at hreleased
        cases hreleased
  | destroy hreleasing hreleased =>
      exact ⟨h.table, h.made, h.nodup, h.closing, h.releasing, h.released,
        fun _ => ⟨hreleasing, hreleased⟩⟩

/-! ### Every call has one token

A call that is made has its entry, or its closure is out of the table and waits to
be run, or `CallMethod` is about to run it, or it was run.
-/

def tokens (s : State κ) (c : κ) : ℕ :=
  (s.table.map Prod.snd).count c + s.taken.count c + s.released.count c +
    (if s.stage c = .failing then 1 else 0) + s.runs.count c

structure Once (s : State κ) : Prop where
  tokens : ∀ c, tokens s c = s.made.count c
  failed : ∀ c r, s.stage c = .failed r → (r, c) ∈ s.table
  own : ∀ q ∈ s.removed, q.1 = q.2

theorem once_init : Once ({} : State κ) := by
  refine ⟨fun c => rfl, ?_, ?_⟩
  · simp
  · simp

/-- The calls of the entries, with one entry erased. -/
theorem count_erase {t : ResponseTable κ} {r : UInt64} {c : κ} (ht : t.Valid) (h : (r, c) ∈ t)
    (d : κ) :
    (t.map Prod.snd).count d = ((t.erase r).map Prod.snd).count d + if c = d then 1 else 0 := by
  rw [((ht.perm_cons_erase h).map Prod.snd).count_eq, List.map_cons, List.count_cons]
  simp

omit [DecidableEq κ] in
theorem mem_erase_of_ne {t : ResponseTable κ} {r r' : UInt64} {c : κ} (h : (r, c) ∈ t)
    (hr : r ≠ r') : (r, c) ∈ t.erase r' :=
  List.mem_filter.mpr ⟨h, by simpa using hr⟩

/-- What a call that moves to another stage adds to `tokens`. -/
theorem failing_update {stage : κ → Stage} {c d : κ} {k : Stage} :
    (if Function.update stage c k d = .failing then 1 else 0) =
      if c = d then (if k = .failing then 1 else 0) else if stage d = .failing then 1 else 0 := by
  by_cases hd : d = c
  · subst hd
    simp
  · simp [hd, Ne.symm hd]

theorem failed_update {stage : κ → Stage} {c d : κ} {k : Stage} {r : UInt64}
    (hk : ∀ r, k ≠ .failed r) (h : Function.update stage c k d = .failed r) :
    stage d = .failed r ∧ d ≠ c := by
  by_cases hd : d = c
  · subst hd
    rw [Function.update_self] at h
    exact absurd h (hk r)
  · exact ⟨by simpa [hd] using h, hd⟩

theorem Once.tokens_step (hb : Base s) (h : Once s) (hstep : step registered s e = some s')
    (d : κ) : Calls.tokens s' d = s'.made.count d := by
  have hd := h.tokens d
  rw [Calls.tokens] at hd ⊢
  cases steps_of_step hstep with
  | @refuse c hclosing hstage =>
      simp only [List.count_append, List.count_singleton, failing_update, beq_iff_eq]
      by_cases hcd : c = d
      · subst hcd
        simp only [hstage, reduceCtorEq, if_false, if_true] at hd ⊢
        omega
      · simp only [hcd, if_false]
        omega
  | @call c responseIdentify r seq serialises hopen hstage hfree =>
      have hk : (if serialises then Stage.pushing else .failed r) ≠ .failing := by
        cases serialises
        · simp
        · simp
      simp only [ResponseTable.insert_of_find_eq_none hfree, List.map_append, List.map_cons,
        List.map_nil, List.count_append, List.count_singleton, failing_update, beq_iff_eq]
      by_cases hcd : c = d
      · subst hcd
        simp only [hstage, hk, reduceCtorEq, if_false, if_true] at hd ⊢
        omega
      · simp only [hcd, if_false]
        omega
  | @push c hstage =>
      simp only [failing_update]
      by_cases hcd : c = d
      · subst hcd
        simpa [hstage] using hd
      · simpa [hcd] using hd
  | @cleanUp c r hstage =>
      -- the entry under `r` is still the call's own, so its token becomes the last run
      have hcount := count_erase hb.table (h.failed c r hstage) d
      simp only [failing_update]
      by_cases hcd : c = d
      · subst hcd
        simp only [hstage, reduceCtorEq, if_false, if_true] at hd hcount ⊢
        omega
      · simp only [hcd, if_false] at hcount ⊢
        omega
  | @fail c hstage =>
      simp only [List.count_append, List.count_singleton, failing_update, beq_iff_eq]
      by_cases hcd : c = d
      · subst hcd
        simp only [hstage, reduceCtorEq, if_false, if_true] at hd ⊢
        omega
      · simp only [hcd, if_false]
        omega
  | serve _ => exact hd
  | drop _ => exact hd
  | @take identify c hopen htaken hregistered hfind =>
      have hcount := count_erase hb.table (ResponseTable.mem_of_find hfind) d
      rw [htaken, List.count_nil] at hd
      simp only [List.count_singleton, beq_iff_eq]
      omega
  | @runTaken c htaken =>
      have hcount := (List.perm_cons_erase htaken).count_eq d
      simp only [List.count_cons, beq_iff_eq] at hcount
      simp only [List.count_append, List.count_singleton, beq_iff_eq]
      omega
  | close htaken hmade => exact hd
  | release hclosing hreleasing =>
      rw [hb.released hreleasing, List.count_nil] at hd
      simp only [List.map_nil, List.count_nil]
      omega
  | @runReleased c hreleased =>
      have hcount := (List.perm_cons_erase hreleased).count_eq d
      simp only [List.count_cons, beq_iff_eq] at hcount
      simp only [List.count_append, List.count_singleton, beq_iff_eq]
      omega
  | destroy hreleasing hreleased => exact hd

theorem Once.failed_step (hb : Base s) (h : Once s) (htake : ¬ TakesFailed registered s e)
    (hstep : step registered s e = some s') (d : κ) (r : UInt64) (hd : s'.stage d = .failed r) :
    (r, d) ∈ s'.table := by
  cases steps_of_step hstep with
  | @refuse c hclosing hstage => exact h.failed d r (failed_update (by simp) hd).1
  | @call c responseIdentify r' seq serialises hopen hstage hfree =>
      rw [ResponseTable.insert_of_find_eq_none hfree]
      by_cases hdc : d = c
      · subst hdc
        cases serialises with
        | true => simp at hd
        | false =>
            obtain rfl : r' = r := by simpa using hd
            exact List.mem_append_right _ (List.mem_singleton_self _)
      · exact List.mem_append_left _ (h.failed d r (by simpa [hdc] using hd))
  | @push c hstage => exact h.failed d r (failed_update (by simp) hd).1
  | @cleanUp c r' hstage =>
      obtain ⟨hd', hdc⟩ := failed_update (by simp) hd
      apply mem_erase_of_ne (h.failed d r hd')
      -- two calls do not share an identifier
      rintro rfl
      have := List.inj_on_of_nodup_map hb.table (h.failed d r hd') (h.failed c r hstage) rfl
      exact hdc (congrArg Prod.snd this)
  | @fail c hstage => exact h.failed d r (failed_update (by simp) hd).1
  | serve _ => exact h.failed d r hd
  | drop _ => exact h.failed d r hd
  | @take identify c hopen htaken hregistered hfind =>
      apply mem_erase_of_ne (h.failed d r hd)
      rintro rfl
      apply htake
      refine ⟨hregistered, d, r, ?_, hd⟩
      exact hb.table.find_eq_some_iff.mpr (h.failed d r hd)
  | runTaken _ => exact h.failed d r hd
  | close _ _ => exact h.failed d r hd
  | release hclosing hreleasing =>
      -- on a closed connection nobody is inside `CallMethod`
      have := (hb.closing hclosing).2 d
      rw [show s.stage d = .failed r from hd] at this
      cases this
  | runReleased _ => exact h.failed d r hd
  | destroy _ _ => exact h.failed d r hd

theorem Once.own_step (hb : Base s) (h : Once s) (hstep : step registered s e = some s') :
    ∀ q ∈ s'.removed, q.1 = q.2 := by
  cases steps_of_step hstep with
  | @cleanUp c r hstage =>
      have hfind := hb.table.find_eq_some_iff.mpr (h.failed c r hstage)
      intro q hq
      rw [hfind] at hq
      rcases List.mem_append.mp hq with hq | hq
      · exact h.own q hq
      · obtain rfl : q = (c, c) := by simpa using hq
        rfl
  | _ => exact h.own

theorem Once.step (hb : Base s) (h : Once s) (htake : ¬ TakesFailed registered s e)
    (hstep : Calls.step registered s e = some s') : Once s' :=
  ⟨h.tokens_step hb hstep, h.failed_step hb htake hstep, h.own_step hb hstep⟩

theorem Once.resolved (hb : Base s) (h : Once s) : Resolved s := by
  have hruns : ∀ c, s.runs.count c ≤ Calls.tokens s c := fun c => Nat.le_add_left _ _
  refine ⟨fun c => ?_, h.own, fun hd c hc => ?_⟩
  · calc
      s.runs.count c ≤ Calls.tokens s c := hruns c
      _ = s.made.count c := h.tokens c
      _ ≤ 1 := List.nodup_iff_count_le_one.mp hb.nodup c
  · obtain ⟨hreleasing, hreleased⟩ := hb.destroyed hd
    obtain ⟨hclosing, htable⟩ := hb.releasing hreleasing
    obtain ⟨htaken, hstage⟩ := hb.closing hclosing
    have hfailing : s.stage c ≠ .failing := fun hf => by
      have := hstage c
      rw [hf] at this
      cases this
    have htokens : Calls.tokens s c = s.runs.count c := by
      simp [Calls.tokens, htable, htaken, hreleased, hfailing]
    rw [← htokens, h.tokens c]
    exact List.count_eq_one_of_mem hb.nodup hc

/-! ### What taking a failed call's entry leads to -/

/-- The runs of `done` that `CallMethod` is certain to come to. -/
def Stage.runsAhead : Stage → ℕ
  | .failed _ | .failing => 1
  | .notMade | .pushing | .returned => 0

/-- The runs of `done` that the call has had or is certain to have. -/
def certain (s : State κ) (c : κ) : ℕ :=
  s.taken.count c + s.runs.count c + (s.stage c).runsAhead

theorem certain_le_step (hstep : step registered s e = some s') (d : κ) :
    certain s d ≤ certain s' d := by
  cases steps_of_step hstep with
  | @refuse c hclosing hstage =>
      by_cases hdc : d = c
      · subst hdc
        simp [certain, Stage.runsAhead, hstage]
      · simp [certain, hdc]
  | @call c responseIdentify r seq serialises hopen hstage hfree =>
      by_cases hdc : d = c
      · subst hdc
        simp [certain, Stage.runsAhead, hstage]
      · simp [certain, hdc]
  | @push c hstage =>
      by_cases hdc : d = c
      · subst hdc
        simp [certain, Stage.runsAhead, hstage]
      · simp [certain, hdc]
  | @cleanUp c r hstage =>
      by_cases hdc : d = c
      · subst hdc
        simp [certain, Stage.runsAhead, hstage]
      · simp [certain, hdc]
  | @fail c hstage =>
      by_cases hdc : d = c
      · subst hdc
        have hruns : (s.runs ++ [d]).count d = s.runs.count d + 1 := by simp
        simp only [certain, hstage, Function.update_self, hruns, Stage.runsAhead]
        omega
      · simp [certain, hdc, List.count_append]
  | serve _ => exact le_rfl
  | drop _ => exact le_rfl
  | @take identify c hopen htaken hregistered hfind => simp [certain, htaken]
  | @runTaken c htaken =>
      have hcount := (List.perm_cons_erase htaken).count_eq d
      simp only [List.count_cons, beq_iff_eq] at hcount
      simp only [certain, List.count_append, List.count_singleton, beq_iff_eq]
      omega
  | close _ _ => exact le_rfl
  | release _ _ => exact le_rfl
  | @runReleased c hreleased => simp [certain, List.count_append]
  | destroy _ _ => exact le_rfl

theorem two_le_certain_of_takesFailed (htake : TakesFailed registered s e)
    (hstep : step registered s e = some s') : ∃ c, 2 ≤ certain s' c := by
  cases steps_of_step hstep with
  | @serve identify hregistered =>
      have := htake.1
      simp [hregistered] at this
  | @drop identify hfind =>
      obtain ⟨-, c, r, hc, -⟩ := htake
      simp [hfind] at hc
  | @take identify c hopen htaken hregistered hfind =>
      obtain ⟨-, c', r, hc', hstage⟩ := htake
      obtain rfl : c = c' := by simpa [hfind] using hc'
      -- the handler runs `done` now, and `CallMethod` after its clean-up
      refine ⟨c, ?_⟩
      simp [certain, Stage.runsAhead, hstage]
  | _ => cases htake

/-- A destroyed connection has nothing left to run. -/
theorem Base.certain_eq_runs (h : Base s) (hd : s.destroyed = true) (c : κ) :
    certain s c = s.runs.count c := by
  obtain ⟨hclosing, htable⟩ := h.releasing (h.destroyed hd).1
  obtain ⟨htaken, hstage⟩ := h.closing hclosing
  have hc := hstage c
  cases hk : s.stage c with
  | failed r =>
      rw [hk] at hc
      cases hc
  | failing =>
      rw [hk] at hc
      cases hc
  | notMade => simp [certain, Stage.runsAhead, hk, htaken]
  | pushing => simp [certain, Stage.runsAhead, hk, htaken]
  | returned => simp [certain, Stage.runsAhead, hk, htaken]

/-! ### Whole runs -/

/-- **Every call is resolved exactly once** in a run in which no frame takes the
entry of a call whose request did not serialise; and a run up to the destruction
of the connection resolves every call exactly once only then. -/
theorem run_resolved_iff {es : List (Event κ)}
    (hrun : Machine.run (step registered) {} es = some s) :
    (Machine.Along (step registered) (fun t e => ¬ TakesFailed registered t e) {} es →
      Resolved s) ∧
    (s.destroyed = true → Resolved s →
      Machine.Along (step registered) (fun t e => ¬ TakesFailed registered t e) {} es) := by
  constructor
  · intro halong
    have hkeep : ∀ (t : State κ) e t', ¬ TakesFailed registered t e → Base t ∧ Once t →
        step registered t e = some t' → Base t' ∧ Once t' :=
      fun t e t' htake h hstep => ⟨h.1.step hstep, h.2.step h.1 htake hstep⟩
    obtain ⟨hb, h⟩ := Machine.run_invariant_along hkeep halong ⟨base_init, once_init⟩ hrun
    exact h.resolved hb
  · intro hd hresolved
    have hb : Base s := Machine.run_invariant (fun t e t' h => h.step) base_init hrun
    apply Machine.Along.of_run (I := Base) (J := fun t => ∃ c, 2 ≤ certain t c)
      (fun t e t' h => h.step) ?_ ?_ base_init hrun
    · rintro ⟨c, hc⟩
      rw [hb.certain_eq_runs hd c] at hc
      have := hresolved.atMostOnce c
      omega
    · intro t e t' _ htake hstep
      exact two_le_certain_of_takesFailed (not_not.mp htake) hstep
    · rintro t e t' _ ⟨c, hc⟩ hstep
      exact ⟨c, hc.trans (certain_le_step hstep c)⟩

/-- A call that is answered, and one that fails to serialise and cleans up. -/
theorem run_resolved_iff_answered :
    ∃ s, Machine.run (step fun _ => false) {}
        [Event.call 0 7 1 true, .push 0, .handle 7, .runTaken 0, .call 1 7 1 false, .cleanUp 1,
          .fail 1, .close, .release, .destroy] = some s ∧
      Resolved s := by
  obtain ⟨s, hrun⟩ : ∃ s, Machine.run (step fun _ => false) {}
      [Event.call 0 7 1 true, .push 0, .handle 7, .runTaken 0, .call 1 7 1 false, .cleanUp 1,
        .fail 1, .close, .release, .destroy] = some s := ⟨_, rfl⟩
  refine ⟨s, hrun, (run_resolved_iff hrun).1 ?_⟩
  simp [Machine.Along, step, TakesFailed, ResponseTable.searchFree, ResponseTable.find,
    ResponseTable.insert]

/-- The request of call 0 does not serialise. Before its clean-up the peer sends
the identifier 7 unasked, and call 1 reuses it: `done` of call 0 is run twice,
and `done` of call 1 never. -/
theorem run_unresolved :
    ∃ s, Machine.run (step fun _ => false) {}
        [Event.call 0 7 1 false, .handle 7, .runTaken 0, .call 1 7 1 true, .cleanUp 0, .fail 0,
          .push 1, .close, .release, .destroy] = some s ∧
      s.destroyed = true ∧ s.runs = [0, 0] ∧ s.removed = [(0, 1)] ∧ 1 ∈ s.made ∧
      ¬ Resolved s := by
  refine ⟨_, rfl, rfl, rfl, rfl, by decide, fun h => ?_⟩
  exact absurd (h.atMostOnce 0) (by decide)

end Tt3d.Network.Calls
