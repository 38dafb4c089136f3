import Mathlib.Data.List.Nodup
import Mathlib.Logic.Function.Basic
import Tt3d.Lib.Machine

/-!
The listening resources of `Server`: `Listen`, the completions of `async_accept`
and the end of `Stop`.

A resource is named by its number, in the order in which `Listen` entered them into
the table. The table says what is still owned, yet `ReleaseAcceptor` releases an entry
without erasing it, so `Stop` finds it there and releases it once more. A resource that
is entered when `Stop` has been through the table is left over.
-/

namespace Tt3d.Server.Acceptors

/-- Where the chain of `AcceptorHandler`s of a resource stands. -/
inductive Handler
  /-- There is no such resource. -/
  | absent
  /-- `Listen` has inserted the entry and not yet started to accept. -/
  | listening
  /-- An `async_accept` is outstanding. -/
  | accepting
  /-- An accept failed; `ReleaseAcceptor` has not been entered yet. -/
  | failed
  | finished
  deriving DecidableEq, Repr

/-- Where the call of `Stop` stands that holds `stop_mutex_`. -/
inductive Stopper
  | none
  /-- Past the test of the pool. -/
  | running
  /-- Behind the section on the table. -/
  | released
  deriving DecidableEq, Repr

structure State (κ : Type*) where
  acceptorTable : List (κ × ℕ)
  /-- The `host_` of each resource. -/
  hosts : List κ
  /-- The calls of `Listen` that have started the pool and are before the table. -/
  starting : ℕ
  handler : ℕ → Handler
  /-- `io_service_pool_.IsRunning()`. -/
  isRunning : Bool
  stopper : Stopper
  /-- How many resources had been made when `Stop` last went through the table. -/
  swept : ℕ
  /-- How often `Release` has been executed on each resource. -/
  releases : ℕ → ℕ

def State.init {κ : Type*} : State κ :=
  { acceptorTable := [], hosts := [], starting := 0, handler := fun _ => .absent,
    isRunning := false, stopper := .none, swept := 0, releases := fun _ => 0 }

inductive Event (κ : Type*)
  /-- `Listen`: `io_service_pool_.Start()`. -/
  | start
  /-- `Listen`: the section on the table. -/
  | listen (host : κ)
  /-- `Listen`: the first `async_accept`. -/
  | asyncAccept (n : ℕ)
  /-- A completion without an error, which accepts anew. -/
  | accepted (n : ℕ)
  | failed (n : ℕ)
  | releaseAcceptor (n : ℕ)
  /-- `Stop`, up to its section on the table. -/
  | stop
  | releaseAll
  /-- `io_service_pool_.Stop()` and the end of `Stop`. -/
  | stopped
  deriving DecidableEq, Repr

section Step

variable {κ : Type*}

def State.release (s : State κ) (n : ℕ) : State κ :=
  { s with releases := Function.update s.releases n (s.releases n + 1) }

/-- The section of `Server::ReleaseAcceptor( host )`. -/
def State.releaseAcceptor [DecidableEq κ] (s : State κ) (host : κ) : State κ :=
  match s.acceptorTable.lookup host with
  | none => s
  | some n => s.release n

/-- The section of `Server::Stop` on the table. -/
def State.releaseAll (s : State κ) : State κ :=
  let t := s.acceptorTable.foldl (fun s e => s.release e.2) s
  { t with acceptorTable := [], stopper := .released, swept := s.hosts.length }

/-- `acceptor_table_.insert( make_pair( host, resource ) )`. -/
def State.insert [DecidableEq κ] (s : State κ) (host : κ) (n : ℕ) : State κ :=
  { s with acceptorTable :=
      if (s.acceptorTable.lookup host).isSome then s.acceptorTable
      else s.acceptorTable ++ [(host, n)] }

def State.setHandler (s : State κ) (n : ℕ) (h : Handler) : State κ :=
  { s with handler := Function.update s.handler n h }

/-- Every `Listen` has a host of its own. -/
def step [DecidableEq κ] (s : State κ) : Event κ → Option (State κ)
  | .start => some { s with starting := s.starting + 1, isRunning := true }
  | .listen host =>
      if s.starting = 0 ∨ host ∈ s.hosts then none
      else
        let n := s.hosts.length
        some { (s.setHandler n .listening).insert host n with
          hosts := s.hosts ++ [host]
          starting := s.starting - 1 }
  | .asyncAccept n =>
      if s.handler n = .listening then some (s.setHandler n .accepting) else none
  | .accepted n => if s.handler n = .accepting then some (s.setHandler n .accepting) else none
  | .failed n => if s.handler n = .accepting then some (s.setHandler n .failed) else none
  | .releaseAcceptor n =>
      if s.handler n = .failed then
        (s.hosts[n]?).map fun host => (s.releaseAcceptor host).setHandler n .finished
      else none
  | .stop =>
      if s.stopper = .none then
        if s.isRunning then some { s with stopper := .running } else some s
      else none
  | .releaseAll => if s.stopper = .running then some s.releaseAll else none
  | .stopped =>
      if s.stopper = .released then some { s with isRunning := false, stopper := .none } else none

end Step

/-! ### What is still owned -/

variable {κ : Type*} {s s' : State κ} {a : Event κ}

/-- The resources that the table owns. -/
def State.owned (s : State κ) : List ℕ := s.acceptorTable.map Prod.snd

/-- How often the resource is released when the table is emptied now. -/
def State.total (s : State κ) (n : ℕ) : ℕ := s.releases n + s.owned.count n

/-- No resource is released twice. Once `Stop` has been through the table, every resource
made before is released, and once it has stopped the server every resource is. -/
structure ReleasedOnce (s : State κ) : Prop where
  atMostOnce : ∀ n, s.releases n ≤ 1
  afterSection : ∀ n < s.swept, s.releases n = 1
  afterStop : s.isRunning = false → ∀ n < s.hosts.length, s.releases n = 1

/-- `ReleaseAcceptor` finds no entry for its host, and `Listen` enters a resource only
while the pool runs and no `Stop` has been through the table. -/
def Orderly [DecidableEq κ] (s : State κ) : Event κ → Prop
  | .releaseAcceptor n => ∀ host, s.hosts[n]? = some host → s.acceptorTable.lookup host = none
  | .listen _ => s.isRunning = true ∧ s.stopper ≠ .released
  | .start | .asyncAccept _ | .accepted _ | .failed _ | .stop | .releaseAll | .stopped => True

instance [DecidableEq κ] (s : State κ) : ∀ a, Decidable (Orderly s a)
  | .releaseAcceptor n => inferInstanceAs (Decidable
      (∀ host ∈ s.hosts[n]?, s.acceptorTable.lookup host = none))
  | .listen _ => inferInstanceAs (Decidable (s.isRunning = true ∧ s.stopper ≠ .released))
  | .start | .asyncAccept _ | .accepted _ | .failed _ | .stop | .releaseAll | .stopped =>
      isTrue trivial

/-- Nothing that was made is lost, and the table keeps each resource under its host; it
has only those made since `Stop` went through it. -/
structure Listed (s : State κ) : Prop where
  made : ∀ n, 1 ≤ s.total n ↔ n < s.hosts.length
  host : ∀ e ∈ s.acceptorTable, s.hosts[e.2]? = some e.1
  since : ∀ e ∈ s.acceptorTable, s.swept ≤ e.2
  swept : s.swept ≤ s.hosts.length

/-- Some resource has been released although the table still owns it, or twice. -/
def Overdone (s : State κ) : Prop := ∃ n, 2 ≤ s.total n

/-- `Stop` is behind its section, or the pool does not run. -/
def State.Over (s : State κ) : Prop := s.stopper = .released ∨ s.isRunning = false

/-- The table owns something all the same. -/
def LeftOver (s : State κ) : Prop := s.Over ∧ s.acceptorTable ≠ []

/-- Something is released too often, or left over. -/
def Amiss (s : State κ) : Prop := Overdone s ∨ LeftOver s

theorem listed_init : Listed (State.init : State κ) :=
  ⟨fun n => by simp [State.total, State.owned, State.init], by simp [State.init],
    by simp [State.init], Nat.le_refl 0⟩

theorem Listed.releases_eq (h : Listed s) (hfine : ¬ Overdone s) {n : ℕ}
    (hn : n < s.hosts.length) (howned : n ∉ s.owned) : s.releases n = 1 := by
  have hle : s.total n ≤ 1 := Nat.not_lt.mp fun hlt => hfine ⟨n, hlt⟩
  have hmade := (h.made n).mpr hn
  rw [State.total, List.count_eq_zero.mpr howned] at hle hmade
  omega

theorem Listed.releasedOnce (h : Listed s) (hfine : ¬ Amiss s) : ReleasedOnce s := by
  rw [Amiss, not_or] at hfine
  obtain ⟨honce, hleft⟩ := hfine
  refine ⟨fun n => ?_, fun n hn => ?_, fun hstopped n hn => ?_⟩
  · have hle : s.total n ≤ 1 := Nat.not_lt.mp fun hlt => honce ⟨n, hlt⟩
    exact Nat.le_trans (Nat.le_add_right _ _) hle
  · apply h.releases_eq honce (Nat.lt_of_lt_of_le hn h.swept)
    intro howned
    obtain ⟨e, he, rfl⟩ := List.mem_map.mp howned
    exact absurd (h.since e he) (Nat.not_le.mpr hn)
  · apply h.releases_eq honce hn
    have hempty : s.acceptorTable = [] := by
      by_contra hne
      exact hleft ⟨Or.inr hstopped, hne⟩
    simp [State.owned, hempty]

/-- With the server stopped, what the table still owns will have been released before. -/
theorem Listed.overdone_of_stopped (h : Listed s) (honce : ReleasedOnce s)
    (hstopped : s.isRunning = false) (hne : s.acceptorTable ≠ []) : Overdone s := by
  obtain ⟨e, he⟩ := List.exists_mem_of_ne_nil _ hne
  have hlt := (List.getElem?_eq_some_iff.mp (h.host e he)).1
  have howned : 0 < s.owned.count e.2 := List.count_pos_iff.mpr (List.mem_map_of_mem he)
  have hreleases := honce.afterStop hstopped e.2 hlt
  exact ⟨e.2, by rw [State.total]; omega⟩

@[simp] theorem setHandler_total (n : ℕ) (h : Handler) : (s.setHandler n h).total = s.total := rfl

/-- Once the table is empty, what has been overdone shows in the releases. -/
theorem not_overdone (h : ReleasedOnce s) (hempty : s.acceptorTable = []) : ¬ Overdone s := by
  rintro ⟨n, hn⟩
  have htotal : s.total n = s.releases n := by simp [State.total, State.owned, hempty]
  have := h.atMostOnce n
  omega

section Totals

theorem release_releases (s : State κ) (n m : ℕ) :
    (s.release n).releases m = s.releases m + if m = n then 1 else 0 := by
  by_cases hmn : m = n
  · simp [State.release, hmn]
  · simp [State.release, hmn]

theorem total_insert [DecidableEq κ] {host : κ} {n : ℕ}
    (hnew : s.acceptorTable.lookup host = none) (m : ℕ) :
    (s.insert host n).total m = s.total m + if m = n then 1 else 0 := by
  have hcount : (s.insert host n).owned.count m = s.owned.count m + if m = n then 1 else 0 := by
    simp only [State.owned, State.insert, hnew, Option.isSome_none, Bool.false_eq_true, if_false,
      List.map_append, List.map_cons, List.map_nil, List.count_append, List.count_singleton,
      beq_iff_eq, eq_comm (a := m)]
  have hreleases : (s.insert host n).releases = s.releases := rfl
  rw [State.total, hcount, hreleases, State.total]
  omega

theorem total_release (n m : ℕ) : (s.release n).total m = s.total m + if m = n then 1 else 0 := by
  have howned : (s.release n).owned = s.owned := rfl
  rw [State.total, howned, release_releases, State.total]
  omega

theorem foldl_release_releases (l : List (κ × ℕ)) (s : State κ) (m : ℕ) :
    (l.foldl (fun s e => s.release e.2) s).releases m =
      s.releases m + (l.map Prod.snd).count m := by
  induction l generalizing s with
  | nil => rfl
  | cons e l ih =>
      rw [List.foldl_cons, ih, release_releases, List.map_cons, List.count_cons]
      simp only [beq_iff_eq, eq_comm (a := m)]
      omega

theorem total_releaseAll : s.releaseAll.total = s.total := by
  funext m
  have hreleases : s.releaseAll.releases m = s.releases m + s.owned.count m :=
    foldl_release_releases s.acceptorTable s m
  have howned : s.releaseAll.owned = [] := rfl
  rw [State.total, hreleases, howned, List.count_nil, Nat.add_zero, State.total]

theorem foldl_release_hosts (l : List (κ × ℕ)) (s : State κ) :
    (l.foldl (fun s e => s.release e.2) s).hosts = s.hosts := by
  induction l generalizing s with
  | nil => rfl
  | cons e l ih => exact ih _

end Totals

/-- What one step does to the resources made and to the releases they come to. -/
inductive Effect [DecidableEq κ] (s s' : State κ) : Event κ → Prop
  | listened (host : κ) (hhosts : s'.hosts = s.hosts ++ [host])
      (htotal : ∀ n, s'.total n = s.total n + if n = s.hosts.length then 1 else 0)
      (htable : s'.acceptorTable = s.acceptorTable ++ [(host, s.hosts.length)])
      (hswept : s'.swept = s.swept) (hover : s'.Over ↔ s.Over) : Effect s s' (.listen host)
  | found (n m : ℕ) (host : κ) (hhost : s.hosts[n]? = some host)
      (hfound : s.acceptorTable.lookup host = some m) (howned : m ∈ s.owned)
      (hhosts : s'.hosts = s.hosts)
      (htotal : ∀ k, s'.total k = s.total k + if k = m then 1 else 0)
      (htable : s'.acceptorTable = s.acceptorTable) (hswept : s'.swept = s.swept)
      (hover : s'.Over ↔ s.Over) : Effect s s' (.releaseAcceptor n)
  | swept (hrunning : s.stopper = .running) (hhosts : s'.hosts = s.hosts)
      (htotal : s'.total = s.total) (htable : s'.acceptorTable = [])
      (hswept : s'.swept = s.hosts.length) : Effect s s' .releaseAll
  | kept (a : Event κ) (horderly : Orderly s a) (hhosts : s'.hosts = s.hosts)
      (htotal : s'.total = s.total) (htable : s'.acceptorTable = s.acceptorTable)
      (hswept : s'.swept = s.swept) (hover : s'.Over → s.Over)
      (hstay : s.stopper = .released → s'.Over) : Effect s s' a

section Steps

variable [DecidableEq κ]

theorem Listed.effect (h : Listed s) (hstep : step s a = some s') : Effect s s' a := by
  cases a with
  | start =>
      obtain rfl := Option.some.inj hstep
      exact .kept _ trivial rfl rfl rfl rfl (fun hover => hover.imp_right nofun) Or.inl
  | listen host =>
      simp only [step] at hstep
      split at hstep <;> cases hstep
      rename_i hnew
      rw [not_or] at hnew
      -- A new host is not in the table, so the insertion takes place.
      have hlookup : (s.setHandler s.hosts.length .listening).acceptorTable.lookup host = none := by
        rw [← Option.not_isSome_iff_eq_none, List.lookup_isSome_iff]
        rintro ⟨e, he, heq⟩
        have hmem := List.mem_of_getElem? (h.host e he)
        rw [← beq_iff_eq.mp heq] at hmem
        exact hnew.2 hmem
      refine .listened host rfl (fun n => ?_) ?_ rfl Iff.rfl
      · exact (total_insert hlookup n).trans (by rw [setHandler_total])
      · have hsome : ((s.setHandler s.hosts.length .listening).acceptorTable.lookup host).isSome ≠
            true := by simp [hlookup]
        exact if_neg hsome
  | releaseAcceptor n =>
      simp only [step] at hstep
      split at hstep
      swap
      · cases hstep
      rw [Option.map_eq_some_iff] at hstep
      obtain ⟨host, hhost, rfl⟩ := hstep
      cases hlookup : s.acceptorTable.lookup host with
      | none =>
          have hsame : s.releaseAcceptor host = s := by simp only [State.releaseAcceptor, hlookup]
          rw [hsame]
          refine .kept _ (fun host' hhost' => ?_) rfl rfl rfl rfl id Or.inl
          obtain rfl := Option.some.inj (hhost.symm.trans hhost')
          exact hlookup
      | some m =>
          have hreleased : s.releaseAcceptor host = s.release m := by
            simp only [State.releaseAcceptor, hlookup]
          obtain ⟨l₁, l₂, htable, -⟩ := List.lookup_eq_some_iff.mp hlookup
          rw [hreleased]
          exact .found n m host hhost hlookup (by simp [State.owned, htable]) rfl
            (fun k => total_release m k) rfl rfl Iff.rfl
  | asyncAccept n | accepted n | failed n =>
      simp only [step] at hstep
      split at hstep <;> cases hstep
      exact .kept _ trivial rfl rfl rfl rfl id Or.inl
  | stop =>
      simp only [step] at hstep
      split at hstep
      swap
      · cases hstep
      rename_i hnone
      split at hstep <;> cases hstep
      · refine .kept _ trivial rfl rfl rfl rfl (fun hover => ?_) (fun hreleased => ?_)
        · exact Or.inr (hover.resolve_left nofun)
        · rw [hnone] at hreleased
          cases hreleased
      · exact .kept _ trivial rfl rfl rfl rfl id Or.inl
  | releaseAll =>
      simp only [step] at hstep
      split at hstep <;> cases hstep
      rename_i hrunning
      exact .swept hrunning (foldl_release_hosts s.acceptorTable s) total_releaseAll rfl rfl
  | stopped =>
      simp only [step] at hstep
      split at hstep <;> cases hstep
      rename_i hreleased
      exact .kept _ trivial rfl rfl rfl rfl (fun _ => Or.inl hreleased) fun _ => Or.inr rfl

theorem Listed.step (h : Listed s) (hstep : Acceptors.step s a = some s') : Listed s' := by
  cases h.effect hstep with
  | listened host hhosts htotal htable hswept =>
      have hlength : s'.hosts.length = s.hosts.length + 1 := by
        rw [hhosts, List.length_append, List.length_singleton]
      refine ⟨fun n => ?_, fun e he => ?_, fun e he => ?_, ?_⟩
      · have hmade := h.made n
        rw [htotal, hlength]
        split <;> omega
      · rw [htable, List.mem_append, List.mem_singleton] at he
        rw [hhosts]
        rcases he with he | rfl
        · have hold := h.host e he
          have hlt := (List.getElem?_eq_some_iff.mp hold).1
          rw [List.getElem?_append_left hlt, hold]
        · exact List.getElem?_concat_length
      · rw [htable, List.mem_append, List.mem_singleton] at he
        rw [hswept]
        rcases he with he | rfl
        · exact h.since e he
        · exact h.swept
      · rw [hswept, hlength]
        exact Nat.le_succ_of_le h.swept
  | found n m host hhost hfound howned hhosts htotal htable hswept =>
      refine ⟨fun k => ?_, ?_, ?_, ?_⟩
      · have hcount : 0 < s.owned.count m := List.count_pos_iff.mpr howned
        have hmade := h.made k
        rw [htotal, hhosts]
        split
        · rename_i hkm
          have hpos : 1 ≤ s.total k := by
            rw [State.total, hkm]
            omega
          omega
        · exact hmade
      · rw [hhosts, htable]
        exact h.host
      · rw [htable, hswept]
        exact h.since
      · rw [hswept, hhosts]
        exact h.swept
  | swept hrunning hhosts htotal htable hswept =>
      refine ⟨fun n => ?_, ?_, ?_, ?_⟩
      · rw [htotal, hhosts]
        exact h.made n
      · simp [htable]
      · simp [htable]
      · exact Nat.le_of_eq (by rw [hswept, hhosts])
  | kept _ horderly hhosts htotal htable hswept =>
      refine ⟨fun n => ?_, ?_, ?_, ?_⟩
      · rw [htotal, hhosts]
        exact h.made n
      · rw [htable, hhosts]
        exact h.host
      · rw [htable, hswept]
        exact h.since
      · rw [hswept, hhosts]
        exact h.swept

/-- An orderly step leaves nothing amiss. -/
theorem Listed.amiss_step (h : Listed s) (hfine : ¬ Amiss s)
    (hstep : Acceptors.step s a = some s') (hamiss : Amiss s') : ¬ Orderly s a := by
  rw [Amiss, not_or] at hfine
  obtain ⟨honce, hleft⟩ := hfine
  have hle : ∀ n, s.total n ≤ 1 := fun n => Nat.not_lt.mp fun hlt => honce ⟨n, hlt⟩
  cases h.effect hstep with
  | listened host hhosts htotal htable hswept hover =>
      rintro ⟨hrunning, hstopper⟩
      rcases hamiss with ⟨n, hn⟩ | ⟨hover', -⟩
      · have hmade := h.made n
        have := hle n
        rw [htotal] at hn
        split at hn <;> omega
      · rcases hover.mp hover' with hreleased | hstopped
        · exact hstopper hreleased
        · rw [hrunning] at hstopped
          cases hstopped
  | found n m host hhost hfound =>
      intro hnothing
      have hnone := hnothing host hhost
      rw [hfound] at hnone
      cases hnone
  | swept hrunning hhosts htotal htable =>
      rcases hamiss with ⟨n, hn⟩ | ⟨-, hne⟩
      · exact absurd ⟨n, htotal ▸ hn⟩ honce
      · exact absurd htable hne
  | kept _ horderly hhosts htotal htable hswept hover =>
      rcases hamiss with ⟨n, hn⟩ | ⟨hover', hne⟩
      · exact absurd ⟨n, htotal ▸ hn⟩ honce
      · exact absurd ⟨hover hover', htable ▸ hne⟩ hleft

/-- A step that is not orderly releases something too often, or leaves it over. -/
theorem Listed.amiss_of_not_orderly (h : Listed s) (hstep : Acceptors.step s a = some s')
    (hnot : ¬ Orderly s a) : Amiss s' := by
  cases h.effect hstep with
  | listened host hhosts htotal htable hswept hover =>
      refine Or.inr ⟨hover.mpr ?_, by simp [htable]⟩
      by_contra hover'
      rw [State.Over, not_or, Bool.not_eq_false] at hover'
      exact hnot ⟨hover'.2, hover'.1⟩
  | found n m host hhost hfound howned hhosts htotal =>
      have hcount : 0 < s.owned.count m := List.count_pos_iff.mpr howned
      refine Or.inl ⟨m, ?_⟩
      rw [htotal, if_pos rfl, State.total]
      omega
  | swept => exact absurd trivial hnot
  | kept _ horderly => exact absurd horderly hnot

/-- What has been overdone stays so: neither the releases nor the owners of a
resource get fewer. -/
theorem Listed.overdone_step (h : Listed s) (hover : Overdone s)
    (hstep : Acceptors.step s a = some s') : Overdone s' := by
  obtain ⟨n, hn⟩ := hover
  refine ⟨n, ?_⟩
  cases h.effect hstep with
  | listened host hhosts htotal htable =>
      rw [htotal]
      omega
  | found _ m host hhost hfound howned hhosts htotal htable =>
      rw [htotal]
      omega
  | swept _ _ htotal => rwa [htotal]
  | kept _ _ hhosts htotal htable => rwa [htotal]

/-- What is amiss stays so as long as it does not show. -/
theorem Listed.amiss_stays (h : Listed s) (honce : ReleasedOnce s) (hamiss : Amiss s)
    (hstep : Acceptors.step s a = some s') : Amiss s' := by
  rcases hamiss with hover | ⟨hover, hne⟩
  · exact Or.inl (h.overdone_step hover hstep)
  by_cases hstopped : s.isRunning = false
  · exact Or.inl (h.overdone_step (h.overdone_of_stopped honce hstopped hne) hstep)
  have hreleased := hover.resolve_right hstopped
  cases h.effect hstep with
  | listened host hhosts htotal htable hswept hover' =>
      exact Or.inr ⟨hover'.mpr hover, by simp [htable]⟩
  | found n m host hhost hfound howned hhosts htotal htable hswept hover' =>
      exact Or.inr ⟨hover'.mpr hover, htable ▸ hne⟩
  | swept hrunning =>
      rw [hrunning] at hreleased
      cases hreleased
  | kept _ _ hhosts htotal htable hswept _ hstay =>
      exact Or.inr ⟨hstay hreleased, htable ▸ hne⟩

/-- **Each listening resource is released once**, as long as no `ReleaseAcceptor` finds
its host in the table and no `Listen` enters one behind the back of `Stop`: then all
states of a run are in order. Where the table is empty in the end, this is so only then. -/
theorem releasedOnce_iff_orderly {es : List (Event κ)}
    (hrun : Machine.run step State.init es = some s) :
    (Machine.Along step Orderly State.init es →
        Machine.Along step (fun s _ => ReleasedOnce s) State.init es ∧ ReleasedOnce s) ∧
      (s.acceptorTable = [] →
        Machine.Along step (fun s _ => ReleasedOnce s) State.init es → ReleasedOnce s →
        Machine.Along step Orderly State.init es) := by
  have hlisted : ∀ (t : State κ) (a : Event κ) (t' : State κ), Listed t →
      step t a = some t' → Listed t' := fun _ _ _ h hstep => h.step hstep
  have hinit : ¬ Amiss (State.init : State κ) := by
    rintro (⟨n, hn⟩ | ⟨-, hne⟩)
    · simp [State.total, State.owned, State.init] at hn
    · exact hne rfl
  constructor
  · intro halong
    have hstep : ∀ (t : State κ) (a : Event κ) (t' : State κ), Orderly t a →
        (Listed t ∧ ¬ Amiss t) → step t a = some t' → Listed t' ∧ ¬ Amiss t' :=
      fun _ _ _ ha h hstep =>
        ⟨h.1.step hstep, fun hamiss => h.1.amiss_step h.2 hstep hamiss ha⟩
    have hend := Machine.run_invariant_along hstep halong ⟨listed_init, hinit⟩ hrun
    refine ⟨?_, hend.1.releasedOnce hend.2⟩
    exact (Machine.Along.of_invariant hstep halong ⟨listed_init, hinit⟩).imp
      fun _ _ h => h.1.releasedOnce h.2
  · intro hempty honce hs
    refine Machine.Along.of_run_along hlisted
      (fun _ _ _ h hnot hstep => h.amiss_of_not_orderly hstep hnot)
      (fun _ _ _ honce h hamiss hstep => h.amiss_stays honce hamiss hstep) honce listed_init hrun ?_
    rintro (hover | ⟨-, hne⟩)
    · exact not_overdone hs hempty hover
    · exact hne hempty

end Steps

/-- Two resources. `Stop` closes the acceptors, and the accept that this aborts finds the
table empty; the server listens again on a third host, and is stopped again. -/
theorem releasedOnce_iff_orderly_restarted :
    ∃ s : State ℕ, Machine.run step State.init [.start, .listen 80, .start, .listen 81,
        .asyncAccept 0, .accepted 0, .stop, .releaseAll, .failed 0, .releaseAcceptor 0, .stopped,
        .start, .listen 82, .stop, .releaseAll, .stopped] = some s ∧
      s.isRunning = false ∧ s.hosts = [80, 81, 82] ∧ ReleasedOnce s := by
  obtain ⟨s, hrun, hstopped, hhosts⟩ : ∃ s : State ℕ, Machine.run step State.init [.start,
      .listen 80, .start, .listen 81, .asyncAccept 0, .accepted 0, .stop, .releaseAll, .failed 0,
      .releaseAcceptor 0, .stopped, .start, .listen 82, .stop, .releaseAll, .stopped] = some s ∧
      s.isRunning = false ∧ s.hosts = [80, 81, 82] := ⟨_, rfl, rfl, rfl⟩
  exact ⟨s, hrun, hstopped, hhosts, ((releasedOnce_iff_orderly hrun).1 (by decide)).2⟩

/-- An accept fails while the server runs: `ReleaseAcceptor` releases the resource and
`Stop` releases it again. -/
theorem accept_error_releases_twice :
    ∃ s : State ℕ, Machine.run step State.init [.start, .listen 80, .asyncAccept 0, .failed 0,
        .releaseAcceptor 0, .stop, .releaseAll, .stopped] = some s ∧ s.releases 0 = 2 ∧
      ¬ ReleasedOnce s := by
  obtain ⟨s, hrun, htwice⟩ : ∃ s : State ℕ, Machine.run step State.init [.start, .listen 80,
      .asyncAccept 0, .failed 0, .releaseAcceptor 0, .stop, .releaseAll, .stopped] = some s ∧
      s.releases 0 = 2 := ⟨_, rfl, rfl⟩
  refine ⟨s, hrun, htwice, fun honce => ?_⟩
  have := honce.atMostOnce 0
  omega

/-- A resource that is entered behind the section of `Stop` is never released. -/
theorem listen_behind_stop_not_released :
    ∃ s : State ℕ, Machine.run step State.init [.start, .listen 80, .start, .stop, .releaseAll,
        .listen 81, .stopped] = some s ∧ s.releases 1 = 0 ∧ ¬ ReleasedOnce s := by
  obtain ⟨s, hrun, hstopped, hhosts, hnever⟩ : ∃ s : State ℕ, Machine.run step State.init [.start,
      .listen 80, .start, .stop, .releaseAll, .listen 81, .stopped] = some s ∧
      s.isRunning = false ∧ s.hosts.length = 2 ∧ s.releases 1 = 0 := ⟨_, rfl, rfl, rfl, rfl⟩
  refine ⟨s, hrun, hnever, fun honce => ?_⟩
  have := honce.afterStop hstopped 1 (by omega)
  omega

end Tt3d.Server.Acceptors
