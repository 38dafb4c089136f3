import Mathlib.Data.List.Nodup
import Mathlib.Logic.Function.Basic
import Tt3d.Lib.Machine
import Tt3d.Server.Channels

/-!
Connections that close while the server accepts them.

`Span` starts to read, so the connection may close before `HandleAccept` comes to its
section. `ImplClosed` holds `mListenerMutex` from reading the listeners to clearing
them; a listener that registers afterwards is never called. The server is running and
nobody stops it.
-/

namespace Tt3d.Server.Accepting

/-- The call of `HandleAccept` that a connection is accepted by. -/
inductive Accept
  | absent
  /-- `Span` has made the connection. -/
  | spanned
  /-- Behind the section. -/
  | accepted
  deriving DecidableEq, Repr

/-- The asynchronous close of a connection. -/
inductive Close
  | active
  /-- `CLOSING` is set. -/
  | closing
  /-- In `ImplClosed`; whether `ConnectionClosed` of the server is still to be called. -/
  | calling (server : Bool)
  | closed
  deriving DecidableEq, Repr

structure State where
  channels : Channels ℕ := {}
  /-- The connections that `Span` has made, numbered from 0. -/
  spanned : ℕ := 0
  accept : ℕ → Accept := fun _ => .absent
  close : ℕ → Close := fun _ => .active
  /-- The server is among the `mListeners` of the connection. -/
  mListeners : ℕ → Bool := fun _ => false

inductive Event
  | span
  | insert (connection : ℕ)
  | setClosing (connection : ℕ)
  /-- `ImplClosed` locks `mListenerMutex` and reads the listeners. -/
  | implClosed (connection : ℕ)
  | connectionClosed (connection : ℕ)
  /-- `ImplClosed` clears the listeners and returns. -/
  | closed (connection : ℕ)
  deriving DecidableEq, Repr

/-- The section of `HandleAccept`, which waits for `mListenerMutex` in it. -/
def State.insert (s : State) (c : ℕ) : Option State :=
  if s.accept c = .spanned ∧ s.close c ≠ .calling true ∧ s.close c ≠ .calling false then
    (s.channels.insert c).map fun channels =>
      { s with
        channels := channels
        accept := Function.update s.accept c .accepted
        mListeners := Function.update s.mListeners c true }
  else none

def State.setClose (s : State) (c : ℕ) (k : Close) : State :=
  { s with close := Function.update s.close c k }

@[simp] theorem setClose_close_self (s : State) (c : ℕ) (k : Close) :
    (s.setClose c k).close c = k := Function.update_self ..

theorem setClose_close_ne {s : State} {c d : ℕ} {k : Close} (h : d ≠ c) :
    (s.setClose c k).close d = s.close d := Function.update_of_ne h ..

def step (s : State) : Event → Option State
  | .span =>
      some { s with
        accept := Function.update s.accept s.spanned .spanned
        spanned := s.spanned + 1 }
  | .insert c => s.insert c
  | .setClosing c =>
      if s.accept c ≠ .absent ∧ s.close c = .active then some (s.setClose c .closing) else none
  | .implClosed c =>
      if s.close c = .closing then some (s.setClose c (.calling (s.mListeners c))) else none
  | .connectionClosed c =>
      if s.close c = .calling true then
        (s.channels.connectionClosed c).map fun channels =>
          { s.setClose c (.calling false) with channels := channels }
      else none
  | .closed c =>
      if s.close c = .calling false then
        some { s.setClose c .closed with mListeners := Function.update s.mListeners c false }
      else none

/-! ### What the table says about a connection -/

/-- No accept and no close is in progress. -/
def Quiet (s : State) : Prop :=
  ∀ c, s.accept c ≠ .spanned ∧ (s.close c = .active ∨ s.close c = .closed)

/-- The server remembers a connection that has closed itself. -/
def Stale (s : State) : Prop := ∃ c ∈ s.channels.channelTable, s.close c = .closed

/-- The section of `HandleAccept` comes before the end of `ImplClosed`. -/
def InsertsEarly (s : State) : Event → Prop
  | .insert c => s.close c ≠ .closed
  | .span | .setClosing _ | .implClosed _ | .connectionClosed _ | .closed _ => True

instance (s : State) : ∀ e, Decidable (InsertsEarly s e)
  | .insert c => inferInstanceAs (Decidable (s.close c ≠ .closed))
  | .span | .setClosing _ | .implClosed _ | .connectionClosed _ | .closed _ => isTrue trivial

/-- The table and the listeners of one connection. -/
structure Kept (s : State) (c : ℕ) : Prop where
  accepted : c ∈ s.channels.channelTable → s.accept c = .accepted
  unheard : s.accept c ≠ .accepted → s.mListeners c = false
  /-- Until `ImplClosed` runs, the server is there to be told. -/
  told : s.accept c = .accepted → (s.close c = .active ∨ s.close c = .closing) →
    c ∈ s.channels.channelTable ∧ s.mListeners c = true
  calling : s.close c = .calling true → c ∈ s.channels.channelTable
  called : s.close c = .calling false → c ∉ s.channels.channelTable
  numbered : s.accept c ≠ .absent → c < s.spanned

structure Consistent (s : State) : Prop where
  counted : s.channels.Counted
  nodup : s.channels.channelTable.Nodup
  kept : ∀ c, Kept s c

theorem consistent_init : Consistent {} :=
  ⟨Channels.counted_init, List.nodup_nil, fun c => ⟨by simp, fun _ => rfl, by simp, by simp,
    by simp, by simp⟩⟩

variable {s s' : State} {c d : ℕ}

/-- A step that leaves a connection alone. -/
theorem Kept.congr (h : Kept s d)
    (htable : d ∈ s'.channels.channelTable ↔ d ∈ s.channels.channelTable)
    (haccept : s'.accept d = s.accept d) (hclose : s'.close d = s.close d)
    (hlisteners : s'.mListeners d = s.mListeners d) (hspanned : s.spanned ≤ s'.spanned) :
    Kept s' d := by
  obtain ⟨haccepted, hunheard, htold, hcalling, hcalled, hnumbered⟩ := h
  refine ⟨?_, ?_, ?_, ?_, ?_, ?_⟩
  · rwa [htable, haccept]
  · rwa [haccept, hlisteners]
  · rwa [haccept, hclose, htable, hlisteners]
  · rwa [hclose, htable]
  · rwa [hclose, htable]
  · rw [haccept]
    exact fun h => Nat.lt_of_lt_of_le (hnumbered h) hspanned

theorem Consistent.span (h : Consistent s) :
    Consistent { s with
      accept := Function.update s.accept s.spanned .spanned
      spanned := s.spanned + 1 } := by
  refine ⟨h.counted, h.nodup, fun d => ?_⟩
  by_cases hd : d = s.spanned
  · subst d
    obtain ⟨haccepted, hunheard, -, hcalling, hcalled, hnumbered⟩ := h.kept s.spanned
    have habsent : s.accept s.spanned = .absent := by
      by_contra hne
      exact Nat.lt_irrefl _ (hnumbered hne)
    refine ⟨fun hmem => ?_, fun _ => hunheard (by simp [habsent]), fun hnot => ?_, hcalling,
      hcalled, fun _ => Nat.lt_succ_self _⟩
    · rw [haccepted hmem] at habsent
      cases habsent
    · simp only [Function.update_self] at hnot
      cases hnot
  · exact (h.kept d).congr Iff.rfl (Function.update_of_ne hd ..) rfl rfl (Nat.le_succ _)

theorem Consistent.insert (h : Consistent s) (hstep : s.insert c = some s') :
    Consistent s' ∧ s'.channels.channelTable = s.channels.channelTable ++ [c] ∧
      s'.close = s.close := by
  simp only [State.insert] at hstep
  split at hstep
  swap
  · cases hstep
  rename_i hguard
  obtain ⟨hspanned, hcalling, hcalled⟩ := hguard
  rw [Option.map_eq_some_iff] at hstep
  obtain ⟨channels, hinsert, rfl⟩ := hstep
  have hnew : c ∉ s.channels.channelTable := by
    intro hmem
    have haccepted := (h.kept c).accepted hmem
    rw [hspanned] at haccepted
    cases haccepted
  obtain ⟨hcounted, htable⟩ := h.counted.insert hnew hinsert
  refine ⟨⟨hcounted, ?_, fun d => ?_⟩, htable, rfl⟩
  · simp only [htable]
    exact List.Nodup.append h.nodup (List.nodup_singleton c) (by simpa using hnew)
  · by_cases hd : d = c
    · subst d
      have hnumbered := (h.kept c).numbered (by simp [hspanned])
      refine ⟨fun _ => Function.update_self .., fun hnot => ?_, fun _ _ => ⟨?_, ?_⟩, ?_, ?_,
        fun _ => hnumbered⟩
      · exact absurd (Function.update_self ..) hnot
      · simp [htable]
      · exact Function.update_self ..
      · exact fun h => absurd h hcalling
      · exact fun h => absurd h hcalled
    · refine (h.kept d).congr ?_ (Function.update_of_ne hd ..) rfl (Function.update_of_ne hd ..)
        (Nat.le_refl _)
      simp [htable, hd]

theorem Consistent.implClosed (h : Consistent s) (hc : s.close c = .closing) :
    Consistent (s.setClose c (.calling (s.mListeners c))) := by
  refine ⟨h.counted, h.nodup, fun d => ?_⟩
  by_cases hd : d = c
  · subst d
    obtain ⟨haccepted, hunheard, htold, -, -, hnumbered⟩ := h.kept c
    have hclose : (s.setClose c (.calling (s.mListeners c))).close c = .calling (s.mListeners c) :=
      Function.update_self ..
    refine ⟨haccepted, hunheard, fun _ hnot => ?_, fun hcalling => ?_, fun hcalled hmem => ?_,
      hnumbered⟩
    · rw [hclose] at hnot
      rcases hnot with hnot | hnot <;> cases hnot
    · rw [hclose] at hcalling
      have hlisteners : s.mListeners c = true := Close.calling.inj hcalling
      have haccept : s.accept c = .accepted := by
        by_contra hne
        rw [hunheard hne] at hlisteners
        cases hlisteners
      exact (htold haccept (Or.inr hc)).1
    · rw [hclose] at hcalled
      have hlisteners : s.mListeners c = false := Close.calling.inj hcalled
      have htrue := (htold (haccepted hmem) (Or.inr hc)).2
      rw [hlisteners] at htrue
      cases htrue
  · exact (h.kept d).congr Iff.rfl rfl (Function.update_of_ne hd ..) rfl (Nat.le_refl _)

theorem Consistent.setClosing (h : Consistent s) (hc : s.close c = .active) :
    Consistent (s.setClose c .closing) := by
  refine ⟨h.counted, h.nodup, fun d => ?_⟩
  by_cases hd : d = c
  · subst d
    obtain ⟨haccepted, hunheard, htold, -, -, hnumbered⟩ := h.kept c
    have hclose : (s.setClose c .closing).close c = .closing := Function.update_self ..
    refine ⟨haccepted, hunheard, fun haccept _ => htold haccept (Or.inl hc), fun hnot => ?_,
      fun hnot => ?_, hnumbered⟩
    · rw [hclose] at hnot
      cases hnot
    · rw [hclose] at hnot
      cases hnot
  · exact (h.kept d).congr Iff.rfl rfl (Function.update_of_ne hd ..) rfl (Nat.le_refl _)

theorem Consistent.connectionClosed (h : Consistent s) {channels : Channels ℕ}
    (hchannels : s.channels.connectionClosed c = some channels) :
    Consistent { s.setClose c (.calling false) with channels := channels } ∧
      channels.channelTable = s.channels.channelTable.erase c := by
  obtain ⟨hcounted, htable⟩ := h.counted.connectionClosed hchannels
  refine ⟨⟨hcounted, ?_, fun d => ?_⟩, htable⟩
  · simp only [htable]
    exact h.nodup.erase c
  · by_cases hd : d = c
    · subst d
      obtain ⟨haccepted, hunheard, -, -, -, hnumbered⟩ := h.kept c
      have hclose : (s.setClose c (.calling false)).close c = .calling false :=
        Function.update_self ..
      have hgone : c ∉ channels.channelTable := by
        rw [htable]
        exact h.nodup.not_mem_erase
      refine ⟨fun hmem => absurd hmem hgone, hunheard, fun _ hnot => ?_, fun hnot => ?_,
        fun _ => hgone, hnumbered⟩
      · rw [hclose] at hnot
        rcases hnot with hnot | hnot <;> cases hnot
      · rw [hclose] at hnot
        cases hnot
    · refine (h.kept d).congr ?_ rfl (Function.update_of_ne hd ..) rfl (Nat.le_refl _)
      simp only [htable]
      exact List.mem_erase_of_ne hd

theorem Consistent.closed (h : Consistent s) :
    Consistent
      { s.setClose c .closed with mListeners := Function.update s.mListeners c false } := by
  refine ⟨h.counted, h.nodup, fun d => ?_⟩
  by_cases hd : d = c
  · subst d
    obtain ⟨haccepted, -, -, -, -, hnumbered⟩ := h.kept c
    have hclose : (s.setClose c .closed).close c = .closed := Function.update_self ..
    refine ⟨haccepted, fun _ => Function.update_self .., fun _ hnot => ?_, fun hnot => ?_,
      fun hnot => ?_, hnumbered⟩
    · rw [hclose] at hnot
      rcases hnot with hnot | hnot <;> cases hnot
    · rw [hclose] at hnot
      cases hnot
    · rw [hclose] at hnot
      cases hnot
  · exact (h.kept d).congr Iff.rfl rfl (Function.update_of_ne hd ..) (Function.update_of_ne hd ..)
      (Nat.le_refl _)

theorem Consistent.step (h : Consistent s) {a : Event} (hstep : Accepting.step s a = some s') :
    Consistent s' := by
  cases a with
  | span =>
      obtain rfl := Option.some.inj hstep
      exact h.span
  | insert c => exact (h.insert hstep).1
  | setClosing c =>
      simp only [Accepting.step] at hstep
      split at hstep <;> cases hstep
      rename_i hguard
      exact h.setClosing hguard.2
  | implClosed c =>
      simp only [Accepting.step] at hstep
      split at hstep <;> cases hstep
      rename_i hclose
      exact h.implClosed hclose
  | connectionClosed c =>
      simp only [Accepting.step] at hstep
      split at hstep
      swap
      · cases hstep
      rw [Option.map_eq_some_iff] at hstep
      obtain ⟨channels, hchannels, rfl⟩ := hstep
      exact (h.connectionClosed hchannels).1
  | closed c =>
      simp only [Accepting.step] at hstep
      split at hstep <;> cases hstep
      exact h.closed

/-- The close of one connection goes on: the others stay behind as before. -/
theorem stale_setClose {k : Close} {t : List ℕ} (hc : s.close c ≠ .closed)
    (hk : k = .closed → c ∉ t) (ht : ∀ d, d ≠ c → (d ∈ t ↔ d ∈ s.channels.channelTable)) :
    (∃ d ∈ t, (s.setClose c k).close d = .closed) ↔ Stale s := by
  constructor
  · rintro ⟨d, hd, hclosed⟩
    by_cases hdc : d = c
    · subst d
      rw [setClose_close_self] at hclosed
      exact absurd hd (hk hclosed)
    · rw [setClose_close_ne hdc] at hclosed
      exact ⟨d, (ht d hdc).mp hd, hclosed⟩
  · rintro ⟨d, hd, hclosed⟩
    have hdc : d ≠ c := by
      rintro rfl
      exact hc hclosed
    refine ⟨d, (ht d hdc).mpr hd, ?_⟩
    rwa [setClose_close_ne hdc]

/-- **A step leaves a connection behind** just when it enters it into the table after
its `ImplClosed`. -/
theorem Consistent.stale_iff (h : Consistent s) {a : Event}
    (hstep : Accepting.step s a = some s') : Stale s' ↔ Stale s ∨ ¬ InsertsEarly s a := by
  cases a with
  | span =>
      obtain rfl := Option.some.inj hstep
      simp [Stale, InsertsEarly]
  | insert c =>
      obtain ⟨-, htable, hclose⟩ := h.insert hstep
      simp only [Stale, htable, hclose, InsertsEarly, not_not, List.mem_append, List.mem_singleton]
      constructor
      · rintro ⟨d, hd | rfl, hclosed⟩
        · exact Or.inl ⟨d, hd, hclosed⟩
        · exact Or.inr hclosed
      · rintro (⟨d, hd, hclosed⟩ | hclosed)
        · exact ⟨d, Or.inl hd, hclosed⟩
        · exact ⟨c, Or.inr rfl, hclosed⟩
  | setClosing c =>
      simp only [Accepting.step] at hstep
      split at hstep <;> cases hstep
      rename_i hguard
      simp only [InsertsEarly, not_true_eq_false, or_false]
      exact stale_setClose (by simp [hguard.2]) (by simp) fun _ _ => Iff.rfl
  | implClosed c =>
      simp only [Accepting.step] at hstep
      split at hstep <;> cases hstep
      rename_i hclose
      simp only [InsertsEarly, not_true_eq_false, or_false]
      exact stale_setClose (by simp [hclose]) (by simp) fun _ _ => Iff.rfl
  | connectionClosed c =>
      simp only [Accepting.step] at hstep
      split at hstep
      swap
      · cases hstep
      rename_i hclose
      rw [Option.map_eq_some_iff] at hstep
      obtain ⟨channels, hchannels, rfl⟩ := hstep
      obtain ⟨-, htable⟩ := h.connectionClosed hchannels
      simp only [InsertsEarly, not_true_eq_false, or_false]
      refine stale_setClose (by simp [hclose]) (by simp) fun d hd => ?_
      simp only [htable]
      exact List.mem_erase_of_ne hd
  | closed c =>
      simp only [Accepting.step] at hstep
      split at hstep <;> cases hstep
      rename_i hclose
      simp only [InsertsEarly, not_true_eq_false, or_false]
      exact stale_setClose (by simp [hclose]) (fun _ => (h.kept c).called hclose) fun _ _ => Iff.rfl

/-- **The server forgets the connections that have closed themselves** just when every
section of `HandleAccept` comes before the end of the `ImplClosed` of its connection. -/
theorem not_stale_iff_insertsEarly {es : List Event} (hrun : Machine.run step {} es = some s) :
    (∀ c ∈ s.channels.channelTable, s.close c ≠ .closed) ↔
      Machine.Along step InsertsEarly {} es := by
  have hiff : Machine.Along step InsertsEarly {} es ↔ ¬ Stale s :=
    Machine.along_iff_not (I := Consistent) (fun _ _ _ h hstep => h.step hstep)
      (fun _ _ _ h hfine hstep => (h.stale_iff hstep).trans (or_iff_right hfine))
      (fun _ _ _ h hstale hstep => (h.stale_iff hstep).mpr (Or.inl hstale)) consistent_init
      (by simp [Stale]) hrun
  rw [hiff]
  simp [Stale]

/-- The peer of one connection hangs up after it has been accepted, that of another one
before it is entered into the table. -/
theorem not_stale_iff_insertsEarly_accepted :
    ∃ s, Machine.run step {} [.span, .setClosing 0, .insert 0, .implClosed 0, .connectionClosed 0,
        .closed 0, .span, .setClosing 1, .insert 1] = some s ∧
      s.channels.channelTable = [1] ∧ ∀ c ∈ s.channels.channelTable, s.close c ≠ .closed := by
  obtain ⟨s, hrun, htable⟩ : ∃ s, Machine.run step {} [.span, .setClosing 0, .insert 0,
      .implClosed 0, .connectionClosed 0, .closed 0, .span, .setClosing 1, .insert 1] = some s ∧
      s.channels.channelTable = [1] := ⟨_, rfl, rfl⟩
  exact ⟨s, hrun, htable, (not_stale_iff_insertsEarly hrun).mpr (by decide)⟩

/-- The peer hangs up at once: the connection has closed itself before the server enters
it into the table, and stays there. -/
theorem closed_before_insert_stays :
    ∃ s, Machine.run step {} [.span, .setClosing 0, .implClosed 0, .closed 0, .insert 0] = some s ∧
      Quiet s ∧ s.channels.channelTable = [0] ∧ s.close 0 = .closed := by
  refine ⟨_, rfl, fun c => ?_, rfl, rfl⟩
  cases c with
  | zero => exact ⟨by decide, Or.inr rfl⟩
  | succ c => exact ⟨by simp [State.setClose], Or.inl (by simp [State.setClose])⟩

end Tt3d.Server.Accepting
