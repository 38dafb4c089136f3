import Mathlib.Data.List.Nodup
import Tt3d.Lib.Machine

/-!
`ConcurrentContainer`, and the container of the clients.

The items are pointers; `find` compares them, and a predicate made from the new item
looks for one that excludes it. The identifier of an item is its place in the container,
counted from 1.
-/

namespace Tt3d.Server

variable {α : Type*}

structure ConcurrentContainer (α : Type*) where
  mItems : List α := []
  deriving DecidableEq, Repr

namespace ConcurrentContainer

def size (c : ConcurrentContainer α) : ℕ := c.mItems.length

/-- The section of `Add`; `uniqPredicate item` is the predicate constructed from the
item. -/
def add [DecidableEq α] (uniqPredicate : α → α → Bool) (c : ConcurrentContainer α) (item : α) :
    ConcurrentContainer α × ℕ :=
  if (c.mItems.find? (· = item)).isNone ∧ (c.mItems.find? (uniqPredicate item)).isNone then
    ({ mItems := c.mItems ++ [item] }, c.mItems.length + 1)
  else (c, 0)

/-- An empty pointer for an index that is not valid. -/
def get (c : ConcurrentContainer α) (index : ℕ) : Option α :=
  if index ≠ 0 ∧ index ≤ c.size then c.mItems[index - 1]? else none

theorem get_eq_some_iff {c : ConcurrentContainer α} {index : ℕ} {item : α} :
    c.get index = some item ↔ index ≠ 0 ∧ c.mItems[index - 1]? = some item := by
  rw [get]
  constructor
  · intro h
    split at h
    · rename_i hvalid
      exact ⟨hvalid.1, h⟩
    · cases h
  · rintro ⟨hne, hitem⟩
    have hlt := (List.getElem?_eq_some_iff.mp hitem).1
    have hvalid : index ≠ 0 ∧ index ≤ c.size := ⟨hne, by rw [size]; omega⟩
    rw [if_pos hvalid]
    exact hitem

end ConcurrentContainer

/-! ### The clients -/

namespace Clients

variable {κ L : Type*} [DecidableEq κ] [DecidableEq L]

/-- `IsUniqueLoginPredicate`. -/
def isUniqueLogin (login : κ → L) (target client : κ) : Bool := login client = login target

/-- The container, with the answers of the calls so far, oldest first. -/
structure State (κ : Type*) where
  container : ConcurrentContainer κ := {}
  added : List (κ × ℕ) := []
  got : List (ℕ × Option κ) := []
  deriving DecidableEq, Repr

inductive Event (κ : Type*)
  | add (client : κ)
  | get (id : ℕ)
  deriving DecidableEq, Repr

def State.add (login : κ → L) (s : State κ) (client : κ) : ConcurrentContainer κ × ℕ :=
  s.container.add (isUniqueLogin login) client

def step (login : κ → L) (s : State κ) : Event κ → Option (State κ)
  | .add client =>
      some { s with
        container := (s.add login client).1
        added := s.added ++ [(client, (s.add login client).2)] }
  | .get id => some { s with got := s.got ++ [(id, s.container.get id)] }

/-- The client or another one with its login is stored. -/
def Taken (login : κ → L) (c : ConcurrentContainer κ) (client : κ) : Prop :=
  client ∈ c.mItems ∨ ∃ other ∈ c.mItems, login other = login client

/-- The logins are distinct, and the identifiers given out are the places of the clients,
in their order. -/
structure Numbered (login : κ → L) (s : State κ) : Prop where
  logins : (s.container.mItems.map login).Nodup
  places : s.added.filter (fun p => p.2 ≠ 0) = s.container.mItems.zipIdx 1

variable {login : κ → L} {s s' : State κ} {client : κ} {c : ConcurrentContainer κ} {id : ℕ}

theorem add_of_taken (h : Taken login c client) :
    c.add (isUniqueLogin login) client = (c, 0) := by
  refine if_neg fun hnone => ?_
  simp only [Option.isNone_iff_eq_none, List.find?_eq_none, decide_eq_true_eq, isUniqueLogin]
    at hnone
  rcases h with hmem | ⟨other, hmem, hlogin⟩
  · exact hnone.1 client hmem rfl
  · exact hnone.2 other hmem hlogin

theorem add_of_not_taken (h : ¬ Taken login c client) :
    c.add (isUniqueLogin login) client =
      ({ mItems := c.mItems ++ [client] }, c.mItems.length + 1) := by
  rw [Taken, not_or, not_exists] at h
  refine if_pos ?_
  simp only [Option.isNone_iff_eq_none, List.find?_eq_none, decide_eq_true_eq, isUniqueLogin]
  constructor
  · rintro other hother rfl
    exact h.1 hother
  · exact fun other hother hlogin => h.2 other ⟨hother, hlogin⟩

omit [DecidableEq κ] [DecidableEq L] in
theorem numbered_init : Numbered login {} := ⟨List.nodup_nil, rfl⟩

theorem Numbered.step (h : Numbered login s) {a : Event κ}
    (hstep : Clients.step login s a = some s') : Numbered login s' := by
  obtain ⟨hlogins, hplaces⟩ := h
  cases a with
  | get id =>
      obtain rfl := Option.some.inj hstep
      exact ⟨hlogins, hplaces⟩
  | add client =>
      obtain rfl := Option.some.inj hstep
      by_cases htaken : Taken login s.container client
      · simp only [State.add, add_of_taken htaken]
        refine ⟨hlogins, ?_⟩
        rw [List.filter_append, hplaces]
        exact List.append_nil _
      · simp only [State.add, add_of_not_taken htaken]
        constructor
        · rw [List.map_append]
          refine List.nodup_append.mpr ⟨hlogins, List.nodup_singleton _, ?_⟩
          rintro l hl l' hl' rfl
          obtain ⟨other, hother, hlogin⟩ := List.mem_map.mp hl
          rw [List.map_singleton, List.mem_singleton] at hl'
          exact htaken (Or.inr ⟨other, hother, hlogin.trans hl'⟩)
        · rw [List.filter_append, hplaces, List.zipIdx_append, Nat.add_comm 1]
          rfl

/-- A client that is stored stays at its place. -/
theorem get_step (h : s.container.get id = some client) {a : Event κ}
    (hstep : Clients.step login s a = some s') : s'.container.get id = some client := by
  cases a with
  | get id' =>
      obtain rfl := Option.some.inj hstep
      exact h
  | add other =>
      obtain rfl := Option.some.inj hstep
      by_cases htaken : Taken login s.container other
      · simp only [State.add, add_of_taken htaken]
        exact h
      · simp only [State.add, add_of_not_taken htaken]
        rw [ConcurrentContainer.get_eq_some_iff] at h ⊢
        have hlt := (List.getElem?_eq_some_iff.mp h.2).1
        exact ⟨h.1, (List.getElem?_append_left hlt).trans h.2⟩

omit [DecidableEq κ] [DecidableEq L] in
/-- The identifiers given out are the valid ones. -/
theorem Numbered.mem_added_iff (h : Numbered login s) (hid : id ≠ 0) :
    (∃ client, (client, id) ∈ s.added) ↔ id ≤ s.container.size := by
  have hmem : ∀ client, (client, id) ∈ s.added ↔ (client, id) ∈ s.container.mItems.zipIdx 1 := by
    intro client
    rw [← h.places, List.mem_filter]
    simp [hid]
  simp only [hmem, List.mem_zipIdx_iff_le_and_getElem?_sub, exists_and_left]
  rw [ConcurrentContainer.size]
  constructor
  · rintro ⟨-, client, hget⟩
    have := (List.getElem?_eq_some_iff.mp hget).1
    omega
  · intro hle
    exact ⟨by omega, _, List.getElem?_eq_getElem (by omega)⟩

/-- **The identifiers of clients are unique and permanent, and logins are unique.** -/
theorem run_clients {es : List (Event κ)} (hrun : Machine.run (step login) {} es = some s) :
    (s.container.mItems.map login).Nodup ∧
    (∀ client, (s.add login client = (s.container, 0) ↔ Taken login s.container client) ∧
      (¬ Taken login s.container client → (s.add login client).2 ≠ 0 ∧
        (∀ p ∈ s.added, p.2 ≠ (s.add login client).2) ∧
        ∀ es' s', Machine.run (step login) s (.add client :: es') = some s' →
          s'.container.get (s.add login client).2 = some client)) ∧
    ∀ id, (∀ p ∈ s.added, p.2 ≠ 0 → p.2 ≠ id) → s.container.get id = none := by
  have h : Numbered login s :=
    Machine.run_invariant (fun _ _ _ h hstep => h.step hstep) numbered_init hrun
  refine ⟨h.logins, fun client => ⟨⟨fun hadd => ?_, fun htaken => add_of_taken htaken⟩,
    fun htaken => ?_⟩, fun id hid => ?_⟩
  · by_contra htaken
    rw [State.add, add_of_not_taken htaken] at hadd
    cases (Prod.mk.inj hadd).2
  · have hadd := add_of_not_taken htaken
    have hid : (s.add login client).2 = s.container.size + 1 := congrArg Prod.snd hadd
    rw [hid]
    refine ⟨Nat.succ_ne_zero _, ?_, fun es' s' hrun' => ?_⟩
    · rintro ⟨other, id⟩ hmem rfl
      have := (h.mem_added_iff (Nat.succ_ne_zero _)).mp ⟨other, hmem⟩
      omega
    · obtain ⟨s₁, hs₁, hrest⟩ := (Machine.run_cons_eq_some _).mp hrun'
      have hget : s₁.container.get (s.container.size + 1) = some client := by
        obtain rfl := Option.some.inj hs₁
        simp only [State.add, hadd, ConcurrentContainer.get_eq_some_iff, ConcurrentContainer.size]
        simp
      have hkeep : ∀ (u : State κ) (a : Event κ) (u' : State κ),
          u.container.get (s.container.size + 1) = some client → step login u a = some u' →
          u'.container.get (s.container.size + 1) = some client :=
        fun _ _ _ h hstep => get_step h hstep
      exact Machine.run_invariant hkeep hget hrest
  · rw [ConcurrentContainer.get]
    refine if_neg fun hvalid => ?_
    obtain ⟨client, hmem⟩ := (h.mem_added_iff hvalid.1).mpr hvalid.2
    exact hid (client, id) hmem hvalid.1 rfl

/-- A client, the same one again, another one with its login, and one with a login of its
own. -/
theorem run_clients_same_login :
    ∃ s, Machine.run (step fun n : ℕ => if n = 2 then "Other" else "UserNameTest") {}
        [.add 0, .get 1, .add 0, .add 1, .add 2, .get 2, .get 3] = some s ∧
      s.added = [(0, 1), (0, 0), (1, 0), (2, 2)] ∧
      s.got = [(1, some 0), (2, some 2), (3, none)] ∧ s.container.get 7 = none := by
  obtain ⟨s, hrun, hadded, hgot⟩ : ∃ s,
      Machine.run (step fun n : ℕ => if n = 2 then "Other" else "UserNameTest") {}
        [.add 0, .get 1, .add 0, .add 1, .add 2, .get 2, .get 3] = some s ∧
      s.added = [(0, 1), (0, 0), (1, 0), (2, 2)] ∧
      s.got = [(1, some 0), (2, some 2), (3, none)] := ⟨_, rfl, by decide, by decide⟩
  refine ⟨s, hrun, hadded, hgot, (run_clients hrun).2.2 7 ?_⟩
  rw [hadded]
  decide

end Clients

end Tt3d.Server
