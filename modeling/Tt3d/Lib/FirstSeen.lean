import Mathlib.Data.Finset.Card
import Mathlib.Data.Finset.Insert
import Mathlib.Data.List.Basic
import Mathlib.Data.Nat.ModEq

/-!
Numbers given out by counting.

The elements of a list are numbered in their order, each by the number of different
elements that have come up so far, itself included. `seen xs i` is the number of the
element at place `i`. Numbers are compared modulo some `M`, the size of the type that
holds them.
-/

namespace Tt3d.FirstSeen

variable {α : Type*} [DecidableEq α]

/-- The number of different elements up to place `i`. -/
def seen (xs : List α) (i : ℕ) : ℕ := (xs.take (i + 1)).toFinset.card

/-- An element that comes up again comes up right behind itself. -/
def Grouped (xs : List α) : Prop :=
  ∀ i x, xs[i + 1]? = some x → x ∈ xs.take (i + 1) → xs[i]? = some x

variable {xs : List α} {i j : ℕ} {x y : α}

theorem take_succ_toFinset (h : xs[i]? = some x) :
    (xs.take (i + 1)).toFinset = insert x (xs.take i).toFinset := by
  rw [List.take_add_one, h]
  ext z
  simp

theorem seen_of_mem (h : xs[i + 1]? = some x) (hmem : x ∈ xs.take (i + 1)) :
    seen xs (i + 1) = seen xs i := by
  rw [seen, take_succ_toFinset h, Finset.insert_eq_of_mem (List.mem_toFinset.mpr hmem), seen]

theorem seen_of_not_mem (h : xs[i + 1]? = some x) (hmem : x ∉ xs.take (i + 1)) :
    seen xs (i + 1) = seen xs i + 1 := by
  rw [seen, take_succ_toFinset h, Finset.card_insert_of_notMem (mt List.mem_toFinset.mp hmem),
    seen]

theorem seen_zero (h : xs[0]? = some x) : seen xs 0 = 1 := by
  rw [seen, take_succ_toFinset h]
  simp

theorem seen_mono (xs : List α) (h : i ≤ j) : seen xs i ≤ seen xs j :=
  Finset.card_le_card fun _ hz =>
    List.mem_toFinset.mpr (List.take_subset_take_left xs (Nat.succ_le_succ h)
      (List.mem_toFinset.mp hz))

theorem seen_le (xs : List α) (i : ℕ) : seen xs i ≤ xs.toFinset.card :=
  Finset.card_le_card fun _ hz =>
    List.mem_toFinset.mpr (List.take_subset _ _ (List.mem_toFinset.mp hz))

theorem seen_append (h : i < xs.length) (ys : List α) : seen (xs ++ ys) i = seen xs i := by
  rw [seen, List.take_append_of_le_length h, seen]

theorem seen_concat (xs : List α) (x : α) :
    seen (xs ++ [x]) xs.length = (insert x xs.toFinset).card := by
  have hget : (xs ++ [x])[xs.length]? = some x := List.getElem?_concat_length
  rw [seen, take_succ_toFinset hget, List.take_left]

theorem seen_pos (h : xs[i]? = some x) : 1 ≤ seen xs i := by
  rw [seen, take_succ_toFinset h]
  exact Finset.card_pos.mpr (Finset.insert_nonempty _ _)

/-- Between two places with the same number no element is new. -/
theorem Grouped.eq_of_seen_eq (h : Grouped xs) (hle : i ≤ j) (hseen : seen xs i = seen xs j)
    (hi : xs[i]? = some x) (hj : xs[j]? = some y) : x = y := by
  induction j, hle using Nat.le_induction generalizing y with
  | base => exact Option.some.inj (hi.symm.trans hj)
  | succ j hle ih =>
      have hmono := seen_mono xs hle
      by_cases hmem : y ∈ xs.take (j + 1)
      · exact ih (hseen.trans (seen_of_mem hj hmem)) (h j y hj hmem)
      · rw [seen_of_not_mem hj hmem] at hseen
        omega

/-- An element that comes up again keeps its number. -/
theorem Grouped.seen_eq_of_eq (h : Grouped xs) (hle : i ≤ j) (hi : xs[i]? = some x)
    (hj : xs[j]? = some x) : seen xs i = seen xs j := by
  induction j, hle using Nat.le_induction with
  | base => rfl
  | succ j hle ih =>
      have hmem : x ∈ xs.take (j + 1) := by
        rw [List.mem_take_iff_getElem]
        obtain ⟨hlt, heq⟩ := List.getElem?_eq_some_iff.mp hi
        exact ⟨i, by omega, heq⟩
      exact (ih (h j x hj hmem)).trans (seen_of_mem hj hmem).symm

/-- Every number up to that of place `j` has been given out where it was new. -/
theorem exists_new (h : xs[j]? = some y) {n : ℕ} (hpos : 1 ≤ n) (hle : n ≤ seen xs j) :
    ∃ i x, xs[i]? = some x ∧ x ∉ xs.take i ∧ seen xs i = n := by
  induction j generalizing y with
  | zero =>
      rw [seen_zero h] at hle
      exact ⟨0, y, h, by simp, by rw [seen_zero h]; omega⟩
  | succ j ih =>
      have hlt := (List.getElem?_eq_some_iff.mp h).1
      have hj := List.getElem?_eq_getElem (show j < xs.length by omega)
      by_cases hmem : y ∈ xs.take (j + 1)
      · rw [seen_of_mem h hmem] at hle
        exact ih hj hle
      · rcases Nat.lt_or_ge (seen xs j) n with hlt' | hge
        · rw [seen_of_not_mem h hmem] at hle
          exact ⟨j + 1, y, h, hmem, by rw [seen_of_not_mem h hmem]; omega⟩
        · exact ih hj hge

theorem eq_of_mod_eq {a b M : ℕ} (ha : 1 ≤ a) (hb : b ≤ M) (hle : a ≤ b)
    (h : a % M = b % M) : a = b := by
  have hdvd := (Nat.modEq_iff_dvd' hle).mp h
  have := Nat.eq_zero_of_dvd_of_lt hdvd (by omega)
  omega

/-- The numbers from 1 to `M` are different modulo `M`. -/
theorem mod_inj {a b M : ℕ} (ha : 1 ≤ a) (ha' : a ≤ M) (hb : 1 ≤ b) (hb' : b ≤ M) :
    a % M = b % M ↔ a = b := by
  constructor
  · intro h
    rcases Nat.le_total a b with hle | hle
    · exact eq_of_mod_eq ha hb' hle h
    · exact (eq_of_mod_eq hb ha' hle h.symm).symm
  · rintro rfl
    rfl

/-- **When numbers tell elements apart.** The numbers modulo `M` agree just where the
elements do, exactly if equal elements stand together and there are at most `M`
different ones. -/
theorem seen_mod_iff {M : ℕ} (hM : 0 < M) :
    (∀ i j x y, xs[i]? = some x → xs[j]? = some y →
      (seen xs i % M = seen xs j % M ↔ x = y)) ↔ Grouped xs ∧ xs.toFinset.card ≤ M := by
  constructor
  · intro h
    refine ⟨fun i x hx hmem => ?_, ?_⟩
    · have hlt := (List.getElem?_eq_some_iff.mp hx).1
      have hi := List.getElem?_eq_getElem (show i < xs.length by omega)
      rw [hi, ← (h (i + 1) i _ _ hx hi).mp (by rw [seen_of_mem hx hmem])]
    · by_contra hcard
      -- one more than `M` elements: the last of them has the number of the first
      cases xs with
      | nil => simp at hcard
      | cons x₀ xs =>
          have hlast : (x₀ :: xs)[xs.length]? = some ((x₀ :: xs)[xs.length]) :=
            List.getElem?_eq_getElem (by simp)
          have hall : seen (x₀ :: xs) xs.length = (x₀ :: xs).toFinset.card := by
            rw [seen, List.take_of_length_le (by simp)]
          obtain ⟨i, x, hx, hnew, hi⟩ := exists_new hlast (n := M + 1) (by omega)
            (by rw [hall]; omega)
          have hzero : (x₀ :: xs)[0]? = some x₀ := rfl
          have heq := (h i 0 x x₀ hx hzero).mp (by rw [hi, seen_zero hzero]; simp)
          subst heq
          cases i with
          | zero =>
              rw [seen_zero hzero] at hi
              omega
          | succ i => exact hnew (by simp)
  · rintro ⟨hgrouped, hcard⟩ i j x y hi hj
    have hsmall : ∀ {i : ℕ} {x : α}, xs[i]? = some x → 1 ≤ seen xs i ∧ seen xs i ≤ M :=
      fun hi => ⟨seen_pos hi, (seen_le xs _).trans hcard⟩
    rw [mod_inj (hsmall hi).1 (hsmall hi).2 (hsmall hj).1 (hsmall hj).2]
    rcases Nat.le_total i j with hle | hle
    · constructor
      · intro hseen
        exact hgrouped.eq_of_seen_eq hle hseen hi hj
      · rintro rfl
        exact hgrouped.seen_eq_of_eq hle hi hj
    · constructor
      · intro hseen
        exact (hgrouped.eq_of_seen_eq hle hseen.symm hj hi).symm
      · rintro rfl
        exact (hgrouped.seen_eq_of_eq hle hj hi).symm

end Tt3d.FirstSeen
