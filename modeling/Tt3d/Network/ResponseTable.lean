import Mathlib.Data.List.Nodup
import Mathlib.Data.List.Perm.Subperm
import Mathlib.Tactic.Ring
import Tt3d.Network.LineFormat

/-!
`mResponseHandlerTable`, the calls of a connection that wait for a response.

The table maps response identifiers to calls. `CallMethod` starts from an
identifier that depends on the response type alone and moves on from it while it
is taken. The static counter that it moves by starts at 1; an `int` cannot pass
2^31 - 1.
-/

namespace Tt3d.Network

variable {κ : Type*}

/-- The entries of the hash map; the closures are named by the calls they are of. -/
abbrev ResponseTable (κ : Type*) := List (UInt64 × κ)

namespace ResponseTable

def find (t : ResponseTable κ) (identify : UInt64) : Option κ :=
  (List.find? (fun e => e.1 = identify) t).map Prod.snd

def erase (t : ResponseTable κ) (identify : UInt64) : ResponseTable κ :=
  List.filter (fun e => e.1 ≠ identify) t

/-- An entry whose key is there already is not inserted. -/
def insert (t : ResponseTable κ) (identify : UInt64) (c : κ) : ResponseTable κ :=
  if (t.find identify).isSome then t else t ++ [(identify, c)]

/-- The loop of `CallMethod` that looks for a free identifier; `seq` is the static
counter as this call finds it. Fuel counts the probes. -/
def searchFree (t : ResponseTable κ) : ℕ → (responseIdentify : UInt64) → (seq : ℤ) → Option UInt64
  | 0, _, _ => none
  | fuel + 1, responseIdentify, seq =>
      if (t.find responseIdentify).isSome then
        searchFree t fuel (responseIdentify + UInt64.ofInt (seq + 1)) (seq + 1)
      else some responseIdentify

/-- The identifiers in use are distinct. -/
def Valid (t : ResponseTable κ) : Prop := (t.map Prod.fst).Nodup

variable {t : ResponseTable κ} {r : UInt64} {c : κ}

theorem find_eq_none_iff : t.find r = none ↔ r ∉ t.map Prod.fst := by
  simp only [find, Option.map_eq_none_iff, List.find?_eq_none, decide_eq_true_eq, List.mem_map,
    not_exists, not_and]

theorem mem_of_find (h : t.find r = some c) : (r, c) ∈ t := by
  obtain ⟨e, he, rfl⟩ := Option.map_eq_some_iff.mp h
  have hkey : e.1 = r := by simpa using List.find?_some he
  rw [← hkey]
  exact List.mem_of_find?_eq_some he

theorem Valid.find_eq_some_iff (h : Valid t) : t.find r = some c ↔ (r, c) ∈ t := by
  refine ⟨mem_of_find, fun hmem => ?_⟩
  cases hfind : t.find r with
  | none =>
      rw [find_eq_none_iff] at hfind
      exact absurd (List.mem_map_of_mem hmem) hfind
  | some c' =>
      have hmem' := mem_of_find hfind
      have := List.inj_on_of_nodup_map h hmem hmem' rfl
      cases this
      rfl

theorem Valid.erase (h : Valid t) (r : UInt64) : Valid (t.erase r) :=
  h.sublist (List.filter_sublist.map _)

/-- An entry and what is left without it. -/
theorem Valid.perm_cons_erase (h : Valid t) (hmem : (r, c) ∈ t) :
    List.Perm t ((r, c) :: t.erase r) := by
  induction t with
  | nil => cases hmem
  | cons e t ih =>
      have hnodup : (e.1 :: t.map Prod.fst).Nodup := h
      rw [List.nodup_cons] at hnodup
      rcases List.mem_cons.mp hmem with rfl | hmem
      · have hrest : ResponseTable.erase t r = t := List.filter_eq_self.mpr fun e he => by
          have hne : e.1 ≠ r := by
            rintro rfl
            exact hnodup.1 (List.mem_map_of_mem he : e.1 ∈ t.map Prod.fst)
          simpa using hne
        have herase : ResponseTable.erase ((r, c) :: t) r = t := by
          rw [ResponseTable.erase, List.filter_cons_of_neg (by simp)]
          exact hrest
        rw [herase]
      · have hne : e.1 ≠ r := fun heq => hnodup.1 (heq ▸ List.mem_map_of_mem hmem)
        have herase : ResponseTable.erase (e :: t) r = e :: ResponseTable.erase t r :=
          List.filter_cons_of_pos (by simpa using hne)
        rw [herase]
        exact ((ih hnodup.2 hmem).cons e).trans (List.Perm.swap _ _ _)

theorem insert_of_find_eq_none (h : t.find r = none) (c : κ) : t.insert r c = t ++ [(r, c)] := by
  rw [insert, h]
  rfl

theorem Valid.insert (h : Valid t) (hfree : t.find r = none) (c : κ) : Valid (t.insert r c) := by
  rw [insert_of_find_eq_none hfree, Valid, List.map_append]
  refine List.Nodup.append h (List.nodup_singleton _) ?_
  intro k hk hr
  rw [List.mem_singleton.mp hr] at hk
  exact find_eq_none_iff.mp hfree hk

/-- The identifier that the search ends with is free. -/
theorem find_searchFree {fuel : ℕ} {base : UInt64} {seq : ℤ}
    (h : t.searchFree fuel base seq = some r) : t.find r = none := by
  induction fuel generalizing base seq with
  | zero => cases h
  | succ fuel ih =>
      rw [searchFree] at h
      split at h
      · exact ih h
      · rename_i hfree
        obtain rfl := Option.some.inj h
        simpa using hfree

/-! ### The search ends -/

/-- The identifiers that a search of `fuel` probes looks at. -/
def probes : ℕ → (responseIdentify : UInt64) → (seq : ℤ) → List UInt64
  | 0, _, _ => []
  | fuel + 1, responseIdentify, seq =>
      responseIdentify :: probes fuel (responseIdentify + UInt64.ofInt (seq + 1)) (seq + 1)

@[simp] theorem length_probes (fuel : ℕ) (base : UInt64) (seq : ℤ) :
    (probes fuel base seq).length = fuel := by
  induction fuel generalizing base seq with
  | zero => rfl
  | succ fuel ih => simp [probes, ih]

theorem probes_subset {fuel : ℕ} {base : UInt64} {seq : ℤ}
    (h : t.searchFree fuel base seq = none) : probes fuel base seq ⊆ t.map Prod.fst := by
  induction fuel generalizing base seq with
  | zero => exact List.nil_subset _
  | succ fuel ih =>
      rw [searchFree] at h
      split at h
      · rename_i htaken
        have hmem : base ∈ t.map Prod.fst := by
          by_contra hmem
          rw [find_eq_none_iff.mpr hmem] at htaken
          cases htaken
        exact List.cons_subset.mpr ⟨hmem, ih h⟩
      · cases h

theorem ofInt_natCast (n : ℕ) : UInt64.ofInt (n : ℤ) = UInt64.ofNat n := by
  apply UInt64.toNat_inj.mp
  rw [UInt64.ofInt, UInt64.toNat_ofNat', UInt64.toNat_ofNat']
  omega

/-- How far the probes are from where the search began. -/
theorem exists_offset {fuel seq : ℕ} {base first r : UInt64} {offset : ℕ}
    (hfirst : first = base + UInt64.ofNat offset)
    (hr : r ∈ probes fuel first seq) :
    ∃ d, offset ≤ d ∧ d ≤ offset + fuel * (seq + fuel) ∧ r = base + UInt64.ofNat d := by
  induction fuel generalizing first seq offset with
  | zero => cases hr
  | succ fuel ih =>
      rcases List.mem_cons.mp hr with rfl | hr
      · exact ⟨offset, le_rfl, Nat.le_add_right _ _, hfirst⟩
      · have hnext : first + UInt64.ofInt ((seq : ℤ) + 1) =
            base + UInt64.ofNat (offset + (seq + 1)) := by
          rw [hfirst, UInt64.add_assoc, UInt64.ofNat_add, ← ofInt_natCast (seq + 1)]
          simp
        have hr' : r ∈ probes fuel (first + UInt64.ofInt ((seq : ℤ) + 1)) ((seq + 1 : ℕ) : ℤ) := by
          simpa using hr
        obtain ⟨d, hle, hd, rfl⟩ := ih hnext hr'
        refine ⟨d, by omega, ?_, rfl⟩
        calc
          d ≤ offset + (seq + 1) + fuel * (seq + 1 + fuel) := hd
          _ ≤ offset + (fuel + 1) * (seq + (fuel + 1)) := by ring_nf; omega

theorem add_ofNat_ne {base : UInt64} {d : ℕ} (hpos : 0 < d) (hlt : d < 2 ^ 64) :
    base + UInt64.ofNat d ≠ base := by
  intro h
  have h := congrArg UInt64.toNat h
  rw [UInt64.toNat_add, UInt64.toNat_ofNat_of_lt' (by simpa [UInt64.size] using hlt)] at h
  have := base.toNat_lt
  omega

/-- Before `seq` overflows the probes are distinct. -/
theorem nodup_probes {fuel seq : ℕ} {base : UInt64} (h : seq + fuel ≤ 2 ^ 31) :
    (probes fuel base seq).Nodup := by
  induction fuel generalizing base seq with
  | zero => exact List.nodup_nil
  | succ fuel ih =>
      refine List.nodup_cons.mpr ⟨fun hmem => ?_, ?_⟩
      · have hnext : base + UInt64.ofInt ((seq : ℤ) + 1) = base + UInt64.ofNat (seq + 1) := by
          rw [← ofInt_natCast (seq + 1)]
          simp
        have hmem' : base ∈ probes fuel (base + UInt64.ofInt ((seq : ℤ) + 1))
            ((seq + 1 : ℕ) : ℤ) := by
          simpa using hmem
        obtain ⟨d, hle, hd, hbase⟩ := exists_offset hnext hmem'
        have hlt : d < 2 ^ 64 := by
          have : fuel * (seq + 1 + fuel) ≤ 2 ^ 31 * 2 ^ 31 :=
            Nat.mul_le_mul (by omega) (by omega)
          omega
        exact add_ofNat_ne (by omega) hlt hbase.symm
      · have hrest : (probes fuel (base + UInt64.ofInt ((seq : ℤ) + 1))
            ((seq + 1 : ℕ) : ℤ)).Nodup := ih (by omega)
        simpa using hrest

/-- **The search ends.** Within the range of the counter it finds a free identifier
with one probe more than there are entries. -/
theorem exists_searchFree {seq : ℕ} (base : UInt64) (h : seq + t.length + 1 < 2 ^ 31) :
    ∃ r, t.searchFree (t.length + 1) base seq = some r := by
  apply Option.ne_none_iff_exists'.mp
  intro hnone
  -- a failed search would have seen more identifiers than there are entries
  have hle := (List.subperm_of_subset (nodup_probes (by omega)) (probes_subset hnone)).length_le
  rw [length_probes, List.length_map] at hle
  omega

/-! ### The counter of the search -/

/-- Why the loop does not get to an identifier. -/
inductive SearchFault
  | overflow
  | fuel
  deriving DecidableEq, Repr

/-- The loop with what it leaves in `seq`. Fuel counts the probes beyond the first. -/
def searchSeq (t : ResponseTable κ) :
    ℕ → (responseIdentify : UInt64) → (seq : ℤ) → Except SearchFault (UInt64 × ℤ)
  | fuel, responseIdentify, seq =>
      if (t.find responseIdentify).isSome then
        if seq = 2 ^ 31 - 1 then .error .overflow
        else
          match fuel with
          | 0 => .error .fuel
          | fuel + 1 =>
              searchSeq t fuel (responseIdentify + UInt64.ofInt (seq + 1)) (seq + 1)
      else .ok (responseIdentify, seq)

/-- What is known of a search by how it ends. -/
def SearchEnds (t : ResponseTable κ) (fuel : ℕ) (base : UInt64) (seq : ℤ) :
    Except SearchFault (UInt64 × ℤ) → Prop
  | .ok (r, seq') => t.searchFree (fuel + 1) base seq = some r ∧ seq ≤ seq' ∧ seq' ≤ seq + fuel
  | .error .fuel => t.searchFree (fuel + 1) base seq = none ∧ seq + fuel < 2 ^ 31
  | .error .overflow => True

theorem searchEnds (t : ResponseTable κ) (fuel : ℕ) (base : UInt64) {seq : ℤ}
    (hseq : seq < 2 ^ 31) : SearchEnds t fuel base seq (t.searchSeq fuel base seq) := by
  induction fuel generalizing base seq with
  | zero =>
      rw [searchSeq]
      split
      · rename_i htaken
        split
        · trivial
        · exact ⟨by rw [searchFree, if_pos htaken, searchFree], by omega⟩
      · rename_i hfree
        exact ⟨by rw [searchFree, if_neg hfree], by omega, by omega⟩
  | succ fuel ih =>
      rw [searchSeq]
      split
      · rename_i htaken
        split
        · trivial
        · have hseq' : seq + 1 < 2 ^ 31 := by omega
          have hnext := ih (base + UInt64.ofInt (seq + 1)) hseq'
          have hfree : t.searchFree (fuel + 1 + 1) base seq =
              t.searchFree (fuel + 1) (base + UInt64.ofInt (seq + 1)) (seq + 1) := by
            rw [searchFree, if_pos htaken]
          revert hnext
          match t.searchSeq fuel (base + UInt64.ofInt (seq + 1)) (seq + 1) with
          | .ok (r, seq') =>
              rintro ⟨hr, hle, hle'⟩
              exact ⟨hfree.trans hr, by omega, by omega⟩
          | .error .fuel =>
              rintro ⟨hnone, hlt⟩
              exact ⟨hfree.trans hnone, by omega⟩
          | .error .overflow => exact id
      · rename_i hfree
        exact ⟨by rw [searchFree, if_neg hfree], by omega, by omega⟩

theorem find_append_self (h : t.find r = none) : (t ++ [(r, c)]).find r = some c := by
  rw [find, Option.map_eq_none_iff] at h
  rw [find, List.find?_append, h]
  simp

theorem find_append_of_ne {other : UInt64} (h : other ≠ r) :
    (t ++ [(r, c)]).find other = t.find other := by
  rw [find, find, List.find?_append, List.find?_singleton, if_neg (by simpa using h.symm),
    Option.or_none]

/-- **The search for a free identifier ends**, after as many probes beyond the first as
there are entries, or else the counter overflows; and the call is then entered without
a change for any other. -/
theorem searchSeq_insert {base : UInt64} {seq : ℤ} (hnonneg : 0 ≤ seq) (hseq : seq < 2 ^ 31)
    (hoverflow : t.searchSeq t.length base seq ≠ .error .overflow) (c : κ) :
    ∃ r seq', t.searchSeq t.length base seq = .ok (r, seq') ∧ t.find r = none ∧
      (t.insert r c).length = t.length + 1 ∧ (t.insert r c).find r = some c ∧
      ∀ other, other ≠ r → (t.insert r c).find other = t.find other := by
  have hends := searchEnds t t.length base hseq
  obtain ⟨n, rfl⟩ := Int.eq_ofNat_of_zero_le hnonneg
  revert hends hoverflow
  match t.searchSeq t.length base n with
  | .ok (r, seq') =>
      rintro - ⟨hr, -, -⟩
      have hfree := find_searchFree hr
      refine ⟨r, seq', rfl, hfree, ?_⟩
      rw [insert_of_find_eq_none hfree]
      exact ⟨List.length_append, find_append_self hfree, fun other => find_append_of_ne⟩
  | .error .overflow =>
      intro hoverflow
      exact absurd rfl hoverflow
  | .error .fuel =>
      rintro - ⟨hnone, hlt⟩
      -- the search would have seen more identifiers than there are entries
      have hle := (List.subperm_of_subset (nodup_probes (by omega))
        (probes_subset hnone)).length_le
      rw [length_probes, List.length_map] at hle
      omega

/-- Two identifiers are taken, and the sum that gets to the third probe is past the
largest identifier. -/
theorem searchSeq_insert_wraps :
    ∃ r seq', ResponseTable.searchSeq [(18446744073709551614, "A"), (0, "B")] 2
        18446744073709551614 1 = .ok (r, seq') ∧ (r, seq') = (3, 3) ∧
      (ResponseTable.insert [(18446744073709551614, "A"), (0, "B")] r "C").find 0 = some "B" := by
  have hend : ResponseTable.searchSeq [(18446744073709551614, "A"), (0, "B")]
      (List.length [((18446744073709551614 : UInt64), "A"), (0, "B")])
      18446744073709551614 1 = .ok (3, 3) := by decide
  have hover : ResponseTable.searchSeq [(18446744073709551614, "A"), (0, "B")]
      (List.length [((18446744073709551614 : UInt64), "A"), (0, "B")])
      18446744073709551614 1 ≠ .error .overflow := by
    rw [hend]
    exact nofun
  obtain ⟨r, seq', hr, -, -, -, hother⟩ := searchSeq_insert (by decide) (by decide) hover "C"
  have heq := Except.ok.inj (hr.symm.trans hend)
  refine ⟨r, seq', hr, heq, (hother 0 ?_).trans (by decide)⟩
  rw [(Prod.mk.inj heq).1]
  decide

end ResponseTable

end Tt3d.Network
