import Mathlib.Data.Int.Notation
import Mathlib.Data.List.Basic
import Tt3d.Lib.Machine

/-!
`Coordinate` and the classes made from it.

The dimension is a parameter of the type, and the components are in a vector that the
constructors fill. `value[ i ]` is undefined beyond the end of the vector, where
`value.at( i )` throws.
-/

namespace Tt3d.Core

/-- Why an access to a component has no result. -/
inductive Fault
  /-- `value[ i ]` or `pop_back()` beyond the end. -/
  | undefined
  /-- `value.at( i )` beyond the end. -/
  | outOfRange
  deriving DecidableEq, Repr

def AXISX : ℕ := 0

def AXISY : ℕ := 1

def AXISZ : ℕ := 2

structure Coordinate (TDimens : ℕ) (TMeasure : Type*) where
  value : List TMeasure := []
  deriving DecidableEq, Repr

abbrev TwoDCoordinate (TMeasure : Type*) := Coordinate 2 TMeasure

abbrev ThreeDCoordinate (TMeasure : Type*) := Coordinate 3 TMeasure

abbrev MapCoordinate := ThreeDCoordinate ℤ

namespace Coordinate

variable {N : ℕ} {T : Type*}

/-- `value[ i ]`, and the operator `[]` of the class. -/
def index (c : Coordinate N T) (i : ℕ) : Except Fault T :=
  match c.value[i]? with
  | some m => .ok m
  | none => .error .undefined

/-- `value.at( i )`. -/
def valueAt (c : Coordinate N T) (i : ℕ) : Except Fault T :=
  match c.value[i]? with
  | some m => .ok m
  | none => .error .outOfRange

def getX (c : Coordinate N T) : Except Fault T := c.valueAt AXISX

def x (c : Coordinate N T) : Except Fault T := c.index AXISX

def y (c : Coordinate N T) : Except Fault T := c.valueAt AXISY

def z (c : Coordinate N T) : Except Fault T := c.valueAt AXISZ

def get (c : Coordinate N T) (axis : ℕ) : Except Fault T := c.valueAt axis

/-- `x() = m`. -/
def setX (c : Coordinate N T) (m : T) : Except Fault (Coordinate N T) :=
  c.x.map fun _ => { value := c.value.set AXISX m }

/-- `y() = m`. -/
def setY (c : Coordinate N T) (m : T) : Except Fault (Coordinate N T) :=
  c.y.map fun _ => { value := c.value.set AXISY m }

def normalProjection (c : Coordinate N T) : Except Fault (Coordinate (N - 1) T) :=
  if c.value = [] then .error .undefined else .ok { value := c.value.dropLast }

section Distance

-- `square m n` is `pow( double( std::abs( m - n ) ), 2.0 )`.
variable {D : Type*} [Zero D] [Add D] (square : T → T → D) (root : D → D)

/-- The loop of `distance` over the components of the one point. -/
def distanceLoop (b : Coordinate N T) : List T → (i : ℕ) → (ret : D) → Except Fault D
  | [], _, ret => .ok ret
  | m :: value, i, ret =>
      (b.get i).bind fun n => distanceLoop b value (i + 1) (ret + square m n)

def distance (a b : Coordinate N T) : Except Fault D :=
  (distanceLoop square b a.value AXISX 0).map root

/-- `distance` of `TwoDCoordinate`. -/
def distance2 (a b : TwoDCoordinate T) : Except Fault D :=
  (a.index AXISX).bind fun ax => (b.index AXISX).bind fun bx =>
    (a.index AXISY).bind fun ay => (b.index AXISY).map fun b_y =>
      root (0 + square ax bx + square ay b_y)

end Distance

end Coordinate

/-! ### Programs with coordinates -/

inductive Class
  | coordinate (N : ℕ)
  | twoD
  | threeD
  deriving DecidableEq, Repr

def Class.dim : Class → ℕ
  | .coordinate N => N
  | .twoD => 2
  | .threeD => 3

/-- What a constructor is given. -/
inductive Arguments (T : Type*)
  | default
  | vector (ix : List T)
  | two (x y : T)
  | three (x y z : T)
  deriving DecidableEq, Repr

variable {T : Type*}

/-- What the constructors of `Coordinate` push into `value`. -/
def Arguments.value : Arguments T → List T
  | .default => []
  | .vector ix => ix
  | .two x y => [x, y]
  | .three x y z => [x, y, z]

/-- The public constructors, apart from those that copy. -/
def Class.takes : Class → Arguments T → Bool
  | .coordinate _, _ => true
  | .twoD, .two _ _ => true
  | .twoD, _ => false
  | .threeD, .default | .threeD, .three _ _ _ => true
  | .threeD, _ => false

/-- A value of the class `c` is copied into one of the class `c'`: by the class itself,
by the upgrading constructor of `TwoDCoordinate`, or as the base of the derived class. -/
def Class.copies (c c' : Class) : Bool :=
  c = c' ∨ c = .coordinate 2 ∧ c' = .twoD ∨ c = .twoD ∧ c' = .coordinate 2 ∨
    c = .threeD ∧ c' = .coordinate 3

structure Variable (T : Type*) where
  cls : Class
  coordinate : Coordinate cls.dim T

inductive Event (T : Type*)
  | construct (cls : Class) (args : Arguments T)
  /-- A variable of the class `cls` from variable `i`. -/
  | copy (i : ℕ) (cls : Class)
  /-- Variable `i` gets the value of variable `j`. -/
  | assign (i j : ℕ)
  /-- A variable from `NormalProjection()` of variable `i`. -/
  | project (i : ℕ)
  /-- `Node()`, for its `pos`. -/
  | node
  /-- `Node( position )`. -/
  | nodeOf (i : ℕ)
  /-- `Node( orig )`, which leaves `pos` as the default constructor makes it. -/
  | nodeCopy (i : ℕ)
  /-- `ViewPort()`, for its `pos` and its `direction`. -/
  | viewPort
  deriving DecidableEq, Repr

/-- The default constructor of `ThreeDCoordinate`. -/
def Variable.default3 : Variable T := { cls := .threeD, coordinate := { } }

/-- A run of a program, given by the variables it has constructed. -/
def step (s : List (Variable T)) : Event T → Option (List (Variable T))
  | .construct cls args =>
      if cls.takes args then some (s ++ [{ cls := cls, coordinate := { value := args.value } }])
      else none
  | .copy i cls =>
      (s[i]?).bind fun v =>
        if v.cls.copies cls then
          some (s ++ [{ cls := cls, coordinate := { value := v.coordinate.value } }])
        else none
  | .assign i j =>
      (s[i]?).bind fun v => (s[j]?).bind fun w =>
        if w.cls.copies v.cls then
          some (s.set i { cls := v.cls, coordinate := { value := w.coordinate.value } })
        else none
  | .project i =>
      (s[i]?).bind fun v =>
        if v.cls.dim = 0 then none
        else
          match v.coordinate.normalProjection with
          | .ok c => some (s ++ [{ cls := .coordinate (v.cls.dim - 1), coordinate := c }])
          | .error _ => none
  | .node => some (s ++ [.default3])
  | .nodeOf i =>
      (s[i]?).bind fun v =>
        if v.cls = .threeD then
          some (s ++ [{ cls := .threeD, coordinate := { value := v.coordinate.value } }])
        else none
  | .nodeCopy i =>
      (s[i]?).bind fun v => if v.cls = .threeD then some (s ++ [.default3]) else none
  | .viewPort => some (s ++ [.default3, .default3])

/-- The event makes no value with another number of components than its dimension. -/
def Fills : Event T → Prop
  | .construct cls args => args.value.length = cls.dim
  | .copy _ _ | .assign _ _ | .project _ | .nodeOf _ => True
  | .node | .nodeCopy _ | .viewPort => False

instance (a : Event T) : Decidable (Fills a) := by
  cases a <;> dsimp only [Fills] <;> infer_instance

/-! ### What full values give -/

/-- A value has as many components as its dimension says. -/
def Variable.Full (v : Variable T) : Prop := v.coordinate.value.length = v.cls.dim

namespace Coordinate

variable {N : ℕ} {c : Coordinate N T} {i : ℕ}

theorem index_eq (h : i < c.value.length) : c.index i = .ok c.value[i] := by
  rw [index, List.getElem?_eq_getElem h]

theorem valueAt_eq (h : i < c.value.length) : c.valueAt i = .ok c.value[i] := by
  rw [valueAt, List.getElem?_eq_getElem h]

theorem normalProjection_eq (h : 0 < c.value.length) :
    c.normalProjection = .ok { value := c.value.dropLast } :=
  if_neg (List.ne_nil_of_length_pos h)

variable {D : Type*} [Zero D] [Add D] {square : T → T → D} {root : D → D}

omit [Zero D] in
theorem distanceLoop_ok (square : T → T → D) (b : Coordinate N T) (value : List T) (ret : D)
    (h : i + value.length ≤ b.value.length) :
    ∃ d, distanceLoop square b value i ret = .ok d := by
  induction value generalizing i ret with
  | nil => exact ⟨ret, rfl⟩
  | cons m value ih =>
      rw [List.length_cons] at h
      rw [distanceLoop, get, valueAt_eq (by omega)]
      exact ih _ (by omega)

theorem distance_ok {a b : Coordinate N T} (h : a.value.length ≤ b.value.length) :
    ∃ d, distance square root a b = .ok d := by
  obtain ⟨d, hd⟩ := distanceLoop_ok square (i := AXISX) b a.value 0 (by simpa [AXISX] using h)
  exact ⟨root d, by rw [distance, hd]; rfl⟩

theorem distance2_ok {a b : TwoDCoordinate T} (ha : a.value.length = 2) (hb : b.value.length = 2) :
    ∃ d, distance2 square root a b = .ok d := by
  obtain ⟨ax, ay, ha⟩ := List.length_eq_two.mp ha
  obtain ⟨bx, b_y, hb⟩ := List.length_eq_two.mp hb
  refine ⟨root (0 + square ax bx + square ay b_y), ?_⟩
  rw [distance2, index, index, index, index, ha, hb]
  rfl

end Coordinate

/-- The distance of two variables of one class. -/
def Variable.distance {D : Type*} [Zero D] [Add D] (square : T → T → D) (root : D → D)
    (v w : Variable T) : Except Fault D :=
  match v.cls with
  | .twoD =>
      Coordinate.distance2 square root { value := v.coordinate.value }
        { value := w.coordinate.value }
  | .coordinate N =>
      Coordinate.distance square root (N := N) { value := v.coordinate.value }
        { value := w.coordinate.value }
  | .threeD =>
      Coordinate.distance square root (N := 3) { value := v.coordinate.value }
        { value := w.coordinate.value }

/-- Every access to a component below the dimension has a result. -/
structure Accessible (v : Variable T) : Prop where
  get : ∀ i < v.cls.dim, ∃ m, v.coordinate.get i = .ok m
  index : ∀ i < v.cls.dim, ∃ m, v.coordinate.index i = .ok m
  x : 1 ≤ v.cls.dim → ∃ m, v.coordinate.x = .ok m ∧ v.coordinate.getX = .ok m
  y : 2 ≤ v.cls.dim → ∃ m, v.coordinate.y = .ok m
  z : 3 ≤ v.cls.dim → ∃ m, v.coordinate.z = .ok m
  normalProjection : 1 ≤ v.cls.dim → ∃ c, v.coordinate.normalProjection = .ok c

theorem Variable.Full.accessible {v : Variable T} (h : v.Full) : Accessible v where
  get := fun i hi => ⟨_, Coordinate.valueAt_eq (h.symm ▸ hi)⟩
  index := fun i hi => ⟨_, Coordinate.index_eq (h.symm ▸ hi)⟩
  x := fun hdim => by
    have hlt : AXISX < v.coordinate.value.length := h.symm ▸ hdim
    exact ⟨_, Coordinate.index_eq hlt, Coordinate.valueAt_eq hlt⟩
  y := fun hdim => ⟨_, Coordinate.valueAt_eq (h.symm ▸ hdim)⟩
  z := fun hdim => ⟨_, Coordinate.valueAt_eq (h.symm ▸ hdim)⟩
  normalProjection := fun hdim => ⟨_, Coordinate.normalProjection_eq (h.symm ▸ hdim)⟩

theorem Variable.Full.distance {D : Type*} [Zero D] [Add D] (square : T → T → D) (root : D → D)
    {v w : Variable T} (hv : v.Full) (hw : w.Full) (hcls : v.cls = w.cls) :
    ∃ d, v.distance square root w = .ok d := by
  have hlen : w.coordinate.value.length = v.coordinate.value.length := by
    rw [hv, hw, hcls]
  unfold Variable.distance
  split
  · rename_i htwo
    have hdim : v.coordinate.value.length = 2 := by
      rw [hv, htwo]
      rfl
    exact Coordinate.distance2_ok hdim (hlen.trans hdim)
  · exact Coordinate.distance_ok (Nat.le_of_eq hlen.symm)
  · exact Coordinate.distance_ok (Nat.le_of_eq hlen.symm)

/-- No value of the program has another number of components than its dimension, and
no access below the dimension and no distance of two values of one class fails. -/
def Sound (s : List (Variable T)) : Prop :=
  ∀ v ∈ s, v.Full ∧ Accessible v ∧ ∀ w ∈ s, v.cls = w.cls →
    ∀ {D : Type} [Zero D] [Add D] (square : T → T → D) (root : D → D),
      ∃ d, v.distance square root w = .ok d

theorem sound_iff {s : List (Variable T)} : Sound s ↔ ∀ v ∈ s, v.Full := by
  constructor
  · intro h v hv
    exact (h v hv).1
  · intro h v hv
    exact ⟨h v hv, (h v hv).accessible, fun w hw hcls _ _ _ square root =>
      (h v hv).distance square root (h w hw) hcls⟩

/-! ### Runs -/

theorem Class.dim_eq_of_copies {c c' : Class} (h : c.copies c' = true) : c.dim = c'.dim := by
  simp only [copies, decide_eq_true_eq] at h
  rcases h with rfl | ⟨rfl, rfl⟩ | ⟨rfl, rfl⟩ | ⟨rfl, rfl⟩ <;> rfl

theorem forall_concat {s : List (Variable T)} (h : ∀ v ∈ s, v.Full) {w : Variable T} :
    (∀ v ∈ s ++ [w], v.Full) ↔ w.Full := by
  simp only [List.mem_append, List.mem_singleton]
  constructor
  · intro hall
    exact hall w (Or.inr rfl)
  · rintro hw v (hv | rfl)
    · exact h v hv
    · exact hw

theorem not_full_default3 : ¬ (Variable.default3 : Variable T).Full := by
  intro h
  cases h

/-- **What one step makes** of full values is full just when the event fills what it
constructs. -/
theorem full_step_iff {s s' : List (Variable T)} {a : Event T} (h : ∀ v ∈ s, v.Full)
    (hstep : step s a = some s') : (∀ v ∈ s', v.Full) ↔ Fills a := by
  cases a with
  | construct cls args =>
      simp only [step, Option.ite_none_right_eq_some, Option.some.injEq] at hstep
      obtain ⟨-, rfl⟩ := hstep
      exact forall_concat h
  | copy i cls =>
      obtain ⟨v, hv, hstep⟩ := Option.bind_eq_some_iff.mp hstep
      simp only [Option.ite_none_right_eq_some, Option.some.injEq] at hstep
      obtain ⟨hcopies, rfl⟩ := hstep
      refine iff_of_true ((forall_concat h).mpr ?_) trivial
      exact (h v (List.mem_of_getElem? hv)).trans (Class.dim_eq_of_copies hcopies)
  | assign i j =>
      obtain ⟨v, hv, hstep⟩ := Option.bind_eq_some_iff.mp hstep
      obtain ⟨w, hw, hstep⟩ := Option.bind_eq_some_iff.mp hstep
      simp only [Option.ite_none_right_eq_some, Option.some.injEq] at hstep
      obtain ⟨hcopies, rfl⟩ := hstep
      refine iff_of_true (fun u hu => ?_) trivial
      rcases List.mem_or_eq_of_mem_set hu with hu | rfl
      · exact h u hu
      · exact (h w (List.mem_of_getElem? hw)).trans (Class.dim_eq_of_copies hcopies)
  | project i =>
      obtain ⟨v, hv, hstep⟩ := Option.bind_eq_some_iff.mp hstep
      have hfull := h v (List.mem_of_getElem? hv)
      split at hstep
      · cases hstep
      rename_i hdim
      rw [Coordinate.normalProjection_eq (hfull.symm ▸ Nat.pos_of_ne_zero hdim)] at hstep
      obtain rfl := Option.some.inj hstep
      refine iff_of_true ((forall_concat h).mpr ?_) trivial
      show v.coordinate.value.dropLast.length = v.cls.dim - 1
      rw [List.length_dropLast, hfull]
  | node =>
      obtain rfl := Option.some.inj hstep
      exact iff_of_false (fun hall => not_full_default3 ((forall_concat h).mp hall)) id
  | nodeOf i =>
      obtain ⟨v, hv, hstep⟩ := Option.bind_eq_some_iff.mp hstep
      simp only [Option.ite_none_right_eq_some, Option.some.injEq] at hstep
      obtain ⟨hcls, rfl⟩ := hstep
      refine iff_of_true ((forall_concat h).mpr ?_) trivial
      exact (h v (List.mem_of_getElem? hv)).trans (congrArg Class.dim hcls)
  | nodeCopy i =>
      obtain ⟨v, hv, hstep⟩ := Option.bind_eq_some_iff.mp hstep
      simp only [Option.ite_none_right_eq_some, Option.some.injEq] at hstep
      obtain ⟨-, rfl⟩ := hstep
      exact iff_of_false (fun hall => not_full_default3 ((forall_concat h).mp hall)) id
  | viewPort =>
      obtain rfl := Option.some.inj hstep
      refine iff_of_false (fun hall => not_full_default3 (T := T) ?_) id
      exact hall _ (List.mem_append_right s List.mem_cons_self)

/-- The values of a program are full, and its accesses have results, just when all its
events fill what they construct. -/
theorem sound_iff_fills {es : List (Event T)} {s : List (Variable T)}
    (hrun : Machine.run step [] es = some s) :
    (∀ es₁ es₂ s₁, es = es₁ ++ es₂ → Machine.run step [] es₁ = some s₁ → Sound s₁) ↔
      ∀ a ∈ es, Fills a := by
  have hnil : ∀ v ∈ ([] : List (Variable T)), v.Full := fun v hv => absurd hv List.not_mem_nil
  have hiff := Machine.along_iff_prefixes (P := fun _ => Fills)
    (fun _ _ _ h hstep => full_step_iff h hstep) hnil hrun
  simp only [sound_iff]
  rw [← hiff]
  constructor
  · intro halong
    exact Machine.forall_of_along halong hrun
  · intro hall
    exact Machine.Along.of_forall hall []

end Tt3d.Core
