import Mathlib.Data.List.Induction
import Mathlib.Logic.Function.Basic
import Mathlib.Tactic.Ring
import Tt3d.Lib.LittleEndian

/-!
`lookup8.c`, the hash of the method names and of the response types.

`hash` reads the key byte by byte. `hash2` takes a key of 8-byte numbers, and
`hash3` reads 8 bytes of memory at once where the key is aligned; the machine is
little-endian. `mix64` can be undone, so nothing is lost before `a` and `b` are
dropped at the end.
-/

namespace Tt3d.Core.Lookup8

open LittleEndian

structure Registers where
  a : UInt64
  b : UInt64
  c : UInt64
  deriving DecidableEq, Repr

/-! ### `mix64` -/

/-- `a -= b; a -= c; a ^= (c>>n);` -/
def mixA (n : UInt64) (r : Registers) : Registers :=
  { r with a := (r.a - r.b - r.c) ^^^ (r.c >>> n) }

/-- `b -= c; b -= a; b ^= (a<<n);` -/
def mixB (n : UInt64) (r : Registers) : Registers :=
  { r with b := (r.b - r.c - r.a) ^^^ (r.a <<< n) }

/-- `c -= a; c -= b; c ^= (b>>n);` -/
def mixC (n : UInt64) (r : Registers) : Registers :=
  { r with c := (r.c - r.a - r.b) ^^^ (r.b >>> n) }

def mix64 (r : Registers) : Registers :=
  let r := mixC 8 (mixB 9 (mixA 43 r))
  let r := mixC 5 (mixB 23 (mixA 38 r))
  let r := mixC 11 (mixB 49 (mixA 35 r))
  mixC 22 (mixB 18 (mixA 12 r))

def unmixA (n : UInt64) (r : Registers) : Registers :=
  { r with a := (r.a ^^^ (r.c >>> n)) + r.c + r.b }

def unmixB (n : UInt64) (r : Registers) : Registers :=
  { r with b := (r.b ^^^ (r.a <<< n)) + r.a + r.c }

def unmixC (n : UInt64) (r : Registers) : Registers :=
  { r with c := (r.c ^^^ (r.b >>> n)) + r.b + r.a }

/-- The mix run backward. -/
def unmix64 (r : Registers) : Registers :=
  let r := unmixA 12 (unmixB 18 (unmixC 22 r))
  let r := unmixA 35 (unmixB 49 (unmixC 11 r))
  let r := unmixA 38 (unmixB 23 (unmixC 5 r))
  unmixA 43 (unmixB 9 (unmixC 8 r))

theorem sub_xor_cancel (x y z t : UInt64) : ((x - y - z) ^^^ t ^^^ t) + z + y = x := by
  rw [UInt64.xor_assoc, UInt64.xor_self, UInt64.xor_zero, UInt64.sub_add_cancel,
    UInt64.sub_add_cancel]

theorem add_xor_cancel (x y z t : UInt64) : ((x ^^^ t) + z + y - y - z) ^^^ t = x := by
  rw [UInt64.add_sub_cancel, UInt64.add_sub_cancel, UInt64.xor_assoc, UInt64.xor_self,
    UInt64.xor_zero]

@[simp] theorem unmixA_mixA (n : UInt64) (r : Registers) : unmixA n (mixA n r) = r := by
  simp only [unmixA, mixA, sub_xor_cancel]

@[simp] theorem unmixB_mixB (n : UInt64) (r : Registers) : unmixB n (mixB n r) = r := by
  simp only [unmixB, mixB, sub_xor_cancel]

@[simp] theorem unmixC_mixC (n : UInt64) (r : Registers) : unmixC n (mixC n r) = r := by
  simp only [unmixC, mixC, sub_xor_cancel]

@[simp] theorem mixA_unmixA (n : UInt64) (r : Registers) : mixA n (unmixA n r) = r := by
  simp only [unmixA, mixA, add_xor_cancel]

@[simp] theorem mixB_unmixB (n : UInt64) (r : Registers) : mixB n (unmixB n r) = r := by
  simp only [unmixB, mixB, add_xor_cancel]

@[simp] theorem mixC_unmixC (n : UInt64) (r : Registers) : mixC n (unmixC n r) = r := by
  simp only [unmixC, mixC, add_xor_cancel]

/-- The mix is reversible. -/
theorem mix64_bijective : Function.Bijective mix64 := by
  refine Function.bijective_iff_has_inverse.mpr ⟨unmix64, fun r => ?_, fun r => ?_⟩
  · simp only [unmix64, mix64, unmixA_mixA, unmixB_mixB, unmixC_mixC]
  · simp only [unmix64, mix64, mixA_unmixA, mixB_unmixB, mixC_unmixC]

theorem mix64_injective : Function.Injective mix64 := mix64_bijective.1

/-! ### `hash` -/

/-- The 8-byte number at the front of the key, put together from its bytes. -/
def word : List UInt8 → UInt64
  | k0 :: k1 :: k2 :: k3 :: k4 :: k5 :: k6 :: k7 :: _ =>
      k0.toUInt64 + (k1.toUInt64 <<< 8) + (k2.toUInt64 <<< 16) + (k3.toUInt64 <<< 24) +
        (k4.toUInt64 <<< 32) + (k5.toUInt64 <<< 40) + (k6.toUInt64 <<< 48) + (k7.toUInt64 <<< 56)
  | _ => 0

def golden : UInt64 := 0x9e3779b97f4a7c13

/-- `a = b = level` and `c` the golden ratio. -/
def start (level : UInt64) : Registers := ⟨level, level, golden⟩

def Registers.plus (r : Registers) (x y z : UInt64) : Registers := ⟨r.a + x, r.b + y, r.c + z⟩

/-- The loop over most of the key, which is given the way to read 8 bytes, and what it
leaves. -/
def hashLoop (read : List UInt8 → UInt64) (r : Registers) (k : List UInt8) :
    Registers × List UInt8 :=
  if 24 ≤ k.length then
    hashLoop read (mix64 (r.plus (read k) (read (k.drop 8)) (read (k.drop 16)))) (k.drop 24)
  else (r, k)
termination_by k.length
decreasing_by
  rw [List.length_drop]
  omega

theorem hashLoop_of_le {read : List UInt8 → UInt64} {k : List UInt8} (h : 24 ≤ k.length)
    (r : Registers) :
    hashLoop read r k =
      hashLoop read (mix64 (r.plus (read k) (read (k.drop 8)) (read (k.drop 16)))) (k.drop 24) := by
  rw [hashLoop, if_pos h]

theorem hashLoop_of_lt {read : List UInt8 → UInt64} {k : List UInt8} (h : k.length < 24)
    (r : Registers) : hashLoop read r k = (r, k) := by
  rw [hashLoop, if_neg (Nat.not_le.mpr h)]

/-- `case i + 1` of the switch: the register that byte `i` is added to, shifted. -/
def caseByte (i : ℕ) (k : UInt8) (r : Registers) : Registers :=
  if i < 8 then { r with a := r.a + (k.toUInt64 <<< UInt64.ofNat (8 * i)) }
  else if i < 16 then { r with b := r.b + (k.toUInt64 <<< UInt64.ofNat (8 * (i - 8))) }
  else { r with c := r.c + (k.toUInt64 <<< UInt64.ofNat (8 * (i - 15))) }

/-- The switch over the last bytes, from byte `i` on: it enters at the last of them, and
every case falls through to the one of the byte before. -/
def switchBytes : ℕ → List UInt8 → Registers → Registers
  | _, [], r => r
  | i, k :: rest, r => caseByte i k (switchBytes (i + 1) rest r)

/-- What follows the loop: `c += length`, the last bytes and the last mix. -/
def lastBytes (length : UInt64) (k : List UInt8) (r : Registers) : Registers :=
  mix64 (switchBytes 0 k { r with c := r.c + length })

/-- The three registers at the end of `hash`, of which it returns `c`. -/
def registers (read : List UInt8 → UInt64) (k : List UInt8) (level : UInt64) : Registers :=
  lastBytes (UInt64.ofNat k.length) (hashLoop read (start level) k).2
    (hashLoop read (start level) k).1

def hash (k : List UInt8) (level : UInt64) : UInt64 := (registers word k level).c

/-- `hash8` of a string. -/
def hash8 (x : List UInt8) : UInt64 := hash x 0xbeef

/-! ### `hash2` and `hash3` -/

def hash2Loop : Registers → List UInt64 → Registers × List UInt64
  | r, k0 :: k1 :: k2 :: k => hash2Loop (mix64 (r.plus k0 k1 k2)) k
  | r, k => (r, k)

/-- The switch over the last 8-byte numbers. -/
def switchWords : List UInt64 → Registers → Registers
  | k0 :: k1 :: _, r => { r with b := r.b + k1, a := r.a + k0 }
  | [k0], r => { r with a := r.a + k0 }
  | [], r => r

def hash2 (k : List UInt64) (level : UInt64) : UInt64 :=
  let (r, rest) := hash2Loop (start level) k
  (mix64 (switchWords rest { r with c := r.c + (UInt64.ofNat k.length <<< 3) })).c

/-- `*(ub8 *)k`, on a little-endian machine. -/
def load (k : List UInt8) : UInt64 := UInt64.ofNat (value (k.take 8))

/-- `hash3` of a key at an address that is a multiple of 8, or is not. -/
def hash3 (aligned : Bool) (k : List UInt8) (level : UInt64) : UInt64 :=
  (registers (if aligned then load else word) k level).c

/-! ### Bytes as numbers -/

/-- A byte that is shifted within the word. -/
theorem shiftLeft_eq (k : UInt8) {n : UInt64} (hn : n.toNat < 64) :
    k.toUInt64 <<< n = UInt64.ofNat (2 ^ n.toNat * k.toNat) := by
  apply UInt64.toNat_inj.mp
  rw [UInt64.toNat_shiftLeft, UInt64.toNat_ofNat', UInt8.toNat_toUInt64, Nat.mod_eq_of_lt hn,
    Nat.shiftLeft_eq, Nat.mul_comm]

theorem word_eq_load {k : List UInt8} (h : 8 ≤ k.length) : word k = load k := by
  match k, h with
  | k0 :: k1 :: k2 :: k3 :: k4 :: k5 :: k6 :: k7 :: rest, _ =>
      have hvalue : value ((k0 :: k1 :: k2 :: k3 :: k4 :: k5 :: k6 :: k7 :: rest).take 8) =
          k0.toNat + 2 ^ 8 * k1.toNat + 2 ^ 16 * k2.toNat + 2 ^ 24 * k3.toNat +
            2 ^ 32 * k4.toNat + 2 ^ 40 * k5.toNat + 2 ^ 48 * k6.toNat + 2 ^ 56 * k7.toNat := by
        simp only [List.take_succ_cons, List.take_zero, value_cons, value_nil]
        ring
      have hzero : k0.toUInt64 = UInt64.ofNat k0.toNat := by
        apply UInt64.toNat_inj.mp
        rw [UInt64.toNat_ofNat', UInt8.toNat_toUInt64,
          Nat.mod_eq_of_lt (k0.toNat_lt.trans (by decide))]
      rw [load, hvalue]
      simp only [UInt64.ofNat_add]
      rw [word, shiftLeft_eq k1 (by decide), shiftLeft_eq k2 (by decide),
        shiftLeft_eq k3 (by decide), shiftLeft_eq k4 (by decide), shiftLeft_eq k5 (by decide),
        shiftLeft_eq k6 (by decide), shiftLeft_eq k7 (by decide), hzero]
      rfl

/-- Reading 8 bytes at once or one by one makes no difference to the loop. -/
theorem hashLoop_load (r : Registers) (k : List UInt8) :
    hashLoop load r k = hashLoop word r k := by
  induction hlen : k.length using Nat.strong_induction_on generalizing r k with
  | _ len ih =>
      by_cases h : 24 ≤ k.length
      · have hdrop : (k.drop 24).length < len := by
          rw [List.length_drop]
          omega
        rw [hashLoop_of_le h, hashLoop_of_le h, word_eq_load (by omega),
          word_eq_load (by rw [List.length_drop]; omega),
          word_eq_load (by rw [List.length_drop]; omega)]
        exact ih _ hdrop _ _ rfl
      · rw [hashLoop_of_lt (Nat.not_le.mp h), hashLoop_of_lt (Nat.not_le.mp h)]

/-- `hash3` is `hash`. -/
theorem hash3_eq_hash (aligned : Bool) (k : List UInt8) (level : UInt64) :
    hash3 aligned k level = hash k level := by
  cases aligned with
  | false => rfl
  | true =>
      show (registers load k level).c = (registers word k level).c
      rw [registers, registers, hashLoop_load]

/-! ### The last bytes -/

theorem ofNat_toNat (x : UInt64) : UInt64.ofNat x.toNat = x := UInt64.ofNat_toNat

theorem plus_plus (r : Registers) (x y z x' y' z' : UInt64) :
    (r.plus x y z).plus x' y' z' = r.plus (x + x') (y + y') (z + z') := by
  simp only [Registers.plus, UInt64.add_assoc]

theorem switchBytes_append (i : ℕ) (k k' : List UInt8) (r : Registers) :
    switchBytes i (k ++ k') r = switchBytes i k (switchBytes (i + k.length) k' r) := by
  induction k generalizing i with
  | nil => rfl
  | cons b k ih =>
      rw [List.cons_append, switchBytes, switchBytes, ih, List.length_cons,
        Nat.succ_add_eq_add_succ]

/-- The cases from `lo` on, `n` of them, add to one register: together they add the
number that the bytes are, shifted by `shift` bytes. -/
theorem switchBytes_segment (put : UInt64 → Registers → Registers) (lo n shift : ℕ)
    (hzero : ∀ r, put 0 r = r) (hput : ∀ x y r, put x (put y r) = put (x + y) r)
    (hcase : ∀ i k r, lo ≤ i → i < lo + n →
      caseByte i k r = put (UInt64.ofNat (256 ^ (i - lo + shift) * k.toNat)) r)
    {i : ℕ} {k : List UInt8} (hi : lo ≤ i) (hk : i + k.length ≤ lo + n) (r : Registers) :
    switchBytes i k r = put (UInt64.ofNat (256 ^ (i - lo + shift) * value k)) r := by
  induction k generalizing i with
  | nil => exact (hzero r).symm
  | cons b k ih =>
      rw [List.length_cons] at hk
      have hnext : i + 1 - lo + shift = i - lo + shift + 1 := by omega
      rw [switchBytes, ih (by omega) (by omega), hcase i b _ hi (by omega), hput,
        ← UInt64.ofNat_add, hnext, value_cons]
      congr 2
      ring

theorem caseByte_shift {i n : ℕ} (hn : n < 8) (k : UInt8) (hi : i = 8 * n) :
    k.toUInt64 <<< UInt64.ofNat i = UInt64.ofNat (256 ^ n * k.toNat) := by
  subst hi
  have htoNat : (UInt64.ofNat (8 * n)).toNat = 8 * n := by
    rw [UInt64.toNat_ofNat']
    omega
  have hpow : 2 ^ (8 * n) = 256 ^ n := by rw [Nat.pow_mul]
  rw [shiftLeft_eq k (by rw [htoNat]; omega), htoNat, hpow]

theorem switchBytes_a {k : List UInt8} (hk : k.length ≤ 8) (r : Registers) :
    switchBytes 0 k r = r.plus (UInt64.ofNat (value k)) 0 0 := by
  have h := switchBytes_segment (fun x r => r.plus x 0 0) 0 8 0
    (fun r => by simp [Registers.plus]) (fun x y r => by simp [plus_plus, UInt64.add_comm])
    (fun i b r _ hi => by
      rw [caseByte, if_pos (by omega), caseByte_shift (n := i) (by omega) b rfl]
      simp [Registers.plus])
    (Nat.le_refl 0) (k := k) (by omega) r
  simpa using h

theorem switchBytes_b {k : List UInt8} (hk : k.length ≤ 8) (r : Registers) :
    switchBytes 8 k r = r.plus 0 (UInt64.ofNat (value k)) 0 := by
  have h := switchBytes_segment (fun x r => r.plus 0 x 0) 8 8 0
    (fun r => by simp [Registers.plus]) (fun x y r => by simp [plus_plus, UInt64.add_comm])
    (fun i b r hlo hi => by
      rw [caseByte, if_neg (by omega), if_pos (by omega),
        caseByte_shift (n := i - 8) (by omega) b rfl]
      simp [Registers.plus])
    (Nat.le_refl 8) (k := k) (by omega) r
  simpa using h

/-- The low byte of `c` is left to the length. -/
theorem switchBytes_c {k : List UInt8} (hk : k.length ≤ 7) (r : Registers) :
    switchBytes 16 k r = r.plus 0 0 (UInt64.ofNat (256 * value k)) := by
  have h := switchBytes_segment (fun x r => r.plus 0 0 x) 16 7 1
    (fun r => by simp [Registers.plus]) (fun x y r => by simp [plus_plus, UInt64.add_comm])
    (fun i b r hlo hi => by
      rw [caseByte, if_neg (by omega), if_neg (by omega),
        caseByte_shift (n := i - 16 + 1) (by omega) b (by omega)]
      simp [Registers.plus])
    (Nat.le_refl 16) (k := k) (by omega) r
  simpa using h

/-- The switch adds three numbers, of which the last is a byte shorter. -/
theorem switchBytes_eq {k : List UInt8} (hk : k.length < 24) (r : Registers) :
    switchBytes 0 k r = r.plus (UInt64.ofNat (value (k.take 8)))
      (UInt64.ofNat (value ((k.drop 8).take 8))) (UInt64.ofNat (256 * value (k.drop 16))) := by
  rcases Nat.lt_or_ge k.length 8 with hlt | hge
  · have htake : k.take 8 = k := List.take_of_length_le hlt.le
    have hdrop : k.drop 8 = [] := List.drop_eq_nil_of_le hlt.le
    have hdrop' : k.drop 16 = [] := List.drop_eq_nil_of_le (by omega)
    rw [htake, hdrop, hdrop', switchBytes_a hlt.le]
    rfl
  · have hsplit : k = k.take 8 ++ ((k.drop 8).take 8 ++ k.drop 16) := by
      have hdrop : k.drop 16 = (k.drop 8).drop 8 := by rw [List.drop_drop]
      rw [hdrop, List.take_append_drop, List.take_append_drop]
    have hfirst : (k.take 8).length = 8 := by
      rw [List.length_take]
      omega
    have hsecond : ((k.drop 8).take 8).length ≤ 8 := by
      rw [List.length_take]
      omega
    have hlast : (k.drop 16).length ≤ 7 := by
      rw [List.length_drop]
      omega
    have hswitch : switchBytes 8 ((k.drop 8).take 8 ++ k.drop 16) r =
        r.plus 0 (UInt64.ofNat (value ((k.drop 8).take 8)))
          (UInt64.ofNat (256 * value (k.drop 16))) := by
      rw [switchBytes_append]
      rcases Nat.lt_or_ge k.length 16 with hlt | hge'
      · have hnil : k.drop 16 = [] := List.drop_eq_nil_of_le hlt.le
        rw [hnil, switchBytes, switchBytes_b hsecond]
        rfl
      · have hlen : ((k.drop 8).take 8).length = 8 := by
          rw [List.length_take, List.length_drop]
          omega
        rw [hlen, switchBytes_c hlast, switchBytes_b hsecond, plus_plus]
        simp
    conv_lhs => rw [hsplit, switchBytes_append, hfirst, hswitch, switchBytes_a hfirst.le, plus_plus]
    simp

/-! ### Keys of 8-byte numbers -/

/-- The numbers as they lie in the memory of a little-endian machine. -/
def inMemory (ws : List UInt64) : List UInt8 := ws.flatMap fun w => bytes 8 w.toNat

@[simp] theorem inMemory_cons (w : UInt64) (ws : List UInt64) :
    inMemory (w :: ws) = bytes 8 w.toNat ++ inMemory ws := List.flatMap_cons

theorem length_inMemory (ws : List UInt64) : (inMemory ws).length = 8 * ws.length := by
  induction ws with
  | nil => rfl
  | cons w ws ih =>
      rw [inMemory_cons, List.length_append, length_bytes, ih, List.length_cons]
      omega

theorem take_inMemory (w : UInt64) (k : List UInt8) :
    (bytes 8 w.toNat ++ k).take 8 = bytes 8 w.toNat :=
  List.take_left' (length_bytes 8 _)

theorem drop_inMemory (w : UInt64) (k : List UInt8) : (bytes 8 w.toNat ++ k).drop 8 = k :=
  List.drop_left' (length_bytes 8 _)

theorem value_toNat (w : UInt64) : value (bytes 8 w.toNat) = w.toNat := value_bytes w.toNat_lt

theorem word_inMemory (w : UInt64) (k : List UInt8) : word (bytes 8 w.toNat ++ k) = w := by
  have hlen : 8 ≤ (bytes 8 w.toNat ++ k).length := by
    rw [List.length_append, length_bytes]
    exact Nat.le_add_right _ _
  rw [word_eq_load hlen, load, take_inMemory, value_toNat, UInt64.ofNat_toNat]

/-- The two loops take the same blocks, and leave the same numbers. -/
theorem hashLoop_inMemory (r : Registers) (ws : List UInt64) :
    hashLoop word r (inMemory ws) = ((hash2Loop r ws).1, inMemory (hash2Loop r ws).2) ∧
      (hash2Loop r ws).2.length < 3 := by
  fun_induction hash2Loop r ws with
  | case1 r k0 k1 k2 k ih =>
      have hlen : 24 ≤ (inMemory (k0 :: k1 :: k2 :: k)).length := by
        rw [length_inMemory, List.length_cons, List.length_cons, List.length_cons]
        omega
      have hone : (inMemory (k0 :: k1 :: k2 :: k)).drop 8 = inMemory (k1 :: k2 :: k) :=
        drop_inMemory k0 _
      have htwo : (inMemory (k0 :: k1 :: k2 :: k)).drop 16 = inMemory (k2 :: k) := by
        have : (inMemory (k0 :: k1 :: k2 :: k)).drop 16 =
            ((inMemory (k0 :: k1 :: k2 :: k)).drop 8).drop 8 := by rw [List.drop_drop]
        rw [this, hone]
        exact drop_inMemory k1 _
      have hthree : (inMemory (k0 :: k1 :: k2 :: k)).drop 24 = inMemory k := by
        have : (inMemory (k0 :: k1 :: k2 :: k)).drop 24 =
            ((inMemory (k0 :: k1 :: k2 :: k)).drop 16).drop 8 := by rw [List.drop_drop]
        rw [this, htwo]
        exact drop_inMemory k2 _
      rw [hashLoop_of_le hlen, hone, htwo, hthree]
      simp only [inMemory_cons, word_inMemory]
      exact ih
  | case2 r k hk =>
      have hlen : k.length < 3 := by
        match k, hk with
        | [], _ => decide
        | [k0], _ => exact Nat.succ_lt_succ (Nat.succ_pos 1)
        | [k0, k1], _ => exact Nat.lt_succ_self 2
        | k0 :: k1 :: k2 :: k, hk => exact absurd rfl (hk k0 k1 k2 k)
      exact ⟨hashLoop_of_lt (by rw [length_inMemory]; omega) r, hlen⟩

/-- The two switches add the same numbers. -/
theorem switchBytes_inMemory {ws : List UInt64} (hws : ws.length < 3) (r : Registers) :
    switchBytes 0 (inMemory ws) r = switchWords ws r := by
  rw [switchBytes_eq (by rw [length_inMemory]; omega)]
  match ws, hws with
  | [], _ => simp [inMemory, switchWords, Registers.plus]
  | [k0], _ =>
      have hdrop : (inMemory [k0]).drop 8 = [] := drop_inMemory k0 _
      have hdrop' : (inMemory [k0]).drop 16 = [] :=
        List.drop_eq_nil_of_le ((length_inMemory _).le.trans (by simp))
      have htake : (inMemory [k0]).take 8 = bytes 8 k0.toNat := take_inMemory k0 _
      rw [hdrop, hdrop', htake, value_toNat, UInt64.ofNat_toNat]
      simp [switchWords, Registers.plus]
  | [k0, k1], _ =>
      have hdrop : (inMemory [k0, k1]).drop 8 = inMemory [k1] := drop_inMemory k0 _
      have hdrop' : (inMemory [k0, k1]).drop 16 = [] :=
        List.drop_eq_nil_of_le ((length_inMemory _).le.trans (by simp))
      have htake : (inMemory [k0, k1]).take 8 = bytes 8 k0.toNat := take_inMemory k0 _
      have htake' : (inMemory [k1]).take 8 = bytes 8 k1.toNat := take_inMemory k1 _
      rw [hdrop, hdrop', htake, htake', value_toNat, value_toNat, UInt64.ofNat_toNat,
        UInt64.ofNat_toNat]
      simp [switchWords, Registers.plus]

theorem ofNat_shiftLeft_three (n : ℕ) : UInt64.ofNat n <<< 3 = UInt64.ofNat (8 * n) := by
  apply UInt64.toNat_inj.mp
  rw [UInt64.toNat_shiftLeft, UInt64.toNat_ofNat', UInt64.toNat_ofNat', Nat.shiftLeft_eq]
  have hthree : (3 : UInt64).toNat % 64 = 3 := rfl
  rw [hthree]
  omega

/-- `hash2` is `hash` of the same memory. -/
theorem hash2_eq_hash (ws : List UInt64) (level : UInt64) :
    hash2 ws level = hash (inMemory ws) level := by
  obtain ⟨hloop, hlen⟩ := hashLoop_inMemory (start level) ws
  rw [hash, registers, hloop, lastBytes, switchBytes_inMemory hlen, length_inMemory,
    ← ofNat_shiftLeft_three]
  rfl

/-- **The fast variants agree with `hash`** on a little-endian machine, for every key and
level, wherever the key lies. -/
theorem variants_agree :
    (∀ ws level, hash2 ws level = hash (inMemory ws) level) ∧
      ∀ aligned k level, hash3 aligned k level = hash k level :=
  ⟨hash2_eq_hash, hash3_eq_hash⟩

/-! ### Nothing is lost before the end -/

theorem ofNat_injective {m n : ℕ} (hm : m < 2 ^ 64) (hn : n < 2 ^ 64)
    (h : UInt64.ofNat m = UInt64.ofNat n) : m = n := by
  have htoNat := congrArg UInt64.toNat h
  rwa [UInt64.toNat_ofNat', UInt64.toNat_ofNat', Nat.mod_eq_of_lt hm, Nat.mod_eq_of_lt hn]
    at htoNat

theorem plus_injective {r : Registers} {x y z x' y' z' : UInt64}
    (h : r.plus x y z = r.plus x' y' z') : x = x' ∧ y = y' ∧ z = z' := by
  simp only [Registers.plus, Registers.mk.injEq, UInt64.add_right_inj] at h
  exact h

theorem plus_injective_left {r r' : Registers} {x y z : UInt64}
    (h : r.plus x y z = r'.plus x y z) : r = r' := by
  simp only [Registers.plus, Registers.mk.injEq, UInt64.add_left_inj] at h
  cases r
  cases r'
  simpa using h

/-- The number of up to 8 bytes fits the word. -/
theorem value_injective_of_le {k k' : List UInt8} (hk : k.length ≤ 8) (hlen : k.length = k'.length)
    (h : UInt64.ofNat (value k) = UInt64.ofNat (value k')) : k = k' := by
  have hbound : ∀ k : List UInt8, k.length ≤ 8 → value k < 2 ^ 64 := fun k hk =>
    (value_lt _).trans_le (Nat.pow_le_pow_right (by decide) hk)
  exact value_injective hlen (ofNat_injective (hbound k hk) (hbound k' (hlen ▸ hk)) h)

theorem load_injective {k k' : List UInt8} (hlen : k.length = k'.length)
    (h : load k = load k') : k.take 8 = k'.take 8 :=
  value_injective_of_le (List.length_take_le 8 k) (by rw [List.length_take, List.length_take, hlen])
    h

/-- The bytes that the loop leaves do not depend on the registers. -/
theorem hashLoop_snd (read : List UInt8 → UInt64) (r r' : Registers) (k : List UInt8) :
    (hashLoop read r k).2 = (hashLoop read r' k).2 ∧ (hashLoop read r k).2.length < 24 := by
  induction hlen : k.length using Nat.strong_induction_on generalizing r r' k with
  | _ len ih =>
      by_cases h : 24 ≤ k.length
      · have hdrop : (k.drop 24).length < len := by
          rw [List.length_drop]
          omega
        rw [hashLoop_of_le h, hashLoop_of_le h]
        exact ih _ hdrop _ _ _ rfl
      · have hlt := Nat.not_le.mp h
        rw [hashLoop_of_lt hlt, hashLoop_of_lt hlt]
        exact ⟨rfl, hlt⟩

theorem hashLoop_injective {read : List UInt8 → UInt64} {r r' : Registers} {k : List UInt8}
    (heq : (hashLoop read r k).1 = (hashLoop read r' k).1) : r = r' := by
  induction hlen : k.length using Nat.strong_induction_on generalizing r r' k with
  | _ len ih =>
      by_cases h : 24 ≤ k.length
      · have hdrop : (k.drop 24).length < len := by
          rw [List.length_drop]
          omega
        rw [hashLoop_of_le h, hashLoop_of_le h] at heq
        exact plus_injective_left (mix64_injective (ih _ hdrop heq rfl))
      · rw [hashLoop_of_lt (Nat.not_le.mp h), hashLoop_of_lt (Nat.not_le.mp h)] at heq
        exact heq

theorem lastBytes_eq {length : UInt64} {k : List UInt8} (hk : k.length < 24) (r : Registers) :
    lastBytes length k r = mix64 (r.plus (UInt64.ofNat (value (k.take 8)))
      (UInt64.ofNat (value ((k.drop 8).take 8)))
      (length + UInt64.ofNat (256 * value (k.drop 16)))) := by
  have hlength : ({ r with c := r.c + length } : Registers) = r.plus 0 0 length := by
    simp [Registers.plus]
  rw [lastBytes, hlength, switchBytes_eq hk, plus_plus]
  simp

theorem word_append {k : List UInt8} (hk : 8 ≤ k.length) (k' : List UInt8) :
    word (k ++ k') = word k := by
  have hk' : 8 ≤ (k ++ k').length := by
    rw [List.length_append]
    omega
  rw [word_eq_load hk, word_eq_load hk', load, load, List.take_append_of_le_length hk]

/-- The loop takes whole blocks before it comes to what follows them. -/
theorem hashLoop_append {p : List UInt8} {n : ℕ} (hp : p.length = 24 * n) (r : Registers)
    (k : List UInt8) : hashLoop word r (p ++ k) = hashLoop word (hashLoop word r p).1 k := by
  induction n generalizing p r with
  | zero =>
      obtain rfl : p = [] := List.length_eq_zero_iff.mp hp
      rw [hashLoop_of_lt (k := []) (by decide)]
      rfl
  | succ n ih =>
      have hle : 24 ≤ p.length := by omega
      have hle' : 24 ≤ (p ++ k).length := by
        rw [List.length_append]
        omega
      have hdrop : ∀ i ≤ 24, (p ++ k).drop i = p.drop i ++ k := fun i hi =>
        List.drop_append_of_le_length (hi.trans hle)
      have hlen : ∀ i ≤ 16, 8 ≤ (p.drop i).length := fun i hi => by
        rw [List.length_drop]
        omega
      have hrest : (p.drop 24).length = 24 * n := by
        rw [List.length_drop]
        omega
      rw [hashLoop_of_le hle', hashLoop_of_le hle, hdrop 8 (by decide), hdrop 16 (by decide),
        hdrop 24 (by decide), word_append (by omega), word_append (hlen 8 (by decide)),
        word_append (hlen 16 (by decide)), ih hrest]

theorem registers_append {p : List UInt8} {n : ℕ} (hp : p.length = 24 * n) (k : List UInt8)
    (level : UInt64) :
    registers word (p ++ k) level =
      lastBytes (UInt64.ofNat (24 * n + k.length))
        (hashLoop word (hashLoop word (start level) p).1 k).2
        (hashLoop word (hashLoop word (start level) p).1 k).1 := by
  rw [registers, hashLoop_append hp, List.length_append, hp]

/-- What comes after a state of the registers can be run backward. -/
theorem lastBytes_hashLoop_injective {length : UInt64} {r r' : Registers} {k : List UInt8}
    (h : lastBytes length (hashLoop word r k).2 (hashLoop word r k).1 =
      lastBytes length (hashLoop word r' k).2 (hashLoop word r' k).1) : r = r' := by
  obtain ⟨hsnd, hlen⟩ := hashLoop_snd word r' r k
  rw [← hsnd, lastBytes_eq hlen, lastBytes_eq hlen] at h
  exact hashLoop_injective (plus_injective_left (mix64_injective h))

/-- The last register holds the length beside the last bytes. -/
theorem length_injective {m n n' : ℕ} {k k' : List UInt8} (hn : n < 24) (hn' : n' < 24)
    (hk : k.length ≤ 7) (hk' : k'.length ≤ 7)
    (h : UInt64.ofNat (m + n) + UInt64.ofNat (256 * value k) =
      UInt64.ofNat (m + n') + UInt64.ofNat (256 * value k')) : n = n' ∧ value k = value k' := by
  have hbound : ∀ k : List UInt8, k.length ≤ 7 → value k < 256 ^ 7 := fun k hk =>
    (value_lt _).trans_le (Nat.pow_le_pow_right (by decide) hk)
  have hv := hbound k hk
  have hv' := hbound k' hk'
  rw [UInt64.ofNat_add, UInt64.ofNat_add, UInt64.add_assoc, UInt64.add_assoc,
    UInt64.add_right_inj, ← UInt64.ofNat_add, ← UInt64.ofNat_add] at h
  have hsum := ofNat_injective (by omega) (by omega) h
  omega

theorem take_drop_injective {k k' : List UInt8} (h0 : k.take 8 = k'.take 8)
    (h8 : (k.drop 8).take 8 = (k'.drop 8).take 8) (h16 : k.drop 16 = k'.drop 16) : k = k' := by
  have hsplit : ∀ k : List UInt8, k = k.take 8 ++ ((k.drop 8).take 8 ++ k.drop 16) := fun k => by
    have hdrop : k.drop 16 = (k.drop 8).drop 8 := by rw [List.drop_drop]
    rw [hdrop, List.take_append_drop, List.take_append_drop]
  rw [hsplit k, hsplit k', h0, h8, h16]

/-- **No funnels.** The mix is reversible; and before `a` and `b` are dropped, the registers
tell apart any two levels, any two blocks of 24 bytes at one place of a key, and any two
ends of a key that are shorter than a block, of one length or not. -/
theorem registers_no_funnel :
    Function.Bijective mix64 ∧
      (∀ k, Function.Injective (registers word k)) ∧
      (∀ level p q q' s, 24 ∣ p.length → q.length = 24 → q'.length = 24 →
        registers word (p ++ (q ++ s)) level = registers word (p ++ (q' ++ s)) level → q = q') ∧
      ∀ level p q q', 24 ∣ p.length → q.length < 24 → q'.length < 24 →
        registers word (p ++ q) level = registers word (p ++ q') level → q = q' := by
  refine ⟨mix64_bijective, ?_, ?_, ?_⟩
  · intro k level level' h
    have hstart := lastBytes_hashLoop_injective h
    exact congrArg Registers.a hstart
  · rintro level p q q' s ⟨n, hp⟩ hq hq' h
    have hblock : ∀ q : List UInt8, q.length = 24 → ∀ r, hashLoop word r (q ++ s) =
        hashLoop word (mix64 (r.plus (load q) (load (q.drop 8)) (load (q.drop 16)))) s := by
      intro q hq r
      rw [hashLoop_append (n := 1) hq, hashLoop_of_le hq.ge, List.drop_of_length_le hq.le,
        hashLoop_of_lt (k := []) (by decide), word_eq_load (by omega),
        word_eq_load (by rw [List.length_drop]; omega),
        word_eq_load (by rw [List.length_drop]; omega)]
    rw [registers_append hp, registers_append hp, hblock q hq, hblock q' hq', List.length_append,
      List.length_append, hq, hq'] at h
    obtain ⟨h0, h8, h16⟩ := plus_injective (mix64_injective (lastBytes_hashLoop_injective h))
    have hlen : ∀ i, (q.drop i).length = (q'.drop i).length := fun i => by
      rw [List.length_drop, List.length_drop, hq, hq']
    have hlast : ∀ q : List UInt8, q.length = 24 → (q.drop 16).take 8 = q.drop 16 := fun q hq =>
      List.take_of_length_le (by rw [List.length_drop]; omega)
    have hend := load_injective (hlen 16) h16
    rw [hlast q hq, hlast q' hq'] at hend
    exact take_drop_injective (load_injective (hq.trans hq'.symm) h0)
      (load_injective (hlen 8) h8) hend
  · rintro level p q q' ⟨n, hp⟩ hq hq' h
    rw [registers_append hp, registers_append hp, hashLoop_of_lt hq, hashLoop_of_lt hq',
      lastBytes_eq hq, lastBytes_eq hq'] at h
    obtain ⟨h0, h8, h16⟩ := plus_injective (mix64_injective h)
    have hend : ∀ q : List UInt8, q.length < 24 → (q.drop 16).length ≤ 7 := fun q hq => by
      rw [List.length_drop]
      omega
    obtain ⟨hlen, hvalue⟩ := length_injective hq hq' (hend q hq) (hend q' hq') h16
    have htake : ∀ i, ((q.drop i).take 8).length = ((q'.drop i).take 8).length := fun i => by
      rw [List.length_take, List.length_take, List.length_drop, List.length_drop, hlen]
    refine take_drop_injective (value_injective_of_le (List.length_take_le 8 q) (htake 0) h0)
      (value_injective_of_le (List.length_take_le 8 _) (htake 8) h8) (value_injective ?_ hvalue)
    rw [List.length_drop, List.length_drop, hlen]

/-- A zero byte at the end of a key is seen. -/
theorem registers_no_funnel_zero : registers word [97] 0xbeef ≠ registers word [97, 0] 0xbeef := by
  intro h
  have hkeys := registers_no_funnel.2.2.2 0xbeef [] [97] [97, 0] (by decide) (by decide)
    (by decide) h
  exact absurd hkeys (by decide)

end Tt3d.Core.Lookup8
