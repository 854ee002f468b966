import Mathlib.Data.BitVec

/-!
# Single bits of a register

Setting and clearing one bit of a word, the test that a register covers a set of bits, and
the loop that visits the set bits of a word from the lowest one on.
-/

namespace Mini2440.Library

open List BitVec

variable {w n m : Nat} {x : BitVec w}

/-- `x | (1 << n)`. -/
def setBit (x : BitVec w) (n : Nat) : BitVec w := x ||| (1#w <<< n)

/-- `x & ~(1 << n)`. -/
def clearBit (x : BitVec w) (n : Nat) : BitVec w := x &&& ~~~(1#w <<< n)

lemma getLsbD_one_shiftLeft (hm : m < w) : (1#w <<< n).getLsbD m = decide (m = n) := by
  rw [← twoPow_eq, getLsbD_twoPow]
  grind

@[simp] lemma getLsbD_setBit (hm : m < w) :
    (setBit x n).getLsbD m = (decide (m = n) || x.getLsbD m) := by
  rw [setBit, getLsbD_or, getLsbD_one_shiftLeft hm, Bool.or_comm]

@[simp] lemma getLsbD_clearBit (hm : m < w) :
    (clearBit x n).getLsbD m = (!decide (m = n) && x.getLsbD m) := by
  rw [clearBit, getLsbD_and, getLsbD_not, getLsbD_one_shiftLeft hm, Bool.and_comm]
  simp [hm]

lemma clearBit_setBit (h : x.getLsbD n = false) : clearBit (setBit x n) n = x := by
  apply eq_of_getLsbD_eq
  intro i hi
  rw [getLsbD_clearBit hi, getLsbD_setBit hi]
  by_cases heq : i = n
  · simp [heq, h]
  · simp [heq]

lemma clearBit_setBit_comm (h : m ≠ n) : clearBit (setBit x n) m = setBit (clearBit x m) n := by
  apply eq_of_getLsbD_eq
  intro i hi
  rw [getLsbD_clearBit hi, getLsbD_setBit hi, getLsbD_setBit hi, getLsbD_clearBit hi]
  by_cases heq : i = n
  · simp [heq, h.symm]
  · simp [heq]

lemma setBit_setBit_comm : setBit (setBit x n) m = setBit (setBit x m) n := by
  rw [setBit, setBit, setBit, setBit, BitVec.or_assoc, BitVec.or_assoc, BitVec.or_comm (1#w <<< n)]

lemma eq_of_testBit_lt {a b : Nat} (ha : a < 2 ^ n) (hb : b < 2 ^ n)
    (h : ∀ i < n, a.testBit i = b.testBit i) : a = b := by
  refine Nat.eq_of_testBit_eq fun i => ?_
  by_cases hi : i < n
  · exact h i hi
  · have hpow : 2 ^ n ≤ 2 ^ i := Nat.pow_le_pow_right (by decide) (by omega)
    rw [Nat.testBit_lt_two_pow (by omega), Nat.testBit_lt_two_pow (by omega)]

/-- The test `(x & y) == y` asks that every bit of `y` is set in `x`. -/
lemma and_eq_right_iff {y : BitVec w} : x &&& y = y ↔ ∀ i < w, y.getLsbD i → x.getLsbD i := by
  constructor
  · intro h i _ hy
    have hi := congrArg (getLsbD · i) h
    simpa [hy] using hi
  · intro h
    apply eq_of_getLsbD_eq
    intro i hi
    cases hy : y.getLsbD i with
    | false => simp [hy]
    | true => simp [hy, h i hi hy]

/-- A field that has been cleared and then filled reads back as what it was filled with. -/
lemma clear_or_and {m b k : BitVec w} (h : k &&& ~~~m = 0) :
    (x &&& ~~~m ||| b) &&& k = b &&& k := by
  apply eq_of_getLsbD_eq
  intro i hi
  have hk := congrArg (getLsbD · i) h
  grind

lemma or_and_right_self {m : BitVec w} : (x ||| m) &&& m = m := by
  apply eq_of_getLsbD_eq
  grind

lemma clear_or_and_of_disjoint {m b k : BitVec w} (hm : k &&& m = 0) (hb : k &&& b = 0) :
    (x &&& ~~~m ||| b) &&& k = x &&& k := by
  apply eq_of_getLsbD_eq
  intro i hi
  have hb := congrArg (getLsbD · i) hb
  grind

/-! ## Fields -/

section Field

variable {x y v : BitVec w} {i k n s t : Nat}

/-- `(1 << n) - 1`. -/
def mask (w n : Nat) : BitVec w := BitVec.ofNat w (2 ^ n - 1)

/-- The field of `n` bits from bit `s` on, `(x >> s) & mask`. -/
def field (s n : Nat) (x : BitVec w) : BitVec w := x >>> s &&& mask w n

lemma getLsbD_mask : (mask w n).getLsbD i = (decide (i < w) && decide (i < n)) := by
  rw [mask, getLsbD_ofNat, Nat.testBit_two_pow_sub_one]

lemma getLsbD_field : (field s n x).getLsbD i = (x.getLsbD (s + i) && decide (i < n)) := by
  rw [field, getLsbD_and, getLsbD_mask]
  by_cases hi : i < w
  · simp [hi]
  · simp [getLsbD_of_ge x (s + i) (by omega)]

lemma getLsbD_of_toNat_lt (hv : v.toNat < 2 ^ n) (hi : n ≤ i) : v.getLsbD i = false :=
  Nat.testBit_lt_two_pow (hv.trans_le (Nat.pow_le_pow_right (by decide) hi))

lemma toNat_field_lt : (field s n x).toNat < 2 ^ n := by
  have hmask : (mask w n).toNat ≤ 2 ^ n - 1 := by
    exact Nat.mod_le _ _
  have hpos := Nat.two_pow_pos n
  exact (Nat.and_le_right.trans hmask).trans_lt (Nat.sub_one_lt_of_lt hpos)

lemma field_or : field s n (x ||| y) = field s n x ||| field s n y := by
  rw [field, ushiftRight_or_distrib, and_or_distrib_right]
  rfl

lemma field_and : field s n (x &&& y) = field s n x &&& field s n y := by
  apply eq_of_getLsbD_eq
  intro i _
  rw [getLsbD_and, getLsbD_field, getLsbD_field, getLsbD_field]
  cases decide (i < n) <;> simp

lemma field_shiftLeft : field s n x <<< s = x &&& mask w n <<< s := by
  apply eq_of_getLsbD_eq
  intro i hi
  rw [getLsbD_shiftLeft, getLsbD_field, getLsbD_and, getLsbD_shiftLeft, getLsbD_mask]
  by_cases his : i < s
  · simp [his]
  · have hin : s + (i - s) = i := by omega
    have hlt : i - s < w := by omega
    simp [his, hin, hi, hlt]

lemma field_shiftLeft_self (hv : v.toNat < 2 ^ n) (hs : s + n ≤ w) : field s n (v <<< s) = v := by
  apply eq_of_getLsbD_eq
  intro i hi
  rw [getLsbD_field, getLsbD_shiftLeft]
  by_cases hin : i < n
  · have hbit : s + i < w := by omega
    simp [hin, hbit]
  · simp [getLsbD_of_toNat_lt hv (Nat.le_of_not_lt hin)]

lemma field_shiftLeft_of_disjoint (hv : v.toNat < 2 ^ n) (h : s + n ≤ t ∨ t + k ≤ s) :
    field t k (v <<< s) = 0 := by
  apply eq_of_getLsbD_eq
  intro i hi
  rw [getLsbD_field]
  by_cases hik : i < k
  · rcases h with h | h
    · have hbit : v.getLsbD (t + i - s) = false := getLsbD_of_toNat_lt hv (by omega)
      simp [hbit]
    · have hbelow : t + i < s := by omega
      simp [hbelow]
  · simp [hik]

lemma shiftLeft_and_eq_zero (hv : v.toNat < 2 ^ n) (hx : field s n x = 0) : v <<< s &&& x = 0 := by
  apply eq_of_getLsbD_eq
  intro i hi
  by_cases his : i < s
  · simp [his]
  · by_cases hin : i - s < n
    · have hbit := congrArg (getLsbD · (i - s)) hx
      have hadd : s + (i - s) = i := by omega
      simp only [getLsbD_field, hadd, hin, decide_true, Bool.and_true] at hbit
      simp [hbit]
    · simp [getLsbD_of_toNat_lt hv (Nat.le_of_not_lt hin)]

end Field

/-! ## Loops over the set bits -/

/-- The positions of the set bits, in ascending order. -/
def bits (x : BitVec w) : List (Fin w) := (finRange w).filter fun i => x.getLsbD i

lemma length_bits_le : (bits x).length ≤ w := by
  simpa [bits] using length_filter_le (fun i : Fin w => x.getLsbD i) (finRange w)

lemma bits_clearBit {i : Fin w} {is : List (Fin w)} (h : bits x = i :: is) :
    bits (clearBit x i) = is := by
  have hnodup : (i :: is).Nodup := h ▸ (nodup_finRange w).filter _
  have hfilter : bits (clearBit x i) = (bits x).filter (· ≠ i) := by
    simp only [bits, filter_filter]
    apply filter_congr
    intro j _
    rw [getLsbD_clearBit j.isLt]
    simp [Fin.ext_iff]
  rw [hfilter, h, filter_cons]
  simp only [ne_eq, not_true_eq_false, decide_false, Bool.false_eq_true, if_false]
  rw [filter_eq_self]
  intro j hj
  have hne : j ≠ i := fun hji => (nodup_cons.mp hnodup).1 (hji ▸ hj)
  simpa using hne

variable {σ : Type*}

/-- The loop `while (x) { n = __ffs(x); x &= ~(1 << n); body(n); }`, for at most `fuel` rounds. -/
def forBits (body : σ → Fin w → σ) : Nat → BitVec w → σ → σ
  | 0, _, s => s
  | fuel + 1, x, s =>
    match (bits x).head? with
    | none => s
    | some n => forBits body fuel (clearBit x n) (body s n)

lemma forBits_eq_foldl (body : σ → Fin w → σ) (fuel : Nat) (s : σ) :
    forBits body fuel x s = ((bits x).take fuel).foldl body s := by
  induction fuel generalizing x s with
  | zero => simp [forBits]
  | succ fuel ih =>
    unfold forBits
    cases h : bits x with
    | nil => rfl
    | cons i is =>
      simp only [head?_cons, take_succ_cons, foldl_cons]
      rw [ih, bits_clearBit h]

/-- A word has at most `w` set bits, so `w` rounds are enough. -/
lemma forBits_width (body : σ → Fin w → σ) (s : σ) :
    forBits body w x s = (bits x).foldl body s := by
  rw [forBits_eq_foldl, take_of_length_le (length_bits_le)]

end Mini2440.Library
