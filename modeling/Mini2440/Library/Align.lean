import Mathlib.Data.BitVec

/-!
# Alignment of words

Rounding a word down or up to a multiple of a power of two with masks. Rounding up may leave the
word; then the result is zero.
-/

namespace Mini2440.Library

open BitVec

variable {w : Nat}

/-- `x & ~(a - 1)`. -/
def roundDown (x a : BitVec w) : BitVec w := x &&& ~~~(a - 1)

/-- `((x - 1) | (a - 1)) + 1`. -/
def roundUp (x a : BitVec w) : BitVec w := ((x - 1) ||| (a - 1)) + 1

/-- `(x + (a - 1)) & ~(a - 1)`. -/
def alignUp (x a : BitVec w) : BitVec w := roundDown (x + (a - 1)) a

/-! ## Multiples -/

lemma isGreatest_multiple {n : Nat} (hn : 0 < n) (x : Nat) :
    IsGreatest {c | n ∣ c ∧ c ≤ x} (x / n * n) := by
  refine ⟨⟨Nat.dvd_mul_left _ _, Nat.div_mul_le_self x n⟩, ?_⟩
  rintro c ⟨⟨d, rfl⟩, hle⟩
  rw [Nat.mul_comm n d] at hle ⊢
  exact Nat.mul_le_mul_right n ((Nat.le_div_iff_mul_le hn).mpr hle)

lemma isLeast_multiple {n : Nat} (hn : 0 < n) (x : Nat) :
    IsLeast {c | n ∣ c ∧ x ≤ c} ((x + (n - 1)) / n * n) := by
  have hmod := Nat.div_add_mod' (x + (n - 1)) n
  have hlt := Nat.mod_lt (x + (n - 1)) hn
  refine ⟨⟨Nat.dvd_mul_left _ _, by omega⟩, ?_⟩
  rintro c ⟨⟨d, rfl⟩, hle⟩
  rw [Nat.mul_comm n d] at hle ⊢
  refine Nat.mul_le_mul_right n (Nat.lt_succ_iff.mp ((Nat.div_lt_iff_lt_mul hn).mpr ?_))
  rw [Nat.succ_mul]
  omega

lemma two_pow_dvd_iff {x : BitVec w} {k : Nat} (hk : k ≤ w) :
    2 ^ k ∣ x.toNat ↔ k ≤ x.ctz.toNat := by
  refine ⟨fun hdvd => ?_, fun hle => Nat.dvd_of_mod_eq_zero (Nat.eq_of_testBit_eq fun i => ?_)⟩
  · by_contra hlt
    have hne : x ≠ 0#w := by
      rintro rfl
      simp [ctz, clz_eq_iff_eq_zero.mpr, Nat.mod_eq_of_lt Nat.lt_two_pow_self] at hlt
      omega
    have hbit := getLsbD_true_ctz_of_ne_zero hne
    obtain ⟨c, hc⟩ := hdvd
    rw [← testBit_toNat, hc, Nat.testBit_two_pow_mul, Bool.and_eq_true, decide_eq_true_eq] at hbit
    exact hlt hbit.1
  · rw [Nat.testBit_mod_two_pow, testBit_toNat, Nat.zero_testBit, Bool.and_eq_false_iff,
      decide_eq_false_iff_not]
    exact or_iff_not_imp_left.mpr fun hi => getLsbD_false_of_lt_ctz (by omega)

/-! ## Masks -/

lemma roundUp_zero (a : BitVec w) : roundUp 0 a = 0 := by
  have hones : (0 - 1 : BitVec w) = BitVec.allOnes w := by
    rw [BitVec.ofNat_eq_ofNat, BitVec.ofNat_eq_ofNat, BitVec.zero_sub, BitVec.neg_one_eq_allOnes]
  rw [roundUp, hones, BitVec.allOnes_or, ← hones, BitVec.sub_add_cancel]

variable {x a m : BitVec w} {k : Nat}

lemma toNat_and_not (hm : m.toNat = 2 ^ k - 1) : (x &&& ~~~m).toNat = x.toNat / 2 ^ k * 2 ^ k := by
  have hshift : x &&& ~~~m = x >>> k <<< k := by
    refine eq_of_getLsbD_eq fun i hi => ?_
    rw [getLsbD_and, getLsbD_not, ← testBit_toNat m, hm, Nat.testBit_two_pow_sub_one,
      getLsbD_shiftLeft]
    by_cases h : i < k
    · simp [h]
    · simp [h, hi, Nat.add_sub_cancel' (Nat.le_of_not_lt h)]
  rw [hshift, toNat_shiftLeft, toNat_ushiftRight, Nat.shiftRight_eq_div_pow, Nat.shiftLeft_eq]
  exact Nat.mod_eq_of_lt ((Nat.div_mul_le_self _ _).trans_lt x.isLt)

lemma toNat_add_and_not (hm : m.toNat = 2 ^ k - 1) (h : x.toNat + (2 ^ k - 1) < 2 ^ w) :
    ((x + m) &&& ~~~m).toNat = (x.toNat + (2 ^ k - 1)) / 2 ^ k * 2 ^ k := by
  rw [toNat_and_not hm, toNat_add, hm, Nat.mod_eq_of_lt h]

variable (ha : a.toNat = 2 ^ k)

include ha

lemma toNat_sub_one : (a - 1).toNat = 2 ^ k - 1 := by
  have hpos := Nat.two_pow_pos k
  have hone : (1#w).toNat ≤ a.toNat := by
    rw [ha]
    exact (Nat.mod_le _ _).trans hpos
  have hw : 1 < 2 ^ w ∨ w = 0 := by bv_omega
  rw [ofNat_eq_ofNat, toNat_sub_of_le (by omega), ha, toNat_ofNat]
  rcases hw with hw | rfl
  · rw [Nat.mod_eq_of_lt hw]
  · omega

lemma getLsbD_sub_one (i : Nat) : (a - 1).getLsbD i = decide (i < k) := by
  rw [← testBit_toNat, toNat_sub_one ha, Nat.testBit_two_pow_sub_one]

lemma toNat_roundDown : (roundDown x a).toNat = x.toNat / 2 ^ k * 2 ^ k :=
  toNat_and_not (toNat_sub_one ha)

lemma isGreatest_roundDown : IsGreatest {c | 2 ^ k ∣ c ∧ c ≤ x.toNat} (roundDown x a).toNat := by
  rw [toNat_roundDown ha]
  exact isGreatest_multiple (Nat.two_pow_pos k) _

lemma isLeast_alignUp (h : x.toNat + (2 ^ k - 1) < 2 ^ w) :
    IsLeast {c | 2 ^ k ∣ c ∧ x.toNat ≤ c} (alignUp x a).toNat := by
  rw [alignUp, roundDown, toNat_add_and_not (toNat_sub_one ha) h]
  exact isLeast_multiple (Nat.two_pow_pos k) _

lemma alignUp_of_overflow (h : 2 ^ w ≤ x.toNat + (2 ^ k - 1)) : alignUp x a = 0 := by
  have hsum : (x + (a - 1)).toNat = x.toNat + (2 ^ k - 1) - 2 ^ w := by
    rw [toNat_add, toNat_sub_one ha, Nat.mod_eq_sub_mod h, Nat.mod_eq_of_lt]
    omega
  have hlow : (x + (a - 1)).toNat < 2 ^ k := by
    omega
  refine eq_of_toNat_eq ?_
  rw [alignUp, toNat_roundDown ha, Nat.div_eq_of_lt hlow]
  simp

lemma le_multiple_of_overflow (h : 2 ^ w ≤ x.toNat + (2 ^ k - 1)) {c : Nat} (hc : 2 ^ k ∣ c)
    (hle : x.toNat ≤ c) : 2 ^ w ≤ c := by
  have hkw : k ≤ w := by
    have hlt := a.isLt
    rw [ha] at hlt
    exact Nat.le_of_lt ((Nat.pow_lt_pow_iff_right Nat.one_lt_two).mp hlt)
  by_contra hlt
  obtain ⟨d, rfl⟩ := hc
  obtain ⟨e, he⟩ := pow_dvd_pow 2 hkw
  have hpos := Nat.two_pow_pos k
  rw [he, Nat.not_le, Nat.mul_lt_mul_left hpos] at hlt
  have hnext : 2 ^ k * (d + 1) ≤ 2 ^ k * e := Nat.mul_le_mul_left _ hlt
  rw [Nat.mul_add] at hnext
  omega

lemma roundUp_eq_add : roundUp x a = roundDown (x - 1) a + a := by
  have hdisj : roundDown (x - 1) a &&& (a - 1) = 0#w := by
    refine eq_of_getLsbD_eq fun i hi => ?_
    rw [roundDown, getLsbD_and, getLsbD_and, getLsbD_not, getLsbD_sub_one ha]
    by_cases h : i < k <;> simp
  have hor : (x - 1) ||| (a - 1) = roundDown (x - 1) a ||| (a - 1) := by
    refine eq_of_getLsbD_eq fun i hi => ?_
    rw [roundDown, getLsbD_or, getLsbD_or, getLsbD_and, getLsbD_not, getLsbD_sub_one ha]
    by_cases h : i < k <;> simp [h, hi]
  rw [roundUp, hor, ← add_eq_or_of_and_eq_zero _ _ hdisj, add_assoc, sub_add_cancel]

lemma isLeast_roundUp (h : x.toNat + (2 ^ k - 1) < 2 ^ w) :
    IsLeast {c | 2 ^ k ∣ c ∧ x.toNat ≤ c} (roundUp x a).toNat := by
  have hpos := Nat.two_pow_pos k
  rcases Nat.eq_zero_or_pos x.toNat with hx | hx
  · obtain rfl : x = 0 := eq_of_toNat_eq (by simpa using hx)
    rw [roundUp_zero]
    exact ⟨by simp, by simp [lowerBounds]⟩
  · have hpred : (x - 1).toNat = x.toNat - 1 := by
      have hw : 1 < 2 ^ w := by omega
      rw [ofNat_eq_ofNat, toNat_sub_of_le, toNat_ofNat, Nat.mod_eq_of_lt hw]
      rw [le_def, toNat_ofNat, Nat.mod_eq_of_lt hw]
      exact hx
    have hround : x.toNat + (2 ^ k - 1) = x.toNat - 1 + 2 ^ k := by omega
    have hle := Nat.div_mul_le_self (x.toNat - 1) (2 ^ k)
    rw [roundUp_eq_add ha, toNat_add, toNat_roundDown ha, hpred, ha,
      Nat.mod_eq_of_lt (by omega), ← Nat.add_one_mul, ← Nat.add_div_right _ hpos, ← hround]
    exact isLeast_multiple hpos _

end Mini2440.Library
