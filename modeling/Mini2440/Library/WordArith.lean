import Mathlib.Algebra.Group.Int.Defs
import Mathlib.Algebra.Group.Nat.Defs
import Mini2440.Library.Words

/-!
# Numbers in words

Words that hold a natural number or an integer, and the operations on them. Signed division and the
signed comparison with zero agree with those of the numbers as long as the numbers are small.
-/

namespace Mini2440.Library

open BitVec

variable {n k : Nat}

lemma ofNat_udiv (hn : n < 2 ^ 32) (hk : k < 2 ^ 32) :
    BitVec.ofNat 32 n / BitVec.ofNat 32 k = BitVec.ofNat 32 (n / k) := by
  apply BitVec.eq_of_toNat_eq
  rw [toNat_udiv, toNat_ofNat, toNat_ofNat, toNat_ofNat, Nat.mod_eq_of_lt hn, Nat.mod_eq_of_lt hk,
    Nat.mod_eq_of_lt (Nat.lt_of_le_of_lt (Nat.div_le_self n k) hn)]

lemma ofInt_sub (x y : Int) : BitVec.ofInt 32 (x - y) = BitVec.ofInt 32 x - BitVec.ofInt 32 y := by
  rw [Int.sub_eq_add_neg, BitVec.ofInt_add, BitVec.ofInt_neg, BitVec.sub_eq_add_neg]

lemma msb_ofNat (h : n < 2 ^ 31) : (BitVec.ofNat 32 n).msb = false := by
  rw [BitVec.msb_eq_false_iff_two_mul_lt, BitVec.toNat_ofNat]
  omega

lemma toInt_ofNat_of_lt (h : n < 2 ^ 31) : (BitVec.ofNat 32 n).toInt = n := by
  rw [← BitVec.ofInt_natCast, BitVec.toInt_ofInt_eq_self (by decide) (by omega) (by omega)]

lemma sdiv_ofNat (hn : n < 2 ^ 31) (hk : k < 2 ^ 31) :
    (BitVec.ofNat 32 n).sdiv (BitVec.ofNat 32 k) = BitVec.ofNat 32 (n / k) := by
  rw [BitVec.sdiv_eq, msb_ofNat hn, msb_ofNat hk]
  exact ofNat_udiv (by omega) (by omega)

lemma srem_ofNat (hn : n < 2 ^ 31) (hk : k < 2 ^ 31) :
    (BitVec.ofNat 32 n).srem (BitVec.ofNat 32 k) = BitVec.ofNat 32 (n % k) := by
  rw [BitVec.srem_eq, msb_ofNat hn, msb_ofNat hk]
  apply eq_of_toNat_eq
  simp only [toNat_umod, toNat_ofNat]
  rw [Nat.mod_eq_of_lt (show n < 2 ^ 32 by omega), Nat.mod_eq_of_lt (show k < 2 ^ 32 by omega),
    Nat.mod_eq_of_lt (show n % k < 2 ^ 32 from Nat.lt_of_le_of_lt (Nat.mod_le n k) (by omega))]

lemma slt_zero_ofInt {x : Int} (hle : -2 ^ 31 ≤ x) (hlt : x < 2 ^ 31) :
    (BitVec.ofInt 32 x).slt 0 = decide (x < 0) := by
  rw [BitVec.slt_eq_decide, BitVec.toInt_ofInt_eq_self (by decide) hle hlt]
  rfl

end Mini2440.Library
