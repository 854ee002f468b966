import Mathlib.Data.Nat.Notation

/-!
# Bytes in words

A word of 32 bits made of up to four bytes, the least significant one first, and how the bytes
come out of the word again.
-/

namespace Mini2440.Library

abbrev Byte := BitVec 8
abbrev Word := BitVec 32

/-- The word of up to four bytes; the bytes that are missing are zero. -/
def leWord : List Byte → Word
  | [] => 0
  | b :: bs => b.setWidth 32 ||| leWord bs <<< 8

variable {b : Byte} {bs : List Byte}

@[simp] lemma leWord_cons_setWidth : (leWord (b :: bs)).setWidth 8 = b := by
  ext i hi
  simp [leWord]

lemma leWord_getLsbD_of_le {i : Nat} (h : 8 * bs.length ≤ i) : (leWord bs).getLsbD i = false := by
  induction bs generalizing i with
  | nil => simp [leWord]
  | cons b bs ih =>
    rw [List.length_cons] at h
    have hrest : (leWord bs).getLsbD (i - 8) = false := ih (by omega)
    have hbyte : b.getLsbD i = false := BitVec.getLsbD_of_ge _ _ (by omega)
    simp [leWord, hrest, hbyte]

lemma leWord_cons_shiftRight (h : bs.length ≤ 3) : leWord (b :: bs) >>> 8 = leWord bs := by
  refine BitVec.eq_of_getLsbD_eq fun i hi => ?_
  by_cases htop : 8 + i < 32
  · simp [leWord, htop, hi]
  · have hrest : (leWord bs).getLsbD i = false := leWord_getLsbD_of_le (by omega)
    simp [leWord, hrest]

lemma leWord_getLsbD (h : bs.length ≤ 4) {c i : Nat} (hc : c < bs.length) (hi : i < 8) :
    (leWord bs).getLsbD (8 * c + i) = bs[c].getLsbD i := by
  induction bs generalizing c with
  | nil => simp at hc
  | cons b bs ih =>
    rw [List.length_cons] at h hc
    cases c with
    | zero =>
      have htop : i < 32 := by omega
      simp [leWord, hi, htop]
    | succ c =>
      have hrest := ih (by omega) (c := c) (by omega)
      have htop : 8 * (c + 1) + i < 32 := by omega
      have hlow : ¬ 8 * (c + 1) + i < 8 := by omega
      have hsub : 8 * (c + 1) + i - 8 = 8 * c + i := by omega
      have hbyte : b.getLsbD (8 * (c + 1) + i) = false := BitVec.getLsbD_of_ge _ _ (by omega)
      rw [BitVec.getLsbD_eq_getElem (by omega)] at hrest
      simp [leWord, htop, hlow, hsub, hbyte, hrest]

def leBytes : Nat → Word → List Byte
  | 0, _ => []
  | n + 1, w => w.setWidth 8 :: leBytes n (w >>> 8)

lemma leBytes_leWord (bs : List Byte) (h : bs.length ≤ 4) : leBytes bs.length (leWord bs) = bs := by
  induction bs with
  | nil => rfl
  | cons b bs ih =>
    rw [List.length_cons] at h
    rw [List.length_cons, leBytes, leWord_cons_setWidth, leWord_cons_shiftRight (by omega),
      ih (by omega)]

end Mini2440.Library
