import Mathlib.Data.BitVec

/-!
# Shift registers with feedback

A word is shifted right, and a constant is added to it whenever a one falls out. Addition is
exclusive or, so that a step is linear. As long as only zeros fall out, a step is a shift; this
splits some steps of a word into those of its low bits and a shift.
-/

namespace Mini2440.Library

open BitVec

variable {w : Nat} (poly : BitVec w)

def shiftStep (c : BitVec w) : BitVec w := (c >>> 1) ^^^ if c &&& 1#w ≠ 0#w then poly else 0#w

def shifts (n : Nat) : BitVec w → BitVec w := (shiftStep poly)^[n]

variable {poly} {c d : BitVec w} {m n : Nat}

lemma and_one_ne_zero_iff : c &&& 1#w ≠ 0#w ↔ c.getLsbD 0 := by
  rw [and_one_eq_setWidth_ofBool_getLsbD]
  cases h : c.getLsbD 0 with
  | false => simp
  | true =>
    have hw : 0 < w := by
      by_contra hw
      rw [getLsbD_of_ge c 0 (by omega)] at h
      cases h
    simp only [iff_true]
    intro hzero
    have := congrArg (getLsbD · 0) hzero
    simp [hw] at this

lemma shiftStep_xor :
    shiftStep poly (c ^^^ d) = shiftStep poly c ^^^ shiftStep poly d := by
  simp only [shiftStep, and_one_ne_zero_iff, getLsbD_xor]
  apply eq_of_getLsbD_eq
  intro i _
  cases c.getLsbD 0 <;> cases d.getLsbD 0 <;> simp <;>
    cases poly.getLsbD i <;> cases d.getLsbD (1 + i) <;> simp

@[simp] lemma shifts_zero : shifts poly 0 c = c := rfl

lemma shifts_add (m n : Nat) (c : BitVec w) :
    shifts poly (m + n) c = shifts poly m (shifts poly n c) :=
  Function.iterate_add_apply _ m n c

lemma shifts_succ :
    shifts poly (n + 1) c = shiftStep poly (shifts poly n c) :=
  Function.iterate_succ_apply' _ n c

lemma shifts_xor (n : Nat) (c d : BitVec w) :
    shifts poly n (c ^^^ d) = shifts poly n c ^^^ shifts poly n d := by
  induction n with
  | zero => rfl
  | succ n ih => rw [shifts_succ, shifts_succ, shifts_succ, ih, shiftStep_xor]

lemma shifts_zero_word : shifts poly n 0#w = 0#w := by
  have h : shifts poly n (0#w ^^^ 0#w) = _ := shifts_xor n 0#w 0#w
  rwa [BitVec.xor_self, BitVec.xor_self] at h

/-- The highest bit of the constant tells whether a one has fallen out. -/
lemma shifts_injective (h : poly.msb) (n : Nat) : Function.Injective (shifts poly n) := by
  refine Function.Injective.iterate (fun c d heq => ?_) n
  have hbit := fun i => congrArg (getLsbD · i) heq
  simp only [shiftStep, and_one_ne_zero_iff, getLsbD_xor, getLsbD_ushiftRight] at hbit
  rw [msb_eq_getLsbD_last] at h
  have hlow : c.getLsbD 0 = d.getLsbD 0 := by
    have := hbit (w - 1)
    grind
  refine eq_of_getLsbD_eq fun i _ => ?_
  cases i with
  | zero => exact hlow
  | succ i => simpa [hlow, Nat.add_comm] using hbit i

lemma shifts_of_low (h : ∀ i < n, c.getLsbD i = false) : shifts poly n c = c >>> n := by
  induction n with
  | zero => simp
  | succ n ih =>
    have hlow : ¬(c >>> n) &&& 1#w ≠ 0#w := by
      rw [and_one_ne_zero_iff, getLsbD_ushiftRight, add_zero, h n (by omega)]
      exact Bool.false_ne_true
    rw [shifts_succ, ih fun i hi => h i (by omega), shiftStep, if_neg hlow, xor_zero,
      shiftRight_add]

/-- The steps of a word are those of its low bits, added to the others shifted. -/
lemma shifts_split (h : ∀ i < n, d.getLsbD i = c.getLsbD i)
    (hd : ∀ i, n ≤ i → d.getLsbD i = false) :
    shifts poly n c = shifts poly n d ^^^ (c >>> n) := by
  have hlow : ∀ i < n, (c ^^^ d).getLsbD i = false := by
    intro i hi
    rw [getLsbD_xor, h i hi, Bool.xor_self]
  have hhigh : (c ^^^ d) >>> n = c >>> n := by
    apply eq_of_getLsbD_eq
    intro i _
    rw [getLsbD_ushiftRight, getLsbD_xor, hd (n + i) (by omega), Bool.xor_false,
      getLsbD_ushiftRight]
  have hsplit : c = d ^^^ (c ^^^ d) := by
    rw [BitVec.xor_comm c d, ← BitVec.xor_assoc, BitVec.xor_self, BitVec.zero_xor]
  conv => lhs; rw [hsplit]
  rw [shifts_xor, shifts_of_low hlow, hhigh]

lemma shifts_two_pow (h : n < w) : shifts poly n (1#w <<< n) = 1#w := by
  rw [shifts_of_low]
  · apply eq_of_getLsbD_eq
    intro i hi
    simp only [getLsbD_ushiftRight, getLsbD_shiftLeft]
    by_cases hni : n + i < w
    · simp [hni]
    · have hpos : i ≠ 0 := by omega
      simp [hpos]
  · intro i hi
    simp [hi]

end Mini2440.Library
