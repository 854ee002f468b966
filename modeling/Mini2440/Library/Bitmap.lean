import Mathlib.Data.BitVec

/-!
# Bitmaps

A bitmap is a sequence of words; bit `b` of it is bit `b % w` of word `b / w`. Setting and clearing
a mask in one word changes exactly the bits of the mask. A search goes up from a position to the
first index with a property and stops at a bound.
-/

namespace Mini2440.Library

/-! ## Searching -/

/-- The first index from `lo` on and below `hi` that has the property, or `hi`. -/
def nextIndex (p : Nat → Bool) (hi lo : Nat) : Nat :=
  ((List.range' lo (hi - lo)).find? p).getD hi

variable {p : Nat → Bool} {lo hi i : Nat}

lemma nextIndex_of_le (h : hi ≤ lo) : nextIndex p hi lo = hi := by
  simp [nextIndex, Nat.sub_eq_zero_of_le h]

lemma nextIndex_step (h : lo < hi) :
    nextIndex p hi lo = if p lo then lo else nextIndex p hi (lo + 1) := by
  obtain ⟨n, hn⟩ : ∃ n, hi - lo = n + 1 := ⟨hi - lo - 1, by omega⟩
  have hn' : hi - (lo + 1) = n := by omega
  rw [nextIndex, nextIndex, hn, hn', List.range'_succ, List.find?_cons]
  cases p lo <;> rfl

/-- The search ends between its bounds, everything that it has passed lacks the property, and it
stops before the upper bound only at an index that has it. -/
lemma nextIndex_spec (p : Nat → Bool) (h : lo ≤ hi) :
    lo ≤ nextIndex p hi lo ∧ nextIndex p hi lo ≤ hi ∧
      (∀ i, lo ≤ i → i < nextIndex p hi lo → p i = false) ∧
      (nextIndex p hi lo < hi → p (nextIndex p hi lo)) := by
  induction hd : hi - lo generalizing lo with
  | zero =>
    rw [nextIndex_of_le (by omega)]
    exact ⟨h, le_rfl, fun i _ _ => by omega, fun _ => by omega⟩
  | succ d ih =>
    rw [nextIndex_step (by omega)]
    cases hp : p lo with
    | true => exact ⟨le_rfl, h, fun i _ _ => by simp at *; omega, fun _ => hp⟩
    | false =>
      obtain ⟨hle, hge, hpast, hat⟩ := ih (by omega : lo + 1 ≤ hi) (by omega)
      refine ⟨by simp; omega, hge, fun i hi hlt => ?_, hat⟩
      rcases eq_or_lt_of_le hi with rfl | hlt'
      · exact hp
      · exact hpast i hlt' hlt

lemma nextIndex_le : nextIndex p hi lo ≤ hi := by
  rcases le_total lo hi with h | h
  · exact (nextIndex_spec p h).2.1
  · exact le_of_eq (nextIndex_of_le h)

lemma nextIndex_eq (hlo : lo ≤ i) (hhi : i ≤ hi) (hpast : ∀ j, lo ≤ j → j < i → p j = false)
    (hat : i < hi → p i) : nextIndex p hi lo = i := by
  obtain ⟨hge, hle, hpast', hat'⟩ := nextIndex_spec p (hlo.trans hhi)
  rcases lt_trichotomy (nextIndex p hi lo) i with hlt | heq | hgt
  · simpa [hpast _ hge hlt] using hat' (by omega)
  · exact heq
  · simpa [hpast' i hlo hgt] using hat (by omega)

/-! ## Words of bits -/

variable {w : Nat} {map : Nat → BitVec w} {k b : Nat} {m : BitVec w}

def bit (map : Nat → BitVec w) (b : Nat) : Bool := (map (b / w)).getLsbD (b % w)

/-- The position is in word `k` and its bit is in the mask. -/
def InMask (k : Nat) (m : BitVec w) (b : Nat) : Prop := b / w = k ∧ m.getLsbD (b % w) = true

instance : Decidable (InMask k m b) := inferInstanceAs (Decidable (_ ∧ _))

/-- `map[k] |= m`. -/
def setMask (map : Nat → BitVec w) (k : Nat) (m : BitVec w) : Nat → BitVec w :=
  Function.update map k (map k ||| m)

/-- `map[k] &= ~m`. -/
def clearMask (map : Nat → BitVec w) (k : Nat) (m : BitVec w) : Nat → BitVec w :=
  Function.update map k (map k &&& ~~~m)

lemma bit_setMask : bit (setMask map k m) b = (bit map b || decide (InMask k m b)) := by
  by_cases h : b / w = k
  · simp [bit, setMask, InMask, h]
  · simp [bit, setMask, InMask, h]

lemma bit_clearMask [NeZero w] :
    bit (clearMask map k m) b = (bit map b && !decide (InMask k m b)) := by
  by_cases h : b / w = k
  · simp [bit, clearMask, InMask, h, Nat.mod_lt b (Nat.pos_of_neZero w)]
  · simp [bit, clearMask, InMask, h]

lemma eq_of_forall_position [NeZero w] {x y : BitVec w} (k : Nat)
    (h : ∀ b, b / w = k → x.getLsbD (b % w) = y.getLsbD (b % w)) : x = y := by
  apply BitVec.eq_of_getLsbD_eq
  intro j hj
  have hdiv : (w * k + j) / w = k := by
    rw [Nat.mul_add_div (by omega), Nat.div_eq_of_lt hj, Nat.add_zero]
  have hmod : (w * k + j) % w = j := by rw [Nat.mul_add_mod, Nat.mod_eq_of_lt hj]
  simpa only [hmod] using h (w * k + j) hdiv

lemma and_mask_eq_iff [NeZero w] {v : Bool} {x : BitVec w}
    (hx : ∀ j, x.getLsbD j = (m.getLsbD j && v)) :
    map k &&& m = x ↔ ∀ b, InMask k m b → bit map b = v := by
  constructor
  · rintro h b ⟨rfl, hm⟩
    have hb := congrArg (BitVec.getLsbD · (b % w)) h
    simpa [hm, bit, hx] using hb
  · intro h
    refine eq_of_forall_position k fun b hb => ?_
    subst hb
    cases hm : m.getLsbD (b % w) with
    | false => simp [hm, hx]
    | true => simpa [hm, bit, hx] using h b ⟨rfl, hm⟩

lemma and_mask_eq_zero_iff [NeZero w] : map k &&& m = 0 ↔ ∀ b, InMask k m b → bit map b = false :=
  and_mask_eq_iff (by simp)

lemma and_mask_eq_self_iff [NeZero w] : map k &&& m = m ↔ ∀ b, InMask k m b → bit map b :=
  and_mask_eq_iff (by simp)

end Mini2440.Library
