import Mathlib.Algebra.GroupWithZero.Nat
import Mathlib.Algebra.Order.BigOperators.Group.List
import Mathlib.Data.List.GetD

/-!
# Data in segments

A memory of segments: place `j` of segment `i` is the place number `base lens i + j` of all
segments one after the other, if `j` is below the length of the segment. `fill` puts a list into
the first places and leaves everything else as it is.
-/

namespace Mini2440.Library.Segments

open List

variable {β : Type*} {lens : List Nat} {i i' j j' : Nat} {data : List β} {mem : Nat → Nat → β}

def base (lens : List Nat) (i : Nat) : Nat := (lens.take i).sum

/-- The length of a segment; there is nothing behind the last one. -/
def len (lens : List Nat) (i : Nat) : Nat := lens.getD i 0

lemma len_induction {P : Nat → Prop} (h : ∀ n ∈ lens, P n) (zero : P 0) :
    P (len lens i) := by
  rcases lt_or_ge i lens.length with hi | hi
  · rw [len, getD_eq_getElem _ _ hi]
    exact h _ (getElem_mem hi)
  · rwa [len, getD_eq_default _ _ hi]

lemma base_succ (lens : List Nat) (i : Nat) : base lens (i + 1) = base lens i + len lens i := by
  rcases lt_or_ge i lens.length with h | h
  · rw [base, sum_take_succ _ _ h, base, len, getD_eq_getElem _ _ h]
  · rw [base, base, len, take_of_length_le h, take_of_length_le (by omega),
      getD_eq_default _ _ h, add_zero]

lemma base_mono : Monotone (base lens) := by
  refine monotone_nat_of_le_succ fun i => ?_
  rw [base_succ]
  exact Nat.le_add_right _ _

lemma base_length : base lens lens.length = lens.sum := by
  rw [base, take_length]

lemma base_le_sum : base lens i ≤ lens.sum := by
  rcases le_total i lens.length with h | h
  · exact (base_mono h).trans (base_length).le
  · rw [base, take_of_length_le h]

lemma place_inj (hj : j < len lens i) (hj' : j' < len lens i')
    (h : base lens i + j = base lens i' + j') : i = i' ∧ j = j' := by
  have hi := base_succ lens i
  have hi' := base_succ lens i'
  rcases lt_trichotomy i i' with hlt | rfl | hgt
  · have hle : base lens (i + 1) ≤ base lens i' := base_mono hlt
    omega
  · omega
  · have hle : base lens (i' + 1) ≤ base lens i := base_mono hgt
    omega

/-- The memory with a list in its first places. -/
def fill (lens : List Nat) (data : List β) (mem : Nat → Nat → β) : Nat → Nat → β :=
  fun i j => if j < len lens i then (data[base lens i + j]?).getD (mem i j) else mem i j

lemma fill_nil (lens : List Nat) (mem : Nat → Nat → β) : fill lens [] mem = mem := by
  funext i j
  simp [fill]

lemma fill_snoc {b : β} (hj : j < len lens i) (h : base lens i + j = data.length) :
    fill lens (data ++ [b]) mem =
      Function.update (fill lens data mem) i (Function.update (fill lens data mem i) j b) := by
  funext i' j'
  by_cases hplace : i' = i ∧ j' = j
  · obtain ⟨rfl, rfl⟩ := hplace
    simp [fill, hj, h]
  · have hother : Function.update (fill lens data mem) i
        (Function.update (fill lens data mem i) j b) i' j' = fill lens data mem i' j' := by
      by_cases hi : i' = i
      · subst hi
        have hj' : j' ≠ j := fun hj' => hplace ⟨rfl, hj'⟩
        simp [hj']
      · simp [hi]
    rw [hother]
    simp only [fill]
    split_ifs with hj'
    · have hne : base lens i' + j' ≠ data.length := fun heq =>
        hplace (place_inj hj' hj (by omega))
      grind
    · rfl

def gatherTo (lens : List Nat) (mem : Nat → Nat → β) (i : Nat) : List β :=
  (range i).flatMap fun i => (range (len lens i)).map (mem i)

def gather (lens : List Nat) (mem : Nat → Nat → β) : List β := gatherTo lens mem lens.length

lemma gatherTo_succ :
    gatherTo lens mem (i + 1) = gatherTo lens mem i ++ (range (len lens i)).map (mem i) := by
  simp [gatherTo, range_succ]

lemma length_gatherTo :
    (gatherTo lens mem i).length = base lens i := by
  induction i with
  | zero => rfl
  | succ i ih => rw [gatherTo_succ, length_append, ih, base_succ, length_map, length_range]

lemma length_gather :
    (gather lens mem).length = lens.sum := by
  rw [gather, length_gatherTo, base_length]

lemma gatherTo_le (h : i ≤ i') :
    gatherTo lens mem i <+: gatherTo lens mem i' := by
  induction i', h using Nat.le_induction with
  | base => exact prefix_rfl
  | succ i' _ ih =>
    rw [gatherTo_succ]
    exact ih.trans (prefix_append _ _)

lemma gather_getElem? (hj : j < len lens i) :
    (gather lens mem)[base lens i + j]? = some (mem i j) := by
  have hi : i < lens.length := by
    by_contra hi
    rw [len, getD_eq_default _ _ (by omega)] at hj
    omega
  have hmem : (gatherTo lens mem (i + 1))[base lens i + j]? = some (mem i j) := by
    rw [gatherTo_succ, getElem?_append_right (by rw [length_gatherTo]; omega), length_gatherTo]
    simp [hj]
  obtain ⟨hlt, hget⟩ := List.getElem?_eq_some_iff.mp hmem
  rw [gather, List.prefix_iff_getElem?.mp (gatherTo_le hi) _ hlt, hget]

/-- The items of a part of a segment come after those of the places before it. -/
lemma take_gather_add {n : Nat} (mem : Nat → Nat → β) (h : j + n ≤ len lens i) :
    (gather lens mem).take (base lens i + j + n) =
      (gather lens mem).take (base lens i + j) ++ (range n).map fun k => mem i (j + k) := by
  induction n with
  | zero => simp
  | succ n ih =>
    have hnext : (gather lens mem)[base lens i + j + n]? = some (mem i (j + n)) := by
      rw [add_assoc]
      exact gather_getElem? (by omega)
    rw [← add_assoc, take_add_one, ih (by omega), hnext, range_succ]
    simp

end Mini2440.Library.Segments
