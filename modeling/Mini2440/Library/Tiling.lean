import Mathlib.Data.List.Basic

/-!
# Tilings

A list of pieces, each from `lo` to `hi`, that follow one another without gaps. The pieces are
values of any type.
-/

namespace Mini2440.Library

variable {α : Type*} {lo hi : α → Nat} {a b c k : Nat} {x : α} {l l₁ l₂ : List α}

/-- The pieces cover the numbers from `a` to `b`, one after the other, and none is empty. -/
def Tiles (lo hi : α → Nat) : Nat → List α → Nat → Prop
  | a, [], b => a = b
  | a, x :: l, b => lo x = a ∧ a < hi x ∧ Tiles lo hi (hi x) l b

lemma tiles_nil : Tiles lo hi a [] b ↔ a = b := Iff.rfl

lemma tiles_append : Tiles lo hi a (l₁ ++ l₂) c ↔ ∃ b, Tiles lo hi a l₁ b ∧ Tiles lo hi b l₂ c := by
  induction l₁ generalizing a with
  | nil => simp [Tiles]
  | cons x l ih => simp only [List.cons_append, Tiles, ih, and_assoc, exists_and_left]

section

variable (h : Tiles lo hi a l b)

include h

lemma Tiles.le : a ≤ b := by
  induction l generalizing a with
  | nil => exact Nat.le_of_eq h
  | cons x l ih => exact Nat.le_trans (Nat.le_of_lt h.2.1) (ih h.2.2)

lemma Tiles.bounds (hx : x ∈ l) : a ≤ lo x ∧ lo x < hi x ∧ hi x ≤ b := by
  obtain ⟨l₁, l₂, rfl⟩ := List.append_of_mem hx
  obtain ⟨m, h₁, rfl, hlt, h₂⟩ := tiles_append.mp h
  exact ⟨h₁.le, hlt, h₂.le⟩

lemma Tiles.le_of_forall (ha : a ≤ k) (hl : ∀ x ∈ l, hi x ≤ k) : b ≤ k := by
  induction l generalizing a with
  | nil => exact tiles_nil.mp h ▸ ha
  | cons x l ih => exact ih h.2.2 (hl x (by simp)) fun y hy => hl y (by simp [hy])

lemma Tiles.pairwise : l.Pairwise fun x y => hi x ≤ lo y := by
  induction l generalizing a with
  | nil => exact .nil
  | cons x l ih => exact .cons (fun y hy => (h.2.2.bounds hy).1) (ih h.2.2)

/-- Exactly the numbers between the bounds are covered. -/
lemma Tiles.covers : (∃ x ∈ l, lo x ≤ k ∧ k < hi x) ↔ a ≤ k ∧ k < b := by
  induction l generalizing a with
  | nil =>
    obtain rfl := tiles_nil.mp h
    simp only [List.not_mem_nil, false_and, exists_false, false_iff]
    omega
  | cons x l ih =>
    obtain ⟨rfl, hlt, hrest⟩ := h
    have hle := hrest.le
    simp only [List.mem_cons, exists_eq_or_imp, ih hrest]
    omega

end

end Mini2440.Library
