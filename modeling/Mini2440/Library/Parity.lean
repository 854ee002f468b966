import Mathlib.Algebra.BigOperators.Ring.Finset
import Mathlib.Algebra.Ring.BooleanRing

/-!
# Complementary parities

Cells hold one bit each and have an address of several bits. For every bit of the address there
are two parities: that of the cells where it is set, and that of the cells where it is not. A
flip of one cell changes one parity of each pair, and the changed ones spell the address of the
cell; two flips change both parities of a pair or none. Sums of booleans are exclusive ors.
-/

namespace Mini2440.Library

open Finset

section Sum

variable {M : Type*} [AddCommMonoid M]

lemma sum_range_mul (n m : ℕ) (f : ℕ → M) :
    ∑ i ∈ range (m * n), f i = ∑ k ∈ range n, ∑ c ∈ range m, f (m * k + c) := by
  induction n with
  | zero => simp
  | succ n ih => rw [Nat.mul_succ, sum_range_add, ih, sum_range_succ]

end Sum

section Parity

variable {κ : Type*} [DecidableEq κ] {cells : Finset κ} {sel : κ → Bool} {d : κ → Bool} {x y : κ}

def parity (cells : Finset κ) (sel d : κ → Bool) : Bool := ∑ x ∈ cells, (sel x && d x)

def flipAt (d : κ → Bool) (x : κ) : κ → Bool := Function.update d x (!d x)

lemma flipAt_apply : flipAt d x y = (d y ^^ decide (y = x)) := by
  unfold flipAt
  by_cases h : y = x
  · subst h
    simp
  · simp [h]

lemma parity_flipAt (hx : x ∈ cells) :
    parity cells sel (flipAt d x) = (parity cells sel d ^^ sel x) := by
  have hsplit : ∀ y, (sel y && flipAt d x y) = (sel y && d y) + if y = x then sel y else 0 := by
    intro y
    rw [flipAt_apply, Bool.add_eq_xor, Bool.and_xor_distrib_left]
    by_cases h : y = x <;> simp [h, Bool.zero_eq_false]
  calc parity cells sel (flipAt d x)
      = ∑ y ∈ cells, ((sel y && d y) + if y = x then sel y else 0) :=
        sum_congr rfl fun y _ => hsplit y
    _ = (parity cells sel d ^^ sel x) := by
        rw [sum_add_distrib, sum_ite_eq' cells x sel, if_pos hx]
        rfl

omit [DecidableEq κ] in
lemma parity_not :
    parity cells (fun x => !sel x) d = (parity cells (fun _ => true) d ^^ parity cells sel d) := by
  have hsplit : ∀ x, (!sel x && d x) = (true && d x) + (sel x && d x) := by
    intro x
    cases sel x <;> cases d x <;> rfl
  calc parity cells (fun x => !sel x) d
      = ∑ x ∈ cells, ((true && d x) + (sel x && d x)) := sum_congr rfl fun x _ => hsplit x
    _ = _ := sum_add_distrib

end Parity

section Address

variable {κ : Type*} [DecidableEq κ] {cells : Finset κ} {d : κ → Bool} {x y : κ}

/-- The parity of the cells whose address has the bit `s` equal to `v`. -/
def addressParity (cells : Finset κ) (addr : κ → ℕ → Bool) (s : ℕ) (v : Bool) (d : κ → Bool) :
    Bool :=
  parity cells (fun x => addr x s == v) d

variable {addr : κ → ℕ → Bool} {s : ℕ} {v : Bool}

/-- One flip changes the parity on the side of each address bit that the cell is on. -/
lemma addressParity_flipAt (hx : x ∈ cells) :
    (addressParity cells addr s v d ^^ addressParity cells addr s v (flipAt d x)) =
      (addr x s == v) := by
  rw [addressParity, addressParity, parity_flipAt hx, ← Bool.xor_assoc, Bool.xor_self,
    Bool.false_xor]

/-- Two flips change both parities of a pair, or none of them. -/
lemma addressParity_flipAt_flipAt (hx : x ∈ cells) (hy : y ∈ cells) :
    (addressParity cells addr s v d ^^
      addressParity cells addr s v (flipAt (flipAt d x) y)) = (addr x s ^^ addr y s) := by
  rw [addressParity, addressParity, parity_flipAt hy, parity_flipAt hx, Bool.xor_assoc,
    ← Bool.xor_assoc, Bool.xor_self]
  cases addr x s <;> cases addr y s <;> cases v <;> rfl

end Address

end Mini2440.Library
