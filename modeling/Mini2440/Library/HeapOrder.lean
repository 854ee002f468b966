import Mathlib.Data.List.Perm.Basic

/-!
# Comparison functions and heap order

The sign of a comparison function says how its arguments are ordered. A list is in heap order from
the position `lo` on if no node there is less than one of its children `2 p + 1` and `2 p + 2`.
While an element sinks, the order is broken at one node only, and the children of this node are not
greater than its parent.
-/

namespace Mini2440.Library

variable {β : Type*} {cmp : β → β → Int}

/-- The sign of `cmp` is that of a total preorder. -/
structure TotalPreorder (cmp : β → β → Int) : Prop where
  neg_iff : ∀ a b, cmp a b < 0 ↔ 0 < cmp b a
  trans : ∀ a b c, cmp a b ≤ 0 → cmp b c ≤ 0 → cmp a c ≤ 0

lemma TotalPreorder.nonneg_iff (h : TotalPreorder cmp) (a b : β) : 0 ≤ cmp a b ↔ cmp b a ≤ 0 := by
  have := h.neg_iff a b
  omega

lemma TotalPreorder.refl (h : TotalPreorder cmp) (a : β) : cmp a a ≤ 0 := by
  have := h.neg_iff a a
  omega

/-! ## Exchanging two elements -/

def swapAt (xs : List β) (k l : Nat) : List β :=
  match xs[k]?, xs[l]? with
  | some x, some y => (xs.set k y).set l x
  | _, _ => xs

variable {xs ys zs : List β} {k l : Nat}

lemma swapAt_of_lt (hk : k < xs.length) (hl : l < xs.length) :
    swapAt xs k l = (xs.set k xs[l]).set l xs[k] := by
  simp [swapAt, hk, hl]

@[simp] lemma length_swapAt : (swapAt xs k l).length = xs.length := by
  unfold swapAt
  split <;> simp

lemma getElem?_swapAt (hk : k < xs.length) (hl : l < xs.length) (i : Nat) :
    (swapAt xs k l)[i]? = if i = k then xs[l]? else if i = l then xs[k]? else xs[i]? := by
  rw [swapAt_of_lt hk hl]
  grind

lemma swapAt_perm (hk : k < xs.length) (hl : l < xs.length) : (swapAt xs k l).Perm xs := by
  rw [swapAt_of_lt hk hl]
  exact List.set_set_perm hk hl

lemma swapAt_append_left (hk : k < ys.length) (hl : l < ys.length) :
    swapAt (ys ++ zs) k l = swapAt ys k l ++ zs := by
  refine List.ext_getElem? fun i => ?_
  rw [getElem?_swapAt (by simp; omega) (by simp; omega)]
  have := getElem?_swapAt hk hl i
  grind [length_swapAt]

lemma swapAt_ends (a b : β) (mid : List β) :
    swapAt (a :: (mid ++ [b]) ++ zs) 0 (mid.length + 1) = b :: mid ++ a :: zs := by
  refine List.ext_getElem? fun i => ?_
  rw [getElem?_swapAt (by simp) (by simp)]
  grind

/-! ## Heap order -/

def IsChild (c p : Nat) : Prop := c = 2 * p + 1 ∨ c = 2 * p + 2

def HeapFrom (cmp : β → β → Int) (lo : Nat) (xs : List β) : Prop :=
  ∀ p c x y, lo ≤ p → IsChild c p → xs[p]? = some x → xs[c]? = some y → cmp y x ≤ 0

/-- Heap order up to the node `r`, where an element sinks. -/
structure Sinking (cmp : β → β → Int) (lo r : Nat) (xs : List β) : Prop where
  off : ∀ p c x y, lo ≤ p → p ≠ r → IsChild c p → xs[p]? = some x → xs[c]? = some y → cmp y x ≤ 0
  grand : ∀ p c x y, lo ≤ p → IsChild r p → IsChild c r → xs[p]? = some x → xs[c]? = some y →
    cmp y x ≤ 0

structure GreatestChild (cmp : β → β → Int) (xs : List β) (c r : Nat) : Prop where
  child : IsChild c r
  greatest : ∀ c' x y, IsChild c' r → xs[c]? = some x → xs[c']? = some y → cmp y x ≤ 0

variable {lo r c : Nat}

lemma greatestChild_right (hcmp : TotalPreorder cmp) (h : 2 * r + 2 < xs.length)
    (hneg : cmp xs[2 * r + 1] xs[2 * r + 2] < 0) : GreatestChild cmp xs (2 * r + 2) r := by
  refine ⟨.inr rfl, fun c' x y hc' hx hy => ?_⟩
  obtain ⟨_, rfl⟩ := List.getElem?_eq_some_iff.mp hx
  obtain ⟨_, rfl⟩ := List.getElem?_eq_some_iff.mp hy
  rcases hc' with rfl | rfl
  · exact Int.le_of_lt hneg
  · exact hcmp.refl _

lemma greatestChild_left (hcmp : TotalPreorder cmp) (h : 2 * r + 2 < xs.length)
    (hnonneg : 0 ≤ cmp xs[2 * r + 1] xs[2 * r + 2]) : GreatestChild cmp xs (2 * r + 1) r := by
  refine ⟨.inl rfl, fun c' x y hc' hx hy => ?_⟩
  obtain ⟨_, rfl⟩ := List.getElem?_eq_some_iff.mp hx
  obtain ⟨_, rfl⟩ := List.getElem?_eq_some_iff.mp hy
  rcases hc' with rfl | rfl
  · exact hcmp.refl _
  · exact (hcmp.nonneg_iff _ _).mp hnonneg

lemma greatestChild_only (hcmp : TotalPreorder cmp) (h : xs.length ≤ 2 * r + 2) :
    GreatestChild cmp xs (2 * r + 1) r := by
  refine ⟨.inl rfl, fun c' x y hc' hx hy => ?_⟩
  have hlt := (List.getElem?_eq_some_iff.mp hy).1
  obtain rfl : c' = 2 * r + 1 := hc'.resolve_right (by omega)
  obtain rfl := Option.some.inj (hx.symm.trans hy)
  exact hcmp.refl x

lemma HeapFrom.of_leaves (h : xs.length ≤ 2 * lo + 1) : HeapFrom cmp lo xs := by
  intro p c x y hp hc _ hy
  rcases hc with rfl | rfl <;> grind

lemma HeapFrom.sinking (h : HeapFrom cmp (lo + 1) xs) : Sinking cmp lo lo xs where
  off p c x y hp hne hc hx hy := h p c x y (by omega) hc hx hy
  grand p c x y hp hr := by rcases hr with hr | hr <;> omega

lemma Sinking.leaf (h : Sinking cmp lo r xs) (hr : xs.length ≤ 2 * r + 1) : HeapFrom cmp lo xs := by
  intro p c x y hp hc hx hy
  by_cases hpr : p = r
  · rcases hc with rfl | rfl <;> grind
  · exact h.off p c x y hp hpr hc hx hy

lemma Sinking.stop (hcmp : TotalPreorder cmp) (h : Sinking cmp lo r xs)
    (hc : GreatestChild cmp xs c r) (hr : r < xs.length) (hlt : c < xs.length)
    (hle : cmp xs[c] xs[r] ≤ 0) : HeapFrom cmp lo xs := by
  intro p c' x y hp hc' hx hy
  by_cases hpr : p = r
  · subst hpr
    obtain ⟨_, rfl⟩ := List.getElem?_eq_some_iff.mp hx
    exact hcmp.trans _ _ _ (hc.greatest c' _ y hc' (List.getElem?_eq_getElem hlt) hy) hle
  · exact h.off p c' x y hp hpr hc' hx hy

lemma Sinking.swap (h : Sinking cmp lo r xs) (hc : GreatestChild cmp xs c r) (hlo : lo ≤ r)
    (hr : r < xs.length) (hlt : c < xs.length) (hle : cmp xs[r] xs[c] ≤ 0) :
    Sinking cmp lo c (swapAt xs r c) := by
  have hrc : r < c := by
    have := hc.child
    unfold IsChild at this
    omega
  have hget := getElem?_swapAt hr hlt
  constructor
  · intro p c' x y hp hne hc' hx hy
    rw [hget] at hx hy
    by_cases hpr : p = r
    · -- The greatest child is now above its old place and its sibling.
      subst hpr
      rw [if_pos rfl] at hx
      rw [if_neg (by unfold IsChild at hc'; omega)] at hy
      split at hy
      · obtain ⟨_, rfl⟩ := List.getElem?_eq_some_iff.mp hx
        obtain ⟨_, rfl⟩ := List.getElem?_eq_some_iff.mp hy
        exact hle
      · exact hc.greatest c' x y hc' hx hy
    · rw [if_neg hpr, if_neg hne] at hx
      split at hy
      · next heq =>
        subst heq
        exact h.grand p c x y hp hc' hc.child hx hy
      · rw [if_neg fun heq => hpr ?_] at hy
        · exact h.off p c' x y hp hpr hc' hx hy
        · have := hc.child
          unfold IsChild at this hc'
          omega
  · intro p c' x y hp hpc hc' hx hy
    have hpr : p = r := by
      have := hc.child
      unfold IsChild at this hpc
      omega
    subst hpr
    rw [hget, if_pos rfl] at hx
    have hcc' : c < c' := by
      unfold IsChild at hc'
      omega
    rw [hget, if_neg (by omega), if_neg (by omega)] at hy
    exact h.off c c' x y (by omega) (by omega) hc' hx hy

/-- The first element of a heap is a greatest one. -/
lemma HeapFrom.le_head (hcmp : TotalPreorder cmp) (h : HeapFrom cmp 0 xs) (i : Nat) {x y : β}
    (hx : xs[0]? = some x) (hy : xs[i]? = some y) : cmp y x ≤ 0 := by
  induction i using Nat.strongRecOn generalizing y with
  | ind i ih =>
    by_cases hi : i = 0
    · subst hi
      obtain rfl := Option.some.inj (hx.symm.trans hy)
      exact hcmp.refl x
    · have hp : (i - 1) / 2 < xs.length := by
        have := (List.getElem?_eq_some_iff.mp hy).1
        omega
      have hz := List.getElem?_eq_getElem hp
      exact hcmp.trans _ _ _ (h _ i _ y (Nat.zero_le _) (by unfold IsChild; omega) hz hy)
        (ih _ (by omega) hz)

lemma HeapFrom.replaceHead (a b : β) (mid : List β) (h : HeapFrom cmp 0 (a :: (mid ++ [b]))) :
    Sinking cmp 0 0 (b :: mid) where
  off p c x y hp hne hc hx hy := by
    refine h p c x y hp hc ?_ ?_
    · grind
    · have : c ≠ 0 := by unfold IsChild at hc; omega
      grind
  grand p c x y hp hr := by unfold IsChild at hr; omega

end Mini2440.Library
