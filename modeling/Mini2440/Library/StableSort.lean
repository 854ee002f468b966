import Mathlib.Data.List.Sort
import Mathlib.Data.Set.List
import Mini2440.Library.HeapOrder

/-!
# Stable sorting by merging

A list is a stable rearrangement of another one if it is in order and no two elements that may stay
as they are have changed places. Merging keeps this, for two lists that were next to each other, if
the elements of the first one win ties. The comparison function is a preorder on the elements that
are sorted; it may be anything elsewhere.
-/

namespace Mini2440.Library

open List

variable {β : Type*} {cmp : β → β → Int} {U : β → Prop} {xs ys xs' ys' : List β} {a b c : β}

/-- The sign of `cmp` is that of a total preorder on the elements with `U`. -/
def PreorderOn (U : β → Prop) (cmp : β → β → Int) : Prop :=
  TotalPreorder fun a b : { a // U a } => cmp a b

lemma PreorderOn.trans (h : PreorderOn U cmp) (ha : U a) (hb : U b) (hc : U c)
    (hab : cmp a b ≤ 0) (hbc : cmp b c ≤ 0) : cmp a c ≤ 0 :=
  TotalPreorder.trans h ⟨a, ha⟩ ⟨b, hb⟩ ⟨c, hc⟩ hab hbc

lemma PreorderOn.le_of_not_le (h : PreorderOn U cmp) (ha : U a) (hb : U b) (hab : ¬ cmp a b ≤ 0) :
    cmp b a ≤ 0 := by
  have := TotalPreorder.neg_iff h ⟨b, hb⟩ ⟨a, ha⟩
  dsimp only at this
  omega

/-- The elements of the first list win ties. -/
def mergeBy (cmp : β → β → Int) (xs ys : List β) : List β :=
  xs.merge ys fun a b => cmp a b ≤ 0

@[simp] lemma mergeBy_nil_left : mergeBy cmp [] ys = ys := nil_merge ys

@[simp] lemma mergeBy_nil_right : mergeBy cmp xs [] = xs := merge_right xs

lemma mergeBy_cons_le (h : cmp a b ≤ 0) :
    mergeBy cmp (a :: xs) (b :: ys) = a :: mergeBy cmp xs (b :: ys) :=
  cons_merge_cons_pos _ _ _ (decide_eq_true h)

lemma mergeBy_cons_not_le (h : ¬ cmp a b ≤ 0) :
    mergeBy cmp (a :: xs) (b :: ys) = b :: mergeBy cmp (a :: xs) ys :=
  cons_merge_cons_neg _ _ _ (by simpa using h)

lemma mergeBy_perm : (mergeBy cmp xs ys).Perm (xs ++ ys) := merge_perm_append _

lemma mem_mergeBy : a ∈ mergeBy cmp xs ys ↔ a ∈ xs ∨ a ∈ ys := mem_merge

lemma mergeBy_induction (cmp : β → β → Int) {motive : List β → List β → Prop}
    (left : ∀ ys, motive [] ys) (right : ∀ a xs, motive (a :: xs) [])
    (le : ∀ a xs b ys, cmp a b ≤ 0 → motive xs (b :: ys) → motive (a :: xs) (b :: ys))
    (not_le : ∀ a xs b ys, ¬ cmp a b ≤ 0 → motive (a :: xs) ys → motive (a :: xs) (b :: ys))
    (xs ys : List β) : motive xs ys := by
  induction xs generalizing ys with
  | nil => exact left ys
  | cons a xs ihx =>
    induction ys with
    | nil => exact right a xs
    | cons b ys ihy =>
      by_cases h : cmp a b ≤ 0
      · exact le a xs b ys h (ihx (b :: ys))
      · exact not_le a xs b ys h ihy

lemma sublist_mergeBy : xs.Sublist (mergeBy cmp xs ys) ∧ ys.Sublist (mergeBy cmp xs ys) := by
  refine mergeBy_induction cmp (motive := fun xs ys =>
    xs.Sublist (mergeBy cmp xs ys) ∧ ys.Sublist (mergeBy cmp xs ys)) (fun ys => ?_)
    (fun a xs => ?_) (fun a xs b ys h ih => ?_) (fun a xs b ys h ih => ?_) xs ys
  · simp
  · simp
  · rw [mergeBy_cons_le h]
    exact ⟨ih.1.cons_cons a, ih.2.cons a⟩
  · rw [mergeBy_cons_not_le h]
    exact ⟨ih.1.cons b, ih.2.cons_cons b⟩

lemma mergeBy_sorted (hcmp : PreorderOn U cmp) (hxs : ∀ a ∈ xs, U a) (hys : ∀ a ∈ ys, U a)
    (hx : xs.Pairwise fun a b => cmp a b ≤ 0) (hy : ys.Pairwise fun a b => cmp a b ≤ 0) :
    (mergeBy cmp xs ys).Pairwise fun a b => cmp a b ≤ 0 := by
  -- The elements with `U` are a type of their own, where the comparison is a preorder.
  lift xs to List { a // U a } using hxs
  lift ys to List { a // U a } using hys
  have hmap : (xs.merge ys fun a b => cmp a b ≤ 0).map Subtype.val =
      mergeBy cmp (xs.map Subtype.val) (ys.map Subtype.val) := map_merge fun _ _ _ _ => rfl
  rw [pairwise_map] at hx hy
  rw [← hmap, pairwise_map]
  have : Std.Total fun a b : { a // U a } => cmp a b ≤ 0 :=
    ⟨fun a b => or_iff_not_imp_left.mpr (hcmp.le_of_not_le a.2 b.2)⟩
  have : IsTrans { a // U a } fun a b => cmp a b ≤ 0 := ⟨fun a b c => hcmp.trans a.2 b.2 c.2⟩
  exact hx.merge hy

/-- An element of the first list stays before one of the second list that is not less. -/
lemma pair_sublist_mergeBy (hcmp : PreorderOn U cmp) (hxs : ∀ a ∈ xs, U a)
    (hys : ∀ a ∈ ys, U a) (hx : xs.Pairwise fun a b => cmp a b ≤ 0) (ha : a ∈ xs) (hb : b ∈ ys)
    (hab : cmp a b ≤ 0) : [a, b].Sublist (mergeBy cmp xs ys) := by
  induction xs, ys using mergeBy_induction cmp with
  | left ys => exact absurd ha (by simp)
  | right a xs => exact absurd hb (by simp)
  | le x xs y ys h ih =>
    rw [mergeBy_cons_le h]
    obtain ⟨-, hx⟩ := pairwise_cons.mp hx
    rcases mem_cons.mp ha with rfl | ha
    · exact cons_sublist_cons.mpr (singleton_sublist.mpr (mem_mergeBy.mpr (.inr hb)))
    · exact (ih (fun c hc => hxs c (by simp [hc])) hys hx ha hb).cons x
  | not_le x xs y ys h ih =>
    rw [mergeBy_cons_not_le h]
    rcases mem_cons.mp hb with rfl | hb
    · -- The element taken is less than all of the first list.
      refine absurd ?_ h
      rcases mem_cons.mp ha with rfl | ha'
      · exact hab
      · exact hcmp.trans (hxs x (by simp)) (hxs a ha) (hys b (by simp))
          ((pairwise_cons.mp hx).1 a ha') hab
    · exact (ih hxs (fun c hc => hys c (by simp [hc])) hx ha hb).cons y

/-- `ys` are the elements of `xs` in order, and those that need not change places did not. -/
structure StableOf (cmp : β → β → Int) (xs ys : List β) : Prop where
  perm : ys.Perm xs
  sorted : ys.Pairwise fun a b => cmp a b ≤ 0
  stable : ∀ a b, [a, b].Sublist xs → cmp a b ≤ 0 → [a, b].Sublist ys

lemma StableOf.nil : StableOf cmp [] [] := ⟨.nil, .nil, fun _ _ h _ => h⟩

lemma StableOf.singleton : StableOf cmp [a] [a] :=
  ⟨.refl _, pairwise_singleton _ a, fun _ _ h _ => h⟩

lemma StableOf.merge (hcmp : PreorderOn U cmp) (hxs : ∀ a ∈ xs, U a) (hxs' : ∀ a ∈ xs', U a)
    (h : StableOf cmp xs ys) (h' : StableOf cmp xs' ys') :
    StableOf cmp (xs ++ xs') (mergeBy cmp ys ys') := by
  have hys : ∀ a ∈ ys, U a := fun a ha => hxs a (h.perm.mem_iff.mp ha)
  have hys' : ∀ a ∈ ys', U a := fun a ha => hxs' a (h'.perm.mem_iff.mp ha)
  refine ⟨mergeBy_perm.trans (h.perm.append h'.perm),
    mergeBy_sorted hcmp hys hys' h.sorted h'.sorted, fun a b hsub hab => ?_⟩
  obtain ⟨l₁, l₂, heq, hl₁, hl₂⟩ := sublist_append_iff.mp hsub
  match l₁, heq with
  | [], heq => exact (h'.stable a b (by simpa [heq] using hl₂) hab).trans sublist_mergeBy.2
  | [c], heq =>
    obtain ⟨rfl, rfl⟩ : a = c ∧ l₂ = [b] := by simpa [eq_comm] using heq
    exact pair_sublist_mergeBy hcmp hys hys' h.sorted
      (h.perm.mem_iff.mpr (singleton_sublist.mp hl₁))
      (h'.perm.mem_iff.mpr (singleton_sublist.mp hl₂)) hab
  | [c, d], heq =>
    obtain ⟨rfl, rfl, rfl⟩ : a = c ∧ b = d ∧ l₂ = [] := by simpa using heq
    exact (h.stable a b hl₁ hab).trans sublist_mergeBy.1
  | c :: d :: e :: l, heq => simp at heq

end Mini2440.Library
