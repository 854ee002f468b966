import Mathlib.Algebra.GroupWithZero.Nat
import Mathlib.Data.Finset.Card
import Mathlib.Data.Set.Lattice
import Mathlib.Order.CompletePartialOrder

/-!
# Ownership of marked cells

Cells are marked while somebody owns them. An owner is an agent, which claims cells and drops them
again, or a token, which stands for cells that an agent has deposited for somebody to withdraw.
No cell has two owners, and the four operations keep it so. An agent needs to look only at the marks
to claim a cell: a cell without a mark has no owner.
-/

namespace Mini2440.Library

variable {ι κ : Type*}

/-- The cells of the agents and of the tokens are disjoint, and all of them are marked. -/
structure Owned (claim : ι → Set κ) (tokens : List (Set κ)) (marked : Set κ) : Prop where
  claim_marked : ∀ i, claim i ⊆ marked
  token_marked : ∀ t ∈ tokens, t ⊆ marked
  claim_claim : ∀ i j, i ≠ j → Disjoint (claim i) (claim j)
  claim_token : ∀ i, ∀ t ∈ tokens, Disjoint (claim i) t
  token_token : tokens.Pairwise Disjoint

namespace Owned

variable [DecidableEq ι] {claim : ι → Set κ} {tokens rest : List (Set κ)} {marked x t : Set κ}

omit [DecidableEq ι] in
lemma empty : Owned (fun _ : ι => (∅ : Set κ)) [] marked where
  claim_marked _ := Set.empty_subset _
  token_marked _ h := absurd h List.not_mem_nil
  claim_claim _ _ _ := Set.disjoint_empty _
  claim_token _ _ h := absurd h List.not_mem_nil
  token_token := .nil

section

variable (h : Owned claim tokens marked)

include h

/-- One agent gets other cells, and the tokens and the marks change with it. -/
lemma update {i : ι} {tokens' : List (Set κ)} {marked' : Set κ} (hx : x ⊆ marked')
    (hothers : ∀ j, j ≠ i → claim j ⊆ marked' ∧ Disjoint x (claim j) ∧
      ∀ t ∈ tokens', Disjoint (claim j) t)
    (htokens : ∀ t ∈ tokens', t ⊆ marked' ∧ Disjoint x t) (hpair : tokens'.Pairwise Disjoint) :
    Owned (Function.update claim i x) tokens' marked' where
  claim_marked j := by
    by_cases hj : j = i
    · simpa [hj] using hx
    · simpa [hj] using (hothers j hj).1
  token_marked t ht := (htokens t ht).1
  claim_claim j l hne := by
    by_cases hj : j = i
    · subst hj
      simpa [hne.symm] using (hothers l hne.symm).2.1
    · by_cases hl : l = i
      · subst hl
        simpa [hj] using (hothers j hj).2.1.symm
      · simpa [hj, hl] using h.claim_claim j l hne
  claim_token j t ht := by
    by_cases hj : j = i
    · simpa [hj] using (htokens t ht).2
    · simpa [hj] using (hothers j hj).2.2 t ht
  token_token := hpair

lemma extend (i : ι) (hx : Disjoint x marked) :
    Owned (Function.update claim i (claim i ∪ x)) tokens (marked ∪ x) := by
  refine h.update (Set.union_subset_union_left x (h.claim_marked i)) (fun j hj => ?_)
    (fun t ht => ?_) h.token_token
  · exact ⟨(h.claim_marked j).trans Set.subset_union_left, Set.disjoint_union_left.mpr
      ⟨h.claim_claim i j hj.symm, hx.mono_right (h.claim_marked j)⟩, h.claim_token j⟩
  · exact ⟨(h.token_marked t ht).trans Set.subset_union_left, Set.disjoint_union_left.mpr
      ⟨h.claim_token i t ht, hx.mono_right (h.token_marked t ht)⟩⟩

lemma drop (i : ι) (hx : x ⊆ claim i) :
    Owned (Function.update claim i (claim i \ x)) tokens (marked \ x) := by
  refine h.update (Set.sdiff_subset_sdiff_left (h.claim_marked i)) (fun j hj => ?_)
    (fun t ht => ?_) h.token_token
  · have hout := h.claim_claim j i hj
    exact ⟨Set.subset_sdiff.mpr ⟨h.claim_marked j, hout.mono_right hx⟩,
      hout.symm.mono_left Set.sdiff_subset, h.claim_token j⟩
  · have hout := h.claim_token i t ht
    exact ⟨Set.subset_sdiff.mpr ⟨h.token_marked t ht, (hout.mono_left hx).symm⟩,
      hout.mono_left Set.sdiff_subset⟩

lemma deposit (i : ι) : Owned (Function.update claim i ∅) (claim i :: tokens) marked := by
  refine h.update (Set.empty_subset _) (fun j hj => ?_) (fun t ht => ⟨?_, Set.empty_disjoint t⟩)
    (List.pairwise_cons.mpr ⟨h.claim_token i, h.token_token⟩)
  · exact ⟨h.claim_marked j, Set.empty_disjoint _,
      List.forall_mem_cons.mpr ⟨h.claim_claim j i hj, h.claim_token j⟩⟩
  · rcases List.mem_cons.mp ht with rfl | ht
    · exact h.claim_marked i
    · exact h.token_marked t ht

lemma withdraw {i : ι} (hperm : tokens.Perm (t :: rest)) :
    Owned (Function.update claim i t) rest marked := by
  have hmem (r : Set κ) (hr : r ∈ rest) : r ∈ tokens :=
    hperm.mem_iff.mpr (List.mem_cons_of_mem t hr)
  have ht : t ∈ tokens := hperm.mem_iff.mpr List.mem_cons_self
  have hpair := List.pairwise_cons.mp (hperm.pairwise h.token_token fun h => h.symm)
  refine h.update (h.token_marked t ht) (fun j hj => ?_) (fun r hr => ?_) hpair.2
  · exact ⟨h.claim_marked j, (h.claim_token j t ht).symm, fun r hr => h.claim_token j r (hmem r hr)⟩
  · exact ⟨h.token_marked r (hmem r hr), hpair.1 r hr⟩

end

end Owned

lemma sum_card_le {α : Type*} [DecidableEq α] {l : List (Finset α)} {u : Finset α}
    (hsub : ∀ t ∈ l, t ⊆ u) (hpair : l.Pairwise Disjoint) : (l.map Finset.card).sum ≤ u.card := by
  induction l generalizing u with
  | nil => exact Nat.zero_le _
  | cons t l ih =>
    rw [List.forall_mem_cons] at hsub
    rw [List.pairwise_cons] at hpair
    have hrest :=
      ih (fun r hr => Finset.subset_sdiff.mpr ⟨hsub.2 r hr, (hpair.1 r hr).symm⟩) hpair.2
    have hcard := Finset.card_sdiff_add_card_eq_card hsub.1
    rw [List.map_cons, List.sum_cons]
    omega

end Mini2440.Library
