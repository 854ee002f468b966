import Mini2440.IntervalTree.Generic

/-!
# What a query finds

The value of a subtree says whether one of its nodes reaches the start of the query. So a search
returns the first match of a subtree in the order of the start points: behind a node that reaches
the query and starts too late, no node can match.

## Main results

* `iterFirst_eq`, `iterNext_eq`: the first match of the tree, and the next one behind a node.
* `query_eq`: all matches, in the order of the tree.
-/

namespace Mini2440.IntervalTree

open List Library ColorTree Rbtree Heap

variable {ι α : Type} [LinearOrder α] {x : α}

/-! ## Values of subtrees -/

section Values

variable {lastOf aug : ι → α} {t : ColorTree ι}

lemma le_raise {m : α} {v : Option α} : x ≤ raise m v ↔ x ≤ m ∨ ∃ w ∈ v, x ≤ w := by
  cases v with
  | none => simp [raise]
  | some w =>
    rw [raise]
    split
    · rename_i hlt
      exact ⟨fun hx => .inr ⟨w, rfl, hx⟩, fun hx => hx.elim (fun h => h.trans hlt.le)
        fun ⟨_, hw, h⟩ => Option.some.inj hw ▸ h⟩
    · rename_i hle
      exact ⟨.inl, fun hx => hx.elim id fun ⟨_, hw, h⟩ =>
        (Option.some.inj hw ▸ h).trans (not_lt.mp hle)⟩

/-- The value is the greatest last point of the subtree. -/
lemma exists_le_value :
    (∃ w ∈ t.value (computeSubtreeLast lastOf), x ≤ w) ↔ ∃ i ∈ t.inorder, x ≤ lastOf i := by
  induction t with
  | nil => simp [value, inorder]
  | node c l i r ihl ihr =>
    have hnode : (∃ w ∈ (node c l i r).value (computeSubtreeLast lastOf), x ≤ w) ↔
        x ≤ lastOf i ∨ (∃ j ∈ l.inorder, x ≤ lastOf j) ∨ ∃ j ∈ r.inorder, x ≤ lastOf j := by
      simp only [value, Option.mem_some_iff, exists_eq_left', computeSubtreeLast, le_raise, ihl,
        ihr, or_assoc]
    rw [hnode]
    simp only [inorder, mem_append, mem_cons, or_and_right, exists_or, exists_eq_left]
    exact or_left_comm

lemma ofSequence_last : OfSequence (computeSubtreeLast lastOf) := by
  intro t t' hseq
  have hle : ∀ x, (∃ w ∈ t.value (computeSubtreeLast lastOf), x ≤ w) ↔
      ∃ w ∈ t'.value (computeSubtreeLast lastOf), x ≤ w := fun x => by
    rw [exists_le_value, exists_le_value, hseq]
  cases t with
  | nil =>
    cases t' with
    | nil => rfl
    | node => simp [inorder] at hseq
  | node =>
    cases t' with
    | nil => simp [inorder] at hseq
    | node =>
      simp only [value, Option.mem_some_iff, exists_eq_left'] at hle ⊢
      exact congrArg some (eq_of_forall_le_iff hle)

lemma exists_le_peek (hv : Valued (computeSubtreeLast lastOf) aug t) :
    (∃ i, t.root = some i ∧ x ≤ aug i) ↔ ∃ i ∈ t.inorder, x ≤ lastOf i := by
  rw [← exists_le_value, ← hv.peek_eq, peek]
  simp

end Values

namespace Tree

variable {T : Tree ι α} {start last : α} {t : ColorTree ι} {i : ι} {p : Option ι} {c : Color}
  {l r : ColorTree ι} {ctx : List (Frame ι)} {pre post : List ι}

/-- The interval of the node has a point in common with the query: the conditions `Cond1` and
`Cond2` of the source. -/
def Meets (T : Tree ι α) (start last : α) (i : ι) : Prop := T.start i ≤ last ∧ start ≤ T.last i

instance (T : Tree ι α) (start last : α) : DecidablePred (T.Meets start last) := fun _ =>
  inferInstanceAs (Decidable (_ ∧ _))

def Ordered (T : Tree ι α) (seq : List ι) : Prop := seq.Pairwise fun i j => T.start i ≤ T.start j

/-! ## Matches in a sequence -/

lemma find?_eq_none_of_lt (h : ∀ i ∈ post, T.last i < start) :
    post.find? (T.Meets start last) = none := by
  rw [find?_eq_none]
  intro i hi hmeets
  exact not_lt.mpr (of_decide_eq_true hmeets).2 (h i hi)

lemma find?_eq_none_of_late (h : ∀ i ∈ post, last < T.start i) :
    post.find? (T.Meets start last) = none := by
  rw [find?_eq_none]
  intro i hi hmeets
  exact not_lt.mpr (of_decide_eq_true hmeets).1 (h i hi)

lemma find?_cons_of_meets (hstart : T.start i ≤ last) (hlast : start ≤ T.last i) :
    (i :: post).find? (T.Meets start last) = some i := by
  have hmeets : T.Meets start last i := ⟨hstart, hlast⟩
  exact find?_cons_of_pos (by simpa using hmeets)

lemma find?_cons_of_lt (hlast : ¬ start ≤ T.last i) :
    (i :: post).find? (T.Meets start last) = post.find? (T.Meets start last) := by
  have hmeets : ¬ T.Meets start last i := fun h => hlast h.2
  exact find?_cons_of_neg (by simpa using hmeets)

/-- Behind a node that starts too late there is no match. -/
lemma find?_cons_of_late (hord : T.Ordered (i :: post)) (hlate : last < T.start i) :
    (i :: post).find? (T.Meets start last) = none := by
  refine find?_eq_none_of_late fun j hj => ?_
  rcases mem_cons.mp hj with rfl | hj
  · exact hlate
  · exact hlate.trans_le ((pairwise_cons.mp hord).1 j hj)

lemma find?_append_of_reaches (hord : T.Ordered (pre ++ post)) (hi : i ∈ pre)
    (hreach : start ≤ T.last i) :
    (pre ++ post).find? (T.Meets start last) = pre.find? (T.Meets start last) := by
  rw [find?_append]
  cases hpre : pre.find? (T.Meets start last) with
  | some j => rfl
  | none =>
    have hmeets : ¬ T.Meets start last i := by
      simpa using find?_eq_none.mp hpre i hi
    have hlate : last < T.start i := not_le.mp fun hle => hmeets ⟨hle, hreach⟩
    refine find?_eq_none_of_late fun j hj => hlate.trans_le ?_
    exact (pairwise_append.mp hord).2.2 i hi j hj

/-- The subtree below a child that is not searched has no match. -/
lemma reaching_eq_none (hv : Valued (computeSubtreeLast T.last) T.heap.aug t)
    (hnone : T.reaching start t.root = none) : ∀ i ∈ t.inorder, T.last i < start := by
  intro i hi
  by_contra hle
  obtain ⟨j, hroot, hj⟩ := (exists_le_peek hv).mpr ⟨i, hi, not_lt.mp hle⟩
  rw [reaching, hroot] at hnone
  simp [not_lt.mpr hj] at hnone

lemma reaching_eq_some (hv : Valued (computeSubtreeLast T.last) T.heap.aug t)
    (hsome : T.reaching start t.root = some i) :
    t.root = some i ∧ ∃ j ∈ t.inorder, start ≤ T.last j := by
  obtain ⟨hroot, hle⟩ := Option.filter_eq_some_iff.mp hsome
  exact ⟨hroot, (exists_le_peek hv).mp ⟨i, hroot, of_decide_eq_true hle⟩⟩

/-! ## The search in a subtree -/

lemma subtreeSearch_eq (fuel : Nat) (hfuel : t.inorder.length ≤ fuel)
    (ht : T.heap.Stores p t) (hv : Valued (computeSubtreeLast T.last) T.heap.aug t)
    (hord : T.Ordered t.inorder) (hi : t.root = some i) :
    T.subtreeSearch start last fuel i = some (t.inorder.find? (T.Meets start last)) := by
  induction fuel generalizing t p i with
  | zero =>
    have := length_pos_of_mem (root_mem hi)
    omega
  | succ fuel ih =>
    cases t with
    | nil => simp [ColorTree.root] at hi
    | node c l j r =>
      obtain rfl : j = i := Option.some.inj hi
      obtain ⟨-, hl, hr, htl, htr⟩ := ht
      obtain ⟨-, hvl, hvr⟩ := hv
      rw [inorder] at hord hfuel ⊢
      obtain ⟨hordl, hordj, -⟩ := pairwise_append.mp hord
      rw [length_append, length_cons] at hfuel
      rw [subtreeSearch, hl, hr]
      cases hleft : T.reaching start l.root with
      | some k =>
        obtain ⟨hroot, x, hx, hreach⟩ := reaching_eq_some hvl hleft
        rw [find?_append_of_reaches hord hx hreach]
        exact ih (by omega) htl hvl hordl hroot
      | none =>
        have hnone : l.inorder.find? (T.Meets start last) = none :=
          find?_eq_none_of_lt (reaching_eq_none hvl hleft)
        rw [find?_append, hnone, Option.none_or]
        by_cases hstart : T.start j ≤ last
        · rw [if_pos hstart]
          by_cases hlast : start ≤ T.last j
          · rw [if_pos hlast, find?_cons_of_meets hstart hlast]
          · rw [if_neg hlast, find?_cons_of_lt hlast]
            cases hright : T.reaching start r.root with
            | some k =>
              obtain ⟨hroot, -⟩ := reaching_eq_some hvr hright
              exact ih (by omega) htr hvr (pairwise_cons.mp hordj).2 hroot
            | none => rw [find?_eq_none_of_lt (reaching_eq_none hvr hright)]
        · rw [if_neg hstart, find?_cons_of_late hordj (not_le.mp hstart)]

variable [Fintype ι]

lemma iterFirst_eq (hs : Sound (computeSubtreeLast T.last) T.heap [] t)
    (hord : T.Ordered t.inorder) :
    T.iterFirst start last = some (t.inorder.find? (T.Meets start last)) := by
  have hroot : T.heap.root = t.root := hs.placed.context
  have hlen : t.inorder.length ≤ Fintype.card ι := hs.placed.nodup.length_le_card
  rw [iterFirst, hroot]
  cases hi : t.root with
  | none =>
    rw [root_eq_none.mp hi]
    rfl
  | some i =>
    simp only
    split
    · rename_i hlt
      have hnone : T.reaching start t.root = none := by simp [reaching, hi, hlt]
      rw [find?_eq_none_of_lt (reaching_eq_none hs.correct.tree hnone)]
    · exact subtreeSearch_eq _ hlen hs.placed.tree hs.correct.tree hord hi

/-! ## The next match -/

variable [DecidableEq ι]

/-- The loop finds the first match in the right subtree and behind the subtree of the node. -/
lemma nextLoop_eq (fuel : Nat) (hfuel : ctx.length < fuel)
    (hs : Sound (computeSubtreeLast T.last) T.heap ctx (.node c l i r))
    (hord : T.Ordered (r.inorder ++ beyond .right ctx)) :
    T.nextLoop start last fuel i r.root =
      some ((r.inorder ++ beyond .right ctx).find? (T.Meets start last)) := by
  induction fuel generalizing ctx c l i r with
  | zero => omega
  | succ fuel ih =>
    obtain ⟨hpc, -, -, -, htr⟩ := hs.placed.tree
    obtain ⟨-, -, hvr⟩ := hs.correct.tree
    have hnd := hs.placed.nodup
    obtain ⟨hordr, hordb, -⟩ := pairwise_append.mp hord
    rw [nextLoop]
    cases hright : T.reaching start r.root with
    | some k =>
      obtain ⟨hroot, x, hx, hreach⟩ := reaching_eq_some hvr hright
      rw [find?_append_of_reaches hord hx hreach]
      refine subtreeSearch_eq _ ?_ htr hvr hordr hroot
      have hrnd : r.inorder.Nodup := by
        rw [inorder] at hnd
        grind
      exact hrnd.length_le_card
    | none =>
      have hnone : r.inorder.find? (T.Meets start last) = none :=
        find?_eq_none_of_lt (reaching_eq_none hvr hright)
      have hout : i ∉ names ctx := by
        rw [inorder] at hnd
        grind
      have hclimb := climb_eq (s := .right) (Fintype.card ι + 1)
        (Nat.lt_succ_of_le hs.placed.length_le) hs.placed.context (congrArg Prod.fst hpc)
        (nodup_append.mp hnd).1 hout
      rw [find?_append, hnone, Option.none_or]
      simp only [hclimb, Option.bind_eq_bind, Option.bind_some]
      obtain hnil | ⟨gs, c', j, b, fs, rfl, hbeyond⟩ := beyond_cases .right ctx
      · simp [hnil]
      · -- The climb ends at `j`, with all of the context below it on its left.
        rw [hbeyond] at hordb ⊢
        have hup := sound_cons.mp (sound_append.mp hs)
        have hchild : T.heap.child j .right = b.root := hup.placed.tree.2.2.1
        simp only [head?_cons]
        by_cases hlate : last < T.start j
        · rw [if_pos hlate, find?_cons_of_late hordb hlate]
        · rw [if_neg hlate]
          by_cases hlast : start ≤ T.last j
          · rw [if_pos hlast, find?_cons_of_meets (not_lt.mp hlate) hlast]
          · rw [if_neg hlast, find?_cons_of_lt hlast, hchild]
            refine ih ?_ hup (pairwise_cons.mp hordb).2
            rw [length_append, length_cons] at hfuel
            omega

section

variable (hs : Sound (computeSubtreeLast T.last) T.heap [] t)

include hs

lemma iterNext_eq (hord : T.Ordered t.inorder) (hseq : t.inorder = pre ++ i :: post) :
    T.iterNext start last i = some (post.find? (T.Meets start last)) := by
  have hord' := hseq ▸ hord
  obtain ⟨ctx, c, a, b, rfl, rfl⟩ := exists_context_toward (s := .right) hs.placed.nodup hseq
  have hs' := sound_fill.mpr hs
  have hchild : T.heap.child i .right = a.root := hs'.placed.tree.2.2.1
  rw [iterNext, hchild]
  refine nextLoop_eq _ (Nat.lt_succ_of_le hs'.placed.length_le) hs' ?_
  exact (pairwise_cons.mp (pairwise_append.mp hord').2.1).2

/-! ## All matches -/

lemma collect_eq (hord : T.Ordered t.inorder) (fuel : Nat) (hfuel : post.length < fuel)
    (hseq : t.inorder = pre ++ post) :
    T.collect start last fuel (post.find? (T.Meets start last)) =
      some (post.filter (T.Meets start last)) := by
  induction fuel generalizing pre post with
  | zero => omega
  | succ fuel ih =>
    cases hfind : post.find? (T.Meets start last) with
    | none =>
      have hnone := filter_eq_nil_iff.mpr (find?_eq_none.mp hfind)
      rw [hnone, collect]
    | some i =>
      obtain ⟨hmeets, before, after, rfl, hbefore⟩ := find?_eq_some_iff_append.mp hfind
      have hskip : before.filter (T.Meets start last) = [] :=
        filter_eq_nil_iff.mpr fun x hx => by simpa using hbefore x hx
      have hseq' : t.inorder = (pre ++ before) ++ i :: after := by
        rw [hseq, append_assoc]
      rw [length_append, length_cons] at hfuel
      have hrest := @ih (pre ++ before ++ [i]) after (by omega) (by simp [hseq'])
      rw [collect, iterNext_eq hs hord hseq', filter_append, hskip]
      simp [hrest, of_decide_eq_true hmeets]

lemma query_eq (hord : T.Ordered t.inorder) :
    T.query start last = some (t.inorder.filter (T.Meets start last)) := by
  rw [query, iterFirst_eq hs hord, Option.bind_eq_bind]
  exact collect_eq hs hord _ (Nat.lt_succ_of_le hs.placed.nodup.length_le_card) (nil_append _).symm

end

end Tree

end Mini2440.IntervalTree
