import Mini2440.Rbtree.Erase

/-!
# Trees as sequences

`rb_next`, `rb_prev` and `rb_replace_node`. To the user of a tree without values the tree is a
sequence of nodes, and each function of `lib/rbtree.c` does one thing to it: it goes to a neighbour,
takes a node out, puts another one in its place, or fills a gap that the user has found by
descending from a node.

## Main definitions

* `Lists h seq`: the heap holds a red-black tree with this sequence.
* `Gap h pre post parent link`: a null pointer between the nodes `pre` and `post`.
-/

namespace Mini2440.Rbtree

open List Function Library

/-! ## The functions -/

namespace Heap

variable {ι α : Type} [DecidableEq ι]

/-- Down on the side `s` as far as possible. -/
def bottom (h : Heap ι α) (s : Side) : Nat → ι → Option ι
  | 0, _ => none
  | fuel + 1, node =>
    match h.child node s with
    | none => some node
    | some i => h.bottom s fuel i

/-- Up as long as the node is the child on the side `s`, and to the parent then. -/
def climb (h : Heap ι α) (s : Side) : Nat → ι → Option (Option ι)
  | 0, _ => none
  | fuel + 1, node =>
    match h.parent node with
    | none => some none
    | some parent =>
      if h.child parent s = some node then h.climb s fuel parent else some (some parent)

/-- The neighbour on the side `s`. A node that is its own parent is in no tree. -/
def neighbour [Fintype ι] (h : Heap ι α) (s : Side) (node : ι) : Option (Option ι) :=
  if h.parent node = some node then some none
  else
    match h.child node s with
    | some i => (h.bottom s.other (Fintype.card ι) i).map some
    | none => h.climb s (Fintype.card ι + 1) node

def rbNext [Fintype ι] (h : Heap ι α) (node : ι) : Option (Option ι) := h.neighbour .right node

def rbPrev [Fintype ι] (h : Heap ι α) (node : ι) : Option (Option ι) := h.neighbour .left node

def rbReplaceNode (h : Heap ι α) (victim new : ι) : Heap ι α :=
  let h := h.changeChild victim (some new) (h.parent victim)
  let h := h.setParentOf (h.child victim .left) new
  let h := h.setParentOf (h.child victim .right) new
  -- The pointers and the colour are copied.
  { h with
    child := update h.child new (h.child victim)
    pc := update h.pc new (h.pc victim) }

/-- The descent of a user who looks for a place in the tree: `side` says on which side of a node it
is. The result is the null pointer where the descent ends. -/
def seek (h : Heap ι α) (side : ι → Option Side) : Nat → ι → Option (ι × Side)
  | 0, _ => none
  | fuel + 1, node => do
    let s ← side node
    match h.child node s with
    | none => some (node, s)
    | some i => h.seek side fuel i

end Heap

open ColorTree Heap

/-! ## Neighbours -/

section Neighbours

variable {ι α : Type} [DecidableEq ι] {h : Heap ι α} {s : Side} {c : Color} {a b t : ColorTree ι}
  {i j : ι} {p : Option ι} {ctx : List (Frame ι)} {pre post : List ι}

omit [DecidableEq ι] in
lemma bottom_eq (fuel : Nat) (hfuel : t.inorder.length ≤ fuel) (ht : h.Stores p t)
    (hi : t.root = some i) : h.bottom s.other fuel i = (toward s t).head? := by
  induction fuel generalizing t p i with
  | zero =>
    have := length_pos_of_mem (root_mem hi)
    omega
  | succ fuel ih =>
    cases t with
    | nil => simp [ColorTree.root] at hi
    | node c l j r =>
      obtain rfl : j = i := Option.some.inj hi
      obtain ⟨a, b, hmake⟩ := node_eq_make s c l j r
      rw [hmake] at ht hfuel ⊢
      obtain ⟨-, -, hb, -, htb⟩ := stores_make.mp ht
      have hlen := inorder_make_perm.length_eq.symm.trans_le hfuel
      simp only [length_cons, length_append] at hlen
      rw [bottom, hb, toward_make]
      cases hr : b.root with
      | none =>
        rw [root_eq_none.mp hr]
        cases s <;> rfl
      | some k =>
        have hne : toward s b ≠ [] := ne_nil_of_mem (mem_toward.mpr (root_mem hr))
        rw [head?_append_of_ne_nil _ hne]
        exact ih (by omega) htb hr

/-- The climb ends at the first node beyond the hole. -/
lemma climb_eq (fuel : Nat) (hfuel : ctx.length < fuel) (hctx : h.Surrounds ctx (some i))
    (hp : h.parent i = above ctx) (hnd : (names ctx).Nodup) (hi : i ∉ names ctx) :
    h.climb s fuel i = some (beyond s ctx).head? := by
  induction ctx generalizing i fuel with
  | nil =>
    obtain _ | fuel := fuel
    · omega
    rw [climb, hp]
    rfl
  | cons f fs ih =>
    obtain _ | fuel := fuel
    · omega
    obtain ⟨hpc, hchild, hsib, -, hup⟩ := hctx
    simp only [names, nodup_cons, mem_append, not_or, nodup_append, mem_cons] at hnd hi
    rw [climb, hp, above, beyond]
    by_cases hs : f.side = s
    · simp only [← hs, hchild]
      rw [hs]
      refine ih fuel (by simpa using hfuel) hup ?_ hnd.2.2.1 hnd.1.2
      rw [Heap.parent, hpc]
    · have hother : f.side.other = s :=
        ((f.side.eq_or_eq_other s).resolve_left fun heq => hs heq.symm).symm
      have hne : h.child f.id s ≠ some i := by
        rw [← hother, hsib]
        exact fun heq => hi.2.1 (root_mem heq)
      simp [if_neg hne, if_neg hs]

lemma neighbour_eq [Fintype ι] (hp : Placed h ctx (make c s a i b)) :
    h.neighbour s i = some (toward s a ++ beyond s ctx).head? := by
  obtain ⟨hpc, hchild, -, hta, -⟩ := stores_make.mp hp.tree
  have hnd := (inorder_make_perm.append_left _).nodup_iff.mp hp.nodup
  obtain ⟨hctx, hin, hdisj⟩ := nodup_append.mp hnd
  have hi : i ∉ names ctx := fun hmem => hdisj i hmem i (by simp) rfl
  have hparent : h.parent i = above ctx := congrArg Prod.fst hpc
  have hself : h.parent i ≠ some i := by
    rw [hparent]
    exact fun heq => hi (above_mem heq)
  rw [neighbour, if_neg hself, hchild]
  cases hr : a.root with
  | none =>
    rw [root_eq_none.mp hr]
    have hup := hp.context
    rw [root_make] at hup
    have hroot : toward s (.nil : ColorTree ι) = [] := by cases s <;> rfl
    rw [hroot]
    exact climb_eq _ (Nat.lt_succ_of_le hp.length_le) hup hparent hctx hi
  | some k =>
    have hlen := (nodup_append.mp (nodup_cons.mp hin).2).1.length_le_card
    have hne : toward s a ≠ [] := ne_nil_of_mem (mem_toward.mpr (root_mem hr))
    obtain ⟨x, rest, hx⟩ := exists_cons_of_ne_nil hne
    simp [bottom_eq _ hlen hta hr, hx]

lemma Placed.neighbour [Fintype ι] (hp : Placed h [] t)
    (hseq : toward s t = pre ++ i :: post) : h.neighbour s i = some post.head? := by
  obtain ⟨ctx, c, a, b, rfl, rfl⟩ := exists_context_toward hp.nodup hseq
  exact neighbour_eq (placed_fill.mpr hp)

end Neighbours

/-! ## Replacing a node -/

section Replace

variable {ι α : Type} [DecidableEq ι] {h : Heap ι α} {s : Side} {c : Color} {a b t : ColorTree ι}
  {i j : ι} {ctx : List (Frame ι)}

lemma child_setParentOf (h : Heap ι α) (q : Option ι) :
    (h.setParentOf q j).child = h.child := by
  cases q <;> rfl

lemma root_setParentOf (h : Heap ι α) (q : Option ι) :
    (h.setParentOf q j).root = h.root := by
  cases q <;> rfl

lemma pc_setParentOf (h : Heap ι α) (q : Option ι) (j x : ι) :
    (h.setParentOf q j).pc x = if q = some x then (some j, (h.pc x).2) else h.pc x := by
  cases q with
  | none => rfl
  | some k =>
    by_cases hx : x = k
    · subst hx
      rw [if_pos rfl]
      exact update_self ..
    · rw [if_neg fun heq => hx (Option.some.inj heq).symm]
      exact update_of_ne hx _ _

lemma Placed.rbReplaceNode (hp : Placed h ctx (.node c a i b)) (hj : j ∉ names ctx)
    (hja : j ∉ a.inorder) (hjb : j ∉ b.inorder) :
    Placed (h.rbReplaceNode i j) ctx (.node c a j b) := by
  obtain ⟨hpc, hl, hr, -, -⟩ := hp.tree
  have hnd := hp.nodup
  have hup : h.Surrounds ctx (some i) := hp.context
  have hi : i ∉ names ctx := by grind [inorder]
  have hai : a.root ≠ some i := fun heq => by
    have := root_mem heq
    grind [inorder]
  have hbi : b.root ≠ some i := fun heq => by
    have := root_mem heq
    grind [inorder]
  have hne : ∀ x ∉ names ctx, some x ≠ above ctx := fun x hx heq => hx (above_mem heq.symm)
  have hstore : h.changeChild i (some j) (h.parent i) = h.store (hole ctx) (some j) := by
    rw [Heap.parent, hpc]
    exact hup.changeChild_eq hi
  refine (hp.replace (s := .left) hj hja hjb).congr ?_ fun x hx => ⟨?_, ?_⟩
  · simp [Heap.rbReplaceNode, root_setParentOf, hstore, root_replace]
  · simp only [Heap.rbReplaceNode, child_setParentOf, pc_setParentOf, hstore, pc_store,
      child_store_of_ne (hne i hi), Heap.replace, update_apply]
    grind
  · simp only [Heap.rbReplaceNode, child_setParentOf, hstore, child_store_of_ne (hne i hi)]
    by_cases hxj : x = j
    · subst hxj
      rw [update_self]
      exact ((child_store_of_ne (hne x hj)).trans (update_self ..)).symm
    · rw [update_of_ne hxj]
      exact child_store_congr (update_of_ne hxj _ _).symm _

end Replace

/-! ## The sequence of a tree -/

section Lists

variable {ι : Type} {h : Heap ι Unit} {i j n : ι} {pre post seq : List ι} {parent : Option ι}
  {link : Link ι} {t : ColorTree ι} {ctx : List (Frame ι)} {side : ι → Option Side}

def Lists (h : Heap ι Unit) (seq : List ι) : Prop := ∃ t, IsRedBlack h t ∧ t.inorder = seq

/-- The link is a null pointer of the tree, between the nodes `pre` and the nodes `post`. -/
def Gap (h : Heap ι Unit) (pre post : List ι) (parent : Option ι) (link : Link ι) : Prop :=
  ∃ ctx, IsRedBlack h (fill ctx .nil) ∧ link = hole ctx ∧ parent = above ctx ∧
    ∀ t : ColorTree ι, (fill ctx t).inorder = pre ++ t.inorder ++ post

lemma Lists.nodup (hl : Lists h seq) : seq.Nodup := by
  obtain ⟨t, ⟨hp, -⟩, rfl⟩ := hl
  exact hp.nodup

lemma lists_nil (hroot : h.root = none) : Lists h [] :=
  ⟨.nil, ⟨⟨trivial, hroot, nodup_nil⟩, 0, .nil⟩, rfl⟩

lemma Lists.context (hl : Lists h (pre ++ i :: post)) :
    ∃ ctx c l r before after, IsRedBlack h (fill ctx (.node c l i r)) ∧
      pre = before ++ l.inorder ∧ post = r.inorder ++ after ∧
      ∀ t : ColorTree ι, (fill ctx t).inorder = before ++ t.inorder ++ after := by
  have hnd := hl.nodup
  obtain ⟨t, hred, hseq⟩ := hl
  obtain ⟨ctx, c, l, r, rfl⟩ := exists_context (hseq ▸ by simp : i ∈ t.inorder)
  obtain ⟨before, after, hfill⟩ := inorder_fill ctx
  have hsplit : pre ++ i :: post = (before ++ l.inorder) ++ i :: (r.inorder ++ after) := by
    rw [← hseq, hfill, inorder]
    simp
  obtain ⟨hpre, -, hpost⟩ := (append_cons_inj_of_notMem (by grind) (by grind)).mp hsplit
  exact ⟨ctx, c, l, r, before, after, hred, hpre, hpost, hfill⟩

lemma Lists.gap_root (hl : Lists h []) : Gap h [] [] none .root := by
  obtain ⟨t, hred, hseq⟩ := hl
  cases t with
  | nil => exact ⟨[], hred, rfl, rfl, fun t => by simp [fill]⟩
  | node c l i r => simp [inorder] at hseq

lemma Lists.gap_last (hl : Lists h (pre ++ [i])) :
    Gap h (pre ++ [i]) [] (some i) (.child i .right) := by
  obtain ⟨ctx, c, l, r, before, after, hred, rfl, hpost, hfill⟩ := hl.context
  obtain ⟨hr, rfl⟩ := append_eq_nil_iff.mp hpost.symm
  cases r with
  | nil =>
    refine ⟨⟨.right, c, i, l⟩ :: ctx, hred, rfl, rfl, fun t => ?_⟩
    rw [inorder_fill_right hfill]
  | node => simp [inorder] at hr

lemma split_unique {pre' post' : List ι}
    (hpre : ∀ x ∈ pre, side x = some .right) (hpost : ∀ x ∈ post, side x = some .left)
    (hpre' : ∀ x ∈ pre', side x = some .right) (hpost' : ∀ x ∈ post', side x = some .left)
    (heq : pre' ++ post' = pre ++ post) : pre' = pre ∧ post' = post := by
  have hfilter : ∀ l₁ l₂ : List ι, (∀ x ∈ l₁, side x = some .right) →
      (∀ x ∈ l₂, side x = some .left) → (l₁ ++ l₂).filter (side · = some .right) = l₁ := by
    intro l₁ l₂ h₁ h₂
    rw [filter_append, filter_eq_self.mpr (by simpa using h₁),
      filter_eq_nil_iff.mpr (by simpa using fun x hx => by simp [h₂ x hx]), append_nil]
  have hleft : pre' = pre := by
    rw [← hfilter pre' post' hpre' hpost', heq, hfilter pre post hpre hpost]
  subst hleft
  exact ⟨rfl, append_cancel_left heq⟩

/-- The descent ends in the hole of a context with the nodes sorted out to both sides of it. -/
lemma seek_context (fuel : Nat) (hfuel : t.inorder.length ≤ fuel)
    (hp : Placed h ctx t) (hi : t.root = some i)
    (hfill : ∀ u : ColorTree ι, (fill ctx u).inorder = pre ++ u.inorder ++ post)
    (hpre : ∀ x ∈ pre, side x = some .right) (hpost : ∀ x ∈ post, side x = some .left)
    (hall : ∀ x ∈ t.inorder, side x = some .right ∨ side x = some .left)
    (hmono : t.inorder.Pairwise fun x y => side x = some .right ∨ side y = some .left) :
    ∃ p s ctx' pre' post', h.seek side fuel i = some (p, s) ∧ fill ctx' .nil = fill ctx t ∧
      hole ctx' = .child p s ∧ above ctx' = some p ∧
      (∀ u : ColorTree ι, (fill ctx' u).inorder = pre' ++ u.inorder ++ post') ∧
      (∀ x ∈ pre', side x = some .right) ∧ ∀ x ∈ post', side x = some .left := by
  induction fuel generalizing t ctx pre post i with
  | zero =>
    have := length_pos_of_mem (root_mem hi)
    omega
  | succ fuel ih =>
    cases t with
    | nil => simp [ColorTree.root] at hi
    | node c l j r =>
      obtain rfl : j = i := Option.some.inj hi
      obtain ⟨-, hl, hr, -, -⟩ := hp.tree
      simp only [inorder, length_append, length_cons] at hfuel
      rw [inorder, pairwise_append, pairwise_cons] at hmono
      obtain ⟨hml, ⟨hjr, hmr⟩, hlj⟩ := hmono
      rw [seek]
      rcases hall j (by simp [inorder]) with hside | hside
      · have hpre' : ∀ x ∈ pre ++ l.inorder ++ [j], side x = some .right := by
          intro x hx
          simp only [mem_append, mem_singleton] at hx
          rcases hx with (hx | hx) | rfl
          · exact hpre x hx
          · exact (hlj x hx j (by simp)).resolve_right (by simp [hside])
          · exact hside
        have hfill' := inorder_fill_right hfill c j l
        cases hroot : r.root with
        | none =>
          obtain rfl := root_eq_none.mp hroot
          refine ⟨j, .right, ⟨.right, c, j, l⟩ :: ctx, _, _, ?_, rfl, rfl, rfl, hfill', hpre',
            hpost⟩
          simp [hside, hr, hroot]
        | some k =>
          simp only [hside, Option.bind_eq_bind, Option.bind_some, hr, hroot]
          have hpr : Placed h (⟨.right, c, j, l⟩ :: ctx) r := placed_cons.mpr hp
          have hdown := ih (by omega) hpr hroot hfill' hpre' hpost
            (fun x hx => hall x (by simp [inorder, hx])) hmr
          exact hdown
      · have hpost' : ∀ x ∈ j :: (r.inorder ++ post), side x = some .left := by
          intro x hx
          simp only [mem_cons, mem_append] at hx
          rcases hx with rfl | hx | hx
          · exact hside
          · exact (hjr x hx).resolve_left (by simp [hside])
          · exact hpost x hx
        have hfill' := inorder_fill_left hfill c j r
        cases hroot : l.root with
        | none =>
          obtain rfl := root_eq_none.mp hroot
          refine ⟨j, .left, ⟨.left, c, j, r⟩ :: ctx, _, _, ?_, rfl, rfl, rfl, hfill', hpre, hpost'⟩
          simp [hside, hl, hroot]
        | some k =>
          simp only [hside, Option.bind_eq_bind, Option.bind_some, hl, hroot]
          have hpl : Placed h (⟨.left, c, j, r⟩ :: ctx) l := placed_cons.mpr hp
          have hdown := ih (by omega) hpl hroot hfill' hpre hpost'
            (fun x hx => hall x (by simp [inorder, hx])) hml
          exact hdown

variable [DecidableEq ι]

variable (hl : Lists h (pre ++ i :: post))

include hl

lemma Lists.replace (hj : j ∉ pre ++ i :: post) :
    Lists (h.rbReplaceNode i j) (pre ++ j :: post) := by
  obtain ⟨ctx, c, l, r, before, after, ⟨hp, m, hb⟩, rfl, rfl, hfill⟩ := hl.context
  have hout : j ∉ names ctx ++ (node c l i r).inorder := by
    rw [← (inorder_fill_perm ctx _).mem_iff, hfill, inorder]
    simpa using hj
  simp only [inorder, mem_append, mem_cons, not_or] at hout
  have hplaced := (placed_fill.mpr hp).rbReplaceNode hout.1 hout.2.1 hout.2.2.2
  -- The shape and the colours are those of the old tree.
  obtain ⟨c', k, hold, hacc⟩ := accepts_of_fill hb
  have hnew : Balanced c' k (node c l j r) := by
    cases hold with
    | red hl hr => exact .red hl hr
    | black hl hr => exact .black hl hr
  obtain ⟨m', hm'⟩ := hacc.fill hnew
  refine ⟨_, ⟨placed_fill.mp hplaced, m', hm'⟩, ?_⟩
  rw [hfill, inorder]
  simp

variable [Fintype ι]

lemma Lists.next : h.rbNext i = some post.head? := by
  obtain ⟨t, ⟨hp, -⟩, hseq⟩ := hl
  exact hp.neighbour (s := .right) hseq

lemma Lists.prev : h.rbPrev i = some pre.getLast? := by
  obtain ⟨t, ⟨hp, -⟩, hseq⟩ := hl
  have hrev : toward .left t = post.reverse ++ i :: pre.reverse := by
    simp [toward, hseq]
  rw [rbPrev, hp.neighbour hrev, head?_reverse]

lemma Lists.erase : ∃ h', h.rbErase i = some h' ∧ Lists h' (pre ++ post) := by
  have hnd := hl.nodup
  obtain ⟨t, ⟨hp, m, hb⟩, hseq⟩ := hl
  obtain ⟨h', hrun, t', m', hs, hb', hseq'⟩ := rbErase_fixed hp hb (hseq ▸ by simp : i ∈ t.inorder)
  refine ⟨h', hrun, t', ⟨hs.placed, m', hb'⟩, ?_⟩
  rw [hseq', hseq, filter_middle hnd]

omit hl in
lemma Gap.insert (hgap : Gap h pre post parent link) (hpre : n ∉ pre) (hpost : n ∉ post) :
    ∃ h', (h.rbLinkNode n parent link).rbInsertColor n = some h' ∧ Lists h' (pre ++ n :: post) := by
  obtain ⟨ctx, hred, rfl, rfl, hfill⟩ := hgap
  have hnew : n ∉ (fill ctx .nil).inorder := by
    rw [hfill]
    simp [inorder, hpre, hpost]
  obtain ⟨-, h', t', hrun, hred', hseq⟩ := hred.insertColor hnew
  refine ⟨h', hrun, t', hred', ?_⟩
  rw [hseq, hfill]
  simp [inorder]

omit [DecidableEq ι] in
lemma Lists.seek (hpre : ∀ x ∈ pre, side x = some .right) (hi : side i = some .right)
    (hpost : ∀ x ∈ post, side x = some .left) :
    ∃ p s, h.seek side (Fintype.card ι) i = some (p, s) ∧
      Gap h (pre ++ [i]) post (some p) (.child p s) := by
  obtain ⟨ctx, c, l, r, before, after, ⟨hp, hb⟩, rfl, rfl, hfill⟩ := hl.context
  have hl : ∀ x ∈ l.inorder, side x = some .right := fun x hx =>
    hpre x (mem_append_right _ hx)
  have hr : ∀ x ∈ r.inorder, side x = some .left := fun x hx =>
    hpost x (mem_append_left _ hx)
  have hall : ∀ x ∈ (node c l i r).inorder, side x = some .right ∨ side x = some .left := by
    intro x hx
    rw [inorder, mem_append, mem_cons] at hx
    rcases hx with hx | rfl | hx
    · exact .inl (hl x hx)
    · exact .inl hi
    · exact .inr (hr x hx)
  have hmono : (node c l i r).inorder.Pairwise fun x y =>
      side x = some .right ∨ side y = some .left := by
    rw [inorder, pairwise_append, pairwise_cons]
    exact ⟨pairwise_of_forall_mem_list fun x hx _ _ => .inl (hl x hx),
      ⟨fun _ _ => .inl hi, pairwise_of_forall_mem_list fun _ _ y hy => .inr (hr y hy)⟩,
      fun x hx _ _ => .inl (hl x hx)⟩
  have hlen := (nodup_append.mp (placed_fill.mpr hp).nodup).2.1.length_le_card
  obtain ⟨p, s, ctx', pre', post', hseek, hsame, hhole, habove, hfill', hpre', hpost'⟩ :=
    seek_context _ hlen (placed_fill.mpr hp) rfl hfill (fun x hx => hpre x (mem_append_left _ hx))
      (fun x hx => hpost x (mem_append_right _ hx)) hall hmono
  refine ⟨p, s, hseek, ctx', ?_, hhole.symm, habove.symm, ?_⟩
  · rw [hsame]
    exact ⟨hp, hb⟩
  · have hwhole : pre' ++ post' = (before ++ l.inorder ++ [i]) ++ (r.inorder ++ after) := by
      have hseq := hfill' .nil
      rw [hsame, hfill] at hseq
      simpa [inorder] using hseq.symm
    obtain ⟨rfl, rfl⟩ := split_unique (by grind) hpost hpre' hpost' hwhole
    exact hfill'

end Lists

end Mini2440.Rbtree
