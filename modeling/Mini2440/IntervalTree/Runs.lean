import Mini2440.IntervalTree.Query

/-!
# Runs of an interval tree

To its user an interval tree is a sequence of intervals in the order of their start points, where
equal ones stand in the order of their insertion. An insertion raises the values on its way down, so
that they are right when the node is linked in; the callbacks keep them right in the rotations. So
every run of insertions and removals gives a tree whose queries find what the sequence says.

## Main definitions

* `Contents`: the sequence, with the insertion and the removal of a node.
* `Represents T C`: the tree holds the contents.
-/

namespace Mini2440.IntervalTree

open List Function Library ColorTree Rbtree Heap

variable {ι α : Type} [LinearOrder α]

/-! ## The way down -/

section Descend

variable [DecidableEq ι] {startOf lastOf aug : ι → α} {start last : α} {h : Heap ι α}
  {t a b : ColorTree ι} {ctx : List (Frame ι)} {pre post : List ι} {j : ι} {s : Side} {c : Color}

omit [DecidableEq ι] in
lemma computeAt_raise (v w : Option α) : raise (computeAt (computeSubtreeLast lastOf) j s v w)
    (some last) = computeAt (computeSubtreeLast lastOf) j s (some (raise last v)) w := by
  refine eq_of_forall_le_iff fun x => ?_
  cases s
  · simp only [computeAt, computeSubtreeLast, le_raise, Option.mem_some_iff, exists_eq_left',
      or_assoc, or_comm, or_left_comm]
  · simp only [computeAt, computeSubtreeLast, le_raise, Option.mem_some_iff, exists_eq_left',
      or_assoc, or_comm, or_left_comm]

lemma raised_eq : (if h.aug j < last then h.setAug j last else h) =
    { h with aug := update h.aug j (raise (h.aug j) (some last)) } := by
  rw [raise]
  split
  · rfl
  · rw [update_eq_self]

/-- One step down. The values above the hole are right for a subtree that has the new node. -/
lemma ValuedAbove.descend (hp : Placed h ctx (make c s a j b))
    (hv : Valued (computeSubtreeLast lastOf) h.aug (make c s a j b))
    (hup : ValuedAbove (computeSubtreeLast lastOf) h.aug ctx
      (some (raise last (peek h.aug (make c s a j b)))))
    (haug : aug = update h.aug j (raise (h.aug j) (some last))) :
    Valued (computeSubtreeLast lastOf) aug a ∧ ValuedAbove (computeSubtreeLast lastOf) aug
      (⟨s, c, j, b⟩ :: ctx) (some (raise last (peek aug a))) := by
  obtain ⟨hj, ha, hb⟩ := valued_make.mp hv
  have hnd := (inorder_make_perm.append_left _).nodup_iff.mp hp.nodup
  have hne : ∀ x ≠ j, aug x = h.aug x := fun x hx => haug ▸ update_of_ne hx _ _
  have hma : ∀ x ∈ a.inorder, aug x = h.aug x := fun x hx => hne x (by grind)
  have hmb : ∀ x ∈ b.inorder, aug x = h.aug x := fun x hx => hne x (by grind)
  have hat : aug j = raise (h.aug j) (some last) := haug ▸ update_self ..
  refine ⟨ha.congr hma, ?_, hb.congr hmb, ?_⟩
  · rw [hat, hj, computeAt_raise, peek_congr hma, peek_congr hmb]
  · have hcomm : aug j = raise last (some (h.aug j)) := by
      rw [hat]
      refine eq_of_forall_le_iff fun x => ?_
      simp only [le_raise, Option.mem_some_iff, exists_eq_left']
      exact or_comm
    rw [peek_make] at hup
    rw [hcomm]
    exact hup.congr fun x hx => hne x (by grind)

/-- The loop ends in the hole between the nodes that do not start behind the new one and the
others. -/
lemma descend_spec (start last : α) (fuel : Nat) (hfuel : t.inorder.length < fuel)
    (hp : Placed h ctx t) (hv : Valued (computeSubtreeLast lastOf) h.aug t)
    (hup : ValuedAbove (computeSubtreeLast lastOf) h.aug ctx (some (raise last (peek h.aug t))))
    (hfill : ∀ u : ColorTree ι, (fill ctx u).inorder = pre ++ u.inorder ++ post)
    (hpre : ∀ x ∈ pre, startOf x ≤ start) (hpost : ∀ x ∈ post, start < startOf x)
    (hord : t.inorder.Pairwise fun i j => startOf i ≤ startOf j) :
    ∃ aug ctx' pre' post',
      Tree.descend startOf start last fuel h (above ctx) (hole ctx) =
        some ({ h with aug := aug }, above ctx', hole ctx') ∧
      fill ctx' .nil = fill ctx t ∧
      ValuedAbove (computeSubtreeLast lastOf) aug ctx' (some last) ∧
      (∀ u : ColorTree ι, (fill ctx' u).inorder = pre' ++ u.inorder ++ post') ∧
      (∀ x ∈ pre', startOf x ≤ start) ∧ ∀ x ∈ post', start < startOf x := by
  induction fuel generalizing h t ctx pre post with
  | zero => omega
  | succ fuel ih =>
    rw [Tree.descend, hp.context.load]
    cases t with
    | nil => exact ⟨h.aug, ctx, pre, post, rfl, rfl, hup, hfill, hpre, hpost⟩
    | node c l j r =>
      simp only [ColorTree.root, raised_eq]
      generalize haug : update h.aug j (raise (h.aug j) (some last)) = aug
      rw [inorder, length_append, length_cons] at hfuel
      rw [inorder, pairwise_append, pairwise_cons] at hord
      obtain ⟨hordl, ⟨hjr, hordr⟩, hlj⟩ := hord
      have hp' := hp.withAug aug
      by_cases hstart : start < startOf j
      · obtain ⟨hvl, hup'⟩ := ValuedAbove.descend (s := .left) hp hv hup haug.symm
        rw [if_pos hstart]
        have hpl : Placed { h with aug := aug } (⟨.left, c, j, r⟩ :: ctx) l := placed_cons.mpr hp'
        refine ih (by omega) hpl hvl hup' (inorder_fill_left hfill c j r) hpre ?_ hordl
        intro x hx
        rcases mem_cons.mp hx with rfl | hx
        · exact hstart
        · rcases mem_append.mp hx with hx | hx
          · exact hstart.trans_le (hjr x hx)
          · exact hpost x hx
      · obtain ⟨hvr, hup'⟩ := ValuedAbove.descend (s := .right) (a := r) (b := l) hp hv hup
          haug.symm
        rw [if_neg hstart]
        have hpr : Placed { h with aug := aug } (⟨.right, c, j, l⟩ :: ctx) r := placed_cons.mpr hp'
        refine ih (by omega) hpr hvr hup' (inorder_fill_right hfill c j l) ?_ hpost hordr
        intro x hx
        rcases mem_append.mp hx with hx | hx
        · rcases mem_append.mp hx with hx | hx
          · exact hpre x hx
          · exact (hlj x hx j mem_cons_self).trans (not_lt.mp hstart)
        · exact mem_singleton.mp hx ▸ not_lt.mp hstart

end Descend

/-! ## Insertion and removal -/

namespace Tree

variable [DecidableEq ι] {T : Tree ι α} {seq : List ι} {node : ι}

lemma sound_link {h : Heap ι α} {ctx : List (Frame ι)} (hp : Placed h ctx .nil)
    (hup : ValuedAbove (computeSubtreeLast T.last) h.aug ctx (some (T.last node)))
    (hnew : node ∉ names ctx) :
    Sound (computeSubtreeLast T.last)
      ((h.setAug node (T.last node)).rbLinkNode node (above ctx) (hole ctx)) ctx
      (.node .red .nil node .nil) := by
  have hlink := (hp.withAug (update h.aug node (T.last node))).link hnew
  have haug : ((h.setAug node (T.last node)).rbLinkNode node (above ctx) (hole ctx)).aug =
      update h.aug node (T.last node) := aug_store _ _
  refine ⟨hlink, ⟨?_, trivial, trivial⟩, ?_⟩
  · rw [haug, update_self]
    rfl
  · have hpeek : peek ((h.setAug node (T.last node)).rbLinkNode node (above ctx) (hole ctx)).aug
        (.node .red .nil node .nil) = some (T.last node) := by
      rw [haug]
      exact congrArg some (update_self ..)
    rw [hpeek, haug]
    exact hup.congr fun x hx => update_of_ne (ne_of_mem_of_not_mem hx hnew) _ _

variable [Fintype ι]

lemma insert_spec (hfix : Fixed (computeSubtreeLast T.last) T.heap seq) (hord : T.Ordered seq)
    (hnew : node ∉ seq) :
    ∃ h, T.insert node = some { T with heap := h } ∧
      Fixed (computeSubtreeLast T.last) h
        (seq.filter (fun i => T.start i ≤ T.start node) ++
          node :: seq.filter (fun i => T.start node < T.start i)) := by
  obtain ⟨t, m, hs, hb, rfl⟩ := hfix
  have hfuel := Nat.lt_succ_of_le hs.placed.nodup.length_le_card
  have hempty : ∀ u : ColorTree ι, (fill [] u).inorder = [] ++ u.inorder ++ [] := fun u => by
    simp [fill]
  obtain ⟨aug, ctx, pre, post, hrun, hsame, hup, hfill, hpre, hpost⟩ :=
    descend_spec (T.start node) (T.last node) _ hfuel hs.placed hs.correct.tree trivial hempty
      (by simp) (by simp) hord
  have hseq : t.inorder = pre ++ post := by
    have hnil := hfill .nil
    rw [hsame, inorder, append_nil] at hnil
    exact hnil
  have hbefore : t.inorder.filter (fun i => T.start i ≤ T.start node) = pre := by
    rw [hseq, filter_append, filter_eq_self.mpr (by simpa using hpre),
      filter_eq_nil_iff.mpr (by simpa using hpost), append_nil]
  have hbehind : t.inorder.filter (fun i => T.start node < T.start i) = post := by
    rw [hseq, filter_append, filter_eq_nil_iff.mpr (by simpa using hpre),
      filter_eq_self.mpr (by simpa using hpost), nil_append]
  have htree : t = fill ctx .nil := hsame.symm
  have hp := placed_fill.mpr (htree ▸ hs.placed.withAug aug)
  have hout : node ∉ names ctx := fun hmem => hnew <| by
    rw [htree, (inorder_fill_perm ctx .nil).mem_iff]
    exact mem_append_left _ hmem
  obtain ⟨c, k, hnil, hacc⟩ := accepts_of_fill (htree ▸ hb)
  cases hnil
  obtain ⟨h', hins, hfix'⟩ := rbInsertAugmented_fixed ofSequence_last (sound_link hp hup hout) hacc
  refine ⟨h', ?_, ?_⟩
  · rw [above, hole] at hrun
    rw [insert, hrun]
    simp [augment, hins]
  · rw [hbefore, hbehind]
    rw [hfill] at hfix'
    simpa [inorder] using hfix'

lemma remove_spec (hfix : Fixed (computeSubtreeLast T.last) T.heap seq) (hmem : node ∈ seq) :
    ∃ h, T.remove node = some { T with heap := h } ∧
      Fixed (computeSubtreeLast T.last) h (seq.filter (· ≠ node)) := by
  obtain ⟨t, m, hs, hb, rfl⟩ := hfix
  obtain ⟨h', hrun, hfix'⟩ := rbEraseAugmented_fixed ofSequence_last hs hb hmem
  refine ⟨h', ?_, hfix'⟩
  rw [remove, augment, hrun]
  rfl

end Tree

/-! ## Contents -/

structure Interval (α : Type) [LE α] where
  start : α
  last : α
  ordered : start ≤ last

def Interval.Intersects (v w : Interval α) : Prop :=
  ∃ x, (v.start ≤ x ∧ x ≤ v.last) ∧ w.start ≤ x ∧ x ≤ w.last

lemma Interval.intersects_iff {v w : Interval α} :
    v.Intersects w ↔ v.start ≤ w.last ∧ w.start ≤ v.last := by
  constructor
  · rintro ⟨x, hv, hw⟩
    exact ⟨hv.1.trans hw.2, hw.1.trans hv.2⟩
  · rintro ⟨hvw, hwv⟩
    rcases le_total v.start w.start with hle | hle
    · exact ⟨w.start, ⟨hle, hwv⟩, le_rfl, w.ordered⟩
    · exact ⟨v.start, ⟨le_rfl, v.ordered⟩, hle, hvw⟩

/-- The calls of a user. The end points of a node are set before it is inserted. -/
inductive Call (ι α : Type) [LE α] where
  | insert (node : ι) (interval : Interval α)
  | remove (node : ι)

abbrev Contents (ι α : Type) [LE α] := List (ι × Interval α)

variable [DecidableEq ι]

/-- A call on the contents. A node is inserted if it is not stored, and removed if it is. -/
def Contents.step (C : Contents ι α) : Call ι α → Option (Contents ι α)
  | .insert i v =>
    if i ∈ C.map Prod.fst then none
    else some (C.filter (fun e => e.2.start ≤ v.start) ++
      (i, v) :: C.filter (fun e => v.start < e.2.start))
  | .remove i =>
    if i ∈ C.map Prod.fst then some (C.filter fun e => e.1 ≠ i) else none

variable [Fintype ι]

def Tree.assign (T : Tree ι α) (node : ι) (v : Interval α) : Tree ι α :=
  { T with
    start := update T.start node v.start
    last := update T.last node v.last }

def Tree.step (T : Tree ι α) : Call ι α → Option (Tree ι α)
  | .insert i v => (T.assign i v).insert i
  | .remove i => T.remove i

structure Represents (T : Tree ι α) (C : Contents ι α) : Prop where
  fixed : Fixed (computeSubtreeLast T.last) T.heap (C.map Prod.fst)
  points : ∀ e ∈ C, T.start e.1 = e.2.start ∧ T.last e.1 = e.2.last
  ordered : C.Pairwise fun e e' => e.2.start ≤ e'.2.start

/-! ## Calls -/

section Calls

variable {T : Tree ι α} {C C' : Contents ι α} {node : ι} {v : Interval α}

omit [DecidableEq ι] [Fintype ι] in
lemma Represents.ordered_nodes (hr : Represents T C) : T.Ordered (C.map Prod.fst) := by
  refine pairwise_map.mpr (hr.ordered.imp_of_mem fun {e e'} he he' hle => ?_)
  rwa [(hr.points e he).1, (hr.points e' he').1]

omit [DecidableEq ι] [Fintype ι] in
lemma filter_map_fst {p : ι → Bool} {q : ι × Interval α → Bool} (hpq : ∀ e ∈ C, p e.1 = q e) :
    (C.map Prod.fst).filter p = (C.filter q).map Prod.fst := by
  rw [filter_map]
  exact congrArg _ (filter_congr hpq)

omit [Fintype ι] in
lemma Represents.assign (hr : Represents T C) (hnew : node ∉ C.map Prod.fst) :
    Represents (T.assign node v) C := by
  have hne : ∀ x ∈ C.map Prod.fst, x ≠ node := fun x hx => ne_of_mem_of_not_mem hx hnew
  refine ⟨hr.fixed.congr_compute fun x hx => ?_, fun e he => ?_, hr.ordered⟩
  · have hlast : (T.assign node v).last x = T.last x := update_of_ne (hne x hx) _ _
    funext l r
    rw [computeSubtreeLast, computeSubtreeLast, hlast]
  · have hx := hne e.1 (mem_map_of_mem he)
    obtain ⟨hstart, hlast⟩ := hr.points e he
    exact ⟨(update_of_ne hx _ _).trans hstart, (update_of_ne hx _ _).trans hlast⟩

lemma Represents.insert (hr : Represents T C) (hnew : node ∉ C.map Prod.fst) :
    ∃ T', (T.assign node v).insert node = some T' ∧
      Represents T' (C.filter (fun e => e.2.start ≤ v.start) ++
        (node, v) :: C.filter (fun e => v.start < e.2.start)) := by
  have hr' : Represents (T.assign node v) C := hr.assign hnew
  have hstart : (T.assign node v).start node = v.start := update_self ..
  have hlast : (T.assign node v).last node = v.last := update_self ..
  obtain ⟨h, hrun, hfix⟩ := Tree.insert_spec hr'.fixed hr'.ordered_nodes hnew
  refine ⟨_, hrun, ?_, fun e he => ?_, ?_⟩
  · rw [filter_map_fst fun e he => by rw [(hr'.points e he).1, hstart],
      filter_map_fst fun e he => by rw [(hr'.points e he).1, hstart]] at hfix
    rw [map_append]
    exact hfix
  · rcases mem_append.mp he with he | he
    · exact hr'.points e (mem_filter.mp he).1
    · rcases mem_cons.mp he with rfl | he
      · exact ⟨hstart, hlast⟩
      · exact hr'.points e (mem_filter.mp he).1
  · refine pairwise_append.mpr ⟨hr.ordered.filter _, pairwise_cons.mpr
      ⟨fun e he => ?_, hr.ordered.filter _⟩, fun e he e' he' => ?_⟩
    · exact (of_decide_eq_true (mem_filter.mp he).2).le
    · have hle : e.2.start ≤ v.start := of_decide_eq_true (mem_filter.mp he).2
      rcases mem_cons.mp he' with rfl | he'
      · exact hle
      · have hlt : v.start < e'.2.start := of_decide_eq_true (mem_filter.mp he').2
        exact hle.trans hlt.le

lemma Represents.remove (hr : Represents T C) (hmem : node ∈ C.map Prod.fst) :
    ∃ T', T.remove node = some T' ∧ Represents T' (C.filter fun e => e.1 ≠ node) := by
  obtain ⟨h, hrun, hfix⟩ := Tree.remove_spec hr.fixed hmem
  refine ⟨_, hrun, ?_, fun e he => hr.points e (mem_filter.mp he).1, hr.ordered.filter _⟩
  rw [filter_map_fst fun _ _ => rfl] at hfix
  exact hfix

lemma Represents.step (hr : Represents T C) {call : Call ι α} (hC : C.step call = some C') :
    ∃ T', T.step call = some T' ∧ Represents T' C' := by
  cases call with
  | insert node v =>
    rw [Contents.step] at hC
    split at hC
    · cases hC
    · rename_i hnew
      cases hC
      exact hr.insert hnew
  | remove node =>
    rw [Contents.step] at hC
    split at hC
    · rename_i hmem
      cases hC
      exact hr.remove hmem
    · cases hC

lemma Represents.run (hr : Represents T C) {calls : List (Call ι α)}
    (hC : calls.foldlM Contents.step C = some C') :
    ∃ T', calls.foldlM Tree.step T = some T' ∧ Represents T' C' := by
  induction calls generalizing T C with
  | nil =>
    obtain rfl : C = C' := Option.some.inj hC
    exact ⟨T, rfl, hr⟩
  | cons call calls ih =>
    rw [foldlM_cons, Option.bind_eq_bind, Option.bind_eq_some_iff] at hC
    obtain ⟨C₁, hstep, hrest⟩ := hC
    obtain ⟨T₁, hT₁, hr₁⟩ := hr.step hstep
    obtain ⟨T', hT', hr'⟩ := ih hr₁ hrest
    refine ⟨T', ?_, hr'⟩
    rw [foldlM_cons, hT₁]
    exact hT'

omit [DecidableEq ι] [Fintype ι] in
lemma represents_nil (hroot : T.heap.root = none) : Represents T [] :=
  ⟨⟨.nil, 0, ⟨⟨trivial, hroot, nodup_nil⟩, trivial, trivial⟩, .nil, rfl⟩, nofun, .nil⟩

omit [DecidableEq ι] [Fintype ι] in
lemma Represents.nodup (hr : Represents T C) : (C.map Prod.fst).Nodup := by
  obtain ⟨t, m, hs, -, hseq⟩ := hr.fixed
  exact hseq ▸ hs.placed.nodup

lemma Represents.query (hr : Represents T C) (start last : α) :
    T.query start last = some
      ((C.filter fun e => e.2.start ≤ last ∧ start ≤ e.2.last).map Prod.fst) := by
  have hord := hr.ordered_nodes
  obtain ⟨t, m, hs, -, hseq⟩ := hr.fixed
  rw [← hseq] at hord
  rw [Tree.query_eq hs hord, hseq, filter_map_fst]
  intro e he
  simp [Tree.Meets, (hr.points e he).1, (hr.points e he).2]

end Calls

/-- For every run of insertions and removals and every query, `iter_first` and then `iter_next`
return the nodes of the stored intervals that have a point in common with the query, each once and
in the order of the tree, and the null pointer in the end. -/
theorem query_run (T : Tree ι α) (hempty : T.heap.root = none) (calls : List (Call ι α))
    (C : Contents ι α) (hcalls : calls.foldlM Contents.step [] = some C) :
    ∃ T', calls.foldlM Tree.step T = some T' ∧ ∀ q : Interval α, ∃ found : Contents ι α,
      T'.query q.start q.last = some (found.map Prod.fst) ∧
      (∀ e, e ∈ found ↔ e ∈ C ∧ e.2.Intersects q) ∧
      (found.map Prod.fst).Nodup ∧ found.Sublist C ∧
      C.Pairwise fun e e' => e.2.start ≤ e'.2.start := by
  obtain ⟨T', hrun, hr⟩ := (represents_nil hempty).run hcalls
  refine ⟨T', hrun, fun q => ⟨_, hr.query q.start q.last, fun e => ?_, ?_, ?_, hr.ordered⟩⟩
  · rw [mem_filter, Interval.intersects_iff, decide_eq_true_iff]
  · exact hr.nodup.sublist (filter_sublist.map _)
  · exact filter_sublist

/-- After every run the tree has a logarithmic height, and `rb_next` and `rb_prev` lead to the
neighbours. -/
theorem shape_run (T : Tree ι α) (hempty : T.heap.root = none) (calls : List (Call ι α))
    (C : Contents ι α) (hcalls : calls.foldlM Contents.step [] = some C) :
    ∃ T' t, calls.foldlM Tree.step T = some T' ∧ Placed T'.heap [] t ∧
      t.inorder = C.map Prod.fst ∧ t.height ≤ 2 * Nat.log2 (C.length + 1) ∧
      ∀ pre i post, t.inorder = pre ++ i :: post →
        T'.heap.rbNext i = some post.head? ∧ T'.heap.rbPrev i = some pre.getLast? := by
  obtain ⟨T', hrun, hr⟩ := (represents_nil hempty).run hcalls
  obtain ⟨t, m, hs, hb, hseq⟩ := hr.fixed
  obtain ⟨-, hheight, hpow⟩ := hb.height_le
  rw [hseq, length_map, ← Nat.le_log2 (by omega)] at hpow
  refine ⟨T', t, hrun, hs.placed, hseq, (hheight rfl).trans (by omega), fun pre i post heq => ?_⟩
  have hleft : toward .left t = post.reverse ++ i :: pre.reverse := by simp [toward, heq]
  exact ⟨hs.placed.neighbour heq, by rw [rbPrev, hs.placed.neighbour hleft, head?_reverse]⟩

/-- The interval with `n + 1` points from `start` on. -/
def span (start n : Nat) : Interval Nat := ⟨start, start + n, Nat.le_add_right start n⟩

def noIntervals : Tree (Fin 3) Nat where
  heap := ⟨none, fun _ _ => none, fun _ => (none, .black), fun _ => 0⟩
  start _ := 0
  last _ := 0

/-- Three intervals are stored, and the first one is taken out again: queries find the others. -/
theorem threeIntervals_query :
    ∃ T', [Call.insert 0 (span 1 5), .insert 1 (span 4 5), .insert 2 (span 1 2),
        .remove 0].foldlM Tree.step noIntervals = some T' ∧
      ∀ q : Interval Nat, ∃ found : Contents (Fin 3) Nat,
        T'.query q.start q.last = some (found.map Prod.fst) ∧
        (∀ e, e ∈ found ↔ e ∈ [(2, span 1 2), (1, span 4 5)] ∧ e.2.Intersects q) ∧
        (found.map Prod.fst).Nodup ∧ found.Sublist [(2, span 1 2), (1, span 4 5)] ∧
        [((2 : Fin 3), span 1 2), (1, span 4 5)].Pairwise fun e e' => e.2.start ≤ e'.2.start :=
  query_run noIntervals rfl _ _ rfl

theorem twoIntervals_shape :
    ∃ T' t, [Call.insert 0 (span 1 5), .insert 1 (span 4 5)].foldlM Tree.step noIntervals =
        some T' ∧ Placed T'.heap [] t ∧ t.inorder = [0, 1] ∧ t.height ≤ 2 ∧
      ∀ pre i post, t.inorder = pre ++ i :: post →
        T'.heap.rbNext i = some post.head? ∧ T'.heap.rbPrev i = some pre.getLast? :=
  shape_run noIntervals rfl _ [(0, span 1 5), (1, span 4 5)] rfl

end Mini2440.IntervalTree
