import Mini2440.Rbtree.Successor

/-!
# Deletion

`__rb_erase_augmented` takes a node out and says where the tree has to be rebalanced;
`____rb_erase_color` does it. With the callbacks of an augmented value, all values are right after
it if the value of a subtree depends on its sequence of nodes only, as a rotation requires.
-/

namespace Mini2440.Rbtree

open Library ColorTree Heap

variable {ι α : Type} {compute : ι → Option α → Option α → α} {h h' : Heap ι α} {s : Side}
  {c c' cs : Color} {a b t x c₂ t' : ColorTree ι} {i j y succ xid : ι} {q : Option ι}
  {ctx fs rest path : List (Frame ι)} {k m : Nat}

/-! ## A node with one subtree at most -/

lemma Placed.eraseAugmented_eq [DecidableEq ι] [Fintype ι] (augment : Callbacks ι α)
    (hp : Placed h ctx (make c s a i .nil)) :
    h.eraseAugmented augment i =
      (augment.propagate (h.raise ctx a.root c) (above ctx) none).bind fun h' =>
        some (h', if a.root = none ∧ c = .black then above ctx else none) := by
  obtain ⟨hpc, hc, ho, -, -⟩ := Heap.stores_make.mp hp.tree
  have hctx := hp.context
  rw [root_make] at hctx
  have hi : i ∉ names ctx := by
    have := hp.make_nodup
    grind
  have hchange : ∀ q, h.changeChild i q (above ctx) = h.store (hole ctx) q := fun q =>
    hctx.changeChild_eq hi
  unfold eraseAugmented
  cases s <;> cases hr : a.root <;> rw [hr] at hc <;> dsimp only [Side.other, ColorTree.root] at ho
  all_goals
    rw [hc, ho, hpc]
    dsimp only
  · rw [hchange]
    simp only [true_and]
    rfl
  · rw [changeChild_setPc, hchange]
    rfl
  · rw [hchange]
    simp only [true_and]
    rfl
  · rw [hchange]
    rfl

section Callbacks

variable [DecidableEq ι] [DecidableEq α] [Fintype ι]

lemma Placed.propagate (compute : ι → Option α → Option α → α) (hp : Placed h ctx t)
    (hv : Valued compute h.aug t) (hst : Stale compute h.aug ctx) :
    ∃ aug, (declareCallbacks compute).propagate h (above ctx) none = some { h with aug := aug } ∧
      Sound compute { h with aug := aug } ctx t := by
  have hctx := hp.context
  rw [← List.append_nil ctx] at hctx
  obtain ⟨aug, hrun, hcorrect, -⟩ := propagateLoop_correct (Fintype.card ι + 1)
    (Nat.lt_succ_of_le hp.length_le) hctx.climbs hp.nodup (fun _ _ => nofun) hv hst
  rw [List.append_nil] at hrun
  exact ⟨aug, hrun, hp.withAug aug, hcorrect⟩

/-- What `__rb_erase_augmented` leaves: a red-black tree, or an empty hole that lacks one black
node and has to be rebalanced. -/
def Unbalanced (compute : ι → Option α → Option α → α) (r : Heap ι α × Option ι)
    (seq : List ι) : Prop :=
  ∃ ctx t, Sound compute r.1 ctx t ∧ (fill ctx t).inorder = seq ∧
    (r.2 = none ∧ (∃ c k, Balanced c k t ∧ Accepts ctx c k) ∨
      r.2 = above ctx ∧ t = .nil ∧ Accepts ctx .black 1)

lemma Unbalanced.fixed (hseq : OfSequence compute) {r : Heap ι α × Option ι} {seq : List ι}
    (hr : Unbalanced compute r seq) :
    ∃ h', (match r.2 with
      | some parent => r.1.rbEraseColor (declareCallbacks compute).rotate parent
      | none => some r.1) = some h' ∧ Fixed compute h' seq := by
  obtain ⟨ctx, t, hs, rfl, ⟨hr, c, k, hb, hacc⟩ | ⟨hr, rfl, hacc⟩⟩ := hr
  · rw [hr]
    exact ⟨_, rfl, Fixed.of_context hs hacc hb⟩
  · rw [hr]
    cases ctx with
    | nil => exact ⟨_, rfl, Fixed.of_context hs .root .nil⟩
    | cons f fs =>
      exact eraseLoop_fixed hseq (Fintype.card ι + 1) (Nat.lt_succ_of_le hs.placed.length_le) hs
        .nil hacc

lemma eraseAugmented_simple (hs : Sound compute h ctx (make c s a i .nil))
    (hb : Balanced c' k (make c s a i .nil)) (hacc : Accepts ctx c' k) :
    ∃ r, h.eraseAugmented (declareCallbacks compute) i = some r ∧
      Unbalanced compute r (fill ctx a).inorder := by
  obtain ⟨hpaint, hheight⟩ := hacc.splice hb
  obtain ⟨-, ha, -⟩ := valued_make.mp hs.correct.tree
  obtain ⟨aug, hrun, hsound⟩ := (hs.placed.raise c).propagate compute
    (by rw [aug_raise]; exact valued_paint.mpr ha)
    (by rw [aug_raise]; exact hs.correct.context.stale)
  rw [hs.placed.eraseAugmented_eq, hrun]
  refine ⟨_, rfl, ctx, a.paint c, hsound, inorder_fill_congr inorder_paint, ?_⟩
  split at hheight
  · next hif =>
    obtain ⟨rfl, hacc⟩ := hheight
    exact .inr ⟨if_pos hif, rfl, hacc⟩
  · next hif =>
    rw [hpaint]
    exact .inl ⟨if_neg hif, hheight⟩

/-! ## A node with two subtrees -/

lemma eraseAugmented_general
    (hs : Sound compute h (path ++ ⟨.right, c, i, x⟩ :: ctx) (.node cs .nil succ c₂))
    (hside : ∀ f ∈ path, f.side = .left) (hx : x ≠ .nil)
    (hb : Balanced c' k (.node cs .nil succ c₂))
    (hacc : Accepts (path ++ ⟨.right, c, i, x⟩ :: ctx) c' k) :
    ∃ r, h.eraseAugmented (declareCallbacks compute) i = some r ∧
      Unbalanced compute r (fill (path ++ ⟨.right, c, succ, x⟩ :: ctx) c₂).inorder := by
  have hp := hs.placed
  have hnd := hp.successor_nodup
  obtain ⟨xid, hxid⟩ := Option.ne_none_iff_exists'.mp (mt root_eq_none.mp hx)
  obtain ⟨y, hy⟩ := Option.isSome_iff_exists.mp
    (root_fill_isSome (t := .node cs .nil succ c₂) rfl path)
  have hnode := sound_cons.mp (sound_append.mp hs)
  obtain ⟨hipc, hir, hil, -, -⟩ := Heap.stores_make.mp hnode.placed.tree
  obtain ⟨w, p, hunhook, hw⟩ := unhook_correct hs hside hy
  obtain ⟨hctx, hwpc, hwcolor⟩ := hw.place hp
  have hout : succ ∉ names ctx ∧ xid ∉ names ctx ∧ i ∉ names ctx ∧ xid ≠ i ∧ xid ≠ succ := by
    have hxmem := root_mem hxid
    grind
  have hinstall := install_eq (q := c₂.root) hctx hwpc hout.1 hout.2.1 hout.2.2.1 hout.2.2.2.1
    hout.2.2.2.2 p
  have hplaced := hw.install hp hxid
  generalize hHF : ((((w.setChild succ .left (some xid)).setParent xid (some succ)).store (hole ctx)
    (some succ)).setPc succ (above ctx, c)).setParentColorOf c₂.root p .black = h₁
    at hinstall hplaced
  have haug : h₁.aug = w.aug := by
    rw [← hHF, aug_setParentColorOf]
    exact aug_store ..
  -- From the successor on the values are those of before, with the one of the node in its place.
  have hvalued : Valued compute h₁.aug (fill path (c₂.paint .black)) := by
    rw [haug]
    exact correct_fill.mp
      (hw.correct.replace (valued_paint.mpr hw.correct.tree) (fun _ _ => rfl) peek_paint)
  have hold : ∀ z, z ∉ names path → z ≠ succ → h₁.aug z = h.aug z := by
    rw [haug]
    exact hw.aug_eq
  have hstale : Stale compute h₁.aug (⟨.right, c, succ, x⟩ :: ctx) := by
    obtain ⟨-, -, hxv⟩ := valued_make.mp hnode.correct.tree
    have hup := hnode.correct.context
    refine ⟨hxv.congr fun z hz => hold z (by grind) (by grind), ?_⟩
    rw [haug, hw.copied, ← haug]
    exact hup.congr fun z hz => hold z (by grind) (by grind)
  obtain ⟨aug, hrun, hsound⟩ := (placed_append.mp hplaced).propagate compute hvalued hstale
  have hleft : h.child i .left = some xid := hil.trans hxid
  have hright : h.child i .right = some y := hir.trans hy
  refine ⟨({ h₁ with aug := aug }, if c₂.root = none ∧ cs = .black then some p else none), ?_,
    path ++ ⟨.right, c, succ, x⟩ :: ctx, c₂.paint .black, sound_append.mpr hsound,
    inorder_fill_congr inorder_paint, ?_⟩
  · rw [eraseAugmented, hleft, hright]
    dsimp only
    rw [hunhook]
    dsimp only [bind, Option.bind]
    rw [hinstall, hwcolor]
    exact congrArg (Option.bind · fun h => some (h, if c₂.root = none ∧ cs = .black then some p
      else none)) hrun
  · obtain ⟨-, hheight⟩ := (hacc.rename (j := succ)).splice (s := .right) hb
    split at hheight
    · next hif =>
      obtain ⟨rfl, hacc⟩ := hheight
      exact .inr ⟨(if_pos hif).trans hw.above_eq.symm, rfl, hacc⟩
    · next hif => exact .inl ⟨if_neg hif, hheight⟩

/-! ## The sequence of nodes -/

omit [DecidableEq α] [Fintype ι] in
lemma inorder_fill_filter (t' : ColorTree ι) (pre : List ι) {post : List ι}
    (ht : t.inorder = pre ++ i :: post) (ht' : t'.inorder = pre ++ post)
    (hnd : (fill ctx t).inorder.Nodup) :
    (fill ctx t').inorder = (fill ctx t).inorder.filter (· ≠ i) := by
  obtain ⟨before, after, hfill⟩ := inorder_fill ctx
  have hseq : (fill ctx t).inorder = (before ++ pre) ++ i :: (post ++ after) := by
    rw [hfill, ht]
    simp
  rw [hseq] at hnd ⊢
  rw [filter_middle hnd, hfill, ht']
  simp

omit [DecidableEq ι] [DecidableEq α] [Fintype ι] in
lemma inorder_leftmost (hside : ∀ f ∈ path, f.side = .left) :
    (fill path (.node cs .nil succ c₂)).inorder = succ :: (fill path c₂).inorder := by
  induction path using List.reverseRecOn with
  | nil => rfl
  | append_singleton path f ih =>
    rw [fill_append, fill_append, fill, fill, fill, hside f (by simp)]
    exact congrArg (· ++ f.id :: f.sib.inorder) (ih fun g hg => hside g (by simp [hg]))

lemma rbEraseAugmented_fixed (hseq : OfSequence compute) (hs : Sound compute h [] t)
    (hb : Balanced .black m t) (hi : i ∈ t.inorder) :
    ∃ h', h.rbEraseAugmented (declareCallbacks compute) i = some h' ∧
      Fixed compute h' (t.inorder.filter (· ≠ i)) := by
  have hnd : t.inorder.Nodup := hs.placed.nodup
  suffices ∃ r, h.eraseAugmented (declareCallbacks compute) i = some r ∧
      Unbalanced compute r (t.inorder.filter (· ≠ i)) by
    obtain ⟨r, hrun, hr⟩ := this
    rw [rbEraseAugmented, hrun]
    exact hr.fixed hseq
  obtain ⟨ctx, c, l, r, rfl⟩ := exists_context hi
  have hnode := sound_fill.mpr hs
  by_cases hr : r = .nil
  · subst hr
    obtain ⟨c', k, hbal, hacc⟩ := accepts_of_fill hb
    rw [← inorder_fill_filter l _ rfl (List.append_nil _).symm hnd]
    exact eraseAugmented_simple (s := .left) hnode hbal hacc
  by_cases hl : l = .nil
  · subst hl
    obtain ⟨c', k, hbal, hacc⟩ := accepts_of_fill hb
    rw [← inorder_fill_filter r [] rfl rfl hnd]
    exact eraseAugmented_simple (s := .right) hnode hbal hacc
  · obtain ⟨path, cs, succ, c₂, rfl, hside⟩ := exists_leftmost r hr
    have hin : fill ctx (.node c l i (fill path (.node cs .nil succ c₂))) =
        fill (path ++ ⟨.right, c, i, l⟩ :: ctx) (.node cs .nil succ c₂) := by
      rw [fill_append]
      rfl
    have hout : fill ctx (.node c l succ (fill path c₂)) =
        fill (path ++ ⟨.right, c, succ, l⟩ :: ctx) c₂ := by
      rw [fill_append]
      rfl
    rw [← inorder_fill_filter (.node c l succ (fill path c₂)) _ rfl
      (congrArg (l.inorder ++ ·) (inorder_leftmost hside).symm) hnd, hout]
    rw [hin] at hs hb
    obtain ⟨c', k, hbal, hacc⟩ := accepts_of_fill hb
    exact eraseAugmented_general (sound_fill.mpr hs) hside hl hbal hacc

end Callbacks

/-! ## Trees without augmented values -/

section Plain

variable [DecidableEq ι] [Fintype ι] {h : Heap ι Unit}

lemma unit_propagate {rb stop : Option ι} (hstop : stop = none ∨ rb ≠ none) :
    (declareCallbacks fun _ _ _ => ()).propagate h rb stop = some h := by
  cases rb with
  | some i => exact ite_self _
  | none =>
    obtain rfl := hstop.resolve_right (by simp)
    rfl

lemma eraseAugmented_dummy :
    h.eraseAugmented dummyCallbacks i = h.eraseAugmented (declareCallbacks fun _ _ _ => ()) i := by
  have hunhook : ∀ y, h.unhook dummyCallbacks i y =
      h.unhook (declareCallbacks fun _ _ _ => ()) i y := fun y => by
    unfold unhook
    simp only [unit_propagate (.inr (Option.some_ne_none _))]
    rfl
  unfold eraseAugmented
  simp only [hunhook, unit_propagate (.inl rfl)]
  rfl

lemma rbErase_fixed (hp : Placed h [] t) (hb : Balanced .black m t) (hmem : i ∈ t.inorder) :
    ∃ h', h.rbErase i = some h' ∧ Fixed (fun _ _ _ => ()) h' (t.inorder.filter (· ≠ i)) := by
  obtain ⟨h', hrun, hfixed⟩ := rbEraseAugmented_fixed ofSequence_unit hp.sound hb hmem
  refine ⟨h', ?_, hfixed⟩
  rw [← hrun, rbErase, rbEraseAugmented, rbEraseAugmented, eraseAugmented_dummy, dummy_rotate_eq]

/-- `rb_erase` gives a red-black tree again, with exactly the node missing. -/
theorem erase_redBlack (h : Heap ι Unit) (t : ColorTree ι) (hvalid : IsRedBlack h t) (node : ι)
    (hmem : node ∈ t.inorder) :
    ∃ h' t', h.rbErase node = some h' ∧ IsRedBlack h' t' ∧
      t'.inorder = t.inorder.filter (· ≠ node) := by
  obtain ⟨hp, m, hb⟩ := hvalid
  obtain ⟨h', hrun, t', m', hs, hb', hseq⟩ := rbErase_fixed hp hb hmem
  exact ⟨h', t', hrun, ⟨hs.placed, m', hb'⟩, hseq⟩

end Plain

/-- Three black nodes, and a red one below the last of them. -/
def fourNodes : Heap (Fin 7) Unit where
  root := some 1
  child i s := match i, s with
    | 1, .left => some 0
    | 1, .right => some 2
    | 2, .right => some 3
    | _, _ => none
  pc i := (if i = 1 then none else if i = 3 then some 2 else some 1, if i = 3 then .red else .black)
  aug _ := ()

/-- The black node at the front leaves a path that is too short, and a rotation makes up for it. -/
theorem fourNodes_erase : (fourNodes.rbErase 0).map (·.root) = some (some 2) ∧
    ∃ h' t', fourNodes.rbErase 0 = some h' ∧ IsRedBlack h' t' ∧ t'.inorder = [1, 2, 3] := by
  have hvalid : IsRedBlack fourNodes (.node .black (.node .black .nil 0 .nil) 1
      (.node .black .nil 2 (.node .red .nil 3 .nil))) :=
    ⟨⟨⟨rfl, rfl, rfl, ⟨rfl, rfl, rfl, trivial, trivial⟩, rfl, rfl, rfl, trivial, rfl, rfl, rfl,
      trivial, trivial⟩, rfl, by decide⟩,
      2, .black (.black .nil .nil) (.black .nil (.red .nil .nil))⟩
  exact ⟨by decide, erase_redBlack fourNodes _ hvalid 0 (by decide)⟩

/-! ## Augmented values -/

/-- A heap stands for one tree only. -/
lemma Heap.Stores.unique {p : Option ι} (ht : h.Stores p t)
    (ht' : h.Stores p t') (hroot : t.root = t'.root) : t = t' := by
  induction t generalizing p t' with
  | nil => exact (root_eq_none.mp hroot.symm).symm
  | node c l i r ihl ihr =>
    cases t' with
    | nil => exact nomatch hroot
    | node c' l' i' r' =>
      obtain rfl := Option.some.inj hroot
      obtain ⟨hpc, hcl, hcr, hl, hr⟩ := ht
      obtain ⟨hpc', hcl', hcr', hl', hr'⟩ := ht'
      obtain rfl : c = c' := congrArg Prod.snd (hpc.symm.trans hpc')
      rw [ihl hl hl' (hcl.symm.trans hcl'), ihr hr hr' (hcr.symm.trans hcr')]

lemma Placed.unique (hp : Placed h [] t) (hp' : Placed h [] t') : t = t' :=
  hp.tree.unique hp'.tree (hp.context.symm.trans hp'.context)

section Augmented

variable [DecidableEq ι] [DecidableEq α] [Fintype ι]

/-- `rb_insert_augmented` and `rb_erase_augmented` leave every stored value right, if the value of a
subtree depends on its sequence of nodes only. The values that a caller has put right after
`rb_link_node` are `aug`. -/
theorem augmented_correct (hseq : OfSequence compute) (h : Heap ι α) (t : ColorTree ι)
    (hvalid : IsRedBlack h t) (hvalues : Valued compute h.aug t) :
    (∀ node, node ∉ t.inorder → ∀ parent link, AtLeaf h t parent link →
      ∀ t₁ aug, Placed (h.rbLinkNode node parent link) [] t₁ → Valued compute aug t₁ →
      ∃ h₂ t₂, ({ h.rbLinkNode node parent link with aug := aug }).rbInsertAugmented
          (declareCallbacks compute) node = some h₂ ∧
        IsRedBlack h₂ t₂ ∧ t₂.inorder = t₁.inorder ∧ Valued compute h₂.aug t₂) ∧
    ∀ node ∈ t.inorder, ∃ h₂ t₂, h.rbEraseAugmented (declareCallbacks compute) node = some h₂ ∧
      IsRedBlack h₂ t₂ ∧ t₂.inorder = t.inorder.filter (· ≠ node) ∧ Valued compute h₂.aug t₂ := by
  obtain ⟨hp, m, hb⟩ := hvalid
  refine ⟨fun node hnew parent link hleaf t₁ aug hp₁ hv₁ => ?_, fun node hmem => ?_⟩
  · obtain ⟨ctx, rfl, rfl, rfl⟩ := hleaf.context hp
    obtain ⟨c, k, hnil, hacc⟩ := accepts_of_fill hb
    cases hnil
    have hout : node ∉ names ctx := fun hmem =>
      hnew ((inorder_fill_perm ctx .nil).mem_iff.mpr (List.mem_append_left _ hmem))
    obtain rfl := hp₁.unique (placed_fill.mp ((placed_fill.mpr hp).link hout))
    have hs : Sound compute { h.rbLinkNode node (above ctx) (hole ctx) with aug := aug } []
        (fill ctx (.node .red .nil node .nil)) := ⟨hp₁.withAug aug, hv₁, trivial⟩
    obtain ⟨h₂, hrun, t₂, m₂, hs₂, hb₂, hseq₂⟩ :=
      rbInsertAugmented_fixed hseq (sound_fill.mpr hs) hacc
    exact ⟨h₂, t₂, hrun, ⟨hs₂.placed, m₂, hb₂⟩, hseq₂, hs₂.correct.tree⟩
  · obtain ⟨h₂, hrun, t₂, m₂, hs₂, hb₂, hseq₂⟩ :=
      rbEraseAugmented_fixed hseq ⟨hp, hvalues, trivial⟩ hb hmem
    exact ⟨h₂, t₂, hrun, ⟨hs₂.placed, m₂, hb₂⟩, hseq₂, hs₂.correct.tree⟩

end Augmented

def count (_ : Fin 6) (l r : Option Nat) : Nat := 1 + l.getD 0 + r.getD 0

lemma value_count (t : ColorTree (Fin 6)) :
    t.value count = if t.inorder = [] then none else some t.inorder.length := by
  induction t with
  | nil => rfl
  | node c l i r ihl ihr =>
    have hget : ∀ s : ColorTree (Fin 6), (if s.inorder = [] then none
        else some s.inorder.length).getD 0 = s.inorder.length := fun s => by
      split <;> simp_all
    rw [value, ihl, ihr, count, hget, hget, inorder]
    simp
    omega

/-- The height of a subtree: it depends on the shape of the tree, not on its sequence. -/
def height (_ : Fin 6) (l r : Option Nat) : Nat := 1 + max (l.getD 0) (r.getD 0)

/-- The values `n`, `n - 1` and so on, from the first node on. -/
def countdown (n : Nat) (i : Fin 6) : Nat := n - i

def augmentedChain (aug : Fin 6 → Nat) : Heap (Fin 6) Nat :=
  { chain with aug := aug }

/-- The number of nodes is right after the root of the chain was deleted. -/
theorem chain_count : ∃ h₂ t₂, (augmentedChain (countdown 2)).rbEraseAugmented
    (declareCallbacks count) 0 = some h₂ ∧ IsRedBlack h₂ t₂ ∧ t₂.inorder = [1] ∧
      Valued count h₂.aug t₂ :=
  (augmented_correct (fun t t' heq => by rw [value_count, value_count, heq]) (augmentedChain _) _
    (chain_valid _) ⟨rfl, trivial, rfl, trivial, trivial⟩).2 0 (by decide)

/-- The heights of a chain are right before the third node is inserted and after it was linked. But
the rotation gives the new root the height of the old one. -/
theorem chain_height :
    IsRedBlack (augmentedChain (countdown 2)) (.node .black .nil 0 (.node .red .nil 1 .nil)) ∧
    Valued height (augmentedChain (countdown 2)).aug
      (.node .black .nil 0 (.node .red .nil 1 .nil)) ∧
    Placed ((augmentedChain (countdown 2)).rbLinkNode 2 (some 1) (.child 1 .right)) []
      (.node .black .nil 0 (.node .red .nil 1 (.node .red .nil 2 .nil))) ∧
    Valued height (countdown 3)
      (.node .black .nil 0 (.node .red .nil 1 (.node .red .nil 2 .nil))) ∧
    ∃ h₂, ({ (augmentedChain (countdown 2)).rbLinkNode 2 (some 1) (.child 1 .right) with
        aug := countdown 3 }).rbInsertAugmented (declareCallbacks height) 2 = some h₂ ∧
      h₂.root = some 1 ∧ h₂.aug 1 = 3 ∧ h₂.recompute height 1 = 2 := by
  refine ⟨chain_valid _, ⟨rfl, trivial, rfl, trivial, trivial⟩, ?_, ?_, ?_⟩
  · exact ⟨⟨rfl, rfl, rfl, trivial, rfl, rfl, rfl, trivial, rfl, rfl, rfl, trivial, trivial⟩, rfl,
      by decide⟩
  · exact ⟨rfl, trivial, rfl, trivial, rfl, trivial, trivial⟩
  · exact ⟨_, rfl, by decide +kernel, by decide +kernel, by decide +kernel⟩

end Mini2440.Rbtree
