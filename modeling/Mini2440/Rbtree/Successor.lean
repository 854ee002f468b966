import Mini2440.Rbtree.Splice

/-!
# The successor of a deleted node

If a deleted node has two children, the heap that `__rb_erase_augmented` builds is, apart from the
node itself, the one after its successor was taken out of its own place and then put into the place
of the node.
-/

namespace Mini2440.Rbtree

open List Function Library ColorTree Heap

variable {ι α : Type} {compute : ι → Option α → Option α → α} {h h' w : Heap ι α} {s : Side}
  {c c' cs : Color} {a b t x c₂ : ColorTree ι} {i j y succ xid p : ι} {q : Option ι}
  {ctx fs rest path : List (Frame ι)} {k : Nat} {g : Frame ι}

/-! ## The successor -/

lemma exists_leftmost (t : ColorTree ι) (ht : t ≠ .nil) :
    ∃ path cs succ c₂, t = fill path (.node cs .nil succ c₂) ∧ ∀ f ∈ path, f.side = .left := by
  induction t with
  | nil => exact absurd rfl ht
  | node c l i r ihl _ =>
    by_cases hl : l = .nil
    · subst hl
      exact ⟨[], c, i, r, rfl, by simp⟩
    · obtain ⟨path, cs, succ, c₂, rfl, hside⟩ := ihl hl
      refine ⟨path ++ [⟨.left, c, i, r⟩], cs, succ, c₂, by rw [fill_append]; rfl, fun f hf => ?_⟩
      rcases mem_append.mp hf with hf | hf
      · exact hside f hf
      · rw [mem_singleton.mp hf]

lemma above_append : above (path ++ rest) = (above path).or
    (above rest) := by
  cases path <;> rfl

lemma root_fill_isSome (hi : t.root.isSome) (ctx : List (Frame ι)) : (fill ctx t).root.isSome := by
  induction ctx generalizing t with
  | nil => exact hi
  | cons f fs ih => exact ih (by simp)

/-- The walk ends at the leftmost node, with the node above it. -/
lemma leftmost_eq (fuel : Nat) (p : ι) (hs : h.Stores q (fill path (.node cs .nil succ c₂)))
    (hside : ∀ f ∈ path, f.side = .left) (hfuel : path.length < fuel)
    (hi : (fill path (.node cs .nil succ c₂)).root = some i) :
    h.leftmost fuel p i = some ((above path).getD p, succ) := by
  induction path using reverseRecOn generalizing fuel p i q with
  | nil =>
    obtain _ | fuel := fuel
    · omega
    obtain rfl := Option.some.inj hi
    obtain ⟨-, hl, -⟩ := hs
    rw [leftmost, hl]
    rfl
  | append_singleton path f ih =>
    obtain _ | fuel := fuel
    · omega
    rw [fill_append] at hs hi
    rw [fill, hside f (by simp)] at hs hi
    obtain rfl := Option.some.inj hi
    obtain ⟨-, hl, -, hsub, -⟩ := hs
    obtain ⟨j, hj⟩ := Option.isSome_iff_exists.mp
      (root_fill_isSome (t := .node cs .nil succ c₂) rfl path)
    rw [leftmost, hl, hj]
    dsimp only
    rw [ih fuel f.id hsub (fun g hg => hside g (by simp [hg])) (by simpa using hfuel) hj,
      above_append]
    cases above path <;> rfl

lemma root_fill_mem {f : Frame ι} (hi : (fill (f :: fs) t).root = some i) :
    i ∈ names (f :: fs) := by
  induction fs generalizing f t with
  | nil =>
    obtain rfl : f.id = i := by simpa [fill] using hi
    simp [names]
  | cons g gs ih =>
    have := ih (f := g) (t := make f.color f.side t f.id f.sib) hi
    simp only [names] at this ⊢
    grind

lemma Placed.successor_nodup
    (hp : Placed h (path ++ ⟨.right, c, i, x⟩ :: ctx) (.node cs .nil succ c₂)) :
    (names path ++ (i :: (x.inorder ++ names ctx)) ++ (succ :: c₂.inorder)).Nodup := by
  have := hp.nodup
  rwa [names_append] at this

/-! ## Putting the successor into the place of the node -/

section Install

variable [DecidableEq ι]

/-- The successor is out of its place, and the values below the node are right. -/
structure Unhooks (compute : ι → Option α → Option α → α) (h : Heap ι α) (i : ι)
    (ctx path : List (Frame ι)) (c : Color) (x : ColorTree ι) (succ : ι) (c₂ : ColorTree ι)
    (w : Heap ι α) (p : ι) : Prop where
  above_eq : above (path ++ ⟨.right, c, succ, x⟩ :: ctx) = some p
  root_eq : w.root = h.root
  child_eq : ∀ z, z ≠ i → z ≠ succ → w.child z =
    (h.store (hole (path ++ ⟨.right, c, i, x⟩ :: ctx)) c₂.root).child z
  right_eq : w.child succ .right =
    (h.store (hole (path ++ ⟨.right, c, i, x⟩ :: ctx)) c₂.root).child i .right
  pc_eq : ∀ z, c₂.root ≠ some z → w.pc z =
    if (h.store (hole (path ++ ⟨.right, c, i, x⟩ :: ctx)) c₂.root).child i .right = some z
    then (some succ, (h.pc z).2) else h.pc z
  correct : Correct compute w.aug path c₂
  copied : w.aug succ = h.aug i
  aug_eq : ∀ z, z ∉ names path → z ≠ succ → w.aug z = h.aug z

lemma child_store_congr (hc : h'.child i = h.child i) (l : Link ι) :
    (h'.store l q).child i = (h.store l q).child i := by
  cases l with
  | root => exact hc
  | child j s =>
    funext s'
    simp [Heap.store, child_setChild, hc]

lemma root_store_congr (hr : h'.root = h.root) (l : Link ι) :
    (h'.store l q).root = (h.store l q).root := by
  cases l with
  | root => rfl
  | child j s => exact hr

lemma install_eq (hctx : h.Surrounds ctx (some i)) (hpc : h.pc i = (above ctx, c))
    (hsucc : succ ∉ names ctx) (hxid : xid ∉ names ctx) (hi : i ∉ names ctx) (hxi : xid ≠ i)
    (hxs : xid ≠ succ) (p : ι) :
    h.install i xid succ p q =
      (((((h.setChild succ .left (some xid)).setParent xid (some succ)).store (hole ctx)
        (some succ)).setPc succ (above ctx, c)).setParentColorOf q p .black,
        if q = none ∧ h.color succ = .black then some p else none) := by
  have hctx' : ((h.setChild succ .left (some xid)).setParent xid (some succ)).Surrounds ctx
      (some i) := by
    refine hctx.congr rfl fun z hz => ⟨?_, ?_⟩
    · exact update_of_ne (ne_of_mem_of_not_mem hz hxid) _ _
    · exact child_setChild_of_ne (ne_of_mem_of_not_mem hz hsucc)
  have hpc' : ((h.setChild succ .left (some xid)).setParent xid (some succ)).pc i =
      (above ctx, c) := (update_of_ne hxi.symm _ _).trans hpc
  have hcolor : (((h.setChild succ .left (some xid)).setParent xid (some succ)).store (hole ctx)
      (some succ)).color succ = h.color succ := by
    rw [Heap.color, pc_store]
    exact congrArg Prod.snd (update_of_ne hxs.symm _ _)
  unfold install
  dsimp only
  rw [hpc', hctx'.changeChild_eq hi, hcolor]
  cases q <;> simp [setParentColorOf]

/-- The successor is taken out and then put into the place of the node. -/
lemma Placed.successor (hp : Placed h (path ++ ⟨.right, c, i, x⟩ :: ctx) (.node cs .nil succ c₂)) :
    Placed ((h.raise (path ++ ⟨.right, c, i, x⟩ :: ctx) c₂.root .black).replace ctx i succ)
      (path ++ ⟨.right, c, succ, x⟩ :: ctx) (c₂.paint .black) := by
  have hnd := hp.successor_nodup
  have hout := placed_cons.mp (placed_append.mp (Placed.raise (s := .right) hp .black))
  refine placed_append.mpr (placed_cons.mpr (hout.replace (by grind) (fun hmem => ?_) (by grind)))
  have := (inorder_fill_perm path _).mem_iff.mp hmem
  rw [inorder_paint] at this
  grind

/-- The code gets to the same tree from a heap in which the successor is out of its place. -/
lemma Unhooks.install (hw : Unhooks compute h i ctx path c x succ c₂ w p)
    (hp : Placed h (path ++ ⟨.right, c, i, x⟩ :: ctx) (.node cs .nil succ c₂))
    (hx : x.root = some xid) :
    Placed (((((w.setChild succ .left (some xid)).setParent xid (some succ)).store (hole ctx)
      (some succ)).setPc succ (above ctx, c)).setParentColorOf c₂.root p .black)
      (path ++ ⟨.right, c, succ, x⟩ :: ctx) (c₂.paint .black) := by
  have hnd := hp.successor_nodup
  have hnode := placed_cons.mp (placed_append.mp hp)
  obtain ⟨hipc, hir, hil, -, -⟩ := Heap.stores_make.mp hnode.tree
  have hleft : (h.store (hole (path ++ ⟨.right, c, i, x⟩ :: ctx)) c₂.root).child i .left =
      some xid := by
    rw [← hx, ← hil]
    cases path with
    | nil => exact (child_setChild ..).trans (if_neg (by simp))
    | cons f fs => exact congrFun (child_setChild_of_ne (by grind [names])) _
  have hcases : (h.store (hole (path ++ ⟨.right, c, i, x⟩ :: ctx)) c₂.root).child i .right =
        c₂.root ∧ p = succ ∨
      (∃ y ∈ names path, (h.store (hole (path ++ ⟨.right, c, i, x⟩ :: ctx)) c₂.root).child i
        .right = some y) ∧ above (path ++ ⟨.right, c, i, x⟩ :: ctx) = some p := by
    cases path with
    | nil =>
      exact .inl ⟨(child_setChild ..).trans (if_pos ⟨rfl, rfl⟩), (Option.some.inj hw.above_eq).symm⟩
    | cons f fs =>
      obtain ⟨y, hy⟩ := Option.isSome_iff_exists.mp
        (root_fill_isSome (t := .node cs .nil succ c₂) rfl (f :: fs))
      refine .inr ⟨⟨y, root_fill_mem hy, ?_⟩, hw.above_eq⟩
      rw [← hy]
      exact (congrFun (child_setChild_of_ne (by grind [names])) _).trans hir
  have hci : c₂.root ≠ some i := fun heq => by
    have := root_mem heq
    grind
  have hzi : ∀ z ∈ names (path ++ ⟨.right, c, succ, x⟩ :: ctx) ++ (c₂.paint .black).inorder,
      z ≠ i := fun z hz => by
    rw [names_append, inorder_paint] at hz
    simp only [names] at hz
    grind
  refine hp.successor.congr ?_ fun z hz => ⟨?_, ?_⟩
  · have hr : ((w.setChild succ .left (some xid)).setParent xid (some succ)).root =
        (h.raise (path ++ ⟨.right, c, i, x⟩ :: ctx) c₂.root .black).root := by
      rw [root_raise]
      cases path <;> exact hw.root_eq
    rw [root_setParentColorOf, root_replace]
    exact root_store_congr hr (hole ctx)
  · have hcz : c₂.root = some z → z ∈ c₂.inorder := root_mem
    have hxz := root_mem hx
    have hpc := hw.pc_eq z
    have hpcx := hw.pc_eq xid
    simp only [pc_setParentColorOf, setPc, setParent, Heap.replace, pc_raise, child_raise, pc_store,
      update_apply, Heap.color, setChild]
    generalize (h.store (hole (path ++ ⟨.right, c, i, x⟩ :: ctx)) c₂.root).child i .right = m
      at hcases hpc hpcx ⊢
    rcases hcases with ⟨rfl, rfl⟩ | ⟨⟨y, hy, rfl⟩, hab⟩
    · grind
    · grind
  · rw [child_setParentColorOf]
    refine child_store_congr ?_ _
    rw [child_raise]
    dsimp only [setParent, setPc]
    by_cases hz' : z = succ
    · subst hz'
      funext s'
      rw [child_setChild, update_self]
      cases s' with
      | left => rw [if_pos ⟨rfl, rfl⟩, hleft]
      | right => rw [if_neg (by simp), hw.right_eq]
    · rw [child_setChild_of_ne hz', update_of_ne hz', hw.child_eq z (hzi z hz) hz']

/-- The way up from the place of the successor, after its child and the parent of the right child
were written. -/
lemma Placed.unhook_climbs
    (hp : Placed h ((path ++ [g]) ++ ⟨.right, c, i, x⟩ :: ctx) (.node cs .nil succ c₂))
    (hchild : ∀ z, z ≠ succ → w.child z =
      (h.store (hole ((path ++ [g]) ++ ⟨.right, c, i, x⟩ :: ctx)) c₂.root).child z)
    (hpc : ∀ z, w.pc z = if z = g.id then (some succ, (h.pc z).2) else h.pc z) :
    Climbs w.child w.pc (⟨.right, c, succ, x⟩ :: ctx) (path ++ [g]) c₂.root := by
  have hnd := hp.successor_nodup
  obtain ⟨hir, hil, -⟩ := (Heap.stores_make.mp (placed_cons.mp (placed_append.mp hp)).tree).2
  have hroot : (fill (path ++ [g]) (.node cs .nil succ c₂)).root = some g.id := by
    rw [fill_append, fill, fill, root_make]
  have hi : (h.store (hole ((path ++ [g]) ++ ⟨.right, c, i, x⟩ :: ctx)) c₂.root).child i =
      h.child i := child_store_of_ne fun heq => by
    have hpath : above (path ++ [g]) = some i := by
      cases path <;> exact heq.symm
    have := above_mem hpath
    grind
  have hup := hp.successor.context.climbs
  rw [root_paint] at hup
  refine hup.congr fun f hf => ?_
  have hfmem : f.id ∈ names (path ++ [g]) := by
    obtain ⟨l₁, l₂, heq⟩ := append_of_mem hf
    rw [heq, names_append]
    simp [names]
  have hcf : c₂.root ≠ some f.id := fun heq => by
    have := root_mem heq
    grind
  have hxf : x.root ≠ some f.id := fun heq => by
    have := root_mem heq
    grind
  constructor
  · rw [hchild f.id (by grind)]
    refine Eq.symm ((child_store_of_ne fun heq => ?_).trans
      ((update_of_ne (by grind) _ _).trans (congrFun (child_raise ..) _)))
    have := above_mem heq.symm
    grind
  · have hleft : h.child i .left = x.root := hil
    simp only [Heap.replace, pc_raise, child_raise]
    grind

end Install

/-! ## Taking the successor out -/

section Callbacks

variable [DecidableEq ι] [DecidableEq α] [Fintype ι]

lemma unhook_here (hs : Sound compute h (⟨.right, c, i, x⟩ :: ctx) (.node cs .nil succ c₂)) :
    h.unhook (declareCallbacks compute) i succ =
        some ⟨h.setAug succ (h.aug i), succ, succ, c₂.root⟩ ∧
      Unhooks compute h i ctx [] c x succ c₂ (h.setAug succ (h.aug i)) succ := by
  have hnd := hs.placed.nodup
  obtain ⟨hpc, hl, hr, -, -⟩ := hs.placed.tree
  have hold : ∀ z, z ≠ succ → (h.setAug succ (h.aug i)).aug z = h.aug z := fun z hz =>
    update_of_ne hz _ _
  have hi : (h.store (hole ([] ++ ⟨.right, c, i, x⟩ :: ctx)) c₂.root).child i .right = c₂.root :=
    (child_setChild ..).trans (if_pos ⟨rfl, rfl⟩)
  refine ⟨?_, rfl, rfl, fun z hzi _ => ?_, hr.trans hi.symm, fun z hz => ?_, ⟨?_, trivial⟩, ?_,
    fun z _ => hold z⟩
  · rw [unhook, hl, hr]
    rfl
  · exact (child_setChild_of_ne hzi).symm
  · rw [hi, if_neg hz]
    rfl
  · refine hs.correct.tree.2.2.congr fun z hz => hold z ?_
    simp only [inorder] at hnd
    grind
  · exact update_self ..

omit [DecidableEq α] in
/-- The walk and the writes of the code when the successor is further down on the left. -/
lemma Placed.unhook_eq (augment : Callbacks ι α)
    (hp : Placed h ((path ++ [g]) ++ ⟨.right, c, i, x⟩ :: ctx) (.node cs .nil succ c₂))
    (hside : ∀ f ∈ path ++ [g], f.side = .left) (hpath : above (path ++ [g]) = some p) :
    h.unhook augment i g.id =
      (augment.propagate (augment.copy (((h.setChild p .left c₂.root).setChild succ .right
        (some g.id)).setParent g.id (some succ)) i succ) (some p) (some succ)).bind fun w =>
        some ⟨w, succ, p, c₂.root⟩ := by
  have hleft := placed_cons.mp (placed_append.mp (append_assoc path [g] _ ▸ hp))
  rw [hside g (by simp)] at hleft
  obtain ⟨-, hgl, -, hbelow, -⟩ := Heap.stores_make.mp hleft.tree
  obtain ⟨-, -, hsr, -, -⟩ := hp.tree
  obtain ⟨tmp, htmp⟩ := Option.isSome_iff_exists.mp
    (root_fill_isSome (t := .node cs .nil succ c₂) rfl path)
  have hlength := hp.length_le
  simp only [length_append, length_cons] at hlength
  have hp' : (above path).getD g.id = p := by
    cases path <;> exact Option.some.inj hpath
  have hwalk := leftmost_eq (Fintype.card ι) g.id hbelow (fun f hf => hside f (by simp [hf]))
    (by omega) htmp
  rw [hp'] at hwalk
  rw [unhook, hgl, htmp]
  dsimp only
  rw [hwalk]
  dsimp only [bind, Option.bind]
  rw [hsr]

lemma unhook_below
    (hs : Sound compute h ((path ++ [g]) ++ ⟨.right, c, i, x⟩ :: ctx) (.node cs .nil succ c₂))
    (hside : ∀ f ∈ path ++ [g], f.side = .left) :
    ∃ w p, h.unhook (declareCallbacks compute) i g.id = some ⟨w, succ, p, c₂.root⟩ ∧
      Unhooks compute h i ctx (path ++ [g]) c x succ c₂ w p := by
  have hp := hs.placed
  have hnd := hp.successor_nodup
  obtain ⟨p, hpath⟩ : ∃ p, above (path ++ [g]) = some p := by
    cases path <;> exact ⟨_, rfl⟩
  have habove : ∀ rest, above ((path ++ [g]) ++ rest) = some p := fun rest => by
    rw [above_append, hpath]
    rfl
  have hstore : h.store (hole ((path ++ [g]) ++ ⟨.right, c, i, x⟩ :: ctx)) c₂.root =
      h.setChild p .left c₂.root := by
    cases path with
    | nil =>
      obtain rfl := Option.some.inj hpath
      exact congrArg (h.setChild g.id · c₂.root) (hside g (by simp))
    | cons f fs =>
      obtain rfl := Option.some.inj hpath
      exact congrArg (h.setChild f.id · c₂.root) (hside f (by simp))
  have hpmem := above_mem hpath
  obtain ⟨hir, -⟩ := (Heap.stores_make.mp (placed_cons.mp (placed_append.mp hp)).tree).2
  have hiright : (h.setChild p .left c₂.root).child i .right = some g.id := by
    rw [child_setChild_of_ne (by grind)]
    exact hir.trans (by rw [fill_append, fill, fill, root_make])
  -- The heap before the values are recomputed.
  obtain ⟨w, hw⟩ : ∃ w, w = (((h.setChild p .left c₂.root).setChild succ .right
    (some g.id)).setParent g.id (some succ)).setAug succ (h.aug i) := ⟨_, rfl⟩
  have hwchild : ∀ z, z ≠ succ → w.child z = (h.setChild p .left c₂.root).child z := fun z hz => by
    rw [hw]
    exact child_setChild_of_ne hz
  have hwpc : ∀ z, w.pc z = if z = g.id then (some succ, (h.pc z).2) else h.pc z := fun z => by
    rw [hw]
    by_cases hz : z = g.id
    · rw [if_pos hz, hz]
      exact update_self ..
    · rw [if_neg hz]
      exact update_of_ne hz _ _
  have hwaug : ∀ z, z ≠ succ → w.aug z = h.aug z := fun z hz => by
    rw [hw]
    exact update_of_ne hz _ _
  have hcorrect := correct_fill.mpr (correct_append.mp hs.correct).tree
  have hvalued : Valued compute w.aug c₂ := hcorrect.tree.2.2.congr fun z hz => hwaug z (by grind)
  have hstale := hcorrect.context.stale.congr fun z hz => hwaug z (by grind)
  obtain ⟨aug, hrun, hright, hsame⟩ := propagateLoop_correct (Fintype.card ι + 1)
    (Nat.lt_succ_of_le (Nat.le_trans (by simp) hp.length_le))
    (hp.unhook_climbs (fun z hz => (hwchild z hz).trans (by rw [hstore])) hwpc) (by grind)
    (fun z hz heq => by
      obtain rfl := Option.some.inj heq
      grind) hvalued hstale
  rw [habove] at hrun
  refine ⟨{ w with aug := aug }, p, ?_, habove _, ?_, fun z hzi hz => ?_, ?_, fun z hz => ?_,
    hright, ?_, fun z hz hzs => (hsame z hz).trans (hwaug z hzs)⟩
  · rw [hp.unhook_eq _ hside hpath]
    rw [hw] at hrun ⊢
    exact congrArg (Option.bind · fun w => some (Unhooked.mk w succ p c₂.root)) hrun
  · rw [hw]
    rfl
  · rw [hstore]
    exact hwchild z hz
  · rw [hstore, hiright, hw]
    exact (child_setChild ..).trans (if_pos ⟨rfl, rfl⟩)
  · rw [hstore, hiright]
    simpa [eq_comm] using hwpc z
  · refine (hsame succ (by grind)).trans ?_
    rw [hw]
    exact update_self ..

omit [DecidableEq α] [Fintype ι] in
lemma Unhooks.place (hw : Unhooks compute h i ctx path c x succ c₂ w p)
    (hp : Placed h (path ++ ⟨.right, c, i, x⟩ :: ctx) (.node cs .nil succ c₂)) :
    w.Surrounds ctx (some i) ∧ w.pc i = (above ctx, c) ∧ w.color succ = cs := by
  have hnd := hp.successor_nodup
  have hnode := placed_cons.mp (placed_append.mp hp)
  obtain ⟨hipc, hir, -⟩ := Heap.stores_make.mp hnode.tree
  have hctx := hnode.context
  have habove : ∀ z, above (path ++ ⟨.right, c, i, x⟩ :: ctx) = some z → z ∈ i :: names path :=
    fun z hz => by
    cases path with
    | nil => exact mem_cons.mpr (.inl (Option.some.inj hz).symm)
    | cons f fs =>
      have hmem : z ∈ names (f :: fs) := above_mem hz
      exact mem_cons_of_mem _ hmem
  have hkid : ∀ z, (h.store (hole (path ++ ⟨.right, c, i, x⟩ :: ctx)) c₂.root).child i .right =
      some z → z ∈ names path ++ c₂.inorder := fun z hz => by
    cases path with
    | nil => exact root_mem (((child_setChild ..).trans (if_pos ⟨rfl, rfl⟩)).symm.trans hz)
    | cons f fs =>
      have hi : (h.setChild f.id f.side c₂.root).child i .right = h.child i .right :=
        congrFun (child_setChild_of_ne (by grind [names])) _
      exact mem_append_left _ (root_fill_mem (hir.symm.trans (hi.symm.trans hz)))
  have hc₂ : ∀ z, c₂.root = some z → z ∈ c₂.inorder := fun _ => root_mem
  have hpc : ∀ z, z ∉ names path → z ∉ c₂.inorder → w.pc z = h.pc z := fun z hz hz' => by
    rw [hw.pc_eq z fun heq => hz' (hc₂ z heq)]
    grind
  refine ⟨hctx.congr hw.root_eq fun z hz => ⟨hpc z (by grind) (by grind), ?_⟩, ?_, ?_⟩
  · rw [hw.child_eq z (by grind) (by grind)]
    exact child_store_of_ne fun heq => by
      grind
  · exact (hpc i (by grind) (by grind)).trans hipc
  · obtain ⟨hspc, -⟩ := hp.tree
    rw [Heap.color, hpc succ (by grind) (by grind), hspc]

lemma unhook_correct {y : ι}
    (hs : Sound compute h (path ++ ⟨.right, c, i, x⟩ :: ctx) (.node cs .nil succ c₂))
    (hside : ∀ f ∈ path, f.side = .left) (hy : (fill path (.node cs .nil succ c₂)).root = some y) :
    ∃ w p, h.unhook (declareCallbacks compute) i y = some ⟨w, succ, p, c₂.root⟩ ∧
      Unhooks compute h i ctx path c x succ c₂ w p := by
  rcases eq_nil_or_concat path with rfl | ⟨path, g, rfl⟩
  · obtain rfl := Option.some.inj hy
    exact ⟨_, _, unhook_here hs⟩
  · rw [concat_eq_append] at hs hside hy ⊢
    rw [fill_append, fill, fill, root_make] at hy
    obtain rfl := Option.some.inj hy
    exact unhook_below hs hside

end Callbacks

end Mini2440.Rbtree
