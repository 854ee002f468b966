import Mini2440.Rbtree.Values

/-!
# Insertion

The loop of `__rb_insert` keeps a tree in a context: a red tree in a hole that accepts a black one
of the same black height. If the node above the hole is red too, either the colours are flipped
and the hole moves up two levels, or one or two rotations end the loop. In the double rotation the
first half leaves fields behind that the second half overwrites, so the heap is the same as after
two complete rotations.
-/

namespace Mini2440.Rbtree

open List Function Library ColorTree

variable {ι α : Type} {compute : ι → Option α → Option α → α} {h : Heap ι α} {s : Side}
  {c c' : Color} {a b d t u : ColorTree ι} {i n o p g j : ι} {q r : Option ι}
  {ctx fs : List (Frame ι)} {k : Nat}

namespace Heap

/-! ## The rotations of the source -/

lemma Stores.color (ht : h.Stores r t) (hb : Balanced c k t)
    (hi : t.root = some i) : h.color i = c := by
  cases hb with
  | nil => simp [ColorTree.root] at hi
  | _ =>
    obtain rfl := Option.some.inj hi
    rw [Heap.color, ht.1]

variable [DecidableEq ι]

lemma setParentColorOf_eq (hq : ∀ i, q = some i → h.color i = c) :
    h.setParentColorOf q p c = h.setParentOf q p := by
  cases q with
  | none => rfl
  | some i => rw [setParentColorOf, setParentOf, setParent, setParentColor, hq i rfl]

/-- Case 3 is a rotation. -/
lemma rotateGrandparent_eq (rotate : Heap ι α → ι → ι → Heap ι α)
    (hq : ∀ i, h.child p s.other = some i → h.color i = .black) :
    h.rotateGrandparent rotate s g p = rotate (h.turn s g p .red) g p := by
  unfold rotateGrandparent turn
  dsimp only
  rw [setParentColorOf_eq (h := (h.setChild g s (h.child p s.other)).setChild p s.other (some g))
    hq]

lemma setPc_setPc (h : Heap ι α) (v w : Option ι × Color) :
    (h.setPc i v).setPc i w = h.setPc i w := by
  simp [setPc]

lemma setPc_comm (h : Heap ι α) {i : ι} (hij : i ≠ j) (v w : Option ι × Color) :
    (h.setPc i v).setPc j w = (h.setPc j w).setPc i v := by
  simp [setPc, update_comm hij]

lemma setParentOf_setPc (hq : q ≠ some n) (v : Option ι × Color) :
    (h.setPc n v).setParentOf q o = (h.setParentOf q o).setPc n v := by
  cases q with
  | none => rfl
  | some i =>
    have hin : i ≠ n := fun heq => hq (congrArg some heq)
    have hcolor : (h.setPc n v).color i = h.color i := congrArg Prod.snd (update_of_ne hin _ _)
    rw [setParentOf, setParent, hcolor, setPc_comm h hin.symm]
    rfl

lemma rotateSetParents_setPc (hno : n ≠ o) (v : Option ι × Color) :
    (h.setPc n v).rotateSetParents o n c = h.rotateSetParents o n c := by
  have hpc : (h.setPc n v).pc o = h.pc o := update_of_ne hno.symm _ _
  simp [rotateSetParents, parent, hpc, setPc_setPc]

lemma turn_setPc (hno : n ≠ o) (htmp : h.child n s.other ≠ some n)
    (v : Option ι × Color) : (h.setPc n v).turn s o n c = h.turn s o n c := by
  have hmid : ((h.setPc n v).setChild o s (h.child n s.other)).setChild n s.other (some o) =
      ((h.setChild o s (h.child n s.other)).setChild n s.other (some o)).setPc n v := rfl
  unfold turn
  dsimp only
  rw [show (h.setPc n v).child n s.other = h.child n s.other from rfl, hmid,
    setParentOf_setPc htmp, rotateSetParents_setPc hno]

lemma turn_setChild (hno : n ≠ o) :
    (h.setChild o s q).turn s o n c = h.turn s o n c := by
  have hchild : (h.setChild o s q).child n s.other = h.child n s.other :=
    congrFun (child_setChild_of_ne hno) _
  have hset : (h.setChild o s q).setChild o s (h.child n s.other) =
      h.setChild o s (h.child n s.other) := by
    simp [setChild]
  unfold turn
  dsimp only
  rw [hchild, hset]

def halfTurn (h : Heap ι α) (s : Side) (parent node : ι) : Heap ι α :=
  (((h.setChild parent s.other (h.child node s)).setChild node s (some parent)).setParentColorOf
    (h.child node s) parent .black).setParentColor parent (some node) .red

lemma rotateParent_eq (rotate : Heap ι α → ι → ι → Heap ι α) :
    h.rotateParent rotate s p n = rotate (h.halfTurn s p n) p n := rfl

@[simp] lemma child_setParentColorOf :
    (h.setParentColorOf r p c).child = h.child := by
  cases r <;> rfl

@[simp] lemma aug_setParentColorOf :
    (h.setParentColorOf r p c).aug = h.aug := by
  cases r <;> rfl

@[simp] lemma root_setParentColorOf :
    (h.setParentColorOf r p c).root = h.root := by
  cases r <;> rfl

lemma pc_setParentColorOf (x : ι) :
    (h.setParentColorOf r p c).pc x = if r = some x then (some p, c) else h.pc x := by
  cases r with
  | none => rfl
  | some i =>
    by_cases hx : x = i
    · subst hx
      simp [setParentColorOf, setParentColor, setPc]
    · simp [setParentColorOf, setParentColor, setPc, hx, Ne.symm hx]

end Heap

open Heap

/-! ## What the loop reads -/

lemma Placed.side_eq [DecidableEq ι] (hp : Placed h fs (make c s t g u))
    (hi : t.root = some i ∨ u.root = some i) :
    (if t.root ≠ h.child g .right then Side.left else .right) = s := by
  obtain ⟨-, hc, ho, -, -⟩ := Heap.stores_make.mp hp.tree
  have hnd := (inorder_make_perm.append_left _).nodup_iff.mp hp.nodup
  cases s with
  | left =>
    refine if_pos fun heq => ?_
    have hroot := heq.trans ho
    rw [hroot, or_self] at hi
    have hiu := root_mem hi
    have hit := root_mem (hroot.trans hi)
    grind
  | right => exact if_neg (by simpa using hc.symm)

lemma redChild_of_red (ht : h.Stores r t) (hb : Balanced .red k t)
    (hc : h.child i s = t.root) : ∃ j, t.root = some j ∧ h.redChild i s = some j := by
  obtain ⟨a, j, b, rfl, -, -⟩ := hb.red_parts .left
  refine ⟨j, rfl, ?_⟩
  rw [redChild, hc]
  simp [ht.color hb rfl]

lemma redChild_of_black (ht : h.Stores r t) (hb : Balanced .black k t)
    (hc : h.child i s = t.root) : h.redChild i s = none := by
  rw [redChild, hc]
  cases hr : t.root with
  | none => rfl
  | some j => simp [ht.color hb hr]

/-- The heap stands for a red-black tree with the sequence, and the values are right. -/
def Fixed (compute : ι → Option α → Option α → α) (h : Heap ι α) (seq : List ι) : Prop :=
  ∃ t m, Sound compute h [] t ∧ Balanced .black m t ∧ t.inorder = seq

lemma Fixed.of_context (hs : Sound compute h ctx t) (hacc : Accepts ctx c k)
    (hb : Balanced c k t) : Fixed compute h (fill ctx t).inorder := by
  obtain ⟨m, hm⟩ := hacc.fill hb
  exact ⟨_, m, sound_fill.mp hs, hm, rfl⟩

lemma Fixed.congr_compute {compute' : ι → Option α → Option α → α} {seq : List ι}
    (hfix : Fixed compute h seq) (hsame : ∀ x ∈ seq, compute' x = compute x) :
    Fixed compute' h seq := by
  obtain ⟨t, m, ⟨hp, hv, -⟩, hb, rfl⟩ := hfix
  exact ⟨t, m, ⟨hp, hv.congr_compute hsame, trivial⟩, hb, rfl⟩

lemma Placed.length_le [Fintype ι] (hp : Placed h ctx t) : ctx.length ≤ Fintype.card ι :=
  (length_le_names).trans ((nodup_append.mp hp.nodup).1.length_le_card)

/-- The link is a null pointer of the tree, and `parent` the node that it belongs to. -/
def AtLeaf (h : Heap ι α) (t : ColorTree ι) (parent : Option ι) (link : Link ι) : Prop :=
  h.load link = none ∧ (link = .root ∧ parent = none ∨
    ∃ p ∈ t.inorder, ∃ s, link = .child p s ∧ parent = some p)

lemma AtLeaf.context {link : Link ι} (hp : Placed h [] t) (hleaf : AtLeaf h t q link) :
    ∃ ctx, t = fill ctx .nil ∧ link = hole ctx ∧ q = above ctx := by
  obtain ⟨hnull, ⟨rfl, rfl⟩ | ⟨p, hmem, s, rfl, rfl⟩⟩ := hleaf
  · have hroot : t.root = none := hp.context.symm.trans hnull
    exact ⟨[], root_eq_none.mp hroot, rfl, rfl⟩
  · obtain ⟨ctx, c, l, r, rfl⟩ := exists_context hmem
    obtain ⟨a, b, hmake⟩ := node_eq_make s c l p r
    rw [hmake] at hp ⊢
    obtain ⟨-, hc, -⟩ := Heap.stores_make.mp (placed_fill.mpr hp).tree
    obtain rfl := root_eq_none.mp (hc.symm.trans hnull)
    exact ⟨⟨s, c, p, b⟩ :: ctx, rfl, rfl, rfl⟩

/-! ## Values that say nothing -/

lemma valued_unit (compute : ι → Option Unit → Option Unit → Unit) (aug : ι → Unit) :
    Valued compute aug t := by
  induction t with
  | nil => trivial
  | node c l i r ihl ihr => exact ⟨rfl, ihl, ihr⟩

lemma Placed.sound {h : Heap ι Unit} (hp : Placed h [] t) : Sound (fun _ _ _ => ()) h [] t :=
  ⟨hp, valued_unit _ _, trivial⟩

lemma ofSequence_unit : OfSequence fun (_ : ι) (_ _ : Option Unit) => () := by
  intro t t' h
  cases t <;> cases t' <;> simp_all [inorder, value]

/-! ## The rotations of the tree -/

variable [DecidableEq ι] {s' : Side}

/-- Case 2 is a rotation, but for two fields. -/
lemma Placed.halfTurn_eq
    (hp : Placed h (⟨s, c, g, u⟩ :: fs) (make .red s.other (make c' s.other a n d) p b))
    (hd : ∀ i, d.root = some i → h.color i = .black) :
    h.turn s.other p n .red =
      ((h.halfTurn s p n).setChild g s (some n)).setPc n (some g, .red) := by
  obtain ⟨-, -, -, hn, -⟩ := Heap.stores_make.mp hp.tree
  obtain ⟨-, -, hno, -, -⟩ := Heap.stores_make.mp hn
  rw [Side.other_other] at hno
  have hnd := hp.turn_nodup
  rw [hp.turn_eq, Side.other_other, halfTurn, hno]
  refine Heap.ext ?_ ?_ (funext fun x => ?_) ?_
  · simp only [setPc, setParentColor, root_setParentColorOf]
    rfl
  · simp only [setPc, setParentColor, child_setParentColorOf]
    rfl
  · simp only [setPc, setChild, setParentColor, pc_setParentColorOf, update_apply, above]
    grind [Heap.color]
  · simp only [setPc, setParentColor, aug_setParentColorOf]
    rfl

/-! ## One round -/

/-- Case 1: the colours are flipped. -/
lemma Sound.flip (hs : Sound compute h (⟨s', .red, p, b⟩ :: ⟨s, .black, g, u⟩ :: fs) t)
    (hj : u.root = some j) :
    Sound compute (((h.setPc j (some g, .black)).setPc p (some g, .black)).setPc g
      (above fs, .red)) fs (make .red s (make .black s' t p b) g (u.paint .black)) := by
  have hu := sound_swap.mp (sound_cons.mp hs)
  have hp := sound_swap.mpr (hu.paint hj .black)
  have hg := sound_cons.mp (hp.paint root_make .black)
  have := hg.paint root_make .red
  rwa [paint_make, paint_make] at this

lemma Sound.insertLoop_red (rotate : Heap ι α → ι → ι → Heap ι α)
    (hs : Sound compute h (⟨s', .red, p, b⟩ :: ⟨s, c, g, u⟩ :: fs) t) (fuel : Nat) :
    h.insertLoop rotate (fuel + 1) n (some p) =
      match h.redChild g s.other with
      | some tmp =>
        (((h.setPc tmp (some g, .black)).setPc p (some g, .black)).setPc g
          (((h.setPc tmp (some g, .black)).setPc p (some g, .black)).parent g, .red)).insertLoop
            rotate fuel g (((h.setPc tmp (some g, .black)).setPc p (some g, .black)).parent g)
      | none =>
        if h.child p s.other = some n then
          some ((h.rotateParent rotate s p n).rotateGrandparent rotate s g n)
        else some (h.rotateGrandparent rotate s g p) := by
  have hg := (sound_cons.mp hs).placed
  obtain ⟨hpc, -, -, -, -⟩ := Heap.stores_make.mp hg.tree
  have hside := (placed_cons.mp hg).side_eq (.inl root_make)
  rw [root_make] at hside
  have hcolor : h.color p = .red := congrArg Prod.snd hpc
  have hparent : h.parent p = some g := congrArg Prod.fst hpc
  rw [insertLoop, if_neg (by simp [hcolor]), hparent]
  refine (Option.bind_some _ _).trans ?_
  rw [hside]
  rfl

section Callbacks

variable [DecidableEq α] [Fintype ι]

lemma rotate_frame (hgp : p ≠ g) (v : Option ι × Color) :
    (declareCallbacks compute).rotate ((h.setChild g s q).setPc n v) p o =
      (((declareCallbacks compute).rotate h p o).setChild g s q).setPc n v := by
  have hchild : ∀ s', (h.setChild g s q).child p s' = h.child p s' := fun s' =>
    congrFun (child_setChild_of_ne hgp) s'
  simp only [declareCallbacks, recompute, setAug, setPc, hchild]
  rfl

/-- Cases 2 and 3 together are two rotations. -/
lemma Sound.double (hseq : OfSequence compute)
    (hs : Sound compute h fs (make c s (make .red s.other (make c' s.other a n d) p b) g u))
    (ha : ∀ i, a.root = some i → h.color i = .black)
    (hd : ∀ i, d.root = some i → h.color i = .black) :
    Sound compute ((h.rotateParent (declareCallbacks compute).rotate s p n).rotateGrandparent
      (declareCallbacks compute).rotate s g n) fs
      (make c s (make .red s.other d p b) n (make .red s a g u)) := by
  have hs' : Sound compute h (⟨s, c, g, u⟩ :: fs)
    (make .red s.other (make c' s.other a n d) p b) := sound_cons.mpr hs
  have hfirst := hs'.turn hseq .red
  have hnd := hs'.placed.turn_nodup
  rw [hs'.placed.halfTurn_eq hd, rotate_frame (by grind [names])] at hfirst
  have hsecond := sound_cons.mp hfirst
  rw [make_other (a := a)] at hsecond
  have hthird := hsecond.turn hseq .red
  have hng : n ≠ g := by grind [names]
  have hchild : ((declareCallbacks compute).rotate (h.halfTurn s p n) p n).child n s.other =
      a.root := by
    obtain ⟨-, -, -, hlow, -⟩ := Heap.stores_make.mp hsecond.placed.tree
    obtain ⟨-, -, ha', -, -⟩ := Heap.stores_make.mp hlow
    rw [← ha']
    exact (congrFun (child_setChild_of_ne hng) _).symm
  have han : a.root = some n → n ∈ a.inorder := root_mem
  rw [turn_setPc hng (by rw [child_setChild_of_ne hng]; grind), turn_setChild hng] at hthird
  rw [rotateParent_eq, rotateGrandparent_eq _ fun i hi => ?_]
  · exact hthird
  · rw [hchild] at hi
    have hia := root_mem hi
    have hid : d.root = some i → i ∈ d.inorder := root_mem
    rw [← ha i hi]
    refine congrArg Prod.snd (?_ : (h.halfTurn s p n).pc i = h.pc i)
    obtain ⟨-, -, -, hn, -⟩ := Heap.stores_make.mp hs'.placed.tree
    obtain ⟨-, -, hno, -, -⟩ := Heap.stores_make.mp hn
    rw [Side.other_other] at hno
    rw [halfTurn, setParentColor, setPc]
    dsimp only
    rw [update_of_ne (by grind), pc_setParentColorOf, if_neg (by grind)]
    rfl

/-! ## The loop -/

lemma insertLoop_fixed (hseq : OfSequence compute) (fuel : Nat) {ctx : List (Frame ι)}
    (hfuel : ctx.length < fuel) (hs : Sound compute h ctx t) (hn : t.root = some n)
    (hb : Balanced .red k t) (hacc : Accepts ctx .black k) :
    ∃ h', h.insertLoop (declareCallbacks compute).rotate fuel n (above ctx) = some h' ∧
      Fixed compute h' (fill ctx t).inorder := by
  induction fuel generalizing h t ctx n k with
  | zero => omega
  | succ fuel ih =>
    cases hacc with
    | root =>
      refine ⟨_, rfl, ?_⟩
      have := Fixed.of_context (hs.paint hn .black) .root hb.paint_black
      rwa [fill, inorder_paint] at this
    | @black s p b fs c' _ _ hbal hup =>
      refine ⟨h, ?_, Fixed.of_context hs (.black hbal hup) hb⟩
      obtain ⟨hpc, -⟩ := hs.placed.context
      exact if_pos (congrArg Prod.snd hpc)
    | @red s' p b fs _ hbal hup =>
      cases hup with
      | @black s g u fs cu _ _ hbu hup =>
        have hg := (sound_cons.mp hs)
        have hroot := (sound_cons.mp hg)
        obtain ⟨hgc, -, hgu, hP, hu⟩ := Heap.stores_make.mp hroot.placed.tree
        obtain ⟨-, -, hpb, ht, hbs⟩ := Heap.stores_make.mp hP
        rw [above, hs.insertLoop_red]
        cases cu with
        | red =>
          obtain ⟨j, hj, hred⟩ := redChild_of_red hu hbu hgu
          have hflip := hs.flip hj
          have hparent : ((h.setPc j (some g, .black)).setPc p (some g, .black)).parent g =
              above fs := by
            have hnd := (inorder_make_perm.append_left _).nodup_iff.mp hroot.placed.nodup
            have hju := root_mem hj
            have hpP : p ∈ (make .red s' t p b).inorder := mem_make.mpr (.inl rfl)
            refine congrArg Prod.fst (Eq.trans ?_ hgc)
            exact (update_of_ne (by grind) _ _).trans (update_of_ne (by grind) _ _)
          rw [hred]
          dsimp only
          rw [hparent]
          obtain ⟨h', hrun, hfixed⟩ := ih (by grind) hflip root_make
            (hb.make_black hbal |>.make_red hbu.paint_black) hup
          refine ⟨h', hrun, ?_⟩
          rwa [inorder_fill_congr (inorder_make_congr (inorder_make_congr rfl rfl) inorder_paint)]
            at hfixed
        | black =>
          rw [redChild_of_black hu hbu hgu]
          rcases s.eq_or_eq_other s' with rfl | rfl
          · -- The node is on the outer side: one rotation.
            have hne : h.child p s'.other ≠ some n := fun heq => by
              have hnd := (inorder_make_perm.append_left _).nodup_iff.mp hg.placed.nodup
              have hnb := root_mem (hpb.symm.trans heq)
              have hnt := root_mem hn
              grind
            rw [if_neg hne, rotateGrandparent_eq _ fun i hi => hbs.color hbal (hpb.symm.trans hi)]
            refine ⟨_, rfl, ?_⟩
            have := Fixed.of_context (hroot.turn hseq .red) hup (hb.make_black (hbal.make_red hbu))
            rwa [inorder_fill_congr (inorder_rotate .black .red .black .red)] at this
          · -- The node is on the inner side: two rotations.
            obtain ⟨a, n', d, rfl, ha, hd⟩ := hb.red_parts s.other
            obtain rfl : n' = n := by simpa using hn
            obtain ⟨-, -, -, hsa, hsd⟩ := Heap.stores_make.mp ht
            have hin : h.child p s.other = some n' := by
              obtain ⟨-, hin, -, -, -⟩ := Heap.stores_make.mp hP
              rw [hin, root_make]
            rw [if_pos hin]
            refine ⟨_, rfl, ?_⟩
            have := Fixed.of_context (hroot.double hseq (fun i hi => hsa.color ha hi)
              fun i hi => hsd.color hd hi) hup ((hd.make_red hbal).make_black (ha.make_red hbu))
            rwa [inorder_fill_congr (inorder_rotate_twice _ _ _ .black .red .red)] at this

lemma rbInsertAugmented_fixed (hseq : OfSequence compute)
    (hs : Sound compute h ctx (.node .red .nil n .nil)) (hacc : Accepts ctx .black 0) :
    ∃ h', h.rbInsertAugmented (declareCallbacks compute) n = some h' ∧
      Fixed compute h' (fill ctx (.node .red .nil n .nil)).inorder := by
  obtain ⟨hpc, -⟩ := hs.placed.tree
  obtain ⟨h', hrun, hfixed⟩ := insertLoop_fixed hseq (Fintype.card ι + 1)
    (Nat.lt_succ_of_le hs.placed.length_le) hs rfl (.red .nil .nil) hacc
  refine ⟨h', ?_, hfixed⟩
  have hred : h.redParent n = some (above ctx) := by
    rw [redParent, if_pos (show h.color n = .red from congrArg Prod.snd hpc), Heap.parent, hpc]
  rw [rbInsertAugmented, rbInsert, hred]
  exact hrun

end Callbacks

/-! ## Linking a node -/

lemma Placed.link (hp : Placed h ctx .nil) (hn : n ∉ names ctx) :
    Placed (h.rbLinkNode n (above ctx) (hole ctx)) ctx (.node .red .nil n .nil) := by
  have hne : some n ≠ above ctx := fun heq => hn (above_mem heq.symm)
  have hnd := hp.nodup
  rw [inorder, append_nil] at hnd
  refine ⟨⟨?_, ?_, ?_, trivial, trivial⟩, ?_, ?_⟩
  · rw [rbLinkNode, pc_store]
    exact update_self ..
  · rw [rbLinkNode, child_store_of_ne hne, child_setChild, if_neg (by simp), child_setChild,
      if_pos ⟨rfl, rfl⟩]
    rfl
  · rw [rbLinkNode, child_store_of_ne hne, child_setChild, if_pos ⟨rfl, rfl⟩]
    rfl
  · have hfields : (((h.setPc n (above ctx, .red)).setChild n .left none).setChild n .right
        none).Surrounds ctx none := by
      refine hp.context.congr rfl fun x hx => ?_
      have hxn : x ≠ n := ne_of_mem_of_not_mem hx hn
      exact ⟨update_of_ne hxn _ _, (child_setChild_of_ne hxn).trans (child_setChild_of_ne hxn)⟩
    exact hfields.store hnd (some n)
  · simp only [inorder]
    grind

/-! ## Trees without augmented values -/

lemma filter_middle {pre post : List ι} (hnd : (pre ++ i :: post).Nodup) :
    (pre ++ i :: post).filter (· ≠ i) = pre ++ post := by
  have hkeep : ∀ x ∈ pre ++ post, decide (x ≠ i) := fun x hx => by
    have : x ≠ i := by grind
    exact decide_eq_true this
  rw [filter_append, filter_cons_of_neg (by simp),
    filter_eq_self.mpr fun x hx => hkeep x (mem_append_left _ hx),
    filter_eq_self.mpr fun x hx => hkeep x (mem_append_right _ hx)]

lemma dummy_rotate_eq [Fintype ι] :
    (dummyCallbacks : Callbacks ι Unit).rotate = (declareCallbacks fun _ _ _ => ()).rotate := by
  funext h old new
  exact Heap.ext rfl rfl rfl (funext fun _ => rfl)

/-- The heap holds a red-black tree with a black root and consistent parent pointers. -/
def IsRedBlack (h : Heap ι α) (t : ColorTree ι) : Prop := Placed h [] t ∧ ∃ m, Balanced .black m t

/-- `rb_link_node` at the hole of a context and `rb_insert_color`. -/
lemma IsRedBlack.insertColor [Fintype ι] {h : Heap ι Unit} (hvalid : IsRedBlack h (fill ctx .nil))
    (hnew : n ∉ (fill ctx .nil).inorder) :
    Placed (h.rbLinkNode n (above ctx) (hole ctx)) [] (fill ctx (.node .red .nil n .nil)) ∧
      ∃ h₂ t₂, (h.rbLinkNode n (above ctx) (hole ctx)).rbInsertColor n = some h₂ ∧
        IsRedBlack h₂ t₂ ∧ t₂.inorder = (fill ctx (.node .red .nil n .nil)).inorder := by
  obtain ⟨hp, m, hb⟩ := hvalid
  obtain ⟨c, k, hnil, hacc⟩ := accepts_of_fill hb
  cases hnil
  have hhole := placed_fill.mpr hp
  have hout : n ∉ names ctx := fun hmem =>
    hnew ((inorder_fill_perm ctx .nil).mem_iff.mpr (mem_append_left _ hmem))
  have hlink := placed_fill.mp (hhole.link hout)
  obtain ⟨h₂, hrun, t₂, m₂, hs, hb₂, hseq⟩ := rbInsertAugmented_fixed ofSequence_unit
    (sound_fill.mpr hlink.sound) hacc
  refine ⟨hlink, h₂, t₂, ?_, ⟨hs.placed, m₂, hb₂⟩, hseq⟩
  exact hrun

/-- `rb_link_node` at a leaf and `rb_insert_color` give a red-black tree again, with the sequence
that the linked tree has. -/
theorem insert_redBlack [Fintype ι] (h : Heap ι Unit) (t : ColorTree ι) (hvalid : IsRedBlack h t)
    (node : ι) (hnew : node ∉ t.inorder) (parent : Option ι) (link : Link ι)
    (hleaf : AtLeaf h t parent link) :
    ∃ t₁ h₂ t₂, Placed (h.rbLinkNode node parent link) [] t₁ ∧
      (h.rbLinkNode node parent link).rbInsertColor node = some h₂ ∧ IsRedBlack h₂ t₂ ∧
      t₂.inorder = t₁.inorder ∧ node ∈ t₁.inorder ∧
      t₁.inorder.filter (· ≠ node) = t.inorder := by
  obtain ⟨ctx, rfl, rfl, rfl⟩ := hleaf.context hvalid.1
  obtain ⟨hlink, h₂, t₂, hrun, hred, hseq⟩ := hvalid.insertColor hnew
  obtain ⟨pre, post, hfill⟩ := inorder_fill ctx
  have hseq₁ : (fill ctx (.node .red .nil node .nil)).inorder = pre ++ node :: post := by
    rw [hfill]
    simp [inorder]
  refine ⟨_, h₂, t₂, hlink, hrun, hred, hseq, ?_, ?_⟩
  · simp [hseq₁]
  · rw [hseq₁, filter_middle (hseq₁ ▸ hlink.nodup), hfill, inorder, append_nil]

def chain : Heap (Fin 6) Unit where
  root := some 0
  child i s := if i = 0 ∧ s = .right then some 1 else none
  pc i := if i = 1 then (some 0, .red) else (none, .black)
  aug _ := ()

lemma chain_valid {α : Type} (aug : Fin 6 → α) : IsRedBlack { chain with aug := aug }
    (.node .black .nil 0 (.node .red .nil 1 .nil)) :=
  ⟨⟨⟨rfl, rfl, rfl, trivial, rfl, rfl, rfl, trivial, trivial⟩, rfl, by decide⟩, 1,
    .black .nil (.red .nil .nil)⟩

/-- A third node at the end of the chain makes the middle one the root. -/
theorem chain_insert : ∃ h₂ t₂, (chain.rbLinkNode 2 (some 1) (.child 1 .right)).rbInsertColor 2 =
    some h₂ ∧ IsRedBlack h₂ t₂ ∧ 2 ∈ t₂.inorder := by
  obtain ⟨t₁, h₂, t₂, -, hrun, hred, hseq, hmem, -⟩ := insert_redBlack chain _ (chain_valid _) 2
    (by decide) (some 1) (.child 1 .right) ⟨rfl, .inr ⟨1, by decide, .right, rfl, rfl⟩⟩
  exact ⟨h₂, t₂, hrun, hred, hseq ▸ hmem⟩

end Mini2440.Rbtree
