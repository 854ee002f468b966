import Mini2440.Rbtree.Heap

/-!
# What a heap stands for

`Placed h ctx t` says that the nodes of the heap form the tree `t` in the hole of the context
`ctx`, with the right parent pointers and colours, each node in one place only. The lemmas say
what a change of the heap does to the tree. The rotations of the source, which write the fields
in different orders, come down to one operation, `turn`.
-/

namespace Mini2440.Rbtree

open Function Library ColorTree

variable {ι α : Type} {h h' : Heap ι α} {p p' q : Option ι} {s : Side} {c c' : Color}
  {a b d t : ColorTree ι} {i j n o : ι} {f : Frame ι} {fs ctx : List (Frame ι)}

namespace Heap

/-- The tree is in the heap, below the node `p`. -/
def Stores (h : Heap ι α) (p : Option ι) : ColorTree ι → Prop
  | .nil => True
  | .node c l i r => h.pc i = (p, c) ∧ h.child i .left = l.root ∧ h.child i .right = r.root ∧
    h.Stores (some i) l ∧ h.Stores (some i) r

/-- The context is in the heap, with the pointer `q` in the hole. -/
def Surrounds (h : Heap ι α) : List (Frame ι) → Option ι → Prop
  | [], q => h.root = q
  | f :: fs, q => h.pc f.id = (above fs, f.color) ∧ h.child f.id f.side = q ∧
    h.child f.id f.side.other = f.sib.root ∧ h.Stores (some f.id) f.sib ∧
    h.Surrounds fs (some f.id)

end Heap

structure Placed (h : Heap ι α) (ctx : List (Frame ι)) (t : ColorTree ι) : Prop where
  tree : h.Stores (above ctx) t
  context : h.Surrounds ctx t.root
  nodup : (names ctx ++ t.inorder).Nodup

namespace Heap

lemma stores_make : h.Stores p (make c s a i b) ↔ h.pc i = (p, c) ∧ h.child i s = a.root ∧
    h.child i s.other = b.root ∧ h.Stores (some i) a ∧ h.Stores (some i) b := by
  cases s
  · rfl
  · simp only [make, Stores, Side.other]
    grind

lemma Stores.congr (ht : h.Stores p t)
    (hag : ∀ x ∈ t.inorder, h'.pc x = h.pc x ∧ h'.child x = h.child x) : h'.Stores p t := by
  induction t generalizing p with
  | nil => trivial
  | node c l i r ihl ihr =>
    obtain ⟨hpc, hl, hr, htl, htr⟩ := ht
    obtain ⟨hpc', hchild⟩ := hag i (by simp [inorder])
    exact ⟨hpc'.trans hpc, hchild ▸ hl, hchild ▸ hr,
      ihl htl fun x hx => hag x (by simp [inorder, hx]),
      ihr htr fun x hx => hag x (by simp [inorder, hx])⟩

section

variable (ht : h.Stores p t) (hnd : t.inorder.Nodup)
  (hchild : ∀ x ∈ t.inorder, h'.child x = h.child x)
  (hpc : ∀ x ∈ t.inorder, t.root ≠ some x → h'.pc x = h.pc x)

include ht hnd hchild hpc

/-- A tree is moved below another node by changing its root. -/
lemma Stores.move (hroot : ∀ x, t.root = some x → h'.pc x = (p', c)) :
    h'.Stores p' (t.paint c) := by
  cases t with
  | nil => trivial
  | node c' l i r =>
    obtain ⟨-, hl, hr, htl, htr⟩ := ht
    have hi := hchild i (by simp [inorder])
    refine ⟨hroot i rfl, hi ▸ hl, hi ▸ hr, htl.congr fun x hx => ?_, htr.congr fun x hx => ?_⟩
    all_goals
      exact ⟨hpc x (by simp [inorder, hx]) (by grind [ColorTree.root, inorder]),
        hchild x (by simp [inorder, hx])⟩

lemma Stores.reparent (hroot : ∀ x, t.root = some x → h'.pc x = (p', (h.pc x).2)) :
    h'.Stores p' t := by
  cases t with
  | nil => trivial
  | node c l i r =>
    refine ht.move hnd hchild hpc (c := c) fun x hx => ?_
    obtain rfl : i = x := by simpa [ColorTree.root] using hx
    rw [hroot i hx, ht.1]

end

lemma Surrounds.congr (hctx : h.Surrounds ctx q) (hroot : h'.root = h.root)
    (hag : ∀ x ∈ names ctx, h'.pc x = h.pc x ∧ h'.child x = h.child x) : h'.Surrounds ctx q := by
  induction ctx generalizing q with
  | nil => exact hroot.trans hctx
  | cons f fs ih =>
    obtain ⟨hpc, hc, hs, hsib, hup⟩ := hctx
    obtain ⟨hpc', hchild⟩ := hag f.id (by simp [names])
    exact ⟨hpc'.trans hpc, hchild ▸ hc, hchild ▸ hs,
      hsib.congr fun x hx => hag x (by simp [names, hx]),
      ih hup fun x hx => hag x (by simp [names, hx])⟩

/-! ## The pointer in the hole -/

def hole : List (Frame ι) → Link ι
  | [] => .root
  | f :: _ => .child f.id f.side

lemma above_mem (hi : above ctx = some i) : i ∈ names ctx := by
  cases ctx with
  | nil => simp [above] at hi
  | cons f fs =>
    obtain rfl : f.id = i := by simpa [above] using hi
    simp [names]

lemma Surrounds.load (hctx : h.Surrounds ctx q) : h.load (hole ctx) = q := by
  cases ctx with
  | nil => exact hctx
  | cons f fs => exact hctx.2.1

variable [DecidableEq ι]

lemma child_setChild (h : Heap ι α) (s' : Side) :
    (h.setChild i s q).child j s' = if j = i ∧ s' = s then q else h.child j s' := by
  by_cases hj : j = i
  · subst hj
    by_cases hs : s' = s
    · subst hs
      simp [setChild]
    · simp [setChild, hs]
  · simp [setChild, hj]

lemma child_setChild_of_ne (hne : j ≠ i) : (h.setChild i s q).child j = h.child j :=
  update_of_ne hne _ _

lemma child_store_of_ne (hne : some j ≠ above ctx) :
    (h.store (hole ctx) q).child j = h.child j := by
  cases ctx with
  | nil => rfl
  | cons f fs => exact child_setChild_of_ne fun heq => hne (by rw [heq, above])

@[simp] lemma aug_store (h : Heap ι α) (l : Link ι) : (h.store l q).aug = h.aug := by
  cases l <;> rfl

@[simp] lemma pc_store (h : Heap ι α) (l : Link ι) : (h.store l q).pc = h.pc := by
  cases l <;> rfl

lemma Surrounds.changeChild_eq (hctx : h.Surrounds ctx (some o)) (ho : o ∉ names ctx) :
    h.changeChild o q (above ctx) = h.store (hole ctx) q := by
  cases ctx with
  | nil => rfl
  | cons f fs =>
    obtain ⟨-, hc, hs, -, -⟩ := hctx
    have hsib : f.sib.root ≠ some o := fun h => ho (by simp [names, root_mem h])
    unfold changeChild
    cases hside : f.side <;> simp_all [above, hole, store, Side.other]

lemma Surrounds.store (hctx : h.Surrounds ctx q) (hnd : (names ctx).Nodup) (q' : Option ι) :
    (h.store (hole ctx) q').Surrounds ctx q' := by
  cases ctx with
  | nil => rfl
  | cons f fs =>
    obtain ⟨hpc, hc, hs, hsib, hup⟩ := hctx
    have hf : f.id ∉ f.sib.inorder ∧ f.id ∉ names fs := by
      simpa using (List.nodup_cons.mp hnd).1
    have hag : ∀ x, x ≠ f.id → (h.setChild f.id f.side q').pc x = h.pc x ∧
        (h.setChild f.id f.side q').child x = h.child x := fun x hx =>
      ⟨rfl, child_setChild_of_ne hx⟩
    refine ⟨hpc, ?_, ?_, hsib.congr fun x hx => hag x ?_, hup.congr rfl fun x hx => hag x ?_⟩
    · exact (child_setChild h f.side).trans (if_pos ⟨rfl, rfl⟩)
    · exact ((child_setChild h f.side.other).trans (if_neg (by simp))).trans hs
    · exact ne_of_mem_of_not_mem hx hf.1
    · exact ne_of_mem_of_not_mem hx hf.2

/-! ## Rotations -/

/-- The rotation of `n`, on the side `s` of `o`, into the place of `o`. -/
def turn (h : Heap ι α) (s : Side) (o n : ι) (c : Color) : Heap ι α :=
  let tmp := h.child n s.other
  let h := (h.setChild o s tmp).setChild n s.other (some o)
  (h.setParentOf tmp o).rotateSetParents o n c

@[simp] lemma changeChild_setPc (h : Heap ι α) (v : Option ι × Color) :
    (h.setPc i v).changeChild o q p = (h.changeChild o q p).setPc i v := by
  cases p with
  | none => rfl
  | some p =>
    simp only [changeChild]
    by_cases hp : h.child p .left = some o
    · rw [if_pos hp, if_pos (show (h.setPc i v).child p .left = some o from hp)]
      rfl
    · rw [if_neg hp, if_neg (show ¬ (h.setPc i v).child p .left = some o from hp)]
      rfl

@[simp] lemma pc_changeChild (h : Heap ι α) :
    (h.changeChild o q p).pc = h.pc := by
  unfold changeChild
  split
  · split <;> rfl
  · rfl

end Heap

lemma Placed.withAug (hp : Placed h ctx t) (aug : ι → α) : Placed { h with aug := aug } ctx t :=
  ⟨hp.tree.congr fun _ _ => ⟨rfl, rfl⟩, hp.context.congr rfl fun _ _ => ⟨rfl, rfl⟩, hp.nodup⟩

/-! ## Moving the focus -/

lemma placed_cons : Placed h (f :: fs) t ↔ Placed h fs (make f.color f.side t f.id f.sib) := by
  have hperm := (inorder_fill_perm (f :: fs) t).symm.trans (inorder_fill_perm fs _)
  constructor
  · rintro ⟨ht, ⟨hpc, hc, hs, hsib, hup⟩, hnd⟩
    exact ⟨Heap.stores_make.mpr ⟨hpc, hc, hs, ht, hsib⟩, by rwa [root_make], hperm.nodup_iff.mp hnd⟩
  · rintro ⟨ht, hup, hnd⟩
    obtain ⟨hpc, hc, hs, ht, hsib⟩ := Heap.stores_make.mp ht
    rw [root_make] at hup
    exact ⟨ht, ⟨hpc, hc, hs, hsib, hup⟩, hperm.nodup_iff.mpr hnd⟩

lemma placed_fill : Placed h ctx t ↔ Placed h [] (fill ctx t) := by
  induction ctx generalizing t with
  | nil => rfl
  | cons f fs ih => rw [placed_cons, ih, fill]

lemma placed_append : Placed h (fs ++ ctx) t ↔ Placed h ctx (fill fs t) := by
  rw [placed_fill, fill_append, ← placed_fill]

lemma Placed.paint [DecidableEq ι] (hp : Placed h ctx t) (hi : t.root = some i) (c : Color) :
    Placed (h.setPc i (above ctx, c)) ctx (t.paint c) := by
  have himem := root_mem hi
  have hnd := hp.nodup
  refine ⟨hp.tree.move (by grind) (fun _ _ => rfl) (fun x hx hne => ?_) fun x hx => ?_, ?_, ?_⟩
  · exact update_of_ne (fun heq : x = i => hne (heq ▸ hi)) _ _
  · obtain rfl : x = i := Option.some.inj (hx.symm.trans hi)
    exact update_self ..
  · rw [root_paint]
    exact hp.context.congr rfl fun x hx =>
      ⟨update_of_ne (by grind) _ _, rfl⟩
  · rwa [inorder_paint]

lemma Placed.turn_nodup (hp : Placed h ctx (make c s (make c' s a n b) o d)) :
    (names ctx ++ (o :: n :: (a.inorder ++ b.inorder ++ d.inorder))).Nodup := by
  refine (List.Perm.append_left _ ?_).nodup_iff.mp hp.nodup
  exact inorder_make_perm.trans ((inorder_make_perm.append_right _).cons _)

section Turn

variable [DecidableEq ι] (hp : Placed h ctx (make c s (make c' s a n b) o d)) (c₁ : Color)

include hp

lemma Placed.turn_mid :
    ((h.setChild o s b.root).setChild n s.other (some o)).Surrounds ctx (some o) := by
  have hctx := hp.context
  rw [root_make] at hctx
  have hnd := hp.turn_nodup
  exact hctx.congr rfl fun x hx => ⟨rfl, by
    rw [Heap.child_setChild_of_ne (by grind), Heap.child_setChild_of_ne (by grind)]⟩

lemma Placed.turn_eq :
    h.turn s o n c₁ =
      { ((h.setChild o s b.root).setChild n s.other (some o)).store (Heap.hole ctx) (some n) with
        pc := fun x => if x = o then (some n, c₁) else if x = n then (above ctx, c)
          else if b.root = some x then (some o, (h.pc x).2) else h.pc x } := by
  obtain ⟨hpo, -, -, hn, -⟩ := Heap.stores_make.mp hp.tree
  obtain ⟨-, -, hno, -, -⟩ := Heap.stores_make.mp hn
  have hnd := hp.turn_nodup
  have hroot : b.root = some o → o ∈ b.inorder := root_mem
  have hbo : b.root ≠ some o := by grind
  rw [← hp.turn_mid.changeChild_eq (by grind), Heap.turn, hno, Heap.rotateSetParents]
  have hpar : ((h.setChild o s b.root).setChild n s.other (some o)).pc o = (above ctx, c) := hpo
  generalize hm : (h.setChild o s b.root).setChild n s.other (some o) = m at hpar ⊢
  have hpc : m.pc = h.pc := by rw [← hm]; rfl
  generalize b.root = q at hbo ⊢
  cases q with
  | none =>
    simp only [Heap.setParentOf, Heap.parent, Heap.setParentColor, Heap.changeChild_setPc, hpar]
    refine Heap.ext rfl rfl (funext fun x => ?_) rfl
    simp [Heap.setPc, update_apply, hpc]
  | some i =>
    have hoi : o ≠ i := by
      rintro rfl
      exact hbo rfl
    have hpar' : (m.setPc i (some o, m.color i)).pc o = (above ctx, c) := by
      rw [← hpar]
      exact update_of_ne hoi _ _
    simp only [Heap.setParentOf, Heap.setParent, Heap.parent, Heap.setParentColor,
      Heap.changeChild_setPc, hpar']
    refine Heap.ext rfl rfl (funext fun x => ?_) rfl
    simp only [Heap.setPc, Heap.color, Heap.pc_changeChild]
    grind

lemma Placed.turn_child {x : ι} (hx : x ∉ names ctx) (s' : Side) : (h.turn s o n c₁).child x s' =
      if x = n ∧ s' = s.other then some o else if x = o ∧ s' = s then b.root
      else h.child x s' := by
  rw [hp.turn_eq]
  rw [Heap.child_store_of_ne fun h => hx (Heap.above_mem h.symm), Heap.child_setChild,
    Heap.child_setChild]

lemma Placed.turn_pc (x : ι) :
    (h.turn s o n c₁).pc x = if x = o then (some n, c₁) else
      if x = n then (above ctx, c) else if b.root = some x then (some o, (h.pc x).2)
      else h.pc x := by
  rw [hp.turn_eq]

lemma Placed.turn_of_ne {x : ι} (hxo : x ≠ o) (hxn : x ≠ n) (hxb : x ∉ b.inorder)
    (hx : x ∉ names ctx) :
    (h.turn s o n c₁).pc x = h.pc x ∧ (h.turn s o n c₁).child x = h.child x := by
  refine ⟨?_, funext fun s' => ?_⟩
  · rw [hp.turn_pc, if_neg hxo, if_neg hxn, if_neg fun h => hxb (root_mem h)]
  · rw [hp.turn_child c₁ hx, if_neg fun h => hxn h.1, if_neg fun h => hxo h.1]

lemma Placed.turn_context : (h.turn s o n c₁).Surrounds ctx (some n) := by
  have hnd := hp.turn_nodup
  refine (hp.turn_mid.store (by grind) (some n)).congr (by rw [hp.turn_eq]) fun x hx => ⟨?_, ?_⟩
  · have hxb : b.root = some x → x ∈ b.inorder := root_mem
    rw [hp.turn_pc, if_neg (by grind), if_neg (by grind), if_neg (by grind), Heap.pc_store]
    rfl
  · rw [hp.turn_eq]

/-- A rotation of the heap is a rotation of the tree. -/
lemma Placed.turn : Placed (h.turn s o n c₁) ctx (make c s a n (make c₁ s b o d)) := by
  obtain ⟨hpo, hos, hoo, hn, hd⟩ := Heap.stores_make.mp hp.tree
  obtain ⟨hpn, hns, hno, ha, hb⟩ := Heap.stores_make.mp hn
  have hnd := hp.turn_nodup
  have hon : n ≠ o := by grind
  have ho : o ∉ names ctx := by grind
  have hn : n ∉ names ctx := by grind
  refine ⟨Heap.stores_make.mpr ⟨?_, ?_, ?_, ?_, Heap.stores_make.mpr ⟨?_, ?_, ?_, ?_, ?_⟩⟩, ?_, ?_⟩
  · rw [hp.turn_pc, if_neg hon, if_pos rfl]
  · rw [hp.turn_child c₁ hn, if_neg (by simp), if_neg fun h => hon h.1, hns]
  · rw [hp.turn_child c₁ hn, if_pos ⟨rfl, rfl⟩, root_make]
  · exact ha.congr fun x hx => hp.turn_of_ne c₁ (by grind) (by grind) (by grind) (by grind)
  · rw [hp.turn_pc, if_pos rfl]
  · rw [hp.turn_child c₁ ho, if_neg fun h => hon h.1.symm, if_pos ⟨rfl, rfl⟩]
  · rw [hp.turn_child c₁ ho, if_neg fun h => hon h.1.symm, if_neg (by simp), hoo]
  · refine hb.reparent (by grind) (fun x hx => funext fun s' => ?_) (fun x hx hne => ?_)
      fun x hx => ?_
    · rw [hp.turn_child c₁ (by grind), if_neg (by grind), if_neg (by grind)]
    · rw [hp.turn_pc, if_neg (by grind), if_neg (by grind), if_neg hne]
    · have := root_mem hx
      rw [hp.turn_pc, if_neg (by grind), if_neg (by grind), if_pos hx]
  · exact hd.congr fun x hx => hp.turn_of_ne c₁ (by grind) (by grind) (by grind) (by grind)
  · rw [root_make]
    exact hp.turn_context c₁
  · rw [inorder_rotate c c₁ c c']
    exact hp.nodup

end Turn

end Mini2440.Rbtree
