import Mini2440.Rbtree.Rebalance

/-!
# Taking a node out

A node with one subtree at most is replaced by this subtree; a node with two is replaced by its
successor, which is taken out first. `propagate` then climbs from the lowest node whose subtree has
changed. It may stop early: a value that does not change leaves everything above it right.
-/

namespace Mini2440.Rbtree

open Function Library ColorTree Heap

variable {ι α : Type} {compute : ι → Option α → Option α → α} {h h' : Heap ι α} {s : Side}
  {c c' : Color} {a b t : ColorTree ι} {i j : ι} {q : Option ι} {ctx fs rest path : List (Frame ι)}
  {k : Nat}

/-! ## Climbing -/

/-- The way up from the hole of `path` to the node above it in `rest`. -/
def Climbs (child : ι → Side → Option ι) (pc : ι → Option ι × Color) (rest : List (Frame ι)) :
    List (Frame ι) → Option ι → Prop
  | [], _ => True
  | f :: fs, q => (pc f.id).1 = above (fs ++ rest) ∧ child f.id f.side = q ∧
    child f.id f.side.other = f.sib.root ∧ Climbs child pc rest fs (some f.id)

lemma Heap.Surrounds.climbs (hctx : h.Surrounds (path ++ rest) q) :
    Climbs h.child h.pc rest path q := by
  induction path generalizing q with
  | nil => trivial
  | cons f fs ih =>
    obtain ⟨hpc, hc, hs, -, hup⟩ := hctx
    exact ⟨congrArg Prod.fst hpc, hc, hs, ih hup⟩

lemma Climbs.congr {child child' : ι → Side → Option ι} {pc pc' : ι → Option ι × Color}
    (hup : Climbs child pc rest path q)
    (hag : ∀ f ∈ path, child' f.id = child f.id ∧ (pc' f.id).1 = (pc f.id).1) :
    Climbs child' pc' rest path q := by
  induction path generalizing q with
  | nil => trivial
  | cons f fs ih =>
    obtain ⟨hpar, hc, hs, hup⟩ := hup
    obtain ⟨hchild, hpc⟩ := hag f (by simp)
    exact ⟨hpc.trans hpar, hchild ▸ hc, hchild ▸ hs, ih hup fun g hg => hag g (by simp [hg])⟩

/-- The values are right above the first node of the path, for the value stored in it. -/
def Stale (compute : ι → Option α → Option α → α) (aug : ι → α) : List (Frame ι) → Prop
  | [] => True
  | f :: fs => Valued compute aug f.sib ∧ ValuedAbove compute aug fs (some (aug f.id))

lemma ValuedAbove.stale {aug : ι → α} {v : Option α} (hv : ValuedAbove compute aug path v) :
    Stale compute aug path := by
  cases path with
  | nil => trivial
  | cons f fs => exact hv.2

lemma Stale.congr {aug aug' : ι → α} (hst : Stale compute aug path)
    (hag : ∀ x ∈ names path, aug' x = aug x) : Stale compute aug' path := by
  cases path with
  | nil => trivial
  | cons f fs =>
    refine ⟨hst.1.congr fun x hx => hag x (by simp [names, hx]), ?_⟩
    rw [hag f.id (by simp [names])]
    exact hst.2.congr fun x hx => hag x (by simp [names, hx])

section Propagate

variable [DecidableEq ι] [DecidableEq α]

/-- The climb puts the values on the path right. -/
lemma propagateLoop_correct (fuel : Nat) (hfuel : path.length < fuel)
    (hup : Climbs h.child h.pc rest path t.root) (hnd : (names path ++ t.inorder).Nodup)
    (hrest : ∀ i ∈ names path, above rest ≠ some i) (hv : Valued compute h.aug t)
    (hst : Stale compute h.aug path) :
    ∃ aug, h.propagateLoop compute fuel (above (path ++ rest)) (above rest) =
      some { h with aug := aug } ∧ Correct compute aug path t ∧
      ∀ x ∉ names path, aug x = h.aug x := by
  induction path generalizing h t fuel with
  | nil =>
    obtain _ | fuel := fuel
    · omega
    refine ⟨h.aug, ?_, ⟨hv, trivial⟩, fun _ _ => rfl⟩
    rw [List.nil_append, propagateLoop, if_pos rfl]
  | cons f fs ih =>
    obtain _ | fuel := fuel
    · omega
    obtain ⟨hpar, hc, hs, hup⟩ := hup
    have hvalue : h.recompute compute f.id =
        computeAt compute f.id f.side (peek h.aug t) (peek h.aug f.sib) := by
      rw [recompute_eq f.side, hc, hs, peek, peek]
    have hne : ¬ above (f :: fs ++ rest) = above rest := fun heq =>
      hrest f.id (by simp [names]) heq.symm
    have hnext : h.propagateLoop compute (fuel + 1) (above (f :: fs ++ rest)) (above rest) =
        if h.aug f.id = h.recompute compute f.id then some h
        else (h.setAug f.id (h.recompute compute f.id)).propagateLoop compute fuel
          (above (fs ++ rest)) (above rest) := by
      rw [propagateLoop, if_neg hne, ← hpar]
      rfl
    rw [hnext, hvalue]
    split
    · next heq => exact ⟨h.aug, rfl, ⟨hv, heq, hst⟩, fun _ _ => rfl⟩
    · -- The node gets its new value, and the next one is as it was for the old value.
      generalize hw : computeAt compute f.id f.side (peek h.aug t) (peek h.aug f.sib) = w
      have hnd' :=
        ((inorder_fill_perm (f :: fs) t).symm.trans (inorder_fill_perm fs _)).nodup_iff.mp hnd
      have hold : ∀ x, x ≠ f.id → (h.setAug f.id w).aug x = h.aug x := fun x hx =>
        update_of_ne hx _ _
      have hmt : ∀ x ∈ t.inorder, (h.setAug f.id w).aug x = h.aug x := fun x hx =>
        hold x (by grind [names])
      have hms : ∀ x ∈ f.sib.inorder, (h.setAug f.id w).aug x = h.aug x := fun x hx =>
        hold x (by grind [names])
      have hmf : ∀ x ∈ names fs, (h.setAug f.id w).aug x = h.aug x := fun x hx =>
        hold x (by grind [names])
      have hvalued : Valued compute (h.setAug f.id w).aug (make f.color f.side t f.id f.sib) := by
        refine valued_make.mpr ⟨?_, hv.congr hmt, hst.1.congr hms⟩
        rw [peek_congr hmt, peek_congr hms, hw]
        exact update_self ..
      obtain ⟨aug, hrun, hcorrect, hsame⟩ := ih (h := h.setAug f.id w) fuel (by simpa using hfuel)
        (by rw [root_make]; exact hup) hnd' (fun x hx => hrest x (by simp [names, hx])) hvalued
        (hst.2.stale.congr hmf)
      refine ⟨aug, hrun, correct_cons.mpr hcorrect, fun x hx => ?_⟩
      rw [hsame x fun hmem => hx (by simp [names, hmem])]
      exact hold x fun heq => hx (by simp [names, heq])

end Propagate

/-! ## Replacing a node by its only subtree -/

lemma Placed.congr (hp : Placed h ctx t) (hroot : h'.root = h.root)
    (hag : ∀ x ∈ names ctx ++ t.inorder, h'.pc x = h.pc x ∧ h'.child x = h.child x) :
    Placed h' ctx t :=
  ⟨hp.tree.congr fun x hx => hag x (List.mem_append_right _ hx),
    hp.context.congr hroot fun x hx => hag x (List.mem_append_left _ hx), hp.nodup⟩

lemma Placed.make_nodup (hp : Placed h ctx (make c s a i b)) :
    (names ctx ++ (i :: (a.inorder ++ b.inorder))).Nodup :=
  (inorder_make_perm.append_left _).nodup_iff.mp hp.nodup

section Splice

variable [DecidableEq ι]

/-- The subtree `q` takes the place of the node above it. -/
def Heap.raise (h : Heap ι α) (ctx : List (Frame ι)) (q : Option ι) (c : Color) : Heap ι α :=
  match q with
  | none => h.store (hole ctx) none
  | some j => (h.store (hole ctx) (some j)).setPc j (above ctx, c)

lemma Heap.pc_raise (h : Heap ι α) (x : ι) :
    (h.raise ctx q c).pc x = if q = some x then (above ctx, c) else h.pc x := by
  cases q with
  | none => simp [Heap.raise]
  | some j =>
    by_cases hx : x = j
    · subst hx
      simp [Heap.raise, setPc]
    · simp [Heap.raise, setPc, hx, Ne.symm hx]

@[simp] lemma Heap.child_raise (h : Heap ι α) :
    (h.raise ctx q c).child = (h.store (hole ctx) q).child := by
  cases q <;> rfl

@[simp] lemma Heap.root_raise (h : Heap ι α) :
    (h.raise ctx q c).root = (h.store (hole ctx) q).root := by
  cases q <;> rfl

@[simp] lemma Heap.aug_raise (h : Heap ι α) :
    (h.raise ctx q c).aug = h.aug := by
  cases q
  · exact aug_store _ _
  · exact aug_store _ _

lemma Placed.raise (hp : Placed h ctx (make c s a i .nil)) (c₁ : Color) :
    Placed (h.raise ctx a.root c₁) ctx (a.paint c₁) := by
  obtain ⟨-, -, -, ha, -⟩ := Heap.stores_make.mp hp.tree
  have hnd := hp.make_nodup
  refine ⟨ha.move (by grind) (fun x hx => ?_) (fun x hx hne => ?_) fun x hx => ?_, ?_, ?_⟩
  · rw [child_raise]
    exact child_store_of_ne fun heq => by
      have := above_mem heq.symm
      grind
  · rw [pc_raise, if_neg hne]
  · rw [pc_raise, if_pos hx]
  · rw [root_paint]
    refine (hp.context.store (by grind) a.root).congr (root_raise ..) fun x hx => ⟨?_, ?_⟩
    · rw [pc_raise, if_neg fun heq => ?_, pc_store]
      have := root_mem heq
      grind
    · rw [child_raise]
  · rw [inorder_paint]
    grind

/-! ## Replacing a node by another one -/

/-- The node `j`, which is not in the tree, takes the place of `i`. -/
def Heap.replace (h : Heap ι α) (ctx : List (Frame ι)) (i j : ι) : Heap ι α :=
  { ({ h with child := update h.child j (h.child i) } : Heap ι α).store (hole ctx)
      (some j) with
    pc := fun x => if x = j then h.pc i
      else if h.child i .left = some x ∨ h.child i .right = some x then (some j, (h.pc x).2)
      else h.pc x }

lemma Heap.root_replace (h : Heap ι α) :
    (h.replace ctx i j).root = (h.store (hole ctx) (some j)).root := by
  cases ctx <;> rfl

lemma Placed.replace (hp : Placed h ctx (make c s a i b)) (hj : j ∉ names ctx) (hja : j ∉ a.inorder)
    (hjb : j ∉ b.inorder) : Placed (h.replace ctx i j) ctx (make c s a j b) := by
  obtain ⟨hpc, hia, hib, ha, hb⟩ := Heap.stores_make.mp hp.tree
  have hnd := hp.make_nodup
  have hctx := hp.context
  rw [root_make] at hctx
  have hkids : ∀ x, (h.child i .left = some x ∨ h.child i .right = some x) ↔
      a.root = some x ∨ b.root = some x := by
    cases s <;> grind [Side.other]
  have hra : ∀ x, a.root = some x → x ∈ a.inorder := fun _ => root_mem
  have hrb : ∀ x, b.root = some x → x ∈ b.inorder := fun _ => root_mem
  have hpc' : ∀ x, (h.replace ctx i j).pc x = if x = j then (above ctx, c)
      else if a.root = some x ∨ b.root = some x then (some j, (h.pc x).2) else h.pc x := by
    simp [Heap.replace, hkids, hpc]
  have hchild : ∀ x, x ∉ names ctx → (h.replace ctx i j).child x =
      update h.child j (h.child i) x := fun x hx =>
    child_store_of_ne fun heq => hx (above_mem heq.symm)
  have hkept : ∀ x, x ∉ names ctx → x ≠ j → (h.replace ctx i j).child x = h.child x :=
    fun x hx hxj => (hchild x hx).trans (update_of_ne hxj _ _)
  have hmove : ∀ t, t = a ∨ t = b → h.Stores (some i) t →
      (h.replace ctx i j).Stores (some j) t := by
    intro t ht hst
    refine hst.reparent (by grind) (fun x hx => hkept x (by grind) (by grind)) (fun x hx hne => ?_)
      fun x hx => ?_
    · rw [hpc', if_neg (by grind), if_neg (by grind)]
    · rw [hpc', if_neg (by grind), if_pos (by grind)]
  refine ⟨Heap.stores_make.mpr ⟨?_, ?_, ?_, hmove a (.inl rfl) ha, hmove b (.inr rfl) hb⟩, ?_, ?_⟩
  · rw [hpc', if_pos rfl]
  · rw [hchild j hj, update_self, hia]
  · rw [hchild j hj, update_self, hib]
  · rw [root_make]
    have hmid : ({ h with child := update h.child j (h.child i) } : Heap ι α).Surrounds ctx
        (some i) := hctx.congr rfl fun x hx =>
      ⟨rfl, update_of_ne (ne_of_mem_of_not_mem hx hj) _ _⟩
    refine (hmid.store (by grind) (some j)).congr rfl fun x hx => ⟨?_, rfl⟩
    rw [hpc', if_neg (by grind), if_neg (by grind), pc_store]
  · refine (inorder_make_perm.append_left _).nodup_iff.mpr ?_
    grind

end Splice

end Mini2440.Rbtree
