import Mini2440.Rbtree.Represent

/-!
# Augmented values

A value is computed from a node and the values of its children. The stored values of a tree are
right if each of them is what its node computes from those stored below it; then the value of a
subtree is `ColorTree.value`. In a context, the values are right for a given value in the hole.
-/

namespace Mini2440.Rbtree

open Function Library ColorTree

variable {ι α : Type} {compute : ι → Option α → Option α → α} {aug aug' : ι → α} {s : Side}
  {c c' c₁ : Color} {a b d t : ColorTree ι} {i n o : ι} {f : Frame ι} {fs ctx : List (Frame ι)}
  {v : Option α}

/-- The value of a node from that on the side `s` and that on the other side. -/
def computeAt (compute : ι → Option α → Option α → α) (i : ι) (s : Side) (v w : Option α) : α :=
  match s with
  | .left => compute i v w
  | .right => compute i w v

def peek (aug : ι → α) (t : ColorTree ι) : Option α := t.root.map aug

def Valued (compute : ι → Option α → Option α → α) (aug : ι → α) : ColorTree ι → Prop
  | .nil => True
  | .node _ l i r => aug i = compute i (peek aug l) (peek aug r) ∧ Valued compute aug l ∧
    Valued compute aug r

def ValuedAbove (compute : ι → Option α → Option α → α) (aug : ι → α) :
    List (Frame ι) → Option α → Prop
  | [], _ => True
  | f :: fs, v => aug f.id = computeAt compute f.id f.side v (peek aug f.sib) ∧
    Valued compute aug f.sib ∧ ValuedAbove compute aug fs (some (aug f.id))

@[simp] lemma peek_make : peek aug (make c s a i b) = some (aug i) := by
  rw [peek, root_make, Option.map_some]

@[simp] lemma peek_paint : peek aug (t.paint c) = peek aug t := by
  rw [peek, root_paint, peek]

lemma valued_make : Valued compute aug (make c s a i b) ↔
    aug i = computeAt compute i s (peek aug a) (peek aug b) ∧ Valued compute aug a ∧
      Valued compute aug b := by
  cases s
  · rfl
  · simp only [make, Valued, computeAt]
    grind

@[simp] lemma valued_paint : Valued compute aug (t.paint c) ↔ Valued compute aug t := by
  cases t <;> rfl

lemma value_make : (make c s a i b).value compute =
    some (computeAt compute i s (a.value compute) (b.value compute)) := by
  cases s <;> rfl

lemma Valued.peek_eq (h : Valued compute aug t) : peek aug t = t.value compute := by
  induction t with
  | nil => rfl
  | node c l i r ihl ihr =>
    obtain ⟨hi, hl, hr⟩ := h
    rw [value, ← ihl hl, ← ihr hr, ← hi]
    rfl

lemma peek_congr (h : ∀ x ∈ t.inorder, aug' x = aug x) : peek aug' t = peek aug t := by
  cases t with
  | nil => rfl
  | node c l i r => exact congrArg some (h i (by simp [inorder]))

lemma Valued.congr (ht : Valued compute aug t) (h : ∀ x ∈ t.inorder, aug' x = aug x) :
    Valued compute aug' t := by
  induction t with
  | nil => trivial
  | node c l i r ihl ihr =>
    obtain ⟨hi, hl, hr⟩ := ht
    have hml : ∀ x ∈ l.inorder, aug' x = aug x := fun x hx => h x (by simp [inorder, hx])
    have hmr : ∀ x ∈ r.inorder, aug' x = aug x := fun x hx => h x (by simp [inorder, hx])
    refine ⟨?_, ihl hl hml, ihr hr hmr⟩
    rw [h i (by simp [inorder]), peek_congr hml, peek_congr hmr]
    exact hi

lemma Valued.congr_compute {compute' : ι → Option α → Option α → α} (ht : Valued compute aug t)
    (h : ∀ x ∈ t.inorder, compute' x = compute x) : Valued compute' aug t := by
  induction t with
  | nil => trivial
  | node c l i r ihl ihr =>
    obtain ⟨hi, hl, hr⟩ := ht
    refine ⟨?_, ihl hl fun x hx => h x (by simp [inorder, hx]),
      ihr hr fun x hx => h x (by simp [inorder, hx])⟩
    rw [h i (by simp [inorder])]
    exact hi

lemma ValuedAbove.congr (hctx : ValuedAbove compute aug ctx v)
    (h : ∀ x ∈ names ctx, aug' x = aug x) : ValuedAbove compute aug' ctx v := by
  induction ctx generalizing v with
  | nil => trivial
  | cons f fs ih =>
    obtain ⟨hf, hsib, hup⟩ := hctx
    have hm : ∀ x ∈ f.sib.inorder, aug' x = aug x := fun x hx => h x (by simp [names, hx])
    have hid : aug' f.id = aug f.id := h f.id (by simp [names])
    refine ⟨?_, hsib.congr hm, ?_⟩
    · rw [hid, peek_congr hm]
      exact hf
    · rw [hid]
      exact ih hup fun x hx => h x (by simp [names, hx])

structure Correct (compute : ι → Option α → Option α → α) (aug : ι → α) (ctx : List (Frame ι))
    (t : ColorTree ι) : Prop where
  tree : Valued compute aug t
  context : ValuedAbove compute aug ctx (peek aug t)

lemma correct_cons : Correct compute aug (f :: fs) t ↔
    Correct compute aug fs (make f.color f.side t f.id f.sib) := by
  constructor
  · rintro ⟨ht, hf, hsib, hup⟩
    exact ⟨valued_make.mpr ⟨hf, ht, hsib⟩, by rwa [peek_make]⟩
  · rintro ⟨ht, hup⟩
    obtain ⟨hf, ht, hsib⟩ := valued_make.mp ht
    rw [peek_make] at hup
    exact ⟨ht, hf, hsib, hup⟩

lemma correct_fill : Correct compute aug ctx t ↔ Valued compute aug (fill ctx t) := by
  induction ctx generalizing t with
  | nil => exact ⟨fun h => h.tree, fun h => ⟨h, trivial⟩⟩
  | cons f fs ih => rw [correct_cons, ih, fill]

lemma correct_append : Correct compute aug (fs ++ ctx) t ↔ Correct compute aug ctx (fill fs t) := by
  rw [correct_fill, fill_append, ← correct_fill]

/-- A change in the subtree that does not touch the nodes of the context, nor the value of the
subtree. -/
lemma Correct.replace {t' : ColorTree ι} (h : Correct compute aug ctx t)
    (ht : Valued compute aug' t') (hctx : ∀ x ∈ names ctx, aug' x = aug x)
    (hv : peek aug' t' = peek aug t) : Correct compute aug' ctx t' :=
  ⟨ht, hv ▸ h.context.congr hctx⟩

section Rotate

variable [DecidableEq ι]

/-- The values after `augment_rotate(o, n)`, if `o` computes `w`. -/
def rotated (aug : ι → α) (o n : ι) (w : α) : ι → α :=
  update (update aug n (aug o)) o w

/-- The rotation callback puts the values right, because the value of the whole subtree is a
function of its sequence. -/
lemma Correct.rotate (hseq : OfSequence compute)
    (hnd : (names ctx ++ (make c s (make c' s a n b) o d).inorder).Nodup)
    (h : Correct compute aug ctx (make c s (make c' s a n b) o d)) :
    Correct compute (rotated aug o n (computeAt compute o s (peek aug b) (peek aug d))) ctx
      (make c s a n (make c₁ s b o d)) := by
  obtain ⟨ho, hn, hd⟩ := valued_make.mp h.tree
  obtain ⟨hn', ha, hb⟩ := valued_make.mp hn
  have hnd' : (names ctx ++ (o :: n :: (a.inorder ++ b.inorder ++ d.inorder))).Nodup := by
    refine (List.Perm.append_left _ ?_).nodup_iff.mp hnd
    exact inorder_make_perm.trans ((inorder_make_perm.append_right _).cons _)
  have hsame : ∀ w x, x ≠ o → x ≠ n → rotated aug o n w x = aug x := fun w x hxo hxn => by
    rw [rotated, update_of_ne hxo, update_of_ne hxn]
  have hat_o : ∀ w, rotated aug o n w o = w := fun w => update_self ..
  have hat_n : ∀ w, rotated aug o n w n = aug o := fun w => by
    rw [rotated, update_of_ne (by grind), update_self]
  generalize hw : computeAt compute o s (peek aug b) (peek aug d) = w
  have hma : ∀ x ∈ a.inorder, rotated aug o n w x = aug x := fun x hx =>
    hsame w x (by grind) (by grind)
  have hmb : ∀ x ∈ b.inorder, rotated aug o n w x = aug x := fun x hx =>
    hsame w x (by grind) (by grind)
  have hmd : ∀ x ∈ d.inorder, rotated aug o n w x = aug x := fun x hx =>
    hsame w x (by grind) (by grind)
  have hlow : Valued compute (rotated aug o n w) (make c₁ s b o d) := by
    refine valued_make.mpr ⟨?_, hb.congr hmb, hd.congr hmd⟩
    rw [hat_o, peek_congr hmb, peek_congr hmd, hw]
  refine h.replace (valued_make.mpr ⟨?_, ha.congr hma, hlow⟩)
    (fun x hx => hsame w x (by grind) (by grind)) (by rw [peek_make, peek_make, hat_n])
  -- The sequence below `n` is now the one that was below `o`.
  have hvalue := hseq _ _ (inorder_rotate (s := s) (a := a) (b := b) (d := d) (n := n) (i := o)
    c c₁ c c')
  rw [← h.tree.peek_eq, peek_make, value_make, Option.some.injEq] at hvalue
  rw [hat_n, ← hvalue, ← (ha.congr hma).peek_eq, ← hlow.peek_eq]

end Rotate

/-! ## Trees in the heap with their values -/

structure Sound (compute : ι → Option α → Option α → α) (h : Heap ι α) (ctx : List (Frame ι))
    (t : ColorTree ι) : Prop where
  placed : Placed h ctx t
  correct : Correct compute h.aug ctx t

variable {h : Heap ι α}

lemma sound_cons : Sound compute h (f :: fs) t ↔
    Sound compute h fs (make f.color f.side t f.id f.sib) := by
  constructor
  · rintro ⟨hp, hc⟩
    exact ⟨placed_cons.mp hp, correct_cons.mp hc⟩
  · rintro ⟨hp, hc⟩
    exact ⟨placed_cons.mpr hp, correct_cons.mpr hc⟩

lemma sound_fill : Sound compute h ctx t ↔ Sound compute h [] (fill ctx t) := by
  induction ctx generalizing t with
  | nil => rfl
  | cons f fs ih => rw [sound_cons, ih, fill]

lemma sound_append : Sound compute h (fs ++ ctx) t ↔ Sound compute h ctx (fill fs t) := by
  rw [sound_fill, fill_append, ← sound_fill]

lemma sound_other :
    Sound compute h ctx (make c s a i b) ↔ Sound compute h (⟨s.other, c, i, a⟩ :: ctx) b := by
  rw [sound_cons, make_other]

lemma sound_swap :
    Sound compute h (⟨s, c, i, b⟩ :: fs) a ↔ Sound compute h (⟨s.other, c, i, a⟩ :: fs) b := by
  rw [sound_cons, sound_cons, make_other]

lemma recompute_eq (s : Side) (i : ι) : h.recompute compute i =
    computeAt compute i s ((h.child i s).map h.aug) ((h.child i s.other).map h.aug) := by
  cases s <;> rfl

variable [DecidableEq ι]

lemma Sound.paint (hs : Sound compute h ctx t) (hi : t.root = some i) (c : Color) :
    Sound compute (h.setPc i (above ctx, c)) ctx (t.paint c) :=
  ⟨hs.placed.paint hi c, hs.correct.replace (valued_paint.mpr hs.correct.tree) (fun _ _ => rfl)
    peek_paint⟩

section Callbacks

variable [DecidableEq α] [Fintype ι]

open Heap

lemma rotate_eq (hb : h.child o s = b.root) (hd : h.child o s.other = d.root)
    (hnb : n ∉ b.inorder) (hnd : n ∉ d.inorder) :
    (declareCallbacks compute).rotate h o n =
      { h with
        aug := rotated h.aug o n (computeAt compute o s (peek h.aug b) (peek h.aug d)) } := by
  have hpeek : ∀ t : ColorTree ι, n ∉ t.inorder →
      t.root.map (update h.aug n (h.aug o)) = peek h.aug t := fun t ht =>
    peek_congr fun x hx => update_of_ne (ne_of_mem_of_not_mem hx ht) _ _
  simp only [declareCallbacks, recompute_eq s, setAug, hb, hd, hpeek b hnb, hpeek d hnd]
  rfl

lemma Sound.turn (hseq : OfSequence compute)
    (hs : Sound compute h ctx (make c s (make c' s a n b) o d)) (c₁ : Color) :
    Sound compute ((declareCallbacks compute).rotate (h.turn s o n c₁) o n) ctx
      (make c s a n (make c₁ s b o d)) := by
  have hp := hs.placed.turn c₁
  obtain ⟨-, -, -, -, hlow⟩ := Heap.stores_make.mp hp.tree
  obtain ⟨-, hb, hd, -, -⟩ := Heap.stores_make.mp hlow
  have hnd := hs.placed.turn_nodup
  have haug : (h.turn s o n c₁).aug = h.aug := by
    rw [hs.placed.turn_eq]
    exact aug_store _ _
  rw [rotate_eq hb hd (by grind) (by grind), haug]
  exact ⟨hp.withAug _, hs.correct.rotate hseq hs.placed.nodup⟩

end Callbacks

end Mini2440.Rbtree
