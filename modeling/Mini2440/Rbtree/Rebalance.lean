import Mini2440.Rbtree.Insert

/-!
# Rebalancing after a deletion

The loop of `____rb_erase_color` keeps a black tree in a hole that accepts one with a black height
larger by one. A red sibling is first rotated up. Then the sibling becomes red, and the missing
height moves to the parent, or one or two rotations make it up. As in the insertion, the first half
of the double rotation leaves fields behind that the second half overwrites.
-/

namespace Mini2440.Rbtree

open Library ColorTree Heap

variable {ι α : Type} {compute : ι → Option α → Option α → α} {h : Heap ι α} {s : Side}
  {c c' cn cf : Color} {a b d t near far u : ColorTree ι} {i j n o p g : ι} {q : Option ι}
  {ctx fs : List (Frame ι)} {k : Nat}

lemma Fixed.of_rotation {s' : Side}
    (hacc : Accepts (⟨s, c, p, u⟩ :: fs) .black (k + 1)) (ha : Balanced .black (k + 1) a)
    (hb : Balanced .black (k + 1) b) (hs : Sound compute h fs (make c s' a i b)) :
    Fixed compute h (fill fs (make c s' a i b)).inorder := by
  cases hacc with
  | red _ hup => exact Fixed.of_context hs hup (ha.make_red hb)
  | black _ hup => exact Fixed.of_context hs hup (ha.make_black hb)

/-! ## The rotations of the source -/

variable [DecidableEq ι]

/-- Case 4 is a rotation after the far child has become black. -/
lemma Heap.rotateFlip_eq (rotate : Heap ι α → ι → ι → Heap ι α) :
    h.rotateFlip rotate s p j i =
      rotate ((h.setPc i (some j, .black)).turn s.other p j .black) p j := by
  unfold rotateFlip turn
  simp only [Side.other_other]
  rfl

/-- Case 1 is a rotation. -/
lemma Heap.raiseSibling_eq (rotate : Heap ι α → ι → ι → Heap ι α) (hi : h.child j s = some i)
    (hc : h.color i = .black) :
    h.raiseSibling rotate s p j = some (rotate (h.turn s.other p j .red) p j, i) := by
  unfold raiseSibling turn
  simp only [Side.other_other, hi]
  refine (Option.bind_some _ _).trans ?_
  dsimp only [setParentOf, setParent]
  rw [show ((h.setChild p s.other (some i)).setChild j s (some p)).color i = .black from hc]
  rfl

def Heap.halfTurnSibling (h : Heap ι α) (s : Side) (parent sibling tmp2 : ι) : Heap ι α :=
  (((h.setChild sibling s (h.child tmp2 s.other)).setChild tmp2 s.other (some sibling)).setChild
    parent s.other (some tmp2)).setParentColorOf (h.child tmp2 s.other) sibling .black

/-- Case 3 is a rotation, but for the parents and colours of the two nodes. -/
lemma Placed.halfTurnSibling_eq
    (hp : Placed h (⟨s.other, c, p, t⟩ :: fs) (make .black s (make c' s a n d) j far))
    (hd : ∀ i, d.root = some i → h.color i = .black) :
    h.turn s j n .red =
      ((h.halfTurnSibling s p j n).setPc n (some p, .black)).setPc j (some n, .red) := by
  obtain ⟨-, -, -, hn, -⟩ := Heap.stores_make.mp hp.tree
  obtain ⟨-, -, hno, -, -⟩ := Heap.stores_make.mp hn
  rw [hp.turn_eq, halfTurnSibling, hno]
  refine Heap.ext ?_ ?_ (funext fun x => ?_) ?_
  · simp only [setPc, root_setParentColorOf]
    rfl
  · simp only [setPc, child_setParentColorOf]
    rfl
  · simp only [setPc, setChild, pc_setParentColorOf, Function.update_apply, above]
    grind [Heap.color]
  · simp only [setPc, aug_setParentColorOf]
    rfl

lemma Sound.eraseLoop_eq (rotate : Heap ι α → ι → ι → Heap ι α)
    (hs : Sound compute h (⟨s, c, p, u⟩ :: fs) t) (hj : u.root = some j) (fuel : Nat) :
    h.eraseLoop rotate (fuel + 1) t.root p =
      if h.color j = .red then (h.raiseSibling rotate s p j).bind fun r =>
        r.1.settle rotate (fun h node parent => h.eraseLoop rotate fuel (some node) parent) s p r.2
      else
        h.settle rotate (fun h node parent => h.eraseLoop rotate fuel (some node) parent) s p
          j := by
  have hp := placed_cons.mp hs.placed
  obtain ⟨-, -, hchild, -, -⟩ := Heap.stores_make.mp hp.tree
  rw [eraseLoop]
  rw [hp.side_eq (.inr hj)]
  rw [hchild.trans hj]
  rfl

section Callbacks

variable [DecidableEq α] [Fintype ι]

lemma rotate_setPc (v : Option ι × Color) :
    (declareCallbacks compute).rotate (h.setPc i v) p o =
      ((declareCallbacks compute).rotate h p o).setPc i v := rfl

/-! ## One round -/

section

variable (hseq : OfSequence compute)

include hseq

lemma Sound.flipFar (hs : Sound compute h (⟨s, c, p, make .black s near j far⟩ :: fs) t)
    (hi : far.root = some i) :
    Sound compute (h.rotateFlip (declareCallbacks compute).rotate s p j i) fs
      (make c s.other (far.paint .black) j (make .black s.other near p t)) := by
  have hfar := sound_other.mp (sound_swap.mp hs)
  have hflip := sound_cons.mp (sound_cons.mp (hfar.paint hi .black))
  rw [rotateFlip_eq]
  exact hflip.turn hseq .black

lemma Sound.doubleFlip
    (hs : Sound compute h (⟨s, c, p, make .black s (make .red s a n d) j far⟩ :: fs) t)
    (hd : ∀ i, d.root = some i → h.color i = .black) :
    Sound compute ((h.rotateSibling (declareCallbacks compute).rotate s p j n).rotateFlip
      (declareCallbacks compute).rotate s p n j) fs
      (make c s.other (make .black s d j far) n (make .black s.other a p t)) := by
  have hsib := sound_swap.mp hs
  have hfirst := hsib.turn hseq .red
  have hnd := hsib.placed.turn_nodup
  rw [hsib.placed.halfTurnSibling_eq hd, rotate_setPc, rotate_setPc] at hfirst
  have hfar := sound_other.mp hfirst
  have hsecond := sound_cons.mp (sound_cons.mp (hfar.paint root_make .black))
  rw [setPc_setPc, setPc_comm _ (by grind), paint_make] at hsecond
  have hthird := hsecond.turn hseq .black
  have hchild := (Heap.stores_make.mp (Heap.stores_make.mp hsecond.placed.tree).2.2.2.1).2.2.1
  have hna : a.root = some n → n ∈ a.inorder := root_mem
  rw [turn_setPc (by grind [names]) fun heq => by grind [hchild.symm.trans heq]] at hthird
  rw [rotateFlip_eq]
  exact hthird

lemma settle_fixed
    (again : Heap ι α → ι → ι → Option (Heap ι α))
    (hagain : ∀ h' t' f fs', c = .black → fs = f :: fs' → Sound compute h' fs t' →
      t'.root = some p → Balanced .black (k + 1) t' →
      ∃ h'', again h' p f.id = some h'' ∧ Fixed compute h'' (fill fs t').inorder)
    (hs : Sound compute h (⟨s, c, p, make .black s near j far⟩ :: fs) t)
    (hacc : Accepts (⟨s, c, p, make .black s near j far⟩ :: fs) .black (k + 1))
    (ht : Balanced .black k t) (hnear : Balanced cn k near) (hfar : Balanced cf k far) :
    ∃ h', h.settle (declareCallbacks compute).rotate again s p j = some h' ∧
      Fixed compute h' (fill (⟨s, c, p, make .black s near j far⟩ :: fs) t).inorder := by
  have hsib := sound_swap.mp hs
  obtain ⟨hjpc, hjn, hjf, hsn, hsf⟩ := Heap.stores_make.mp hsib.placed.tree
  rw [settle, fill]
  cases cf with
  | red =>
    obtain ⟨i, hi, hred⟩ := redChild_of_red hsf hfar hjf
    rw [hred]
    refine ⟨_, rfl, ?_⟩
    have := Fixed.of_rotation hacc hfar.paint_black (hnear.make_black ht) (hs.flipFar hseq hi)
    rw [make_other, make_other] at this
    rwa [inorder_fill_congr ((inorder_make_congr rfl inorder_paint).trans
      (inorder_rotate c .black c .black).symm)] at this
  | black =>
    rw [redChild_of_black hsf hfar hjf]
    cases cn with
    | red =>
      obtain ⟨a, n, d, rfl, ha, hd⟩ := hnear.red_parts s
      obtain ⟨-, -, -, -, hsd⟩ := Heap.stores_make.mp hsn
      obtain ⟨i, hi, hred⟩ := redChild_of_red hsn hnear hjn
      obtain rfl : n = i := by simpa using hi
      rw [hred]
      refine ⟨_, rfl, ?_⟩
      have := Fixed.of_rotation hacc (hd.make_black hfar) (ha.make_black ht)
        (hs.doubleFlip hseq fun i hi => hsd.color hd hi)
      rw [make_other, make_other] at this
      rwa [inorder_fill_congr ((inorder_rotate c .black c .black).symm.trans
        (inorder_make_congr rfl (inorder_rotate .black .black .black .red)))] at this
    | black =>
      rw [redChild_of_black hsn hnear hjn]
      have hred := sound_swap.mpr (hsib.paint root_make .red)
      rw [paint_make] at hred
      have hnext := sound_cons.mp hred
      obtain ⟨hpc, -⟩ := hred.placed.context
      have hseq' : (make c s t p (make .red s near j far)).inorder =
          (make c s t p (make .black s near j far)).inorder :=
        inorder_make_congr rfl (inorder_make_congr rfl rfl)
      cases hacc with
      | red _ hup =>
        rw [if_pos (show (h.setParentColor j (some p) .red).color p = .red from
          congrArg Prod.snd hpc)]
        refine ⟨_, rfl, ?_⟩
        have := Fixed.of_context (hnext.paint root_make .black) (hup.of_red)
          (by rw [paint_make]; exact ht.make_black (hnear.make_red hfar))
        rw [inorder_fill_congr (inorder_paint.trans hseq')] at this
        rw [setBlack, show (h.setParentColor j (some p) .red).parent p = above fs from
          congrArg Prod.fst hpc]
        exact this
      | black _ hup =>
        rw [if_neg (by rw [show (h.setParentColor j (some p) .red).color p = .black from
          congrArg Prod.snd hpc]; simp), show (h.setParentColor j (some p) .red).parent p = above fs
          from congrArg Prod.fst hpc]
        rw [← inorder_fill_congr hseq']
        cases fs with
        | nil => exact ⟨_, rfl, Fixed.of_context hnext .root (ht.make_black (hnear.make_red hfar))⟩
        | cons f fs =>
          exact hagain _ _ f fs rfl rfl hnext root_make (ht.make_black (hnear.make_red hfar))

/-- A red sibling is rotated up, and the new one is black. -/
lemma Sound.raise (hs : Sound compute h (⟨s, c, p, make .red s near j far⟩ :: fs) t) :
    Sound compute ((declareCallbacks compute).rotate (h.turn s.other p j .red) p j)
      (⟨s, .red, p, near⟩ :: ⟨s, c, j, far⟩ :: fs) t := by
  have hroot := sound_cons.mp hs
  rw [← make_other, ← make_other (s := s) (a := far)] at hroot
  have hturn := sound_other.mp (sound_other.mp (hroot.turn hseq .red))
  rwa [Side.other_other] at hturn

lemma eraseLoop_fixed (fuel : Nat) {f : Frame ι}
    (hfuel : (f :: fs).length < fuel) (hs : Sound compute h (f :: fs) t) (ht : Balanced .black k t)
    (hacc : Accepts (f :: fs) .black (k + 1)) :
    ∃ h', h.eraseLoop (declareCallbacks compute).rotate fuel t.root f.id = some h' ∧
      Fixed compute h' (fill (f :: fs) t).inorder := by
  induction fuel generalizing h t f fs k with
  | zero => omega
  | succ fuel ih =>
    obtain ⟨s, c, p, u⟩ := f
    have hu : ∃ cu, Balanced cu (k + 1) u ∧
        (cu = .red → c = .black ∧ Accepts fs .black (k + 2)) := by
      cases hacc with
      | red hbal _ => exact ⟨_, hbal, fun h => nomatch h⟩
      | black hbal hup => exact ⟨_, hbal, fun _ => ⟨rfl, hup⟩⟩
    obtain ⟨cu, hbal, hred⟩ := hu
    cases cu with
    | black =>
      obtain ⟨near, j, far, cn, cf, rfl, hnear, hfar⟩ := hbal.black_parts s
      have hcolor : h.color j = .black := (sound_swap.mp hs).placed.tree.color hbal root_make
      rw [hs.eraseLoop_eq _ root_make, if_neg (by simp [hcolor])]
      refine settle_fixed hseq _ (fun h' t' f fs' hc hfs hs' hp hb => ?_) hs hacc ht hnear hfar
      subst hc hfs
      cases hacc with
      | black _ hup =>
        rw [← hp]
        exact ih (by simpa using hfuel) hs' hb hup
    | red =>
      obtain ⟨rfl, hup⟩ := hred rfl
      obtain ⟨near, j, far, rfl, hnear, hfar⟩ := hbal.red_parts s
      obtain ⟨near', j', far', cn, cf, rfl, hnear', hfar'⟩ := hnear.black_parts s
      have htree := (sound_swap.mp hs).placed.tree
      obtain ⟨-, hchild, -, hsn, -⟩ := Heap.stores_make.mp htree
      rw [hs.eraseLoop_eq _ root_make, if_pos (htree.color hbal root_make),
        raiseSibling_eq _ (hchild.trans root_make) (hsn.color hnear root_make), Option.bind_some]
      have hinorder : (fill (⟨s, .red, p, make .black s near' j' far'⟩ :: ⟨s, .black, j, far⟩ :: fs)
          t).inorder =
          (fill (⟨s, .black, p, make .red s (make .black s near' j' far') j far⟩ :: fs)
            t).inorder :=
        inorder_fill_congr (inorder_rotate .black .red .black .red).symm
      rw [← hinorder]
      refine settle_fixed hseq _ ?_ (hs.raise hseq) (.red hnear (.black hfar hup)) ht hnear' hfar'
      exact fun _ _ _ _ hc => nomatch hc

end

end Callbacks

end Mini2440.Rbtree
