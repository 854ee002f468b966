import Mini2440.Jffs2.Overlay

/-!
# Places in the fragment tree

What `jffs2_lookup_node_frag` finds in a tree whose fragments follow one another, and where
`jffs2_fragtree_insert` puts a new fragment.
-/

namespace Mini2440.Jffs2

open List Library Rbtree

variable {ι ν : Type} {s : Inode ι ν} {i n : ι} {pre post seq P Q : List ι} {offset e : Nat}

/-! ## Fragments that follow one another -/

lemma tiles_around (htiles : FragTiles 0 ((P ++ i :: Q).map s.frag) e) :
    FragTiles 0 (P.map s.frag) (s.frag i).ofs ∧ (s.frag i).ofs < (s.frag i).stop ∧
      FragTiles (s.frag i).stop (Q.map s.frag) e ∧ (∀ x ∈ P, (s.frag x).ofs < (s.frag i).ofs) ∧
      ∀ x ∈ Q, (s.frag i).stop ≤ (s.frag x).ofs := by
  rw [map_append] at htiles
  obtain ⟨m, hbefore, rfl, hlt, hafter⟩ := tiles_append.mp htiles
  refine ⟨hbefore, hlt, hafter, fun x hx => ?_, fun x hx => ?_⟩
  · have := hbefore.bounds (mem_map_of_mem hx)
    omega
  · exact (hafter.bounds (mem_map_of_mem hx)).1

lemma lastend_getLast? (htiles : FragTiles 0 (seq.map s.frag) e) : s.lastend seq.getLast? = e := by
  rcases eq_nil_or_concat seq with rfl | ⟨P, i, rfl⟩
  · exact tiles_nil.mp htiles
  · rw [concat_eq_append] at htiles ⊢
    rw [getLast?_concat]
    exact tiles_nil.mp (tiles_around htiles).2.2.1

/-! ## Looking up an offset -/

/-- The fragment is one of the sequence with the offset in it, or the last one before it. -/
def Found (s : Inode ι ν) (offset : Nat) (seq : List ι) (r : Option ι) : Prop :=
  (∃ pre i post, seq = pre ++ i :: post ∧ r = some i ∧ (s.frag i).Covers offset) ∨
    ∃ pre post, seq = pre ++ post ∧ r = pre.getLast? ∧ (∀ i ∈ pre, (s.frag i).stop ≤ offset) ∧
      ∀ i ∈ post, offset < (s.frag i).ofs

lemma lookupLoop_found {t : ColorTree ι} {p : Option ι} (fuel : Nat)
    (hfuel : t.inorder.length < fuel) (ht : s.fragtree.Stores p t)
    (hsolid : ∀ i ∈ pre ++ t.inorder ++ post, (s.frag i).ofs < (s.frag i).stop)
    (hsorted : (pre ++ t.inorder ++ post).Pairwise fun i j => (s.frag i).stop ≤ (s.frag j).ofs)
    (hpre : ∀ i ∈ pre, (s.frag i).stop ≤ offset) (hpost : ∀ i ∈ post, offset < (s.frag i).ofs) :
    ∃ r, s.lookupLoop offset fuel t.root pre.getLast? = some r ∧
      Found s offset (pre ++ t.inorder ++ post) r := by
  induction fuel generalizing t p pre post with
  | zero => omega
  | succ fuel ih =>
    cases t with
    | nil =>
      refine ⟨pre.getLast?, rfl, .inr ⟨pre, post, by simp [ColorTree.inorder], rfl, hpre, hpost⟩⟩
    | node col l i r =>
      obtain ⟨-, hl, hr, htl, htr⟩ := ht
      simp only [ColorTree.inorder, length_append, length_cons] at hfuel
      rw [ColorTree.root, Inode.lookupLoop]
      by_cases hlow : (s.frag i).stop ≤ offset
      · -- The offset is behind the fragment, and so are all fragments before it.
        have hseq : pre ++ (ColorTree.node col l i r).inorder ++ post =
            (pre ++ l.inorder ++ [i]) ++ r.inorder ++ post := by
          simp [ColorTree.inorder]
        rw [hseq] at hsolid hsorted ⊢
        have hbefore := (pairwise_append.mp (pairwise_append.mp hsorted).1).1
        have hlast : ∀ j ∈ pre ++ l.inorder, (s.frag j).stop ≤ (s.frag i).ofs := fun j hj =>
          (pairwise_append.mp hbefore).2.2 j hj i (by simp)
        have hcloser : s.closer pre.getLast? i = (pre ++ l.inorder ++ [i]).getLast? := by
          rw [getLast?_concat]
          cases hprev : pre.getLast? with
          | none => rfl
          | some j =>
            have hj : j ∈ pre ++ l.inorder := mem_append_left _ (mem_of_getLast? hprev)
            have h₁ := hlast j hj
            have h₂ := hsolid j (by grind)
            exact if_pos (by omega)
        rw [if_pos hlow, hr, hcloser]
        refine ih (by omega) htr hsolid hsorted (fun j hj => ?_) hpost
        rcases mem_append.mp hj with hj | hj
        · have h₁ := hlast j hj
          have h₂ := hsolid i (by simp)
          omega
        · exact mem_singleton.mp hj ▸ hlow
      · have hseq : pre ++ (ColorTree.node col l i r).inorder ++ post =
            pre ++ l.inorder ++ (i :: (r.inorder ++ post)) := by
          simp [ColorTree.inorder]
        rw [hseq] at hsolid hsorted ⊢
        rw [if_neg hlow]
        by_cases hhigh : offset < (s.frag i).ofs
        · rw [if_pos hhigh, hl]
          refine ih (by omega) htl hsolid hsorted hpre fun j hj => ?_
          rcases mem_cons.mp hj with rfl | hj
          · exact hhigh
          · have h₁ := (pairwise_cons.mp (pairwise_append.mp hsorted).2.1).1 j hj
            omega
        · rw [if_neg hhigh]
          exact ⟨some i, rfl, .inl ⟨pre ++ l.inorder, i, r.inorder ++ post, rfl, rfl, by omega,
            by omega⟩⟩

variable [DecidableEq ι] [Fintype ι]

/-- In a tiling from zero on, the offset is in a fragment or behind all of them. -/
lemma lookupNodeFrag_spec (offset : Nat) (hl : Lists s.fragtree seq)
    (htiles : FragTiles 0 (seq.map s.frag) e) :
    ∃ r, s.lookupNodeFrag offset = some r ∧
      ((∃ pre i post, seq = pre ++ i :: post ∧ r = some i ∧ (s.frag i).Covers offset) ∨
        r = seq.getLast? ∧ e ≤ offset) := by
  have hnd := hl.nodup
  obtain ⟨t, ⟨hp, -⟩, rfl⟩ := hl
  have hroot : s.fragtree.root = t.root := hp.context
  have hsolid : ∀ i ∈ [] ++ t.inorder ++ [], (s.frag i).ofs < (s.frag i).stop := fun i hi =>
    (htiles.bounds (mem_map_of_mem (by simpa using hi))).2.1
  have hsorted : ([] ++ t.inorder ++ []).Pairwise fun i j =>
      (s.frag i).stop ≤ (s.frag j).ofs := by
    simpa using pairwise_map.mp htiles.pairwise
  have hloop : ∃ r, s.lookupLoop offset (Fintype.card ι + 1) t.root none = some r ∧
      Found s offset ([] ++ t.inorder ++ []) r :=
    lookupLoop_found _ (Nat.lt_succ_of_le hnd.length_le_card) hp.tree hsolid hsorted (by simp)
      (by simp)
  obtain ⟨r, hrun, hfound⟩ := hloop
  refine ⟨r, ?_, ?_⟩
  · rw [Inode.lookupNodeFrag, hroot]
    exact hrun
  rw [nil_append, append_nil] at hfound
  refine hfound.imp_right ?_
  rintro ⟨pre, post, hseq, hr, hpre, hpost⟩
  rw [hseq, map_append] at htiles
  obtain ⟨m, hbefore, hafter⟩ := tiles_append.mp htiles
  have hm : m ≤ offset := hbefore.le_of_forall (Nat.zero_le _) (by simpa using hpre)
  -- The first fragment behind the gap would begin where the last one before it ends.
  cases post with
  | nil =>
    obtain rfl := tiles_nil.mp hafter
    rw [hseq, append_nil]
    exact ⟨hr, hm⟩
  | cons i post =>
    have hi := hpost i (by simp)
    have := hafter.1
    omega

/-! ## Linking a fragment -/

lemma fragtreeInsert_spec {b : ι} (hl : Lists s.fragtree (pre ++ b :: post))
    (hn : n ∉ pre ++ b :: post) (hpre : ∀ x ∈ pre ++ [b], (s.frag x).ofs < (s.frag n).ofs)
    (hpost : ∀ x ∈ post, (s.frag n).ofs < (s.frag x).ofs) :
    ∃ h, s.fragtreeInsert n b = some (s.setTree h) ∧ Lists h (pre ++ b :: n :: post) := by
  have hright : ∀ x ∈ pre ++ [b], s.insertSide n x = some .right := fun x hx =>
    if_pos (hpre x hx)
  have hleft : ∀ x ∈ post, s.insertSide n x = some .left := fun x hx => by
    have := hpost x hx
    rw [Inode.insertSide, if_neg (by omega), if_pos this]
  obtain ⟨p, side, hseek, hgap⟩ := hl.seek (fun x hx => hright x (by simp [hx]))
    (hright b (by simp)) hleft
  have hout : n ∉ pre ++ [b] ∧ n ∉ post := by
    simp only [mem_append, mem_cons, not_or] at hn
    simp [hn]
  obtain ⟨h, hrun, hl'⟩ := hgap.insert hout.1 hout.2
  refine ⟨h, ?_, by simpa using hl'⟩
  simp [Inode.fragtreeInsert, hseek, Inode.insertColor, hrun]

lemma linkRight_spec (hl : Lists s.fragtree pre) (hn : n ∉ pre) :
    ∃ h, s.linkRight n pre.getLast? = some (s.setTree h) ∧ Lists h (pre ++ [n]) := by
  rcases eq_nil_or_concat pre with rfl | ⟨pre, b, rfl⟩
  · obtain ⟨h, hrun, hl'⟩ := hl.gap_root.insert hn hn
    exact ⟨h, by simp [Inode.linkRight, Inode.insertColor, hrun], hl'⟩
  · rw [concat_eq_append] at hl hn ⊢
    obtain ⟨h, hrun, hl'⟩ := hl.gap_last.insert hn (by simp)
    refine ⟨h, ?_, hl'⟩
    simp [Inode.linkRight, Inode.insertColor, hrun]

/-- The fragment `i` is cut where the new one begins, which is put behind it. -/
lemma cut_insert {low : NodeFrag ν} (hl : Lists s.fragtree (P ++ i :: Q)) (hn : n ∉ P ++ i :: Q)
    (htiles : FragTiles 0 ((P ++ i :: Q).map s.frag) e) (hlo : (s.frag i).ofs < (s.frag n).ofs)
    (hhi : (s.frag n).ofs < (s.frag i).stop)
    (hlow : low = ⟨(s.frag i).ofs, (s.frag n).ofs - (s.frag i).ofs, (s.frag i).node⟩) :
    (∃ h, (s.setFrag i low).fragtreeInsert n i = some ((s.setFrag i low).setTree h) ∧
      Lists h (P ++ i :: n :: Q)) ∧
      FragTiles 0 ((P ++ [i]).map (s.setFrag i low).frag) (s.frag n).ofs ∧
      Q.map (s.setFrag i low).frag = Q.map s.frag ∧
      ∀ j ∈ P ++ i :: Q, ((s.setFrag i low).frag j).PartOf (s.frag j) := by
  have hnd := hl.nodup
  have hiP : i ∉ P := by grind
  have hiQ : i ∉ Q := by grind
  have hni : n ≠ i := by grind
  have hofs : low.ofs = (s.frag i).ofs := by rw [hlow]
  have hstop : low.stop = (s.frag n).ofs := by
    rw [hlow]
    exact Nat.add_sub_cancel' (Nat.le_of_lt hlo)
  have hself : (s.setFrag i low).frag i = low := frag_setFrag_self
  obtain ⟨hbefore, hlt, -, hP, hQ⟩ := tiles_around htiles
  refine ⟨fragtreeInsert_spec hl hn (fun x hx => ?_) fun x hx => ?_, ?_, map_setFrag hiQ,
    fun j hj => ?_⟩
  · rw [frag_setFrag_of_ne hni]
    rcases mem_append.mp hx with hx | hx
    · rw [frag_setFrag_of_ne (ne_of_mem_of_not_mem hx hiP)]
      exact lt_trans (hP x hx) hlo
    · rw [mem_singleton.mp hx, hself, hofs]
      exact hlo
  · rw [frag_setFrag_of_ne hni, frag_setFrag_of_ne (ne_of_mem_of_not_mem hx hiQ)]
    exact lt_of_lt_of_le hhi (hQ x hx)
  · rw [map_append, map_setFrag hiP, map_singleton, hself]
    exact tiles_append.mpr ⟨_, hbefore, hofs, by omega, hstop⟩
  · by_cases hji : j = i
    · rw [hji, hself]
      exact ⟨by rw [hlow], by omega, by omega⟩
    · rw [frag_setFrag_of_ne hji]
      exact .refl _

end Mini2440.Jffs2
