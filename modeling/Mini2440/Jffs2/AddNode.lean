import Mini2440.Jffs2.Sweep

/-!
# Adding a fragment to the tree

The cases of `jffs2_add_frag_to_fragtree`. The new fragment is behind all others, perhaps with a
hole between; or it splits an old one, covers the end of it, or starts with it.
-/

namespace Mini2440.Jffs2

open List Library Rbtree

variable {ι ν : Type} [DecidableEq ν] {s : Inode ι ν} {i j n : ι} {seq P Q : List ι} {e : Nat}
  {d₀ : ν → FullDnode} {nodes : List ν} {fn : ν} {mem : Option ι}

/-! ## Before and after -/

structure Ready (d₀ : ν → FullDnode) (nodes : List ν) (e : Nat) (fn : ν) (s : Inode ι ν)
    (seq : List ι) (n : ι) : Prop where
  lists : Lists s.fragtree seq
  live : ∀ i ∈ seq, s.live i = true
  out : n ∉ seq
  liveNew : s.live n = true
  tiles : FragTiles 0 (seq.map s.frag) e
  pos : 0 < (s.frag n).size
  node : (s.frag n).node = some fn
  ofs : (s.frag n).ofs = (d₀ fn).ofs
  accounts : Accounts d₀ nodes s.dnode (some fn :: nodesOf s seq)

structure Refused (d₀ : ν → FullDnode) (nodes : List ν) (fn : ν) (s : Inode ι ν) (seq : List ι)
    (s' : Inode ι ν) : Prop where
  fragtree : s'.fragtree = s.fragtree
  frag : ∀ i ∈ seq, s'.frag i = s.frag i
  live : ∀ i ∈ seq, s'.live i = true
  accounts : Accounts d₀ nodes s'.dnode (some fn :: nodesOf s seq)

def Outcome (d₀ : ν → FullDnode) (nodes : List ν) (e : Nat) (fn : ν) (s : Inode ι ν) (seq : List ι)
    (n : ι) (r : Option (Int × Inode ι ν)) : Prop :=
  (∃ s', r = some (-ENOMEM, s') ∧ Refused d₀ nodes fn s seq s') ∨
    ∃ s' A C, r = some (0, s') ∧ Spliced d₀ nodes (seq.map s.frag) e (s.frag n) s' A n C

lemma Ready.markRefNormal (hr : Ready d₀ nodes e fn s seq n) :
    Ready d₀ nodes e fn (s.markRefNormal fn) seq n :=
  { hr with accounts := hr.accounts.markRefNormal (by simp) }

lemma Ready.markNodeOf (hr : Ready d₀ nodes e fn s seq n) (hi : i ∈ seq) :
    Ready d₀ nodes e fn (s.markNodeOf i) seq n := by
  have ha := hr.accounts.markNodeOf (mem_cons_of_mem _ (mem_nodesOf hi))
  obtain ⟨hl, hlive, hout, hnew, htiles, hpos, hnode, hofs, -⟩ := hr
  rw [nodesOf, ← (markNodeOf_frame s i).2.1] at ha
  constructor <;> first | exact ha | simpa

lemma Ready.alive (hr : Ready d₀ nodes e fn s seq n) (hj : j = n ∨ j ∈ seq) : s.live j := by
  rcases hj with rfl | hj
  · exact hr.liveNew
  · exact hr.live j hj

lemma Outcome.of_frag_eq {t : Inode ι ν} {r : Option (Int × Inode ι ν)}
    (ho : Outcome d₀ nodes e fn t seq n r) (htree : t.fragtree = s.fragtree)
    (hfrag : t.frag = s.frag) : Outcome d₀ nodes e fn s seq n r := by
  have hns : nodesOf t seq = nodesOf s seq := by rw [nodesOf, hfrag, nodesOf]
  rcases ho with ⟨s', hrun, href⟩ | ⟨s', A, C, hrun, hsp⟩
  · exact .inl ⟨s', hrun, href.fragtree.trans htree, hfrag ▸ href.frag, href.live,
      hns ▸ href.accounts⟩
  · exact .inr ⟨s', A, C, hrun, hfrag ▸ hsp⟩

/-! ## The cases -/

variable [DecidableEq ι] [Fintype ι] {k : ι}

lemma noOverlappingNode_spec (hr : Ready d₀ nodes e fn s seq n) (he : e ≤ (s.frag n).ofs)
    (hmem : ∀ i ∈ mem, i ∉ seq ∧ i ≠ n) :
    Outcome d₀ nodes e fn s seq n (s.noOverlappingNode n seq.getLast? e mem) := by
  have hofs : (s.dnode fn).ofs = (s.frag n).ofs := (hr.accounts.range fn).1.trans hr.ofs.symm
  unfold Inode.noOverlappingNode
  simp only [hr.node, Option.bind_eq_bind, Option.bind_some, hofs]
  have hafter : FragTiles (s.frag n).stop ([] : List (NodeFrag ν)) (max (s.frag n).stop e) := by
    refine tiles_nil.mpr (Nat.max_eq_left (Nat.le_trans he ?_)).symm
    exact Nat.le_add_right _ _
  by_cases hgap : e < (s.frag n).ofs
  · rw [if_pos hgap]
    cases mem with
    | none =>
      refine .inl ⟨s.freeNodeFrag n, rfl, rfl, fun _ _ => rfl, fun i hi => ?_, hr.accounts⟩
      exact (Function.update_of_ne (ne_of_mem_of_not_mem hi hr.out) _ _).trans (hr.live i hi)
    | some hole =>
      obtain ⟨hout, hne⟩ := hmem hole rfl
      obtain ⟨f, hf⟩ : ∃ f : NodeFrag ν, f = ⟨e, (s.frag n).ofs - e, none⟩ := ⟨_, rfl⟩
      have hstop : f.stop = (s.frag n).ofs := by
        rw [hf]
        exact Nat.add_sub_cancel' he
      have hnew : (s.initFrag hole f).frag n = s.frag n := frag_initFrag_of_ne hne.symm
      obtain ⟨h₁, hlink₁, hl₁⟩ := linkRight_spec (s := s.initFrag hole f) hr.lists hout
      have hn : n ∉ seq ++ [hole] := by
        simpa using ⟨hr.out, hne.symm⟩
      obtain ⟨h₂, hlink₂, hl₂⟩ := linkRight_spec (s := (s.initFrag hole f).setTree h₁) hl₁ hn
      rw [getLast?_concat] at hlink₂
      refine .inr ⟨(s.initFrag hole f).setTree h₂, seq ++ [hole], [], ?_, hl₂, ?_, hnew,
        ?_, hafter, fun i hi => ?_, ?_⟩
      · simp [Inode.newFragment, ← hf, hlink₁, hlink₂]
      · intro j hj
        rw [live_setTree]
        by_cases hjh : j = hole
        · rw [hjh]
          exact live_initFrag_self
        · exact live_initFrag (hr.alive (by grind))
      · rw [map_append]
        refine tiles_append.mpr ⟨e, ?_, ?_⟩
        · rw [frag_setTree, map_initFrag hout]
          exact hr.tiles
        · rw [frag_setTree, map_singleton, frag_initFrag_self]
          refine ⟨by rw [hf], by omega, hstop⟩
      · rw [append_nil] at hi
        rw [frag_setTree]
        rcases mem_append.mp hi with hi | hi
        · rw [frag_initFrag_of_ne (ne_of_mem_of_not_mem hi hout)]
          exact .inl ⟨s.frag i, mem_map_of_mem hi, .refl _⟩
        · rw [mem_singleton.mp hi, frag_initFrag_self, hf]
          exact .inr ⟨rfl, le_refl _⟩
      · have hperm := nodesOf_middle (s.initFrag hole f) (seq ++ [hole]) n []
        have hperm' := nodesOf_middle (s.initFrag hole f) seq hole []
        rw [hnew, hr.node, append_nil] at hperm
        rw [frag_initFrag_self, append_nil,
          nodesOf_congr fun i hi => frag_initFrag_of_ne (ne_of_mem_of_not_mem hi hout)] at hperm'
        refine hr.accounts.hole.perm ((List.Perm.swap _ _ _).trans ?_)
        subst hf
        exact (hperm'.symm.cons _).trans hperm.symm
  · rw [if_neg hgap]
    obtain ⟨h, hlink, hl⟩ := linkRight_spec hr.lists hr.out
    refine .inr ⟨s.setTree h, seq, [], by simp [hlink], ?_⟩
    obtain rfl : e = (s.frag n).ofs := by omega
    refine ⟨hl, ?_, rfl, hr.tiles, hafter, fun i hi => ?_, ?_⟩
    · exact fun j hj => hr.alive (by grind)
    · exact .inl ⟨s.frag i, mem_map_of_mem (by simpa using hi), .refl _⟩
    · have hperm := (nodesOf_middle s seq n []).symm
      rw [hr.node, append_nil] at hperm
      exact hr.accounts.perm hperm

/-- The new fragment covers the end of an old one. -/
lemma shrink_spec {low : NodeFrag ν} (hr : Ready d₀ nodes e fn s (P ++ i :: Q) n)
    (hlo : (s.frag i).ofs < (s.frag n).ofs) (hhi : (s.frag n).ofs < (s.frag i).stop)
    (hstop : (s.frag i).stop ≤ (s.frag n).stop)
    (hlow : low = ⟨(s.frag i).ofs, (s.frag n).ofs - (s.frag i).ofs, (s.frag i).node⟩) :
    Outcome d₀ nodes e fn s (P ++ i :: Q) n (do
      let s ← (s.setFrag i low).fragtreeInsert n i
      s.sweep n) := by
  obtain ⟨⟨h, hins, hl⟩, hbefore, hQ, hparts⟩ := cut_insert hr.lists hr.out hr.tiles hlo hhi hlow
  have hni : n ≠ i := fun heq => hr.out (by simp [heq])
  have hnew : (s.setFrag i low).frag n = s.frag n := frag_setFrag_of_ne hni
  have hperm : (some fn :: nodesOf s (P ++ i :: Q)).Perm
      (nodesOf (s.setFrag i low) (P ++ [i] ++ n :: Q)) := by
    rw [nodesOf_setFrag (by rw [hlow]), ← hr.node]
    simpa using (nodesOf_middle s (P ++ [i]) n Q).symm
  have hpend : Pending d₀ nodes ((P ++ i :: Q).map s.frag) e fn ((s.setFrag i low).setTree h)
      (P ++ [i]) n Q := by
    refine ⟨by simpa using hl, fun j hj => ?_, hnew ▸ hr.node, hnew ▸ hbefore,
      ⟨_, ?_, hnew ▸ hstop⟩, fun j hj => ?_, hr.accounts.perm hperm⟩
    · exact hr.alive (by grind)
    · rw [frag_setTree, hQ]
      exact (tiles_around hr.tiles).2.2.1
    · have hj' : j ∈ P ++ i :: Q := by simpa using hj
      exact .inl ⟨s.frag j, mem_map_of_mem hj', hparts j hj'⟩
  obtain ⟨s', C, hrun, hsp⟩ := hpend.sweep
  rw [frag_setTree, hnew] at hsp
  exact .inr ⟨s', P ++ [i], C, by simp [hins, hrun], hsp⟩

lemma insert_rest {fs : List (NodeFrag ν)} (hl : Lists s.fragtree (P ++ n :: Q))
    (hk : k ∉ P ++ n :: Q) (hlive : ∀ j ∈ P ++ n :: k :: Q, s.live j)
    (hpos : 0 < (s.frag n).size) (hbefore : FragTiles 0 (P.map s.frag) (s.frag n).ofs)
    (hafter : FragTiles (s.frag n).stop ((k :: Q).map s.frag) e)
    (hparts : ∀ j ∈ P ++ k :: Q, Remains fs e (s.frag j))
    (ha : Accounts d₀ nodes s.dnode (nodesOf s (P ++ n :: k :: Q))) :
    ∃ h, s.fragtreeInsert k n = some (s.setTree h) ∧
      Spliced d₀ nodes fs e (s.frag n) (s.setTree h) P n (k :: Q) := by
  have hlt : (s.frag n).ofs < (s.frag n).stop := Nat.lt_add_of_pos_right hpos
  have hmax : max (s.frag n).stop e = e := Nat.max_eq_right hafter.le
  obtain ⟨hofs, hsolid, hrest⟩ := Iff.rfl.mp hafter
  have hpre : ∀ x ∈ P ++ [n], (s.frag x).ofs < (s.frag k).ofs := fun x hx => by
    rcases mem_append.mp hx with hx | hx
    · have := hbefore.bounds (mem_map_of_mem hx)
      omega
    · rw [mem_singleton.mp hx]
      omega
  have hpost : ∀ x ∈ Q, (s.frag k).ofs < (s.frag x).ofs := fun x hx => by
    have := hrest.bounds (mem_map_of_mem hx)
    omega
  obtain ⟨h, hins, hl'⟩ := fragtreeInsert_spec hl hk hpre hpost
  exact ⟨h, hins, hl', hlive, rfl, hbefore, hmax.symm ▸ hafter, hparts, ha⟩

section

variable (hr : Ready d₀ nodes e fn s (P ++ i :: Q) n)

include hr

/-- The new fragment is in the middle of an old one. -/
lemma split_spec {low high : NodeFrag ν}
    (hlo : (s.frag i).ofs < (s.frag n).ofs) (hstop : (s.frag n).stop < (s.frag i).stop)
    (hk : k ∉ P ++ i :: Q) (hkn : k ≠ n)
    (hlow : low = ⟨(s.frag i).ofs, (s.frag n).ofs - (s.frag i).ofs, (s.frag i).node⟩)
    (hhigh : high = ⟨(s.frag n).stop, (s.frag i).stop - (s.frag n).ofs - (s.frag n).size,
      (s.frag i).node⟩) :
    Outcome d₀ nodes e fn s (P ++ i :: Q) n (do
      let s ← (((s.initFrag k high).shareNode (s.frag i).node).setFrag i low).fragtreeInsert n i
      let s ← s.fragtreeInsert k n
      some (0, s)) := by
  obtain ⟨-, -, hafter, -, -⟩ := tiles_around hr.tiles
  have hout := hr.out
  have hni : n ≠ i := by grind
  have hki : k ≠ i := by grind
  have hkQ : k ∉ Q := by grind
  have hlt : (s.frag n).ofs < (s.frag n).stop := Nat.lt_add_of_pos_right hr.pos
  have hofs : high.ofs = (s.frag n).stop := by rw [hhigh]
  have hnode : high.node = (s.frag i).node := by rw [hhigh]
  have hend : high.stop = (s.frag i).stop := by
    have hsize : high.size = (s.frag i).stop - (s.frag n).stop := by
      rw [hhigh, NodeFrag.stop, Nat.sub_sub]
    rw [NodeFrag.stop, hofs, hsize]
    exact Nat.add_sub_cancel' (by omega)
  -- The state with the second fragment, before the old one is cut.
  obtain ⟨s₁, hs₁⟩ : ∃ s₁, s₁ = (s.initFrag k high).shareNode (s.frag i).node := ⟨_, rfl⟩
  have hself : s₁.frag k = high := by rw [hs₁, frag_shareNode, frag_initFrag_self]
  have hold : ∀ j, j ≠ k → s₁.frag j = s.frag j := fun j hj => by
    rw [hs₁, frag_shareNode, frag_initFrag_of_ne hj]
  have hmap := map_congr_left fun j hj => hold j (ne_of_mem_of_not_mem hj hk)
  have hi : s₁.frag i = s.frag i := hold i hki.symm
  have hn : s₁.frag n = s.frag n := hold n hkn.symm
  have hl₁ : Lists s₁.fragtree (P ++ i :: Q) := by
    rw [hs₁, fragtree_shareNode]
    exact hr.lists
  have hlive₁ : ∀ j, j = k ∨ j = n ∨ j ∈ P ++ i :: Q → s₁.live j := fun j hj => by
    rw [hs₁, live_shareNode]
    rcases hj with rfl | hj
    · exact live_initFrag_self
    · exact live_initFrag (hr.alive hj)
  have ha₁ : Accounts d₀ nodes s₁.dnode (nodesOf s₁ (P ++ [i] ++ n :: k :: Q)) := by
    have hmem : (s.frag i).node ∈ some fn :: nodesOf s (P ++ i :: Q) :=
      mem_cons_of_mem _ (mem_nodesOf (by simp))
    have hperm₁ := nodesOf_middle s₁ (P ++ [i]) n (k :: Q)
    have hperm₂ := nodesOf_middle s₁ (P ++ [i]) k Q
    have hsame : nodesOf s₁ (P ++ [i] ++ Q) = nodesOf s (P ++ i :: Q) := by
      rw [append_assoc]
      exact nodesOf_congr fun j hj => hold j (ne_of_mem_of_not_mem hj hk)
    rw [hn, hr.node] at hperm₁
    rw [hself, hsame, hnode] at hperm₂
    have hacc := Accounts.shareNode (s := s.initFrag k high) hr.accounts hmem
    rw [← hs₁] at hacc
    exact hacc.perm ((List.Perm.swap _ _ _).trans ((hperm₂.cons _).symm.trans hperm₁.symm))
  rw [← hs₁]
  have hlow₁ : low = ⟨(s₁.frag i).ofs, (s₁.frag n).ofs - (s₁.frag i).ofs, (s₁.frag i).node⟩ := by
    rw [hi, hn, hlow]
  have hhi : (s₁.frag n).ofs < (s₁.frag i).stop := by
    rw [hi, hn]
    exact lt_trans hlt hstop
  obtain ⟨⟨h, hins, hl₂⟩, hbefore, hQ, hparts⟩ :=
    cut_insert hl₁ hout (hmap ▸ hr.tiles) (by rwa [hi, hn]) hhi hlow₁
  -- The state with the new fragment in the tree.
  obtain ⟨s₂, hs₂⟩ : ∃ s₂, s₂ = (s₁.setFrag i low).setTree h := ⟨_, rfl⟩
  have hfrag₂ : s₂.frag = (s₁.setFrag i low).frag := by rw [hs₂, frag_setTree]
  have hn₂ : s₂.frag n = s.frag n := by rw [hfrag₂, frag_setFrag_of_ne hni, hn]
  have hk₂ : s₂.frag k = high := by rw [hfrag₂, frag_setFrag_of_ne hki, hself]
  have hQ₂ : Q.map s₂.frag = Q.map s.frag := by
    rw [hfrag₂, hQ]
    exact map_congr_left fun j hj => hold j (ne_of_mem_of_not_mem hj hkQ)
  have hrest : ∃ h', s₂.fragtreeInsert k n = some (s₂.setTree h') ∧
      Spliced d₀ nodes ((P ++ i :: Q).map s.frag) e (s₂.frag n) (s₂.setTree h') (P ++ [i]) n
        (k :: Q) := by
    refine insert_rest ?_ (by grind) (fun j hj => ?_) (hn₂ ▸ hr.pos) ?_ ?_ (fun j hj => ?_) ?_
    · rw [hs₂]
      simpa using hl₂
    · rw [hs₂]
      exact hlive₁ j (by grind)
    · rwa [hfrag₂, frag_setFrag_of_ne hni]
    · rw [map_cons, hk₂, hQ₂, hn₂]
      exact ⟨hofs, by omega, hend ▸ hafter⟩
    · by_cases hjk : j = k
      · rw [hjk, hk₂]
        exact .inl ⟨s.frag i, mem_map_of_mem (by simp), hnode, by omega, by omega⟩
      · have hj' : j ∈ P ++ i :: Q := by grind
        rw [hfrag₂]
        exact .inl ⟨s.frag j, mem_map_of_mem hj', hold j hjk ▸ hparts j hj'⟩
    · have hns : nodesOf s₂ (P ++ [i] ++ n :: k :: Q) = nodesOf s₁ (P ++ [i] ++ n :: k :: Q) := by
        rw [nodesOf, hfrag₂, ← nodesOf, nodesOf_setFrag (by rw [hlow₁])]
      rw [hns, hs₂]
      exact ha₁
  obtain ⟨h', hins', hsp⟩ := hrest
  rw [hn₂] at hsp
  exact .inr ⟨s₂.setTree h', P ++ [i], k :: Q, by simp [hins, ← hs₂, hins'], hsp⟩

/-- The new fragment starts with an old one and covers it. -/
lemma replace_covered_spec
    (hofs : (s.frag i).ofs = (s.frag n).ofs) (hstop : (s.frag i).stop ≤ (s.frag n).stop) :
    Outcome d₀ nodes e fn s (P ++ i :: Q) n
      (((s.setTree (s.fragtree.rbReplaceNode i n)).obsoleteNodeFrag i).sweep n) := by
  obtain ⟨hbefore, -, hafter, -, -⟩ := tiles_around hr.tiles
  have hnd := hr.lists.nodup
  have hout := hr.out
  have hi : i ∉ P ++ n :: Q := by grind
  have hperm : (some fn :: nodesOf s (P ++ i :: Q)).Perm
      ((s.frag i).node :: nodesOf s (P ++ n :: Q)) := by
    refine ((nodesOf_middle s P i Q).cons _).trans ((List.Perm.swap _ _ _).trans (.cons _ ?_))
    rw [← hr.node]
    exact (nodesOf_middle s P n Q).symm
  have hpend : Pending d₀ nodes ((P ++ i :: Q).map s.frag) e fn _ P n Q :=
    pending_obsolete (hr.lists.replace hr.out) hi (fun j hj => hr.alive (by grind)) hr.node
      (hofs ▸ hbefore) hafter hstop
      (fun j hj => .inl ⟨s.frag j, mem_map_of_mem (by grind), .refl _⟩) (hr.accounts.perm hperm)
  obtain ⟨s', C, hrun, hsp⟩ := hpend.sweep
  rw [(obsoleteNodeFrag_frame _).2.1] at hsp
  exact .inr ⟨s', P, C, hrun, hsp⟩

/-- The new fragment starts with an old one, which is longer. -/
lemma replace_longer_spec {high : NodeFrag ν}
    (hofs : (s.frag i).ofs = (s.frag n).ofs) (hstop : (s.frag n).stop < (s.frag i).stop)
    (hhigh : high = ⟨(s.frag i).ofs + (s.frag n).size, (s.frag i).size - (s.frag n).size,
      (s.frag i).node⟩) :
    Outcome d₀ nodes e fn s (P ++ i :: Q) n (do
      let s ← ((s.setTree (s.fragtree.rbReplaceNode i n)).setFrag i high).fragtreeInsert i n
      some (0, s)) := by
  obtain ⟨hbefore, -, hafter, -, -⟩ := tiles_around hr.tiles
  have hnd := hr.lists.nodup
  have hi : i ∉ P ++ n :: Q := by grind
  have hhofs : high.ofs = (s.frag n).stop := by rw [hhigh, NodeFrag.stop, hofs]
  have hend : high.stop = (s.frag i).stop := by
    have hsize : high.size = (s.frag i).size - (s.frag n).size := by rw [hhigh]
    rw [NodeFrag.stop, hhofs]
    simp only [NodeFrag.stop] at hstop ⊢
    omega
  obtain ⟨s₁, hs₁⟩ : ∃ s₁, s₁ = (s.setTree (s.fragtree.rbReplaceNode i n)).setFrag i high :=
    ⟨_, rfl⟩
  have hself : s₁.frag i = high := hs₁ ▸ frag_setFrag_self
  have hold : ∀ j, j ≠ i → s₁.frag j = s.frag j := fun j hj => hs₁ ▸ frag_setFrag_of_ne hj
  have hn : s₁.frag n = s.frag n := hold n (by grind)
  have hP : P.map s₁.frag = P.map s.frag := hs₁ ▸ map_setFrag (by grind)
  have hQ : Q.map s₁.frag = Q.map s.frag := hs₁ ▸ map_setFrag (by grind)
  have hnode : high.node = ((s.setTree (s.fragtree.rbReplaceNode i n)).frag i).node := by
    rw [frag_setTree, hhigh]
  rw [← hs₁]
  have hrest : ∃ h, s₁.fragtreeInsert i n = some (s₁.setTree h) ∧
      Spliced d₀ nodes ((P ++ i :: Q).map s.frag) e (s₁.frag n) (s₁.setTree h) P n (i :: Q) := by
    refine insert_rest (hs₁ ▸ hr.lists.replace hr.out) hi (fun j hj => ?_) (hn ▸ hr.pos) ?_ ?_
      (fun j hj => ?_) ?_
    · rw [hs₁]
      exact hr.alive (by grind)
    · rw [hP, hn, ← hofs]
      exact hbefore
    · rw [map_cons, hself, hQ, hn]
      exact ⟨hhofs, by omega, hend ▸ hafter⟩
    · refine .inl ⟨s.frag j, mem_map_of_mem hj, ?_⟩
      by_cases hji : j = i
      · rw [hji, hself]
        exact ⟨hnode, by rw [hhofs, NodeFrag.stop]; omega, by omega⟩
      · rw [hold j hji]
        exact .refl _
    · have hperm := (nodesOf_middle s P n (i :: Q)).symm
      rw [hr.node] at hperm
      rw [hs₁, nodesOf_setFrag hnode]
      exact hr.accounts.perm hperm
  obtain ⟨h, hins, hsp⟩ := hrest
  rw [hn] at hsp
  exact .inr ⟨s₁.setTree h, P, i :: Q, by simp [hins], hsp⟩

end

lemma addFragToFragtree_spec (hr : Ready d₀ nodes e fn s seq n)
    (hmem : ∀ i ∈ mem, i ∉ seq ∧ i ≠ n) :
    Outcome d₀ nodes e fn s seq n (s.addFragToFragtree n mem) := by
  have hofs : (s.dnode fn).ofs = (s.frag n).ofs := (hr.accounts.range fn).1.trans hr.ofs.symm
  obtain ⟨r, hlookup, hfound⟩ := lookupNodeFrag_spec (s.frag n).ofs hr.lists hr.tiles
  unfold Inode.addFragToFragtree
  simp only [hr.node, hofs, hlookup, Option.bind_eq_bind, Option.bind_some]
  rcases hfound with ⟨P, i, Q, rfl, rfl, hlo, hhi⟩ | ⟨rfl, he⟩
  · have hover : ¬ s.lastend (some i) ≤ (s.frag n).ofs := not_le.mpr hhi
    rw [if_neg hover]
    simp only [Option.bind_some]
    by_cases hstart : (s.frag i).ofs < (s.frag n).ofs
    · rw [if_pos hstart]
      have hr₁ := hr.markRefNormal.markNodeOf (i := i) (by simp)
      have hfrag₁ : ((s.markRefNormal fn).markNodeOf i).frag = s.frag := by simp
      refine Outcome.of_frag_eq (t := (s.markRefNormal fn).markNodeOf i) ?_ (by simp) hfrag₁
      generalize (s.markRefNormal fn).markNodeOf i = s₁ at hr₁ hfrag₁ ⊢
      rw [← hfrag₁] at hstart hhi ⊢
      by_cases hsplit : (s₁.frag n).stop < (s₁.frag i).stop
      · rw [if_pos hsplit]
        cases mem with
        | none => exact .inl ⟨s₁, rfl, rfl, fun _ _ => rfl, hr₁.live, hr₁.accounts⟩
        | some k =>
          obtain ⟨hk, hkn⟩ := hmem k rfl
          exact split_spec hr₁ hstart hsplit hk hkn rfl rfl
      · rw [if_neg hsplit]
        exact shrink_spec hr₁ hstart hhi (by omega) rfl
    · rw [if_neg hstart]
      have hsame : (s.frag i).ofs = (s.frag n).ofs := by omega
      by_cases hcov : (s.frag i).stop ≤ (s.frag n).stop
      · rw [if_pos hcov]
        exact replace_covered_spec hr hsame hcov
      · rw [if_neg hcov]
        exact replace_longer_spec hr hsame (by omega) rfl
  · rw [lastend_getLast? hr.tiles, if_pos he]
    split
    · -- The last fragment and the new one share a page.
      have hr₁ : Ready d₀ nodes e fn ((seq.getLast?.elim s s.markNodeOf).markRefNormal fn) seq
          n := by
        cases hlast : seq.getLast? with
        | none => exact hr.markRefNormal
        | some i => exact (hr.markNodeOf (mem_of_getLast? hlast)).markRefNormal
      have hfrag₁ : ((seq.getLast?.elim s s.markNodeOf).markRefNormal fn).frag = s.frag := by
        cases seq.getLast? <;> simp
      have htree₁ : ((seq.getLast?.elim s s.markNodeOf).markRefNormal fn).fragtree =
          s.fragtree := by
        cases seq.getLast? <;> simp
      exact (noOverlappingNode_spec hr₁ (hfrag₁ ▸ he) hmem).of_frag_eq htree₁ hfrag₁
    · exact noOverlappingNode_spec hr he hmem

end Mini2440.Jffs2
