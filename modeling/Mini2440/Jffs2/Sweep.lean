import Mini2440.Jffs2.Lookup
import Mini2440.Library.Linked

/-!
# Taking out what a new fragment covers

The end of `jffs2_add_frag_to_fragtree`: the fragments behind the new one that it covers go, and the
first one that it does not cover may lose its beginning.
-/

namespace Mini2440.Jffs2

open List Library Rbtree

variable {ι ν : Type} {s : Inode ι ν} {i n : ι} {seq P Q : List ι} {e c : Nat}
  {d₀ : ν → FullDnode} {nodes : List ν}

/-! ## The nodes of the fragments -/

def nodesOf (s : Inode ι ν) (seq : List ι) : List (Option ν) := seq.map fun i => (s.frag i).node

lemma mem_nodesOf (hi : i ∈ seq) : (s.frag i).node ∈ nodesOf s seq :=
  mem_map_of_mem (f := fun j => (s.frag j).node) hi

lemma nodesOf_congr {s' : Inode ι ν} (h : ∀ i ∈ seq, s'.frag i = s.frag i) :
    nodesOf s' seq = nodesOf s seq :=
  map_congr_left fun i hi => congrArg NodeFrag.node (h i hi)

lemma nodesOf_middle (s : Inode ι ν) (pre : List ι) (i : ι) (post : List ι) :
    (nodesOf s (pre ++ i :: post)).Perm ((s.frag i).node :: nodesOf s (pre ++ post)) := by
  rw [nodesOf, nodesOf, map_append, map_append]
  exact perm_middle

lemma nodesOf_setFrag [DecidableEq ι] {f : NodeFrag ν} (hf : f.node = (s.frag i).node) :
    nodesOf (s.setFrag i f) seq = nodesOf s seq := by
  refine map_congr_left fun j _ => ?_
  by_cases hj : j = i
  · subst hj
    rw [frag_setFrag_self, hf]
  · rw [frag_setFrag_of_ne hj]

variable [DecidableEq ν]

/-- The new fragment is in the tree, with what remains of the fragments `fs` before it and behind
it. -/
structure Spliced (d₀ : ν → FullDnode) (nodes : List ν) (fs : List (NodeFrag ν)) (e : Nat)
    (new : NodeFrag ν) (s : Inode ι ν) (A : List ι) (n : ι) (C : List ι) : Prop where
  lists : Lists s.fragtree (A ++ n :: C)
  live : ∀ i ∈ A ++ n :: C, s.live i = true
  same : s.frag n = new
  before : FragTiles 0 (A.map s.frag) new.ofs
  after : FragTiles new.stop (C.map s.frag) (max new.stop e)
  parts : ∀ i ∈ A ++ C, Remains fs e (s.frag i)
  accounts : Accounts d₀ nodes s.dnode (nodesOf s (A ++ n :: C))

/-- The new fragment is in the tree, but covers some of the fragments `Q` behind it. -/
structure Pending (d₀ : ν → FullDnode) (nodes : List ν) (fs : List (NodeFrag ν)) (e : Nat) (fn : ν)
    (s : Inode ι ν) (P : List ι) (n : ι) (Q : List ι) : Prop where
  lists : Lists s.fragtree (P ++ n :: Q)
  live : ∀ i ∈ P ++ n :: Q, s.live i = true
  node : (s.frag n).node = some fn
  before : FragTiles 0 (P.map s.frag) (s.frag n).ofs
  rest : ∃ c, FragTiles c (Q.map s.frag) e ∧ c ≤ (s.frag n).stop
  parts : ∀ i ∈ P ++ Q, Remains fs e (s.frag i)
  accounts : Accounts d₀ nodes s.dnode (nodesOf s (P ++ n :: Q))

/-! ## The loop -/

variable [DecidableEq ι] {fs : List (NodeFrag ν)} {fn : ν}

/-- A fragment that the new one covers has been taken out of the tree. -/
lemma pending_obsolete {h : Heap ι Unit} (hl : Lists h (P ++ n :: Q)) (hi : i ∉ P ++ n :: Q)
    (hlive : ∀ j ∈ P ++ n :: Q, s.live j) (hfn : (s.frag n).node = some fn)
    (hbefore : FragTiles 0 (P.map s.frag) (s.frag n).ofs)
    (hrest : FragTiles (s.frag i).stop (Q.map s.frag) e) (hcov : (s.frag i).stop ≤ (s.frag n).stop)
    (hparts : ∀ j ∈ P ++ Q, Remains fs e (s.frag j))
    (ha : Accounts d₀ nodes s.dnode ((s.frag i).node :: nodesOf s (P ++ n :: Q))) :
    Pending d₀ nodes fs e fn ((s.setTree h).obsoleteNodeFrag i) P n Q := by
  have hfrag : ((s.setTree h).obsoleteNodeFrag i).frag = s.frag := by simp
  refine ⟨by simpa using hl, fun j hj => ?_, hfrag ▸ hfn, hfrag ▸ hbefore,
    ⟨_, hfrag ▸ hrest, hfrag ▸ hcov⟩, hfrag ▸ hparts, ?_⟩
  · rw [(obsoleteNodeFrag_frame _).2.2, Function.update_of_ne (ne_of_mem_of_not_mem hj hi)]
    exact hlive j hj
  · rw [nodesOf, hfrag]
    exact Accounts.obsoleteNodeFrag (s := s.setTree h) ha

variable [Fintype ι]

lemma Pending.drop (hp : Pending d₀ nodes fs e fn s P n (i :: Q))
    (hcov : (s.frag i).stop ≤ (s.frag n).stop) :
    ∃ h, s.fragtree.rbErase i = some h ∧
      Pending d₀ nodes fs e fn ((s.setTree h).obsoleteNodeFrag i) P n Q := by
  have hseq : P ++ n :: i :: Q = (P ++ [n]) ++ i :: Q := by simp
  have hnd := hp.lists.nodup
  obtain ⟨c, ⟨-, -, hrest⟩, -⟩ := hp.rest
  obtain ⟨h, herase, hl⟩ := (hseq ▸ hp.lists).erase
  have hperm : (nodesOf s (P ++ n :: i :: Q)).Perm
      ((s.frag i).node :: nodesOf s (P ++ n :: Q)) := by
    simpa using nodesOf_middle s (P ++ [n]) i Q
  exact ⟨h, herase, pending_obsolete (by simpa using hl) (by grind)
    (fun j hj => hp.live j (by grind)) hp.node hp.before hrest hcov
    (fun j hj => hp.parts j (by grind)) (hp.accounts.perm hperm)⟩

/-- The loop takes out a first part of the fragments behind the new one. -/
lemma Pending.sweepLoop {fuel : Nat} (hp : Pending d₀ nodes fs e fn s P n Q)
    (hfuel : Q.length < fuel) :
    ∃ s' Q', Inode.sweepLoop n fuel s = some (s', Q'.head?) ∧ s'.frag = s.frag ∧
      Pending d₀ nodes fs e fn s' P n Q' ∧ ∀ i ∈ Q'.head?, (s.frag n).stop < (s.frag i).stop := by
  induction Q, fuel, hfuel using walk_induction generalizing s with
  | nil fuel =>
    rw [Inode.sweepLoop, hp.lists.next]
    exact ⟨s, [], rfl, rfl, hp, by simp⟩
  | cons i Q fuel hfuel ih =>
    rw [Inode.sweepLoop, hp.lists.next]
    by_cases hcov : (s.frag i).stop ≤ (s.frag n).stop
    · obtain ⟨h, herase, hnext⟩ := hp.drop hcov
      obtain ⟨s', Q', hrun, hfrag, hp', hhead⟩ := ih hnext
      rw [(obsoleteNodeFrag_frame _).2.1, frag_setTree] at hfrag hhead
      exact ⟨s', Q', by simp [hcov, herase, hrun], hfrag, hp', hhead⟩
    · exact ⟨s, i :: Q, by simp [hcov], rfl, hp, by simpa using hcov⟩

lemma Pending.sweep (hp : Pending d₀ nodes fs e fn s P n Q) :
    ∃ s' C, s.sweep n = some (0, s') ∧ Spliced d₀ nodes fs e (s.frag n) s' P n C := by
  have hlen : Q.length < Fintype.card ι + 1 := by
    have := hp.lists.nodup.length_le_card
    simp only [length_append, length_cons] at this
    omega
  obtain ⟨s₁, Q₁, hrun, hfrag, ⟨hl, hlive, hfn, hbefore, ⟨c, htiles, hc⟩, hparts, ha⟩, hhead⟩ :=
    hp.sweepLoop hlen
  rw [← hfrag] at hhead ⊢
  cases Q₁ with
  | nil =>
    obtain rfl := tiles_nil.mp htiles
    exact ⟨s₁, [], by simp [Inode.sweep, hrun], hl, hlive, rfl, hbefore, (max_eq_left hc).symm,
      hparts, ha⟩
  | cons i Q₁ =>
    have hi : (s₁.frag n).stop < (s₁.frag i).stop := hhead i rfl
    obtain ⟨hlo, hlt, hrest⟩ := htiles
    have hmax : max (s₁.frag n).stop e = e := max_eq_right (hi.le.trans hrest.le)
    by_cases heq : (s₁.frag n).stop = (s₁.frag i).ofs
    · refine ⟨s₁, i :: Q₁, by simp [Inode.sweep, hrun, heq], hl, hlive, rfl, hbefore, ?_, hparts,
        ha⟩
      rw [hmax]
      exact ⟨heq.symm, hi, hrest⟩
    · have hnd := hl.nodup
      obtain ⟨cut, hcut⟩ : ∃ cut : NodeFrag ν,
          cut = ⟨(s₁.frag n).stop, (s₁.frag i).stop - (s₁.frag n).stop, (s₁.frag i).node⟩ :=
        ⟨_, rfl⟩
      have hofs : cut.ofs = (s₁.frag n).stop := congrArg NodeFrag.ofs hcut
      have hnode : cut.node = (s₁.frag i).node := by rw [hcut]
      have hstop : cut.stop = (s₁.frag i).stop := by
        rw [hcut]
        exact Nat.add_sub_cancel' (Nat.le_of_lt hi)
      have hself : (s₁.setFrag i cut).frag i = cut := frag_setFrag_self
      refine ⟨((s₁.setFrag i cut).markNodeOf i).markRefNormal fn, i :: Q₁, ?_, ?_⟩
      · simp [Inode.sweep, hrun, heq, hfn, ← hcut]
      · have hfrag' : (((s₁.setFrag i cut).markNodeOf i).markRefNormal fn).frag =
            (s₁.setFrag i cut).frag := by simp
        refine ⟨by simpa using hl, by simpa using hlive, ?_, ?_, ?_, fun j hj => ?_, ?_⟩
        · rw [hfrag', frag_setFrag_of_ne (by grind)]
        · rw [hfrag', map_setFrag (by grind)]
          exact hbefore
        · rw [hfrag', map_cons, map_setFrag (by grind), hself, hmax]
          exact ⟨hofs, by omega, hstop ▸ hrest⟩
        · rw [hfrag']
          by_cases hji : j = i
          · rw [hji, hself]
            exact (hparts i (by simp)).part ⟨hnode, by omega, by omega⟩
          · rw [frag_setFrag_of_ne hji]
            exact hparts j hj
        · rw [nodesOf, hfrag', ← nodesOf, nodesOf_setFrag hnode]
          refine Accounts.markRefNormal (Accounts.markNodeOf (s := s₁.setFrag i cut) ha ?_) ?_
          · rw [hself, hnode]
            exact mem_nodesOf (by simp)
          · exact hfn ▸ mem_nodesOf (by simp)

end Mini2440.Jffs2
