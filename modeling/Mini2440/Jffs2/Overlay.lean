import Mini2440.Jffs2.Fragtree
import Mini2440.Library.Tiling

/-!
# The fragments are an overlay of the nodes

What `jffs2_add_full_dnode_to_inode` keeps: the fragments in the tree follow one another from the
offset zero on, each belongs to the newest node that has its bytes, and each node knows how many
fragments it has.
-/

namespace Mini2440.Jffs2

open List Function Library Rbtree

variable {ι ν : Type} {d d₀ : ν → FullDnode} {n : ν} {added nodes : List ν}
  {f g new : NodeFrag ν} {fs A C : List (NodeFrag ν)} {ns ns' : List (Option ν)} {b : Nat}

/-! ## What the tree is for -/

def NodeFrag.Covers (f : NodeFrag ν) (b : Nat) : Prop := f.ofs ≤ b ∧ b < f.stop

def FullDnode.Covers (d : FullDnode) (b : Nat) : Prop := d.ofs ≤ b ∧ b < d.ofs + d.size

instance (d : FullDnode) (b : Nat) : Decidable (d.Covers b) := inferInstanceAs (Decidable (_ ∧ _))

def extent (d : ν → FullDnode) : List ν → Nat
  | [] => 0
  | n :: added => max ((d n).ofs + (d n).size) (extent d added)

/-- The last added node with the byte, where the nodes are in the order from the last to the
first. -/
def newest (d : ν → FullDnode) (added : List ν) (b : Nat) : Option ν :=
  added.find? fun n => (d n).Covers b

lemma newest_eq_none (hb : extent d added ≤ b) : newest d added b = none := by
  induction added with
  | nil => rfl
  | cons n added ih =>
    rw [extent, Nat.max_le] at hb
    have hn : ¬ (d n).Covers b := fun h => by
      have := h.2
      omega
    rw [newest, find?_cons_of_neg (by simpa using hn)]
    exact ih hb.2

/-- The fragments follow one another from `a` to `b`. -/
abbrev FragTiles (a : Nat) (fs : List (NodeFrag ν)) (b : Nat) : Prop :=
  Tiles NodeFrag.ofs NodeFrag.stop a fs b

/-- The fragments follow one another from zero on, and belong to the newest nodes. -/
structure Layers (d : ν → FullDnode) (added : List ν) (fs : List (NodeFrag ν)) : Prop where
  tiles : FragTiles 0 fs (extent d added)
  latest : ∀ f ∈ fs, ∀ b, f.Covers b → f.node = newest d added b

def NodeFrag.PartOf (f g : NodeFrag ν) : Prop :=
  f.node = g.node ∧ g.ofs ≤ f.ofs ∧ f.stop ≤ g.stop

lemma NodeFrag.PartOf.refl (f : NodeFrag ν) : f.PartOf f := ⟨rfl, le_refl _, le_refl _⟩

/-- A part of an old fragment, or a hole behind all of them. -/
def Remains (fs : List (NodeFrag ν)) (e : Nat) (f : NodeFrag ν) : Prop :=
  (∃ g ∈ fs, f.PartOf g) ∨ f.node = none ∧ e ≤ f.ofs

lemma Remains.part {e : Nat} (hg : Remains fs e g) (hf : f.PartOf g) : Remains fs e f := by
  obtain ⟨hnode, hlo, hhi⟩ := hf
  rcases hg with ⟨g', hg', hnode', hlo', hhi'⟩ | ⟨hnone, he⟩
  · exact .inl ⟨g', hg', hnode.trans hnode', le_trans hlo' hlo, le_trans hhi hhi'⟩
  · exact .inr ⟨hnode.trans hnone, le_trans he hlo⟩

/-- A new node between what remains of the old fragments before it and behind it. -/
lemma Layers.splice (hl : Layers d added fs) (hofs : new.ofs = (d n).ofs)
    (hsize : new.size = (d n).size) (hnode : new.node = some n) (hpos : 0 < new.size)
    (hbefore : FragTiles 0 A new.ofs)
    (hafter : FragTiles new.stop C (max new.stop (extent d added)))
    (hparts : ∀ f ∈ A ++ C, Remains fs (extent d added) f) :
    Layers d (n :: added) (A ++ new :: C) := by
  have hstop : new.stop = (d n).ofs + (d n).size := by rw [NodeFrag.stop, hofs, hsize]
  refine ⟨?_, ?_⟩
  · rw [extent, ← hstop]
    exact tiles_append.mpr ⟨new.ofs, hbefore, rfl, Nat.lt_add_of_pos_right hpos, hafter⟩
  · intro f hf b hb
    by_cases hcov : (d n).Covers b
    · -- Only the new fragment has the bytes of the new node.
      have hfn : f = new := by
        rw [mem_append, mem_cons] at hf
        obtain ⟨hb₁, hb₂⟩ := hb
        obtain ⟨hc₁, hc₂⟩ := hcov
        rcases hf with hf | rfl | hf
        · have := (hbefore.bounds hf).2.2
          omega
        · rfl
        · have := (hafter.bounds hf).1
          omega
      rw [hfn, hnode, newest, find?_cons_of_pos (by simpa using hcov)]
    · have hne : f ≠ new := by
        rintro rfl
        exact hcov ⟨hofs ▸ hb.1, hstop ▸ hb.2⟩
      rw [newest, find?_cons_of_neg (by simpa using hcov)]
      have hmem : f ∈ A ++ C := by grind
      rcases hparts f hmem with ⟨g, hg, hsame, hlo, hhi⟩ | ⟨hnone, hbeyond⟩
      · rw [hsame]
        exact hl.latest g hg b ⟨le_trans hlo hb.1, lt_of_lt_of_le hb.2 hhi⟩
      · rw [hnone]
        exact (newest_eq_none (le_trans hbeyond hb.1)).symm

/-! ## Counting the fragments of a node -/

lemma some_ne_some {m : ν} (hmn : m ≠ n) : some n ≠ some m := fun heq =>
  hmn (Option.some.inj heq).symm

variable [DecidableEq ν]

/-- The nodes know the number of their fragments, and those without one are obsolete. The ranges of
all nodes are those of `d₀`. -/
structure Accounts (d₀ : ν → FullDnode) (nodes : List ν) (d : ν → FullDnode)
    (ns : List (Option ν)) : Prop where
  range : ∀ n, (d n).ofs = (d₀ n).ofs ∧ (d n).size = (d₀ n).size
  count : ∀ n ∈ nodes, (d n).frags = ns.count (some n)
  obsolete : ∀ n ∈ nodes, (d n).flags = .obsolete ↔ (d n).frags = 0

lemma Accounts.perm (ha : Accounts d₀ nodes d ns) (hp : ns.Perm ns') : Accounts d₀ nodes d ns' :=
  ⟨ha.range, fun n hn => (ha.count n hn).trans (hp.count_eq _), ha.obsolete⟩

lemma Accounts.hole (ha : Accounts d₀ nodes d ns) : Accounts d₀ nodes d (none :: ns) :=
  ⟨ha.range, fun n hn => (ha.count n hn).trans (count_cons_of_ne (by simp)).symm, ha.obsolete⟩

/-- The node of a failed call is left out. -/
lemma Accounts.forget (ha : Accounts d₀ (n :: added) d (some n :: ns)) (hn : n ∉ added) :
    Accounts d₀ added d ns := by
  refine ⟨ha.range, fun m hm => ?_, fun m hm => ha.obsolete m (mem_cons_of_mem _ hm)⟩
  have hne : some n ≠ some m := fun heq => hn (Option.some.inj heq ▸ hm)
  rw [ha.count m (mem_cons_of_mem _ hm), count_cons_of_ne hne]

/-- The record of one node changes, and with it the number of its fragments. -/
lemma Accounts.update {nodes' : List ν} {d' : ν → FullDnode}
    (ha : Accounts d₀ nodes d ns) (hd : ∀ m, m ≠ n → d' m = d m)
    (hrange : (d' n).ofs = (d n).ofs ∧ (d' n).size = (d n).size)
    (hnodes : ∀ m ∈ nodes', m ≠ n → m ∈ nodes)
    (hns : ∀ m, m ≠ n → ns'.count (some m) = ns.count (some m))
    (hn : n ∈ nodes' → (d' n).frags = ns'.count (some n) ∧
      ((d' n).flags = .obsolete ↔ (d' n).frags = 0)) : Accounts d₀ nodes' d' ns' := by
  refine ⟨fun m => ?_, fun m hm => ?_, fun m hm => ?_⟩ <;> by_cases hmn : m = n
  · rw [hmn, hrange.1, hrange.2]
    exact ha.range n
  · rw [hd m hmn]
    exact ha.range m
  · rw [hmn]
    exact (hn (hmn ▸ hm)).1
  · rw [hd m hmn, hns m hmn]
    exact ha.count m (hnodes m hm hmn)
  · rw [hmn]
    exact (hn (hmn ▸ hm)).2
  · rw [hd m hmn]
    exact ha.obsolete m (hnodes m hm hmn)

section Inode

variable {s : Inode ι ν} {nodes : List ν} {i : ι}

lemma Accounts.markRefNormal (ha : Accounts d₀ nodes s.dnode ns) (hn : some n ∈ ns) :
    Accounts d₀ nodes (s.markRefNormal n).dnode ns := by
  have hself : (s.markRefNormal n).dnode n = { s.dnode n with flags := .normal } := update_self ..
  refine ha.update (fun m hm => update_of_ne hm _ _) ?_ (fun m hm _ => hm)
    (fun _ _ => rfl) fun hmem => ?_
  · rw [hself]
    exact ⟨rfl, rfl⟩
  · rw [hself]
    refine ⟨ha.count n hmem, ?_⟩
    have hcount := ha.count n hmem
    have hpos := count_pos_iff.mpr hn
    simp only [reduceCtorEq, false_iff]
    omega

lemma Accounts.markNodeOf (ha : Accounts d₀ nodes s.dnode ns) (hi : (s.frag i).node ∈ ns) :
    Accounts d₀ nodes (s.markNodeOf i).dnode ns := by
  unfold Inode.markNodeOf
  split
  · exact ha
  · next fn hfn => exact ha.markRefNormal (hfn ▸ hi)

lemma Accounts.begin (ha : Accounts d₀ added s.dnode ns) (hns : some n ∉ ns)
    (hflags : (s.dnode n).flags ≠ .obsolete) :
    Accounts d₀ (n :: added) (s.setFrags n 1).dnode (some n :: ns) := by
  have hself : (s.setFrags n 1).dnode n = { s.dnode n with frags := 1 } := update_self ..
  refine ha.update (fun m hm => update_of_ne hm _ _) ?_
    (fun m hm hne => (mem_cons.mp hm).resolve_left hne)
    (fun m hm => count_cons_of_ne (some_ne_some hm)) fun _ => ?_
  · rw [hself]
    exact ⟨rfl, rfl⟩
  · rw [hself, count_cons_self, count_eq_zero.mpr hns]
    simpa using hflags

lemma Accounts.share (ha : Accounts d₀ nodes s.dnode ns) (hn : some n ∈ ns) :
    Accounts d₀ nodes (s.setFrags n ((s.dnode n).frags + 1)).dnode (some n :: ns) := by
  have hself : (s.setFrags n ((s.dnode n).frags + 1)).dnode n =
      { s.dnode n with frags := (s.dnode n).frags + 1 } := update_self ..
  refine ha.update (fun m hm => update_of_ne hm _ _) ?_ (fun m hm _ => hm)
    (fun m hm => count_cons_of_ne (some_ne_some hm)) fun hmem => ?_
  · rw [hself]
    exact ⟨rfl, rfl⟩
  · have hcount := ha.count n hmem
    have hpos := count_pos_iff.mpr hn
    rw [hself, count_cons_self]
    simp only [ha.obsolete n hmem]
    omega

lemma Accounts.shareNode {o : Option ν} (ha : Accounts d₀ nodes s.dnode ns) (ho : o ∈ ns) :
    Accounts d₀ nodes (s.shareNode o).dnode (o :: ns) := by
  cases o with
  | none => exact ha.hole
  | some n => exact ha.share ho

lemma Accounts.obsoleteNodeFrag [DecidableEq ι]
    (ha : Accounts d₀ nodes s.dnode ((s.frag i).node :: ns)) :
    Accounts d₀ nodes (s.obsoleteNodeFrag i).dnode ns := by
  unfold Inode.obsoleteNodeFrag
  cases hnode : (s.frag i).node with
  | none =>
    rw [hnode] at ha
    exact ⟨ha.range, fun m hm => (ha.count m hm).trans (count_cons_of_ne (by simp)), ha.obsolete⟩
  | some fn =>
    rw [hnode] at ha
    have hself : ∀ flags, (((s.setFrags fn ((s.dnode fn).frags - 1)).setFlags fn flags).dnode fn) =
        { s.dnode fn with frags := (s.dnode fn).frags - 1, flags := flags } := fun flags => by
      simp [Inode.setFlags, Inode.setFrags]
    have hflags : (if ((s.setFrags fn ((s.dnode fn).frags - 1)).dnode fn).frags = 0 then
        (s.setFrags fn ((s.dnode fn).frags - 1)).markNodeObsolete fn
      else (s.setFrags fn ((s.dnode fn).frags - 1)).markRefNormal fn) =
        (s.setFrags fn ((s.dnode fn).frags - 1)).setFlags fn
          (if (s.dnode fn).frags - 1 = 0 then .obsolete else .normal) := by
      simp only [Inode.setFrags, update_self]
      split <;> rfl
    simp only [hflags]
    refine ha.update (n := fn) (fun m hm => ?_) ?_ (fun m hm _ => hm)
      (fun m hm => (count_cons_of_ne (some_ne_some hm)).symm) fun hmem => ?_
    · exact (update_of_ne hm _ _).trans (update_of_ne hm _ _)
    · rw [Inode.freeNodeFrag, hself]
      exact ⟨rfl, rfl⟩
    · have hcount := ha.count fn hmem
      rw [count_cons_self] at hcount
      rw [Inode.freeNodeFrag, hself]
      refine ⟨by simp only; omega, ?_⟩
      split <;> simp_all

end Inode

end Mini2440.Jffs2
