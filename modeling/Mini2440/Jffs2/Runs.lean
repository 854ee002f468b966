import Mini2440.Jffs2.AddNode

/-!
# Sequences of added nodes

After any sequence of calls of `jffs2_add_full_dnode_to_inode` the fragments are the overlay of the
nodes whose calls have succeeded. The node of a failed call is not in the tree, and the caller gives
it up; its counter is not corrected.
-/

namespace Mini2440.Jffs2

open List Library Rbtree

variable {ι ν : Type} [DecidableEq ν] {s s' : Inode ι ν} {i n : ι} {fn : ν} {seq A C : List ι}
  {d d₀ : ν → FullDnode} {added : List ν} {fs : List (NodeFrag ν)} {b : Nat}

/-! ## What holds between two calls -/

/-- The tree is the overlay of the added nodes. -/
structure Kept (d₀ : ν → FullDnode) (added : List ν) (s : Inode ι ν) (seq : List ι) : Prop where
  lists : Lists s.fragtree seq
  live : ∀ i ∈ seq, s.live i = true
  layers : Layers d₀ added (seq.map s.frag)
  accounts : Accounts d₀ added s.dnode (nodesOf s seq)

lemma Kept.markRefNormal (hk : Kept d₀ added s seq) (hfn : some fn ∈ nodesOf s seq) :
    Kept d₀ added (s.markRefNormal fn) seq :=
  { hk with accounts := hk.accounts.markRefNormal hfn }

lemma Kept.markNodeOf (hk : Kept d₀ added s seq) (hi : i ∈ seq) :
    Kept d₀ added (s.markNodeOf i) seq := by
  have ha := hk.accounts.markNodeOf (mem_nodesOf hi)
  obtain ⟨hl, hlive, hlayers, -⟩ := hk
  rw [nodesOf, ← (markNodeOf_frame s i).2.1] at ha
  exact ⟨by simpa using hl, by simpa using hlive, by simpa using hlayers, ha⟩

omit [DecidableEq ν] in
lemma Layers.known (hl : Layers d added fs) {f : NodeFrag ν} (hf : f ∈ fs)
    (hn : f.node = some fn) : fn ∈ added := by
  have hlt := (hl.tiles.bounds hf).2.1
  have hnew := hl.latest f hf f.ofs ⟨le_refl _, hlt⟩
  exact mem_of_find?_eq_some (hnew.symm.trans hn)

section Calls

variable [DecidableEq ι] [Fintype ι]

lemma Kept.markPrev (hk : Kept d₀ added s (A ++ n :: C)) (hfn : (s.frag n).node = some fn) :
    ∃ s', s.markPrev n fn = some s' ∧ Kept d₀ added s' (A ++ n :: C) ∧ s'.frag = s.frag := by
  unfold Inode.markPrev
  split
  · exact ⟨s, rfl, hk, rfl⟩
  · next hpage =>
    have hmem : some fn ∈ nodesOf s (A ++ n :: C) := hfn ▸ mem_nodesOf (by simp)
    -- The offset is not zero, so that there is a fragment before the new one.
    rcases eq_nil_or_concat A with rfl | ⟨A, j, rfl⟩
    · have hzero : (s.frag n).ofs = 0 := hk.layers.tiles.1
      simp [hzero] at hpage
    · refine ⟨(s.markRefNormal fn).markNodeOf j, ?_, ?_, by simp⟩
      · simp [hk.lists.prev]
      · exact (hk.markRefNormal hmem).markNodeOf (by simp)

lemma Kept.markNext (hk : Kept d₀ added s (A ++ n :: C)) (hfn : (s.frag n).node = some fn) :
    ∃ s', s.markNext n fn = some s' ∧ Kept d₀ added s' (A ++ n :: C) := by
  unfold Inode.markNext
  split
  · exact ⟨s, rfl, hk⟩
  · have hmem : some fn ∈ nodesOf s (A ++ n :: C) := hfn ▸ mem_nodesOf (by simp)
    rw [hk.lists.next]
    cases C with
    | nil => exact ⟨s, rfl, hk⟩
    | cons j C => exact ⟨_, rfl, (hk.markRefNormal hmem).markNodeOf (by simp)⟩

/-! ## One call -/

/-- A call of `jffs2_add_full_dnode_to_inode`, with what the allocations give in it. -/
structure Call (ι ν : Type) where
  fn : ν
  mem : Option ι
  mem' : Option ι

/-- The node has data and is not in the tree, and the allocations give objects that are free. -/
structure Call.Proper (c : Call ι ν) (s : Inode ι ν) (added : List ν) : Prop where
  new : c.fn ∉ added
  pos : 0 < (s.dnode c.fn).size
  bound : (s.dnode c.fn).ofs + (s.dnode c.fn).size < 2 ^ 32
  flags : (s.dnode c.fn).flags ≠ .obsolete
  mem : ∀ i ∈ c.mem, s.live i = false
  mem' : ∀ i ∈ c.mem', s.live i = false ∧ c.mem ≠ some i

def Call.perform (c : Call ι ν) (s : Inode ι ν) : Option (Int × Inode ι ν) :=
  s.addFullDnodeToInode c.fn c.mem c.mem'

/-- A call adds the node, or fails and leaves the fragments as they are. -/
lemma Call.perform_spec {c : Call ι ν} (hk : Kept d₀ added s seq) (hc : c.Proper s added) :
    (∃ s' seq', c.perform s = some (0, s') ∧ Kept d₀ (c.fn :: added) s' seq') ∨
      ∃ s', c.perform s = some (-ENOMEM, s') ∧ Kept d₀ added s' seq ∧
        seq.map s'.frag = seq.map s.frag := by
  have hpos := hc.pos
  unfold Call.perform Inode.addFullDnodeToInode
  rw [if_neg (by omega)]
  have hfresh : ∀ i, s.live i = false → i ∉ seq := fun i hi hmem => by
    simp [hk.live i hmem] at hi
  cases hmem : c.mem with
  | none => exact .inr ⟨s, rfl, hk, rfl⟩
  | some n =>
    have hn : n ∉ seq := hfresh n (hc.mem n hmem)
    obtain ⟨hofs, hsize⟩ := hk.accounts.range c.fn
    obtain ⟨new, hnew⟩ : ∃ new : NodeFrag ν,
        new = ⟨(s.dnode c.fn).ofs, (s.dnode c.fn).size, some c.fn⟩ := ⟨_, rfl⟩
    have hself : (s.initFrag n new).frag n = new := frag_initFrag_self
    have hns : nodesOf (s.initFrag n new) seq = nodesOf s seq :=
      nodesOf_congr fun i hi => frag_initFrag_of_ne (ne_of_mem_of_not_mem hi hn)
    have hmap : seq.map (s.initFrag n new).frag = seq.map s.frag := map_initFrag hn
    have hout : some c.fn ∉ nodesOf s seq := fun hin => by
      obtain ⟨i, hi, hnode⟩ := mem_map.mp hin
      exact hc.new (hk.layers.known (mem_map_of_mem hi) hnode)
    have hacc := Accounts.begin (s := s.initFrag n new) (hns ▸ hk.accounts) (hns ▸ hout) hc.flags
    have hready : Ready d₀ (c.fn :: added) (extent d₀ added) c.fn
        ((s.initFrag n new).setFrags c.fn 1) seq n :=
      { lists := hk.lists
        live := fun i hi => live_initFrag (f := new) (hk.live i hi)
        out := hn
        liveNew := live_initFrag_self (f := new)
        tiles := hmap ▸ hk.layers.tiles
        pos := by rwa [frag_setFrags, hself, hnew]
        node := by rw [frag_setFrags, hself, hnew]
        ofs := by rw [frag_setFrags, hself, hnew, hofs]
        accounts := hacc }
    have hmem' : ∀ i ∈ c.mem', i ∉ seq ∧ i ≠ n := fun i hi => by
      obtain ⟨hfree, hne⟩ := hc.mem' i hi
      refine ⟨hfresh i hfree, fun heq => hne ?_⟩
      rw [hmem, heq]
    simp only [Inode.newFragment, ← hnew]
    rcases addFragToFragtree_spec hready hmem' with ⟨s', hrun, href⟩ | ⟨s', A, C, hrun, hsp⟩
    · have hsame := (map_congr_left href.frag).trans hmap
      have hns' : nodesOf s' seq = nodesOf s seq := (nodesOf_congr href.frag).trans hns
      refine .inr ⟨s', by simp [hrun, ENOMEM], ⟨?_, href.live, ?_, ?_⟩, hsame⟩
      · rw [href.fragtree]
        exact hk.lists
      · rw [hsame]
        exact hk.layers
      · rw [hns', ← hns]
        exact href.accounts.forget hc.new
    · have hkept : Kept d₀ (c.fn :: added) s' (A ++ n :: C) := by
        refine { hsp with layers := ?_ }
        have hnew' : s'.frag n = new := by rw [hsp.same, frag_setFrags, hself]
        have hbefore := hsp.before
        have hafter := hsp.after
        rw [frag_setFrags, hself] at hbefore hafter
        rw [map_append, map_cons, hnew']
        refine hk.layers.splice (by rw [hnew, hofs]) (by rw [hnew, hsize]) (by rw [hnew])
          (by rwa [hnew]) hbefore hafter ?_
        rw [← map_append, forall_mem_map]
        intro i hi
        rw [← hmap]
        exact hsp.parts i hi
      have hnode : (s'.frag n).node = some c.fn := by rw [hsp.same, frag_setFrags, hself, hnew]
      obtain ⟨s₁, hrun₁, hk₁, hfrag₁⟩ := hkept.markPrev hnode
      obtain ⟨s₂, hrun₂, hk₂⟩ := hk₁.markNext (hfrag₁ ▸ hnode)
      exact .inl ⟨s₂, _, by simp [hrun, hrun₁, hrun₂], hk₂⟩

/-! ## Sequences of calls -/

def Fragments (s : Inode ι ν) (fs : List (NodeFrag ν)) : Prop :=
  ∃ seq, Lists s.fragtree seq ∧ seq.map s.frag = fs

/-- The fragments are the overlay of the added nodes, where the last one is the first in the list.
Each node knows the number of its fragments, and is obsolete without one. -/
structure IsOverlay (s : Inode ι ν) (added : List ν) (fs : List (NodeFrag ν)) : Prop where
  solid : ∀ f ∈ fs, f.ofs < f.stop
  sorted : fs.Pairwise fun f g => f.stop ≤ g.ofs
  covers : ∀ b, (∃ f ∈ fs, f.Covers b) ↔ b < extent s.dnode added
  bound : extent s.dnode added < 2 ^ 32
  latest : ∀ f ∈ fs, ∀ b, f.Covers b → f.node = newest s.dnode added b
  count : ∀ n ∈ added, (s.dnode n).frags = fs.countP fun f => f.node = some n
  obsolete : ∀ n ∈ added, (s.dnode n).flags = .obsolete ↔ (s.dnode n).frags = 0

def run : Inode ι ν → List ν → List (Call ι ν) → Option (Inode ι ν × List ν)
  | s, added, [] => some (s, added)
  | s, added, c :: calls => do
    let (ret, s') ← c.perform s
    run s' (if ret = 0 then c.fn :: added else added) calls

def AllProper : Inode ι ν → List ν → List (Call ι ν) → Prop
  | _, _, [] => True
  | s, added, c :: calls => c.Proper s added ∧
    ∀ ret s', c.perform s = some (ret, s') →
      AllProper s' (if ret = 0 then c.fn :: added else added) calls

lemma run_spec {calls : List (Call ι ν)} (hk : Kept d₀ added s seq)
    (hbound : extent d₀ added < 2 ^ 32) (hp : AllProper s added calls) :
    ∃ s' added' seq', run s added calls = some (s', added') ∧ Kept d₀ added' s' seq' ∧
      extent d₀ added' < 2 ^ 32 := by
  induction calls generalizing s added seq with
  | nil => exact ⟨s, added, seq, rfl, hk, hbound⟩
  | cons c calls ih =>
    obtain ⟨hc, hrest⟩ := hp
    obtain ⟨hofs, hsize⟩ := hk.accounts.range c.fn
    have hend := hc.bound
    rw [hofs, hsize] at hend
    rcases Call.perform_spec hk hc with ⟨s', seq', hrun, hk'⟩ | ⟨s', hrun, hk', -⟩
    · have hmax : extent d₀ (c.fn :: added) < 2 ^ 32 := Nat.max_lt.mpr ⟨hend, hbound⟩
      obtain ⟨s'', added'', seq'', hrun', hk''⟩ := ih hk' hmax (hrest 0 s' hrun)
      exact ⟨s'', added'', seq'', by simpa [run, hrun] using hrun', hk''⟩
    · obtain ⟨s'', added'', seq'', hrun', hk''⟩ := ih hk' hbound (hrest _ s' hrun)
      exact ⟨s'', added'', seq'', by simpa [run, hrun, ENOMEM] using hrun', hk''⟩

omit [DecidableEq ι] [DecidableEq ν] [Fintype ι] in
lemma extent_congr (h : ∀ n, (d n).ofs = (d₀ n).ofs ∧ (d n).size = (d₀ n).size) :
    extent d added = extent d₀ added := by
  induction added with
  | nil => rfl
  | cons n added ih => rw [extent, extent, ih, (h n).1, (h n).2]

omit [DecidableEq ι] [DecidableEq ν] [Fintype ι] in
lemma newest_congr (h : ∀ n, (d n).ofs = (d₀ n).ofs ∧ (d n).size = (d₀ n).size) :
    newest d added b = newest d₀ added b := by
  have hcov : (fun n => decide ((d n).Covers b)) = fun n => decide ((d₀ n).Covers b) := by
    funext n
    rw [decide_eq_decide, FullDnode.Covers, FullDnode.Covers, (h n).1, (h n).2]
  rw [newest, newest, hcov]

omit [DecidableEq ι] [Fintype ι] in
lemma Kept.isOverlay (hk : Kept d₀ added s seq) (hbound : extent d₀ added < 2 ^ 32) :
    IsOverlay s added (seq.map s.frag) := by
  have hrange := hk.accounts.range
  refine ⟨fun f hf => (hk.layers.tiles.bounds hf).2.1, hk.layers.tiles.pairwise, fun b => ?_, ?_,
    fun f hf b hb => ?_, fun n hn => ?_, hk.accounts.obsolete⟩
  · rw [extent_congr hrange]
    exact hk.layers.tiles.covers.trans (and_iff_right (Nat.zero_le b))
  · rwa [extent_congr hrange]
  · rw [newest_congr hrange]
    exact hk.layers.latest f hf b hb
  · rw [hk.accounts.count n hn, nodesOf, List.countP_map, List.count, List.countP_map]
    refine List.countP_congr fun i _ => ?_
    simp

/-- After any sequence of calls, with allocations that fail at any point, the tree is the overlay of
the nodes that were added, and a call that fails then leaves the fragments as they are. -/
theorem fragtree_overlay (s : Inode ι ν) (hroot : s.fragtree.root = none)
    (calls : List (Call ι ν)) (hp : AllProper s [] calls) :
    ∃ s' added fs, run s [] calls = some (s', added) ∧ Fragments s' fs ∧ IsOverlay s' added fs ∧
      ∀ c : Call ι ν, c.Proper s' added → ∃ ret s'', c.perform s' = some (ret, s'') ∧
        (ret = 0 ∨ ret = -ENOMEM ∧ Fragments s'' fs) := by
  have hstart : Kept s.dnode [] s [] :=
    ⟨lists_nil hroot, by simp, ⟨tiles_nil.mpr rfl, by simp⟩, fun _ => ⟨rfl, rfl⟩, by simp, by simp⟩
  obtain ⟨s', added, seq, hrun, hk, hbound⟩ := run_spec hstart (by simp [extent]) hp
  refine ⟨s', added, seq.map s'.frag, hrun, ⟨seq, hk.lists, rfl⟩, hk.isOverlay hbound, ?_⟩
  intro c hc
  rcases Call.perform_spec hk hc with ⟨s'', seq', hrun', -⟩ | ⟨s'', hrun', hk', hsame⟩
  · exact ⟨0, s'', hrun', .inl rfl⟩
  · exact ⟨_, s'', hrun', .inr ⟨rfl, seq, hk'.lists, hsame⟩⟩

end Calls

def emptyInode : Inode (Fin 9) Bool where
  fragtree := ⟨none, fun _ _ => none, fun _ => (none, .black), fun _ => ()⟩
  frag _ := ⟨0, 0, none⟩
  live _ := false
  dnode _ := ⟨10, 20, 0, .pristine⟩

def firstCall : Call (Fin 9) Bool := ⟨true, some 0, some 1⟩

lemma firstCall_proper : firstCall.Proper emptyInode [] :=
  ⟨by simp, by decide, by decide, by decide, fun _ _ => rfl, fun i hi => ⟨rfl, by
    rintro ⟨⟩
    simp [firstCall] at hi⟩⟩

theorem firstCall_overlay : ∃ s' added fs, run emptyInode [] [firstCall] = some (s', added) ∧
    Fragments s' fs ∧ IsOverlay s' added fs := by
  obtain ⟨s', added, fs, hrun, hfs, hover, -⟩ := fragtree_overlay emptyInode rfl [firstCall]
    ⟨firstCall_proper, fun _ _ _ => trivial⟩
  exact ⟨s', added, fs, hrun, hfs, hover⟩

/-- Without memory for the hole before the node, the call fails, and the counter of the node is one
although it has no fragment. -/
theorem failed_count : ∃ c : Call (Fin 9) Bool, c.Proper emptyInode [] ∧
    ∃ s', c.perform emptyInode = some (-ENOMEM, s') ∧ Fragments s' [] ∧
      (s'.dnode c.fn).frags ≠ ([] : List (NodeFrag Bool)).countP fun f => f.node = some c.fn := by
  refine ⟨⟨true, some 0, none⟩, ⟨by simp, by decide, by decide, by decide, fun _ _ => rfl, by simp⟩,
    _, rfl, ⟨[], lists_nil rfl, rfl⟩, ?_⟩
  decide

end Mini2440.Jffs2
