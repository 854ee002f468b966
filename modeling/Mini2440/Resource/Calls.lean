import Mini2440.Resource.Forest

/-!
# The calls keep the forest

Each function of `resource.c` that changes the tree makes one of the changes of `Forest`, or
none. The walks end because a list of siblings meets no resource twice, and neither does a way
down, which is a way up read backwards.
-/

namespace Mini2440.Resource

open List Function Library

variable {ι : Type} [DecidableEq ι] {h h' : Heap ι} {kids : ι → List ι}
  {x y new root old a first : ι} {l l₁ l₂ : List ι} {r : Range} {p : Place ι} {fuel : Nat}
  {v : Option ι}

/-! ## The walk of a request -/

/-- How the loop of `__request_resource` ends for the resources `l` that are still to come. -/
inductive Request (h : Heap ι) (root new : ι) (p : Place ι) (l : List ι) :
    Heap ι × Option ι → Prop where
  | linked (l₁ l₂ : List ι) (split : l = l₁ ++ l₂) (before : ∀ c ∈ l₁, h.stop c < h.start new)
      (behind : ∀ c ∈ l₂, h.stop new < h.start c) :
      Request h root new p l (h.link root new (p.after l₁), none)
  | conflict (l₁ l₂ : List ι) (t : ι) (split : l = l₁ ++ t :: l₂)
      (before : ∀ c ∈ l₁, h.stop c < h.start new) (start_le : h.start t ≤ h.stop new)
      (le_stop : h.start new ≤ h.stop t) : Request h root new p l (h, some t)

lemma requestLoop_spec (hl : Linked h.sibling (h.load p) l) (ha : Arranged h.range x l)
    (hfuel : l.length < fuel) :
    ∃ res, requestLoop h root new fuel p = some res ∧ Request h root new p l res := by
  induction l, fuel, hfuel using walk_induction generalizing p with
  | nil fuel =>
    refine ⟨(h.link root new p, none), ?_, .linked [] [] rfl (by simp) (by simp)⟩
    simp [requestLoop, linked_nil.mp hl]
  | cons t l fuel hfuel ih =>
    simp only [requestLoop, hl.1]
    split_ifs with hlater hbefore
    · exact ⟨_, rfl, .linked [] (t :: l) rfl (by simp) (ha.lt_start hlater)⟩
    · have hl' : Linked h.sibling (h.load (.sibling t)) l := hl.2
      obtain ⟨res, hres, hreq⟩ := ih hl' (ha.sublist (sublist_cons_self t l))
      refine ⟨res, hres, ?_⟩
      cases hreq with
      | linked l₁ l₂ split before behind =>
        exact .linked (t :: l₁) l₂ (by rw [split]; rfl)
          (forall_mem_cons.mpr ⟨hbefore, before⟩) behind
      | conflict l₁ l₂ u split before start_le le_stop =>
        exact .conflict (t :: l₁) l₂ u (by rw [split]; rfl)
          (forall_mem_cons.mpr ⟨hbefore, before⟩) start_le le_stop
    · exact ⟨_, rfl, .conflict [] l t rfl (by simp) (BitVec.not_lt.mp hlater)
        (BitVec.not_lt.mp hbefore)⟩

/-- Whatever `__request_resource` returns, the memory is a forest. -/
lemma Request.forest (hf : h.Forest kids) (hfree : ∀ x, new ∉ kids x) (hout : h.Outside new root)
    (hin : (h.range new).Inside (h.range root)) {res : Heap ι × Option ι}
    (hreq : Request h root new (.child root) (kids root) res) : ∃ kids', res.1.Forest kids' := by
  cases hreq with
  | linked l₁ l₂ split before behind => exact ⟨_, hf.link split hfree hout hin before behind⟩
  | conflict l₁ l₂ t split before start_le le_stop => exact ⟨kids, hf⟩

/-! ## The walk of a release -/

lemma releaseLoop_of_mem (hl : Linked h.sibling (h.load p) (l₁ ++ old :: l₂))
    (hfuel : l₁.length < fuel) :
    releaseLoop h old fuel p = some ({ h.store (p.after l₁) (h.sibling old) with
      parent := update (h.store (p.after l₁) (h.sibling old)).parent old none }, 0) := by
  induction l₁, fuel, hfuel using walk_induction generalizing p with
  | nil fuel =>
    simp only [releaseLoop, hl.1, if_true, Place.after_nil]
  | cons t l₁ fuel hfuel ih =>
    have hne : t ≠ old := by
      have hnodup := hl.nodup
      grind
    have hl' := hl.2
    simp only [releaseLoop, hl.1, if_neg hne]
    exact ih hl'

lemma releaseLoop_of_notMem (hl : Linked h.sibling (h.load p) l) (hold : old ∉ l)
    (hfuel : l.length < fuel) : releaseLoop h old fuel p = some (h, -EINVAL) := by
  induction l, fuel, hfuel using walk_induction generalizing p with
  | nil fuel =>
    simp [releaseLoop, linked_nil.mp hl]
  | cons t l fuel hfuel ih =>
    obtain ⟨hne, hold⟩ := not_or.mp (mt mem_cons.mpr hold)
    have hl' := hl.2
    simp only [releaseLoop, hl.1, if_neg (Ne.symm hne)]
    exact ih hl' hold

lemma Heap.Forest.free_of_unlink (hf : h.Forest kids) (hkids : kids x = l₁ ++ old :: l₂) :
    ∀ y, old ∉ update kids x (l₁ ++ l₂) y := by
  intro y hy
  have hnodup := (hf.family x).linked.nodup
  by_cases hyx : y = x
  · grind
  · rw [update_of_ne hyx] at hy
    exact hyx (hf.eq_of_mem hy (by rw [hkids]; simp))

/-! ## The walks of an insertion -/

omit [DecidableEq ι] in
/-- The children from `first` on that go below `new`, if none of them is only partly inside. -/
lemma lastInside_spec (hl : Linked h.sibling (h.sibling first) l)
    (ha : Arranged h.range x (first :: l)) (hfuel : l.length < fuel) :
    (∃ c, lastInside h new fuel first = some (.error c)) ∨
      ∃ next seg l₂, lastInside h new fuel first = some (.ok next) ∧
        first :: l = seg ++ [next] ++ l₂ ∧
        (∀ c ∈ seg ++ [next], h.start new ≤ h.start c ∧ h.stop c ≤ h.stop new) ∧
        ∀ c ∈ l₂, h.stop new < h.start c := by
  induction l, fuel, hfuel using walk_induction generalizing first with
  | nil fuel =>
    simp only [lastInside, linked_nil.mp hl]
    split_ifs with hpart
    · exact .inl ⟨first, rfl⟩
    · exact .inr ⟨first, [], [], rfl, rfl, by simpa using hpart, by simp⟩
  | cons t l fuel hfuel ih =>
    have ha' : Arranged h.range x (t :: l) := ha.sublist (sublist_cons_self _ _)
    simp only [lastInside, hl.1]
    split_ifs with hpart hlater
    · exact .inl ⟨first, rfl⟩
    · exact .inr ⟨first, [], t :: l, rfl, rfl, by simpa using hpart, ha'.lt_start hlater⟩
    · rw [not_or, BitVec.not_lt, BitVec.not_lt] at hpart
      rcases ih hl.2 ha' with
        hres | ⟨next, seg, l₂, hres, hsplit, hin, hhi⟩
      · exact .inl hres
      · refine .inr ⟨next, first :: seg, l₂, hres, by rw [hsplit]; rfl, ?_, hhi⟩
        exact forall_mem_cons.mpr ⟨hpart, hin⟩

lemma reparent_eq (hl : Linked h.sibling v l) (hfuel : l.length < fuel) :
    reparent h new fuel v =
      some { h with parent := fun c => if c ∈ l then some new else h.parent c } := by
  induction l, fuel, hfuel using walk_induction generalizing h v with
  | nil fuel =>
    simp only [linked_nil.mp hl, reparent, not_mem_nil, if_false]
  | cons t l fuel hfuel ih =>
    have hl' : Linked { h with parent := update h.parent t (some new) }.sibling
      (h.sibling t) l := hl.2
    rw [hl.1, reparent, ih hl']
    congr 2
    funext c
    grind

lemma predecessor_eq (hl : LinkedTo h.sibling v (l ++ [a]) (some x))
    (hx : x ∉ l ++ [a]) (hfuel : l.length < fuel) : predecessor h x fuel v = some a := by
  induction l, fuel, hfuel using walk_induction generalizing v with
  | nil fuel =>
    obtain ⟨rfl, hnext⟩ := hl
    simp only [predecessor, linkedTo_nil.mp hnext, if_true]
  | cons t l fuel hfuel ih =>
    obtain ⟨rfl, hnext⟩ := hl
    have hx' : x ∉ l ++ [a] := fun hmem => hx (mem_cons_of_mem t hmem)
    have hne : h.sibling t ≠ some x := fun heq =>
      hx' (mem_of_mem_head? (hnext.head.symm.trans heq))
    rw [predecessor, if_neg hne]
    exact ih hnext hx'

omit [DecidableEq ι] in
lemma childrenInside_eq (hl : Linked h.sibling v l) (hfuel : l.length < fuel) :
    childrenInside h r fuel v =
      some (l.all fun c => !decide (h.start c < r.start ∨ h.stop c > r.stop)) := by
  induction l, fuel, hfuel using walk_induction generalizing v with
  | nil fuel =>
    simp [linked_nil.mp hl, childrenInside]
  | cons t l fuel hfuel ih =>
    rw [hl.1, childrenInside, all_cons]
    split_ifs with hout
    · simp [hout]
    · rw [ih hl.2]
      simp [hout]

/-! ## Requesting -/

variable [Fintype ι]

lemma requestResourceConflict_of_not_inside (hin : ¬ (h.range new).Inside (h.range root)) :
    requestResourceConflict h root new = some (h, some root) := by
  unfold requestResourceConflict
  split_ifs with hempty habove hbelow
  · rfl
  · rfl
  · rfl
  · exact absurd ⟨BitVec.not_lt.mp hempty, BitVec.not_lt.mp habove, BitVec.not_lt.mp hbelow⟩ hin

lemma requestResourceConflict_of_inside (hf : h.Family root l)
    (hin : (h.range new).Inside (h.range root)) :
    ∃ res, requestResourceConflict h root new = some res ∧
      Request h root new (.child root) l res := by
  have hempty : ¬ h.stop new < h.start new := BitVec.not_lt.mpr hin.nonempty
  have habove : ¬ h.start new < h.start root := BitVec.not_lt.mpr hin.above
  have hbelow : ¬ h.stop new > h.stop root := BitVec.not_lt.mpr hin.below
  rw [requestResourceConflict, if_neg hempty, if_neg habove, if_neg hbelow]
  exact requestLoop_spec hf.linked hf.arranged (Nat.lt_succ_of_le hf.linked.length_le_card)

lemma requestResourceConflict_spec (hf : h.Forest kids) (hfree : ∀ x, new ∉ kids x)
    (hout : h.Outside new root) :
    ∃ res, requestResourceConflict h root new = some res ∧ ∃ kids', res.1.Forest kids' := by
  by_cases hin : (h.range new).Inside (h.range root)
  · obtain ⟨res, hres, hreq⟩ := requestResourceConflict_of_inside (hf.family _) hin
    exact ⟨res, hres, hreq.forest hf hfree hout hin⟩
  · exact ⟨_, requestResourceConflict_of_not_inside hin, kids, hf⟩

/-! ## Releasing -/

lemma releaseResource_of_mem (hf : h.Forest kids) (hkids : kids x = l₁ ++ old :: l₂) :
    releaseResource h old = some ({ h.store ((Place.child x).after l₁) (h.sibling old) with
      parent := update h.parent old none }, 0) := by
  have hlinked := (hf.family x).linked
  have hcard := hlinked.length_le_card
  rw [hkids] at hlinked hcard
  rw [length_append] at hcard
  rw [releaseResource, (hf.family x).parent old (by rw [hkids]; simp)]
  refine (releaseLoop_of_mem hlinked (by omega)).trans ?_
  rw [Heap.store_parent]

lemma releaseResource_spec (hf : h.Forest kids) (hparent : h.parent old = some x) :
    ∃ res, releaseResource h old = some res ∧ ∃ kids', res.1.Forest kids' := by
  by_cases hmem : old ∈ kids x
  · obtain ⟨l₁, l₂, hkids⟩ := append_of_mem hmem
    refine ⟨_, releaseResource_of_mem hf hkids, update kids x (l₁ ++ l₂), ?_⟩
    have hfree := hf.free_of_unlink hkids
    have hnone : Linked (h.store ((Place.child x).after l₁) (h.sibling old)).parent none [] := rfl
    have hforest := (hf.unlink hkids).setParent hfree hnone (by simp)
    rwa [Heap.store_parent] at hforest
  · have hlinked := (hf.family x).linked
    refine ⟨(h, -EINVAL), ?_, kids, hf⟩
    rw [releaseResource, hparent]
    exact releaseLoop_of_notMem hlinked hmem (Nat.lt_succ_of_le hlinked.length_le_card)

/-! ## Inserting -/

/-- How the first loop of `__insert_resource` ends. -/
inductive Descends (h : Heap ι) (kids : ι → List ι) (new : ι) : Descent ι → Prop where
  | done (h' : Heap ι) (conflict : Option ι) (kids' : ι → List ι) (forest : h'.Forest kids') :
      Descends h kids new (.done h' conflict)
  | split (parent first : ι) (l₁ l₂ : List ι) (children : kids parent = l₁ ++ first :: l₂)
      (inside : (h.range new).Inside (h.range parent))
      (before : ∀ c ∈ l₁, h.stop c < h.start new) (outside : h.Outside new parent) :
      Descends h kids new (.split parent first)

section

variable (hf : h.Forest kids)

include hf

lemma descend_spec (hfree : ∀ x, new ∉ kids x) {path : List ι}
    (hpath : Linked h.parent (some x) path) (hout : h.Outside new x)
    (hfuel : Fintype.card ι < fuel + path.length) :
    ∃ d, descend h new fuel x = some d ∧ Descends h kids new d := by
  induction fuel generalizing x path with
  | zero =>
    have hcard := hpath.length_le_card
    omega
  | succ fuel ih =>
    by_cases hin : (h.range new).Inside (h.range x)
    · obtain ⟨res, hres, hreq⟩ := requestResourceConflict_of_inside (hf.family _) hin
      simp only [descend, hres]
      cases hreq with
      | linked l₁ l₂ split before behind =>
        exact ⟨_, rfl, .done _ _ _ (hf.link split hfree hout hin before behind)⟩
      | conflict l₁ l₂ t split before start_le le_stop =>
        have hmem : t ∈ kids x := by rw [split]; simp
        have hparent := (hf.family x).parent t hmem
        dsimp only
        split_ifs
        · exact ⟨_, rfl, .done _ _ _ hf⟩
        · exact ⟨_, rfl, .done _ _ _ hf⟩
        · exact ⟨_, rfl, .split x t l₁ l₂ split hin before hout⟩
        · exact ⟨_, rfl, .split x t l₁ l₂ split hin before hout⟩
        · -- one step down the way up is one longer
          have hpath' : Linked h.parent (some t) (t :: path) := ⟨rfl, hparent ▸ hpath⟩
          have hne : new ≠ t := by
            rintro rfl
            exact hfree x hmem
          exact ih hpath' (hout.step hparent hne) (by simp only [length_cons]; omega)
    · rw [descend, requestResourceConflict_of_not_inside hin]
      exact ⟨_, by simp only [if_true]; rfl, .done _ _ _ hf⟩

lemma adopt_eq {parent next : ι} {seg : List ι} (hkids : kids parent = l₁ ++ (seg ++ [next]) ++ l₂)
    (hfirst : (seg ++ [next]).head? = some first) (hfree : ∀ x, new ∉ kids x) (hne : parent ≠ new) :
    adopt h parent new first next = some ((h.move parent new first next (seg ++ [next])).store
      ((Place.child parent).after l₁) (some new)) := by
  have hlinked := (hf.family parent).linked
  have hcard := hlinked.length_le_card
  have hnew := hfree parent
  rw [hkids] at hlinked hcard hnew
  have hnodup := hlinked.nodup
  simp only [length_append] at hcard
  rw [append_assoc] at hlinked
  obtain ⟨first', hl₁, hrest⟩ := linked_append.mp hlinked
  obtain ⟨mid, hrow, -⟩ := linked_append.mp hrest
  obtain rfl : first' = some first := hrow.head.trans hfirst
  have hcut : Linked (h.move parent new first next (seg ++ [next])).sibling (some first)
      (seg ++ [next]) := Heap.linked_move hrow (by grind) (by grind)
  have hmove : reparent { h.move parent new first next (seg ++ [next]) with
      parent := update h.parent new (some parent) } new (Fintype.card ι + 1)
      (some first) = some (h.move parent new first next (seg ++ [next])) :=
    reparent_eq hcut (by simp only [length_append]; omega)
  have hchild : (h.move parent new first next (seg ++ [next])).child parent = h.child parent :=
    update_of_ne hne _ _
  refine (congrArg (Option.bind · _) hmove).trans ?_
  rw [Option.bind_some]
  rw [hchild]
  cases l₁ using reverseRecOn with
  | nil =>
    rw [if_pos (linkedTo_nil.mp hl₁)]
    rfl
  | append_singleton l a =>
    have hmem : first ∈ seg ++ [next] := mem_of_mem_head? hfirst
    have hnot : first ∉ l ++ [a] := by grind
    have hhead : h.child parent ≠ some first := fun heq =>
      hnot (mem_of_mem_head? (hl₁.head.symm.trans heq))
    have hl₁' : LinkedTo (h.move parent new first next (seg ++ [next])).sibling (h.child parent)
        (l ++ [a]) (some first) :=
      hl₁.congr fun c hc => Heap.move_sibling_of_ne (by grind) (by grind)
    have hfuel : l.length < Fintype.card ι + 1 := by
      simp only [length_append] at hcard
      omega
    rw [if_neg hhead, Place.after_concat]
    exact congrArg (Option.bind · _) (predecessor_eq hl₁' hnot hfuel)

lemma insertResourceConflict_spec (hfree : ∀ x, new ∉ kids x) (hout : h.Outside new root) :
    ∃ res, insertResourceConflict h root new = some res ∧ ∃ kids', res.1.Forest kids' := by
  obtain ⟨path, hpath⟩ := hf.rooted root
  have hfuel : Fintype.card ι < Fintype.card ι + 1 + path.length := by omega
  obtain ⟨d, hd, hdesc⟩ := descend_spec hf hfree hpath hout hfuel
  rw [insertResourceConflict, hd]
  cases hdesc with
  | done h' conflict kids' forest => exact ⟨_, rfl, kids', forest⟩
  | split parent first l₁ l₂ children inside before outside =>
    have hold := hf.family parent
    rw [children] at hold
    obtain ⟨first', hl₁, hrow⟩ := linked_append.mp hold.linked
    have hcard := hold.linked.length_le_card
    have hfuel : l₂.length < Fintype.card ι + 1 := by
      simp only [length_append, length_cons] at hcard
      omega
    have hrest := hold.arranged.sublist (sublist_append_right ..)
    rcases lastInside_spec hrow.2 hrest hfuel with
      ⟨c, hc⟩ | ⟨next, seg, l₃, hnext, hsplit, hseg, hhi⟩
    · refine ⟨(h, some c), ?_, kids, hf⟩
      change (lastInside h new _ first).bind _ = _
      rw [hc]
      rfl
    · have hkids : kids parent = l₁ ++ (seg ++ [next]) ++ l₃ := by
        simp [children, hsplit]
      have hfirst : (seg ++ [next]).head? = some first := by
        cases seg <;> simp_all
      refine ⟨(_, none), ?_, _, hf.move hkids hfree outside hfirst inside before hhi hseg⟩
      change (lastInside h new _ first).bind _ = _
      rw [hnext]
      change (adopt h parent new first next).bind _ = _
      rw [adopt_eq hf hkids hfirst hfree (outside.ne hf.rooted).symm]
      rfl

/-! ## Adjusting -/

/-- The tests against the neighbours are those of the whole row. -/
lemma fitsBetween_spec (hkids : kids x = l₁ ++ a :: l₂) :
    ∃ b, fitsBetween h a x r = some b ∧ (b → h.start x ≤ r.start ∧ r.stop ≤ h.stop x ∧
      (∀ c ∈ l₁, h.stop c < r.start) ∧ ∀ c ∈ l₂, r.stop < h.start c) := by
  have hold := hf.family x
  rw [hkids] at hold
  have hcard := hold.linked.length_le_card
  have hnodup := hold.linked.nodup
  obtain ⟨mid, hl₁, rfl, hl₂⟩ := linked_append.mp hold.linked
  have hrest : Arranged h.range x (a :: l₂) := hold.arranged.sublist (sublist_append_right ..)
  unfold fitsBetween
  by_cases hparent : r.start < h.start x ∨ r.stop > h.stop x
  · exact ⟨false, if_pos hparent, by simp⟩
  rw [if_neg hparent]
  by_cases hsibling : (h.sibling a).any fun t => h.start t ≤ r.stop
  · exact ⟨false, if_pos hsibling, by simp⟩
  · rw [if_neg hsibling]
    rw [not_or, BitVec.not_lt, BitVec.not_lt] at hparent
    have hhi : ∀ c ∈ l₂, r.stop < h.start c := by
      cases l₂ with
      | nil => simp
      | cons t l =>
        rw [hl₂.1, Option.any_some, decide_eq_true_eq, BitVec.not_le] at hsibling
        exact (hrest.sublist (sublist_cons_self ..)).lt_start hsibling
    cases l₁ using reverseRecOn with
    | nil =>
      rw [if_pos (linkedTo_nil.mp hl₁)]
      exact ⟨true, rfl, fun _ => ⟨hparent.1, hparent.2, by simp, hhi⟩⟩
    | append_singleton l b =>
      have hnot : a ∉ l ++ [b] := by grind
      have hfirst : h.child x ≠ some a := fun heq =>
        hnot (mem_of_mem_head? (hl₁.head.symm.trans heq))
      have hfuel : l.length < Fintype.card ι + 1 := by
        simp only [length_append] at hcard
        omega
      rw [if_neg hfirst, predecessor_eq hl₁ hnot hfuel]
      refine ⟨_, rfl, fun hlt => ⟨hparent.1, hparent.2, ?_, hhi⟩⟩
      have hlt' : h.stop b < r.start := by
        rwa [Bool.not_eq_true', decide_eq_false_iff_not, BitVec.not_le] at hlt
      exact (hold.arranged.sublist (sublist_append_left ..)).stop_lt hlt'

lemma fitsTree_spec (hattached : ∀ x, h.parent a = some x → a ∈ kids x ∧ r.start ≤ r.stop) :
    ∃ b, fitsTree h a r = some b ∧ (b → ∀ y l₁ l₂, kids y = l₁ ++ a :: l₂ →
      r.Inside (h.range y) ∧ (∀ c ∈ l₁, h.stop c < r.start) ∧ ∀ c ∈ l₂, r.stop < h.start c) := by
  unfold fitsTree
  cases hparent : h.parent a with
  | none =>
    refine ⟨true, rfl, fun _ y l₁ l₂ hkids => ?_⟩
    have hy := (hf.family y).parent a (by rw [hkids]; simp)
    exact absurd (hparent.symm.trans hy) (by simp)
  | some x =>
    obtain ⟨hmem, hnonempty⟩ := hattached x hparent
    obtain ⟨l₁, l₂, hkids⟩ := append_of_mem hmem
    obtain ⟨b, hb, -⟩ := fitsBetween_spec (r := r) hf hkids
    refine ⟨b, hb, fun htrue y l₁ l₂ hkids' => ?_⟩
    obtain rfl : y = x := hf.eq_of_mem (by rw [hkids']; simp) hmem
    obtain ⟨b', hb', hspec⟩ := fitsBetween_spec (r := r) hf hkids'
    obtain ⟨habove, hbelow, hlo, hhi⟩ := hspec (by grind)
    exact ⟨⟨hnonempty, habove, hbelow⟩, hlo, hhi⟩

lemma adjustResource_spec {start size : Word}
    (hattached : ∀ x, h.parent a = some x → a ∈ kids x ∧ start ≤ start + size - 1) :
    ∃ res, adjustResource h a start size = some res ∧ ∃ kids', res.1.Forest kids' := by
  have hlinked := (hf.family a).linked
  have hfuel := Nat.lt_succ_of_le hlinked.length_le_card
  obtain ⟨b, hb, hplace⟩ := fitsTree_spec (r := ⟨start, start + size - 1⟩) hf hattached
  simp only [adjustResource, hb, Option.bind_eq_bind, Option.bind_some,
    childrenInside_eq hlinked hfuel]
  split_ifs with hfit hall
  · exact ⟨_, rfl, kids, hf⟩
  · refine ⟨_, rfl, kids, hf.setRange (fun c hc => ?_) (hplace (by simpa using hfit))⟩
    have hc' := all_eq_true.mp hall c hc
    rw [Bool.not_eq_true', decide_eq_false_iff_not, not_or, BitVec.not_lt, BitVec.not_lt] at hc'
    exact ⟨((hf.family a).arranged.inside c hc).nonempty, hc'.1, hc'.2⟩
  · exact ⟨_, rfl, kids, hf⟩

end

end Mini2440.Resource
