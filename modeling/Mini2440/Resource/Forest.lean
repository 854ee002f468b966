import Mini2440.Resource.Heap

/-!
# Families of resources

The children of a resource as a list: they are linked in the order of their addresses, they know
their parent, and their ranges are not empty, disjoint and inside the parent's. `Forest` says so
of every resource in memory, and that no resource is above itself. This module proves what one
change of the memory does to a forest: linking a resource in, taking one out, changing a range,
and moving a row of children below a new resource.
-/

namespace Mini2440.Resource

open List Function Library

structure Range.Inside (r outer : Range) : Prop where
  nonempty : r.start ≤ r.stop
  above : outer.start ≤ r.start
  below : r.stop ≤ outer.stop

variable {ι : Type}

/-- The ranges of the list are inside that of `x`, in the order of their addresses. -/
structure Arranged (range : ι → Range) (x : ι) (l : List ι) : Prop where
  inside : ∀ c ∈ l, (range c).Inside (range x)
  sorted : l.Pairwise fun c d => (range c).stop < (range d).start

/-- `l` lists the children of `x`. -/
structure Heap.Family (h : Heap ι) (x : ι) (l : List ι) : Prop where
  linked : Linked h.sibling (h.child x) l
  parent : ∀ c ∈ l, h.parent c = some x
  arranged : Arranged h.range x l

/-- `kids` lists the children of all resources. -/
structure Heap.Forest (h : Heap ι) (kids : ι → List ι) : Prop where
  family : ∀ x, h.Family x (kids x)
  rooted : Rooted h.parent

/-- The children of `x` as the pointers lead to them. -/
def Heap.children [Fintype ι] (h : Heap ι) (x : ι) : List ι :=
  follow h.sibling (Fintype.card ι) (h.child x)

/-- The property of the tree: the pointers lead to a family for every resource. -/
def Heap.WellFormed [Fintype ι] (h : Heap ι) : Prop := ∀ x, h.Family x (h.children x)

instance (r outer : Range) : Decidable (r.Inside outer) :=
  decidable_of_iff (r.start ≤ r.stop ∧ outer.start ≤ r.start ∧ r.stop ≤ outer.stop)
    ⟨fun ⟨h₁, h₂, h₃⟩ => ⟨h₁, h₂, h₃⟩, fun ⟨h₁, h₂, h₃⟩ => ⟨h₁, h₂, h₃⟩⟩

instance (range : ι → Range) (x : ι) (l : List ι) : Decidable (Arranged range x l) :=
  decidable_of_iff ((∀ c ∈ l, (range c).Inside (range x)) ∧
    l.Pairwise fun c d => (range c).stop < (range d).start)
    ⟨fun ⟨h₁, h₂⟩ => ⟨h₁, h₂⟩, fun ⟨h₁, h₂⟩ => ⟨h₁, h₂⟩⟩

instance [DecidableEq ι] (h : Heap ι) (x : ι) (l : List ι) : Decidable (h.Family x l) :=
  decidable_of_iff (Linked h.sibling (h.child x) l ∧ (∀ c ∈ l, h.parent c = some x) ∧
    Arranged h.range x l)
    ⟨fun ⟨h₁, h₂, h₃⟩ => ⟨h₁, h₂, h₃⟩, fun ⟨h₁, h₂, h₃⟩ => ⟨h₁, h₂, h₃⟩⟩

instance [DecidableEq ι] [Fintype ι] (h : Heap ι) : Decidable h.WellFormed :=
  inferInstanceAs (Decidable (∀ x, h.Family x (h.children x)))

/-- No way up from `root` leads to `new`. -/
def Heap.Outside (h : Heap ι) (new root : ι) : Prop :=
  ∀ l, Linked h.parent (some root) l → new ∉ l

variable {h h' : Heap ι} {kids : ι → List ι} {x y new root a : ι} {l l₁ l₂ : List ι} {r : Range}
  {range range' : ι → Range}

/-! ## Arranged ranges -/

namespace Arranged

lemma congr (ha : Arranged range x l) (hx : range' x = range x)
    (hsame : ∀ c ∈ l, range' c = range c) : Arranged range' x l := by
  refine ⟨fun c hc => ?_, ha.sorted.imp_of_mem fun {c d} hc hd hlt => ?_⟩
  · rw [hsame c hc, hx]
    exact ha.inside c hc
  · rwa [hsame c hc, hsame d hd]

lemma sublist (ha : Arranged range x l) (hsub : l₁.Sublist l) : Arranged range x l₁ :=
  ⟨fun c hc => ha.inside c (hsub.subset hc), ha.sorted.sublist hsub⟩

lemma insert (ha : Arranged range x (l₁ ++ l₂)) (hin : (range new).Inside (range x))
    (hlo : ∀ c ∈ l₁, (range c).stop < (range new).start)
    (hhi : ∀ c ∈ l₂, (range new).stop < (range c).start) : Arranged range x (l₁ ++ new :: l₂) := by
  obtain ⟨h₁, h₂, h₁₂⟩ := pairwise_append.mp ha.sorted
  refine ⟨fun c hc => ?_, pairwise_append.mpr ⟨h₁, pairwise_cons.mpr ⟨hhi, h₂⟩, ?_⟩⟩
  · rcases mem_append.mp hc with hc | hc
    · exact ha.inside c (by simp [hc])
    · rcases mem_cons.mp hc with rfl | hc
      · exact hin
      · exact ha.inside c (by simp [hc])
  · intro c hc d hd
    rcases mem_cons.mp hd with rfl | hd
    · exact hlo c hc
    · exact h₁₂ c hc d hd

lemma lt_start (ha : Arranged range x (a :: l)) {v : Word} (hv : v < (range a).start) :
    ∀ c ∈ a :: l, v < (range c).start := by
  intro c hc
  rcases mem_cons.mp hc with rfl | hc
  · exact hv
  · have hlt := (pairwise_cons.mp ha.sorted).1 c hc
    have hne := (ha.inside a (by simp)).nonempty
    bv_omega

lemma stop_lt (ha : Arranged range x (l ++ [a])) {v : Word} (hv : (range a).stop < v) :
    ∀ c ∈ l ++ [a], (range c).stop < v := by
  intro c hc
  rcases mem_append.mp hc with hc | hc
  · have hlt := (pairwise_append.mp ha.sorted).2.2 c hc a (by simp)
    have hne := (ha.inside a (by simp)).nonempty
    bv_omega
  · obtain rfl : c = a := by simpa using hc
    exact hv

end Arranged

/-! ## Families and ways up -/

lemma Heap.Family.congr (hf : h.Family x l) (hchild : h'.child x = h.child x)
    (hrange : h'.range x = h.range x)
    (hsame : ∀ c ∈ l, h'.sibling c = h.sibling c ∧ h'.parent c = h.parent c ∧
      h'.range c = h.range c) : h'.Family x l where
  linked := hchild ▸ hf.linked.congr fun c hc => (hsame c hc).1
  parent c hc := (hsame c hc).2.1.trans (hf.parent c hc)
  arranged := hf.arranged.congr hrange fun c hc => (hsame c hc).2.2

lemma Heap.Family.children_eq [Fintype ι] (hf : h.Family x l) : h.children x = l :=
  hf.linked.follow_eq hf.linked.length_le_card

lemma Heap.Family.notMem_of_parent (hf : h.Family x l) (hparent : h.parent a = none) : a ∉ l :=
  fun ha => by simpa [hparent] using hf.parent a ha

namespace Heap.Forest

lemma eq_of_mem (hf : h.Forest kids) (hx : a ∈ kids x) (hy : a ∈ kids y) : x = y :=
  Option.some.inj (((hf.family x).parent a hx).symm.trans ((hf.family y).parent a hy))

lemma wellFormed [Fintype ι] (hf : h.Forest kids) : h.WellFormed := fun x => by
  rw [(hf.family x).children_eq]
  exact hf.family x

lemma not_mem_path (hf : h.Forest kids) (ha : a ∈ kids x) (hl : Linked h.parent (some x) l) :
    a ∉ l :=
  hl.not_mem_of_next ((hf.family x).parent a ha)

end Heap.Forest

lemma Heap.Outside.ne (ho : h.Outside new root) (hrooted : Rooted h.parent) : new ≠ root := by
  rintro rfl
  obtain ⟨l, hl⟩ := hrooted new
  refine ho l hl ?_
  cases l with
  | nil => exact absurd hl (by simp)
  | cons b l => simp [Option.some.inj hl.1]

lemma Heap.Outside.step (ho : h.Outside new root) (hparent : h.parent x = some root)
    (hne : new ≠ x) : h.Outside new x := by
  intro l hl
  cases l with
  | nil => exact absurd hl (by simp)
  | cons b l =>
    obtain rfl : x = b := Option.some.inj hl.1
    simp only [mem_cons, not_or]
    exact ⟨hne, ho l (hparent ▸ hl.2)⟩

lemma Heap.Forest.outside (hf : h.Forest kids) (ha : a ∈ kids x) : h.Outside a x :=
  fun _ hl => hf.not_mem_path ha hl

lemma Heap.Forest.ne_of_mem (hf : h.Forest kids) (ha : a ∈ kids x) : a ≠ x :=
  (hf.outside ha).ne hf.rooted

/-! ## Places -/

variable [DecidableEq ι]

/-- The place that points behind the resources of the list. -/
def Place.after : Place ι → List ι → Place ι
  | p, [] => p
  | _, a :: l => after (.sibling a) l

variable {p : Place ι} {v : Option ι}

omit [DecidableEq ι] in
@[simp] lemma Place.after_nil : p.after [] = p := rfl

omit [DecidableEq ι] in
@[simp] lemma Place.after_concat : p.after (l ++ [a]) = .sibling a := by
  induction l generalizing p with
  | nil => rfl
  | cons b l ih => exact ih

namespace Heap

lemma store_child_of_ne (hne : y ≠ x) :
    (h.store ((Place.child x).after l) v).child y = h.child y := by
  induction l using reverseRecOn with
  | nil => exact update_of_ne hne _ _
  | append_singleton l a => rw [Place.after_concat]; rfl

lemma store_sibling_of_notMem (ha : a ∉ l) :
    (h.store ((Place.child x).after l) v).sibling a = h.sibling a := by
  induction l using reverseRecOn with
  | nil => rfl
  | append_singleton l b =>
    rw [Place.after_concat]
    exact update_of_ne (fun hab => ha (by simp [hab])) _ _

@[simp] lemma store_parent : (h.store p v).parent = h.parent := by cases p <;> rfl

@[simp] lemma store_range : (h.store p v).range = h.range := by cases p <;> rfl

@[simp] lemma link_parent : (h.link root new p).parent = update h.parent new (some root) := by
  cases p <;> rfl

@[simp] lemma link_range : (h.link root new p).range = h.range := by cases p <;> rfl

lemma setRange_range : (h.setRange x r).range = update h.range x r := by
  funext y
  by_cases hy : y = x
  · subst hy
    simp [setRange, range]
  · simp [setRange, range, update_of_ne hy]

omit [DecidableEq ι] in
lemma load_after (hl : LinkedTo h.sibling (h.child x) l v) :
    h.load ((Place.child x).after l) = v := by
  induction l using reverseRecOn with
  | nil => exact hl
  | append_singleton l a =>
    obtain ⟨_, -, -, hstop⟩ := linkedTo_append.mp hl
    rw [Place.after_concat]
    exact hstop

lemma linkedTo_store {w : Option ι} (hl : LinkedTo h.sibling (h.child x) l v) (hnodup : l.Nodup) :
    LinkedTo (h.store ((Place.child x).after l) w).sibling
      ((h.store ((Place.child x).after l) w).child x) l w := by
  induction l using reverseRecOn with
  | nil => exact update_self ..
  | append_singleton l a =>
    rw [Place.after_concat]
    exact hl.update (disjoint_singleton.mp (disjoint_of_nodup_append hnodup))

/-! ## Linking a resource in -/

lemma linked_link (hl : Linked h.sibling (h.child root) (l₁ ++ l₂)) (hnew : new ∉ l₁ ++ l₂) :
    Linked (h.link root new ((Place.child root).after l₁)).sibling
      ((h.link root new ((Place.child root).after l₁)).child root) (l₁ ++ new :: l₂) := by
  have hnodup := hl.nodup
  obtain ⟨mid, hl₁, hl₂⟩ := linked_append.mp hl
  have hload := load_after hl₁
  have hset : LinkedTo (update h.sibling new mid) (h.child root) l₁ mid :=
    hl₁.congr fun c hc => update_of_ne (by grind) _ _
  have hsame : ∀ c ∉ l₁, (h.link root new ((Place.child root).after l₁)).sibling c =
      update h.sibling new mid c := fun c hc => by
    rw [← hload]
    exact store_sibling_of_notMem hc
  refine linked_append.mpr ⟨some new, ?_, rfl, ?_⟩
  · rw [link, hload]
    exact linkedTo_store hset (List.Nodup.of_append_left hnodup)
  · rw [hsame new (by grind), update_self]
    exact hl₂.congr fun c hc => by
      rw [hsame c (by grind), update_of_ne (by grind)]

/-- A resource that hangs nowhere is linked in at the place where it belongs. -/
lemma Forest.link (hf : h.Forest kids) (hkids : kids root = l₁ ++ l₂) (hfree : ∀ x, new ∉ kids x)
    (hout : h.Outside new root) (hin : (h.range new).Inside (h.range root))
    (hlo : ∀ c ∈ l₁, h.stop c < h.start new) (hhi : ∀ c ∈ l₂, h.stop new < h.start c) :
    (h.link root new ((Place.child root).after l₁)).Forest
      (update kids root (l₁ ++ new :: l₂)) := by
  have hold := hf.family root
  rw [hkids] at hold
  have hnew : new ∉ l₁ ++ l₂ := hkids ▸ hfree root
  refine ⟨fun x => ?_, ?_⟩
  · by_cases hx : x = root
    · subst hx
      rw [update_self]
      refine ⟨linked_link hold.linked hnew, fun c hc => ?_, ?_⟩
      · rw [link_parent, update_apply]
        split
        · rfl
        · exact hold.parent c (by grind)
      · rw [link_range]
        exact hold.arranged.insert hin hlo hhi
    · rw [update_of_ne hx]
      refine (hf.family x).congr (store_child_of_ne hx) (by simp) fun c hc => ?_
      have hcn : c ≠ new := by rintro rfl; exact hfree x hc
      have hc₁ : c ∉ l₁ := fun hc₁ => hx (hf.eq_of_mem hc (by rw [hkids]; simp [hc₁]))
      refine ⟨?_, ?_, by simp⟩
      · exact (store_sibling_of_notMem hc₁).trans (update_of_ne hcn _ _)
      · rw [link_parent, update_of_ne hcn]
  · obtain ⟨l, hl⟩ := hf.rooted root
    rw [link_parent]
    exact hf.rooted.update hl (hout l hl)

/-! ## Taking a resource out -/

lemma linked_unlink (hl : Linked h.sibling (h.child x) (l₁ ++ a :: l₂)) :
    Linked (h.store ((Place.child x).after l₁) (h.sibling a)).sibling
      ((h.store ((Place.child x).after l₁) (h.sibling a)).child x) (l₁ ++ l₂) := by
  have hnodup := hl.nodup
  obtain ⟨mid, hl₁, -, hl₂⟩ := linked_append.mp hl
  refine linked_append.mpr ⟨_, linkedTo_store hl₁ (List.Nodup.of_append_left hnodup), ?_⟩
  exact hl₂.congr fun c hc => store_sibling_of_notMem (by grind)

lemma Forest.unlink (hf : h.Forest kids) (hkids : kids x = l₁ ++ a :: l₂) :
    (h.store ((Place.child x).after l₁) (h.sibling a)).Forest (update kids x (l₁ ++ l₂)) := by
  have hold := hf.family x
  rw [hkids] at hold
  have hsub : (l₁ ++ l₂).Sublist (l₁ ++ a :: l₂) := by simp
  refine ⟨fun y => ?_, ?_⟩
  · by_cases hy : y = x
    · subst hy
      rw [update_self]
      refine ⟨linked_unlink hold.linked, fun c hc => ?_, ?_⟩
      · rw [store_parent]
        exact hold.parent c (hsub.subset hc)
      · rw [store_range]
        exact hold.arranged.sublist hsub
    · rw [update_of_ne hy]
      refine (hf.family y).congr (store_child_of_ne hy) (by simp) fun c hc => ?_
      have hc₁ : c ∉ l₁ := fun hc₁ => hy (hf.eq_of_mem hc (by rw [hkids]; simp [hc₁]))
      exact ⟨store_sibling_of_notMem hc₁, by simp, by simp⟩
  · rw [store_parent]
    exact hf.rooted

lemma Forest.setParent (hf : h.Forest kids) (hfree : ∀ x, a ∉ kids x) (hl : Linked h.parent v l)
    (ha : a ∉ l) : { h with parent := update h.parent a v }.Forest kids := by
  refine ⟨fun x => (hf.family x).congr rfl rfl fun c hc => ⟨rfl, ?_, rfl⟩, hf.rooted.update hl ha⟩
  exact update_of_ne (by rintro rfl; exact hfree x hc) _ _

/-- A resource that hangs nowhere can be written anew, if its children fit. -/
lemma Forest.rewrite (hf : h.Forest kids) (hfree : ∀ x, a ∉ kids x) (hfam : h'.Family a l)
    (hrooted : Rooted h'.parent)
    (hsame : ∀ x, x ≠ a → h'.child x = h.child x ∧ h'.sibling x = h.sibling x ∧
      h'.parent x = h.parent x ∧ h'.range x = h.range x) :
    h'.Forest (update kids a l) := by
  refine ⟨fun x => ?_, hrooted⟩
  by_cases hx : x = a
  · subst hx
    rwa [update_self]
  · rw [update_of_ne hx]
    obtain ⟨hchild, -, -, hrange⟩ := hsame x hx
    refine (hf.family x).congr hchild hrange fun c hc => (hsame c ?_).2
    rintro rfl
    exact hfree x hc

/-! ## Changing a range -/

/-- The new range is one that the resource could have been linked in with, and that holds its
children. -/
lemma Forest.setRange (hf : h.Forest kids) (hin : ∀ c ∈ kids x, (h.range c).Inside r)
    (hplace : ∀ y l₁ l₂, kids y = l₁ ++ x :: l₂ → r.Inside (h.range y) ∧
      (∀ c ∈ l₁, h.stop c < r.start) ∧ ∀ c ∈ l₂, r.stop < h.start c) :
    (h.setRange x r).Forest kids := by
  refine ⟨fun y => ⟨(hf.family y).linked, (hf.family y).parent, ?_⟩, hf.rooted⟩
  have hold := (hf.family y).arranged
  rw [setRange_range]
  by_cases hmem : x ∈ kids y
  · obtain ⟨l₁, l₂, hkids⟩ := append_of_mem hmem
    obtain ⟨hr, hlo, hhi⟩ := hplace y l₁ l₂ hkids
    have hnodup := (hf.family y).linked.nodup
    have hyx : y ≠ x := (hf.ne_of_mem hmem).symm
    rw [hkids] at hold hnodup ⊢
    have hsame : ∀ c ∈ l₁ ++ l₂, update h.range x r c = h.range c := fun c hc =>
      update_of_ne (by grind) _ _
    have hsub : (l₁ ++ l₂).Sublist (l₁ ++ x :: l₂) := by simp
    have hrest := (hold.sublist hsub).congr (update_of_ne hyx r h.range) hsame
    refine hrest.insert ?_ (fun c hc => ?_) fun c hc => ?_
    · rwa [update_self, update_of_ne hyx]
    · rw [update_self, hsame c (by simp [hc])]
      exact hlo c hc
    · rw [update_self, hsame c (by simp [hc])]
      exact hhi c hc
  · have hsame : ∀ c ∈ kids y, update h.range x r c = h.range c := fun c hc =>
      update_of_ne (by rintro rfl; exact hmem hc) _ _
    by_cases hy : y = x
    · subst hy
      refine ⟨fun c hc => ?_, hold.sorted.imp_of_mem fun {c d} hc hd hlt => ?_⟩
      · rw [hsame c hc, update_self]
        exact hin c hc
      · rwa [hsame c hc, hsame d hd]
    · exact hold.congr (update_of_ne hy _ _) hsame

/-! ## Moving children below a new resource -/

/-- The children `seg`, from `first` to `next`, are cut out and hung below `new`. -/
def move (h : Heap ι) (parent new first next : ι) (seg : List ι) : Heap ι :=
  { h with
    parent := fun c => if c ∈ seg then some new else update h.parent new (some parent) c
    sibling := update (update h.sibling new (h.sibling next)) next none
    child := update h.child new (some first) }

variable {first next : ι} {seg s : List ι}

@[simp] lemma move_range :
    (h.move root new first next s).range = h.range := rfl

lemma move_parent :
    (h.move root new first next s).parent y =
      if y ∈ s then some new else update h.parent new (some root) y := rfl

lemma move_sibling_of_ne (hc : y ≠ new) (hc' : y ≠ next) :
    (h.move root new first next s).sibling y = h.sibling y := by
  simp [move, hc, hc']

lemma linked_move (hl : LinkedTo h.sibling (some first) (seg ++ [next]) v)
    (hnodup : (seg ++ [next]).Nodup) (hnew : new ∉ seg ++ [next]) :
    Linked (h.move root new first next s).sibling (some first) (seg ++ [next]) := by
  have hset : LinkedTo (update h.sibling new (h.sibling next)) (some first)
      (seg ++ [next]) v := hl.congr fun c hc => update_of_ne (by grind) _ _
  exact linkedTo_none.mp (hset.update (disjoint_singleton.mp (disjoint_of_nodup_append hnodup)))

lemma linked_around_move (hl : Linked h.sibling (h.child root) (l₁ ++ (seg ++ [next]) ++ l₂))
    (hnew : new ∉ l₁ ++ (seg ++ [next]) ++ l₂) (hne : root ≠ new) :
    let h' := (h.move root new first next s).store ((Place.child root).after l₁) (some new)
    Linked h'.sibling (h'.child root) (l₁ ++ new :: l₂) := by
  have hnodup := hl.nodup
  rw [append_assoc] at hl
  obtain ⟨first', hl₁, hrest⟩ := linked_append.mp hl
  obtain ⟨mid, hrow, hl₂⟩ := linked_append.mp hrest
  obtain ⟨_, -, -, rfl⟩ := linkedTo_append.mp hrow
  have hl₁' : LinkedTo (h.move root new first next s).sibling
      ((h.move root new first next s).child root) l₁ first' := by
    have hchild : (h.move root new first next s).child root = h.child root := update_of_ne hne _ _
    rw [hchild]
    exact hl₁.congr fun c hc => move_sibling_of_ne (by grind) (by grind)
  refine linked_append.mpr ⟨_, linkedTo_store hl₁' (by grind), rfl, ?_⟩
  have hnext : (h.move root new first next s).sibling new = h.sibling next := by
    have hnn : new ≠ next := by grind
    simp [move, hnn]
  rw [store_sibling_of_notMem (by grind), hnext]
  exact hl₂.congr fun c hc => by
    rw [store_sibling_of_notMem (by grind), move_sibling_of_ne (by grind) (by grind)]

section Move

variable (hf : h.Forest kids) (hkids : kids root = l₁ ++ (seg ++ [next]) ++ l₂)
  (hfree : ∀ x, new ∉ kids x) (hout : h.Outside new root)

include hf hkids hfree hout

lemma Forest.family_around_move (hin : (h.range new).Inside (h.range root))
    (hlo : ∀ c ∈ l₁, h.stop c < h.start new) (hhi : ∀ c ∈ l₂, h.stop new < h.start c) :
    ((h.move root new first next (seg ++ [next])).store ((Place.child root).after l₁)
      (some new)).Family root (l₁ ++ new :: l₂) := by
  have hold := hf.family root
  have hnew := hfree root
  rw [hkids] at hold hnew
  have hnodup := hold.linked.nodup
  have hsub : (l₁ ++ l₂).Sublist (l₁ ++ (seg ++ [next]) ++ l₂) := by
    rw [append_assoc]
    exact (sublist_append_right ..).append_left _
  refine ⟨linked_around_move hold.linked hnew (hout.ne hf.rooted).symm, fun c hc => ?_, ?_⟩
  · rw [store_parent, move_parent, if_neg (by grind), update_apply]
    split
    · rfl
    · exact hold.parent c (by grind)
  · rw [store_range]
    exact (hold.arranged.sublist hsub).insert hin hlo hhi

lemma Forest.family_moved (hfirst : (seg ++ [next]).head? = some first)
    (hseg : ∀ c ∈ seg ++ [next], h.start new ≤ h.start c ∧ h.stop c ≤ h.stop new) :
    ((h.move root new first next (seg ++ [next])).store ((Place.child root).after l₁)
      (some new)).Family new (seg ++ [next]) := by
  have hold := hf.family root
  have hnew := hfree root
  rw [hkids] at hold hnew
  have hnodup := hold.linked.nodup
  obtain ⟨mid, hrow, -⟩ := linked_append.mp hold.linked
  obtain ⟨first', -, hrow⟩ := linkedTo_append.mp hrow
  obtain rfl : first' = some first := hrow.head.trans hfirst
  refine ⟨?_, fun c hc => ?_, fun c hc => ?_, ?_⟩
  · have hchild : (h.move root new first next (seg ++ [next])).child new = some first :=
      update_self ..
    rw [store_child_of_ne (hout.ne hf.rooted), hchild]
    exact (linked_move hrow (by grind) (by grind)).congr fun c hc =>
      store_sibling_of_notMem (by grind)
  · rw [store_parent, move_parent, if_pos hc]
  · rw [store_range]
    exact ⟨(hold.arranged.inside c (by grind)).nonempty, (hseg c hc).1, (hseg c hc).2⟩
  · rw [store_range]
    exact hold.arranged.sorted.sublist (by simp)

lemma Forest.rooted_move : Rooted (h.move root new first next (seg ++ [next])).parent := by
  obtain ⟨l, hl⟩ := hf.rooted root
  have hnot : ∀ c ∈ l, c ∉ seg ++ [next] := fun c hc hmem =>
    hf.not_mem_path (by rw [hkids]; grind) hl hc
  have hup : Linked (h.move root new first next (seg ++ [next])).parent (some root) l :=
    hl.congr fun c hc => by
      rw [move_parent, if_neg (hnot c hc), update_of_ne (by rintro rfl; exact hout l hl hc)]
  have hup' : Linked (h.move root new first next (seg ++ [next])).parent (some new) (new :: l) := by
    refine ⟨rfl, ?_⟩
    rwa [move_parent, if_neg (by grind), update_self]
  refine (hf.rooted.update hl (hout l hl)).redirect hup' fun c => ?_
  rw [move_parent]
  split
  · exact .inr rfl
  · exact .inl rfl

/-- The children that are inside a new resource are moved below it. -/
lemma Forest.move (hfirst : (seg ++ [next]).head? = some first)
    (hin : (h.range new).Inside (h.range root))
    (hlo : ∀ c ∈ l₁, h.stop c < h.start new) (hhi : ∀ c ∈ l₂, h.stop new < h.start c)
    (hseg : ∀ c ∈ seg ++ [next], h.start new ≤ h.start c ∧ h.stop c ≤ h.stop new) :
    ((h.move root new first next (seg ++ [next])).store ((Place.child root).after l₁)
      (some new)).Forest
      (update (update kids new (seg ++ [next])) root (l₁ ++ new :: l₂)) := by
  refine ⟨fun x => ?_, by rw [store_parent]; exact hf.rooted_move hkids hfree hout⟩
  by_cases hx : x = root
  · subst hx
    rw [update_self]
    exact hf.family_around_move hkids hfree hout hin hlo hhi
  · rw [update_of_ne hx]
    by_cases hxn : x = new
    · subst hxn
      rw [update_self]
      exact hf.family_moved hkids hfree hout hfirst hseg
    · rw [update_of_ne hxn]
      refine (hf.family x).congr ?_ (by simp) fun c hc => ?_
      · exact (store_child_of_ne hx).trans (update_of_ne hxn _ _)
      · have hcn : c ≠ new := by rintro rfl; exact hfree x hc
        have hc' : c ∉ l₁ ++ (seg ++ [next]) ++ l₂ := fun hmem =>
          hx (hf.eq_of_mem hc (by rwa [hkids]))
        refine ⟨?_, ?_, by simp⟩
        · rw [store_sibling_of_notMem (by grind), move_sibling_of_ne hcn (by grind)]
        · rw [store_parent, move_parent, if_neg (by grind), update_of_ne hcn]

end Move

end Heap

end Mini2440.Resource
