import Mathlib.Data.Fin.VecNotation
import Mathlib.Data.List.TakeWhile
import Mini2440.Resource.Find

/-!
# Allocating and moving resources

`allocate_resource` puts a resource into the first gap that is large enough, and
`reallocate_resource` resizes one that is in the tree already, in its place or in another one.
-/

namespace Mini2440.Resource

open List BitVec Function Library

variable {ι : Type} [DecidableEq ι] [Fintype ι] {h : Heap ι} {kids : ι → List ι}
  {root x new old t : ι} {l l₁ l₂ : List ι} {r : Range} {size min max align : Word} {k : Nat}

/-! ## First fit -/

omit [Fintype ι] in
lemma Heap.Family.setRange (hf : h.Family root l) (hnew : new ∉ l) (hne : new ≠ root) :
    (h.setRange new r).Family root l := by
  refine hf.congr rfl ?_ fun c hc => ⟨rfl, rfl, ?_⟩
  · rw [Heap.setRange_range, update_of_ne hne.symm]
  · rw [Heap.setRange_range, update_of_ne (by rintro rfl; exact hnew hc)]

/-- `__request_resource` with a range that ends before it starts. -/
lemma request_of_wraps (hwraps : r.stop < r.start) :
    requestResourceConflict (h.setRange new r) root new = some (h.setRange new r, some root) := by
  refine requestResourceConflict_of_not_inside fun hin => ?_
  have hle := hin.nonempty
  rw [Heap.setRange_range, update_self] at hle
  bv_omega

lemma request_of_least (hf : h.Family root (h.children root)) (hnew : new ∉ h.children root)
    (hne : new ≠ root) (hsize : size ≠ 0)
    (hplace : r.start.toNat ∈ places h root size min max (2 ^ k))
    (hstop : r.stop.toNat + 1 = r.start.toNat + size.toNat) :
    ∃ h', requestResourceConflict (h.setRange new r) root new = some (h', none) ∧
      h'.range new = r ∧ new ∈ h'.children root := by
  have hself : (h.setRange new r).range new = r := by
    rw [Heap.setRange_range, update_self]
  have hroot : (h.setRange new r).range root = h.range root := by
    rw [Heap.setRange_range, update_of_ne hne.symm]
  have hfam := hf.setRange (r := r) hnew hne
  obtain ⟨⟨-, -, -, habove, hbelow⟩, hfree⟩ := hplace
  have hsizepos : size.toNat ≠ 0 := by bv_omega
  have hin : ((h.setRange new r).range new).Inside ((h.setRange new r).range root) := by
    rw [hself, hroot]
    refine ⟨?_, habove, ?_⟩
    · rw [le_def]
      omega
    · rw [le_def]
      omega
  obtain ⟨res, hres, hreq⟩ := requestResourceConflict_of_inside hfam hin
  cases hreq with
  | linked l₁ l₂ split before behind =>
    have hlinked := hfam.linked
    rw [split] at hlinked hnew
    have hchildren := Heap.linked_link hlinked hnew
    refine ⟨_, hres, by rw [Heap.link_range, hself], ?_⟩
    rw [Heap.children, hchildren.follow_eq hchildren.length_le_card]
    simp
  | conflict l₁ l₂ t split before start_le le_stop =>
    -- the child that is in the way would overlap the place
    exfalso
    have hmem : t ∈ h.children root := by rw [split]; simp
    have htn : t ≠ new := by rintro rfl; exact hnew hmem
    have hstart : (h.setRange new r).start t = h.start t := update_of_ne htn _ _
    have hstop' : (h.setRange new r).stop t = h.stop t := update_of_ne htn _ _
    have hrange := Range.mk.inj hself
    rw [hstart, hrange.2, le_def] at start_le
    rw [hstop', hrange.1, le_def] at le_stop
    rcases hfree t hmem with hbefore | hbehind
    · omega
    · omega

/-- A child that fills the resource up to the last address is always in the way. -/
lemma request_of_full (new : ι) (hf : h.Family root l) (ht : t ∈ l)
    (hstart : h.start t = h.start root) (hstop : h.stop t = 0xffffffff) :
    ∃ h' x, requestResourceConflict h root new = some (h', some x) := by
  by_cases hin : (h.range new).Inside (h.range root)
  · obtain ⟨res, hres, hreq⟩ := requestResourceConflict_of_inside hf hin
    cases hreq with
    | linked l₁ l₂ split before behind =>
      exfalso
      have hnonempty : h.start new ≤ h.stop new := hin.nonempty
      have habove : h.start root ≤ h.start new := hin.above
      rw [split] at ht
      rcases mem_append.mp ht with ht | ht
      · have hlt := before t ht
        bv_omega
      · have hlt := behind t ht
        bv_omega
    | conflict l₁ l₂ x split before start_le le_stop => exact ⟨_, x, hres⟩
  · exact ⟨_, root, requestResourceConflict_of_not_inside hin⟩

omit [DecidableEq ι] in
lemma places_of_full (ht : t ∈ h.children root) (hsize : size ≠ 0)
    (hstart : h.start t = h.start root) (hstop : h.stop t = 0xffffffff) :
    places h root size min max (2 ^ k) = ∅ := by
  refine Set.eq_empty_of_forall_notMem ?_
  rintro a ⟨⟨-, -, hmax, habove, -⟩, hfree⟩
  have hsizepos : size.toNat ≠ 0 := by bv_omega
  change (h.start root).toNat ≤ a at habove
  have htop : (h.stop t).toNat = 2 ^ 32 - 1 := by bv_omega
  rcases hfree t ht with hbefore | hbehind
  · rw [hstart] at hbefore
    omega
  · omega

lemma allocateResource_spec (hf : h.Family root (h.children root)) (hparent : h.parent new = none)
    (hne : new ≠ root) (hsize : size ≠ 0) (halign : align.toNat = 2 ^ k) :
    (∃ h', allocateResource h root new size min max align none = some (h', 0) ∧
      IsLeast (places h root size min max (2 ^ k)) (h'.start new).toNat ∧
      h'.stop new = h'.start new + size - 1 ∧ new ∈ h'.children root) ∨
    ∃ h', allocateResource h root new size min max align none = some (h', -EBUSY) ∧
      places h root size min max (2 ^ k) = ∅ := by
  have hnew := hf.notMem_of_parent hparent
  have hcall : allocateResource h root new size min max align none =
      putFound h root new ((gaps h root none ⟨min, max, align, simpleAlignResource⟩).findSome?
        (tryGap ⟨min, max, align, simpleAlignResource⟩ size)) := by
    rw [allocateResource, hparent]
    exact congrArg (Option.bind · _) (findResource_eq hf)
  rw [hcall]
  by_cases hfull : ∃ t ∈ h.children root, h.start t = h.start root ∧ h.stop t = 0xffffffff
  · obtain ⟨t, ht, hstart, hstop⟩ := hfull
    refine .inr ?_
    cases findSome? _ _ with
    | none => exact ⟨h, rfl, places_of_full ht hsize hstart hstop⟩
    | some r =>
      have hkeep : ∀ x, x ≠ new → (h.setRange new r).range x = h.range x := fun x hx => by
        rw [Heap.setRange_range, update_of_ne hx]
      have htkeep := Range.mk.inj (hkeep t (by rintro rfl; exact hnew ht))
      obtain ⟨h', x, hreq⟩ := request_of_full new (hf.setRange (r := r) hnew hne) ht
        (by rw [htkeep.1, (Range.mk.inj (hkeep root hne.symm)).1, hstart])
        (by rw [htkeep.2, hstop])
      exact ⟨h', by rw [putFound, hreq]; rfl, places_of_full ht hsize hstart hstop⟩
  · have hfirst : ∀ t ∈ (h.children root).head?, h.start t = h.start root →
        h.stop t ≠ 0xffffffff := fun t ht hstart hstop =>
      hfull ⟨t, mem_of_mem_head? ht, hstart, hstop⟩
    have hfit := gaps_firstFit (c := ⟨min, max, align, simpleAlignResource⟩) hf hfirst rfl halign
      hsize
    generalize findSome? _ _ = found at hfit ⊢
    cases hfit with
    | none empty => exact .inr ⟨h, rfl, empty⟩
    | least r least stop =>
      obtain ⟨h', hreq, hrange, hmem⟩ := request_of_least hf hnew hne hsize least.1 stop
      obtain ⟨hstart, hstop⟩ := Range.mk.inj hrange
      refine .inl ⟨h', by rw [putFound, hreq]; rfl, ?_, ?_, hmem⟩
      · rwa [hstart]
      · bv_omega
    | wraps r stop empty => exact .inr ⟨_, by rw [putFound, request_of_wraps stop]; rfl, empty⟩

/-- `allocate_resource` of a resource that is not in the tree succeeds if and only if there is a
place, and then takes the least one. -/
theorem allocate_first_fit (h : Heap ι) (root new : ι) (size min max align : Word) (k : Nat)
    (htree : h.WellFormed) (hparent : h.parent new = none) (hne : new ≠ root)
    (hsize : size ≠ 0) (halign : align.toNat = 2 ^ k) :
    ∃ h' ret, allocateResource h root new size min max align none = some (h', ret) ∧
      (ret = 0 ↔ (places h root size min max (2 ^ k)).Nonempty) ∧
      (ret = 0 → IsLeast (places h root size min max (2 ^ k)) (h'.start new).toNat ∧
        h'.stop new = h'.start new + size - 1 ∧ new ∈ h'.children root) := by
  rcases allocateResource_spec (htree root) hparent hne hsize halign with
    ⟨h', hcall, hleast, hrest⟩ | ⟨h', hcall, hempty⟩
  · exact ⟨h', 0, hcall, iff_of_true rfl hleast.nonempty, fun _ => ⟨hleast, hrest⟩⟩
  · refine ⟨h', -EBUSY, hcall, iff_of_false (by decide) ?_, fun hret => absurd hret (by decide)⟩
    rw [hempty]
    exact Set.not_nonempty_empty

def board : Heap (Fin 3) where
  start := ![0#32, 0x1000#32, 0#32]
  stop := ![0xffff#32, 0x1fff#32, 0#32]
  flags := ![0#32, 0#32, 0#32]
  parent := ![none, some 0, none]
  sibling := ![none, none, none]
  child := ![some 1, none, none]

theorem board_first_fit :
    ∃ h' ret, allocateResource board 0 2 0x1000 0x800 0xffff 0x1000 none = some (h', ret) ∧
      (ret = 0 ↔ (places board 0 0x1000 0x800 0xffff (2 ^ 12)).Nonempty) ∧
      (ret = 0 → IsLeast (places board 0 0x1000 0x800 0xffff (2 ^ 12)) (h'.start 2).toNat ∧
        h'.stop 2 = h'.start 2 + 0x1000 - 1 ∧ 2 ∈ h'.children 0) :=
  allocate_first_fit board 0 2 0x1000 0x800 0xffff 0x1000 12 (by decide) (by decide) (by decide)
    (by decide) (by decide)

/-! ## Reallocation -/

/-- The test of `__find_resource` passes for the gap. -/
def roomy (c : Constraint) (size : Word) (g : Range) : Bool :=
  (tryGap c size g).any fun r => r.start ≤ r.stop

/-- The test passes only since the end of the range has wrapped around. -/
def misled (c : Constraint) (size : Word) (g : Range) : Bool :=
  (tryGap c size g).any fun r => r.stop < r.start

variable {c : Constraint} {gs : List Range}

/-- What a search finds is good if and only if the entries before the first one that gives something
good give nothing. -/
lemma findSome?_forall_iff {α β : Type*} {f : α → Option β} {P : β → Bool} {l : List α} :
    (∀ b, l.findSome? f = some b → P b) ↔
      ∀ a ∈ l.takeWhile fun a => !(f a).any P, f a = none := by
  induction l with
  | nil => simp
  | cons a l ih =>
    cases hf : f a with
    | none => simpa [hf] using ih
    | some b => cases hb : P b <;> simp [hf, hb]

lemma nonempty_of_not_misled
    (hsure : ∀ g ∈ gs.takeWhile fun g => !roomy c size g, misled c size g = false)
    (hfound : gs.findSome? (tryGap c size) = some r) : r.start ≤ r.stop := by
  have hgood : ∀ r, gs.findSome? (tryGap c size) = some r → decide (r.start ≤ r.stop) := by
    refine findSome?_forall_iff.mpr fun g hg => ?_
    have hno := hsure g hg
    have hroom := mem_takeWhile_imp hg
    cases htry : tryGap c size g with
    | none => rfl
    | some r' =>
      simp only [misled, htry, Option.any_some, decide_eq_false_iff_not, BitVec.not_lt] at hno
      simp [htry, hno] at hroom
  simpa using hgood r hfound

omit [Fintype ι] in
/-- A resource changes its range in its place: what was below stays below, and what was above
stays above. -/
lemma Heap.Forest.resize (hf : h.Forest kids) (hmem : old ∈ kids root)
    (hkids : ∀ c ∈ kids old, (h.range c).Inside r) (hin : r.Inside (h.range root))
    (hlo : ∀ c ∈ kids root, h.start c ≤ h.stop c → h.stop c < h.start old → h.stop c < r.start)
    (hhi : ∀ c ∈ kids root, h.start c ≤ h.stop c → h.stop old < h.start c → r.stop < h.start c) :
    (h.setRange old r).Forest kids := by
  refine hf.setRange hkids fun y m₁ m₂ hy => ?_
  obtain rfl : y = root := hf.eq_of_mem (by rw [hy]; simp) hmem
  have ha := (hf.family y).arranged
  rw [hy] at ha hlo hhi
  obtain ⟨-, hafter, hbefore⟩ := pairwise_append.mp ha.sorted
  refine ⟨hin, fun c hc => ?_, fun c hc => ?_⟩
  · exact hlo c (by simp [hc]) (ha.inside c (by simp [hc])).nonempty (hbefore c hc old (by simp))
  · exact hhi c (by simp [hc]) (ha.inside c (by simp [hc])).nonempty
      ((pairwise_cons.mp hafter).1 c hc)

omit [Fintype ι] in
/-- The memory between the release and the request of a resource that is moved. -/
lemma Heap.Forest.lift (hf : h.Forest kids) (hkids : kids x = l₁ ++ old :: l₂)
    (hchild : h.child old = none) :
    let h₁ := { h.store ((Place.child x).after l₁) (h.sibling old) with
      parent := update h.parent old none }
    let h₂ := { h₁.setRange old r with
      flags := update h₁.flags old (h.flags old)
      parent := update h₁.parent old (h.parent old)
      sibling := update h₁.sibling old (h.sibling old)
      child := update h₁.child old (h.child old) }
    h₂.Forest (update (update kids x (l₁ ++ l₂)) old []) ∧
      h₂.parent = h.parent ∧ h₂.range = update h.range old r := by
  intro h₁ h₂
  have hparent : h₂.parent = h.parent := by
    change update (update h.parent old none) old (h.parent old) = h.parent
    rw [update_idem, update_eq_self]
  have hrange : h₂.range = update h.range old r := by
    change (h₁.setRange old r).range = _
    rw [Heap.setRange_range]
    congr 1
    exact Heap.store_range
  refine ⟨(hf.unlink hkids).rewrite (hf.free_of_unlink hkids) ⟨?_, by simp, by simp, by simp⟩ ?_
    fun y hy => ⟨?_, ?_, ?_, ?_⟩, hparent, hrange⟩
  · change update h₁.child old (h.child old) old = none
    rw [update_self, hchild]
  · rw [hparent]
    exact hf.rooted
  · exact update_of_ne hy _ _
  · exact update_of_ne hy _ _
  · rw [hparent, Heap.store_parent]
  · rw [hrange, update_of_ne hy, Heap.store_range]

lemma request_of_apart (root : ι) (hf : h.Forest kids) (hfree : ∀ x, new ∉ kids x)
    (hin : (h.range new).Inside (h.range root))
    (hapart : ∀ d ∈ kids root,
      (h.range d).stop < (h.range new).start ∨ (h.range new).stop < (h.range d).start) :
    ∃ h', requestResourceConflict h root new = some (h', none) ∧
      (h.Outside new root → ∃ kids', h'.Forest kids') := by
  obtain ⟨res, hres, hreq⟩ := requestResourceConflict_of_inside (hf.family root) hin
  cases hreq with
  | linked l₁ l₂ split before behind =>
    exact ⟨_, hres, fun hout => ⟨_, hf.link split hfree hout hin before behind⟩⟩
  | conflict l₁ l₂ t split before start_le le_stop =>
    rcases hapart t (by rw [split]; simp) with hlt | hlt
    · exact absurd le_stop (BitVec.not_le.mpr hlt)
    · exact absurd start_le (BitVec.not_le.mpr hlt)

/-- The last part of `reallocate_resource`: the request decides. -/
lemma moveFound_lift (root : ι) (hf : h.Forest kids) (hmem : old ∈ kids x)
    (hgrow : ¬ resourceContains r (h.range old)) (hchild : ¬ (h.child old).isSome)
    (hshrink : ¬ resourceContains (h.range old) r) :
    ∃ h₂ kids₂, h₂.Forest kids₂ ∧ h₂.parent = h.parent ∧ h₂.range = update h.range old r ∧
      (∀ y, old ∉ kids₂ y) ∧ (∀ y ≠ old, ∀ d, d ∈ kids₂ y ↔ d ∈ kids y ∧ d ≠ old) ∧
      moveFound h root old (some r) = (requestResourceConflict h₂ root old).bind fun res =>
        if res.2.isSome then none else some (res.1, 0) := by
  obtain ⟨l₁, l₂, hkids⟩ := append_of_mem hmem
  obtain ⟨hforest, hparent, hrange⟩ := hf.lift (r := r) hkids (by simpa using hchild)
  have hhangs : ∀ y, old ∉ update (update kids x (l₁ ++ l₂)) old [] y := by
    intro y hy
    by_cases hyo : y = old
    · subst hyo
      simp at hy
    · rw [update_of_ne hyo] at hy
      exact hf.free_of_unlink hkids y hy
  refine ⟨_, _, hforest, hparent, hrange, hhangs, fun y hy d => ?_, ?_⟩
  · have hdo : d ∈ kids y ∧ d ≠ old ↔ d ∈ update kids x (l₁ ++ l₂) y := by
      have hfree := hf.free_of_unlink hkids y
      by_cases hyx : y = x
      · subst hyx
        grind
      · grind
    rw [hdo, update_of_ne hy]
  · rw [moveFound, if_neg hgrow, if_neg hchild, if_neg hshrink, releaseResource_of_mem hf hkids]
    rfl

lemma moveFound_spec (hf : h.Forest kids) (hmem : old ∈ kids root) {found : Option Range}
    (hfound : ∀ r, found = some r → r.Inside (h.range root) ∧
      ∀ d ∈ kids root, d ≠ old → h.stop d < r.start ∨ r.stop < h.start d) :
    ∃ res, moveFound h root old found = some res ∧ ∃ kids', res.1.Forest kids' := by
  cases found with
  | none => exact ⟨_, rfl, kids, hf⟩
  | some r =>
    obtain ⟨hin, hfree⟩ := hfound r rfl
    have hnonempty : h.start old ≤ h.stop old :=
      ((hf.family root).arranged.inside old hmem).nonempty
    have hne := hf.ne_of_mem hmem
    by_cases hgrow : resourceContains r (h.range old)
    · rw [moveFound, if_pos hgrow]
      obtain ⟨hlo, hhi⟩ := resourceContains_iff.mp hgrow
      change r.start ≤ h.start old at hlo
      change h.stop old ≤ r.stop at hhi
      refine ⟨_, rfl, kids, hf.resize hmem (fun c hc => ?_) hin ?_ ?_⟩
      · obtain ⟨hc₁, hc₂, hc₃⟩ := (hf.family old).arranged.inside c hc
        exact ⟨hc₁, BitVec.le_trans hlo hc₂, BitVec.le_trans hc₃ hhi⟩
      · intro c hc hcne hlt
        have hco : c ≠ old := by rintro rfl; bv_omega
        rcases hfree c hc hco with hlt' | hlt'
        · exact hlt'
        · bv_omega
      · intro c hc hcne hlt
        have hco : c ≠ old := by rintro rfl; bv_omega
        rcases hfree c hc hco with hlt' | hlt'
        · bv_omega
        · exact hlt'
    by_cases hchild : (h.child old).isSome
    · rw [moveFound, if_neg hgrow, if_pos hchild]
      exact ⟨_, rfl, kids, hf⟩
    by_cases hshrink : resourceContains (h.range old) r
    · rw [moveFound, if_neg hgrow, if_neg hchild, if_pos hshrink]
      obtain ⟨hlo, hhi⟩ := resourceContains_iff.mp hshrink
      change h.start old ≤ r.start at hlo
      change r.stop ≤ h.stop old at hhi
      have hnone : kids old = [] := by
        have hhead := (hf.family old).linked.head
        cases hk : kids old with
        | nil => rfl
        | cons c l => simp [hk] at hhead; simp [hhead] at hchild
      refine ⟨_, rfl, kids, hf.resize hmem (by simp [hnone]) hin ?_ ?_⟩
      · bv_omega
      · bv_omega
    · obtain ⟨h₂, kids₂, hforest, hparent, hrange, hhangs, hroot, hmove⟩ :=
        moveFound_lift root hf hmem hgrow hchild hshrink
      obtain ⟨h₃, hreq, hf₃⟩ := request_of_apart root hforest hhangs
        (by rwa [hrange, update_self, update_of_ne hne.symm]) fun d hd => by
          obtain ⟨hd, hdo⟩ := (hroot root hne.symm d).mp hd
          rw [hrange, update_self, update_of_ne hdo]
          exact hfree d hd hdo
      refine ⟨(h₃, 0), by rw [hmove, hreq]; rfl, hf₃ ?_⟩
      intro l hl
      exact hf.outside hmem l (hparent ▸ hl)

lemma found_free (hf : h.Forest kids)
    (hfirst : ∀ t ∈ (h.children root).head?, t ≠ old → h.start t = h.start root →
      h.stop t ≠ 0xffffffff)
    (hfound : (gaps h root (some old) c).findSome? (tryGap c size) = some r)
    (hnonempty : r.start ≤ r.stop) :
    r.Inside (h.range root) ∧
      ∀ d ∈ kids root, d ≠ old → h.stop d < r.start ∨ r.stop < h.start d := by
  obtain ⟨g, hg, htry⟩ := exists_of_findSome?_eq_some hfound
  obtain ⟨hgne, hlo, hhi⟩ := tryGap_sound htry
  have hgap := gaps_sound (hf.wellFormed root) (fun t ht hto => hfirst t ht (by simpa using hto)) hg
  rw [(hf.family root).children_eq] at hgap
  refine ⟨⟨hnonempty, BitVec.le_trans hgap.above hlo, BitVec.le_trans hhi hgap.below⟩, ?_⟩
  intro d hd hdo
  rcases hgap.free d hd (by simpa using hdo) with hlt | hlt
  · exact .inl (by bv_omega)
  · exact .inr (by bv_omega)

lemma reallocateResource_spec (hf : h.Forest kids) (hmem : old ∈ kids root)
    (hsure : ∀ g ∈ (gaps h root (some old) c).takeWhile fun g => !roomy c size g,
      misled c size g = false) :
    ∃ res, reallocateResource h root old size c = some res ∧ ∃ kids', res.1.Forest kids' := by
  rw [reallocateResource, findResource_eq (hf.wellFormed root)]
  refine moveFound_spec hf hmem fun r hr =>
    found_free hf (fun t ht hto _ => ?_) hr (nonempty_of_not_misled hsure hr)
  -- `old` is behind a first child that is another one
  rw [(hf.family root).children_eq, Option.mem_def, head?_eq_some_iff] at ht
  obtain ⟨l, hl⟩ := ht
  have hsorted := (hf.family root).arranged.sorted
  rw [hl, pairwise_cons] at hsorted
  have hold : old ∈ l := by
    rw [hl] at hmem
    exact (mem_cons.mp hmem).resolve_left hto.symm
  have hlt : h.stop t < h.start old := hsorted.1 old hold
  bv_omega

/-- Another first child than `old` fills the tree up to the last address. -/
def crowded (h : Heap ι) (root old : ι) : Bool :=
  (h.children root).head?.any fun t =>
    t ≠ old && h.start t = h.start root && h.stop t = 0xffffffff

/-- The range can be given to `old`: it is not empty and the tree is not crowded, or it lies around
the range of `old` or inside it. -/
def givable (h : Heap ι) (root old : ι) (r : Range) : Bool :=
  r.start ≤ r.stop && !crowded h root old || r.start ≤ h.start old && h.stop old ≤ r.stop ||
    h.start old ≤ r.start && r.stop ≤ h.stop old

/-- The last part of `reallocate_resource` gets by without its `BUG_ON`. -/
lemma moveFound_safe_iff (root : ι) (hf : h.Forest kids) (hmem : old ∈ kids x)
    (hfound : (gaps h root (some old) c).findSome? (tryGap c size) = some r)
    (hchild : ¬ (h.child old).isSome) :
    (∃ h' ret, moveFound h root old (some r) = some (h', ret) ∧ (ret ≠ 0 → h' = h)) ↔
      givable h root old r = true := by
  have hgivable : givable h root old r = true ↔ (r.start ≤ r.stop ∧ crowded h root old = false) ∨
      resourceContains r (h.range old) = true ∨ resourceContains (h.range old) r = true := by
    simp only [givable, resourceContains_iff, Heap.range]
    simp
    tauto
  rw [hgivable]
  by_cases hgrow : resourceContains r (h.range old)
  · rw [moveFound, if_pos hgrow]
    exact iff_of_true ⟨_, 0, rfl, by simp⟩ (.inr (.inl hgrow))
  by_cases hshrink : resourceContains (h.range old) r
  · rw [moveFound, if_neg hgrow, if_neg hchild, if_pos hshrink]
    exact iff_of_true ⟨_, 0, rfl, by simp⟩ (.inr (.inr hshrink))
  obtain ⟨h₂, kids₂, hforest, -, hrange, hhangs, hroot, hmove⟩ :=
    moveFound_lift root hf hmem hgrow hchild hshrink
  have hself : h₂.range old = r := by rw [hrange, update_self]
  rw [or_iff_left (by simp [hgrow, hshrink]), hmove]
  constructor
  · rintro ⟨h', ret, hres, -⟩
    refine ⟨?_, ?_⟩
    · by_contra hempty
      rw [requestResourceConflict_of_not_inside fun hin => hempty (hself ▸ hin.nonempty)] at hres
      simp at hres
    · by_contra hfull
      obtain ⟨t, ht, ⟨hto, hstart⟩, hstop⟩ : ∃ t, (h.children root).head? = some t ∧
          (t ≠ old ∧ h.start t = h.start root) ∧ h.stop t = 0xffffffff := by
        simpa [crowded, Option.any_eq_true] using hfull
      have hne : root ≠ old := by
        rintro rfl
        rw [← (hf.wellFormed root).linked.head] at ht
        exact hchild (by rw [ht]; rfl)
      have hsame : ∀ y ≠ old, h₂.range y = h.range y := fun y hy => by
        rw [hrange, update_of_ne hy]
      obtain ⟨hstart', hstop'⟩ := Range.mk.inj (hsame t hto)
      obtain ⟨h₃, y, hreq⟩ := request_of_full old (hforest.family root)
        ((hroot root hne t).mpr ⟨(hf.family root).children_eq ▸ mem_of_mem_head? ht, hto⟩)
        (by rw [hstart', (Range.mk.inj (hsame root hne)).1, hstart]) (by rw [hstop', hstop])
      simp [hreq] at hres
  · rintro ⟨hnonempty, hfirst⟩
    have hroom : ∀ t ∈ (h.children root).head?, t ≠ old → h.start t = h.start root →
        h.stop t ≠ 0xffffffff := by simpa [crowded, Option.any_eq_false] using hfirst
    obtain ⟨hin, hfree⟩ := found_free hf hroom hfound hnonempty
    have hne : root ≠ old := by
      rintro rfl
      exact hshrink (resourceContains_iff.mpr ⟨hin.above, hin.below⟩)
    obtain ⟨h₃, hreq, -⟩ := request_of_apart root hforest hhangs
      (by rwa [hself, hrange, update_of_ne hne]) fun d hd => by
        obtain ⟨hd, hdo⟩ := (hroot root hne d).mp hd
        rw [hself, hrange, update_of_ne hdo]
        exact hfree d hd hdo
    exact ⟨h₃, 0, by rw [hreq]; rfl, by simp⟩

/-- `reallocate_resource` of any resource in the tree gets by without its `BUG_ON`, and leaves the
memory as it is if it fails, if and only if the resource has children or no gap that is tried
before one with a range for it passes the test of `__find_resource`. -/
theorem reallocate_safe_iff (h : Heap ι) (kids : ι → List ι) (root x old : ι) (newsize : Word)
    (c : Constraint) (htree : h.Forest kids) (hold : old ∈ kids x) :
    (∃ h' ret, reallocateResource h root old newsize c = some (h', ret) ∧ (ret ≠ 0 → h' = h)) ↔
      (h.child old).isSome ∨
        ∀ g ∈ (gaps h root (some old) c).takeWhile fun g =>
          !(tryGap c newsize g).any (givable h root old),
          tryGap c newsize g = none := by
  rw [← findSome?_forall_iff, reallocateResource, findResource_eq (htree.wellFormed root)]
  cases hfound : (gaps h root (some old) c).findSome? (tryGap c newsize) with
  | none => exact iff_of_true ⟨h, -EBUSY, rfl, fun _ => rfl⟩ (by simp)
  | some r =>
    simp only [Option.some.injEq, forall_eq']
    change (∃ h' ret, moveFound h root old (some r) = some (h', ret) ∧ _) ↔ _
    by_cases hchild : (h.child old).isSome
    · refine iff_of_true ?_ (.inl hchild)
      rw [moveFound]
      split_ifs
      · exact ⟨_, 0, rfl, by simp⟩
      · exact ⟨h, -EBUSY, rfl, fun _ => rfl⟩
    · rw [or_iff_right hchild]
      exact moveFound_safe_iff root htree hold hfound hchild

/-- A resource grows down to the beginning of the tree. -/
theorem board_reallocate :
    ∃ h' ret, reallocateResource board 0 1 0x2000 ⟨0, 0xffff, 0x1000, simpleAlignResource⟩ =
      some (h', ret) ∧ (ret ≠ 0 → h' = board) := by
  have hrooted : Rooted board.parent
    | 0 => ⟨[0], by decide⟩
    | 1 => ⟨[1, 0], by decide⟩
    | 2 => ⟨[2], by decide⟩
  exact (reallocate_safe_iff board board.children 0 0 1 _ _ ⟨by decide, hrooted⟩
    (by decide)).mpr (.inr (by decide))

/-- A size that takes the end of the range around to below its start. -/
theorem board_bug :
    reallocateResource board 0 1 0xfffff000 ⟨0x4000, 0xffff, 0x1000, simpleAlignResource⟩ =
      none := by
  decide

/-- With any alignment function the allocation of a resource that hangs nowhere keeps the forest:
it is the request that decides. -/
lemma putFound_spec (hf : h.Forest kids) (hfree : ∀ x, new ∉ kids x) (hout : h.Outside new root)
    (hnone : kids new = []) (found : Option Range) :
    ∃ res, putFound h root new found = some res ∧ ∃ kids', res.1.Forest kids' := by
  cases found with
  | none => exact ⟨_, rfl, kids, hf⟩
  | some r =>
    have hforest : (h.setRange new r).Forest kids :=
      hf.setRange (by simp [hnone]) fun y l₁ l₂ hy => absurd (hy ▸ by simp) (hfree y)
    obtain ⟨res, hres, hkids⟩ := requestResourceConflict_spec hforest hfree hout
    exact ⟨verdict res, by rw [putFound, hres]; rfl, hkids⟩

lemma allocateResource_forest (hf : h.Forest kids) {alignf : Option (Range → Word → Word → Word)}
    (hnew : h.parent new = none → kids new = [] ∧ h.Outside new root)
    (hold : ∀ x, h.parent new = some x → new ∈ kids root ∧
      ∀ g ∈ (gaps h root (some new) ⟨min, max, align, alignf.getD simpleAlignResource⟩).takeWhile
        fun g => !roomy ⟨min, max, align, alignf.getD simpleAlignResource⟩ size g,
        misled ⟨min, max, align, alignf.getD simpleAlignResource⟩ size g = false) :
    ∃ res, allocateResource h root new size min max align alignf = some res ∧
      ∃ kids', res.1.Forest kids' := by
  rw [allocateResource]
  cases hparent : h.parent new with
  | none =>
    obtain ⟨hnone, hout⟩ := hnew hparent
    have hfree : ∀ x, new ∉ kids x := fun x => (hf.family x).notMem_of_parent hparent
    obtain ⟨res, hres, hkids⟩ := putFound_spec hf hfree hout hnone _
    refine ⟨res, ?_, hkids⟩
    exact (congrArg (Option.bind · _) (findResource_eq (hf.wellFormed root))).trans hres
  | some x =>
    obtain ⟨hmem, hsure⟩ := hold x hparent
    exact reallocateResource_spec hf hmem hsure

end Mini2440.Resource
