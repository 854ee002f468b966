import Mathlib.Order.Bounds.Basic
import Mini2440.Resource.Calls

/-!
# Searching for room

`__find_resource` walks the gaps between the children of a resource and takes the first one in
which the constraint finds a place. The gaps as a list are `gaps`; the walk is a search in that
list (`findResource_eq`). The end of a place is computed in 32 bits: where it wraps around, the
search takes a range that ends before it starts. `allocate_resource` then fails in
`__request_resource`; with the default alignment function it nevertheless finds the first place
whenever there is one (`allocate_first_fit`), since behind a place that wraps around there is no
other.
-/

namespace Mini2440.Resource

open List BitVec Library

variable {ι : Type} [DecidableEq ι]

/-! ## The gaps -/

/-- The gaps behind `start` and before, between and behind the children of the list. The resource
`old` does not end a gap; the gap that reaches up to its end is tried first, and the start of the
next one has been clipped then. -/
def gapsFrom (h : Heap ι) (root : ι) (old : Option ι) (c : Constraint) :
    Word → List ι → List Range
  | start, [] => [⟨start, h.stop root⟩]
  | start, t :: l =>
    let gap : Range := ⟨start, if some t = old then h.stop t else h.start t - 1⟩
    gap :: if h.stop t = h.stop root then []
      else gapsFrom h root old c (if some t = old then (clipped c gap).start else h.stop t + 1) l

/-- The gaps that `__find_resource` tries. -/
def gaps [Fintype ι] (h : Heap ι) (root : ι) (old : Option ι) (c : Constraint) : List Range :=
  match h.children root with
  | t :: l =>
    if h.start t = h.start root then
      gapsFrom h root old c (if some t = old then h.start t else h.stop t + 1) l
    else gapsFrom h root old c (h.start root) (t :: l)
  | [] => gapsFrom h root old c (h.start root) []

variable {h : Heap ι} {root new t : ι} {old : Option ι} {c : Constraint} {size start : Word}
  {l l₁ l₂ : List ι} {fuel : Nat} {g r : Range}

lemma findLoop_eq {this : Option ι} (hl : Linked h.sibling this l) (hfuel : l.length < fuel) :
    findLoop h root old c size fuel this start =
      some ((gapsFrom h root old c start l).findSome? (tryGap c size)) := by
  induction l, fuel, hfuel using walk_induction generalizing this start with
  | nil fuel =>
    obtain rfl := linked_nil.mp hl
    simp [findLoop, gapsFrom]
  | cons t l fuel hfuel ih =>
    obtain ⟨rfl, hl⟩ := hl
    rw [findLoop, gapsFrom, findSome?_cons, ih hl]
    cases tryGap c size ⟨start, if some t = old then h.stop t else h.start t - 1⟩ with
    | some alloc => rfl
    | none =>
      split_ifs <;> rfl

lemma findResource_eq [Fintype ι] (hf : h.Family root (h.children root)) :
    findResource h root old c size = some ((gaps h root old c).findSome? (tryGap c size)) := by
  have hlinked := hf.linked
  have hcard := hlinked.length_le_card
  unfold findResource gaps
  generalize h.children root = l at hlinked hcard
  cases l with
  | nil =>
    rw [linked_nil.mp hlinked]
    exact findLoop_eq rfl (by omega)
  | cons t l =>
    rw [length_cons] at hcard
    rw [hlinked.1]
    dsimp only
    split_ifs
    · exact findLoop_eq hlinked.2 (by omega)
    · exact findLoop_eq hlinked.2 (by omega)
    · exact findLoop_eq ⟨rfl, hlinked.2⟩ (by rw [length_cons]; omega)

/-! ## What is in a gap -/

lemma toNat_clip_start (g : Range) (lo hi : Word) :
    (resourceClip g lo hi).start.toNat = max g.start.toNat lo.toNat := by
  unfold resourceClip
  split_ifs with hlt hgt hgt <;> rw [lt_def] at hlt <;> dsimp only <;> omega

lemma toNat_clip_stop (g : Range) (lo hi : Word) :
    (resourceClip g lo hi).stop.toNat = min g.stop.toNat hi.toNat := by
  unfold resourceClip
  split_ifs with hlt hgt hgt <;> rw [gt_iff_lt, lt_def] at hgt <;> dsimp only <;> omega

lemma clipped_start_ge : g.start ≤ (clipped c g).start := by
  unfold clipped
  split_ifs
  · exact BitVec.le_refl _
  · rw [BitVec.le_def, toNat_clip_start]
    exact le_max_left _ _

lemma clipped_eq (hne : g.start ≤ g.stop) : clipped c g = resourceClip g c.min c.max :=
  if_neg (BitVec.not_lt.mpr hne)

lemma resourceContains_iff {r₁ r₂ : Range} :
    resourceContains r₁ r₂ ↔ r₁.start ≤ r₂.start ∧ r₂.stop ≤ r₁.stop := by
  simp [resourceContains]

lemma tryGap_sound (htry : tryGap c size g = some r) :
    g.start ≤ g.stop ∧ g.start ≤ r.start ∧ r.stop ≤ g.stop := by
  unfold tryGap at htry
  split_ifs at htry with hempty
  have hne := BitVec.not_lt.mp hempty
  rw [clipped_eq hne] at htry
  unfold slot at htry
  dsimp only at htry
  split_ifs at htry with halign hcontains
  obtain rfl := Option.some.inj htry
  obtain ⟨hlo, hhi⟩ := resourceContains_iff.mp hcontains
  have hstart : g.start ≤ (resourceClip g c.min c.max).start := by
    rw [le_def, toNat_clip_start]
    exact le_max_left _ _
  have hstop : (resourceClip g c.min c.max).stop ≤ g.stop := by
    rw [le_def, toNat_clip_stop]
    exact min_le_left _ _
  bv_omega

/-- A gap is inside the resource, and no child but `old` reaches into it. -/
structure Gap (h : Heap ι) (root : ι) (old : Option ι) (l : List ι) (g : Range) : Prop where
  above : h.start root ≤ g.start
  below : g.stop ≤ h.stop root
  free : ∀ d ∈ l, some d ≠ old → h.stop d < g.start ∨ g.stop < h.start d

/-- The walk has passed the children `l₁`, and `start` is behind them. -/
structure Passed (h : Heap ι) (root : ι) (old : Option ι) (l₁ : List ι) (start : Word)
    (l : List ι) : Prop where
  arranged : Arranged h.range root (l₁ ++ l)
  above : h.start root ≤ start
  before : ∀ d ∈ l₁, some d ≠ old → h.stop d < start
  next : old = none → ∀ d ∈ l, start ≤ h.start d

section

omit [DecidableEq ι]

lemma Passed.stay (hp : Passed h root old l₁ start (t :: l)) (hold : some t = old) {s : Word}
    (hle : start ≤ s) : Passed h root old (l₁ ++ [t]) s l := by
  refine ⟨by simpa using hp.arranged, BitVec.le_trans hp.above hle, fun d hd hne => ?_, ?_⟩
  · rcases mem_append.mp hd with hd | hd
    · exact Nat.lt_of_lt_of_le (hp.before d hd hne) hle
    · exact absurd (by rwa [mem_singleton.mp hd]) hne
  · rintro rfl
    simp at hold

lemma Passed.step (hp : Passed h root old l₁ start (t :: l)) (htop : h.stop t ≠ 0xffffffff) :
    Passed h root old (l₁ ++ [t]) (h.stop t + 1) l := by
  have hin := hp.arranged.inside t (by simp)
  have habove : h.start root ≤ h.start t := hin.above
  have hnonempty : h.start t ≤ h.stop t := hin.nonempty
  obtain ⟨-, hbehind, hbefore⟩ := pairwise_append.mp hp.arranged.sorted
  refine ⟨by simpa using hp.arranged, by bv_omega, fun d hd _ => ?_, fun _ d hd => ?_⟩
  · rcases mem_append.mp hd with hd | hd
    · have hlt : h.stop d < h.start t := hbefore d hd t mem_cons_self
      bv_omega
    · obtain rfl := mem_singleton.mp hd
      bv_omega
  · have hlt : h.stop t < h.start d := (pairwise_cons.mp hbehind).1 d hd
    bv_omega

lemma Arranged.passed (ha : Arranged h.range root l) : Passed h root old [] (h.start root) l :=
  ⟨ha, BitVec.le_refl _, by simp, fun _ d hd => (ha.inside d hd).above⟩

lemma Arranged.start_lt (ha : Arranged h.range root (t :: l)) :
    ∀ d ∈ l, h.start root < h.start d := fun d hd => by
  have hin := ha.inside t mem_cons_self
  have habove : h.start root ≤ h.start t := hin.above
  have hnonempty : h.start t ≤ h.stop t := hin.nonempty
  have hlt : h.stop t < h.start d := (pairwise_cons.mp ha.sorted).1 d hd
  bv_omega

lemma Arranged.start_lt_of_ne (ha : Arranged h.range root (t :: l))
    (hne : h.start t ≠ h.start root) : ∀ d ∈ t :: l, h.start root < h.start d := fun d hd => by
  rcases mem_cons.mp hd with rfl | hd
  · have habove : h.start root ≤ h.start d := (ha.inside d hd).above
    bv_omega
  · exact ha.start_lt d hd

lemma Arranged.stop_ne (ha : Arranged h.range root l) (ht : t ∈ l) (hne : h.stop t ≠ h.stop root) :
    h.stop t ≠ 0xffffffff := by
  have hbelow : h.stop t ≤ h.stop root := (ha.inside t ht).below
  bv_omega

end

lemma gapsFrom_sound (hp : Passed h root old l₁ start l)
    (hpos : ∀ d ∈ l, h.start root < h.start d) (hg : g ∈ gapsFrom h root old c start l) :
    Gap h root old (l₁ ++ l) g := by
  induction l generalizing start l₁ with
  | nil =>
    obtain rfl := List.mem_singleton.mp hg
    exact ⟨hp.above, BitVec.le_refl _, fun d hd hold => .inl (hp.before d (by simpa using hd) hold)⟩
  | cons t l ih =>
    obtain ⟨htpos, hpos⟩ := forall_mem_cons.mp hpos
    rcases mem_cons.mp hg with rfl | hg
    · have hin := hp.arranged.inside t (by simp)
      have hnonempty : h.start t ≤ h.stop t := hin.nonempty
      have hbelow : h.stop t ≤ h.stop root := hin.below
      refine ⟨hp.above, ?_, fun d hd hold => ?_⟩
      · split_ifs <;> bv_omega
      · rcases mem_append.mp hd with hd | hd
        · exact .inl (hp.before d hd hold)
        · refine .inr ?_
          rcases mem_cons.mp hd with rfl | hd
          · rw [if_neg hold]
            bv_omega
          · have hlt : h.stop t < h.start d :=
              (pairwise_cons.mp (pairwise_append.mp hp.arranged.sorted).2.1).1 d hd
            split_ifs <;> bv_omega
    · rw [append_cons]
      split_ifs at hg with hlast hold
      · simp at hg
      · exact ih (hp.stay hold (clipped_start_ge (g := ⟨start, h.stop t⟩))) hpos hg
      · exact ih (hp.step (hp.arranged.stop_ne (by simp) hlast)) hpos hg

/-- All gaps are free, if the room behind the first child does not begin at zero again. -/
lemma gaps_sound [Fintype ι] (hf : h.Family root (h.children root))
    (hfirst : ∀ t ∈ (h.children root).head?, some t ≠ old → h.start t = h.start root →
      h.stop t ≠ 0xffffffff)
    (hg : g ∈ gaps h root old c) : Gap h root old (h.children root) g := by
  have ha := hf.arranged
  unfold gaps at hg
  generalize h.children root = l at ha hfirst hg
  cases l with
  | nil => exact gapsFrom_sound ha.passed (by simp) hg
  | cons t l =>
    dsimp only at hg
    split_ifs at hg with hskip hold
    · exact gapsFrom_sound (ha.passed.stay hold (ha.inside t mem_cons_self).above) ha.start_lt hg
    · exact gapsFrom_sound (ha.passed.step (hfirst t (by simp) hold hskip)) ha.start_lt hg
    · exact gapsFrom_sound ha.passed (ha.start_lt_of_ne hskip) hg

/-! ## The first place -/

/-- The multiples of `n` at which `size` addresses are inside the bounds and the range. -/
def room (n : Nat) (size min max : Word) (g : Range) : Set Nat :=
  {a | n ∣ a ∧ min.toNat ≤ a ∧ a + size.toNat ≤ max.toNat + 1 ∧ g.start.toNat ≤ a ∧
    a + size.toNat ≤ g.stop.toNat + 1}

/-- How a search for the least number of a set ends: it finds nothing, the least one, or a range
whose end has wrapped around. -/
inductive FirstFit (s : Set Nat) (size : Word) : Option Range → Prop where
  | none (empty : s = ∅) : FirstFit s size none
  | least (r : Range) (least : IsLeast s r.start.toNat)
      (stop : r.stop.toNat + 1 = r.start.toNat + size.toNat) : FirstFit s size (some r)
  | wraps (r : Range) (stop : r.stop < r.start) (empty : s = ∅) : FirstFit s size (some r)

section

variable {k : Nat} (hc : c.alignf = simpleAlignResource) (halign : c.align.toNat = 2 ^ k)
  (hsize : size ≠ 0)

include hc halign hsize

/-- One gap with the default alignment function; where the end wraps around, there is no room in
any later gap either. -/
lemma tryGap_firstFit :
    FirstFit (room (2 ^ k) size c.min c.max g) size (tryGap c size g) ∧
      ∀ r, tryGap c size g = some r → r.stop < r.start →
        ∀ a, 2 ^ k ∣ a → g.start.toNat ≤ a → c.min.toNat ≤ a → 2 ^ 32 < a + size.toNat := by
  have hpos : 0 < size.toNat := by bv_omega
  by_cases hempty : g.stop < g.start
  · rw [tryGap, if_pos hempty]
    rw [lt_def] at hempty
    refine ⟨.none (Set.eq_empty_of_forall_notMem ?_), by simp⟩
    rintro a ⟨-, -, -, hlo, hhi⟩
    omega
  have hstart := toNat_clip_start g c.min c.max
  have hstop := toNat_clip_stop g c.min c.max
  rw [tryGap, if_neg hempty, clipped, if_neg hempty]
  generalize resourceClip g c.min c.max = tmp at hstart hstop ⊢
  simp only [slot, hc, simpleAlignResource]
  by_cases hover : tmp.start.toNat + (2 ^ k - 1) < 2 ^ 32
  · obtain ⟨⟨hdvd, hge⟩, hleast⟩ := isLeast_alignUp halign hover
    rw [if_pos (by omega)]
    generalize alignUp tmp.start c.align = first at hdvd hge hleast ⊢
    have hfirst : ∀ a, 2 ^ k ∣ a → g.start.toNat ≤ a → c.min.toNat ≤ a → first.toNat ≤ a :=
      fun a ha hlo hmin => hleast ⟨ha, by omega⟩
    by_cases hwrap : first.toNat + size.toNat ≤ 2 ^ 32
    · have hend : (first + size - 1).toNat + 1 = first.toNat + size.toNat := by bv_omega
      split_ifs with hcontains
      · obtain ⟨-, hle⟩ := resourceContains_iff.mp hcontains
        rw [le_def] at hle
        dsimp only at hle
        have hmem : first.toNat ∈ room (2 ^ k) size c.min c.max g :=
          ⟨hdvd, by omega, by omega, by omega, by omega⟩
        refine ⟨.least _ ⟨hmem, ?_⟩ hend, ?_⟩
        · rintro a ⟨ha, hmin, -, hlo, -⟩
          exact hfirst a ha hlo hmin
        · rintro r hr hlt
          obtain rfl := Option.some.inj hr
          rw [lt_def] at hlt
          dsimp only at hlt
          omega
      · refine ⟨.none (Set.eq_empty_of_forall_notMem ?_), by simp⟩
        rintro a ⟨ha, hmin, hmax, hlo, hhi⟩
        have hle := hfirst a ha hlo hmin
        refine hcontains (resourceContains_iff.mpr ⟨BitVec.le_refl _, ?_⟩)
        rw [BitVec.le_def]
        dsimp only
        omega
    · -- no multiple from here on leaves room below the last address
      have hend : first + size - 1 < first := by bv_omega
      have hnone : ∀ a, 2 ^ k ∣ a → g.start.toNat ≤ a → c.min.toNat ≤ a →
          2 ^ 32 < a + size.toNat := fun a ha hlo hmin => by
        have hle := hfirst a ha hlo hmin
        omega
      have hempty : room (2 ^ k) size c.min c.max g = ∅ := Set.eq_empty_of_forall_notMem (by
        rintro a ⟨ha, hmin, hmax, hlo, -⟩
        have hlt := hnone a ha hlo hmin
        omega)
      split_ifs
      · exact ⟨.wraps _ hend hempty, fun _ _ _ => hnone⟩
      · exact ⟨.none hempty, by simp⟩
  · have hoverflow := not_lt.mp hover
    have hsmall : ¬ (0 : Word) ≥ tmp.start := by bv_omega
    rw [alignUp_of_overflow halign hoverflow, if_neg hsmall]
    refine ⟨.none (Set.eq_empty_of_forall_notMem ?_), by simp⟩
    rintro a ⟨ha, hmin, hmax, hlo, -⟩
    have hge := le_multiple_of_overflow halign hoverflow ha (by omega)
    omega

end

/-- The places for `size` addresses between the children of the list. -/
def placesAmong (h : Heap ι) (root : ι) (l : List ι) (size min max : Word) (n : Nat) : Set Nat :=
  {a ∈ room n size min max (h.range root) |
    ∀ d ∈ l, a + size.toNat ≤ (h.start d).toNat ∨ (h.stop d).toNat < a}

variable {min max : Word} {k : Nat}

omit [DecidableEq ι] in
lemma Gap.room_subset {n : Nat} (hgap : Gap h root none l g) :
    room n size min max g ⊆ placesAmong h root l size min max n := by
  rintro a ⟨ha, hmin, hmax, hlo, hhi⟩
  have habove := hgap.above
  have hbelow : g.stop.toNat ≤ (h.stop root).toNat := hgap.below
  refine ⟨⟨ha, hmin, hmax, habove.trans hlo, hhi.trans (Nat.succ_le_succ hbelow)⟩, fun d hd => ?_⟩
  rcases hgap.free d hd (by simp) with hfree | hfree
  · bv_omega
  · exact .inl (hhi.trans hfree)

lemma gapsFrom_none_cons :
    gapsFrom h root none c start (t :: l) = ⟨start, h.start t - 1⟩ ::
      if h.stop t = h.stop root then [] else gapsFrom h root none c (h.stop t + 1) l := by
  simp [gapsFrom]

omit [DecidableEq ι] in
lemma places_split {n : Nat} (hp : Passed h root none l₁ start (t :: l))
    (hpos : h.start root < h.start t)
    (hgap : Gap h root none (l₁ ++ t :: l) ⟨start, h.start t - 1⟩) :
    {a ∈ placesAmong h root (l₁ ++ t :: l) size min max n | start.toNat ≤ a} =
      room n size min max ⟨start, h.start t - 1⟩ ∪
        {a ∈ placesAmong h root (l₁ ++ t :: l) size min max n | (h.stop t).toNat + 1 ≤ a} := by
  have hpred : (h.start t - 1).toNat + 1 = (h.start t).toNat := by bv_omega
  have hle : start ≤ h.start t := hp.next rfl t mem_cons_self
  have hnonempty : h.start t ≤ h.stop t := (hp.arranged.inside t (by simp)).nonempty
  ext a
  constructor
  · rintro ⟨hplace, hlo⟩
    rcases hplace.2 t (by simp) with hbefore | hbehind
    · obtain ⟨hdvd, hmin, hmax, -, -⟩ := hplace.1
      exact .inl ⟨hdvd, hmin, hmax, hlo, by rwa [hpred]⟩
    · exact .inr ⟨hplace, hbehind⟩
  · rintro (hroom | ⟨hplace, hbehind⟩)
    · exact ⟨hgap.room_subset hroom, hroom.2.2.2.1⟩
    · exact ⟨hplace, by bv_omega⟩

/-- The places that are left are those from `start` on. -/
lemma gapsFrom_firstFit (hp : Passed h root none l₁ start l)
    (hpos : ∀ d ∈ l, h.start root < h.start d) (hc : c.alignf = simpleAlignResource)
    (halign : c.align.toNat = 2 ^ k) (hsize : size ≠ 0) :
    FirstFit {a ∈ placesAmong h root (l₁ ++ l) size c.min c.max (2 ^ k) | start.toNat ≤ a} size
      ((gapsFrom h root none c start l).findSome? (tryGap c size)) := by
  induction l generalizing start l₁ with
  | nil =>
    have hgap := gapsFrom_sound (c := c) hp hpos (mem_singleton_self _)
    have hsame : {a ∈ placesAmong h root (l₁ ++ []) size c.min c.max (2 ^ k) | start.toNat ≤ a} =
        room (2 ^ k) size c.min c.max ⟨start, h.stop root⟩ := by
      ext a
      constructor
      · rintro ⟨⟨⟨hdvd, hmin, hmax, -, hhi⟩, -⟩, hlo⟩
        exact ⟨hdvd, hmin, hmax, hlo, hhi⟩
      · exact fun hroom => ⟨hgap.room_subset hroom, hroom.2.2.2.1⟩
    rw [hsame, gapsFrom, findSome?_singleton]
    exact (tryGap_firstFit hc halign hsize).1
  | cons t l ih =>
    have hgap := gapsFrom_sound (c := c) hp hpos (by rw [gapsFrom_none_cons]; exact mem_cons_self)
    obtain ⟨htpos, hpos⟩ := forall_mem_cons.mp hpos
    have hnonempty : h.start t ≤ h.stop t := (hp.arranged.inside t (by simp)).nonempty
    have hsizepos : 0 < size.toNat := by bv_omega
    rw [gapsFrom_none_cons, findSome?_cons, places_split hp htpos hgap]
    obtain ⟨hfit, hwrap⟩ := tryGap_firstFit (g := ⟨start, h.start t - 1⟩) hc halign hsize
    generalize tryGap c size ⟨start, h.start t - 1⟩ = res at hfit hwrap ⊢
    cases hfit with
    | none empty =>
      rw [empty, Set.empty_union]
      split_ifs with hlast
      · refine .none (Set.eq_empty_of_forall_notMem ?_)
        rintro a ⟨⟨⟨-, -, -, -, hhi⟩, -⟩, hbehind⟩
        change a + size.toNat ≤ (h.stop root).toNat + 1 at hhi
        rw [hlast] at hbehind
        omega
      · have htop := hp.arranged.stop_ne (by simp) hlast
        have hsucc : (h.stop t + 1).toNat = (h.stop t).toNat + 1 := by bv_omega
        rw [← hsucc, append_cons]
        exact ih (hp.step htop) hpos
    | least r least stop =>
      refine .least r ⟨.inl least.1, ?_⟩ stop
      rintro a (hroom | ⟨-, hbehind⟩)
      · exact least.2 hroom
      · have hroom := least.1.2.2.2.2
        bv_omega
    | wraps r stop empty =>
      refine .wraps r stop ?_
      rw [empty, Set.empty_union]
      refine Set.eq_empty_of_forall_notMem ?_
      rintro a ⟨⟨⟨hdvd, hmin, hmax, -, -⟩, -⟩, hbehind⟩
      have hlo : start ≤ h.start t := hp.next rfl t mem_cons_self
      have hlt := hwrap r rfl stop a hdvd (by bv_omega) hmin
      omega

variable [Fintype ι]

/-- The multiples of `n` from which on `size` addresses are inside `[min, max]`, inside the
resource and apart from all its children. -/
def places (h : Heap ι) (root : ι) (size min max : Word) (n : Nat) : Set Nat :=
  placesAmong h root (h.children root) size min max n

/-- The search finds the first place, unless the first child leaves nothing above it. -/
lemma gaps_firstFit (hf : h.Family root (h.children root))
    (hfirst : ∀ t ∈ (h.children root).head?, h.start t = h.start root → h.stop t ≠ 0xffffffff)
    (hc : c.alignf = simpleAlignResource) (halign : c.align.toNat = 2 ^ k) (hsize : size ≠ 0) :
    FirstFit (places h root size c.min c.max (2 ^ k)) size
      ((gaps h root none c).findSome? (tryGap c size)) := by
  have ha := hf.arranged
  unfold places gaps
  generalize h.children root = l at ha hfirst
  have hfrom : {a ∈ placesAmong h root l size c.min c.max (2 ^ k) | (h.start root).toNat ≤ a} =
      placesAmong h root l size c.min c.max (2 ^ k) :=
    Set.ext fun a => ⟨And.left, fun hplace => ⟨hplace, hplace.1.2.2.2.1⟩⟩
  cases l with
  | nil =>
    rw [← hfrom]
    exact gapsFrom_firstFit ha.passed (by simp) hc halign hsize
  | cons t l =>
    dsimp only
    rw [if_neg (by simp : ¬ some t = none)]
    split_ifs with hskip
    · have htop := hfirst t (by simp) hskip
      have hsucc : (h.stop t + 1).toNat = (h.stop t).toNat + 1 := by bv_omega
      -- what is not behind the first child overlaps it
      have hbehind : {a ∈ placesAmong h root (t :: l) size c.min c.max (2 ^ k) |
          (h.stop t + 1).toNat ≤ a} = placesAmong h root (t :: l) size c.min c.max (2 ^ k) := by
        refine Set.ext fun a => ⟨And.left, fun hplace => ⟨hplace, ?_⟩⟩
        have hlo : (h.start root).toNat ≤ a := hplace.1.2.2.2.1
        have hsizepos : size.toNat ≠ 0 := by bv_omega
        rcases hplace.2 t (by simp) with hbefore | hbehind
        · rw [hskip] at hbefore
          omega
        · omega
      rw [← hbehind]
      exact gapsFrom_firstFit (ha.passed.step htop) ha.start_lt hc halign hsize
    · rw [← hfrom]
      exact gapsFrom_firstFit ha.passed (ha.start_lt_of_ne hskip) hc halign hsize

end Mini2440.Resource
