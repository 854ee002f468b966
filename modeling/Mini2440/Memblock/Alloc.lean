import Mathlib.Data.Set.Lattice
import Mathlib.Order.CompletePartialOrder
import Mini2440.Library.Run
import Mini2440.Memblock.Free
import Mini2440.Memblock.Operations

/-!
# Allocation from memblock

`memblock_find_in_range_node` walks the free ranges downwards and takes the highest place that
fits; `memblock_alloc_base` reserves it. The size is rounded up to the alignment first: a size
above the last multiple is rounded to zero, and then the place that is returned is not reserved.
The sequences of calls below find room for one more region each, which is what a free block needs,
so that the array is never enlarged: before the slab allocator is up, `memblock_double_array` takes
the new array from memblock and frees the old one.
-/

namespace Mini2440.Memblock

open List BitVec Library

def clamp (val lo hi : Word) : Word :=
  let val := if val < lo then lo else val
  if hi < val then hi else val

/-- The body of the loop of `memblock_find_in_range_node`: the place in a free range. -/
def candidate (start stop size align : Word) (r : Word × Word) : Option Word :=
  let thisStart := clamp r.1 start stop
  let thisEnd := clamp r.2 start stop
  if thisEnd < size then none
  else
    let cand := roundDown (thisEnd - size) align
    if thisStart ≤ cand then some cand else none

/-- `for_each_free_mem_range_reverse` with a body that may return. -/
def findLoop (next : BitVec 64 → BitVec 64 × Option (Word × Word))
    (body : Word × Word → Option Word) : Nat → BitVec 64 → Option Word
  | 0, _ => none
  | fuel + 1, idx =>
    if (next idx).1 = noCursor then some 0
    else
      match (next idx).2.bind body with
      | some cand => some cand
      | none => findLoop next body fuel (next idx).1

def pageSize : Word := 0x1000

/-- The end of the range, with `MEMBLOCK_ALLOC_ACCESSIBLE` for the current limit. -/
def pumpUp (s : Blocks) (stop : Word) : Word := if stop = 0 then s.currentLimit else stop

/-- `memblock_find_in_range_node`, for all nodes; `none` if the walk does not end. -/
def findInRangeNode (s : Blocks) (start stop size align : Word) : Option Word :=
  let stop := pumpUp s stop
  -- avoid allocating the first page
  let start := if start < pageSize then pageSize else start
  let stop := if stop < start then start else stop
  findLoop (nextFreeMemRangeRev s.memory.regions s.reserved.regions)
    (candidate start stop size align) (s.memory.cnt + s.reserved.cnt + 2) noCursor

structure Request where
  size : Word
  align : Word
  maxAddr : Word

/-- `memblock_alloc_base_nid`. -/
def allocBaseNid (s : Blocks) (q : Request) : Option (Blocks × Word) := do
  let size := roundUp q.size q.align
  let found ← findInRangeNode s 0 q.maxAddr size q.align
  if found = 0 then some (s, 0)
  else
    let t ← addRegion s.reserved found size
    some ({ s with reserved := t }, found)

/-- `memblock_alloc_base`, with `none` for the `panic`. -/
def allocBase (s : Blocks) (q : Request) : Option (Blocks × Word) := do
  let (s, alloc) ← allocBaseNid s q
  if alloc = 0 then none else some (s, alloc)

/-- The addresses and sizes of the blocks that a sequence of calls returns; a `panic` ends it. -/
def allocs : Blocks → List Request → List (Word × Word)
  | _, [] => []
  | s, q :: qs =>
    match allocBase s q with
    | none => []
    | some (s, alloc) => (alloc, q.size) :: allocs s qs

def afterAlloc (s : Blocks) (q : Request) : Blocks := (allocBase s q).elim s Prod.fst

/-! ## The place in one range -/

variable {s s' : Blocks} {start stop size align a : Word} {k : Nat} {r : Word × Word}
  {rs : List (Word × Word)} {l : List Region} {q : Request} {R : Set Nat} {ri : Int}

lemma toNat_clamp (val lo hi : Word) :
    (clamp val lo hi).toNat = min (max val.toNat lo.toNat) hi.toNat := by
  simp only [clamp, lt_def]
  grind

def places (n : Nat) (r : Span) (lo hi size : Nat) : Set Nat :=
  {a | n ∣ a ∧ lo ≤ a ∧ a + size ≤ hi ∧ r.lo ≤ a ∧ a + size ≤ r.hi}

lemma candidate_spec (hk : align.toNat = 2 ^ k) (hsize : size ≠ 0) (hle : start ≤ stop) :
    (∃ a, candidate start stop size align r = some a ∧
      IsGreatest (places (2 ^ k) (rangeSpan r) start.toNat stop.toNat size.toNat) a.toNat) ∨
    candidate start stop size align r = none ∧
      places (2 ^ k) (rangeSpan r) start.toNat stop.toNat size.toNat = ∅ := by
  have hpos : 0 < size.toNat := by bv_omega
  have hle' : start.toNat ≤ stop.toNat := hle
  have hstart := toNat_clamp r.1 start stop
  have hend := toNat_clamp r.2 start stop
  by_cases hshort : clamp r.2 start stop < size
  · have hshort' : (clamp r.2 start stop).toNat < size.toNat := hshort
    refine .inr ⟨by simp [candidate, hshort], Set.eq_empty_of_forall_notMem ?_⟩
    rintro a ⟨-, hlo, hhi, hlo', hhi'⟩
    simp only [rangeSpan] at hlo' hhi'
    omega
  · have hroom : size ≤ clamp r.2 start stop := by bv_omega
    have hroom' : size.toNat ≤ (clamp r.2 start stop).toNat := hroom
    obtain ⟨⟨hdvd, hfit⟩, hgreatest⟩ := isGreatest_roundDown (x := clamp r.2 start stop - size) hk
    rw [toNat_sub_of_le hroom] at hfit hgreatest
    have hupper {a : Nat} (ha : a ∈ places (2 ^ k) (rangeSpan r) start.toNat stop.toNat
        size.toNat) : a ≤ (roundDown (clamp r.2 start stop - size) align).toNat := by
      obtain ⟨hdvd', hlo, hhi, hlo', hhi'⟩ := ha
      refine hgreatest ⟨hdvd', ?_⟩
      simp only [rangeSpan] at hlo' hhi'
      omega
    by_cases hcand : clamp r.1 start stop ≤ roundDown (clamp r.2 start stop - size) align
    · have hcand' : (clamp r.1 start stop).toNat ≤
        (roundDown (clamp r.2 start stop - size) align).toNat := hcand
      refine .inl ⟨_, by simp [candidate, hshort, hcand], ⟨hdvd, ?_⟩, fun a => hupper⟩
      simp only [rangeSpan]
      omega
    · have hcand' : ¬ (clamp r.1 start stop).toNat ≤
        (roundDown (clamp r.2 start stop - size) align).toNat := hcand
      refine .inr ⟨by simp [candidate, hcand], Set.eq_empty_of_forall_notMem ?_⟩
      intro a ha
      have hle'' := hupper ha
      obtain ⟨-, hlo, hhi, hlo', hhi'⟩ := ha
      simp only [rangeSpan] at hlo' hhi'
      omega

/-! ## The highest place -/

lemma findLoop_eq {next : BitVec 64 → BitVec 64 × Option (Word × Word)}
    {body : Word × Word → Option Word} {fuel : Nat} {idx : BitVec 64}
    (h : forEach next fuel idx = some rs) :
    findLoop next body fuel idx = some ((rs.findSome? body).getD 0) := by
  induction fuel generalizing idx rs with
  | zero => cases h
  | succ fuel ih =>
    rw [forEach] at h
    rw [findLoop]
    by_cases hend : (next idx).1 = noCursor
    · rw [if_pos hend] at h ⊢
      obtain rfl := Option.some.inj h
      rfl
    · rw [if_neg hend] at h ⊢
      obtain ⟨rest, hrest, rfl⟩ := Option.map_eq_some_iff.mp h
      rw [ih hrest]
      cases hr : (next idx).2 with
      | none => rfl
      | some r => cases hbody : body r <;> simp [hbody]

/-- Of ranges from the highest to the lowest, the first one with a place has the highest. -/
lemma findSome_spec {T : Set Nat}
    (hk : align.toNat = 2 ^ k) (hsize : size ≠ 0) (hle : start ≤ stop)
    (hsorted : rs.Pairwise fun r s => s.2 ≤ r.1)
    (hT : ∀ a, a ∈ T ↔ ∃ r ∈ rs,
      a ∈ places (2 ^ k) (rangeSpan r) start.toNat stop.toNat size.toNat) :
    (∃ a, rs.findSome? (candidate start stop size align) = some a ∧ IsGreatest T a.toNat) ∨
      rs.findSome? (candidate start stop size align) = none ∧ T = ∅ := by
  induction rs generalizing T with
  | nil => exact .inr ⟨rfl, Set.eq_empty_of_forall_notMem fun a ha => by simpa using (hT a).mp ha⟩
  | cons r rs ih =>
    rw [pairwise_cons] at hsorted
    rcases candidate_spec (r := r) hk hsize hle with ⟨a, ha, hgreatest⟩ | ⟨hnone, hempty⟩
    · refine .inl ⟨a, by simp [ha], (hT _).mpr ⟨r, by simp, hgreatest.1⟩, fun c hc => ?_⟩
      obtain ⟨r', hr', hplace⟩ := (hT c).mp hc
      rcases mem_cons.mp hr' with rfl | hr'
      · exact hgreatest.2 hplace
      · have hbelow : r'.2.toNat ≤ r.1.toNat := hsorted.1 r' hr'
        have hlow := hgreatest.1.2.2.2.1
        have hhigh := hplace.2.2.2.2
        simp only [rangeSpan] at hlow hhigh
        omega
    · rcases ih hsorted.2 (T := T) (fun a => by rw [hT a]; simp [hempty]) with
        ⟨a, ha, hgreatest⟩ | ⟨ha, hT'⟩
      · exact .inl ⟨a, by simp [hnone, ha], hgreatest⟩
      · exact .inr ⟨by simp [hnone, ha], hT'⟩

/-- A state of memblock that the calls reach. The number of reserved regions is of type `int`. -/
structure Ready (s : Blocks) : Prop where
  memory : WellFormed s.memory.regions
  reserved : WellFormed s.reserved.regions
  room : 0 < s.reserved.max
  indexed : s.reserved.regions.length < 2 ^ 31

lemma two_mul_length_le {b : Nat} (hasc : Ascending 1 b (spans l))
    (hsolid : Solid (spans l)) (hfit : Fits l) (hb : b ≤ 2 ^ 32) : b + 2 * l.length ≤ 2 ^ 32 := by
  induction l generalizing b with
  | nil => simpa using hb
  | cons r l ih =>
    rw [fits_cons] at hfit
    rw [spans_cons, solid_cons] at hsolid
    have hrest := ih hasc.2.2 hsolid.2 hfit.2 hfit.1
    have hlo : b ≤ r.span.lo := hasc.1
    rw [length_cons]
    omega

lemma WellFormed.length_le (h : WellFormed l) : l.length ≤ 2 ^ 31 := by
  rcases h.solid with rfl | ⟨-, hsolid⟩
  · decide
  · have hle := two_mul_length_le h.ascending hsolid h.fits (Nat.zero_le _)
    omega

lemma Ready.iterable (h : Ready s) : Iterable s.memory.regions s.reserved.regions where
  memorySorted := h.memory.sorted.imp le_of_lt
  memorySolid := h.memory.solid.imp_right And.right
  memoryFits := h.memory.fits
  reservedSorted := h.reserved.sorted
  reservedFits := h.reserved.fits
  memoryIndexed := h.memory.length_le
  reservedIndexed := h.indexed

def Free (s : Blocks) (a : Nat) : Prop :=
  Covers (spans s.memory.regions) a ∧ ¬ Covers (spans s.reserved.regions) a

/-- A block of free memory lies in one free range. -/
lemma Ready.exists_freeSpan (h : Ready s) {lo hi : Nat} (hlt : lo < hi)
    (hfree : ∀ a, lo ≤ a → a < hi → Free s a) :
    ∃ t ∈ freeSpans s.memory.regions s.reserved.regions, t.lo ≤ lo ∧ hi ≤ t.hi := by
  obtain ⟨m, hm, hmem⟩ := h.memory.ascending.exists_span hlt fun a hlo hhi => (hfree a hlo hhi).1
  have htop : m.hi ≤ 2 ^ 32 - 1 := by
    obtain ⟨r, hr, rfl⟩ := mem_map.mp hm
    exact Nat.le_pred_of_lt (h.memory.fits r hr)
  have hsolid : ∀ t ∈ spans s.reserved.regions, t.lo < t.hi ∨ t.hi ≤ lo := by
    rcases h.reserved.solid with hdummy | ⟨-, hsolid⟩
    · simp [hdummy, Region.dummy, Region.span]
    · exact fun t ht => .inl (hsolid t ht)
  obtain ⟨g, hg, harea⟩ := exists_between hsolid (Nat.zero_le _) (hmem.2.trans htop) hlt
    fun a hlo hhi => (hfree a hlo hhi).2
  exact exists_meets hm hg hlt hmem harea

/-- The places for a block that a call of `memblock_find_in_range_node` may return. -/
def fits (s : Blocks) (start stop size align : Word) : Set Nat :=
  {a | align.toNat ∣ a ∧ max start.toNat pageSize.toNat ≤ a ∧
    a + size.toNat ≤ (pumpUp s stop).toNat ∧ ∀ x, a ≤ x → x < a + size.toNat → Free s x}

/-- The search returns the highest place, and zero if there is none. -/
lemma findInRangeNode_spec (start stop : Word) (h : Ready s) (hk : align.toNat = 2 ^ k)
    (hsize : size ≠ 0) :
    ∃ a, findInRangeNode s start stop size align = some a ∧
      (IsGreatest (fits s start stop size align) a.toNat ∨
        a = 0 ∧ fits s start stop size align = ∅) := by
  have hpos : 0 < size.toNat := by bv_omega
  obtain ⟨rs, hdown, hspans⟩ := forEach_down
    (s.memory.cnt + s.reserved.cnt + 2) h.iterable (Nat.lt_succ_self _)
  generalize hlo : (if start < pageSize then pageSize else start) = lo
  generalize hhi : (if pumpUp s stop < lo then lo else pumpUp s stop) = hi
  have hlo' : lo.toNat = max start.toNat pageSize.toNat := by
    rw [← hlo]
    simp only [lt_def]
    split <;> omega
  have hhi' : hi.toNat = max lo.toNat (pumpUp s stop).toNat := by
    rw [← hhi]
    simp only [lt_def]
    split <;> omega
  have hle : lo ≤ hi := by bv_omega
  have hsorted : rs.Pairwise fun r s => s.2 ≤ r.1 := by
    have hasc := ascending_meets h.iterable.ascending_memory h.iterable.ascending_areas
    have hpair := pairwise_reverse.mpr (ascending_iff_pairwise.mp hasc).2
    rw [← hspans, pairwise_map] at hpair
    exact hpair
  have hT : ∀ a, a ∈ fits s start stop size align ↔ ∃ r ∈ rs,
      a ∈ places (2 ^ k) (rangeSpan r) lo.toNat hi.toNat size.toNat := by
    have hmem {t : Span} : t ∈ freeSpans s.memory.regions s.reserved.regions ↔
        ∃ r ∈ rs, rangeSpan r = t := by
      rw [← mem_map, hspans, mem_reverse, freeSpans]
    intro a
    constructor
    · rintro ⟨hdvd, hge, hend, hfree⟩
      obtain ⟨t, ht, hspan⟩ := h.exists_freeSpan (by omega) hfree
      obtain ⟨r, hr, rfl⟩ := hmem.mp ht
      exact ⟨r, hr, hk ▸ hdvd, by omega, by omega, hspan⟩
    · rintro ⟨r, hr, hdvd, hge, hend, hspan⟩
      refine ⟨hk ▸ hdvd, by omega, by omega, fun x hx hx' => ?_⟩
      exact (covers_freeSpans h.iterable).mp ⟨_, hmem.mpr ⟨r, hr, rfl⟩, by omega, by omega⟩
  have hfind : findInRangeNode s start stop size align =
      some ((rs.findSome? (candidate lo hi size align)).getD 0) := by
    rw [findInRangeNode, hlo, hhi]
    exact findLoop_eq hdown
  rw [hfind]
  rcases findSome_spec hk hsize hle hsorted hT with ⟨a, ha, hgreatest⟩ | ⟨ha, hempty⟩
  · exact ⟨a, by rw [ha]; rfl, .inl hgreatest⟩
  · exact ⟨0, by rw [ha]; rfl, .inr ⟨rfl, hempty⟩⟩

/-! ## Sequences of allocations -/

lemma scanRev_of_neg {rsv : List Region} {m : Region} (h : ri < 0) :
    scanRev rsv m (ri + 1).toNat ri = (ri, false) := by
  have hfuel : (ri + 1).toNat = 0 := by omega
  rw [hfuel, scanRev]

/-- A count of reserved regions that is not an `int` leaves no area to look at. -/
lemma nextLoopRev_of_neg {mem rsv : List Region} (h : ri < 0) (fuel : Nat)
    (mi : Int) : nextLoopRev mem rsv fuel mi ri = (noCursor, none) := by
  induction fuel generalizing mi with
  | zero => rfl
  | succ fuel ih => simp [nextLoopRev, scanRev_of_neg h, ih]

/-- Whatever the number of regions, a place that is found is free. -/
lemma mem_fits_of_find (hmem : WellFormed s.memory.regions) (hrsv : WellFormed s.reserved.regions)
    (hroom : 0 < s.reserved.max) (hk : align.toNat = 2 ^ k) (hsize : size ≠ 0)
    (hfind : findInRangeNode s start stop size align = some a) (ha : a ≠ 0) :
    a.toNat ∈ fits s start stop size align := by
  by_cases hindexed : s.reserved.regions.length < 2 ^ 31
  · obtain ⟨c, hc, hplace⟩ := findInRangeNode_spec start stop ⟨hmem, hrsv, hroom, hindexed⟩ hk hsize
    obtain rfl := Option.some.inj (hfind.symm.trans hc)
    rcases hplace with hgreatest | ⟨hzero, -⟩
    · exact hgreatest.1
    · exact absurd hzero ha
  · have hlen := Nat.le_antisymm hrsv.length_le (by omega)
    have hneg : (BitVec.ofNat 32 s.reserved.regions.length).toInt < 0 := by
      rw [hlen]
      decide
    have hzero : findInRangeNode s start stop size align = some 0 := by
      simp [findInRangeNode, findLoop, nextFreeMemRangeRev, nextLoopRev_of_neg hneg]
    exact absurd (Option.some.inj (hfind.symm.trans hzero)) ha

def block (b : Word × Word) : Set Nat := {x | b.1.toNat ≤ x ∧ x < b.1.toNat + b.2.toNat}

def Request.Rounds (q : Request) : Prop :=
  (∃ k, q.align.toNat = 2 ^ k) ∧ q.size.toNat + (q.align.toNat - 1) < 2 ^ 32

/-- The size can be rounded up, and the reserved array has room for one more region. -/
def Request.Admitted (s : Blocks) (q : Request) : Prop :=
  q.Rounds ∧ s.reserved.cnt < s.reserved.max

lemma allocBase_eq_some (h : allocBase s q = some (s', a)) :
    a ≠ 0 ∧ findInRangeNode s 0 q.maxAddr (roundUp q.size q.align) q.align = some a ∧
      ∃ t, addRegion s.reserved a (roundUp q.size q.align) = some t ∧
        s' = { s with reserved := t } := by
  simp only [allocBase, allocBaseNid, Option.bind_eq_bind, Option.bind_eq_some_iff] at h
  obtain ⟨⟨s₁, alloc⟩, ⟨found, hfind, hcont⟩, hret⟩ := h
  simp only [Option.ite_none_left_eq_some] at hret
  obtain ⟨hne, rfl, rfl⟩ := hret
  by_cases hfound : found = 0
  · rw [if_pos hfound] at hcont
    obtain ⟨-, rfl⟩ := Prod.mk.inj (Option.some.inj hcont)
    exact absurd rfl hne
  · rw [if_neg hfound] at hcont
    obtain ⟨t, hadd, hsome⟩ := Option.bind_eq_some_iff.mp hcont
    obtain ⟨rfl, rfl⟩ := Prod.mk.inj (Option.some.inj hsome)
    exact ⟨hne, hfind, t, hadd, rfl⟩

lemma allocBase_spec (hmem : WellFormed s.memory.regions) (hrsv : Represents s.reserved R)
    (hq : q.Rounds) (h : allocBase s q = some (s', a)) :
    s'.memory = s.memory ∧ Disjoint (block (a, q.size)) R ∧
      ∃ B, block (a, q.size) ⊆ B ∧ Represents s'.reserved (R ∪ B) := by
  obtain ⟨⟨k, hk⟩, hround⟩ := hq
  obtain ⟨ha, hfind, t, hadd, rfl⟩ := allocBase_eq_some h
  obtain ⟨t', hadd', hrep, -⟩ := addRegion_spec hrsv a (roundUp q.size q.align)
  obtain rfl := Option.some.inj (hadd'.symm.trans hadd)
  obtain ⟨⟨-, hge⟩, -⟩ := isLeast_roundUp (x := q.size) hk (hk ▸ hround)
  by_cases hsize : roundUp q.size q.align = 0
  · have hempty : block (a, q.size) = ∅ := by
      have hzero : (roundUp q.size q.align).toNat = 0 := congrArg BitVec.toNat hsize
      refine Set.eq_empty_of_forall_notMem ?_
      rintro x ⟨hlo, hhi⟩
      simp only at hlo hhi
      omega
    rw [hempty]
    exact ⟨rfl, Set.empty_disjoint _, _, Set.empty_subset _, hrep⟩
  · obtain ⟨-, -, hend, hfree⟩ := mem_fits_of_find hmem hrsv.wellFormed hrsv.room hk hsize hfind ha
    refine ⟨rfl, Set.disjoint_left.mpr ?_, _, ?_, hrep⟩
    · rintro x ⟨hlo, hhi⟩ hx
      simp only at hlo hhi
      exact (hfree x hlo (by omega)).2 ((hrsv.covers x).mpr hx)
    · rintro x ⟨hlo, hhi⟩
      simp only at hlo hhi
      exact ⟨hlo, by omega⟩

lemma allocs_disjoint {qs : List Request} (hmem : WellFormed s.memory.regions)
    (hrsv : Represents s.reserved R) (hq : Along afterAlloc Request.Admitted s qs) :
    (allocs s qs).Pairwise (fun b c => Disjoint (block b) (block c)) ∧
      ∀ b ∈ allocs s qs, Disjoint (block b) R := by
  induction qs generalizing s R with
  | nil => simp [allocs]
  | cons q qs ih =>
    obtain ⟨⟨hround, -⟩, hlater⟩ := hq
    rw [allocs]
    cases halloc : allocBase s q with
    | none => simp
    | some p =>
      obtain ⟨s', a⟩ := p
      obtain ⟨hsame, hfree, B, hsub, hrsv'⟩ := allocBase_spec hmem hrsv hround halloc
      rw [afterAlloc, halloc] at hlater
      obtain ⟨hpair, hrest⟩ := ih (hsame ▸ hmem) hrsv' hlater
      have hlater (b : Word × Word) (hb : b ∈ allocs s' qs) :=
        Set.disjoint_union_right.mp (hrest b hb)
      refine ⟨pairwise_cons.mpr ⟨fun b hb => ?_, hpair⟩, ?_⟩
      · exact ((hlater b hb).2.mono_right hsub).symm
      · intro b hb
        rcases mem_cons.mp hb with rfl | hb
        · exact hfree
        · exact (hlater b hb).1

/-- Allocation is highest-fit and complete: `memblock_find_in_range_node` returns the highest
place of free memory in the range, and zero exactly if there is none; and the blocks that a
sequence of `memblock_alloc_base` calls returns overlap neither each other nor what was reserved
before, if the sizes can be rounded up and the array need not be enlarged. -/
theorem alloc_highest_disjoint (s : Blocks) (h : Ready s) :
    (∀ start stop size align : Word, (∃ k, align.toNat = 2 ^ k) → size ≠ 0 →
      ∃ a, findInRangeNode s start stop size align = some a ∧
        (a = 0 ↔ fits s start stop size align = ∅) ∧
        (a ≠ 0 → IsGreatest (fits s start stop size align) a.toNat)) ∧
    ∀ qs : List Request, Along afterAlloc Request.Admitted s qs →
      (allocs s qs).Pairwise (fun b c => Disjoint (block b) (block c)) ∧
      ∀ b ∈ allocs s qs, ∀ x ∈ block b, ¬ Covers (spans s.reserved.regions) x := by
  constructor
  · rintro start stop size align ⟨k, hk⟩ hsize
    obtain ⟨a, hfind, hplace⟩ := findInRangeNode_spec start stop h hk hsize
    refine ⟨a, hfind, ?_⟩
    rcases hplace with hgreatest | ⟨rfl, hempty⟩
    · have hne : a ≠ 0 := by
        rintro rfl
        have hpage := hgreatest.1.2.1
        simp [pageSize] at hpage
      have hsome : fits s start stop size align ≠ ∅ := Set.nonempty_iff_ne_empty.mp ⟨_, hgreatest.1⟩
      exact ⟨iff_of_false hne hsome, fun _ => hgreatest⟩
    · exact ⟨iff_of_true rfl hempty, fun hne => absurd rfl hne⟩
  · intro qs hqs
    have hrsv : Represents s.reserved {x | Covers (spans s.reserved.regions) x} :=
      ⟨h.reserved, fun _ => Iff.rfl, h.room⟩
    obtain ⟨hpair, hbefore⟩ := allocs_disjoint h.memory hrsv hqs
    exact ⟨hpair, fun b hb x hx hc => Set.disjoint_left.mp (hbefore b hb) hx hc⟩

def boardBlocks : Blocks :=
  ⟨⟨[⟨0x30000000, 0x4000000⟩], 0x4000000, 128⟩, ⟨[⟨0x30000000, 0x8000⟩], 0x8000, 128⟩, 0x34000000⟩

lemma ready_boardBlocks : Ready boardBlocks where
  memory := wellFormed_singleton (by decide) (by decide)
  reserved := wellFormed_singleton (by decide) (by decide)
  room := by decide
  indexed := by decide

theorem boardBlocks_highest_disjoint :
    (allocs boardBlocks [⟨0x1234, 0x1000, 0⟩, ⟨0x100, 0x20, 0⟩]).Pairwise
        (fun b c => Disjoint (block b) (block c)) ∧
      ∃ a, findInRangeNode boardBlocks 0 0 0x2000 0x1000 = some a ∧
        (a ≠ 0 → IsGreatest (fits boardBlocks 0 0 0x2000 0x1000) a.toNat) := by
  obtain ⟨hfind, hallocs⟩ := alloc_highest_disjoint boardBlocks ready_boardBlocks
  constructor
  · refine (hallocs _ ?_).1
    exact ⟨⟨⟨⟨12, rfl⟩, by decide⟩, by decide⟩, ⟨⟨⟨5, rfl⟩, by decide⟩, by decide⟩, trivial⟩
  · obtain ⟨a, ha, -, hgreatest⟩ := hfind 0 0 0x2000 0x1000 ⟨12, rfl⟩ (by decide)
    exact ⟨a, ha, hgreatest⟩

/-- A size above the last multiple of the alignment is rounded up to zero: two calls return the
same place, and nothing is reserved. -/
theorem alloc_rounds_to_zero :
    ¬ ∀ (s : Blocks) (qs : List Request), Ready s → (∀ q ∈ qs, ∃ k, q.align.toNat = 2 ^ k) →
      (allocs s qs).Pairwise fun b c => Disjoint (block b) (block c) := by
  intro h
  have hpair := h boardBlocks [⟨0xffffffff, 0x1000, 0⟩, ⟨0xffffffff, 0x1000, 0⟩]
    ready_boardBlocks (by simp; exact ⟨12, rfl⟩)
  have hdisj := rel_of_pairwise_cons hpair mem_cons_self
  have hmem : 0x34000000 ∈ block (0x34000000, 0xffffffff) := by
    simp [block]
  exact Set.disjoint_left.mp hdisj hmem hmem

end Mini2440.Memblock
