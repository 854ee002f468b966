import Mathlib.Algebra.Group.Nat.Defs
import Mathlib.Data.Set.Basic
import Mini2440.Library.Words
import Mini2440.Library.Spans

/-!
# The region arrays of memblock

`mm/memblock.c` keeps two arrays of physical address ranges, the memory of the machine and what
is reserved of it. This module models one array: inserting and removing a region, and
`memblock_add_region`, which walks the array twice. The first walk counts the regions that the
new range needs; the array is made large enough; the second walk inserts them, and the regions
that touch are merged.

A `phys_addr_t` is a word of 32 bits. The list holds the `cnt` regions in use; an empty array
has one region of size `0`. A larger array comes from `kmalloc`, which does not fail here. While
the slab allocator is not up, the array is taken from memblock itself: that growth is a
`memblock_free` of the old array and a `memblock_reserve` of the new one, which the sequence of
calls then has before the call that needed the room, since the counting walk changes nothing.
`none` is a `BUG_ON`.
-/

namespace Mini2440.Memblock

open List BitVec Library

/-- `struct memblock_region`. The configuration of the board has no node ids in it. -/
structure Region where
  base : Word
  size : Word
  deriving DecidableEq, Repr

def Region.stop (r : Region) : Word := r.base + r.size

def Region.dummy : Region := ⟨0, 0⟩

/-- `struct memblock_type`. -/
structure Regions where
  regions : List Region
  totalSize : Word
  max : Nat
  deriving DecidableEq, Repr

def Regions.cnt (t : Regions) : Nat := t.regions.length

/-- The array at boot, of `INIT_MEMBLOCK_REGIONS`. -/
def Regions.init : Regions := ⟨[.dummy], 0, 128⟩

/-- `memblock_cap_size`: the size that does not take the range over the end of the addresses. -/
def capSize (base size : Word) : Word :=
  if size < 0xffffffff - base then size else 0xffffffff - base

def removeRegion (t : Regions) (r : Nat) : Regions :=
  let rest := t.regions.eraseIdx r
  { t with
    regions := if rest.isEmpty then [.dummy] else rest
    totalSize := t.totalSize - (t.regions.getD r .dummy).size }

def insertRegion (t : Regions) (idx : Nat) (base size : Word) : Option Regions :=
  if t.max ≤ t.cnt then none
  else some { t with
    regions := t.regions.insertIdx idx ⟨base, size⟩
    totalSize := t.totalSize + size }

/-- The loop of `memblock_merge_regions` at index `i`. -/
def mergeLoop : Nat → Nat → List Region → Option (List Region)
  | 0, _, l => some l
  | fuel + 1, i, l =>
    match l[i]?, l[i + 1]? with
    | some this, some next =>
      if this.stop ≠ next.base then
        if next.base < this.stop then none else mergeLoop fuel (i + 1) l
      else mergeLoop fuel i ((l.set i ⟨this.base, this.size + next.size⟩).eraseIdx (i + 1))
    | _, _ => some l

def mergeRegions (t : Regions) : Option Regions := do
  let l ← mergeLoop t.cnt 0 t.regions
  some { t with regions := l }

/-- `memblock_double_array` once the slab allocator is up: the new array is from `kmalloc`. -/
def doubleArray (t : Regions) : Regions := { t with max := t.max * 2 }

/-- `while (cnt + nr_new > max)` with `need` for the number of regions to hold. -/
def growLoop (need : Nat) : Nat → Regions → Regions
  | 0, t => t
  | fuel + 1, t => if t.max < need then growLoop need fuel (doubleArray t) else t

def grow (need : Nat) (t : Regions) : Regions := growLoop need need t

/-- The variables of a walk of `memblock_add_region`. -/
structure Walk where
  t : Regions
  i : Nat
  base : Word
  nrNew : Nat

/-- The loop of a walk: the second one has `insert` set. -/
def addLoop (insert : Bool) (stop : Word) : Nat → Walk → Option Walk
  | 0, w => some w
  | fuel + 1, w =>
    match w.t.regions[w.i]? with
    | none => some w
    | some rgn =>
      if stop ≤ rgn.base then some w
      else if rgn.stop ≤ w.base then addLoop insert stop fuel { w with i := w.i + 1 }
      else
        -- the area below the end of this region is dealt with
        let base := if rgn.stop < stop then rgn.stop else stop
        if w.base < rgn.base then
          if insert then do
            let t ← insertRegion w.t w.i w.base (rgn.base - w.base)
            addLoop insert stop fuel ⟨t, w.i + 2, base, w.nrNew + 1⟩
          else addLoop insert stop fuel ⟨w.t, w.i + 1, base, w.nrNew + 1⟩
        else addLoop insert stop fuel { w with i := w.i + 1, base := base }

def addRest (insert : Bool) (stop : Word) (w : Walk) : Option (Regions × Nat) :=
  if w.base < stop then
    if insert then do
      let t ← insertRegion w.t w.i w.base (stop - w.base)
      some (t, w.nrNew + 1)
    else some (w.t, w.nrNew + 1)
  else some (w.t, w.nrNew)

def addWalk (insert : Bool) (base stop : Word) (t : Regions) : Option (Regions × Nat) := do
  let w ← addLoop insert stop t.cnt ⟨t, 0, base, 0⟩
  addRest insert stop w

def addRegion (t : Regions) (base size : Word) : Option Regions :=
  let size := capSize base size
  let stop := base + size
  if size = 0 then some t
  else if (t.regions.getD 0 .dummy).size = 0 then
    -- special case for empty array
    some { t with regions := t.regions.set 0 ⟨base, size⟩, totalSize := size }
  else do
    let (_, nrNew) ← addWalk false base stop t
    let (t, _) ← addWalk true base stop (grow (t.cnt + nrNew) t)
    mergeRegions t

/-! ## What the walks do to the list -/

/-- The sizes of the regions, added up as `total_size` is. -/
def total : List Region → Word
  | [] => 0
  | r :: l => r.size + total l

@[simp] lemma total_append (l₁ l₂ : List Region) : total (l₁ ++ l₂) = total l₁ + total l₂ := by
  induction l₁ with
  | nil => simp [total]
  | cons r l ih => simp [total, ih, BitVec.add_assoc]

/-- The array of these regions whose `total_size` is off by `d`. -/
def booked (d : Word) (max : Nat) (l : List Region) : Regions := ⟨l, total l + d, max⟩

variable {d size : Word} {max : Nat} {l done rest : List Region} {base stop : Word} {n : Nat}
  {r : Region} {t : Regions}

lemma insertIdx_length_append :
    (done ++ rest).insertIdx done.length r = done ++ r :: rest := by
  induction done with
  | nil => simp
  | cons s done ih => simpa using ih

lemma insertRegion_booked (h : (done ++ rest).length < max) :
    insertRegion (booked d max (done ++ rest)) done.length base size =
      some (booked d max (done ++ ⟨base, size⟩ :: rest)) := by
  have hcnt : ¬ (booked d max (done ++ rest)).max ≤ (booked d max (done ++ rest)).cnt := by
    simpa [booked, Regions.cnt] using h
  rw [insertRegion, if_neg hcnt]
  simp only [booked, insertIdx_length_append, total_append, total]
  congr 2
  grind

lemma getElem?_length_append : (done ++ r :: rest)[done.length]? = some r := by
  simp

/-- The region from `base` to `stop`, if there is something in it. -/
def fragment (base stop : Word) : List Region :=
  if base < stop then [⟨base, stop - base⟩] else []

def woven (stop : Word) : Word → List Region → List Region
  | base, [] => fragment base stop
  | base, r :: l =>
    if stop ≤ r.base then fragment base stop ++ r :: l
    else if r.stop ≤ base then r :: woven stop base l
    else fragment base r.base ++ r :: woven stop (if r.stop < stop then r.stop else stop) l

lemma length_le_woven (stop base : Word) (l : List Region) :
    l.length ≤ (woven stop base l).length := by
  fun_induction woven stop base l <;> grind

@[simp] lemma booked_regions : (booked d max l).regions = l := rfl

lemma addRest_insert (rest : List Region) (n : Nat)
    (h : (done ++ (fragment base stop ++ rest)).length ≤ max) :
    ∃ k, addRest true stop ⟨booked d max (done ++ rest), done.length, base, n⟩ =
      some (booked d max (done ++ (fragment base stop ++ rest)), k) := by
  by_cases hlt : base < stop
  · have hroom : (done ++ rest).length < max := by grind [fragment]
    simp [addRest, hlt, insertRegion_booked hroom, fragment]
  · simp [addRest, hlt, fragment]

/-- The second walk, at the region behind `done`, if there is room for all that it inserts. -/
lemma addLoop_insert (done : List Region) (n : Nat)
    (h : (done ++ woven stop base rest).length ≤ max) :
    ∃ k, (addLoop true stop rest.length
        ⟨booked d max (done ++ rest), done.length, base, n⟩).bind (addRest true stop) =
      some (booked d max (done ++ woven stop base rest), k) := by
  fun_induction woven stop base rest generalizing done n with
  | case1 base =>
    have hrest := addRest_insert (d := d) [] n (by simpa using h)
    simpa [addLoop] using hrest
  | case2 base r l hstop =>
    have hrest := addRest_insert (d := d) (r :: l) n h
    simpa [addLoop, hstop] using hrest
  | case3 base r l hstop hbelow ih =>
    have hnext := ih (done ++ [r]) n (by simpa using h)
    simpa [addLoop, hstop, hbelow] using hnext
  | case4 base r l hstop hbelow ih =>
    by_cases hlow : base < r.base
    · rw [fragment, if_pos hlow] at h ⊢
      have hle := length_le_woven stop (if r.stop < stop then r.stop else stop) l
      have hroom : (done ++ r :: l).length < max := by grind
      have hnext := ih (done ++ [⟨base, r.base - base⟩, r]) (n + 1) (by simpa using h)
      simpa [addLoop, hstop, hbelow, hlow, insertRegion_booked hroom] using hnext
    · have hnext := ih (done ++ [r]) n (by simpa [fragment, hlow] using h)
      simpa [addLoop, hstop, hbelow, hlow, fragment] using hnext

/-- The first walk counts what the second one inserts. -/
lemma addLoop_count (done : List Region) (n : Nat) (t : Regions) (ht : t.regions = done ++ rest) :
    ∃ k, rest.length + k = (woven stop base rest).length ∧
      (addLoop false stop rest.length ⟨t, done.length, base, n⟩).bind (addRest false stop) =
        some (t, n + k) := by
  fun_induction woven stop base rest generalizing done n with
  | case1 base =>
    by_cases hlt : base < stop <;> simp [addLoop, addRest, fragment, hlt]
  | case2 base r l hstop =>
    by_cases hlt : base < stop <;> simp [addLoop, addRest, fragment, hlt, ht, hstop]
  | case3 base r l hstop hbelow ih =>
    obtain ⟨k, hk, hnext⟩ := ih (done ++ [r]) n (by simpa using ht)
    exact ⟨k, by grind, by simpa [addLoop, hstop, hbelow, ht] using hnext⟩
  | case4 base r l hstop hbelow ih =>
    by_cases hlow : base < r.base
    · obtain ⟨k, hk, hnext⟩ := ih (done ++ [r]) (n + 1) (by simpa using ht)
      refine ⟨1 + k, by grind [fragment], ?_⟩
      simpa [addLoop, hstop, hbelow, hlow, ht, add_assoc] using hnext
    · obtain ⟨k, hk, hnext⟩ := ih (done ++ [r]) n (by simpa using ht)
      refine ⟨k, by grind [fragment], ?_⟩
      simpa [addLoop, hstop, hbelow, hlow, ht] using hnext

lemma addWalk_insert (h : (woven stop base l).length ≤ max) :
    ∃ k, addWalk true base stop (booked d max l) = some (booked d max (woven stop base l), k) :=
  addLoop_insert [] 0 h

lemma addWalk_count (stop base : Word) (t : Regions) :
    ∃ k, t.cnt + k = (woven stop base t.regions).length ∧
      addWalk false base stop t = some (t, k) := by
  have hcount : ∃ k, t.cnt + k = (woven stop base t.regions).length ∧
      addWalk false base stop t = some (t, 0 + k) := addLoop_count [] 0 t rfl
  simpa using hcount

lemma growLoop_booked {need fuel : Nat} (max : Nat) (hmax : 0 < max) (h : need ≤ max + fuel) :
    ∃ max', 0 < max' ∧ need ≤ max' ∧ growLoop need fuel (booked d max l) = booked d max' l := by
  induction fuel generalizing max with
  | zero => exact ⟨max, hmax, h, rfl⟩
  | succ fuel ih =>
    by_cases hlt : max < need
    · obtain ⟨max', hpos, hneed, hgrow⟩ := ih (max * 2) (by omega) (by omega)
      exact ⟨max', hpos, hneed, (if_pos hlt).trans hgrow⟩
    · exact ⟨max, hmax, by omega, if_neg hlt⟩

/-! ## The ranges of an array -/

def Region.span (r : Region) : Span := ⟨r.base.toNat, r.base.toNat + r.size.toNat⟩

def spans (l : List Region) : List Span := l.map Region.span

/-- No region reaches the end of the address space, so that its end is an address too. -/
def Fits (l : List Region) : Prop := ∀ r ∈ l, r.span.hi < 2 ^ 32

instance : Decidable (Fits l) := inferInstanceAs (Decidable (∀ r ∈ l, r.span.hi < 2 ^ 32))

@[simp, grind =] lemma spans_nil : spans [] = [] := rfl

@[simp, grind =] lemma spans_cons : spans (r :: l) = r.span :: spans l := rfl

@[simp, grind =] lemma spans_append {l₁ l₂ : List Region} :
    spans (l₁ ++ l₂) = spans l₁ ++ spans l₂ := map_append

@[simp, grind =] lemma fits_nil : Fits [] ↔ True := by simp [Fits]

@[simp, grind =] lemma fits_cons :
    Fits (r :: l) ↔ r.span.hi < 2 ^ 32 ∧ Fits l := by simp [Fits]

@[simp, grind =] lemma fits_append {l₁ l₂ : List Region} :
    Fits (l₁ ++ l₂) ↔ Fits l₁ ∧ Fits l₂ := by simp [Fits, or_imp, forall_and]

lemma toNat_stop (h : r.span.hi < 2 ^ 32) : r.stop.toNat = r.span.hi :=
  toNat_add_of_lt h

lemma span_fragment (h : base ≤ stop) :
    (⟨base, stop - base⟩ : Region).span = ⟨base.toNat, stop.toNat⟩ := by
  have hle : base.toNat ≤ stop.toNat := h
  refine Span.ext rfl ?_
  change base.toNat + (stop - base).toNat = stop.toNat
  rw [toNat_sub_of_le h]
  omega

lemma spans_fragment : spans (fragment base stop) = piece base.toNat stop.toNat := by
  by_cases hlt : base < stop
  · have hlt' : base.toNat < stop.toNat := hlt
    simp [fragment, piece, hlt, hlt', span_fragment (BitVec.le_of_lt hlt)]
  · have hlt' : ¬ base.toNat < stop.toNat := hlt
    simp [fragment, piece, hlt, hlt']

lemma fits_fragment : Fits (fragment base stop) := by
  by_cases hlt : base < stop
  · simp only [fragment, if_pos hlt, fits_cons, span_fragment (BitVec.le_of_lt hlt), fits_nil,
      and_true]
    exact stop.isLt
  · simp [fragment, hlt]

lemma fits_woven (h : Fits l) : Fits (woven stop base l) := by
  fun_induction woven stop base l <;> grind [fits_fragment]

lemma spans_woven (stop base : Word) (h : Fits l) :
    spans (woven stop base l) = weave stop.toNat base.toNat (spans l) := by
  fun_induction woven stop base l with
  | case1 base => exact spans_fragment
  | case2 base r l hstop =>
    have hstop' : stop.toNat ≤ r.span.lo := hstop
    simp [weave, hstop', spans_fragment]
  | case3 base r l hstop hbelow ih =>
    rw [fits_cons] at h
    have hstop' : ¬ stop.toNat ≤ r.span.lo := hstop
    have hbelow' : r.span.hi ≤ base.toNat := toNat_stop h.1 ▸ hbelow
    simp [weave, hstop', hbelow', ih h.2]
  | case4 base r l hstop hbelow ih =>
    rw [fits_cons] at h
    have hend := toNat_stop h.1
    have hstop' : ¬ stop.toNat ≤ r.span.lo := hstop
    have hbelow' : ¬ r.span.hi ≤ base.toNat := by bv_omega
    have hmin : (if r.stop < stop then r.stop else stop).toNat = min r.span.hi stop.toNat := by
      simp only [lt_def]
      split <;> omega
    rw [spans_append, spans_cons, ih h.2, spans_fragment, hmin, spans_cons, weave, if_neg hstop',
      if_neg hbelow']
    rfl

lemma span_join {s : Region} (hs : s.span.hi < 2 ^ 32) (htouch : r.span.hi = s.span.lo) :
    (⟨r.base, r.size + s.size⟩ : Region).span = ⟨r.span.lo, s.span.hi⟩ := by
  simp only [Region.span] at hs htouch ⊢
  rw [toNat_add_of_lt (by omega)]
  congr 1
  omega

/-- Merging joins the regions that touch; no two overlap, and the sizes add up as before. -/
lemma mergeLoop_spec (fuel : Nat) (done : List Region) (r : Region) {b : Nat}
    (hfuel : rest.length ≤ fuel) (hasc : Ascending 0 b (spans (r :: rest)))
    (hfit : Fits (r :: rest)) :
    ∃ l, mergeLoop fuel done.length (done ++ r :: rest) = some (done ++ l) ∧
      spans l = mergeWith r.span (spans rest) ∧ Fits l ∧ total l = total (r :: rest) := by
  induction rest generalizing fuel done r b with
  | nil =>
    refine ⟨[r], ?_, rfl, hfit, rfl⟩
    cases fuel <;> simp [mergeLoop]
  | cons s rest ih =>
    obtain ⟨fuel, rfl⟩ := Nat.exists_eq_succ_of_ne_zero (n := fuel) (by grind)
    rw [fits_cons, fits_cons] at hfit
    obtain ⟨hr, hs, hrest⟩ := hfit
    have hend := toNat_stop hr
    rw [mergeLoop]
    by_cases htouch : r.stop = s.base
    · have htouch' : r.span.hi = s.span.lo := by rw [← hend, htouch]; rfl
      have hjoin := span_join hs htouch'
      obtain ⟨l, hloop, hspans, hl, htotal⟩ := ih fuel done ⟨r.base, r.size + s.size⟩ (by grind)
        (by rw [spans_cons, hjoin]; exact Ascending.join hasc) (by grind)
      refine ⟨l, ?_, ?_, hl, ?_⟩
      · simpa [htouch, eraseIdx_append_of_length_le] using hloop
      · rw [hspans, hjoin, spans_cons, mergeWith, if_pos htouch']
      · simp [htotal, total, BitVec.add_assoc]
    · have htouch' : r.span.hi ≠ s.span.lo := fun h => htouch (BitVec.eq_of_toNat_eq (hend.trans h))
      have hover : ¬ s.base < r.stop := by
        have hle : r.span.hi ≤ s.span.lo := hasc.2.2.1
        rw [lt_def, hend]
        exact not_lt.mpr hle
      obtain ⟨l, hloop, hspans, hl, htotal⟩ := ih fuel (done ++ [r]) s (by grind)
        hasc.2.2 (by grind)
      refine ⟨r :: l, ?_, ?_, ?_, ?_⟩
      · simpa [htouch, hover] using hloop
      · rw [spans_cons, hspans, spans_cons, mergeWith, if_neg htouch']
      · exact fits_cons.mpr ⟨hr, hl⟩
      · rw [total, htotal, ← total]

/-! ## Adding a range -/

/-- The regions are in order with room between them, and none is empty but the dummy of an empty
array. -/
structure WellFormed (l : List Region) : Prop where
  sorted : l.Pairwise fun r s => r.span.hi < s.span.lo
  solid : l = [.dummy] ∨ l ≠ [] ∧ Solid (spans l)
  fits : Fits l

lemma ascending_spans {gap : Nat} (h : l.Pairwise fun r s => r.span.hi + gap ≤ s.span.lo) :
    Ascending gap 0 (spans l) := by
  rw [ascending_iff_pairwise, spans, pairwise_map]
  refine ⟨fun s hs => ?_, h⟩
  obtain ⟨r, -, rfl⟩ := mem_map.mp hs
  exact ⟨Nat.zero_le _, Nat.le_add_right _ _⟩

lemma WellFormed.ascending (h : WellFormed l) : Ascending 1 0 (spans l) := ascending_spans h.sorted

lemma wellFormed_of_ascending (h : Ascending 1 0 (spans l)) (hne : l ≠ [])
    (hsolid : Solid (spans l)) (hfit : Fits l) : WellFormed l where
  sorted := pairwise_map.mp (ascending_iff_pairwise.mp h).2
  solid := .inr ⟨hne, hsolid⟩
  fits := hfit

/-- The range that `memblock_cap_size` leaves of a range ends at the last address at most. -/
lemma toNat_capSize (base size : Word) :
    base.toNat + (capSize base size).toNat = min (base.toNat + size.toNat) (2 ^ 32 - 1) := by
  have htop : (0xffffffff - base).toNat = 2 ^ 32 - 1 - base.toNat := by bv_omega
  simp only [capSize, lt_def]
  split <;> omega

/-- The addresses of a range that memblock can hold: the last one is not among them. -/
def addresses (base size : Word) : Set Nat :=
  {a | base.toNat ≤ a ∧ a < min (base.toNat + size.toNat) (2 ^ 32 - 1)}

lemma toNat_stop_capSize (base size : Word) :
    (base + capSize base size).toNat = min (base.toNat + size.toNat) (2 ^ 32 - 1) := by
  have hcap := toNat_capSize base size
  rw [toNat_add_of_lt (by omega), hcap]

lemma WellFormed.solid_of_ne (h : WellFormed l) (hhead : (l.getD 0 .dummy).size ≠ 0) :
    l ≠ [] ∧ Solid (spans l) := by
  rcases h.solid with rfl | hsolid
  · exact absurd rfl hhead
  · exact hsolid

lemma WellFormed.eq_dummy (h : WellFormed l) (hhead : (l.getD 0 .dummy).size = 0) :
    l = [.dummy] := by
  rcases h.solid with hdummy | ⟨hne, hsolid⟩
  · exact hdummy
  · obtain ⟨r, l, rfl⟩ := exists_cons_of_ne_nil hne
    have hlt : r.base.toNat < r.base.toNat + r.size.toNat := hsolid r.span (by simp)
    have hzero : r.size.toNat = 0 := congrArg BitVec.toNat hhead
    omega

lemma wellFormed_singleton (hsize : size ≠ 0)
    (hfit : base.toNat + size.toNat < 2 ^ 32) : WellFormed [⟨base, size⟩] := by
  have hpos : 0 < size.toNat := by bv_omega
  refine ⟨pairwise_singleton _ _, .inr ⟨cons_ne_nil _ _, ?_⟩, ?_⟩
  · simpa [Region.span] using hpos
  · simpa [Region.span] using hfit

/-- The array is well formed and stands for the set of addresses. -/
structure Represents (t : Regions) (S : Set Nat) : Prop where
  wellFormed : WellFormed t.regions
  covers : ∀ a, Covers (spans t.regions) a ↔ a ∈ S
  room : 0 < t.max

/-- `total_size` is the sum of the sizes. -/
def Balanced (t : Regions) : Prop := t.totalSize = total t.regions

lemma eq_booked : t = booked (t.totalSize - total t.regions) t.max t.regions := by
  have htotal : total t.regions + (t.totalSize - total t.regions) = t.totalSize := by grind
  rw [booked, htotal]

lemma mergeRegions_booked (max : Nat) (hasc : Ascending 0 0 (spans l)) (hne : l ≠ [])
    (hsolid : Solid (spans l)) (hfit : Fits l) :
    ∃ l', mergeRegions (booked d max l) = some (booked d max l') ∧ WellFormed l' ∧
      ∀ a, Covers (spans l') a ↔ Covers (spans l) a := by
  obtain ⟨r, rest, rfl⟩ := exists_cons_of_ne_nil hne
  obtain ⟨l', hloop, hspans, hfit', htotal⟩ := mergeLoop_spec (r :: rest).length [] r
    (Nat.le_succ _) hasc hfit
  refine ⟨l', ?_, ?_, fun a => ?_⟩
  · rw [nil_append, nil_append, length_nil] at hloop
    simp only [mergeRegions, Regions.cnt, booked_regions, hloop]
    simp [booked, htotal]
  · apply wellFormed_of_ascending _ _ _ hfit'
    · rw [hspans]
      exact ascending_mergeWith hasc
    · rintro rfl
      exact mergeWith_ne_nil hspans.symm
    · rw [hspans]
      exact solid_mergeWith hsolid
  · rw [hspans]
    exact covers_mergeWith hasc

lemma addRegion_booked (hsize : capSize base size ≠ 0)
    (hhead : (l.getD 0 .dummy).size ≠ 0) (h : WellFormed l) (hmax : 0 < max) :
    ∃ max' l', addRegion (booked d max l) base size = some (booked d max' l') ∧ 0 < max' ∧
      WellFormed l' ∧ ∀ a, Covers (spans l') a ↔ Covers (spans l) a ∨ a ∈ addresses base size := by
  have hstop := toNat_stop_capSize base size
  obtain ⟨hne, hsolid⟩ := h.solid_of_ne hhead
  generalize hs : base + capSize base size = stop at hstop
  obtain ⟨k, hk, hcount⟩ := addWalk_count stop base (booked d max l)
  obtain ⟨max', hpos, hroom, hgrow⟩ := growLoop_booked (d := d) (l := l) max hmax
    (Nat.le_add_left (l.length + k) max)
  have hroom' : (woven stop base l).length ≤ max' := hk ▸ hroom
  obtain ⟨j, hinsert⟩ := addWalk_insert (d := d) hroom'
  have hspans := spans_woven stop base h.fits
  have hne' : woven stop base l ≠ [] := by
    intro hnil
    have hle := length_le_woven stop base l
    rw [hnil] at hle
    exact hne (eq_nil_of_length_eq_zero (Nat.le_zero.mp hle))
  obtain ⟨l', hmerge, hwf, hcovers⟩ := mergeRegions_booked (d := d) max'
    (hspans ▸ ascending_weave (h.ascending.relax (Nat.zero_le 1)) (Nat.zero_le _)) hne'
    (hspans ▸ solid_weave hsolid) (fits_woven h.fits)
  refine ⟨max', l', ?_, hpos, hwf, fun a => ?_⟩
  · have hgrow' : grow ((booked d max l).cnt + k) (booked d max l) = booked d max' l := hgrow
    simp only [addRegion, hsize, if_false, booked_regions, hhead, hs, hcount, Option.bind_eq_bind,
      Option.bind_some, hgrow', hinsert, hmerge]
  · rw [hcovers, hspans, covers_weave, hstop]
    rfl

@[simp] lemma balanced_booked : Balanced (booked d max l) ↔ d = 0 := by
  simp [Balanced, booked]

lemma notMem_addresses (h : capSize base size = 0) (a : Nat) : a ∉ addresses base size := by
  have hcap := toNat_capSize base size
  have hzero : (capSize base size).toNat = 0 := by bv_omega
  rintro ⟨hlo, hhi⟩
  omega

lemma addRegion_empty (hsize : capSize base size ≠ 0) (ht : t.regions = [.dummy]) :
    addRegion t base size = some (booked 0 t.max [⟨base, capSize base size⟩]) := by
  have hhead : (t.regions.getD 0 .dummy).size = 0 := by rw [ht]; rfl
  simp only [addRegion, if_neg hsize, if_pos hhead]
  simp [ht, booked, total]

/-- Adding a range makes it part of the set, and nothing else. -/
lemma addRegion_spec {S : Set Nat} (h : Represents t S) (base size : Word) :
    ∃ t', addRegion t base size = some t' ∧ Represents t' (S ∪ addresses base size) ∧
      (Balanced t → Balanced t') := by
  have hcap := toNat_capSize base size
  by_cases hsize : capSize base size = 0
  · refine ⟨t, by simp [addRegion, hsize], ⟨h.wellFormed, fun a => ?_, h.room⟩, id⟩
    simp [h.covers, notMem_addresses hsize]
  by_cases hhead : (t.regions.getD 0 .dummy).size = 0
  · have ht := h.wellFormed.eq_dummy hhead
    refine ⟨_, addRegion_empty hsize ht, ⟨?_, fun a => ?_, h.room⟩, fun _ => by simp⟩
    · exact wellFormed_singleton hsize (by omega)
    · have hempty : a ∉ S := by
        rw [← h.covers, ht]
        simp [Region.dummy, Region.span]
      simp [hempty, addresses, Region.span, hcap]
  · obtain ⟨max', l', hadd, hmax, hwf, hcovers⟩ :=
      addRegion_booked (d := t.totalSize - total t.regions) hsize hhead h.wellFormed h.room
    rw [← eq_booked] at hadd
    refine ⟨_, hadd, ⟨hwf, fun a => ?_, hmax⟩, fun hbal => ?_⟩
    · simp [hcovers, h.covers]
    · rw [balanced_booked, hbal]
      exact BitVec.sub_self _

end Mini2440.Memblock
