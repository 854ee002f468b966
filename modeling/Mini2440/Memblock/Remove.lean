import Mathlib.Data.List.Induction
import Mini2440.Memblock.Regions

/-!
# Taking a range out of a region array

`__memblock_remove` first isolates the range: `memblock_isolate_range` splits the regions that
cross its ends, while it walks the array, and notes the first region inside the range and the
one after the last. Then these regions are removed, the last one first.
-/

namespace Mini2440.Memblock

open List BitVec Library

/-- The array and the two indices that `memblock_isolate_range` hands out. -/
structure Isolation where
  t : Regions
  startRgn : Nat
  endRgn : Nat

/-- The region at index `i` is split in two at `cut`, the lower part in front. -/
def splitRegion (t : Regions) (i : Nat) (rgn : Region) (cut : Word) : Option Regions :=
  insertRegion { t with
      regions := t.regions.set i ⟨cut, rgn.size - (cut - rgn.base)⟩
      totalSize := t.totalSize - (cut - rgn.base) }
    i rgn.base (cut - rgn.base)

/-- The loop of `memblock_isolate_range` at index `i`. -/
def isolateLoop (base stop : Word) : Nat → Nat → Isolation → Option Isolation
  | 0, _, _ => none
  | fuel + 1, i, s =>
    match s.t.regions[i]? with
    | none => some s
    | some rgn =>
      if stop ≤ rgn.base then some s
      else if rgn.stop ≤ base then isolateLoop base stop fuel (i + 1) s
      else if rgn.base < base then do
        -- go on with the new top half
        let t ← splitRegion s.t i rgn base
        isolateLoop base stop fuel (i + 1) { s with t := t }
      else if stop < rgn.stop then do
        -- redo the current region, the new bottom half
        let t ← splitRegion s.t i rgn stop
        isolateLoop base stop fuel i { s with t := t }
      else
        let startRgn := if s.endRgn = 0 then i else s.startRgn
        isolateLoop base stop fuel (i + 1) ⟨s.t, startRgn, i + 1⟩

/-- `memblock_isolate_range`. At most two regions are split, each at the cost of one more turn
of the loop, and two turns find the end. -/
def isolateRange (t : Regions) (base size : Word) : Option Isolation :=
  let size := capSize base size
  if size = 0 then some ⟨t, 0, 0⟩
  else
    let t := grow (t.cnt + 2) t
    isolateLoop base (base + size) (t.cnt + 4) 0 ⟨t, 0, 0⟩

/-- `for (i = end_rgn - 1; i >= start_rgn; i--)`, over `n` regions. -/
def removeLoop (startRgn : Nat) : Nat → Regions → Regions
  | 0, t => t
  | n + 1, t => removeLoop startRgn n (removeRegion t (startRgn + n))

/-- `__memblock_remove`. -/
def removeRange (t : Regions) (base size : Word) : Option Regions := do
  let s ← isolateRange t base size
  some (removeLoop s.startRgn (s.endRgn - s.startRgn) s.t)

/-! ## Isolating -/

variable {d : Word} {max fuel st en b : Nat} {l done rest : List Region} {base stop : Word}
  {r : Region}

lemma splitRegion_booked {cut : Word} (h : (done ++ r :: rest).length < max) :
    splitRegion (booked d max (done ++ r :: rest)) done.length r cut =
      some (booked d max
        (done ++ ⟨r.base, cut - r.base⟩ :: ⟨cut, r.size - (cut - r.base)⟩ :: rest)) := by
  have hset : { booked d max (done ++ r :: rest) with
        regions := (done ++ r :: rest).set done.length ⟨cut, r.size - (cut - r.base)⟩
        totalSize := total (done ++ r :: rest) + d - (cut - r.base) } =
      booked d max (done ++ ⟨cut, r.size - (cut - r.base)⟩ :: rest) := by
    simp only [booked, total_append, total, set_append_right _ _ (Nat.le_refl _), Nat.sub_self]
    congr 1
    grind
  refine (congrArg (insertRegion · _ _ _) hset).trans (insertRegion_booked ?_)
  simpa using h

lemma span_upper {cut : Word} (hfit : r.span.hi < 2 ^ 32) (hhi : cut ≤ r.stop) :
    (⟨cut, r.size - (cut - r.base)⟩ : Region).span = ⟨cut.toNat, r.span.hi⟩ := by
  have hend : r.size - (cut - r.base) = r.stop - cut := by
    rw [Region.stop]
    grind
  rw [hend, span_fragment hhi, toNat_stop hfit]

lemma isolateLoop_inside (hlo : base ≤ r.base) (hover : r.base < stop)
    (hhi : base < r.stop) (hup : r.stop ≤ stop) :
    isolateLoop base stop (fuel + 1) done.length ⟨booked d max (done ++ r :: rest), st, en⟩ =
      isolateLoop base stop fuel (done.length + 1)
        ⟨booked d max (done ++ r :: rest), if en = 0 then done.length else st,
          done.length + 1⟩ := by
  simp [isolateLoop, BitVec.not_le.mpr hover, BitVec.not_le.mpr hhi, BitVec.not_lt.mpr hlo,
    BitVec.not_lt.mpr hup]

/-- A region that crosses the end of the range is split, and the walk ends at its upper part. -/
lemma isolateLoop_above (hlo : base ≤ r.base) (hover : r.base < stop)
    (hup : stop < r.stop) (hroom : (done ++ r :: rest).length < max) :
    isolateLoop base stop (fuel + 3) done.length ⟨booked d max (done ++ r :: rest), st, en⟩ =
      some ⟨booked d max (done ++ ⟨r.base, stop - r.base⟩ ::
          ⟨stop, r.size - (stop - r.base)⟩ :: rest),
        if en = 0 then done.length else st, done.length + 1⟩ := by
  have hlow : base < stop := by bv_omega
  have hhi : base < r.stop := by bv_omega
  have hstop : (⟨r.base, stop - r.base⟩ : Region).stop = stop := by
    rw [Region.stop]
    grind
  rw [isolateLoop]
  simp only [booked_regions, getElem?_length_append]
  simp only [BitVec.not_le.mpr hover, BitVec.not_le.mpr hhi, BitVec.not_lt.mpr hlo, hup,
    splitRegion_booked hroom, Option.bind_eq_bind, Option.bind_some]
  rw [isolateLoop_inside (r := ⟨r.base, stop - r.base⟩) hlo hover (by rwa [hstop])
    (by rw [hstop]; exact BitVec.le_refl _)]
  simp [isolateLoop]

lemma cut_of_overlap {l : List Span} (hlo : base ≤ r.base) (hover : r.base < stop)
    (hhi : base < r.stop) (hfit : r.span.hi < 2 ^ 32) :
    cut base.toNat stop.toNat (r.span :: l) =
      piece stop.toNat r.span.hi ++ cut base.toNat stop.toNat l := by
  have hend := toNat_stop hfit
  have hlo' : base.toNat ≤ r.span.lo := hlo
  have hover' : r.span.lo < stop.toNat := hover
  have hhi' : base.toNat < r.span.hi := by bv_omega
  grind

/-- The outcome of a walk that begins inside the range behind `done`: the regions `ins` were
noted, and the regions `post` above the range are left. -/
def Leaves (base stop : Word) (done l : List Region) (d : Word) (max st en : Nat)
    (o : Option Isolation) : Prop :=
  ∃ ins post, o = some ⟨booked d max (done ++ (ins ++ post)),
      if en = 0 then done.length else st, done.length + ins.length⟩ ∧
    ins ≠ [] ∧ spans post = cut base.toNat stop.toNat (spans l) ∧ Fits post

lemma leaves_above (hlo : base ≤ r.base) (hover : r.base < stop)
    (hup : stop < r.stop) (hasc : Ascending 1 b (spans (r :: rest))) (hfit : Fits (r :: rest))
    (hroom : (done ++ r :: rest).length < max) :
    Leaves base stop done (r :: rest) d max st en
      (isolateLoop base stop (fuel + 3) done.length
        ⟨booked d max (done ++ r :: rest), st, en⟩) := by
  rw [fits_cons] at hfit
  have hup' : stop.toNat < r.span.hi := toNat_stop hfit.1 ▸ hup
  have hhi : base < r.stop := by bv_omega
  have hspan := span_upper hfit.1 (BitVec.le_of_lt hup)
  have hrest : cut base.toNat stop.toNat (spans rest) = spans rest :=
    cut_of_le hasc.tail (le_of_lt hup')
  refine ⟨[⟨r.base, stop - r.base⟩], ⟨stop, r.size - (stop - r.base)⟩ :: rest,
    isolateLoop_above hlo hover hup hroom, by simp, ?_, ?_⟩
  · rw [spans_cons, spans_cons, hspan, cut_of_overlap hlo hover hhi hfit.1, hrest]
    simp [piece, hup']
  · rw [fits_cons, hspan]
    exact hfit

lemma leaves_overlap (fuel st en : Nat) (done : List Region) (hlo : base ≤ r.base)
    (hover : r.base < stop) (hhi : base < r.stop) (hasc : Ascending 1 b (spans (r :: rest)))
    (hfit : Fits (r :: rest)) (hfuel : rest.length + 4 ≤ fuel)
    (hroom : (done ++ r :: rest).length < max) :
    Leaves base stop done (r :: rest) d max st en
      (isolateLoop base stop fuel done.length ⟨booked d max (done ++ r :: rest), st, en⟩) := by
  induction rest generalizing fuel st en done r b with
  | nil =>
    obtain ⟨fuel, rfl⟩ : ∃ k, fuel = k + 3 := ⟨fuel - 3, by omega⟩
    by_cases hup : stop < r.stop
    · exact leaves_above hlo hover hup hasc hfit hroom
    have hup' : ¬ stop.toNat < r.span.hi := toNat_stop (fits_cons.mp hfit).1 ▸ hup
    refine ⟨[r], [], ?_, by simp, ?_, fits_nil.mpr trivial⟩
    · rw [isolateLoop_inside hlo hover hhi (BitVec.not_lt.mp hup)]
      simp [isolateLoop]
    · rw [spans_cons, cut_of_overlap hlo hover hhi (fits_cons.mp hfit).1]
      simp [piece, hup', cut]
  | cons s rest ih =>
    obtain ⟨fuel, rfl⟩ : ∃ k, fuel = k + 3 := ⟨fuel - 3, by omega⟩
    by_cases hup : stop < r.stop
    · exact leaves_above hlo hover hup hasc hfit hroom
    rw [fits_cons] at hfit
    have hend := toNat_stop hfit.1
    have hnone : piece stop.toNat r.span.hi = [] := by
      have hup' : ¬ stop.toNat < r.span.hi := hend ▸ hup
      simp [piece, hup']
    rw [isolateLoop_inside hlo hover hhi (BitVec.not_lt.mp hup), Leaves, spans_cons,
      cut_of_overlap hlo hover hhi hfit.1, hnone]
    by_cases hstop : stop ≤ s.base
    · have hstop' : stop.toNat ≤ s.span.lo := hstop
      refine ⟨[r], s :: rest, ?_, by simp, ?_, hfit.2⟩
      · rw [isolateLoop]
        simp [hstop]
      · simp [cut, hstop']
    · -- the next region begins above the base of the range, and is inside it too
      have hafter : base < s.base := by
        have hgap : r.span.hi + 1 ≤ s.span.lo := hasc.2.2.1
        have hhi' : base.toNat < r.span.hi := hend ▸ hhi
        exact Nat.lt_of_lt_of_le hhi' (Nat.le_of_succ_le hgap)
      have hafter' : base < s.stop := by
        rw [lt_def, toNat_stop (fits_cons.mp hfit.2).1]
        exact Nat.lt_of_lt_of_le hafter (Nat.le_add_right _ _)
      obtain ⟨ins, post, hloop, -, hpost, hfit'⟩ := ih (r := s) (fuel + 2)
        (if en = 0 then done.length else st) (done.length + 1) (done ++ [r])
        (BitVec.le_of_lt hafter) (BitVec.not_le.mp hstop) hafter' hasc.2.2 hfit.2 (by grind)
        (by simpa using hroom)
      refine ⟨r :: ins, post, ?_, by simp, hpost, hfit'⟩
      simpa [add_assoc, add_comm 1] using hloop

/-- The walk over the whole array: the regions `pre` are below the range. -/
lemma isolateLoop_spec (fuel : Nat) (done : List Region) (hlt : base < stop)
    (hasc : Ascending 1 b (spans rest)) (hfit : Fits rest) (hfuel : rest.length + 4 ≤ fuel)
    (hroom : (done ++ rest).length + 2 ≤ max) :
    ∃ pre ins post st en, isolateLoop base stop fuel done.length
          ⟨booked d max (done ++ rest), 0, 0⟩ =
        some ⟨booked d max (done ++ (pre ++ (ins ++ post))), st, en⟩ ∧
      en - st = ins.length ∧ (ins ≠ [] → st = done.length + pre.length) ∧
      (ins = [] → rest ≠ [] → pre ++ post ≠ []) ∧
      spans (pre ++ post) = cut base.toNat stop.toNat (spans rest) ∧ Fits (pre ++ post) := by
  induction rest generalizing fuel done b with
  | nil =>
    obtain ⟨fuel, rfl⟩ : ∃ k, fuel = k + 1 := ⟨fuel - 1, by omega⟩
    exact ⟨[], [], [], 0, 0, by simp [isolateLoop], rfl, by simp, by simp, rfl, hfit⟩
  | cons r rest ih =>
    obtain ⟨fuel, rfl⟩ : ∃ k, fuel = k + 1 := ⟨fuel - 1, by omega⟩
    have hr := (fits_cons.mp hfit).1
    have hend := toNat_stop hr
    by_cases hstop : stop ≤ r.base
    · have hstop' : stop.toNat ≤ r.span.lo := hstop
      refine ⟨[], [], r :: rest, 0, 0, ?_, rfl, by simp, by simp, ?_, hfit⟩
      · simp [isolateLoop, hstop]
      · simp [cut, hstop']
    have hover := BitVec.not_le.mp hstop
    by_cases hbelow : r.stop ≤ base
    · have hbelow' : r.span.hi ≤ base.toNat := by bv_omega
      have hstop' : ¬ stop.toNat ≤ r.span.lo := hstop
      obtain ⟨pre, ins, post, st, en, hloop, hlen, hst, -, hspans, hfit'⟩ :=
        ih fuel (done ++ [r]) hasc.2.2 (fits_cons.mp hfit).2 (by grind) (by simpa using hroom)
      refine ⟨r :: pre, ins, post, st, en, ?_, hlen, fun hne => ?_, by simp, ?_, ?_⟩
      · simpa [isolateLoop, hstop, hbelow] using hloop
      · grind
      · rw [List.cons_append, spans_cons, hspans, spans_cons, cut, if_neg hstop', if_pos hbelow']
      · exact fits_cons.mpr ⟨hr, hfit'⟩
    have hhi := BitVec.not_le.mp hbelow
    by_cases hlow : r.base < base
    · -- the lower part stays, and the walk goes on with the upper one
      have hlow' : r.span.lo < base.toNat := hlow
      have hlt' : base.toNat < stop.toNat := hlt
      have hhi' : base.toNat < r.span.hi := by bv_omega
      have hupper := span_upper hr (BitVec.le_of_lt hhi)
      have hroom' : (done ++ [(⟨r.base, base - r.base⟩ : Region)] ++
          ⟨base, r.size - (base - r.base)⟩ :: rest).length < max := by
        grind
      have hend' : (⟨base, r.size - (base - r.base)⟩ : Region).stop = r.stop := by
        simp only [Region.stop]
        grind
      obtain ⟨ins, post, hloop, -, hspans, hfit'⟩ :=
        leaves_overlap (r := ⟨base, r.size - (base - r.base)⟩) (d := d) (b := base.toNat) fuel
          0 0 (done ++ [⟨r.base, base - r.base⟩]) (BitVec.le_refl base) hlt (by rwa [hend'])
          (by rw [spans_cons, hupper]; exact ⟨le_refl _, le_of_lt hhi', hasc.2.2⟩)
          (by rw [fits_cons, hupper]; exact fits_cons.mp hfit) (by grind) hroom'
      refine ⟨[⟨r.base, base - r.base⟩], ins, post, done.length + 1,
        done.length + 1 + ins.length, ?_, by omega, fun _ => rfl, by simp, ?_, ?_⟩
      · have hfree : (done ++ r :: rest).length < max := by omega
        simpa [isolateLoop, hstop, hbelow, hlow, splitRegion_booked hfree] using hloop
      · rw [List.singleton_append, spans_cons, hspans, spans_cons,
          span_fragment (BitVec.le_of_lt hlow)]
        change (⟨r.span.lo, base.toNat⟩ : Span) :: _ = _
        grind
      · rw [List.singleton_append, fits_cons, span_fragment (BitVec.le_of_lt hlow)]
        exact ⟨base.isLt, hfit'⟩
    · obtain ⟨ins, post, hloop, hne, hspans, hfit'⟩ := leaves_overlap (d := d) (fuel + 1) 0 0 done
        (BitVec.not_lt.mp hlow) hover hhi hasc hfit (by grind) (Nat.lt_of_succ_lt hroom)
      exact ⟨[], ins, post, _, _, hloop, by simp, by simp, fun h => absurd h hne, hspans, hfit'⟩

/-! ## Removing -/

/-- What `memblock_remove_region` makes of an array: an empty one has the dummy. -/
def orDummy (l : List Region) : List Region := if l.isEmpty then [.dummy] else l

lemma total_orDummy : total (orDummy l) = total l := by
  cases l <;> rfl

lemma covers_orDummy {a : Nat} : Covers (spans (orDummy l)) a ↔ Covers (spans l) a := by
  cases l with
  | nil => simp [orDummy, Region.dummy, Region.span]
  | cons r l => rfl

lemma wellFormed_orDummy (hasc : Ascending 1 0 (spans l)) (hsolid : Solid (spans l))
    (hfit : Fits l) : WellFormed (orDummy l) := by
  cases l with
  | nil =>
    refine ⟨pairwise_singleton _ _, .inl rfl, ?_⟩
    simp [orDummy, Region.dummy, Region.span]
  | cons r l => exact wellFormed_of_ascending hasc (cons_ne_nil _ _) hsolid hfit

lemma removeRegion_booked :
    removeRegion (booked d max (done ++ r :: rest)) done.length =
      booked d max (orDummy (done ++ rest)) := by
  have herase : (done ++ r :: rest).eraseIdx done.length = done ++ rest := by
    simp [eraseIdx_append_of_length_le]
  have htotal : total (done ++ r :: rest) + d - r.size = total (orDummy (done ++ rest)) + d := by
    simp only [total_orDummy, total_append, total]
    grind
  have hget : (done ++ r :: rest).getD done.length .dummy = r := by simp
  rw [removeRegion, booked_regions, herase, hget]
  exact congrArg (Regions.mk (orDummy (done ++ rest)) · max) htotal

lemma removeLoop_booked {ins : List Region} :
    removeLoop done.length ins.length (booked d max (done ++ (ins ++ rest))) =
      booked d max (if ins = [] then done ++ rest else orDummy (done ++ rest)) := by
  induction ins using reverseRecOn with
  | nil => simp [removeLoop]
  | append_singleton ins r ih =>
    have hlist : done ++ (ins ++ [r] ++ rest) = done ++ ins ++ r :: rest := by simp
    rw [length_append, length_singleton, removeLoop, hlist, ← length_append, removeRegion_booked]
    rcases ins with _ | ⟨s, ins⟩
    · simp [removeLoop]
    · have hne : orDummy (done ++ (s :: ins) ++ rest) = done ++ (s :: ins ++ rest) := by
        simp [orDummy]
      rw [hne, ih]
      simp

lemma cut_dummy (hlt : base < stop) :
    cut base.toNat stop.toNat (spans [.dummy]) = spans [.dummy] := by
  have hlt' : base.toNat < stop.toNat := hlt
  simp [Region.dummy, Region.span, cut]

lemma span_injective {r s : Region} (h : r.span = s.span) : r = s := by
  have hlo : r.base.toNat = s.base.toNat := congrArg Span.lo h
  have hhi : r.base.toNat + r.size.toNat = s.base.toNat + s.size.toNat := congrArg Span.hi h
  have hbase : r.base = s.base := by bv_omega
  have hsize : r.size = s.size := by bv_omega
  exact (Region.mk.injEq ..).mpr ⟨hbase, hsize⟩

lemma eq_dummy_of_spans (h : spans l = spans [.dummy]) : l = [.dummy] := by
  obtain ⟨r, rfl, hr⟩ := map_eq_singleton_iff.mp h
  rw [span_injective hr]

lemma removeRange_booked {size : Word} (hsize : capSize base size ≠ 0) (h : WellFormed l)
    (hmax : 0 < max) :
    ∃ max' l', removeRange (booked d max l) base size = some (booked d max' l') ∧ 0 < max' ∧
      WellFormed l' ∧
      ∀ a, Covers (spans l') a ↔ Covers (spans l) a ∧ a ∉ addresses base size := by
  have hstop := toNat_stop_capSize base size
  have hcap := toNat_capSize base size
  generalize hs : base + capSize base size = stop at hstop
  have hlt : base < stop := by bv_omega
  obtain ⟨max', hpos, hroom, hgrow⟩ := growLoop_booked (d := d) (l := l) max hmax
    (Nat.le_add_left (l.length + 2) max)
  obtain ⟨pre, ins, post, st, en, hloop, hlen, hst, hne, hspans, hfit⟩ :=
    isolateLoop_spec (d := d) (l.length + 4) [] hlt h.ascending h.fits (Nat.le_refl _) hroom
  refine ⟨max', if ins = [] then pre ++ post else orDummy (pre ++ post), ?_, hpos, ?_, fun a => ?_⟩
  · have hgrow' : grow ((booked d max l).cnt + 2) (booked d max l) = booked d max' l := hgrow
    have hremove : removeLoop st (en - st) (booked d max' (pre ++ (ins ++ post))) =
        booked d max' (if ins = [] then pre ++ post else orDummy (pre ++ post)) := by
      rw [hlen, ← removeLoop_booked]
      by_cases hins : ins = []
      · simp [hins, removeLoop]
      · rw [hst hins, length_nil, zero_add]
    simp only [removeRange, isolateRange, if_neg hsize, hgrow', hs]
    exact (congrArg (Option.bind · _) hloop).trans (congrArg some hremove)
  · rcases h.solid with rfl | ⟨hnil, hsolid⟩
    · rw [eq_dummy_of_spans (hspans.trans (cut_dummy hlt))]
      simpa [orDummy] using h
    · have hasc : Ascending 1 0 (spans (pre ++ post)) := hspans ▸ ascending_cut h.ascending hlt
      have hsolid' : Solid (spans (pre ++ post)) := hspans ▸ solid_cut hsolid
      split
      · exact wellFormed_of_ascending hasc (hne ‹_› hnil) hsolid' hfit
      · exact wellFormed_orDummy hasc hsolid' hfit
  · have hcovers : Covers (spans (if ins = [] then pre ++ post else orDummy (pre ++ post))) a ↔
        Covers (spans (pre ++ post)) a := by
      split
      · rfl
      · exact covers_orDummy
    rw [hcovers, hspans, covers_cut h.ascending, hstop]
    rfl

/-- Removing a range takes it out of the set, and nothing else. -/
lemma removeRange_spec {t : Regions} {S : Set Nat} (h : Represents t S) (base size : Word) :
    ∃ t', removeRange t base size = some t' ∧ Represents t' (S \ addresses base size) ∧
      (Balanced t → Balanced t') := by
  by_cases hsize : capSize base size = 0
  · refine ⟨t, ?_, ⟨h.wellFormed, fun a => ?_, h.room⟩, id⟩
    · simp [removeRange, isolateRange, hsize, removeLoop]
    · simp [h.covers, notMem_addresses hsize]
  · obtain ⟨max', l', hremove, hmax, hwf, hcovers⟩ :=
      removeRange_booked (d := t.totalSize - total t.regions) hsize h.wellFormed h.room
    rw [← eq_booked] at hremove
    refine ⟨_, hremove, ⟨hwf, fun a => ?_, hmax⟩, fun hbal => ?_⟩
    · simp [hcovers, h.covers]
    · rw [balanced_booked, hbal]
      exact BitVec.sub_self _

end Mini2440.Memblock
