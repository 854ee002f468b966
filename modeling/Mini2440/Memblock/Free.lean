import Mini2440.Library.WordArith
import Mini2440.Memblock.Remove

/-!
# Walking the free ranges

`__next_free_mem_range` and `__next_free_mem_range_rev` step through the memory that is not
reserved, upwards and downwards. A cursor of 64 bits holds an index into the memory regions and
one into the areas before, between and after the reserved regions. Both walks list the common
parts of memory and areas, one in the order of the addresses and one in reverse.
-/

namespace Mini2440.Memblock

open List BitVec Library

/-! ## The cursor -/

/-- `(u32)mi | (u64)ri << 32`. -/
def cursor (mi ri : Word) : BitVec 64 := mi.setWidth 64 ||| ri.signExtend 64 <<< 32

/-- `*idx & 0xffffffff`, as an `int`. -/
def memoryIndex (idx : BitVec 64) : Word := idx.setWidth 32

/-- `*idx >> 32`, as an `int`. -/
def areaIndex (idx : BitVec 64) : Word := (idx >>> 32).setWidth 32

def noCursor : BitVec 64 := 0xffffffffffffffff

lemma memoryIndex_cursor (mi ri : Word) : memoryIndex (cursor mi ri) = mi := by
  refine eq_of_getLsbD_eq fun i hi => ?_
  simp [memoryIndex, cursor]

lemma areaIndex_cursor (mi ri : Word) : areaIndex (cursor mi ri) = ri := by
  refine eq_of_getLsbD_eq fun i hi => ?_
  have htop : 32 + i < 64 := by omega
  simp [areaIndex, cursor, hi, htop, getElem_signExtend]

/-! ## The two walks -/

/-- The area before the reserved region `ri`: `r_start` and `r_end`. -/
def area (rsv : List Region) (ri : Nat) : Word × Word :=
  (if ri = 0 then 0 else (rsv.getD (ri - 1) .dummy).stop,
    if ri < rsv.length then (rsv.getD ri .dummy).base else 0xffffffff)

def overlap (m : Region) (r : Word × Word) : Word × Word :=
  (if r.1 < m.base then m.base else r.1, if m.stop < r.2 then m.stop else r.2)

/-- The inner loop of `__next_free_mem_range`: the index where it ends, and whether the area there
meets the memory region. -/
def scan (rsv : List Region) (m : Region) : Nat → Nat → Nat × Bool
  | 0, ri => (ri, false)
  | fuel + 1, ri =>
    if ri < rsv.length + 1 then
      if m.stop ≤ (area rsv ri).1 then (ri, false)
      else if m.base < (area rsv ri).2 then (ri, true)
      else scan rsv m fuel (ri + 1)
    else (ri, false)

/-- The outer loop of `__next_free_mem_range`. -/
def nextLoop (mem rsv : List Region) : Nat → Nat → Nat → BitVec 64 × Option (Word × Word)
  | 0, _, _ => (noCursor, none)
  | fuel + 1, mi, ri =>
    match mem[mi]? with
    | none => (noCursor, none)
    | some m =>
      match scan rsv m (rsv.length + 1 - ri) ri with
      | (ri, false) => nextLoop mem rsv fuel (mi + 1) ri
      | (ri, true) =>
        -- the region which ends first is advanced
        let idx :=
          if m.stop ≤ (area rsv ri).2 then cursor (.ofNat 32 (mi + 1)) (.ofNat 32 ri)
          else cursor (.ofNat 32 mi) (.ofNat 32 (ri + 1))
        (idx, some (overlap m (area rsv ri)))

/-- `__next_free_mem_range`, for all nodes. The indices are compared as unsigned numbers. -/
def nextFreeMemRange (mem rsv : List Region) (idx : BitVec 64) : BitVec 64 × Option (Word × Word) :=
  let mi := (memoryIndex idx).toNat
  let ri := (areaIndex idx).toNat
  nextLoop mem rsv (mem.length - mi) mi ri

/-- The inner loop of `__next_free_mem_range_rev`. -/
def scanRev (rsv : List Region) (m : Region) : Nat → Int → Int × Bool
  | 0, ri => (ri, false)
  | fuel + 1, ri =>
    if 0 ≤ ri then
      if (area rsv ri.toNat).2 ≤ m.base then (ri, false)
      else if (area rsv ri.toNat).1 < m.stop then (ri, true)
      else scanRev rsv m fuel (ri - 1)
    else (ri, false)

/-- The outer loop of `__next_free_mem_range_rev`. -/
def nextLoopRev (mem rsv : List Region) : Nat → Int → Int → BitVec 64 × Option (Word × Word)
  | 0, _, _ => (noCursor, none)
  | fuel + 1, mi, ri =>
    if 0 ≤ mi then
      let m := mem.getD mi.toNat .dummy
      match scanRev rsv m (ri + 1).toNat ri with
      | (ri, false) => nextLoopRev mem rsv fuel (mi - 1) ri
      | (ri, true) =>
        let idx :=
          if (area rsv ri.toNat).1 ≤ m.base then cursor (.ofInt 32 (mi - 1)) (.ofInt 32 ri)
          else cursor (.ofInt 32 mi) (.ofInt 32 (ri - 1))
        (idx, some (overlap m (area rsv ri.toNat)))
    else (noCursor, none)

/-- `__next_free_mem_range_rev`, for all nodes. The indices are signed. -/
def nextFreeMemRangeRev (mem rsv : List Region) (idx : BitVec 64) :
    BitVec 64 × Option (Word × Word) :=
  let mi := if idx = noCursor then BitVec.ofNat 32 mem.length - 1 else memoryIndex idx
  let ri := if idx = noCursor then BitVec.ofNat 32 rsv.length else areaIndex idx
  nextLoopRev mem rsv (mi.toInt + 1).toNat mi.toInt ri.toInt

/-- `for_each_free_mem_range` and `for_each_free_mem_range_reverse`: the ranges that the body
sees, `none` if `fuel` steps do not bring the end. -/
def forEach (next : BitVec 64 → BitVec 64 × Option (Word × Word)) :
    Nat → BitVec 64 → Option (List (Word × Word))
  | 0, _ => none
  | fuel + 1, idx =>
    if (next idx).1 = noCursor then some []
    else (forEach next fuel (next idx).1).map ((next idx).2.toList ++ ·)

/-! ## Upwards -/

def areas (rsv : List Region) : List Span := between (2 ^ 32 - 1) 0 (spans rsv)

def rangeSpan (r : Word × Word) : Span := ⟨r.1.toNat, r.2.toNat⟩

def areaSpan (rsv : List Region) (ri : Nat) : Span := rangeSpan (area rsv ri)

/-- Two arrays as the walks expect them. Memory regions may touch, reserved ones do not. The
indices are of type `int`; an array in memory, of eight bytes a region, is much shorter. -/
structure Iterable (mem rsv : List Region) : Prop where
  memorySorted : mem.Pairwise fun r s => r.span.hi ≤ s.span.lo
  memorySolid : mem = [.dummy] ∨ Solid (spans mem)
  memoryFits : Fits mem
  reservedSorted : rsv.Pairwise fun r s => r.span.hi < s.span.lo
  reservedFits : Fits rsv
  memoryIndexed : mem.length ≤ 2 ^ 31
  reservedIndexed : rsv.length < 2 ^ 31

variable {mem rsv : List Region} {m : Region} {ms : List Span} {b fuel mi ri n : Nat}

@[simp] lemma length_areas : (areas rsv).length = rsv.length + 1 := by
  simp [areas, spans]

namespace Iterable

variable (h : Iterable mem rsv)

include h

lemma ascending_memory : Ascending 0 0 (spans mem) :=
  ascending_spans h.memorySorted

lemma ascending_reserved : Ascending 1 0 (spans rsv) :=
  ascending_spans h.reservedSorted

lemma reserved_le : ∀ s ∈ spans rsv, s.hi ≤ 2 ^ 32 - 1 := by
  intro s hs
  obtain ⟨r, hr, rfl⟩ := mem_map.mp hs
  exact Nat.le_pred_of_lt (h.reservedFits r hr)

lemma ascending_areas : Ascending 0 0 (areas rsv) :=
  ascending_between h.ascending_reserved (Nat.zero_le _) h.reserved_le

lemma getElem?_areas (hri : ri ≤ rsv.length) : (areas rsv)[ri]? = some (areaSpan rsv ri) := by
  have hlen : ri < (areas rsv).length := by
    rw [length_areas]
    omega
  have hgetD (i : Nat) : (spans rsv).getD i ⟨0, 0⟩ = (rsv.getD i .dummy).span := by
    simp only [spans, getD_eq_getElem?_getD, getElem?_map]
    cases rsv[i]? <;> rfl
  have hstop : (rsv.getD (ri - 1) .dummy).span.hi = (rsv.getD (ri - 1) .dummy).stop.toNat := by
    refine (toNat_stop ?_).symm
    by_cases hi : ri - 1 < rsv.length
    · simpa [hi] using h.reservedFits _ (getElem_mem hi)
    · simp [hi, Region.dummy, Region.span]
  rw [List.getElem?_eq_getElem hlen]
  simp only [areas, getElem_between, hgetD, hstop, areaSpan, area]
  congr 2
  · split <;> rfl
  · simp only [spans, length_map]
    split <;> rfl

lemma drop_areas (hri : ri ≤ rsv.length) :
    (areas rsv).drop ri = areaSpan rsv ri :: (areas rsv).drop (ri + 1) := by
  obtain ⟨hlen, hget⟩ := List.getElem?_eq_some_iff.mp (h.getElem?_areas hri)
  rw [← hget]
  exact drop_eq_getElem_cons hlen

lemma take_areas {ri : Nat} (hri : ri ≤ rsv.length) :
    (areas rsv).take (ri + 1) = (areas rsv).take ri ++ [areaSpan rsv ri] := by
  rw [take_add_one, h.getElem?_areas hri]
  rfl

/-- A memory region and an area that the comparisons find to meet have something in common. -/
lemma common_eq (hm : m ∈ mem) (hri : ri ≤ rsv.length)
    (hlo : m.base < (area rsv ri).2) (hhi : (area rsv ri).1 < m.stop) :
    common m.span (areaSpan rsv ri) = [rangeSpan (overlap m (area rsv ri))] := by
  have hend := toNat_stop (h.memoryFits m hm)
  have hlo' : m.span.lo < (areaSpan rsv ri).hi := hlo
  have hhi' : (areaSpan rsv ri).lo < m.span.hi := hend ▸ hhi
  have hsolid : m.span.lo < m.span.hi := by
    rcases h.memorySolid with rfl | hsolid
    · obtain rfl := mem_singleton.mp hm
      simp [Region.dummy, Region.span] at hhi'
    · exact hsolid _ (mem_map_of_mem hm)
  have hopen : (areaSpan rsv ri).lo < (areaSpan rsv ri).hi := by
    have hmem : areaSpan rsv ri ∈ areas rsv := mem_of_getElem? (h.getElem?_areas hri)
    rcases between_open h.ascending_reserved (Nat.zero_le _) h.reserved_le hmem with h | h | h
    · exact h
    · omega
    · omega
  have hmax : (overlap m (area rsv ri)).1.toNat = max m.span.lo (areaSpan rsv ri).lo := by
    simp only [overlap, lt_def, areaSpan, rangeSpan, Region.span]
    split <;> omega
  have hmin : (overlap m (area rsv ri)).2.toNat = min m.span.hi (areaSpan rsv ri).hi := by
    simp only [overlap, lt_def, areaSpan, rangeSpan]
    split <;> omega
  rw [common, piece, if_pos (by omega), rangeSpan, hmax, hmin]

end Iterable

/-- The inner loop skips the areas below the memory region; the region meets the area that it
finds, or nothing more. -/
lemma scan_spec (fuel ri : Nat) (h : Iterable mem rsv) (hm : m ∈ mem)
    (hms : Ascending 0 b (m.span :: ms)) (hfuel : rsv.length + 1 ≤ ri + fuel) :
    ∃ ri' found, scan rsv m fuel ri = (ri', found) ∧ ri ≤ ri' ∧
      meets (m.span :: ms) ((areas rsv).drop ri) = meets (m.span :: ms) ((areas rsv).drop ri') ∧
      (found → ri' ≤ rsv.length ∧ m.base < (area rsv ri').2 ∧
        (area rsv ri').1 < m.stop) ∧
      (found = false → meets (m.span :: ms) ((areas rsv).drop ri') =
        meets ms ((areas rsv).drop ri')) := by
  have hend := toNat_stop (h.memoryFits m hm)
  induction fuel generalizing ri with
  | zero =>
    refine ⟨ri, false, rfl, le_refl _, rfl, by simp, fun _ => ?_⟩
    rw [drop_eq_nil_of_le (by simpa using hfuel)]
    simp
  | succ fuel ih =>
    rw [scan]
    by_cases hri : ri < rsv.length + 1
    · have hdrop := h.drop_areas (Nat.lt_succ_iff.mp hri)
      have hasc := hdrop ▸ h.ascending_areas.drop ri
      by_cases hpast : m.stop ≤ (area rsv ri).1
      · have hpast' : m.span.hi ≤ (areaSpan rsv ri).lo := hend ▸ hpast
        refine ⟨ri, false, by simp [hpast], le_refl _, rfl, by simp, fun _ => ?_⟩
        rw [hdrop, meets_cons_of_left hasc (hpast'.trans hasc.2.1), common_eq_nil (.inl hpast'),
          nil_append]
      · by_cases hmeet : m.base < (area rsv ri).2
        · exact ⟨ri, true, by simp [hri, hpast, hmeet], Nat.le_refl _, rfl,
            fun _ => ⟨Nat.lt_succ_iff.mp hri, hmeet, BitVec.not_le.mp hpast⟩, by simp⟩
        · have hbelow : (areaSpan rsv ri).hi ≤ m.span.lo := Nat.le_of_not_lt hmeet
          obtain ⟨ri', found, hscan, hle, hskip, hfound⟩ := ih (ri + 1) (by omega)
          refine ⟨ri', found, by simpa [hri, hpast, hmeet] using hscan, by omega, ?_, hfound⟩
          rw [hdrop, meets_cons_of_right hms (hbelow.trans hms.2.1), common_eq_nil (.inr hbelow),
            nil_append, hskip]
    · refine ⟨ri, false, by simp [hri], le_refl _, rfl, by simp, fun _ => ?_⟩
      rw [drop_eq_nil_of_le (by simpa using hri)]
      simp

lemma area_last : (area rsv rsv.length).2 = 0xffffffff := by
  simp [area]

/-- A step ends the walk when nothing is left, or it returns the first range that is left. -/
lemma nextLoop_spec (fuel mi ri : Nat) (h : Iterable mem rsv) (hfuel : mem.length ≤ mi + fuel) :
    (nextLoop mem rsv fuel mi ri = (noCursor, none) ∧
      meets ((spans mem).drop mi) ((areas rsv).drop ri) = []) ∨
    ∃ mi' ri' r, nextLoop mem rsv fuel mi ri =
        (cursor (.ofNat 32 mi') (.ofNat 32 ri'), some r) ∧
      mi' ≤ mem.length ∧ ri' ≤ rsv.length ∧ mi + ri < mi' + ri' ∧
      meets ((spans mem).drop mi) ((areas rsv).drop ri) =
        rangeSpan r :: meets ((spans mem).drop mi') ((areas rsv).drop ri') := by
  induction fuel generalizing mi ri with
  | zero =>
    refine .inl ⟨rfl, ?_⟩
    rw [drop_eq_nil_of_le (by simpa [spans] using hfuel), meets_nil]
  | succ fuel ih =>
    by_cases hmi : mi < mem.length
    · have hm := getElem_mem hmi
      have hend := toNat_stop (h.memoryFits _ hm)
      have hdrop : (spans mem).drop mi = mem[mi].span :: (spans mem).drop (mi + 1) := by
        simp [spans, drop_eq_getElem_cons, hmi]
      have hms := hdrop ▸ h.ascending_memory.drop mi
      obtain ⟨ri', found, hscan, hle, hskip, hfound, hnone⟩ := scan_spec
        (rsv.length + 1 - ri) ri h hm hms (by omega)
      rw [nextLoop, List.getElem?_eq_getElem hmi]
      simp only [hscan]
      rw [hdrop, hskip]
      cases found with
      | false =>
        rw [hnone rfl]
        rcases ih (mi + 1) ri' (by omega) with hstop | ⟨mi'', ri'', r, hstep, hrest⟩
        · exact .inl hstop
        · exact .inr ⟨mi'', ri'', r, hstep, hrest.1, hrest.2.1, by omega, hrest.2.2.2⟩
      | true =>
        obtain ⟨hri, hlo, hhi⟩ := hfound rfl
        have hareas := h.drop_areas hri
        have hasc := hareas ▸ h.ascending_areas.drop ri'
        have hcommon := h.common_eq hm hri hlo hhi
        right
        by_cases hfirst : mem[mi].stop ≤ (area rsv ri').2
        · have hfirst' : mem[mi].span.hi ≤ (areaSpan rsv ri').hi := hend ▸ hfirst
          refine ⟨mi + 1, ri', overlap mem[mi] (area rsv ri'), by simp [hfirst], hmi, hri,
            by omega, ?_⟩
          rw [hareas, meets_cons_of_left hasc hfirst', hcommon]
          rfl
        · have hfirst' := hend ▸ Nat.le_of_lt (Nat.lt_of_not_le hfirst)
          have hri' : ri' ≠ rsv.length := by
            rintro rfl
            rw [area_last] at hfirst
            exact hfirst (by bv_omega)
          refine ⟨mi, ri' + 1, overlap mem[mi] (area rsv ri'), by simp [hfirst], by omega,
            by omega, by omega, ?_⟩
          rw [hareas, meets_cons_of_right hms hfirst', hcommon, hdrop]
          rfl
    · refine .inl ⟨?_, ?_⟩
      · simp [nextLoop, hmi]
      · rw [drop_eq_nil_of_le (by simpa [spans] using hmi), meets_nil]

/-- The whole walk: `At idx l n` says that at the cursor the ranges `l` are left, and that there
are at most `n` of them. -/
lemma forEach_spec {next : BitVec 64 → BitVec 64 × Option (Word × Word)}
    (At : BitVec 64 → List Span → Nat → Prop)
    (step : ∀ idx l n, At idx l n → (next idx = (noCursor, none) ∧ l = []) ∨
      ∃ idx' r l' n', next idx = (idx', some r) ∧ idx' ≠ noCursor ∧ n' < n ∧
        l = rangeSpan r :: l' ∧ At idx' l' n')
    {idx : BitVec 64} {l : List Span} (hat : At idx l n) (hfuel : n < fuel) :
    ∃ rs, forEach next fuel idx = some rs ∧ rs.map rangeSpan = l := by
  induction fuel generalizing idx l n with
  | zero => omega
  | succ fuel ih =>
    rcases step idx l n hat with ⟨hnext, rfl⟩ | ⟨idx', r, l', n', hnext, hmore, hlt, rfl, hat'⟩
    · exact ⟨[], by simp [forEach, hnext], rfl⟩
    · obtain ⟨rs, hrs, hmap⟩ := ih hat' (by omega)
      exact ⟨r :: rs, by simp [forEach, hnext, hmore, hrs], by simp [hmap]⟩

lemma cursor_ne_noCursor {mi ri : Word} (h : mi ≠ 0xffffffff ∨ ri ≠ 0xffffffff) :
    cursor mi ri ≠ noCursor := by
  intro heq
  have hmi := memoryIndex_cursor mi ri
  have hri := areaIndex_cursor mi ri
  rw [heq] at hmi hri
  rcases h with h | h
  · exact h (hmi.symm.trans (by decide))
  · exact h (hri.symm.trans (by decide))

lemma forEach_up (fuel : Nat) (h : Iterable mem rsv) (hfuel : mem.length + rsv.length < fuel) :
    ∃ rs, forEach (nextFreeMemRange mem rsv) fuel 0 = some rs ∧
      rs.map rangeSpan = meets (spans mem) (areas rsv) := by
  have hmem := h.memoryIndexed
  have hrsv := h.reservedIndexed
  apply forEach_spec (n := mem.length + rsv.length)
    (fun idx l n => ∃ mi ri, memoryIndex idx = .ofNat 32 mi ∧ areaIndex idx = .ofNat 32 ri ∧
      mi ≤ mem.length ∧ ri ≤ rsv.length ∧ mem.length + rsv.length ≤ mi + ri + n ∧
      l = meets ((spans mem).drop mi) ((areas rsv).drop ri)) _ ⟨0, 0, rfl, rfl, by simp⟩ hfuel
  rintro idx l n ⟨mi, ri, hmi, hri, hmi', hri', hn, rfl⟩
  have hstep : nextFreeMemRange mem rsv idx = nextLoop mem rsv (mem.length - mi) mi ri := by
    rw [nextFreeMemRange, hmi, hri, toNat_ofNat, toNat_ofNat,
      Nat.mod_eq_of_lt (by omega), Nat.mod_eq_of_lt (by omega)]
  rw [hstep]
  rcases nextLoop_spec (mem.length - mi) mi ri h (by omega) with
    hstop | ⟨mi'', ri'', r, hnext, hmi'', hri'', hlt, hmeets⟩
  · exact .inl hstop
  · refine .inr ⟨_, r, _, n - 1, hnext, cursor_ne_noCursor (.inl ?_), by omega, hmeets, mi'', ri'',
      memoryIndex_cursor _ _, areaIndex_cursor _ _, hmi'', hri'', by omega, rfl⟩
    intro hones
    have := congrArg BitVec.toNat hones
    simp at this
    omega

/-! ## Downwards

The indices of this walk go down to `-1`; with `n` areas left the index is `n - 1`. -/

lemma scanRev_spec (h : Iterable mem rsv) (hm : m ∈ mem) (hms : Ascending 0 b (ms ++ [m.span]))
    (hn : n ≤ rsv.length + 1) (hfuel : n ≤ fuel) :
    ∃ (n' : Nat) (found : Bool), scanRev rsv m fuel (n - 1 : Int) = ((n' : Int) - 1, found) ∧
      n' ≤ n ∧
      meets (ms ++ [m.span]) ((areas rsv).take n) = meets (ms ++ [m.span]) ((areas rsv).take n') ∧
      (found → 0 < n' ∧ m.base < (area rsv (n' - 1)).2 ∧
        (area rsv (n' - 1)).1 < m.stop) ∧
      (found = false → meets (ms ++ [m.span]) ((areas rsv).take n') =
        meets ms ((areas rsv).take n')) := by
  have hend := toNat_stop (h.memoryFits m hm)
  have hspan : m.span.lo ≤ m.span.hi := Nat.le_add_right _ _
  induction fuel generalizing n with
  | zero =>
    obtain rfl : n = 0 := by omega
    exact ⟨0, false, rfl, le_refl _, rfl, by simp, by simp⟩
  | succ fuel ih =>
    rw [scanRev]
    cases n with
    | zero => exact ⟨0, false, by simp, le_refl _, rfl, by simp, by simp⟩
    | succ n =>
      have htake := h.take_areas (Nat.le_of_succ_le_succ hn)
      have hasc := htake ▸ h.ascending_areas.take (n + 1)
      have harea : (areaSpan rsv n).lo ≤ (areaSpan rsv n).hi := (hasc.le_of_mem (by simp)).2
      by_cases hpast : (area rsv n).2 ≤ m.base
      · have hpast' : (areaSpan rsv n).hi ≤ m.span.lo := hpast
        refine ⟨n + 1, false, by simp [hpast], le_refl _, rfl, by simp, fun _ => ?_⟩
        rw [htake, meets_concat_of_left hasc (by omega), common_eq_nil (.inr hpast'),
          append_nil]
      · by_cases hmeet : (area rsv n).1 < m.stop
        · exact ⟨n + 1, true, by simp [hpast, hmeet], Nat.le_refl _, rfl,
            fun _ => ⟨Nat.succ_pos n, BitVec.not_le.mp hpast, hmeet⟩, by simp⟩
        · have habove : m.span.hi ≤ (areaSpan rsv n).lo := hend ▸ Nat.le_of_not_lt hmeet
          obtain ⟨n', found, hscan, hle, hskip, hfound⟩ := ih (n := n) (by omega) (by omega)
          refine ⟨n', found, by simpa [hpast, hmeet] using hscan, by omega, ?_, hfound⟩
          rw [htake, meets_concat_of_right hms (by omega), common_eq_nil (.inl habove),
            append_nil, hskip]

lemma nextLoopRev_spec {k : Nat} (h : Iterable mem rsv) (hk : k ≤ mem.length)
    (hn : n ≤ rsv.length + 1) (hfuel : k ≤ fuel) :
    (nextLoopRev mem rsv fuel (k - 1 : Int) (n - 1 : Int) = (noCursor, none) ∧
      meets ((spans mem).take k) ((areas rsv).take n) = []) ∨
    ∃ (k' n' : Nat) (r : Word × Word), nextLoopRev mem rsv fuel (k - 1 : Int) (n - 1 : Int) =
        (cursor (.ofInt 32 (k' - 1)) (.ofInt 32 (n' - 1)), some r) ∧
      k' ≤ mem.length ∧ 0 < n' ∧ n' ≤ rsv.length + 1 ∧ k' + n' < k + n ∧
      meets ((spans mem).take k) ((areas rsv).take n) =
        meets ((spans mem).take k') ((areas rsv).take n') ++ [rangeSpan r] := by
  induction fuel generalizing k n with
  | zero =>
    obtain rfl : k = 0 := by omega
    exact .inl ⟨rfl, by simp⟩
  | succ fuel ih =>
    rw [nextLoopRev]
    cases k with
    | zero => exact .inl ⟨by simp, by simp⟩
    | succ k =>
      have hindex : ((k + 1 : Nat) : Int) - 1 = (k : Int) := by omega
      have hindex' : ((n : Int) - 1 + 1).toNat = n := by omega
      have hk' : k < mem.length := hk
      have hget : mem.getD k .dummy = mem[k] := by simp [hk']
      have hm := getElem_mem hk'
      have htake : (spans mem).take (k + 1) = (spans mem).take k ++ [mem[k].span] := by
        simp [spans, take_add_one, hk']
      have hms := htake ▸ h.ascending_memory.take (k + 1)
      obtain ⟨n', found, hscan, hle, hskip, hfound, hnone⟩ := scanRev_spec h hm hms hn (le_refl n)
      rw [hindex, hindex', Int.toNat_natCast, hget]
      simp only [hscan]
      rw [htake, hskip]
      cases found with
      | false =>
        rw [hnone rfl]
        rcases ih (k := k) (n := n') (by omega) (by omega) (by omega) with
          hstop | ⟨k'', n'', r, hstep, hrest⟩
        · exact .inl hstop
        · exact .inr ⟨k'', n'', r, hstep, hrest.1, hrest.2.1, hrest.2.2.1, by omega, hrest.2.2.2.2⟩
      | true =>
        obtain ⟨hpos, hlo, hhi⟩ := hfound rfl
        obtain ⟨i, rfl⟩ : ∃ i, n' = i + 1 := ⟨n' - 1, by omega⟩
        have hri : i ≤ rsv.length := by omega
        have hareas := h.take_areas hri
        have hasc := hareas ▸ h.ascending_areas.take (i + 1)
        have hcommon := h.common_eq hm hri hlo hhi
        right
        by_cases hlast : (area rsv i).1 ≤ mem[k].base
        · have hlast' : (areaSpan rsv i).lo ≤ mem[k].span.lo := hlast
          refine ⟨k, i + 1, overlap mem[k] (area rsv i), ?_, by omega, by omega, by omega,
            by omega, ?_⟩
          · simp [hlast]
          · rw [hareas, meets_concat_of_left hasc hlast', hcommon]
        · have hlast' : mem[k].span.lo ≤ (areaSpan rsv i).lo :=
            Nat.le_of_lt (Nat.lt_of_not_le hlast)
          have hpos' : i ≠ 0 := by
            rintro rfl
            exact hlast (Nat.zero_le _)
          refine ⟨k + 1, i, overlap mem[k] (area rsv i), ?_, by omega, by omega, by omega,
            by omega, ?_⟩
          · simp [hlast]
          · rw [hareas, meets_concat_of_right hms hlast', hcommon, htake]

lemma toInt_ofInt_of_lt {i : Int} (hlo : -1 ≤ i) (hhi : i < 2147483648) :
    (BitVec.ofInt 32 i).toInt = i := by
  rw [BitVec.toInt_ofInt_eq_self] <;> omega

lemma toInt_ofNat_sub_one (h : n ≤ 2 ^ 31) : (BitVec.ofNat 32 n - 1).toInt = (n : Int) - 1 := by
  have hnat : (BitVec.ofNat 32 n - 1).toNat = (2 ^ 32 - 1 + n) % 2 ^ 32 := by
    simp
  rw [toInt_eq_toNat_cond]
  omega

lemma forEach_down (fuel : Nat) (h : Iterable mem rsv)
    (hfuel : mem.length + rsv.length + 1 < fuel) :
    ∃ rs, forEach (nextFreeMemRangeRev mem rsv) fuel noCursor = some rs ∧
      rs.map rangeSpan = (meets (spans mem) (areas rsv)).reverse := by
  have hmem := h.memoryIndexed
  have hrsv := h.reservedIndexed
  apply forEach_spec (n := mem.length + rsv.length + 1)
    (fun idx l n => ∃ k n' : Nat, k ≤ mem.length ∧ n' ≤ rsv.length + 1 ∧ k + n' ≤ n ∧
      l = (meets ((spans mem).take k) ((areas rsv).take n')).reverse ∧
      nextFreeMemRangeRev mem rsv idx = nextLoopRev mem rsv k (k - 1 : Int) (n' - 1 : Int)) _
    _ hfuel
  · rintro idx l n ⟨k, n', hk, hn', hn, rfl, hstep⟩
    rw [hstep]
    rcases nextLoopRev_spec h hk hn' (le_refl k) with
      ⟨hstop, hnil⟩ | ⟨k'', n'', r, hnext, hk'', hpos, hn'', hlt, hmeets⟩
    · exact .inl ⟨hstop, by rw [hnil]; rfl⟩
    · have hmore :
          cursor (.ofInt 32 ((k'' : Int) - 1)) (.ofInt 32 ((n'' : Int) - 1)) ≠ noCursor := by
        refine cursor_ne_noCursor (.inr fun hones => ?_)
        have hint := congrArg BitVec.toInt hones
        rw [toInt_ofInt_of_lt (by omega) (by omega)] at hint
        have hneg : (0xffffffff : Word).toInt = -1 := by decide
        omega
      refine .inr ⟨_, r, _, n - 1, hnext, hmore, by omega, by rw [hmeets, List.reverse_append]; rfl,
        k'', n'', hk'', hn'', by omega, rfl, ?_⟩
      simp only [nextFreeMemRangeRev, hmore, if_false, memoryIndex_cursor, areaIndex_cursor]
      rw [toInt_ofInt_of_lt (by omega) (by omega), toInt_ofInt_of_lt (by omega) (by omega)]
      congr 1
      omega
  · refine ⟨mem.length, rsv.length + 1, le_refl _, le_refl _, by omega, ?_, ?_⟩
    · rw [take_of_length_le (by simp [spans]), take_of_length_le (by simp)]
    · simp only [nextFreeMemRangeRev, if_true, toInt_ofNat_sub_one hmem, toInt_ofNat_of_lt hrsv]
      congr 1 <;> omega

/-! ## The ranges -/

lemma rangeSpan_injective : Function.Injective rangeSpan := by
  rintro ⟨a, b⟩ ⟨c, d⟩ h
  have hlo : a = c := eq_of_toNat_eq (congrArg Span.lo h)
  have hhi : b = d := eq_of_toNat_eq (congrArg Span.hi h)
  rw [hlo, hhi]

def freeSpans (mem rsv : List Region) : List Span := meets (spans mem) (areas rsv)

lemma covers_freeSpans (h : Iterable mem rsv) {a : Nat} :
    Covers (freeSpans mem rsv) a ↔ Covers (spans mem) a ∧ ¬ Covers (spans rsv) a := by
  rw [freeSpans, covers_meets, areas, covers_between h.ascending_reserved h.reserved_le]
  constructor
  · rintro ⟨hmem, -, -, hrsv⟩
    exact ⟨hmem, hrsv⟩
  · rintro ⟨hmem, hrsv⟩
    obtain ⟨s, hs, hlo, hhi⟩ := hmem
    obtain ⟨r, hr, rfl⟩ := mem_map.mp hs
    have hfit := h.memoryFits r hr
    exact ⟨⟨_, hs, hlo, hhi⟩, Nat.zero_le _, by omega, hrsv⟩

/-- Stepping through the free ranges ends; upwards it yields ranges in order that do not overlap,
none of them empty, which are together the memory that is not reserved, and downwards the same
ranges from the last one to the first. -/
theorem free_ranges (fuel : Nat) (h : Iterable mem rsv)
    (hfuel : mem.length + rsv.length + 1 < fuel) :
    ∃ rs, forEach (nextFreeMemRange mem rsv) fuel 0 = some rs ∧
      forEach (nextFreeMemRangeRev mem rsv) fuel noCursor = some rs.reverse ∧
      (rs.Pairwise fun r s => r.2 ≤ s.1) ∧ (∀ r ∈ rs, r.1 < r.2) ∧
      ∀ a, (∃ r ∈ rs, r.1.toNat ≤ a ∧ a < r.2.toNat) ↔
        Covers (spans mem) a ∧ ¬ Covers (spans rsv) a := by
  obtain ⟨rs, hup, hspans⟩ := forEach_up fuel h (by omega)
  obtain ⟨rs', hdown, hspans'⟩ := forEach_down fuel h hfuel
  have hrev : rs' = rs.reverse := by
    refine map_injective_iff.mpr rangeSpan_injective ?_
    rw [hspans', map_reverse, hspans]
  have hasc : Ascending 0 0 (rs.map rangeSpan) :=
    hspans ▸ ascending_meets h.ascending_memory h.ascending_areas
  have hsolid : Solid (rs.map rangeSpan) := hspans ▸ solid_meets
  refine ⟨rs, hup, hrev ▸ hdown, ?_, fun r hr => ?_, fun a => ?_⟩
  · exact pairwise_map.mp (ascending_iff_pairwise.mp hasc).2
  · exact hsolid _ (mem_map_of_mem hr)
  · rw [← covers_freeSpans h, freeSpans, ← hspans, Covers]
    simp [rangeSpan]

def boardMemory : List Region := [⟨0x30000000, 0x2000000⟩, ⟨0x33000000, 0x1000000⟩]

/-- The kernel, a range across the hole, and the end of the memory. -/
def boardReserved : List Region :=
  [⟨0x30000000, 0x8000⟩, ⟨0x31f00000, 0x1200000⟩, ⟨0x33f00000, 0x100000⟩]

theorem board_free_ranges : ∃ rs,
    forEach (nextFreeMemRange boardMemory boardReserved) 7 0 = some rs ∧
    forEach (nextFreeMemRangeRev boardMemory boardReserved) 7 noCursor = some rs.reverse ∧
    ∀ a, (∃ r ∈ rs, r.1.toNat ≤ a ∧ a < r.2.toNat) ↔
      Covers (spans boardMemory) a ∧ ¬ Covers (spans boardReserved) a := by
  have hboard : Iterable boardMemory boardReserved :=
    ⟨by decide, .inr (by decide), by decide, by decide, by decide, by decide, by decide⟩
  obtain ⟨rs, hup, hdown, -, -, hunion⟩ := free_ranges 7 hboard (by decide)
  exact ⟨rs, hup, hdown, hunion⟩

end Mini2440.Memblock
