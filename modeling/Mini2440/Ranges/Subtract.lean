import Mathlib.Data.List.Basic
import Mathlib.Order.Interval.Set.Basic

/-!
# Subtracting a range

`subtract_range` of `kernel/range.c` goes once through the slots of an array. A range that contains
the cut is split, and its upper part goes into the first free slot. The loop may visit this slot
again, but an upper part starts at the end of the cut and is left alone.
-/

namespace Mini2440.Ranges

open List

/-- `struct range`. A slot is free if its end is zero. -/
structure Range where
  start : Nat
  stop : Nat

/-- One round of the loop of `subtract_range`. If there is no free slot, the upper part of a range
that is split is lost. -/
def subtractAt (start stop : Nat) (rs : List Range) (j : Nat) : List Range :=
  match rs[j]? with
  | none => rs
  | some r =>
    if r.stop = 0 then rs
    else if start ≤ r.start ∧ r.stop ≤ stop then rs.set j ⟨0, 0⟩
    else if start ≤ r.start ∧ stop < r.stop ∧ r.start < stop then rs.set j ⟨stop, r.stop⟩
    else if r.start < start ∧ r.stop ≤ stop ∧ start < r.stop then rs.set j ⟨r.start, start⟩
    else if r.start < start ∧ stop < r.stop then
      (rs.set (rs.findIdx fun q => q.stop = 0) ⟨stop, r.stop⟩).set j ⟨r.start, start⟩
    else rs

def subtractRange (rs : List Range) (start stop : Nat) : List Range :=
  if stop ≤ start then rs else (range rs.length).foldl (subtractAt start stop) rs

def covered (rs : List Range) : Set Nat :=
  {x | ∃ (j : Nat) (r : Range), rs[j]? = some r ∧ r.start ≤ x ∧ x < r.stop}

def Splits (start stop : Nat) (r : Range) : Bool := r.start < start ∧ stop < r.stop

def Free (r : Range) : Bool := r.stop = 0

/-- What is left of a range in its own slot. -/
def cut (start stop : Nat) (r : Range) : Range :=
  if r.stop = 0 then r
  else if start ≤ r.start then
    if r.stop ≤ stop then ⟨0, 0⟩ else if r.start < stop then ⟨stop, r.stop⟩ else r
  else if start < r.stop then ⟨r.start, start⟩ else r

variable {rs cur : List Range} {start stop k : Nat} {r : Range}

/-- One round changes the slot `k` and, if its range is split, the free slot `i`. -/
lemma subtractAt_spec (hlt : start < stop) (hk : cur[k]? = some r)
    (hroom : cur.countP (Splits start stop) ≤ cur.countP Free) :
    ∃ i p, cur[i]? = some p ∧ (if Splits start stop r then p.stop = 0 else i = k) ∧
      subtractAt start stop cur k = (cur.set i ⟨stop, r.stop⟩).set k (cut start stop r) := by
  have hself : cur.set k r = cur := by
    obtain ⟨hlen, rfl⟩ := List.getElem?_eq_some_iff.mp hk
    exact set_getElem_self hlen
  by_cases hs : Splits start stop r
  · have hpos := countP_pos_iff.mpr ⟨r, mem_of_getElem? hk, hs⟩
    obtain ⟨p, hp, hfree⟩ := countP_pos_iff.mp (hpos.trans_le hroom)
    have hi := findIdx_lt_length_of_exists ⟨p, hp, hfree⟩
    have hzero : Free cur[cur.findIdx Free] := findIdx_getElem
    refine ⟨_, _, getElem?_eq_getElem hi, ?_, ?_⟩
    · grind [Free]
    · unfold subtractAt cut
      unfold Free at *
      grind [Splits]
  · refine ⟨k, r, hk, by simp [hs], ?_⟩
    rw [set_set]
    unfold subtractAt cut
    grind [Splits]

/-- The array after the rounds for the slots below `k`. -/
structure Partly (rs : List Range) (start stop k : Nat) (cur : List Range) : Prop where
  length : cur.length = rs.length
  kept : ∀ x, x < start ∨ stop ≤ x → (x ∈ covered cur ↔ x ∈ covered rs)
  clean : ∀ j < k, ∀ r, cur[j]? = some r → cut start stop r = r
  room : cur.countP (Splits start stop) ≤ cur.countP Free
  slot : ∀ (j : Nat) r, rs[j]? = some r → k ≤ j ∨ cut start stop r = r → cur[j]? = some r ∨
    r.stop = 0 ∧ ∃ q ∈ rs, Splits start stop q ∧ cur[j]? = some ⟨stop, q.stop⟩

lemma Partly.step (hlt : start < stop) (h : Partly rs start stop k cur) (hk : k < rs.length) :
    Partly rs start stop (k + 1) (subtractAt start stop cur k) := by
  obtain ⟨hlen, hkept, hclean, hroom, hslot⟩ := h
  have hr := getElem?_eq_getElem (hlen ▸ hk)
  generalize cur[k] = r at hr
  obtain ⟨i, p, hi, hp, hstep⟩ := subtractAt_spec hlt hr hroom
  have hget : ∀ j : Nat, (subtractAt start stop cur k)[j]? = if j = k then some (cut start stop r)
      else if j = i then some ⟨stop, r.stop⟩ else cur[j]? := by
    rw [hstep]
    grind
  refine ⟨by simp [hstep, hlen], fun x hx => ?_, ?_, ?_, ?_⟩
  · rw [← hkept x hx]
    simp only [covered, Set.mem_ofPred_eq]
    constructor
    · rintro ⟨j, q, hq, hxq⟩
      rw [hget] at hq
      grind [cut, Splits]
    · rintro ⟨j, q, hq, hxq⟩
      by_cases hup : Splits start stop r ∧ stop ≤ x ∧ j = k
      · exact ⟨i, ⟨stop, r.stop⟩, by grind, by grind⟩
      · exact ⟨j, if j = k then cut start stop r else q, by grind, by grind [cut, Splits]⟩
  · intro j hj q hq
    rw [hget] at hq
    grind [cut, Splits]
  · rw [hstep]
    grind [cut, Splits, Free]
  · have hmem : Splits start stop r → r ∈ rs := fun hs => by
      have hk' := getElem?_eq_getElem hk
      rcases hslot k _ hk' (.inl le_rfl) with hc | ⟨-, q, hq, -, hc⟩
      · exact mem_of_getElem? (hk'.trans (hc.symm.trans hr))
      · grind [Splits]
    intro j q hq hcut
    rw [hget]
    by_cases hj : j = i ∧ Splits start stop r
    · refine .inr ⟨?_, r, hmem hj.2, hj.2, by grind [Splits]⟩
      have := hslot j q hq (hcut.imp_left (by omega))
      grind
    · grind [cut, Splits]

lemma partly_run (hlt : start < stop) (hroom : rs.countP (Splits start stop) ≤ rs.countP Free)
    (hk : k ≤ rs.length) : Partly rs start stop k ((range k).foldl (subtractAt start stop) rs) := by
  induction k with
  | zero => exact ⟨rfl, fun _ _ => .rfl, by simp, hroom, fun _ _ hr _ => .inl hr⟩
  | succ k ih =>
    rw [range_succ, foldl_append]
    exact (ih (by omega)).step hlt hk

/-- The cut is taken out of what is covered. A range that the cut does not meet stays in its slot,
and a free slot can get the upper part of a range that was split. -/
theorem subtractRange_spec (rs : List Range) (start stop : Nat) (hlt : start < stop)
    (hroom : rs.countP (Splits start stop) ≤ rs.countP Free) :
    let rs' := subtractRange rs start stop
    covered rs' = covered rs \ Set.Ico start stop ∧ rs'.length = rs.length ∧
      ∀ (j : Nat) r, rs[j]? = some r → cut start stop r = r → rs'[j]? = some r ∨
        r.stop = 0 ∧ ∃ q ∈ rs, Splits start stop q ∧ rs'[j]? = some ⟨stop, q.stop⟩ := by
  have h := partly_run hlt hroom le_rfl
  rw [subtractRange, if_neg (by omega)]
  refine ⟨Set.ext fun x => ?_, h.length, fun j r hr hcut => h.slot j r hr (.inr hcut)⟩
  rw [Set.mem_sdiff, Set.mem_Ico]
  by_cases hx : x < start ∨ stop ≤ x
  · rw [h.kept x hx]
    grind
  · refine ⟨fun hcov => ?_, fun hcov => absurd hcov.2 (by omega)⟩
    obtain ⟨j, r, hr, hxr⟩ := hcov
    have hlen := (List.getElem?_eq_some_iff.mp hr).1
    have hclean := h.clean j (h.length ▸ hlen) r hr
    grind [cut]

/-- Two ranges that overlap and contain the cut. -/
theorem overlap_subtracted :
    covered (subtractRange [⟨0, 10⟩, ⟨3, 20⟩, ⟨0, 0⟩, ⟨0, 0⟩] 5 8) =
      covered [⟨0, 10⟩, ⟨3, 20⟩, ⟨0, 0⟩, ⟨0, 0⟩] \ Set.Ico 5 8 :=
  (subtractRange_spec _ 5 8 (by decide) (by decide)).1

end Mini2440.Ranges
