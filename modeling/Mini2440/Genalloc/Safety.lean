import Mathlib.Algebra.BigOperators.Group.Finset.Piecewise
import Mathlib.Algebra.BigOperators.Ring.List
import Mathlib.Order.Interval.Finset.Nat
import Mathlib.Tactic.Abel
import Mini2440.Genalloc.Machine
import Mini2440.Library.Ownership

/-!
# Safety without a lock

A unit belongs to the caller that has set its bit, from the `cmpxchg` on, or to the block that was
returned with it. The bits of a range are set one word after the other, and a unit whose bit is
clear belongs to nobody; so no unit has two owners, and a caller that clears a bit finds it set. The
counters follow later: what a caller has released and not yet added is part of the balance.
-/

namespace Mini2440.Genalloc

open List Function Library

variable {ι : Type*} [DecidableEq ι] {L : Layout} {s : State ι} {i : ι} {p q : Pc}

/-! ## Who owns a unit -/

def Layout.units (L : Layout) (size : Word) : Nat := unitsFor L.order size.toNat

/-- The units whose bits a caller has set and not yet cleared, with the chunk. -/
def Pc.held (L : Layout) : Pc → Set (Nat × Nat)
  | .setLoad a startBit c | .setXchg a startBit c _ =>
    {x | x.1 = a.chunk ∧ startBit.toNat ≤ x.2 ∧ (x.2 : Int) < c.size - c.nr}
  | .clearLoad _ k c | .clearXchg _ k c _ =>
    {x | x.1 = k ∧ c.size - c.nr ≤ (x.2 : Int) ∧ (x.2 : Int) < c.size}
  | .subAvail a startBit =>
    {x | x.1 = a.chunk ∧ startBit.toNat ≤ x.2 ∧ x.2 < startBit.toNat + L.units a.size}
  | _ => ∅

/-- The first unit of a block, as `gen_pool_free` computes it. -/
def Block.first (L : Layout) (b : Block) : Nat := ((b.addr - L.startAddr b.chunk) >>> L.order).toNat

def Block.held (L : Layout) (b : Block) : Set (Nat × Nat) :=
  {x | x.1 = b.chunk ∧ b.first L ≤ x.2 ∧ x.2 < b.first L + L.units b.size}

def State.marked (s : State ι) : Set (Nat × Nat) := {x | bit (s.bits x.1) x.2 = true}

/-! ## What the callers know -/

/-- A call is at a chunk for which its request is not too large. -/
structure At (L : Layout) (a : Call) (e : Extent L.order) : Prop where
  chunk : L.chunks[a.chunk]? = some e
  pos : a.size ≠ 0
  fits : Fits e a.size

/-- The best area so far is the end of the chunk or a sufficient one. -/
def Search.Sound (L : Layout) (e : Extent L.order) (size : Word) : Search → Prop
  | .first => True
  | .best startBit _ => startBit.toNat = e.units ∨ startBit.toNat + L.units size ≤ e.units

def Purpose.Sound (L : Layout) (k : Nat) : Purpose → Prop
  | .retry a _ => a.chunk = k ∧ ∃ e, At L a e
  | .release _ => True

def Pc.Sound (L : Layout) : Pc → Prop
  | .idle | .addAvail _ _ => True
  | .checkAvail a _ => a.size ≠ 0
  | .findZero a f _ => ∃ e, At L a e ∧ f.Sound L e a.size
  | .findBit a f index => ∃ e, At L a e ∧
    f.Sound L e a.size ∧ index.toNat + L.units a.size ≤ e.units
  | .findEnd a startBit len index => ∃ e, At L a e ∧
    (Search.best startBit len).Sound L e a.size ∧ index.toNat + L.units a.size ≤ e.units
  | .setLoad a startBit c => ∃ e pos, At L a e ∧ startBit.toNat + L.units a.size ≤ e.units ∧
    startBit.toNat ≤ pos ∧ c.Covers pos (startBit.toNat + L.units a.size)
  | .setXchg a startBit c _ => ∃ e pos, At L a e ∧ startBit.toNat + L.units a.size ≤ e.units ∧
    startBit.toNat ≤ pos ∧ pos < startBit.toNat + L.units a.size ∧
    c.Covers pos (startBit.toNat + L.units a.size)
  | .clearLoad p k c => p.Sound L k ∧ ∃ pos stop, c.Covers pos stop
  | .clearXchg p k c val => p.Sound L k ∧ ∃ pos stop, c.Covers pos stop ∧ pos < stop ∧
    ∀ m, c.current = some m → val &&& m = m
  | .subAvail a startBit => ∃ e, At L a e ∧ startBit.toNat + L.units a.size ≤ e.units
  | .bug | .wild => False

/-- The block is a sequence of whole units in its chunk. -/
structure Block.Sound (L : Layout) (b : Block) (e : Extent L.order) : Prop where
  at_ : At L ⟨b.size, b.chunk⟩ e
  addr : b.addr.toNat = e.address (b.first L)
  inside : b.first L + L.units b.size ≤ e.units

/-! ## The balance -/

/-- What a caller has released and is still to add to the counter of chunk `k`. -/
def Pc.pending (L : Layout) (k : Nat) : Pc → Word
  | .clearLoad (.release size) j _ | .clearXchg (.release size) j _ _ | .addAvail j size =>
    if j = k then L.rounded size else 0
  | _ => 0

/-- What a block takes from the counter of chunk `k`. -/
def Block.charge (L : Layout) (k : Nat) (b : Block) : Word :=
  if b.chunk = k then L.rounded b.size else 0

/-- The counter, the blocks and what is pending make up the size of the chunk. Only finitely many
callers are at work. -/
def Balanced (L : Layout) (s : State ι) : Prop :=
  ∃ active : Finset ι, (∀ i, i ∉ active → s.pc i = .idle) ∧ ∀ k,
    s.avail k + (s.out.map (Block.charge L k)).sum + ∑ i ∈ active, (s.pc i).pending L k =
      (State.initial (ι := ι) L).avail k

/-- A step of one caller keeps the balance if it keeps that caller's part of it. -/
lemma Balanced.step {s' : State ι} (h : Balanced L s)
    (hpc : s'.pc = update s.pc i p)
    (heq : ∀ k, s'.avail k + (s'.out.map (Block.charge L k)).sum + p.pending L k =
      s.avail k + (s.out.map (Block.charge L k)).sum + (s.pc i).pending L k) : Balanced L s' := by
  obtain ⟨active, hidle, hsum⟩ := h
  have hfun (k : Nat) : (fun j => (s'.pc j).pending L k) =
      update (fun j => (s.pc j).pending L k) i (p.pending L k) := by
    rw [hpc]
    exact funext fun j => apply_update (fun _ q => Pc.pending L k q) s.pc i p j
  refine ⟨insert i active, fun j hj => ?_, fun k => ?_⟩
  · rw [Finset.mem_insert, not_or] at hj
    rw [hpc, update_of_ne hj.1]
    exact hidle j hj.2
  · -- Adding the caller to the set changes nothing, since it was idle if it was not in it.
    have hinsert : ∑ j ∈ insert i active, (s.pc j).pending L k =
        ∑ j ∈ active, (s.pc j).pending L k := by
      refine Finset.sum_insert_of_eq_zero_if_notMem fun hi => ?_
      rw [hidle i hi]
      rfl
    have hold := hsum k
    rw [← hinsert, ← Finset.add_sum_erase _ _ (Finset.mem_insert_self i active)] at hold
    rw [hfun, Finset.sum_update_of_mem (Finset.mem_insert_self i active), ← hold, ← add_assoc,
      ← add_assoc, heq, Finset.sdiff_singleton_eq_erase]

/-! ## The invariant -/

structure Inv (L : Layout) (s : State ι) : Prop where
  sound : ∀ i, (s.pc i).Sound L
  blocks : ∀ b ∈ s.out, ∃ e, b.Sound L e
  owned : Owned (fun i => (s.pc i).held L) (s.out.map (Block.held L)) s.marked
  balanced : Balanced L s

omit [DecidableEq ι] in
lemma inv_initial : Inv L (State.initial (ι := ι) L) where
  sound _ := trivial
  blocks _ h := absurd h not_mem_nil
  owned := .empty
  balanced := ⟨∅, fun _ _ => rfl, fun k => by simp [State.initial]⟩

lemma sound_update (h : Inv L s) (hp : p.Sound L) (j : ι) : (update s.pc i p j).Sound L :=
  (forall_update_iff s.pc fun _ q => q.Sound L).mpr ⟨hp, fun j _ => h.sound j⟩ j

lemma held_update : (fun j => (update s.pc i p j).held L) =
    update (fun j => (s.pc j).held L) i (p.held L) :=
  funext fun j => apply_update (fun _ q => Pc.held L q) s.pc i p j

lemma Inv.goto (h : Inv L s) (hpc : s.pc i = q) (hp : p.Sound L)
    (hheld : p.held L = q.held L) (hpend : ∀ k, p.pending L k = q.pending L k) :
    Inv L (s.goto i p) where
  sound := sound_update h hp
  blocks := h.blocks
  owned := by
    have howned := h.owned
    simp only [State.goto, held_update, hheld, ← hpc]
    rw [update_eq_self]
    exact howned
  balanced := h.balanced.step rfl fun k => by rw [hpend, ← hpc]; rfl

/-! ## The searches -/

variable {a : Call} {e : Extent L.order} {f : Search} {startBit index : Word} {k : Nat}

lemma toNat_endBit_layout (hk : L.chunks[k]? = some e) : (L.endBit k).toNat = e.units := by
  simp [Layout.endBit, hk, e.toNat_endBit]

namespace At

lemma toNat_nbits (h : At L a e) : (nbits L.order a.size).toNat = L.units a.size :=
  Genalloc.toNat_nbits L.order_lt h.fits.1

lemma units_pos (h : At L a e) : 0 < L.units a.size :=
  unitsFor_pos (Nat.pos_of_ne_zero fun h0 => h.pos (BitVec.eq_of_toNat_eq h0))

lemma units_add_lt (h : At L a e) : L.units a.size + e.units < 2 ^ 31 := h.fits.2

lemma toInt_nbits (h : At L a e) : (nbits L.order a.size).toInt = (L.units a.size : Int) := by
  have hlt := h.units_add_lt
  have hn := h.toNat_nbits
  rw [Chunk.toInt_of_lt (by omega), hn]

lemma toNat_add_nbits (h : At L a e) (hle : index.toNat ≤ e.units) :
    (index + nbits L.order a.size).toNat = index.toNat + L.units a.size := by
  have hlt := h.units_add_lt
  rw [BitVec.toNat_add, h.toNat_nbits, Nat.mod_eq_of_lt (by omega)]

end At

/-- The place of a caller that owns nothing and has nothing to add to a counter. -/
structure Resting (L : Layout) (p : Pc) : Prop where
  sound : p.Sound L
  held : p.held L = ∅
  pending : ∀ k, p.pending L k = 0

lemma Inv.goto_resting (h : Inv L s) (hpc : s.pc i = q) (hp : Resting L p)
    (hheld : q.held L = ∅) (hpend : ∀ k, q.pending L k = 0) : Inv L (s.goto i p) :=
  h.goto hpc hp.sound (hp.held.trans hheld.symm) fun k => (hp.pending k).trans (hpend k).symm

lemma resting_findZero (ha : At L a e) (hf : f.Sound L e a.size) (start : Word) :
    Resting L (.findZero a f start) := ⟨⟨e, ha, hf⟩, rfl, fun _ => rfl⟩

lemma resting_callAlgo (ha : At L a e) : Resting L (L.callAlgo a startBit) := by
  unfold Layout.callAlgo
  split
  · have hf : Search.first.Sound L e a.size := trivial
    exact resting_findZero ha hf _
  · have hf (len : Word) : (Search.best (L.endBit a.chunk) len).Sound L e a.size :=
      .inl (toNat_endBit_layout ha.chunk)
    exact resting_findZero ha (hf _) _

/-- The algorithm returns an area that is large enough, or something not below the number of the
units. -/
lemma resting_algoReturns (ha : At L a e)
    (h : startBit.toNat + L.units a.size ≤ e.units ∨
      e.units ≤ startBit.toNat ∧ startBit.toNat < 2 ^ 31) :
    Resting L (L.algoReturns a startBit) := by
  have hlt := ha.units_add_lt
  have hpos := ha.units_pos
  have hend := toNat_endBit_layout ha.chunk
  have hint : startBit.toInt = startBit.toNat := Chunk.toInt_of_lt (by omega)
  have hendInt : (L.endBit a.chunk).toInt = e.units := by
    rw [Chunk.toInt_of_lt (by omega), hend]
  have hsle : (L.endBit a.chunk).sle startBit = decide (e.units ≤ startBit.toNat) := by
    rw [BitVec.sle_eq_decide, hendInt, hint]
    simp
  have hslt : startBit.slt 0#32 = false := by
    rw [BitVec.slt_eq_decide, hint]
    simp
  rw [Layout.algoReturns, hsle, hslt]
  rcases h with h | h
  · rw [if_neg (by simp; omega), ha.toInt_nbits]
    refine ⟨⟨e, _, ha, h, le_rfl, Cursor.covers_enter _ _⟩, ?_, fun _ => rfl⟩
    refine Set.eq_empty_of_forall_notMem fun x hx => ?_
    have hx2 := hx.2
    simp only [Cursor.enter] at hx2
    omega
  · rw [if_pos (by simpa using h.1)]
    exact ⟨ha.pos, rfl, fun _ => rfl⟩

lemma resting_areaReturns (ha : At L a e) (hf : f.Sound L e a.size)
    (h : index.toNat + L.units a.size ≤ e.units ∨
      e.units < index.toNat ∧ index.toNat < 2 ^ 31) : Resting L (L.areaReturns a f index) := by
  have hlt := ha.units_add_lt
  cases f with
  | first => exact resting_algoReturns ha (h.imp_right fun h => ⟨h.1.le, h.2⟩)
  | best startBit len =>
    simp only [Layout.areaReturns, BitVec.lt_def, toNat_endBit_layout ha.chunk]
    split
    · exact ⟨⟨e, ha, hf, by omega⟩, rfl, fun _ => rfl⟩
    · exact resting_algoReturns ha (hf.symm.imp_right fun h => by omega)

variable (found : Nat)

lemma toNat_scan_le {size offset : Word} : (scan size offset found).toNat ≤ size.toNat := by
  simp only [scan, BitVec.le_def, BitVec.toNat_ofNat]
  split <;> omega

/-- The steps up to the point where an area has been chosen. -/
lemma Inv.checkAvail (h : Inv L s) (hpc : s.pc i = .checkAvail a startBit)
    (hok : admitted L s (.run i found)) : Inv L (s.run L i found) := by
  have hsound := h.sound i
  rw [hpc] at hsound
  simp only [State.run, hpc]
  split
  case isTrue hlt =>
    have hchunk := getElem?_eq_getElem hlt
    split
    case isTrue => exact h.goto_resting hpc ⟨hsound, rfl, fun _ => rfl⟩ rfl fun _ => rfl
    case isFalse hle =>
      have hfits : Fits L.chunks[a.chunk] a.size := by
        simpa [admitted, hpc, hle, hlt] using hok
      exact h.goto_resting hpc (resting_callAlgo ⟨hchunk, hsound, hfits⟩) rfl fun _ => rfl
  case isFalse => exact h.goto_resting hpc ⟨trivial, rfl, fun _ => rfl⟩ rfl fun _ => rfl

lemma Inv.findZero (h : Inv L s) {start : Word}
    (hpc : s.pc i = .findZero a f start) : Inv L (s.run L i found) := by
  obtain ⟨e, ha, hf⟩ : (Pc.findZero a f start).Sound L := hpc ▸ h.sound i
  have hlt := ha.units_add_lt
  have hend := toNat_endBit_layout ha.chunk
  have hscan : (scan (L.endBit a.chunk) start found).toNat ≤ e.units := hend ▸ toNat_scan_le found
  have hsum := ha.toNat_add_nbits hscan
  simp only [State.run, hpc, BitVec.lt_def]
  split
  case isTrue hbig =>
    exact h.goto_resting hpc (resting_areaReturns ha hf (by omega)) rfl fun _ => rfl
  case isFalse hbig =>
    exact h.goto_resting hpc ⟨⟨e, ha, hf, by omega⟩, rfl, fun _ => rfl⟩ rfl fun _ => rfl

lemma Inv.findBit (h : Inv L s) (hpc : s.pc i = .findBit a f index) : Inv L (s.run L i found) := by
  obtain ⟨e, ha, hf, hle⟩ : (Pc.findBit a f index).Sound L := hpc ▸ h.sound i
  simp only [State.run, hpc]
  split
  · exact h.goto_resting hpc (resting_findZero ha hf _) rfl fun _ => rfl
  · exact h.goto_resting hpc (resting_areaReturns ha hf (.inl hle)) rfl fun _ => rfl

lemma Inv.findEnd (h : Inv L s) {len : Word}
    (hpc : s.pc i = .findEnd a startBit len index) : Inv L (s.run L i found) := by
  obtain ⟨e, ha, hf, hle⟩ : (Pc.findEnd a startBit len index).Sound L := hpc ▸ h.sound i
  have hbest (len : Word) : (Search.best index len).Sound L e a.size := .inr hle
  simp only [State.run, hpc]
  split
  · split
    · exact h.goto_resting hpc (resting_algoReturns ha (.inl hle)) rfl fun _ => rfl
    · exact h.goto_resting hpc (resting_findZero ha (hbest _) _) rfl fun _ => rfl
  · exact h.goto_resting hpc (resting_findZero ha hf _) rfl fun _ => rfl

/-! ## Setting bits -/

variable {c : Cursor} {val m : Word} {pos mid stop lo : Nat}

/-- The units from `lo` to `hi` of a chunk. -/
def span (k lo hi : Nat) : Set (Nat × Nat) := {x | x.1 = k ∧ lo ≤ x.2 ∧ x.2 < hi}

lemma held_setLoad (hc : c.Covers pos stop) :
    (Pc.setLoad a startBit c).held L = span a.chunk startBit.toNat pos := by
  have hsize := hc.size
  have hnr := hc.nr
  ext x
  simp only [Pc.held, span, Set.mem_ofPred_eq]
  omega

lemma held_clearLoad {p : Purpose} (hc : c.Covers pos stop) :
    (Pc.clearLoad p k c).held L = span k pos stop := by
  have hsize := hc.size
  have hnr := hc.nr
  ext x
  simp only [Pc.held, span, Set.mem_ofPred_eq]
  omega

lemma span_union (h : lo ≤ pos) (h' : pos ≤ mid) :
    span k lo pos ∪ span k pos mid = span k lo mid := by
  ext x
  simp only [span, Set.mem_union, Set.mem_ofPred_eq]
  omega

lemma span_diff (h : pos ≤ mid) : span k pos stop \ span k pos mid = span k mid stop := by
  ext x
  simp only [span, Set.mem_sdiff, Set.mem_ofPred_eq]
  omega

omit [DecidableEq ι] in
lemma marked_setMask (hin : ∀ b, InMask c.word m b ↔ pos ≤ b ∧ b < mid) :
    State.marked { s with
      bits := update s.bits k (setMask (s.bits k) c.word m) } =
        s.marked ∪ span k pos mid := by
  ext x
  by_cases hk : x.1 = k
  · simp [State.marked, span, hk, bit_setMask, hin]
  · simp [State.marked, span, hk]

omit [DecidableEq ι] in
lemma marked_clearMask (hin : ∀ b, InMask c.word m b ↔ pos ≤ b ∧ b < mid) :
    State.marked { s with
      bits := update s.bits k (clearMask (s.bits k) c.word m) } =
        s.marked \ span k pos mid := by
  ext x
  by_cases hk : x.1 = k
  · simp only [State.marked, span, Set.mem_sdiff, Set.mem_ofPred_eq, hk, update_self,
      bit_clearMask, hin, true_and, Bool.and_eq_true, Bool.not_eq_true', decide_eq_false_iff_not]
  · simp [State.marked, span, hk]

lemma Inv.setLoad (h : Inv L s) (hpc : s.pc i = .setLoad a startBit c) :
    Inv L (s.run L i found) := by
  obtain ⟨e, pos, ha, hle, hpos, hc⟩ : (Pc.setLoad a startBit c).Sound L := hpc ▸ h.sound i
  simp only [State.run, hpc]
  rcases eq_or_lt_of_le hc.le with heq | hlt
  · rw [heq] at hc
    rw [hc.current_eq_none]
    refine h.goto hpc ⟨e, ha, hle⟩ ?_ fun _ => rfl
    rw [held_setLoad hc]
    rfl
  · obtain ⟨m, mid, hm, -⟩ := hc.current_eq hlt
    rw [hm]
    exact h.goto hpc ⟨e, pos, ha, hle, hpos, hlt, hc⟩ rfl fun _ => rfl

lemma Inv.setXchg (h : Inv L s) (hpc : s.pc i = .setXchg a startBit c val) :
    Inv L (s.run L i found) := by
  obtain ⟨e, pos, ha, hle, hpos, hlt, hc⟩ : (Pc.setXchg a startBit c val).Sound L := hpc ▸ h.sound i
  have hheld : (s.pc i).held L = span a.chunk startBit.toNat pos := hpc ▸ held_setLoad (L := L) hc
  obtain ⟨m, mid, hm, hmid, hmidle, hin, hadv⟩ := hc.current_eq hlt
  simp only [State.run, hpc, hm]
  split
  case isTrue =>
    -- The conflict: what has been set so far is to be cleared.
    have hnr : (nbits L.order a.size).toInt - c.nr = ((pos - startBit.toNat : Nat) : Int) := by
      have := hc.nr
      rw [ha.toInt_nbits]
      omega
    have hcov := Cursor.covers_enter startBit.toNat (pos - startBit.toNat)
    rw [Nat.add_sub_cancel' hpos] at hcov
    rw [hnr]
    refine h.goto hpc ⟨⟨rfl, e, ha⟩, _, _, hcov⟩ ?_ fun _ => rfl
    rw [held_clearLoad hcov, ← hheld, hpc]
  case isFalse hfree =>
    rw [not_not] at hfree
    split
    case isTrue hval =>
      -- The bits are clear, so they belong to nobody.
      have hdisj : Disjoint (span a.chunk pos mid) s.marked := by
        rw [Set.disjoint_left]
        rintro x ⟨hx, hxs⟩ hmark
        have hclear := and_mask_eq_zero_iff.mp (hval ▸ hfree) x.2 ((hin x.2).mpr hxs)
        rw [State.marked, Set.mem_ofPred_eq, hx, hclear] at hmark
        exact Bool.false_ne_true hmark
      have howned := h.owned.extend i hdisj
      have hsound : (Pc.setLoad a startBit c.advance).Sound L := ⟨e, mid, ha, hle, by omega, hadv⟩
      refine ⟨sound_update h hsound, h.blocks, ?_, ?_⟩
      · rw [hheld, span_union hpos hmid.le, ← held_setLoad (L := L) hadv,
          ← marked_setMask hin] at howned
        rw [held_update]
        exact howned
      · exact h.balanced.step rfl fun k => by rw [hpc]; rfl
    case isFalse => exact h.goto hpc ⟨e, pos, ha, hle, hpos, hlt, hc⟩ rfl fun _ => rfl

/-! ## Clearing bits -/

variable {p : Purpose} {k : Nat}

omit [DecidableEq ι] in
/-- The bits that a caller still has to clear are set, whatever the others do. -/
lemma Inv.mask_set (h : Inv L s) (hc : c.Covers pos stop)
    (hheld : (s.pc i).held L = span k pos stop) (hm : c.current = some m) :
    s.bits k c.word &&& m = m := by
  rcases eq_or_lt_of_le hc.le with rfl | hlt
  · rw [hc.current_eq_none] at hm
    exact absurd hm (by simp)
  · obtain ⟨m', mid, hm', -, hmid, hin, -⟩ := hc.current_eq hlt
    obtain rfl : m' = m := Option.some.inj (hm'.symm.trans hm)
    refine and_mask_eq_self_iff.mpr fun b hb => ?_
    have hb' := (hin b).mp hb
    have hmem : (k, b) ∈ (s.pc i).held L := hheld ▸ ⟨rfl, hb'.1, by simp only; omega⟩
    exact h.owned.claim_marked i hmem

lemma Inv.clearLoad (h : Inv L s) (hpc : s.pc i = .clearLoad p k c) : Inv L (s.run L i found) := by
  obtain ⟨hp, pos, stop, hc⟩ : (Pc.clearLoad p k c).Sound L := hpc ▸ h.sound i
  have hheld : (s.pc i).held L = span k pos stop := by rw [hpc, held_clearLoad hc]
  simp only [State.run, hpc]
  rcases eq_or_lt_of_le hc.le with rfl | hlt
  · have hempty : (Pc.clearLoad p k c).held L = ∅ := by
      rw [held_clearLoad hc]
      refine Set.eq_empty_of_forall_notMem fun x hx => ?_
      have hx2 := hx.2
      omega
    rw [hc.current_eq_none]
    cases p with
    | retry a startBit =>
      obtain ⟨-, e, ha⟩ := hp
      exact h.goto_resting hpc (resting_callAlgo ha) hempty fun _ => rfl
    | release size => exact h.goto hpc trivial hempty.symm fun _ => rfl
  · obtain ⟨m, mid, hm, -⟩ := hc.current_eq hlt
    rw [hm]
    exact h.goto hpc ⟨hp, pos, stop, hc, hlt, fun m hm => h.mask_set hc hheld hm⟩ rfl
      fun _ => by cases p <;> rfl

lemma Inv.clearXchg (h : Inv L s) (hpc : s.pc i = .clearXchg p k c val) :
    Inv L (s.run L i found) := by
  obtain ⟨hp, pos, stop, hc, hlt, hval⟩ : (Pc.clearXchg p k c val).Sound L := hpc ▸ h.sound i
  have hheld : (s.pc i).held L = span k pos stop := hpc ▸ held_clearLoad (L := L) (p := p) hc
  obtain ⟨m, mid, hm, hmid, hmidle, hin, hadv⟩ := hc.current_eq hlt
  simp only [State.run, hpc, hm]
  rw [if_neg (not_not.mpr (hval m hm))]
  split
  case isTrue =>
    have hsub : span k pos mid ⊆ (s.pc i).held L := by
      rw [hheld]
      exact fun x hx => ⟨hx.1, hx.2.1, hx.2.2.trans_le hmidle⟩
    have howned := h.owned.drop i hsub
    have hsound : (Pc.clearLoad p k c.advance).Sound L := ⟨hp, mid, stop, hadv⟩
    refine ⟨sound_update h hsound, h.blocks, ?_, ?_⟩
    · rw [hheld, span_diff hmid.le, ← held_clearLoad (L := L) (p := p) hadv,
        ← marked_clearMask hin] at howned
      rw [held_update]
      exact howned
    · refine h.balanced.step rfl fun k => ?_
      rw [hpc]
      cases p <;> rfl
  case isFalse =>
    exact h.goto hpc ⟨hp, pos, stop, hc, hlt, fun m hm => h.mask_set hc hheld hm⟩ rfl
      fun _ => by cases p <;> rfl

/-! ## The counters -/

lemma first_claimed (ha : At L a e) (hle : startBit.toNat + L.units a.size ≤ e.units) :
    Block.first L ⟨a.chunk, L.startAddr a.chunk + startBit <<< L.order, a.size⟩ =
      startBit.toNat := by
  have hpos := ha.units_pos
  have hlt : startBit.toNat * 2 ^ L.order < 2 ^ 32 :=
    (Nat.mul_lt_mul_of_pos_right (by omega) (Nat.two_pow_pos _)).trans e.size_lt
  simp only [Block.first, BitVec.add_comm (L.startAddr a.chunk), BitVec.add_sub_cancel]
  rw [BitVec.toNat_ushiftRight, BitVec.toNat_shiftLeft, Nat.shiftLeft_eq, Nat.mod_eq_of_lt hlt,
    Nat.shiftRight_eq_div_pow, Nat.mul_div_cancel _ (Nat.two_pow_pos _)]

lemma Inv.subAvail (h : Inv L s) (hpc : s.pc i = .subAvail a startBit) :
    Inv L (s.run L i found) := by
  obtain ⟨e, ha, hle⟩ : (Pc.subAvail a startBit).Sound L := hpc ▸ h.sound i
  have hpos := ha.units_pos
  have hfirst := first_claimed ha hle
  simp only [State.run, hpc]
  refine ⟨sound_update h trivial, ?_, ?_, ?_⟩
  · refine forall_mem_cons.mpr ⟨⟨e, ha, ?_, ?_⟩, h.blocks⟩
    · rw [hfirst]
      have hstart : L.startAddr a.chunk = e.startAddr := by simp [Layout.startAddr, ha.chunk]
      simp only [hstart]
      exact e.address_eq (by omega) rfl
    · rw [hfirst]
      exact hle
  · have howned := h.owned.deposit i
    have hheld : (s.pc i).held L = Block.held L
        ⟨a.chunk, L.startAddr a.chunk + startBit <<< L.order, a.size⟩ := by
      rw [hpc, Block.held, hfirst]
      rfl
    rw [held_update, map_cons, ← hheld]
    exact howned
  · refine h.balanced.step rfl fun k => ?_
    rw [hpc]
    by_cases hk : a.chunk = k
    · subst hk
      simp only [update_self, map_cons, sum_cons, Block.charge, if_true]
      abel
    · simp [Block.charge, hk, Ne.symm hk, Pc.pending]

lemma Inv.addAvail (h : Inv L s) {size : Word} (hpc : s.pc i = .addAvail k size) :
    Inv L (s.run L i found) := by
  simp only [State.run, hpc]
  refine ⟨sound_update h trivial, h.blocks, ?_, ?_⟩
  · have howned := h.owned
    have hheld : Pc.idle.held L = (s.pc i).held L := by rw [hpc]; rfl
    rw [held_update, hheld, update_eq_self]
    exact howned
  · refine h.balanced.step rfl fun j => ?_
    rw [hpc]
    by_cases hk : k = j
    · subst hk
      simp only [update_self, Pc.pending, if_true]
      abel
    · simp [hk, Ne.symm hk, Pc.pending]

lemma Inv.run (h : Inv L s) (hok : admitted L s (.run i found)) : Inv L (s.run L i found) := by
  cases hpc : s.pc i with
  | idle => simpa only [State.run, hpc] using h
  | checkAvail a startBit => exact h.checkAvail found hpc hok
  | findZero a f start => exact h.findZero found hpc
  | findBit a f index => exact h.findBit found hpc
  | findEnd a startBit len index => exact h.findEnd found hpc
  | setLoad a startBit c => exact h.setLoad found hpc
  | setXchg a startBit c val => exact h.setXchg found hpc
  | clearLoad p k c => exact h.clearLoad found hpc
  | clearXchg p k c val => exact h.clearXchg found hpc
  | subAvail a startBit => exact h.subAvail found hpc
  | addAvail k size => exact h.addAvail found hpc
  | bug => simpa only [State.run, hpc] using h
  | wild => simpa only [State.run, hpc] using h

/-! ## Giving a block back -/

variable {b b' : Block}

namespace Block

lemma Sound.chunk (h : b.Sound L e) : L.chunks[b.chunk]? = some e := h.at_.chunk

lemma Sound.inside_extent (h : b.Sound L e) : b.Inside e := by
  have haddr := h.addr
  have hsize : b.size.toNat ≤ L.units b.size * 2 ^ L.order := unitsFor_le_iff.mp le_rfl
  have hmul : (b.first L + L.units b.size) * 2 ^ L.order ≤ e.units * 2 ^ L.order :=
    Nat.mul_le_mul_right _ h.inside
  rw [Nat.add_mul] at hmul
  simp only [Inside, Extent.size, Extent.address] at haddr ⊢
  omega

lemma Sound.size_pos (h : b.Sound L e) : 0 < b.size.toNat :=
  Nat.pos_of_ne_zero fun h0 => h.at_.pos (BitVec.eq_of_toNat_eq h0)

lemma Sound.findIdx (h : b.Sound L e) (hend : e.start + e.size < 2 ^ 32) :
    (L.chunks.findIdx? fun d => d.startAddr ≤ b.addr ∧ b.addr < d.endAddr) = some b.chunk := by
  obtain ⟨hlt, hget⟩ := List.getElem?_eq_some_iff.mp h.chunk
  have hin := h.inside_extent
  have hpos := h.size_pos
  simp only [Inside] at hin
  have hbound (d : Extent L.order) : d.start + d.size ≤ 2 ^ 32 := d.inside
  rw [findIdx?_eq_some_iff_getElem]
  refine ⟨hlt, ?_, fun j hj => ?_⟩
  · rw [hget]
    simp only [Extent.startAddr, Extent.endAddr, BitVec.le_def, BitVec.lt_def, BitVec.toNat_ofNat,
      decide_eq_true_eq]
    omega
  · -- An earlier chunk is apart from this one.
    have hj' : j < L.chunks.length := by bv_omega
    have hapart := pairwise_iff_getElem.mp L.apart j b.chunk hj' hlt hj
    rw [hget] at hapart
    have hd := hbound L.chunks[j]
    simp only [Extent.startAddr, Extent.endAddr, BitVec.le_def, BitVec.lt_def, BitVec.toNat_ofNat,
      decide_eq_true_eq, Extent.Apart] at hapart ⊢
    omega

lemma Sound.enterFree_eq (h : b.Sound L e) (hend : e.start + e.size < 2 ^ 32) :
    L.enterFree b.addr b.size =
      .clearLoad (.release b.size) b.chunk (.enter (b.first L) (L.units b.size : Nat)) := by
  have hin := h.inside_extent
  simp only [Inside] at hin
  have hfit : ¬ e.endAddr < b.addr + b.size := by
    rw [BitVec.lt_def, Extent.endAddr, BitVec.toNat_ofNat, BitVec.toNat_add]
    omega
  rw [Layout.enterFree, h.findIdx hend]
  simp only [h.chunk, Option.map_some, Option.getD_some]
  rw [if_neg hfit, h.at_.toInt_nbits]
  rfl

end Block

lemma Inv.free (h : Inv L s) (hpc : s.pc i = .idle) (hb : b ∈ s.out)
    (hok : admitted L s (.free i b)) : Inv L { s with
      pc := update s.pc i (L.enterFree b.addr b.size)
      out := s.out.erase b } := by
  obtain ⟨e, hsound⟩ := h.blocks b hb
  have hcov := Cursor.covers_enter (b.first L) (L.units b.size)
  have hperm := perm_cons_erase hb
  have hend : e.start + e.size < 2 ^ 32 := by simpa [admitted, hsound.chunk] using hok
  rw [hsound.enterFree_eq hend]
  refine ⟨sound_update h ⟨trivial, _, _, hcov⟩,
    fun c hc => h.blocks c (mem_of_mem_erase hc), ?_, ?_⟩
  · rw [held_update, held_clearLoad hcov]
    exact h.owned.withdraw (hperm.map (Block.held L))
  · refine h.balanced.step rfl fun k => ?_
    rw [hpc, (hperm.map (Block.charge L k)).sum_eq]
    simp only [map_cons, sum_cons]
    abel

lemma Inv.step (h : Inv L s) (act : Action ι) (hok : admitted L s act) : Inv L (s.step L act) := by
  cases act with
  | alloc i size =>
    simp only [State.step]
    split
    case isTrue hidle =>
      exact h.goto_resting hidle.1 ⟨hidle.2, rfl, fun _ => rfl⟩ rfl fun _ => rfl
    case isFalse => exact h
  | free i b =>
    simp only [State.step]
    split
    case isTrue hidle => exact h.free hidle.1 hidle.2 hok
    case isFalse => exact h
  | run i found => exact h.run found hok

/-! ## What follows from the invariant -/

lemma span_disjoint {hi lo' hi' : Nat} (h : Disjoint (span k lo hi) (span k lo' hi'))
    (hlt : lo < hi) (hlt' : lo' < hi') : hi ≤ lo' ∨ hi' ≤ lo := by
  by_contra hover
  have hmem : (k, max lo lo') ∈ span k lo hi := ⟨rfl, by simp only; omega, by simp only; omega⟩
  have hmem' : (k, max lo lo') ∈ span k lo' hi' := ⟨rfl, by simp only; omega, by simp only; omega⟩
  exact Set.disjoint_left.mp h hmem hmem'

lemma Block.Sound.apart {e' : Extent L.order} (h : b.Sound L e) (h' : b'.Sound L e')
    (hdisj : Disjoint (b.held L) (b'.held L)) : b.Apart b' := by
  have hin := h.inside_extent
  have hin' := h'.inside_extent
  simp only [Block.Inside] at hin hin'
  by_cases hk : b.chunk = b'.chunk
  · obtain rfl : e = e' := Option.some.inj (h.chunk.symm.trans (hk ▸ h'.chunk))
    have hspan : Disjoint (span b.chunk (b.first L) (b.first L + L.units b.size))
        (span b.chunk (b'.first L) (b'.first L + L.units b'.size)) := by
      rw [show b'.held L = span b'.chunk _ _ from rfl, ← hk] at hdisj
      exact hdisj
    have hpos := h.at_.units_pos
    have hpos' := h'.at_.units_pos
    -- The block that comes first ends before the other one begins.
    have hend {c d : Block} (hc : c.Sound L e) (hd : d.Sound L e)
        (hle : c.first L + L.units c.size ≤ d.first L) :
        c.addr.toNat + c.size.toNat ≤ d.addr.toNat := by
      have hsize : c.size.toNat ≤ L.units c.size * 2 ^ L.order := unitsFor_le_iff.mp le_rfl
      have hmul := Nat.mul_le_mul_right (2 ^ L.order) hle
      rw [Nat.add_mul] at hmul
      rw [hc.addr, hd.addr, Extent.address, Extent.address]
      omega
    exact (span_disjoint hspan (by simp only at hpos; omega) (by simp only at hpos'; omega)).imp
      (hend h h') (hend h' h)
  · -- The blocks are in chunks that are apart.
    obtain ⟨hlt, hget⟩ := List.getElem?_eq_some_iff.mp h.chunk
    obtain ⟨hlt', hget'⟩ := List.getElem?_eq_some_iff.mp h'.chunk
    have hapart : e.Apart e' ∨ e'.Apart e := by
      rcases lt_or_gt_of_ne hk with hlt | hgt
      · exact .inl (hget ▸ hget' ▸ pairwise_iff_getElem.mp L.apart _ _ _ _ hlt)
      · exact .inr (hget ▸ hget' ▸ pairwise_iff_getElem.mp L.apart _ _ _ _ hgt)
    simp only [Extent.Apart, Block.Apart] at hapart ⊢
    omega

lemma Block.Sound.rounded_eq (h : b.Sound L e) :
    L.rounded b.size = BitVec.ofNat 32 (L.units b.size * 2 ^ L.order) := by
  apply BitVec.eq_of_toNat_eq
  rw [Layout.rounded, BitVec.toNat_shiftLeft, h.at_.toNat_nbits, Nat.shiftLeft_eq,
    BitVec.toNat_ofNat]

omit [DecidableEq ι] in
lemma Inv.taken_le (h : Inv L s) (hk : L.chunks[k]? = some e) : taken L s.out k ≤ e.size := by
  set l := s.out.filter fun b => b.chunk = k with hl
  have hmem (b : Block) (hb : b ∈ l) : b.chunk = k ∧ b.Sound L e := by
    rw [mem_filter] at hb
    obtain ⟨e', he'⟩ := h.blocks b hb.1
    have hbk : b.chunk = k := by simpa using hb.2
    obtain rfl : e' = e := Option.some.inj (he'.chunk.symm.trans (hbk ▸ hk))
    exact ⟨hbk, he'⟩
  let area (b : Block) : Finset Nat := Finset.Ico (b.first L) (b.first L + L.units b.size)
  have hsum : (l.map fun b => (area b).card).sum ≤ (Finset.range e.units).card := by
    rw [← comp_def, ← map_map]
    refine sum_card_le (fun t ht => ?_) ?_
    · obtain ⟨b, hb, rfl⟩ := mem_map.mp ht
      intro u hu
      have hin := (hmem b hb).2.inside
      have hu' := Finset.mem_Ico.mp hu
      exact Finset.mem_range.mpr (by omega)
    · rw [pairwise_map]
      have hpair := (pairwise_map.mp h.owned.token_token).sublist
        (filter_sublist (p := fun b => b.chunk = k))
      refine hpair.imp_of_mem fun {b b'} hb hb' hdisj => ?_
      rw [Finset.disjoint_left]
      intro u hu hu'
      have hin : (k, u) ∈ b.held L := ⟨(hmem b hb).1.symm, Finset.mem_Ico.mp hu⟩
      have hin' : (k, u) ∈ b'.held L := ⟨(hmem b' hb').1.symm, Finset.mem_Ico.mp hu'⟩
      exact Set.disjoint_left.mp hdisj hin hin'
  simp only [area, Nat.card_Ico, Nat.add_sub_cancel_left, Finset.card_range] at hsum
  rw [taken, sum_map_mul_right]
  exact Nat.mul_le_mul_right _ hsum

lemma sum_charge {l : List Block} (h : ∀ b ∈ l, ∃ e, b.Sound L e) :
    (l.map (Block.charge L k)).sum = BitVec.ofNat 32 (taken L l k) := by
  induction l with
  | nil => rfl
  | cons b l ih =>
    rw [forall_mem_cons] at h
    obtain ⟨e, he⟩ := h.1
    rw [map_cons, sum_cons, ih h.2, Block.charge]
    split
    case isTrue hk =>
      rw [he.rounded_eq, ← BitVec.ofNat_add]
      simp [taken, hk, Layout.units]
    case isFalse hk => simp [taken, hk]

omit [DecidableEq ι] in
lemma Inv.safe (h : Inv L s) : Safe L s where
  apart := by
    have hpair := pairwise_map.mp h.owned.token_token
    refine hpair.imp_of_mem fun {b b'} hb hb' hdisj => ?_
    obtain ⟨e, he⟩ := h.blocks b hb
    obtain ⟨e', he'⟩ := h.blocks b' hb'
    exact he.apart he' hdisj
  inside b hb := by
    obtain ⟨e, he⟩ := h.blocks b hb
    exact ⟨e, he.chunk, he.inside_extent⟩
  quiet i := by
    have hs := h.sound i
    constructor <;> intro hpc <;> rw [hpc] at hs <;> exact hs
  counted := by
    intro hidle k e hk
    obtain ⟨active, -, hsum⟩ := h.balanced
    have htaken := h.taken_le hk
    have hsize : e.size < 2 ^ 32 := e.size_lt
    have hbalance := hsum k
    simp only [hidle, Pc.pending, Finset.sum_const_zero, add_zero, sum_charge h.blocks,
      State.initial, hk, Option.map_some, Option.getD_some] at hbalance
    have hnat := congrArg BitVec.toNat hbalance
    simp only [BitVec.toNat_add, BitVec.toNat_ofNat] at hnat
    refine ⟨?_, htaken⟩
    omega

/-- For every interleaving of any number of calls: as long as no request passes the test on a
counter that is too large for the arithmetic, all blocks are inside their chunks and apart from each
other, nothing is reported, and the counters are exact whenever nobody is at work. -/
theorem interleaving_safe (L : Layout) (acts : List (Action ι))
    (h : Along (State.step L) (fun s a => admitted L s a = true) (State.initial L) acts) :
    Safe L (runFrom (State.step L) (State.initial L) acts) :=
  (h.invariant (P := Inv L) (fun _ act hs hok => hs.step act hok) inv_initial).safe

/-- Up to the last call the run that ends badly has nothing wrong. -/
theorem overdraft_admitted :
    Safe twoBytes (runFrom (State.step twoBytes) (State.initial twoBytes) (overdraft.take 20)) :=
  interleaving_safe twoBytes (overdraft.take 20) (by decide)

end Mini2440.Genalloc
