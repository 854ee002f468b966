import Mini2440.Genalloc.Bitmap

/-!
# Allocating from a pool

`gen_pool_alloc` of `lib/genalloc.c` with the algorithm `gen_pool_first_fit`, called when nobody
else uses the pool. The position `start_bit` is one variable for the whole loop over the chunks: a
search that fails leaves it behind the end of its chunk, and the search of the next chunk starts
there. So a gap is found in the first chunk that has one only if the failed searches before have not
left the position above it.
-/

namespace Mini2440.Genalloc

open List BitVec Library

/-! ## Chunks -/

/-- The memory of a chunk, in units of `2 ^ order` bytes, as `gen_pool_add_virt` records it. The
bitmap comes from `kmalloc`, which has no blocks above 32 megabytes. -/
structure Extent (order : Nat) where
  start : Nat
  units : Nat
  units_le : units ≤ 2 ^ 28
  size_lt : units * 2 ^ order < 2 ^ 32
  inside : start + units * 2 ^ order ≤ 2 ^ 32

variable {g : Nat}

namespace Extent

variable {order g' : Nat} (e : Extent order)

def size : Nat := e.units * 2 ^ order

def startAddr : Word := .ofNat 32 e.start

def endAddr : Word := .ofNat 32 (e.start + e.size)

/-- `end_bit = (chunk->end_addr - chunk->start_addr) >> order`. -/
def endBit : Word := (e.endAddr - e.startAddr) >>> order

def address (g : Nat) : Nat := e.start + g * 2 ^ order

def Apart (e f : Extent order) : Prop := e.start + e.size ≤ f.start ∨ f.start + f.size ≤ e.start

lemma toNat_endBit : e.endBit.toNat = e.units := by
  have hdiff : e.endAddr - e.startAddr = BitVec.ofNat 32 e.size := by
    rw [endAddr, startAddr, BitVec.ofNat_add, BitVec.add_comm, BitVec.add_sub_cancel]
  have hsize : e.size < 2 ^ 32 := e.size_lt
  rw [endBit, hdiff, toNat_ushiftRight, toNat_ofNat, Nat.mod_eq_of_lt hsize,
    Nat.shiftRight_eq_div_pow, size, Nat.mul_div_cancel _ (Nat.two_pow_pos order)]

lemma address_lt (hg : g < e.units) : e.address g + 2 ^ order ≤ e.start + e.size := by
  have hmul : (g + 1) * 2 ^ order ≤ e.units * 2 ^ order := Nat.mul_le_mul_right _ hg
  rw [Nat.add_mul] at hmul
  simp only [address, size]
  omega

lemma address_eq (hg : g < e.units) {b : Word} (hb : b.toNat = g) :
    (e.startAddr + b <<< order).toNat = e.address g := by
  have hlt := e.address_lt hg
  have hin : e.start + e.size ≤ 2 ^ 32 := e.inside
  have hpos : 0 < 2 ^ order := Nat.two_pow_pos order
  have hshift : b <<< order = BitVec.ofNat 32 (g * 2 ^ order) := by
    apply BitVec.eq_of_toNat_eq
    rw [toNat_shiftLeft, hb, Nat.shiftLeft_eq, toNat_ofNat]
  rw [hshift, startAddr, ← ofNat_add, toNat_ofNat, Nat.mod_eq_of_lt]
  · rfl
  · simp only [address] at hlt
    omega

lemma address_injective (h : e.address g = e.address g') : g = g' := by
  have hpos : 0 < 2 ^ order := Nat.two_pow_pos order
  simp only [address, Nat.add_left_cancel_iff] at h
  exact Nat.eq_of_mul_eq_mul_right hpos h

lemma Apart.address_ne {e f : Extent order} (h : e.Apart f) (hg : g < e.units)
    (hg' : g' < f.units) : e.address g ≠ f.address g' := by
  have hpos : 0 < 2 ^ order := Nat.two_pow_pos order
  have hlt := e.address_lt hg
  have hlt' := f.address_lt hg'
  rcases h with h | h
  · have hle : f.start ≤ f.address g' := Nat.le_add_right _ _
    omega
  · have hle : e.start ≤ e.address g := Nat.le_add_right _ _
    omega

end Extent

/-- `nbits = (size + (1UL << order) - 1) >> order`. -/
def nbits (order : Nat) (size : Word) : Word := (size + (1#32 <<< order) - 1#32) >>> order

def unitsFor (order size : Nat) : Nat := (size + 2 ^ order - 1) / 2 ^ order

variable {order n size : Nat}

/-- The sum does not wrap around for a size that is not in the last unit of the address space. -/
lemma toNat_nbits {size : Word} (ho : order < 32) (h : size.toNat + 2 ^ order ≤ 2 ^ 32) :
    (nbits order size).toNat = unitsFor order size.toNat := by
  have hpow : 2 ^ order < 2 ^ 32 := Nat.pow_lt_pow_right (by decide) ho
  have hpos : 0 < 2 ^ order := Nat.two_pow_pos order
  have hone : (1#32 <<< order).toNat = 2 ^ order := by bv_omega
  have hsum : size + (1#32 <<< order) - 1#32 = BitVec.ofNat 32 (size.toNat + 2 ^ order - 1) :=
    by bv_omega
  rw [nbits, hsum, toNat_ushiftRight, toNat_ofNat, Nat.mod_eq_of_lt (by omega),
    Nat.shiftRight_eq_div_pow, unitsFor]

lemma unitsFor_le_iff : unitsFor order size ≤ n ↔ size ≤ n * 2 ^ order := by
  have hpos : 0 < 2 ^ order := Nat.two_pow_pos order
  rw [unitsFor, ← Nat.lt_succ_iff, Nat.div_lt_iff_lt_mul hpos, Nat.succ_mul]
  omega

lemma unitsFor_pos (h : 0 < size) : 0 < unitsFor order size := by
  by_contra hzero
  have hle : unitsFor order size ≤ 0 := by omega
  rw [unitsFor_le_iff] at hle
  omega

structure Chunk (order : Nat) extends Extent order where
  avail : Word
  bits : Map

variable {c : Chunk order}

namespace Chunk

def freeUnits (c : Chunk order) : Nat := (range c.units).countP fun b => !bit c.bits b

/-- The counter is exact, as it is when no call is in progress. -/
def Counted (c : Chunk order) : Prop := c.avail.toNat = c.freeUnits * 2 ^ order

/-- So many units from `g` on are free. -/
def Gap (c : Chunk order) (n g : Nat) : Prop := Genalloc.Gap c.bits c.units n g

lemma freeUnits_le (c : Chunk order) : c.freeUnits ≤ c.units := by
  simpa [freeUnits] using countP_le_length (p := fun b => !bit c.bits b) (l := range c.units)

lemma Gap.le_freeUnits (h : c.Gap n g) : n ≤ c.freeUnits := by
  obtain ⟨-, hle, hfree⟩ := h
  have hsub : (range' g n).Sublist (range c.units) := by
    have hsplit : range c.units =
        range' 0 g ++ (range' g n ++ range' (g + n) (c.units - (g + n))) := by
      have hleft := range'_append_1 (s := 0) (m := g) (n := c.units - g)
      have hright := range'_append_1 (s := g) (m := n) (n := c.units - (g + n))
      rw [range_eq_range', hright, show n + (c.units - (g + n)) = c.units - g by omega]
      rw [zero_add] at hleft
      rw [hleft, show g + (c.units - g) = c.units by omega]
    rw [hsplit]
    exact (sublist_append_left _ _).trans (sublist_append_right _ _)
  have hall : (range' g n).countP (fun b => !bit c.bits b) = n := by
    rw [countP_eq_length.mpr]
    · simp
    · intro b hb
      rw [mem_range'_1] at hb
      simp [hfree b hb.1 hb.2]
  rw [← hall]
  exact hsub.countP_le

lemma Gap.lt_units (h : c.Gap n g) : g < c.units := by
  have hpos := h.1
  have hle := h.2.1
  omega

/-! ## The loop over the chunks -/

/-- The part of the loop for one chunk from `retry` on: the new `start_bit`, and if units have been
claimed, the chunk and the result. `none` stands for a `BUG_ON`, for an access in front of the
bitmap, and for more than the given number of attempts. -/
def claim (nbits : Word) : Nat → Chunk order → Word → Option (Word × Option (Chunk order × Word))
  | 0, _, _ => none
  | fuel + 1, c, startBit => do
    let startBit ← genPoolFirstFit c.bits c.endBit startBit nbits
    if c.endBit.sle startBit then
      return (startBit, none)
    if startBit.slt 0#32 then none
    let (bits, remain) ← bitmapSetLl c.bits startBit.toNat nbits.toInt
    if remain ≠ 0 then
      let (bits, remain) ← bitmapClearLl bits startBit.toNat (nbits.toInt - remain)
      if remain ≠ 0 then none
      else claim nbits fuel { c with bits := bits } startBit
    else
      let addr := c.startAddr + startBit <<< order
      return (startBit, some ({ c with bits := bits, avail := c.avail - nbits <<< order }, addr))

end Chunk

/-- The loop of `gen_pool_alloc` over the chunks. -/
def allocLoop (size nbits : Word) :
    List (Chunk order) → Word → Option (List (Chunk order) × Word)
  | [], _ => some ([], 0)
  | c :: cs, startBit =>
    if c.avail < size then
      (allocLoop size nbits cs startBit).map fun (cs, addr) => (c :: cs, addr)
    else
      match c.claim nbits 2 startBit with
      | none => none
      | some (_, some (c, addr)) => some (c :: cs, addr)
      | some (startBit, none) =>
        (allocLoop size nbits cs startBit).map fun (cs, addr) => (c :: cs, addr)

/-- A pool that no call is in progress on: its chunks are apart from each other, and each counter is
exact. -/
structure Pool where
  order : Nat
  order_lt : order < 32
  chunks : List (Chunk order)
  apart : chunks.Pairwise fun c d => c.Apart d.toExtent
  counted : ∀ c ∈ chunks, c.Counted

/-- `gen_pool_alloc`: the chunks and the result. -/
def genPoolAlloc (p : Pool) (size : Word) : Option (List (Chunk p.order) × Word) :=
  if size = 0 then some (p.chunks, 0)
  else allocLoop size (nbits p.order size) p.chunks 0

/-! ## What the loop finds -/

variable {size : Word}

namespace Chunk

/-- A request that passes the test on the counter needs no more units than the chunk has. -/
lemma Counted.nbits_eq (hc : c.Counted) (ho : order < 32) (hle : ¬ c.avail < size) :
    (nbits order size).toNat = unitsFor order size.toNat ∧ unitsFor order size.toNat ≤ c.units := by
  rw [lt_def, not_lt, hc] at hle
  have hunits := (unitsFor_le_iff.mpr hle).trans c.freeUnits_le
  refine ⟨toNat_nbits ho ?_, hunits⟩
  -- The size of the chunk is a multiple of the unit and below `2 ^ 32`, which is one as well.
  have hsize := c.size_lt
  have hsplit : 2 ^ 32 = 2 ^ (32 - order) * 2 ^ order := by
    rw [← Nat.pow_add, Nat.sub_add_cancel (by omega)]
  rw [hsplit] at hsize ⊢
  have hlt : c.units < 2 ^ (32 - order) := Nat.lt_of_mul_lt_mul_right hsize
  have hmul : (c.units + 1) * 2 ^ order ≤ 2 ^ (32 - order) * 2 ^ order := Nat.mul_le_mul_right _ hlt
  have hfree : c.freeUnits * 2 ^ order ≤ c.units * 2 ^ order :=
    Nat.mul_le_mul_right _ c.freeUnits_le
  rw [Nat.add_mul] at hmul
  omega

lemma Counted.not_avail_lt (hc : c.Counted)
    (hg : c.Gap (unitsFor order size.toNat) g) : ¬ c.avail < size := by
  rw [lt_def, not_lt, hc]
  exact unitsFor_le_iff.mp hg.le_freeUnits

lemma toInt_of_lt {x : Word} (h : x.toNat < 2 ^ 31) : x.toInt = x.toNat :=
  toInt_eq_toNat_of_lt (by omega)

/-- The value of `start_bit` after a search for `n` units from `s` on that has failed. -/
def leftAt (c : Chunk order) (n s : Nat) : Nat := giveUp c.bits c.units n s + n

/-- With nobody else at work, the chunk is left if there is no gap from the start of the search on,
and the lowest one is claimed otherwise. -/
lemma claim_spec (hc : c.Counted) (ho : order < 32) (hsize : 0 < size.toNat)
    (hle : ¬ c.avail < size) (fuel : Nat) (s : Word) :
    ∃ r,
      ((∀ g, s.toNat ≤ g → ¬ c.Gap (unitsFor order size.toNat) g) ∧
          c.claim (nbits order size) (fuel + 1) s = some (r, none) ∧
          r.toNat = c.leftAt (unitsFor order size.toNat) s.toNat) ∨
        (IsLeast {g | s.toNat ≤ g ∧ c.Gap (unitsFor order size.toNat) g} r.toNat ∧
          ∃ c' addr, c.claim (nbits order size) (fuel + 1) s = some (r, some (c', addr)) ∧
            addr.toNat = c.address r.toNat) := by
  obtain ⟨hn, hunits⟩ := hc.nbits_eq ho hle
  have hsmall := c.units_le
  have hpos : 0 < unitsFor order size.toNat := unitsFor_pos hsize
  obtain ⟨r, hr, hfit⟩ := genPoolFirstFit_spec c.bits s (by omega : 0 < (nbits order size).toNat)
    (by rw [c.toNat_endBit]; omega : c.endBit.toNat + _ < 2 ^ 32)
  rw [c.toNat_endBit, hn] at hfit
  have hend : c.endBit.toInt = c.units := by
    rw [toInt_of_lt (by rw [c.toNat_endBit]; omega), c.toNat_endBit]
  refine ⟨r, ?_⟩
  rcases hfit with ⟨hs, -, hg, hleast⟩ | ⟨hbig, hval, hnone⟩
  · have hlt : r.toNat < c.units := Gap.lt_units hg
    have hrint : r.toInt = r.toNat := toInt_of_lt (by omega)
    have hnint : (nbits order size).toInt = (unitsFor order size.toNat : Nat) := by
      rw [toInt_of_lt (by omega), hn]
    obtain ⟨bits, hset⟩ := bitmapSetLl_free hg.2.2
    refine .inr ⟨⟨⟨hs, hg⟩, fun g hg => hleast g hg.1 (one_dvd g) hg.2⟩, ?_⟩
    refine ⟨{ c with bits := bits, avail := c.avail - nbits order size <<< order }, _, ?_,
      c.address_eq hlt rfl⟩
    have hsle : c.endBit.sle r = false := by
      rw [sle_eq_decide]
      simp; omega
    have hslt : r.slt 0#32 = false := by
      rw [slt_eq_decide, hrint]
      simp
    simp [claim, hr, hsle, hslt, hnint, hset]
  · have hub : giveUp c.bits c.units (unitsFor order size.toNat) s.toNat ≤ c.units := nextIndex_le
    have hrint : r.toInt = r.toNat := toInt_of_lt (by omega)
    refine .inl ⟨fun g hs => hnone g hs (one_dvd g), ?_, hval rfl⟩
    have hsle : c.endBit.sle r := by
      rw [sle_eq_decide]
      simp; omega
    simp [claim, hr, hsle]

end Chunk

/-- The position at which the search of a chunk starts: every chunk before it that passes the test
on the counter moves it to where its own search is left. -/
def searchStart (size : Word) : List (Chunk order) → Nat → Nat
  | [], s => s
  | c :: cs, s =>
    if c.avail < size then searchStart size cs s
    else searchStart size cs (c.leftAt (unitsFor order size.toNat) s)

/-- The result of the loop, chunk by chunk: the lowest gap from the position of the search on, the
position moving on with every search that fails. -/
def Outcome (size : Word) : List (Chunk order) → Nat → Word → Prop
  | [], _, r => r = 0
  | c :: cs, s, r =>
    (c.avail < size ∧ Outcome size cs s r) ∨
      (¬ c.avail < size ∧ (∀ g, s ≤ g → ¬ c.Gap (unitsFor order size.toNat) g) ∧
        Outcome size cs (c.leftAt (unitsFor order size.toNat) s) r) ∨
      (¬ c.avail < size ∧ ∃ g, IsLeast {g | s ≤ g ∧ c.Gap (unitsFor order size.toNat) g} g ∧
        r.toNat = c.address g)

lemma allocLoop_outcome (ho : order < 32) (hsize : 0 < size.toNat) {cs : List (Chunk order)}
    (hc : ∀ c ∈ cs, c.Counted) (s : Word) :
    ∃ cs' r, allocLoop size (nbits order size) cs s = some (cs', r) ∧
      Outcome size cs s.toNat r := by
  induction cs generalizing s with
  | nil => exact ⟨[], 0, rfl, rfl⟩
  | cons c cs ih =>
    rw [forall_mem_cons] at hc
    by_cases hlt : c.avail < size
    · obtain ⟨cs', r, hrun, hout⟩ := ih hc.2 s
      exact ⟨c :: cs', r, by simp [allocLoop, hlt, hrun], .inl ⟨hlt, hout⟩⟩
    · obtain ⟨b, ⟨hnone, hclaim, hb⟩ | ⟨hleast, c', addr, hclaim, haddr⟩⟩ :=
        Chunk.claim_spec hc.1 ho hsize hlt 1 s
      · obtain ⟨cs', r, hrun, hout⟩ := ih hc.2 b
        rw [hb] at hout
        exact ⟨c :: cs', r, by simp [allocLoop, hlt, hclaim, hrun], .inr (.inl ⟨hlt, hnone, hout⟩)⟩
      · refine ⟨c' :: cs, addr, by simp [allocLoop, hlt, hclaim], .inr (.inr ⟨hlt, ?_⟩)⟩
        exact ⟨_, hleast, haddr⟩

variable {cs pre post : List (Chunk order)} {c : Chunk order} {r : Word} {s g : Nat}

lemma Outcome.eq_zero (h : Outcome size cs s r)
    (hnone : ∀ c ∈ cs, ∀ g, ¬ c.Gap (unitsFor order size.toNat) g) : r = 0 := by
  induction cs generalizing s with
  | nil => exact h
  | cons c cs ih =>
    rw [forall_mem_cons] at hnone
    rcases h with ⟨-, h⟩ | ⟨-, -, h⟩ | ⟨-, g, hg, -⟩
    · exact ih h hnone.2
    · exact ih h hnone.2
    · exact absurd hg.1.2 (hnone.1 g)

lemma Outcome.mem (h : Outcome size cs s r) (hr : r ≠ 0) :
    ∃ d ∈ cs, ∃ g, g < d.units ∧ r.toNat = d.address g := by
  induction cs generalizing s with
  | nil => exact absurd h hr
  | cons c cs ih =>
    rcases h with ⟨-, h⟩ | ⟨-, -, h⟩ | ⟨-, g, hg, haddr⟩
    · obtain ⟨d, hd, hin⟩ := ih h
      exact ⟨d, mem_cons_of_mem _ hd, hin⟩
    · obtain ⟨d, hd, hin⟩ := ih h
      exact ⟨d, mem_cons_of_mem _ hd, hin⟩
    · exact ⟨c, mem_cons_self, g, Chunk.Gap.lt_units hg.1.2, haddr⟩

lemma Outcome.skip (h : Outcome size (pre ++ cs) s r)
    (hnone : ∀ c ∈ pre, ∀ g, ¬ c.Gap (unitsFor order size.toNat) g) :
    Outcome size cs (searchStart size pre s) r := by
  induction pre generalizing s with
  | nil => exact h
  | cons c pre ih =>
    rw [forall_mem_cons] at hnone
    rcases h with ⟨hlt, h⟩ | ⟨hlt, -, h⟩ | ⟨-, g, hg, -⟩
    · simpa [searchStart, hlt] using ih h hnone.2
    · simpa [searchStart, hlt] using ih h hnone.2
    · exact absurd hg.1.2 (hnone.1 g)

/-! ## Completeness -/

/-- What is promised of the result: 0 if no chunk has enough free units that follow one another, and
the lowest sufficient gap of the first chunk that has one otherwise. -/
def Complete (p : Pool) (size r : Word) : Prop :=
  ((∀ c ∈ p.chunks, ∀ g, ¬ c.Gap (unitsFor p.order size.toNat) g) → r = 0) ∧
    ∀ pre c post g, p.chunks = pre ++ c :: post →
      (∀ d ∈ pre, ∀ g, ¬ d.Gap (unitsFor p.order size.toNat) g) →
      IsLeast {g | c.Gap (unitsFor p.order size.toNat) g} g → r ≠ 0 ∧ r.toNat = c.address g

/-- The search of the first chunk with a gap starts no later than at its lowest one, and that one is
not at address 0. -/
def Reached (p : Pool) (size : Word) : Prop :=
  ∀ pre c post g, p.chunks = pre ++ c :: post →
    (∀ d ∈ pre, ∀ g, ¬ d.Gap (unitsFor p.order size.toNat) g) →
    IsLeast {g | c.Gap (unitsFor p.order size.toNat) g} g →
    searchStart size pre 0 ≤ g ∧ c.address g ≠ 0

lemma Outcome.complete_iff {p : Pool} (h : Outcome size p.chunks 0 r) :
    Complete p size r ↔ Reached p size := by
  constructor
  · rintro ⟨-, hfirst⟩ pre c post g hsplit hpre hg
    obtain ⟨hr, haddr⟩ := hfirst pre c post g hsplit hpre hg
    have hapart := p.apart
    have hcounted := p.counted c (by simp [hsplit])
    rw [hsplit] at h hapart
    rcases h.skip hpre with ⟨hlt, -⟩ | ⟨-, -, hpost⟩ | ⟨-, g', hg', haddr'⟩
    · exact absurd hlt (hcounted.not_avail_lt hg.1)
    · -- The result is in a later chunk.
      obtain ⟨d, hd, g', hlt', haddr'⟩ := hpost.mem hr
      have hcd := (pairwise_cons.mp (pairwise_append.mp hapart).2.1).1 d hd
      exact absurd (haddr.symm.trans haddr') (hcd.address_ne (Chunk.Gap.lt_units hg.1) hlt')
    · have heq : g = g' := c.address_injective (haddr.symm.trans haddr')
      refine ⟨heq ▸ hg'.1.1, fun hzero => hr ?_⟩
      apply eq_of_toNat_eq
      rw [haddr, hzero]
      rfl
  · intro hreach
    refine ⟨h.eq_zero, fun pre c post g hsplit hpre hg => ?_⟩
    obtain ⟨hle, hne⟩ := hreach pre c post g hsplit hpre hg
    have hcounted := p.counted c (by simp [hsplit])
    rw [hsplit] at h
    rcases h.skip hpre with ⟨hlt, -⟩ | ⟨-, hnone, -⟩ | ⟨-, g', hg', haddr⟩
    · exact absurd hlt (hcounted.not_avail_lt hg.1)
    · exact absurd hg.1 (hnone g hle)
    · have heq : g' = g := le_antisymm (hg'.2 ⟨hle, hg.1⟩) (hg.2 hg'.1.2)
      rw [heq] at haddr
      refine ⟨fun hzero => hne ?_, haddr⟩
      rw [← haddr, hzero]
      rfl

/-- A call on a pool that nobody else uses returns, and the result is as promised exactly if the
search reaches the lowest gap of the first chunk that has one. -/
theorem genPoolAlloc_complete_iff (p : Pool) (size : Word) :
    ∃ cs r, genPoolAlloc p size = some (cs, r) ∧ (Complete p size r ↔ Reached p size) := by
  by_cases hzero : size = 0
  · -- No gap is empty, so the condition and the promise are both about nothing.
    have hnone {c : Chunk p.order} {g : Nat} : ¬ c.Gap (unitsFor p.order size.toNat) g := by
      rintro ⟨hpos, -⟩
      have hle : unitsFor p.order size.toNat ≤ 0 := unitsFor_le_iff.mpr (by simp [hzero])
      omega
    refine ⟨p.chunks, 0, if_pos hzero, fun _ pre c post g _ _ hg => absurd hg.1 hnone, fun _ => ?_⟩
    exact ⟨fun _ => rfl, fun pre c post g _ _ hg => absurd hg.1 hnone⟩
  · have hpos : 0 < size.toNat := by bv_omega
    obtain ⟨cs, r, hrun, hout⟩ := allocLoop_outcome p.order_lt hpos p.counted 0
    exact ⟨cs, r, by rw [genPoolAlloc, if_neg hzero]; exact hrun, hout.complete_iff⟩

/-! ## A gap that is missed -/

def fourUnits (start : Nat) (h : start + 4 ≤ 2 ^ 32) (avail used : Word) : Chunk 0 where
  start := start
  units := 4
  units_le := by decide
  size_lt := by decide
  inside := h
  avail := avail
  bits _ := used

lemma order_zero_lt : 0 < 32 := by decide

/-- The second unit of the first chunk is used, and the second chunk is free. -/
def twoChunks : Pool where
  order := 0
  order_lt := order_zero_lt
  chunks := [fourUnits 0x1000 (by decide) 3#32 0b0010#32, fourUnits 0x2000 (by decide) 4#32 0#32]
  apart := by simp [fourUnits, Extent.Apart, Extent.size]
  counted := by simp [Chunk.Counted]; decide

/-- Three free units are asked for. The first chunk has three, but not in a row, and the search of
the second one starts behind its end. -/
theorem twoChunks_missed :
    (genPoolAlloc twoChunks 3).map Prod.snd = some 0 ∧ ¬ Complete twoChunks 3 0 := by
  refine ⟨by decide, fun h => ?_⟩
  have hused (g : Nat) : ¬ (fourUnits 0x1000 (by decide) 3#32 0b0010#32).Gap 3 g := by
    rintro ⟨-, hle, hfree⟩
    have hle' : g + 3 ≤ 4 := hle
    exact absurd (hfree 1 (by omega) (by omega)) (by decide)
  have hfree : (fourUnits 0x2000 (by decide) 4#32 0#32).Gap 3 0 :=
    ⟨by decide, by decide, fun b _ _ => by simp [fourUnits, bit]⟩
  have hfirst := h.2 [fourUnits 0x1000 (by decide) 3#32 0b0010#32]
    (fourUnits 0x2000 (by decide) 4#32 0#32) [] 0 rfl (fun d hd => mem_singleton.mp hd ▸ hused)
    ⟨hfree, fun g _ => Nat.zero_le g⟩
  exact hfirst.1 rfl

end Mini2440.Genalloc
