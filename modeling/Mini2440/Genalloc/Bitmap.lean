import Mini2440.Library.Align
import Mini2440.Library.Bitmap
import Mini2440.Library.Words

/-!
# The bitmap of a chunk

The functions of `lib/genalloc.c` and `lib/bitmap.c` on the bitmap in which a chunk records its used
units. `bitmap_set_ll` and `bitmap_clear_ll` go through the words of a range; `Cursor` is what their
loops keep between two words. `bitmap_find_next_zero_area` searches for free units that follow one
another.
-/

namespace Mini2440.Genalloc

open BitVec Library

abbrev Map := Nat → Word

def firstWordMask (start : Nat) : Word := ~~~0#32 <<< (start % 32)

def lastWordMask (nbits : Int) : Word :=
  if nbits % 32 ≠ 0 then (1#32 <<< (nbits % 32).toNat) - 1#32 else ~~~0#32

lemma getLsbD_firstWordMask {start j : Nat} (hj : j < 32) :
    (firstWordMask start).getLsbD j = decide (start % 32 ≤ j) := by
  have hlt : j - start % 32 < 32 := by omega
  rw [firstWordMask, getLsbD_shiftLeft, getLsbD_not]
  by_cases h : start % 32 ≤ j
  · simp [hj, hlt, h]
  · simp [Nat.lt_of_not_le h]

lemma getLsbD_lastWordMask {n j : Nat} (hn : n % 32 ≠ 0) :
    (lastWordMask n).getLsbD j = decide (j < n % 32) := by
  have hcast : ((n : Int) % 32).toNat = n % 32 := by omega
  have hne : (n : Int) % 32 ≠ 0 := by omega
  have hlt : n % 32 < 32 := by bv_omega
  have hpow : 2 ^ (n % 32) < 2 ^ 32 := Nat.pow_lt_pow_right (by decide) hlt
  have hpos : 0 < 2 ^ (n % 32) := Nat.two_pow_pos _
  have hval : ((1#32 <<< (n % 32)) - 1#32).toNat = 2 ^ (n % 32) - 1 := by bv_omega
  rw [lastWordMask, if_pos hne, hcast, getLsbD, hval, Nat.testBit_two_pow_sub_one]

/-! ## Going through a range -/

/-- The variables of the loops of `bitmap_set_ll` and `bitmap_clear_ll`. -/
structure Cursor where
  /-- The distance of `p` from the map. -/
  word : Nat
  nr : Int
  /-- `bits_to_set` or `bits_to_clear`. -/
  bits : Int
  mask : Word
  size : Int
  deriving DecidableEq

namespace Cursor

def enter (start : Nat) (nr : Int) : Cursor where
  word := start / 32
  nr := nr
  bits := 32 - (start % 32 : Nat)
  mask := firstWordMask start
  size := start + nr

/-- The mask for the next call of `set_bits_ll` or `clear_bits_ll`; `none` if the function returns 0
without another one. -/
def current (c : Cursor) : Option Word :=
  if 0 ≤ c.nr - c.bits then some c.mask
  else if c.nr ≠ 0 then some (c.mask &&& lastWordMask c.size)
  else none

/-- The variables after a call that has been successful. The one after the loop is the last. -/
def advance (c : Cursor) : Cursor :=
  if 0 ≤ c.nr - c.bits then
    { c with nr := c.nr - c.bits, bits := 32, mask := ~~~0#32, word := c.word + 1 }
  else { c with nr := 0 }

/-- What is left to do are the positions from `pos` to `stop`. -/
structure Covers (c : Cursor) (pos stop : Nat) : Prop where
  le : pos ≤ stop
  size : c.size = stop
  nr : c.nr = stop - pos
  bits : 0 < c.bits
  here : pos < stop →
    c.word = pos / 32 ∧ c.bits = 32 - (pos % 32 : Nat) ∧ c.mask = firstWordMask pos

variable {c : Cursor} {pos stop start n : Nat}

lemma covers_enter (start n : Nat) : Covers (enter start n) start (start + n) where
  le := by omega
  size := by simp [enter]
  nr := by simp [enter]
  bits := by simp only [enter]; omega
  here _ := ⟨rfl, rfl, rfl⟩

/-- The next word takes some of the positions, and the rest are left for later. -/
lemma Covers.current_eq (h : Covers c pos stop) (hlt : pos < stop) :
    ∃ m mid, c.current = some m ∧ pos < mid ∧ mid ≤ stop ∧
      (∀ b, InMask c.word m b ↔ pos ≤ b ∧ b < mid) ∧ Covers c.advance mid stop := by
  obtain ⟨hword, hbits, hmask⟩ := h.here hlt
  have hnr := h.nr
  by_cases hfull : 0 ≤ c.nr - c.bits
  · -- The rest of the word is in the range.
    refine ⟨c.mask, pos / 32 * 32 + 32, by rw [current, if_pos hfull], by omega, by omega,
      fun b => ?_, ?_⟩
    · rw [InMask, hmask, getLsbD_firstWordMask (by omega), decide_eq_true_eq]
      omega
    · rw [advance, if_pos hfull]
      refine ⟨by omega, h.size, by simp only; omega, by simp, fun _ => ?_⟩
      refine ⟨by simp only; omega, ?_, ?_⟩
      · simp
      · simp [firstWordMask]
  · have hne : c.nr ≠ 0 := by omega
    have hmod : stop % 32 ≠ 0 := by omega
    refine ⟨c.mask &&& lastWordMask c.size, stop, by rw [current, if_neg hfull, if_pos hne], hlt,
      le_rfl, fun b => ?_, ?_⟩
    · rw [InMask, hmask, h.size, getLsbD_and, getLsbD_firstWordMask (by omega),
        getLsbD_lastWordMask hmod, Bool.and_eq_true, decide_eq_true_eq, decide_eq_true_eq]
      omega
    · rw [advance, if_neg hfull]
      exact ⟨le_rfl, h.size, by simp, h.bits, fun h => absurd h (by omega)⟩

lemma Covers.current_eq_none (h : Covers c stop stop) : c.current = none := by
  have hnr := h.nr
  have hbits := h.bits
  rw [current, if_neg (by omega), if_neg (by omega)]

end Cursor

/-- The loop of `bitmap_set_ll` when nobody else uses the bitmap: the bitmap and the number of bits
that remain. -/
def setLoop : Nat → Map → Cursor → Option (Map × Int)
  | 0, _, _ => none
  | fuel + 1, map, c =>
    match c.current with
    | none => some (map, 0)
    | some mask =>
      -- `set_bits_ll` returns `-EBUSY`
      if map c.word &&& mask ≠ 0 then some (map, c.nr)
      else setLoop fuel (setMask map c.word mask) c.advance

/-- The loop of `bitmap_clear_ll` when nobody else uses the bitmap. -/
def clearLoop : Nat → Map → Cursor → Option (Map × Int)
  | 0, _, _ => none
  | fuel + 1, map, c =>
    match c.current with
    | none => some (map, 0)
    | some mask =>
      -- `clear_bits_ll` returns `-EBUSY`
      if map c.word &&& mask ≠ mask then some (map, c.nr)
      else clearLoop fuel (clearMask map c.word mask) c.advance

/-- `bitmap_set_ll`. Each round takes at least one of the bits. -/
def bitmapSetLl (map : Map) (start : Nat) (nr : Int) : Option (Map × Int) :=
  setLoop (nr.toNat + 2) map (.enter start nr)

def bitmapClearLl (map : Map) (start : Nat) (nr : Int) : Option (Map × Int) :=
  clearLoop (nr.toNat + 2) map (.enter start nr)

lemma setLoop_free {c : Cursor} {pos stop fuel : Nat} {map : Map} (hc : c.Covers pos stop)
    (hfuel : stop - pos < fuel) (hfree : ∀ b, pos ≤ b → b < stop → bit map b = false) :
    ∃ map', setLoop fuel map c = some (map', 0) := by
  induction fuel generalizing map c pos with
  | zero => omega
  | succ fuel ih =>
    rcases eq_or_lt_of_le hc.le with rfl | hlt
    · exact ⟨map, by rw [setLoop, hc.current_eq_none]⟩
    · obtain ⟨m, mid, hm, hmid, hle, hin, hadv⟩ := hc.current_eq hlt
      have hclear : map c.word &&& m = 0 :=
        and_mask_eq_zero_iff.mpr fun b hb => hfree b ((hin b).mp hb).1 (by grind)
      have hrest (b : Nat) (hb : mid ≤ b) (hlt : b < stop) :
          bit (setMask map c.word m) b = false := by
        rw [bit_setMask, hfree b (by omega) hlt]
        simp [hin]; omega
      obtain ⟨map', hrun⟩ := ih hadv (by omega) hrest
      exact ⟨map', by rw [setLoop, hm]; simpa [hclear] using hrun⟩

lemma bitmapSetLl_free {start n : Nat} {map : Map}
    (hfree : ∀ b, start ≤ b → b < start + n → bit map b = false) :
    ∃ map', bitmapSetLl map start n = some (map', 0) :=
  setLoop_free (Cursor.covers_enter start n) (by omega) hfree

/-! ## Searching for free units -/

def findNextZeroBit (map : Map) (size offset : Word) : Word :=
  .ofNat 32 (nextIndex (fun b => !bit map b) size.toNat offset.toNat)

def findNextBit (map : Map) (size offset : Word) : Word :=
  .ofNat 32 (nextIndex (bit map) size.toNat offset.toNat)

/-- The loop of `bitmap_find_next_zero_area`. -/
def zeroAreaLoop (map : Map) (size nr alignMask : Word) : Nat → Word → Option Word
  | 0, _ => none
  | fuel + 1, start =>
    let found := findNextZeroBit map size start
    -- `__ALIGN_MASK`
    let index := (found + alignMask) &&& ~~~alignMask
    let stop := index + nr
    if size < stop then some stop
    else
      let i := findNextBit map stop index
      if i < stop then zeroAreaLoop map size nr alignMask fuel (i + 1) else some index

/-- `bitmap_find_next_zero_area`. The position of the search goes up in every round. -/
def bitmapFindNextZeroArea (map : Map) (size start nr alignMask : Word) : Option Word :=
  zeroAreaLoop map size nr alignMask (size.toNat + 2) start

def genPoolFirstFit (map : Map) (size start nr : Word) : Option Word :=
  bitmapFindNextZeroArea map size start nr 0

/-- A non-empty sequence of free units below `size`. -/
def Gap (map : Map) (size n g : Nat) : Prop :=
  0 < n ∧ g + n ≤ size ∧ ∀ b, g ≤ b → b < g + n → bit map b = false

variable {map : Map} {size offset start nr : Word}

lemma toNat_ofNat_nextIndex {p : Nat → Bool} {lo : Nat} :
    (BitVec.ofNat 32 (nextIndex p size.toNat lo)).toNat = nextIndex p size.toNat lo := by
  rw [BitVec.toNat_ofNat, Nat.mod_eq_of_lt]
  exact lt_of_le_of_lt (nextIndex_le) size.isLt

/-- Where a search for `n` units from `s` on gives up: at the first free one if fewer than `n` are
left from `s` on, and otherwise at the first free one behind the first used one of the last `n`. -/
def giveUp (map : Map) (size n s : Nat) : Nat :=
  nextIndex (fun b => !bit map b) size
    (if s + n ≤ size then nextIndex (bit map) size (size - n) else s)

lemma giveUp_eq {u n s : Nat} (h : u < nextIndex (fun b => !bit map b) u s + n) :
    giveUp map u n s = nextIndex (fun b => !bit map b) u s := by
  unfold giveUp
  split_ifs with hfit
  · -- Everything from `s` to the unit that is found is used, also the first of the last `n`.
    obtain ⟨hge, hle, hpast, hat⟩ := nextIndex_spec (fun b => !bit map b) (by omega : s ≤ u)
    have hused : nextIndex (bit map) u (u - n) = u - n :=
      nextIndex_eq le_rfl (by omega) (fun j _ _ => by omega)
        fun _ => by simpa using hpast (u - n) (by omega) (by omega)
    rw [hused]
    exact nextIndex_eq (by omega) hle (fun j hj => hpast j (by omega)) hat
  · rfl

/-- The search goes on behind the used unit `i` that ends free units which are too few. -/
lemma giveUp_succ {u n s f i : Nat} (hs : s ≤ f) (hf : f + n ≤ u) (hlt : i < f + n)
    (hfree : ∀ b, f ≤ b → b < i → bit map b = false) (hi : bit map i) :
    giveUp map u n (i + 1) = giveUp map u n s := by
  unfold giveUp
  rw [if_pos (by omega : s + n ≤ u)]
  split_ifs with hfit
  · rfl
  · have hused : nextIndex (bit map) u (u - n) = i :=
      nextIndex_eq (by omega) (by omega) (fun b hb => hfree b (by omega)) fun _ => hi
    rw [hused, nextIndex_step (by omega : i < u)]
    simp [hi]

/-- What a round of the search looks at: the first multiple of the power of two from the next free
unit on. No gap comes before it. -/
lemma candidate_spec (map : Map) (start nr : Word) {mask : Word} {k : Nat}
    (hmask : mask.toNat = 2 ^ k - 1) (halign : size.toNat + (2 ^ k - 1) < 2 ^ 32) :
    let index := (findNextZeroBit map size start + mask) &&& ~~~mask
    2 ^ k ∣ index.toNat ∧ index.toNat ≤ (size.toNat + (2 ^ k - 1)) / 2 ^ k * 2 ^ k ∧
      (index.toNat < size.toNat → start.toNat ≤ index.toNat) ∧
      (∀ g, start.toNat ≤ g → 2 ^ k ∣ g → Gap map size.toNat nr.toNat g → index.toNat ≤ g) ∧
      (k = 0 → index.toNat = nextIndex (fun b => !bit map b) size.toNat start.toNat) := by
  intro index
  let found := nextIndex (fun b => !bit map b) size.toNat start.toNat
  have hle : found ≤ size.toNat := nextIndex_le
  have hindex : index.toNat = (found + (2 ^ k - 1)) / 2 ^ k * 2 ^ k := by
    have hfound : (findNextZeroBit map size start).toNat = found := toNat_ofNat_nextIndex
    rw [toNat_add_and_not hmask (by omega), hfound]
  obtain ⟨⟨hdvd, hfi⟩, hleast⟩ := isLeast_multiple (Nat.two_pow_pos k) found
  rw [← hindex] at hdvd hfi hleast
  refine ⟨hdvd, ?_, fun hlt => ?_, fun g hs hk hg => hleast ⟨hk, ?_⟩, fun hk => ?_⟩
  · rw [hindex]
    exact Nat.mul_le_mul_right _ (Nat.div_le_div_right (by omega))
  · rcases le_total start.toNat size.toNat with h | h
    · exact (nextIndex_spec _ h).1.trans hfi
    · have hfound : found = size.toNat := nextIndex_of_le h
      omega
  · obtain ⟨hpos, hfits, hfree⟩ := hg
    by_contra hlt
    have hpast := (nextIndex_spec (fun b => !bit map b) (by omega : start.toNat ≤ size.toNat)).2.2.1
    simpa [hfree g le_rfl (by omega)] using hpast g hs (by omega)
  · simp [hindex, hk, found]

/-- The search returns the lowest gap at a multiple of the power of two, or something larger than
the bitmap. -/
def FirstFit (map : Map) (k size start nr r : Nat) : Prop :=
  (start ≤ r ∧ 2 ^ k ∣ r ∧ Gap map size nr r ∧
      ∀ g, start ≤ g → 2 ^ k ∣ g → Gap map size nr g → r ≤ g) ∨
    (size < r ∧ (k = 0 → r = giveUp map size nr start + nr) ∧
      ∀ g, start ≤ g → 2 ^ k ∣ g → ¬ Gap map size nr g)

/-- The additions of a round do not leave the word if those at the end of the bitmap do not. -/
lemma zeroAreaLoop_spec (map : Map) {mask start : Word} {k : Nat} (hmask : mask.toNat = 2 ^ k - 1)
    (hpos : 0 < nr.toNat) (halign : size.toNat + (2 ^ k - 1) < 2 ^ 32)
    (hend : (size.toNat + (2 ^ k - 1)) / 2 ^ k * 2 ^ k + nr.toNat < 2 ^ 32)
    {fuel : Nat} (hfuel : size.toNat - start.toNat < fuel) :
    ∃ r, zeroAreaLoop map size nr mask fuel start = some r ∧
      FirstFit map k size.toNat start.toNat nr.toNat r.toNat := by
  induction fuel generalizing start with
  | zero => omega
  | succ fuel ih =>
    obtain ⟨hdvd, hub, hfrom, hgap, hzero⟩ := candidate_spec map start nr hmask halign
    simp only [zeroAreaLoop]
    generalize (findNextZeroBit map size start + mask) &&& ~~~mask = index at *
    have hstop : (index + nr).toNat = index.toNat + nr.toNat := by bv_omega
    split
    case isTrue hlt =>
      rw [lt_def, hstop] at hlt
      refine ⟨_, rfl, .inr ⟨by omega, fun hk => ?_, fun g hs hk hg => ?_⟩⟩
      · rw [hstop, hzero hk, giveUp_eq (hzero hk ▸ hlt)]
      · have hi := hgap g hs hk hg
        have hfits := hg.2.1
        omega
    case isFalse hlt =>
      rw [lt_def, hstop] at hlt
      have hstart := hfrom (by omega)
      obtain ⟨hge, hub, hpast, hat⟩ := nextIndex_spec (bit map)
        (by omega : index.toNat ≤ (index + nr).toNat)
      have hi : (findNextBit map (index + nr) index).toNat =
          nextIndex (bit map) (index + nr).toNat index.toNat := toNat_ofNat_nextIndex
      rw [← hi] at hge hub hpast hat
      generalize findNextBit map (index + nr) index = i at hge hub hpast hat ⊢
      simp only [lt_def]
      split
      case isTrue hlt' =>
        have hsucc : (i + 1).toNat = i.toNat + 1 := by bv_omega
        obtain ⟨r, hr, hfit⟩ := ih (by omega : size.toNat - (i + 1).toNat < fuel)
        -- A gap that starts at or before `i` would contain it.
        have hlate (g : Nat) (hs : start.toNat ≤ g) (hk : 2 ^ k ∣ g)
            (hg : Gap map size.toNat nr.toNat g) : (i + 1).toNat ≤ g := by
          have hig := hgap g hs hk hg
          by_contra hlt
          have hbit := hat hlt'
          rw [hg.2.2 i.toNat (by omega) (by omega)] at hbit
          exact Bool.false_ne_true hbit
        refine ⟨r, hr, ?_⟩
        rcases hfit with ⟨hs, hk, hg, hleast⟩ | ⟨hbig, hval, hnone⟩
        · exact .inl ⟨by omega, hk, hg, fun g hs hk hg => hleast g (hlate g hs hk hg) hk hg⟩
        · refine .inr ⟨hbig, fun hk => ?_, fun g hs hk hg => hnone g (hlate g hs hk hg) hk hg⟩
          rw [hval hk, hsucc, giveUp_succ hstart (by omega) (by omega) hpast (hat hlt')]
      case isFalse hlt' =>
        refine ⟨index, rfl, .inl ⟨hstart, hdvd, ⟨hpos, by omega, fun b hb hb' => ?_⟩, hgap⟩⟩
        exact hpast b hb (by omega)

lemma genPoolFirstFit_spec (map : Map) (start : Word) (hpos : 0 < nr.toNat)
    (hsmall : size.toNat + nr.toNat < 2 ^ 32) :
    ∃ r, genPoolFirstFit map size start nr = some r ∧
      FirstFit map 0 size.toNat start.toNat nr.toNat r.toNat :=
  zeroAreaLoop_spec map rfl hpos size.isLt (by simpa using hsmall) (by omega)

/-- The search ends with the lowest aligned gap. If there is none, the result is so large that the
bits do not fit behind it. -/
theorem bitmapFindNextZeroArea_least (map : Map) (start : Word) {mask : Word} {k : Nat}
    (hmask : mask.toNat = 2 ^ k - 1) (hpos : 1 ≤ nr.toNat)
    (halign : size.toNat + (2 ^ k - 1) < 2 ^ 32)
    (hend : (size.toNat + (2 ^ k - 1)) / 2 ^ k * 2 ^ k + nr.toNat < 2 ^ 32) :
    ∃ r, bitmapFindNextZeroArea map size start nr mask = some r ∧
      let fits := {i | start.toNat ≤ i ∧ 2 ^ k ∣ i ∧ i + nr.toNat ≤ size.toNat ∧
        ∀ b, i ≤ b → b < i + nr.toNat → bit map b = false}
      (fits.Nonempty → IsLeast fits r.toNat) ∧
        (fits = ∅ → (size.toNat : Int) - nr.toNat < r.toNat) := by
  obtain ⟨r, hr, hfit⟩ := zeroAreaLoop_spec map hmask hpos halign hend
    (by omega : size.toNat - start.toNat < size.toNat + 2)
  refine ⟨r, hr, ?_⟩
  rcases hfit with ⟨hs, hk, hg, hleast⟩ | ⟨hbig, -, hnone⟩
  · refine ⟨fun _ => ⟨⟨hs, hk, hg.2⟩, fun g hg => hleast g hg.1 hg.2.1 ⟨hpos, hg.2.2⟩⟩, fun h => ?_⟩
    exact absurd (h ▸ ⟨hs, hk, hg.2⟩ : r.toNat ∈ (∅ : Set Nat)) (Set.notMem_empty _)
  · refine ⟨fun ⟨g, hs, hk, hg⟩ => absurd ⟨hpos, hg⟩ (hnone g hs hk), fun _ => by omega⟩

/-- Units 1, 2 and 4 are in use: there is room for two units at 6, the next even position. -/
theorem area_at_six : IsLeast {i | 0 ≤ i ∧ 2 ^ 1 ∣ i ∧ i + 2 ≤ 8 ∧
    ∀ b, i ≤ b → b < i + 2 → bit (fun _ => 0b10110#32) b = false} 6 := by
  obtain ⟨r, hr, hleast, -⟩ := bitmapFindNextZeroArea_least (fun _ => 0b10110) 0
    (rfl : (1#32).toNat = 2 ^ 1 - 1) (by decide : 1 ≤ (2#32).toNat)
    (by decide : (8#32).toNat + (2 ^ 1 - 1) < 2 ^ 32) (by decide)
  obtain rfl : 6#32 = r := Option.some.inj hr
  refine hleast ⟨6, by decide, by decide, by decide, fun b hb hb' => ?_⟩
  obtain rfl | rfl : b = 6 ∨ b = 7 := by simp at hb'; omega
  all_goals rfl

end Mini2440.Genalloc
