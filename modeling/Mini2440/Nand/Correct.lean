import Mini2440.Nand.Ecc

/-!
# Correction with the software ECC

`__nand_correct_data` compares the ECC that was read with the one of the data as read. If exactly
one bit of each pair of complementary parities differs, the odd ones spell the address of a
flipped data bit. If exactly one bit differs in all, it was flipped in the ECC itself. Two
flipped data bits make both bits of a pair differ or none, which is neither.
-/

namespace Mini2440.Nand

open Function Finset Library

def bitsperbyteTable : List Nat :=
  [0, 1, 1, 2, 1, 2, 2, 3, 1, 2, 2, 3, 2, 3, 3, 4,
   1, 2, 2, 3, 2, 3, 3, 4, 2, 3, 3, 4, 3, 4, 4, 5,
   1, 2, 2, 3, 2, 3, 3, 4, 2, 3, 3, 4, 3, 4, 4, 5,
   2, 3, 3, 4, 3, 4, 4, 5, 3, 4, 4, 5, 4, 5, 5, 6,
   1, 2, 2, 3, 2, 3, 3, 4, 2, 3, 3, 4, 3, 4, 4, 5,
   2, 3, 3, 4, 3, 4, 4, 5, 3, 4, 4, 5, 4, 5, 5, 6,
   2, 3, 3, 4, 3, 4, 4, 5, 3, 4, 4, 5, 4, 5, 5, 6,
   3, 4, 4, 5, 4, 5, 5, 6, 4, 5, 5, 6, 5, 6, 6, 7,
   1, 2, 2, 3, 2, 3, 3, 4, 2, 3, 3, 4, 3, 4, 4, 5,
   2, 3, 3, 4, 3, 4, 4, 5, 3, 4, 4, 5, 4, 5, 5, 6,
   2, 3, 3, 4, 3, 4, 4, 5, 3, 4, 4, 5, 4, 5, 5, 6,
   3, 4, 4, 5, 4, 5, 5, 6, 4, 5, 5, 6, 5, 6, 6, 7,
   2, 3, 3, 4, 3, 4, 4, 5, 3, 4, 4, 5, 4, 5, 5, 6,
   3, 4, 4, 5, 4, 5, 5, 6, 4, 5, 5, 6, 5, 6, 6, 7,
   3, 4, 4, 5, 4, 5, 5, 6, 4, 5, 5, 6, 5, 6, 6, 7,
   4, 5, 5, 6, 5, 6, 6, 7, 5, 6, 6, 7, 6, 7, 7, 8]

def bitsperbyte (b : Byte) : Nat := bitsperbyteTable.getD b.toNat 0

/-- The table `addressbits`: the odd bits of a byte next to each other. -/
def addressbitsTable : List Nat :=
  [0, 0, 1, 1, 0, 0, 1, 1, 2, 2, 3, 3, 2, 2, 3, 3,
   0, 0, 1, 1, 0, 0, 1, 1, 2, 2, 3, 3, 2, 2, 3, 3,
   4, 4, 5, 5, 4, 4, 5, 5, 6, 6, 7, 7, 6, 6, 7, 7,
   4, 4, 5, 5, 4, 4, 5, 5, 6, 6, 7, 7, 6, 6, 7, 7,
   0, 0, 1, 1, 0, 0, 1, 1, 2, 2, 3, 3, 2, 2, 3, 3,
   0, 0, 1, 1, 0, 0, 1, 1, 2, 2, 3, 3, 2, 2, 3, 3,
   4, 4, 5, 5, 4, 4, 5, 5, 6, 6, 7, 7, 6, 6, 7, 7,
   4, 4, 5, 5, 4, 4, 5, 5, 6, 6, 7, 7, 6, 6, 7, 7,
   8, 8, 9, 9, 8, 8, 9, 9, 10, 10, 11, 11, 10, 10, 11, 11,
   8, 8, 9, 9, 8, 8, 9, 9, 10, 10, 11, 11, 10, 10, 11, 11,
   12, 12, 13, 13, 12, 12, 13, 13, 14, 14, 15, 15, 14, 14, 15, 15,
   12, 12, 13, 13, 12, 12, 13, 13, 14, 14, 15, 15, 14, 14, 15, 15,
   8, 8, 9, 9, 8, 8, 9, 9, 10, 10, 11, 11, 10, 10, 11, 11,
   8, 8, 9, 9, 8, 8, 9, 9, 10, 10, 11, 11, 10, 10, 11, 11,
   12, 12, 13, 13, 12, 12, 13, 13, 14, 14, 15, 15, 14, 14, 15, 15,
   12, 12, 13, 13, 12, 12, 13, 13, 14, 14, 15, 15, 14, 14, 15, 15]

def addressbits (b : Byte) : Nat := addressbitsTable.getD b.toNat 0

def flipBit (buf : Buf) (x : Nat × Nat) : Buf :=
  update buf x.1 (buf x.1 ^^^ 1#8 <<< x.2)

/-- What `__nand_correct_data` does about the differences of the codes. -/
def repair (mult : Nat) (b0 b1 b2 : Byte) (buf : Buf) : Int × Buf :=
  if b0 ||| b1 ||| b2 = 0 then (0, buf)
  else if
    (b0 ^^^ b0 >>> 1) &&& 0x55 = 0x55 ∧
      (b1 ^^^ b1 >>> 1) &&& 0x55 = 0x55 ∧
      (mult = 1 ∧ (b2 ^^^ b2 >>> 1) &&& 0x54 = 0x54 ∨
        mult = 2 ∧ (b2 ^^^ b2 >>> 1) &&& 0x55 = 0x55) then
    let byteAddr :=
      if mult = 1 then addressbits b1 <<< 4 + addressbits b0
      else addressbits (b2 &&& 0x3) <<< 8 + addressbits b1 <<< 4 + addressbits b0
    let bitAddr := addressbits (b2 >>> 2)
    (1, flipBit buf (byteAddr, bitAddr))
  else if bitsperbyte b0 + bitsperbyte b1 + bitsperbyte b2 = 1 then (1, buf)
  else (-1, buf)

/-- `__nand_correct_data`. -/
def correctData (cfg : Config) (buf : Buf) (readEcc calcEcc : Ecc) (eccsize : Nat) : Int × Buf :=
  let b0 :=
    if cfg.smc then readEcc.code0 ^^^ calcEcc.code0 else readEcc.code1 ^^^ calcEcc.code1
  let b1 :=
    if cfg.smc then readEcc.code1 ^^^ calcEcc.code1 else readEcc.code0 ^^^ calcEcc.code0
  let b2 := readEcc.code2 ^^^ calcEcc.code2
  repair (eccsize >>> 8) b0 b1 b2 buf

/-! ## Flipped bits -/

section Flip

variable {buf : Buf} {x y : Nat × Nat}

lemma bits_flipBit (hx : x.2 < 8) : bits (flipBit buf x) = flipAt (bits buf) x := by
  funext y
  rw [flipAt_apply, bits, bits, flipBit]
  by_cases hbyte : y.1 = x.1
  · by_cases hin : y.2 < 8
    · have hbit : (1#8 <<< x.2).getLsbD y.2 = decide (y.2 = x.2) := getLsbD_one_shiftLeft hin
      have hcell : y = x ↔ y.2 = x.2 := by simp [Prod.ext_iff, hbyte]
      rw [hbyte, update_self, BitVec.getLsbD_xor, hbit]
      simp [hcell]
    · have hcell : y ≠ x := by
        rintro rfl
        exact hin hx
      simp [hcell, BitVec.getLsbD_of_ge _ _ (Nat.le_of_not_lt hin)]
  · have hcell : y ≠ x := fun h => hbyte (congrArg Prod.fst h)
    simp [update_of_ne hbyte, hcell]

@[simp] lemma flipBit_flipBit : flipBit (flipBit buf x) x = buf := by
  rw [flipBit, flipBit, update_self, update_idem, BitVec.xor_assoc,
    BitVec.xor_self, BitVec.xor_zero, update_eq_self]

end Flip

/-! ## Differences -/

def Ecc.diff (e e' : Ecc) : Ecc :=
  ⟨e.code0 ^^^ e'.code0, e.code1 ^^^ e'.code1, e.code2 ^^^ e'.code2⟩

lemma Ecc.byte_diff (smc : Bool) (e e' : Ecc) (k : Nat) :
    (e.diff e').byte smc k = e.byte smc k ^^^ e'.byte smc k := by
  unfold Ecc.byte Ecc.diff
  split <;> cases smc <;> rfl

lemma Ecc.slot_diff (smc : Bool) (e e' : Ecc) (s : Nat) (v : Bool) :
    (e.diff e').slot smc s v = (e.slot smc s v ^^ e'.slot smc s v) := by
  rw [Ecc.slot, Ecc.byte_diff, BitVec.getLsbD_xor]
  rfl

lemma correctData_eq (cfg : Config) (buf : Buf) (e e' : Ecc) (eccsize : Nat) :
    correctData cfg buf e e' eccsize =
      repair (eccsize >>> 8) ((e.diff e').byte cfg.smc 0) ((e.diff e').byte cfg.smc 1)
        ((e.diff e').byte cfg.smc 2) buf := by
  cases cfg with
  | mk smc bigEndian => cases smc <;> rfl

/-! ## What the tables are -/

def oddBits (b : Byte) : Nat :=
  (b.getLsbD 1).toNat + 2 * (b.getLsbD 3).toNat + 4 * (b.getLsbD 5).toNat +
    8 * (b.getLsbD 7).toNat

def bitCount (b : Byte) : Nat := ∑ i ∈ range 8, (b.getLsbD i).toNat

lemma addressbits_eq : ∀ b, addressbits b = oddBits b := by
  decide +kernel

lemma bitsperbyte_eq : ∀ b, bitsperbyte b = bitCount b := by
  decide +kernel

lemma eq_bits_of_lt :
    ∀ n < 16, n = (n.testBit 0).toNat + 2 * (n.testBit 1).toNat + 4 * (n.testBit 2).toNat +
      8 * (n.testBit 3).toNat := by
  decide

lemma addressbits_of_bits {b : Byte} {n : Nat} (hn : n < 16)
    (h : ∀ s < 4, b.getLsbD (2 * s + 1) = n.testBit s) : addressbits b = n := by
  rw [addressbits_eq, oddBits, eq_bits_of_lt n hn, ← h 0 (by decide), ← h 1 (by decide),
    ← h 2 (by decide), ← h 3 (by decide)]

lemma complementary_eq :
    ∀ b : Byte, (∀ s < 4, b.getLsbD (2 * s + 1) = !b.getLsbD (2 * s)) →
      (b ^^^ b >>> 1) &&& 0x55 = 0x55 := by
  decide +kernel

lemma complementary_upper :
    ∀ b : Byte, (∀ s < 4, s ≠ 0 → b.getLsbD (2 * s + 1) = !b.getLsbD (2 * s)) →
      (b ^^^ b >>> 1) &&& 0x54 = 0x54 := by
  decide +kernel

lemma doubled_eq :
    ∀ b : Byte, (∀ s < 4, b.getLsbD (2 * s + 1) = b.getLsbD (2 * s)) →
      (b ^^^ b >>> 1) &&& 0x55 = 0 ∧ Even (bitCount b) := by
  decide +kernel

/-! ## The repair -/

section Repair

variable {b b0 b1 b2 : Byte} {mult s : Nat} {buf : Buf} {x y : Nat × Nat}

lemma or_or_eq_zero : b0 ||| b1 ||| b2 = 0 ↔ b0 = 0 ∧ b1 = 0 ∧ b2 = 0 := by
  rw [BitVec.ofNat_eq_ofNat, BitVec.or_eq_zero_iff, BitVec.or_eq_zero_iff, and_assoc]

lemma addressbits_row {k : Nat} (hk : k < 2)
    (hb : ∀ s < 4, b.getLsbD (2 * s + 1) = addr x (s + 4 * k)) :
    addressbits b = x.1 / 2 ^ (4 * k) % 16 := by
  refine addressbits_of_bits (by omega) fun s hs => ?_
  have hrow : s + 4 * k < 9 := by omega
  rw [hb s hs, addr, if_pos hrow, show (16 : Nat) = 2 ^ 4 from rfl, Nat.testBit_mod_two_pow,
    Nat.testBit_div_two_pow, decide_eq_true hs, Bool.true_and]

lemma addressbits_top (hx : x.1 < 512) (hb : b.getLsbD 1 = addr x 8) :
    addressbits (b &&& 0x3) = x.1 / 256 := by
  refine addressbits_of_bits (by omega) fun s hs => ?_
  rw [show (256 : Nat) = 2 ^ 8 from rfl, Nat.testBit_div_two_pow]
  cases s with
  | zero => simpa [addr] using hb
  | succ s =>
    have hpow : 2 ^ 9 ≤ 2 ^ (s + 1 + 8) := Nat.pow_le_pow_right (by decide) (by omega)
    have hhigh := Nat.testBit_lt_two_pow (Nat.lt_of_lt_of_le hx hpow)
    have hs : s < 3 := by omega
    rw [hhigh]
    interval_cases s <;> simp

lemma addressbits_column (hx : x.2 < 8)
    (hb : ∀ s < 4, s ≠ 0 → b.getLsbD (2 * s + 1) = addr x (s + 8)) :
    addressbits (b >>> 2) = x.2 := by
  refine addressbits_of_bits (by omega) fun s hs => ?_
  rw [BitVec.getLsbD_ushiftRight]
  by_cases htop : s = 3
  · subst htop
    rw [BitVec.getLsbD_of_ge b _ (by decide), Nat.testBit_lt_two_pow hx]
  · have hpair := hb (s + 1) (by omega) (by omega)
    have hcolumn : ¬ s + 1 + 8 < 9 := by omega
    rw [addr, if_neg hcolumn] at hpair
    rw [show 2 + (2 * s + 1) = 2 * (s + 1) + 1 by omega, hpair, show s + 1 + 8 - 9 = s by omega]

/-- The difference spells the address of the bit `x`: of each pair that is used, one bit is set,
the odd one if the address has a one there. -/
def Spells (smc : Bool) (mult : Nat) (d : Ecc) (x : Nat × Nat) : Prop :=
  ∀ s < 12, s ≠ 8 ∨ mult = 2 → ∀ v, d.slot smc s v = (addr x s == v)

namespace Spells

variable {smc : Bool} {d : Ecc} {k : Nat} (h : Spells smc mult d x)

include h

lemma odd (hk : k < 3) (hs : s < 4) (hused : s + 4 * k ≠ 8 ∨ mult = 2) :
    (d.byte smc k).getLsbD (2 * s + 1) = addr x (s + 4 * k) := by
  have hslot := h (s + 4 * k) (by omega) hused true
  rw [Ecc.slot_add smc d hs] at hslot
  simpa using hslot

lemma complementary (hk : k < 3) (hs : s < 4) (hused : s + 4 * k ≠ 8 ∨ mult = 2) :
    (d.byte smc k).getLsbD (2 * s + 1) = !(d.byte smc k).getLsbD (2 * s) := by
  have hslot := h (s + 4 * k) (by omega) hused false
  rw [Ecc.slot_add smc d hs] at hslot
  rw [h.odd hk hs hused]
  simp_all

lemma rows (hk : k < 2) :
    (d.byte smc k ^^^ d.byte smc k >>> 1) &&& 0x55 = 0x55 ∧
      addressbits (d.byte smc k) = x.1 / 2 ^ (4 * k) % 16 :=
  ⟨complementary_eq _ fun _ hs => h.complementary (by omega) hs (by omega),
    addressbits_row hk fun _ hs => h.odd (by omega) hs (by omega)⟩

lemma columns (hmult : mult = 1 ∨ mult = 2) :
    mult = 1 ∧ (d.byte smc 2 ^^^ d.byte smc 2 >>> 1) &&& 0x54 = 0x54 ∨
      mult = 2 ∧ (d.byte smc 2 ^^^ d.byte smc 2 >>> 1) &&& 0x55 = 0x55 := by
  rcases hmult with hone | htwo
  · exact .inl ⟨hone, complementary_upper _ fun s hs hne =>
      h.complementary (by decide) hs (by omega)⟩
  · exact .inr ⟨htwo, complementary_eq _ fun s hs => h.complementary (by decide) hs (.inr htwo)⟩

lemma byteAddr (hmult : mult = 1 ∨ mult = 2) (hx : x.1 < 256 * mult) :
    (if mult = 1 then addressbits (d.byte smc 1) <<< 4 + addressbits (d.byte smc 0)
      else addressbits (d.byte smc 2 &&& 0x3) <<< 8 + addressbits (d.byte smc 1) <<< 4 +
        addressbits (d.byte smc 0)) = x.1 := by
  have hlow := (h.rows (k := 0) (by decide)).2
  have hhigh := (h.rows (k := 1) (by decide)).2
  split_ifs with hone
  · omega
  · have htwo : mult = 2 := by bv_omega
    have htop := addressbits_top (by omega) (h.odd (k := 2) (s := 0) (by decide) (by decide)
      (.inr htwo))
    omega

lemma bitAddr (hx : x.2 < 8) : addressbits (d.byte smc 2 >>> 2) = x.2 :=
  addressbits_column hx fun _ hs _ => h.odd (by decide) hs (by omega)

/-- A difference that spells an address is repaired there. -/
lemma repair (hmult : mult = 1 ∨ mult = 2) (hx : x ∈ cells (256 * mult)) :
    Nand.repair mult (d.byte smc 0) (d.byte smc 1) (d.byte smc 2) buf = (1, flipBit buf x) := by
  obtain ⟨hrow, hcol⟩ := mem_cells.mp hx
  have hpairs := (h.rows (k := 0) (by decide)).1
  have hfault : ¬ d.byte smc 0 ||| d.byte smc 1 ||| d.byte smc 2 = 0 := by
    intro hnone
    simp [(or_or_eq_zero.mp hnone).1] at hpairs
  unfold Nand.repair
  rw [if_neg hfault, if_pos ⟨hpairs, (h.rows (k := 1) (by decide)).1, h.columns hmult⟩]
  rw [h.byteAddr hmult hrow, h.bitAddr hcol]

end Spells

/-- A difference of both or none of each pair is not repaired. -/
lemma repair_double {smc : Bool} {d : Ecc} (hd : ∀ s < 12, d.slot smc s true = d.slot smc s false)
    (hne : ∃ s < 12, d.slot smc s true) :
    repair mult (d.byte smc 0) (d.byte smc 1) (d.byte smc 2) buf = (-1, buf) := by
  have hbyte : ∀ k < 3, (d.byte smc k ^^^ d.byte smc k >>> 1) &&& 0x55 = 0 ∧
      Even (bitsperbyte (d.byte smc k)) := by
    intro k hk
    rw [bitsperbyte_eq]
    refine doubled_eq _ fun s hs => ?_
    have hslot := hd (s + 4 * k) (by omega)
    rwa [Ecc.slot_add smc d hs, Ecc.slot_add smc d hs] at hslot
  have hfault : ¬ d.byte smc 0 ||| d.byte smc 1 ||| d.byte smc 2 = 0 := by
    intro h
    obtain ⟨s, hs, hset⟩ := hne
    have hk : s / 4 < 3 := by omega
    rw [Ecc.slot] at hset
    interval_cases s / 4 <;> simp_all
  have hcount : bitsperbyte (d.byte smc 0) + bitsperbyte (d.byte smc 1) +
      bitsperbyte (d.byte smc 2) ≠ 1 := by
    have heven := ((hbyte 0 (by decide)).2.add (hbyte 1 (by decide)).2).add (hbyte 2 (by decide)).2
    intro h
    rw [h] at heven
    exact absurd heven (by decide)
  unfold repair
  rw [if_neg hfault, if_neg ?_, if_neg hcount]
  rintro ⟨h, -⟩
  rw [(hbyte 0 (by decide)).1] at h
  exact absurd h (by decide)

/-- A difference in one bit alone is one of the code. -/
lemma repair_code {t : Nat} (ht : t < 8) :
    repair mult (1#8 <<< t) 0 0 buf = (1, buf) ∧ repair mult 0 (1#8 <<< t) 0 buf = (1, buf) ∧
      repair mult 0 0 (1#8 <<< t) buf = (1, buf) := by
  have hcount : bitsperbyte (1#8 <<< t) = 1 := by interval_cases t <;> decide
  have hfault : 1#8 <<< t ≠ 0#8 := by interval_cases t <;> decide
  have hnone : bitsperbyte 0#8 = 0 := rfl
  simp [repair, hcount, hfault, hnone]

end Repair

/-! ## Single error correction, double error detection -/

section Secded

variable {cfg : Config} {buf : Buf} {eccsize s : Nat} {x y : Nat × Nat}

lemma addr_injective (hsize : eccsize ≤ 512) (hx : x ∈ cells eccsize) (hy : y ∈ cells eccsize)
    (h : ∀ s < 12, addr x s = addr y s) : x = y := by
  obtain ⟨hx1, hx2⟩ := mem_cells.mp hx
  obtain ⟨hy1, hy2⟩ := mem_cells.mp hy
  have hbyte : x.1 = y.1 := by
    refine eq_of_testBit_lt (n := 9) (by omega) (by omega) fun s hs => ?_
    simpa [addr, hs] using h s (by omega)
  have hbit : x.2 = y.2 := by
    refine eq_of_testBit_lt (n := 3) hx2 hy2 fun s hs => ?_
    simpa [addr] using h (s + 9) (by omega)
  exact Prod.ext hbyte hbit

section

variable (hsize : eccsize = 256 ∨ eccsize = 512)

include hsize

/-- The code of data with one bit flipped differs in one bit of each pair. -/
lemma slot_diff_flip (hs : s < 12)
    (hused : s ≠ 8 ∨ eccsize = 512) (hx : x ∈ cells eccsize) (v : Bool) :
    ((calculateEcc cfg buf eccsize).diff (calculateEcc cfg (flipBit buf x) eccsize)).slot
      cfg.smc s v = (addr x s == v) := by
  rw [Ecc.slot_diff, slot_calculateEcc hsize hs hused, slot_calculateEcc hsize hs hused,
    bits_flipBit (mem_cells.mp hx).2, Bool.not_xor_not, addressParity_flipAt hx]

/-- With two bits flipped it differs in both bits of a pair or in none. -/
lemma slot_diff_flip_flip (hs : s < 12)
    (hx : x ∈ cells eccsize) (hy : y ∈ cells eccsize) (v : Bool) :
    ((calculateEcc cfg buf eccsize).diff
      (calculateEcc cfg (flipBit (flipBit buf x) y) eccsize)).slot cfg.smc s v =
      (addr x s ^^ addr y s) := by
  rw [Ecc.slot_diff]
  by_cases hused : s ≠ 8 ∨ eccsize = 512
  · rw [slot_calculateEcc hsize hs hused, slot_calculateEcc hsize hs hused,
      bits_flipBit (mem_cells.mp hy).2, bits_flipBit (mem_cells.mp hx).2,
      Bool.not_xor_not, addressParity_flipAt_flipAt hx hy]
  · -- the ninth bit of the byte address, with 256 bytes
    obtain ⟨rfl, rfl⟩ : s = 8 ∧ eccsize = 256 := by omega
    have htop : ∀ {z : Nat × Nat}, z.1 < 256 → addr z 8 = false := by
      intro z hz
      exact Nat.testBit_lt_two_pow hz
    rw [slot_unused, slot_unused, htop (mem_cells.mp hx).1, htop (mem_cells.mp hy).1,
      Bool.xor_self, Bool.xor_self]

def correctRead (cfg : Config) (eccsize : Nat) (buf : Buf) (readEcc : Ecc) : Int × Buf :=
  correctData cfg buf readEcc (calculateEcc cfg buf eccsize) eccsize

/-- The code with the bit `t` of its byte `k` flipped. -/
def Ecc.flip (e : Ecc) (k t : Nat) : Ecc :=
  match k with
  | 0 => { e with code0 := e.code0 ^^^ 1#8 <<< t }
  | 1 => { e with code1 := e.code1 ^^^ 1#8 <<< t }
  | _ => { e with code2 := e.code2 ^^^ 1#8 <<< t }

omit hsize in
lemma diff_self (e : Ecc) : e.diff e = ⟨0, 0, 0⟩ := by
  simp [Ecc.diff]

omit hsize in
lemma correctRead_same : correctRead cfg eccsize buf (calculateEcc cfg buf eccsize) = (0, buf) := by
  rw [correctRead, correctData_eq, diff_self]
  cases cfg.smc <;> rfl

lemma correctRead_flip (hx : x ∈ cells eccsize) :
    correctRead cfg eccsize (flipBit buf x) (calculateEcc cfg buf eccsize) = (1, buf) := by
  have hmult : eccsize >>> 8 = 1 ∨ eccsize >>> 8 = 2 := by bv_omega
  have hcells : x ∈ cells (256 * (eccsize >>> 8)) := by rcases hsize with rfl | rfl <;> exact hx
  have hspells : Spells cfg.smc (eccsize >>> 8)
      ((calculateEcc cfg buf eccsize).diff (calculateEcc cfg (flipBit buf x) eccsize)) x := by
    intro s hs hused v
    refine slot_diff_flip hsize hs ?_ hx v
    exact hused.imp_right fun h => by omega
  rw [correctRead, correctData_eq, hspells.repair hmult hcells, flipBit_flipBit]

omit hsize in
lemma xor_xor_self (b c : Byte) : b ^^^ c ^^^ b = c := by
  rw [BitVec.xor_comm b, BitVec.xor_assoc, BitVec.xor_self, BitVec.xor_zero]

omit hsize in
lemma correctRead_flipEcc {k t : Nat} (ht : t < 8) :
    correctRead cfg eccsize buf ((calculateEcc cfg buf eccsize).flip k t) = (1, buf) := by
  obtain ⟨h0, h1, h2⟩ := repair_code ht
  rw [correctRead, correctData_eq]
  unfold Ecc.flip
  split <;> cases cfg.smc <;>
    simpa only [Ecc.diff, xor_xor_self, BitVec.xor_self] using by assumption

lemma correctRead_flip_flip (hx : x ∈ cells eccsize) (hy : y ∈ cells eccsize) (hne : x ≠ y) :
    correctRead cfg eccsize (flipBit (flipBit buf x) y) (calculateEcc cfg buf eccsize) =
      (-1, flipBit (flipBit buf x) y) := by
  rw [correctRead, correctData_eq, repair_double]
  · intro s hs
    rw [slot_diff_flip_flip hsize hs hx hy, slot_diff_flip_flip hsize hs hx hy]
  · by_contra hall
    push Not at hall
    refine hne (addr_injective (by omega) hx hy fun s hs => ?_)
    have hslot := hall s hs
    rw [slot_diff_flip_flip hsize hs hx hy] at hslot
    simpa using hslot

end

/-- For every block of 256 or 512 bytes and its ECC, in either order of the bytes: unchanged data
are left alone, one flipped data bit is restored, one flipped bit of the ECC is recognised as
such, and two flipped data bits are reported. -/
theorem nand_secded (cfg : Config) {eccsize : Nat} (hsize : eccsize = 256 ∨ eccsize = 512)
    (buf : Buf) :
    let ecc := calculateEcc cfg buf eccsize
    correctRead cfg eccsize buf ecc = (0, buf) ∧
      (∀ x ∈ cells eccsize, correctRead cfg eccsize (flipBit buf x) ecc = (1, buf)) ∧
      (∀ k < 3, ∀ t < 8, correctRead cfg eccsize buf (ecc.flip k t) = (1, buf)) ∧
      ∀ x ∈ cells eccsize, ∀ y ∈ cells eccsize, x ≠ y →
        correctRead cfg eccsize (flipBit (flipBit buf x) y) ecc =
          (-1, flipBit (flipBit buf x) y) :=
  ⟨correctRead_same, fun _ hx => correctRead_flip hsize hx,
    fun _ _ _ ht => correctRead_flipEcc ht,
    fun _ hx _ hy hne => correctRead_flip_flip hsize hx hy hne⟩

theorem zeroBlock_secded :
    let cfg : Config := ⟨true, false⟩
    let buf : Buf := fun _ => 0
    (5, 3) ∈ cells 256 ∧
      correctRead cfg 256 (flipBit buf (5, 3)) (calculateEcc cfg buf 256) = (1, buf) := by
  have hcell : (5, 3) ∈ cells 256 := mem_cells.mpr (by decide)
  exact ⟨hcell, (nand_secded ⟨true, false⟩ (Or.inl rfl) fun _ => 0).2.1 (5, 3) hcell⟩

end Secded

end Mini2440.Nand
