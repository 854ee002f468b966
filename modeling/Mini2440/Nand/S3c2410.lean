import Mini2440.Nand.Correct

/-!
# Correction with the ECC of the controller

The controller of the S3C2410 computes 24 bits of ECC for 512 bytes, and
`s3c2410_nand_correct_data` repairs the data with them. It does what the correction of the
software ECC does, with one difference: to recognise a flipped bit of the ECC it clears the
highest bit of the difference and asks whether nothing is left. `fls` counts from one, so that
the bit it clears is the one above the highest, which is clear already.
-/

namespace Mini2440.Nand

open BitVec Finset Library

/-! ## The highest bit -/

/-- One test of `fls`. -/
def flsStep (k : Nat) (mask : Word) (p : Word × Nat) : Word × Nat :=
  if p.1 &&& mask = 0 then (p.1 <<< k, p.2 - k) else p

/-- `fls` of `asm-generic/bitops/fls.h`. -/
def fls (x : Word) : Nat :=
  if x = 0 then 0
  else
    let p := (x, 32)
    let p := flsStep 16 0xffff0000 p
    let p := flsStep 8 0xff000000 p
    let p := flsStep 4 0xf0000000 p
    let p := flsStep 2 0xc0000000 p
    let p := flsStep 1 0x80000000 p
    p.2

/-! ## The correction -/

def bitPosition (diff2 : Word) : Word :=
  (diff2 >>> 3 &&& 1#32) ||| (diff2 >>> 4 &&& 2#32) ||| (diff2 >>> 5 &&& 4#32)

def bytePosition (diff0 diff1 diff2 : Word) : Word :=
  (diff2 <<< 7 &&& 0x100#32) |||
    (diff1 <<< 0 &&& 0x80#32) ||| (diff1 <<< 1 &&& 0x40#32) |||
    (diff1 <<< 2 &&& 0x20#32) ||| (diff1 <<< 3 &&& 0x10#32) |||
    (diff0 >>> 4 &&& 0x08#32) ||| (diff0 >>> 3 &&& 0x04#32) |||
    (diff0 >>> 2 &&& 0x02#32) ||| (diff0 >>> 1 &&& 0x01#32)

/-- `s3c2410_nand_correct_data`. -/
def s3c2410CorrectData (ignoreUnsetEcc : Bool) (dat : Buf) (readEcc calcEcc : Ecc) : Int × Buf :=
  let diff0 : Word := (readEcc.code0 ^^^ calcEcc.code0).setWidth 32
  let diff1 : Word := (readEcc.code1 ^^^ calcEcc.code1).setWidth 32
  let diff2 : Word := (readEcc.code2 ^^^ calcEcc.code2).setWidth 32
  if diff0 = 0 ∧ diff1 = 0 ∧ diff2 = 0 then (0, dat)
  else if readEcc.code0 = 0xff ∧ readEcc.code1 = 0xff ∧ readEcc.code2 = 0xff ∧
      ignoreUnsetEcc = true then (0, dat)
  else if (diff0 ^^^ diff0 >>> 1) &&& 0x55 = 0x55 ∧ (diff1 ^^^ diff1 >>> 1) &&& 0x55 = 0x55 ∧
      (diff2 ^^^ diff2 >>> 1) &&& 0x55 = 0x55 then
    (1, flipBit dat ((bytePosition diff0 diff1 diff2).toNat, (bitPosition diff2).toNat))
  else
    let diff0 := diff0 ||| diff1 <<< 8
    let diff0 := diff0 ||| diff2 <<< 16
    if diff0 &&& ~~~(1#32 <<< fls diff0) = 0 then (1, dat) else (-1, dat)

/-! ## What `fls` clears -/

section Fls

variable {x : Word} {p : Word × Nat} {k n : Nat}

lemma toNat_lt_of_and_eq_zero (h : x &&& allOnes 32 <<< n = 0) : x.toNat < 2 ^ n := by
  refine Nat.lt_pow_two_of_testBit _ fun i hi => ?_
  rw [testBit_toNat]
  by_cases htop : i < 32
  · have hmask : (allOnes 32 <<< n).getLsbD i := by
      rw [getLsbD_shiftLeft, getLsbD_allOnes]
      have hlow : ¬ i < n := by omega
      have hin : i - n < 32 := by omega
      simp [htop, hlow, hin]
    have hbit := congrArg (getLsbD · i) h
    simpa only [getLsbD_and, hmask, Bool.and_true, ofNat_eq_ofNat, getLsbD_zero] using hbit
  · exact getLsbD_of_ge x i (by omega)

/-- The word of `p` is `x`, moved up by as much as the count is below 32. -/
def Moved (x : Word) (p : Word × Nat) : Prop :=
  p.2 ≤ 32 ∧ p.1.toNat = x.toNat * 2 ^ (32 - p.2)

lemma Moved.flsStep (h : Moved x p) (hx : x ≠ 0) (hk : k ≤ 32) {mask : Word}
    (hmask : mask = allOnes 32 <<< (32 - k)) : Moved x (flsStep k mask p) := by
  obtain ⟨hle, hval⟩ := h
  subst hmask
  unfold Nand.flsStep
  split_ifs with hmask
  · have hpos : 0 < x.toNat := by bv_omega
    have hlt := toNat_lt_of_and_eq_zero hmask
    have hge : k ≤ p.2 := by
      by_contra hlow
      have hpow : 2 ^ (32 - k) ≤ 2 ^ (32 - p.2) := Nat.pow_le_pow_right (by decide) (by omega)
      have hle := Nat.le_mul_of_pos_left (2 ^ (32 - p.2)) hpos
      omega
    have hroom : p.1.toNat * 2 ^ k < 2 ^ 32 := by
      calc p.1.toNat * 2 ^ k
          < 2 ^ (32 - k) * 2 ^ k := Nat.mul_lt_mul_of_pos_right hlt (Nat.two_pow_pos k)
        _ = 2 ^ 32 := by rw [← Nat.pow_add, Nat.sub_add_cancel hk]
    refine ⟨by simp only; omega, ?_⟩
    simp only [toNat_shiftLeft, Nat.shiftLeft_eq]
    rw [Nat.mod_eq_of_lt hroom, hval, mul_assoc, ← pow_add]
    congr 2
    omega
  · exact ⟨hle, hval⟩

lemma Moved.toNat_lt (h : Moved x p) : x.toNat < 2 ^ p.2 := by
  obtain ⟨hle, hval⟩ := h
  have hlt : x.toNat * 2 ^ (32 - p.2) < 2 ^ p.2 * 2 ^ (32 - p.2) := by
    rw [← hval, ← Nat.pow_add, Nat.add_sub_of_le hle]
    exact p.1.isLt
  exact Nat.lt_of_mul_lt_mul_right hlt

lemma toNat_lt_fls (hx : x ≠ 0) : x.toNat < 2 ^ fls x := by
  have hstart : Moved x (x, 32) := ⟨le_refl _, by simp⟩
  have h16 : Moved x (flsStep 16 0xffff0000 (x, 32)) := hstart.flsStep hx (by decide) rfl
  have h8 : Moved x (flsStep 8 0xff000000 _) := h16.flsStep hx (by decide) rfl
  have h4 : Moved x (flsStep 4 0xf0000000 _) := h8.flsStep hx (by decide) rfl
  have h2 : Moved x (flsStep 2 0xc0000000 _) := h4.flsStep hx (by decide) rfl
  have h1 : Moved x (flsStep 1 0x80000000 _) := h2.flsStep hx (by decide) rfl
  unfold fls
  rw [if_neg hx]
  exact h1.toNat_lt

lemma and_not_shiftLeft_fls (hx : x ≠ 0) : x &&& ~~~(1#32 <<< fls x) = x := by
  refine eq_of_getLsbD_eq fun i hi => ?_
  by_cases htop : i = fls x
  · have hclear : x.getLsbD (fls x) = false := Nat.testBit_lt_two_pow (toNat_lt_fls hx)
    simp [htop, hclear]
  · rw [getLsbD_and, getLsbD_not, getLsbD_one_shiftLeft hi]
    simp [hi, htop]

end Fls

/-! ## The two corrections -/

section Compare

lemma bitPosition_eq : ∀ b : Byte, (bitPosition (b.setWidth 32)).toNat = oddBits (b >>> 2) := by
  decide +kernel

/-- One bit of each pair is set. -/
abbrev Paired (b : Byte) : Prop := (b ^^^ b >>> 1) &&& 0x55 = 0x55

/-- The difference as a word has the pairs of the difference as a byte. -/
lemma wide_pairs :
    ∀ b : Byte, (b.setWidth 32 ^^^ b.setWidth 32 >>> 1) &&& 0x55#32 = 0x55#32 ↔ Paired b := by
  decide +kernel

lemma bitCount_of_pairs : ∀ b : Byte, Paired b → bitCount b = 4 := by
  decide +kernel

lemma bytePosition_parts :
    ∀ b : Byte,
      ((b.setWidth 32 >>> 4 &&& 0x08#32) ||| (b.setWidth 32 >>> 3 &&& 0x04#32) |||
        (b.setWidth 32 >>> 2 &&& 0x02#32) ||| (b.setWidth 32 >>> 1 &&& 0x01#32) =
        BitVec.ofNat 32 (oddBits b)) ∧
      ((b.setWidth 32 <<< 0 &&& 0x80#32) ||| (b.setWidth 32 <<< 1 &&& 0x40#32) |||
        (b.setWidth 32 <<< 2 &&& 0x20#32) ||| (b.setWidth 32 <<< 3 &&& 0x10#32) =
        BitVec.ofNat 32 (oddBits b <<< 4)) ∧
      b.setWidth 32 <<< 7 &&& 0x100#32 = BitVec.ofNat 32 (oddBits (b &&& 0x3) <<< 8) := by
  decide +kernel

lemma oddBits_lt (b : Byte) : oddBits b < 16 ∧ oddBits (b &&& 0x3) < 2 := by
  refine ⟨?_, ?_⟩
  · have h1 := Bool.toNat_le (b.getLsbD 1)
    have h3 := Bool.toNat_le (b.getLsbD 3)
    have h5 := Bool.toNat_le (b.getLsbD 5)
    have h7 := Bool.toNat_le (b.getLsbD 7)
    unfold oddBits
    omega
  · simpa [oddBits] using Bool.toNat_lt _

lemma or_eq_add {t h l : Nat} (ht : t < 2) (hh : h < 16) (hl : l < 16) :
    (BitVec.ofNat 32 (t <<< 8) ||| BitVec.ofNat 32 (h <<< 4) ||| BitVec.ofNat 32 l).toNat =
      t <<< 8 + h <<< 4 + l := by
  interval_cases t <;> interval_cases h <;> interval_cases l <;> rfl

/-- The two functions compute the same address. -/
lemma bytePosition_eq (b0 b1 b2 : Byte) :
    (bytePosition (b0.setWidth 32) (b1.setWidth 32) (b2.setWidth 32)).toNat =
      addressbits (b2 &&& 0x3) <<< 8 + addressbits b1 <<< 4 + addressbits b0 := by
  have hparts : bytePosition (b0.setWidth 32) (b1.setWidth 32) (b2.setWidth 32) =
      BitVec.ofNat 32 (oddBits (b2 &&& 0x3) <<< 8) ||| BitVec.ofNat 32 (oddBits b1 <<< 4) |||
        BitVec.ofNat 32 (oddBits b0) := by
    rw [← (bytePosition_parts b0).1, ← (bytePosition_parts b1).2.1, ← (bytePosition_parts b2).2.2,
      bytePosition]
    simp [BitVec.or_assoc]
  rw [hparts, addressbits_eq, addressbits_eq, addressbits_eq]
  exact or_eq_add (oddBits_lt b2).2 (oddBits_lt b1).1 (oddBits_lt b0).1

lemma wide_eq_zero (b : Byte) :
    (b.setWidth 32 = 0#32 ↔ b = 0) ∧ (b.setWidth 32 <<< 8 = 0#32 ↔ b = 0) ∧
      (b.setWidth 32 <<< 16 = 0#32 ↔ b = 0) := by
  refine ⟨?_, ?_, ?_⟩ <;> constructor <;> intro h <;> bv_omega

variable {b0 b1 b2 : Byte} {ignoreUnsetEcc : Bool} {dat : Buf} {readEcc calcEcc : Ecc}

/-- What is left after the bit above the highest has been cleared is not zero, so that a
difference without all pairs is given up. -/
lemma s3c2410CorrectData_diff (hread : readEcc ≠ ⟨0xff, 0xff, 0xff⟩)
    (hdiff : readEcc.diff calcEcc = ⟨b0, b1, b2⟩) :
    s3c2410CorrectData ignoreUnsetEcc dat readEcc calcEcc =
      if b0 = 0 ∧ b1 = 0 ∧ b2 = 0 then ((0 : Int), dat)
      else if Paired b0 ∧ Paired b1 ∧ Paired b2 then
        (1, flipBit dat (addressbits (b2 &&& 0x3) <<< 8 + addressbits b1 <<< 4 + addressbits b0,
          addressbits (b2 >>> 2)))
      else (-1, dat) := by
  obtain ⟨rfl, rfl, rfl⟩ := Ecc.mk.inj hdiff
  have hset : ¬ (readEcc.code0 = 0xff ∧ readEcc.code1 = 0xff ∧ readEcc.code2 = 0xff ∧
      ignoreUnsetEcc) := by
    rintro ⟨h0, h1, h2, -⟩
    cases readEcc
    exact hread (by simp_all)
  unfold s3c2410CorrectData
  dsimp only
  generalize readEcc.code0 ^^^ calcEcc.code0 = b0
  generalize readEcc.code1 ^^^ calcEcc.code1 = b1
  generalize readEcc.code2 ^^^ calcEcc.code2 = b2
  rw [if_neg hset, bytePosition_eq, bitPosition_eq, ← addressbits_eq]
  simp only [ofNat_eq_ofNat, wide_pairs, (wide_eq_zero _).1]
  split_ifs with hsame hpairs hcleared
  · rfl
  · rfl
  · -- the word of all differences
    have hword : b0.setWidth 32 ||| b1.setWidth 32 <<< 8 ||| b2.setWidth 32 <<< 16 ≠ 0#32 := by
      intro h
      obtain ⟨h01, h2⟩ := or_eq_zero_iff.mp h
      obtain ⟨h0, h1⟩ := or_eq_zero_iff.mp h01
      exact hsame ⟨(wide_eq_zero b0).1.mp h0, (wide_eq_zero b1).2.1.mp h1,
        (wide_eq_zero b2).2.2.mp h2⟩
    rw [and_not_shiftLeft_fls hword] at hcleared
    exact absurd hcleared hword
  · rfl

/-- The controller's correction is that of the software ECC, but it never takes a single
difference for one of the code. -/
lemma s3c2410CorrectData_eq (hread : readEcc ≠ ⟨0xff, 0xff, 0xff⟩) :
    let d := readEcc.diff calcEcc
    s3c2410CorrectData ignoreUnsetEcc dat readEcc calcEcc =
      if bitsperbyte d.code0 + bitsperbyte d.code1 + bitsperbyte d.code2 = 1 then (-1, dat)
      else repair 2 d.code0 d.code1 d.code2 dat := by
  intro d
  have hdiff : readEcc.diff calcEcc = ⟨d.code0, d.code1, d.code2⟩ := rfl
  have hmult : (2 : Nat) ≠ 1 := by decide
  rw [s3c2410CorrectData_diff hread hdiff]
  simp only [repair, or_or_eq_zero, hmult, false_and, false_or, true_and, if_false]
  by_cases hone : bitsperbyte d.code0 + bitsperbyte d.code1 + bitsperbyte d.code2 = 1
  · -- one bit is neither none nor one of each pair
    have hsome : ¬ (d.code0 = 0 ∧ d.code1 = 0 ∧ d.code2 = 0) := by
      rintro ⟨h0, h1, h2⟩
      simp [h0, h1, h2, bitsperbyte_eq, bitCount] at hone
    have hpairs : ¬ (Paired d.code0 ∧ Paired d.code1 ∧ Paired d.code2) := by
      rintro ⟨h0, -⟩
      rw [bitsperbyte_eq, bitCount_of_pairs _ h0] at hone
      omega
    rw [if_pos hone, if_neg hsome, if_neg hpairs]
  · rw [if_neg hone, if_neg hone]

end Compare

/-! ## Faults -/

section Faults

/-- The controller's code for 512 bytes holds the two parities of each bit of the address in the
places where the correction looks for them, inverted or not. -/
def StoresParities (code : Buf → Ecc) : Prop :=
  ∃ inverted : Nat → Bool → Bool, ∀ buf, ∀ s < 12, ∀ v,
    (code buf).slot true s v = (inverted s v ^^ addressParity (cells 512) addr s v (bits buf))

lemma calculateEcc_storesParities (bigEndian : Bool) :
    StoresParities fun buf => calculateEcc ⟨true, bigEndian⟩ buf 512 := by
  refine ⟨fun _ _ => true, fun buf s hs v => ?_⟩
  rw [Bool.true_xor]
  exact @slot_calculateEcc ⟨true, bigEndian⟩ buf s 512 (.inr rfl) hs (.inr rfl) v

/-- What may have happened between writing and reading. -/
inductive Fault where
  | nothing
  | dataBit (x : Nat × Nat)
  | eccBit (k t : Nat)
  deriving DecidableEq, Repr

def Fault.InBlock : Fault → Prop
  | .nothing => True
  | .dataBit x => x ∈ cells 512
  | .eccBit k t => k < 3 ∧ t < 8

def Fault.readData (dat : Buf) : Fault → Buf
  | .dataBit x => flipBit dat x
  | _ => dat

def Fault.readEcc (ecc : Ecc) : Fault → Ecc
  | .eccBit k t => ecc.flip k t
  | _ => ecc

def Fault.result : Fault → Int
  | .nothing => 0
  | _ => 1

variable {ignoreUnsetEcc : Bool} {code : Buf → Ecc} {dat : Buf} {x : Nat × Nat} {e : Ecc}
  {k t : Nat}

lemma s3c2410CorrectData_same : s3c2410CorrectData ignoreUnsetEcc dat e e = (0, dat) := by
  simp [s3c2410CorrectData]

lemma s3c2410CorrectData_flip (hcode : StoresParities code) (hx : x ∈ cells 512)
    (hread : code dat ≠ ⟨0xff, 0xff, 0xff⟩) :
    s3c2410CorrectData ignoreUnsetEcc (flipBit dat x) (code dat) (code (flipBit dat x)) =
      (1, dat) := by
  obtain ⟨inverted, hslot⟩ := hcode
  have hcancel : ∀ a p q : Bool, ((a ^^ p) ^^ (a ^^ q)) = (p ^^ q) := by decide
  have hspells : Spells true 2 ((code dat).diff (code (flipBit dat x))) x := by
    intro s hs _ v
    rw [Ecc.slot_diff, hslot dat s hs, hslot _ s hs, hcancel, bits_flipBit (mem_cells.mp hx).2,
      addressParity_flipAt hx]
  have hfour : bitsperbyte ((code dat).diff (code (flipBit dat x))).code0 = 4 := by
    rw [bitsperbyte_eq]
    exact bitCount_of_pairs _ (hspells.rows (k := 0) (by decide)).1
  rw [s3c2410CorrectData_eq hread, if_neg (by omega)]
  exact (hspells.repair (.inr rfl) hx).trans (by rw [flipBit_flipBit])

lemma s3c2410CorrectData_flipEcc (ht : t < 8) (hread : e.flip k t ≠ ⟨0xff, 0xff, 0xff⟩) :
    s3c2410CorrectData ignoreUnsetEcc dat (e.flip k t) e = (-1, dat) := by
  have hcount : bitsperbyte (1#8 <<< t) = 1 := by interval_cases t <;> decide
  have hnone : bitsperbyte 0#8 = 0 := rfl
  rw [s3c2410CorrectData_eq hread, if_pos]
  unfold Ecc.flip
  split <;> simp only [Ecc.diff, xor_xor_self, BitVec.xor_self, hcount, hnone]

/-- If the read code is not all ones, a correct block is left alone and a flipped data bit is
restored, but a flipped bit of the code is never recognised. -/
theorem s3c2410_corrects_iff (ignoreUnsetEcc : Bool) {code : Buf → Ecc}
    (hcode : StoresParities code) (dat : Buf) (f : Fault) (hf : f.InBlock)
    (hread : f.readEcc (code dat) ≠ ⟨0xff, 0xff, 0xff⟩) :
    s3c2410CorrectData ignoreUnsetEcc (f.readData dat) (f.readEcc (code dat))
        (code (f.readData dat)) = (f.result, dat) ↔
      ∀ k t, f ≠ .eccBit k t := by
  cases f with
  | nothing => exact iff_of_true s3c2410CorrectData_same (by simp)
  | dataBit x => exact iff_of_true (s3c2410CorrectData_flip hcode hf hread) (by simp)
  | eccBit k t =>
    refine iff_of_false ?_ (by simp)
    intro h
    have hbad : (-1, dat) = ((1 : Int), dat) := (s3c2410CorrectData_flipEcc hf.2 hread).symm.trans h
    simp at hbad

def oneBit : Buf := flipBit (fun _ => 0) (0, 0)

/-- A code as the controller may compute it. -/
def controllerEcc (buf : Buf) : Ecc := calculateEcc ⟨true, false⟩ buf 512

theorem oneBit_corrected :
    s3c2410CorrectData false (flipBit oneBit (300, 5)) (controllerEcc oneBit)
      (controllerEcc (flipBit oneBit (300, 5))) = (1, oneBit) :=
  (s3c2410_corrects_iff false (calculateEcc_storesParities false) oneBit (.dataBit (300, 5))
    (mem_cells.mpr (by decide)) (by decide +kernel)).mpr (by simp)

/-- The lowest bit of the stored code is flipped, and the block is given up. -/
theorem oneBit_given_up :
    StoresParities controllerEcc ∧ (controllerEcc oneBit).flip 0 0 ≠ ⟨0xff, 0xff, 0xff⟩ ∧
      (s3c2410CorrectData false oneBit ((controllerEcc oneBit).flip 0 0)
        (controllerEcc oneBit)).1 = -1 :=
  ⟨calculateEcc_storesParities false, by decide +kernel, by decide +kernel⟩

end Faults

end Mini2440.Nand
