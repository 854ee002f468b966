import Mathlib.Tactic.IntervalCases
import Mathlib.Tactic.Linarith
import Mini2440.I2c.Controller

/-!
# The bus clock

`s3c24xx_i2c_clockrate` derives the bus clock from the input clock: divided by 16 or 512, as
`TXDIV_512` says, and by the prescaler field plus one. It works in whole kHz, and the divisor
it chooses can be 17, which has no place in the field.

Rates are natural numbers here. Of the values that the driver computes from 32-bit rates only
the SDA delay can be too large for 32 bits.
-/

namespace Mini2440.I2c

open Library

/-- The fields of `struct s3c2410_platform_i2c` for the clock. -/
structure Pdata where
  frequency : Nat
  sdaDelay : Nat

def Pdata.target (pdata : Pdata) : Nat :=
  if pdata.frequency = 0 then 100000 else pdata.frequency

structure Divisor where
  freq : Nat
  div1 : Nat
  divs : Nat
  deriving DecidableEq, Repr

/-- `s3c24xx_i2c_calcdivisor`. -/
def calcdivisor (clkin wanted : Nat) : Divisor :=
  let calcDivs := clkin / wanted
  let calcDiv1 := if calcDivs > 16 * 16 then 512 else 16
  let calcDivs := (calcDivs + (calcDiv1 - 1)) / calcDiv1
  let calcDivs := if calcDivs = 0 then 1 else calcDivs
  let calcDivs := if calcDivs > 17 then 17 else calcDivs
  { freq := clkin / (calcDivs * calcDiv1), div1 := calcDiv1, divs := calcDivs }

structure Clocking where
  clkrate : Nat
  iiccon : BitVec 32
  iiclc : BitVec 32

def conScalemask : BitVec 32 := 0xf

/-- `DIV_ROUND_UP` of 32-bit numbers. -/
def divRoundUp (n d : Nat) : Nat := (n + d - 1) % 2 ^ 32 / d

/-- The value for `IICLC`. The last bit set is `S3C2410_IICLC_FILTER_ON`. -/
def lineControl (clkin sdaDelay : Nat) : BitVec 32 :=
  if sdaDelay = 0 then 0
  else
    let delay := divRoundUp (clkin * sdaDelay % 2 ^ 32) 1000000
    let delay := divRoundUp delay 5
    let delay := if delay > 3 then 3 else delay
    setBit (BitVec.ofNat 32 delay) 2

def scaled (iiccon : BitVec 32) (d : Divisor) : BitVec 32 :=
  let iiccon := iiccon &&& ~~~(conScalemask ||| 1#32 <<< conTxdiv512)
  let iiccon := iiccon ||| BitVec.ofNat 32 (d.divs - 1)
  if d.div1 = 512 then setBit iiccon conTxdiv512 else iiccon

/-- `s3c24xx_i2c_clockrate`, for the rate of the input clock. The result is the frequency
reached, in kHz. -/
def clockrate (quirks : BitVec 32) (rate : Nat) (pdata : Pdata) (s : Clocking) :
    Except Int Nat × Clocking :=
  let s := { s with clkrate := rate }
  let clkin := rate / 1000
  let targetFrequency := pdata.target / 1000
  let d := calcdivisor clkin targetFrequency
  if d.freq > targetFrequency then (.error (-EINVAL), s)
  else
    let s := { s with iiccon := scaled s.iiccon d }
    if quirks &&& quirkS3c2440 ≠ 0 then
      (.ok d.freq, { s with iiclc := lineControl clkin pdata.sdaDelay })
    else (.ok d.freq, s)

/-! ## What the registers mean -/

def scale (iiccon : BitVec 32) : Nat := (iiccon &&& conScalemask).toNat

def txdiv (iiccon : BitVec 32) : Nat := if iiccon.getLsbD conTxdiv512 then 512 else 16

def busFrequency (rate : Nat) (iiccon : BitVec 32) : ℚ := rate / txdiv iiccon / (scale iiccon + 1)

lemma txdiv_pos (iiccon : BitVec 32) : 0 < txdiv iiccon := by
  rw [txdiv]
  split_ifs <;> decide

lemma busFrequency_le_iff {rate f : Nat} {iiccon : BitVec 32} :
    busFrequency rate iiccon ≤ f ↔ rate ≤ f * (txdiv iiccon * (scale iiccon + 1)) := by
  have hpos : (0 : ℚ) < txdiv iiccon * (scale iiccon + 1) := by
    have := txdiv_pos iiccon
    positivity
  rw [busFrequency, div_div, div_le_iff₀ hpos]
  exact_mod_cast Iff.rfl

lemma scale_lt (iiccon : BitVec 32) : scale iiccon < 16 := by
  have hle : scale iiccon ≤ 15 := by
    exact Nat.and_le_right
  omega

lemma getLsbD_scalemask {j : Nat} (hj : j < 32) : conScalemask.getLsbD j = decide (j < 4) := by
  interval_cases j <;> rfl

section

variable {old : BitVec 32} {d : Divisor} {j : Nat}

lemma getLsbD_divs (h : d.divs ≤ 16) (hj : 4 ≤ j) :
    (BitVec.ofNat 32 (d.divs - 1)).getLsbD j = false := by
  have hlt : d.divs - 1 < 2 ^ j :=
    Nat.lt_of_lt_of_le (by omega) (Nat.pow_le_pow_right (by decide) hj)
  simp [BitVec.getLsbD_ofNat, Nat.testBit_lt_two_pow hlt]

lemma getLsbD_scaled (h : d.divs ≤ 16) (hj : j < 32) :
    (scaled old d).getLsbD j =
      if j < 4 then (BitVec.ofNat 32 (d.divs - 1)).getLsbD j
      else if j = conTxdiv512 then decide (d.div1 = 512)
      else old.getLsbD j := by
  have hbase : (old &&& ~~~(conScalemask ||| 1#32 <<< conTxdiv512) |||
      BitVec.ofNat 32 (d.divs - 1)).getLsbD j =
        (old.getLsbD j && !(decide (j < 4) || decide (j = conTxdiv512)) ||
          (BitVec.ofNat 32 (d.divs - 1)).getLsbD j) := by
    rw [BitVec.getLsbD_or, BitVec.getLsbD_and, BitVec.getLsbD_not, BitVec.getLsbD_or,
      getLsbD_scalemask hj, getLsbD_one_shiftLeft hj, decide_eq_true hj, Bool.true_and]
  by_cases hlow : j < 4
  · have hne : j ≠ conTxdiv512 := by
      rintro rfl
      exact absurd hlow (by decide)
    rw [scaled]
    split_ifs
    · rw [getLsbD_setBit hj, hbase]
      simp [hlow, hne]
    · rw [hbase]
      simp [hlow]
  · have hdivs := getLsbD_divs h (Nat.le_of_not_lt hlow)
    rw [if_neg hlow, scaled]
    by_cases hdiv : d.div1 = 512
    · rw [if_pos hdiv, getLsbD_setBit hj, hbase, hdivs]
      by_cases heq : j = conTxdiv512 <;> simp [hlow, heq, hdiv]
    · rw [if_neg hdiv, hbase, hdivs]
      by_cases heq : j = conTxdiv512 <;> simp [hlow, heq, hdiv]

lemma scale_scaled (h : d.divs ≤ 16) : scale (scaled old d) = d.divs - 1 := by
  have heq : scaled old d &&& conScalemask = BitVec.ofNat 32 (d.divs - 1) := by
    apply BitVec.eq_of_getLsbD_eq
    intro j hj
    rw [BitVec.getLsbD_and, getLsbD_scaled h hj, getLsbD_scalemask hj]
    by_cases hlow : j < 4
    · simp [hlow]
    · simp [hlow, getLsbD_divs h (Nat.le_of_not_lt hlow)]
  rw [scale, heq, BitVec.toNat_ofNat]
  omega

lemma txdiv_scaled (h : d.divs ≤ 16) : txdiv (scaled old d) = if d.div1 = 512 then 512 else 16 := by
  have hbit : (scaled old d).getLsbD conTxdiv512 = decide (d.div1 = 512) :=
    getLsbD_scaled h (by decide)
  rw [txdiv, hbit]
  simp

end

/-! ## The choice of the divisor -/

def firstDiv (q : Nat) : Nat := if q > 16 * 16 then 512 else 16

/-- The second divider for a quotient, as `s3c24xx_i2c_calcdivisor` rounds it. -/
def roundDivs (q : Nat) : Nat :=
  let divs := (q + (firstDiv q - 1)) / firstDiv q
  let divs := if divs = 0 then 1 else divs
  if divs > 17 then 17 else divs

lemma calcdivisor_eq (clkin wanted : Nat) :
    let q := clkin / wanted
    calcdivisor clkin wanted =
      { freq := clkin / (roundDivs q * firstDiv q), div1 := firstDiv q, divs := roundDivs q } := rfl

variable {q : Nat}

lemma roundDivs_of_lt (h : 8192 < q) : roundDivs q = 17 ∧ firstDiv q = 512 := by
  have hdiv : firstDiv q = 512 := if_pos (by omega)
  refine ⟨?_, hdiv⟩
  simp only [roundDivs, hdiv]
  split_ifs <;> omega

lemma firstDiv_cases (q : Nat) : firstDiv q = 512 ∧ 256 < q ∨ firstDiv q = 16 ∧ q ≤ 256 := by
  rw [firstDiv]
  split_ifs <;> omega

/-- Up to 8192 the quotient is divided by the first divider and rounded up. -/
lemma roundDivs_eq (hpos : 0 < q) (h : q ≤ 8192) :
    roundDivs q = (q + (firstDiv q - 1)) / firstDiv q := by
  obtain ⟨hdiv, -⟩ | ⟨hdiv, hq⟩ := firstDiv_cases q
  all_goals
    simp only [roundDivs, hdiv]
    split_ifs <;> omega

lemma roundDivs_bounds (h : q ≤ 8192) : 1 ≤ roundDivs q ∧ roundDivs q ≤ 16 := by
  obtain rfl | hpos := eq_zero_or_pos q
  · decide
  rw [roundDivs_eq hpos h]
  obtain ⟨hdiv, -⟩ | ⟨hdiv, hq⟩ := firstDiv_cases q <;> rw [hdiv] <;> omega

lemma roundDivs_mul (hpos : 0 < q) (h : q ≤ 8192) (hdvd : firstDiv q ∣ q) :
    roundDivs q * firstDiv q = q := by
  rw [roundDivs_eq hpos h]
  obtain ⟨hdiv, -⟩ | ⟨hdiv, hq⟩ := firstDiv_cases q <;> rw [hdiv] at hdvd ⊢ <;> omega

lemma lt_roundDivs_mul (h : q ≤ 8192) (hdvd : q = 0 ∨ ¬ firstDiv q ∣ q) :
    q < roundDivs q * firstDiv q := by
  obtain rfl | hpos := eq_zero_or_pos q
  · decide
  rw [roundDivs_eq hpos h]
  obtain ⟨hdiv, -⟩ | ⟨hdiv, hq⟩ := firstDiv_cases q <;> rw [hdiv] at hdvd ⊢ <;> omega

/-! ## Which requests are met -/

/-- A new value of `IICCON` for a divisor: only the two fields for the clock change, the
prescaler is one less than the divisor, and the bus is not faster than requested. -/
structure Programmed (rate target : Nat) (old new : BitVec 32) (divs : Nat) : Prop where
  others : ∀ j < 32, 4 ≤ j → j ≠ conTxdiv512 → new.getLsbD j = old.getLsbD j
  scale : scale new + 1 = divs
  frequency : busFrequency rate new ≤ target

/-- A request that succeeds is met by the registers, and one that fails cannot be met. -/
def ClockrateSound (quirks : BitVec 32) (rate : Nat) (pdata : Pdata) (s : Clocking) : Prop :=
  match clockrate quirks rate pdata s with
  | (.ok _, s') =>
    Programmed rate pdata.target s.iiccon s'.iiccon
      (calcdivisor (rate / 1000) (pdata.target / 1000)).divs
  | (.error _, _) => ∀ iiccon, (pdata.target : ℚ) < busFrequency rate iiccon

/-- With rates in whole kHz and their quotient: the first divider must not divide the quotient,
unless the frequencies themselves have at most that quotient, or no divider is enough. -/
def ClockFits (rate target : Nat) : Prop :=
  let clkin := rate / 1000
  let wanted := target / 1000
  let q := clkin / wanted
  if q ≤ 8192 then
    q = 0 ∨ ¬ firstDiv q ∣ q ∨ rate ≤ target * q ∨ q = 8192 ∧ 8192 * (wanted + 1) ≤ clkin
  else 8704 * (wanted + 1) ≤ clkin

variable {target : Nat}

/-- The greatest dividers decide whether there are any for a frequency. -/
lemma forall_lt_busFrequency {rate : Nat} :
    (∀ iiccon, (target : ℚ) < busFrequency rate iiccon) ↔ target * 8192 < rate := by
  simp only [← not_le, busFrequency_le_iff]
  constructor
  · intro h
    exact h (setBit conScalemask conTxdiv512)
  · intro h iiccon hle
    refine h (hle.trans (Nat.mul_le_mul_left target ?_))
    have htx : txdiv iiccon ≤ 512 := by
      rw [txdiv]
      split_ifs <;> decide
    calc txdiv iiccon * (scale iiccon + 1) ≤ 512 * 16 := Nat.mul_le_mul htx (scale_lt iiccon)
      _ = 8192 := rfl

variable {quirks : BitVec 32} {rate : Nat} {pdata : Pdata} {s : Clocking} {q : Nat}

lemma clockrateSound_of_error (hq : rate / 1000 / (pdata.target / 1000) = q)
    (h : pdata.target / 1000 < rate / 1000 / (roundDivs q * firstDiv q)) :
    ClockrateSound quirks rate pdata s ↔ pdata.target * 8192 < rate := by
  subst hq
  rw [ClockrateSound, clockrate, calcdivisor_eq, if_pos h]
  exact forall_lt_busFrequency

lemma programmed_scaled {d : Divisor} (old : BitVec 32)
    (hdiv : d.div1 = firstDiv q) (hpos : 1 ≤ d.divs) :
    Programmed rate target old (scaled old d) d.divs ↔
      d.divs ≤ 16 ∧ rate ≤ target * (d.divs * d.div1) := by
  have hfreq (h : d.divs ≤ 16) :
      busFrequency rate (scaled old d) ≤ target ↔ rate ≤ target * (d.divs * d.div1) := by
    have htx : txdiv (scaled old d) = d.div1 := by
      rw [txdiv_scaled h, hdiv]
      obtain ⟨hf, -⟩ | ⟨hf, -⟩ := firstDiv_cases q <;> rw [hf] <;> rfl
    rw [busFrequency_le_iff, scale_scaled h, htx, Nat.sub_add_cancel hpos, Nat.mul_comm d.div1]
  constructor
  · rintro ⟨-, hscale, hle⟩
    have h : d.divs ≤ 16 := by
      rw [← hscale]
      exact scale_lt _
    exact ⟨h, (hfreq h).mp hle⟩
  · rintro ⟨h, hle⟩
    refine ⟨fun j hj hlow hne => ?_, ?_, (hfreq h).mpr hle⟩
    · rw [getLsbD_scaled h hj, if_neg (by omega), if_neg hne]
    · rw [scale_scaled h, Nat.sub_add_cancel hpos]

lemma clockrateSound_of_ok (hq : rate / 1000 / (pdata.target / 1000) = q)
    (h : ¬ pdata.target / 1000 < rate / 1000 / (roundDivs q * firstDiv q)) :
    ClockrateSound quirks rate pdata s ↔
      roundDivs q ≤ 16 ∧ rate ≤ pdata.target * (roundDivs q * firstDiv q) := by
  have hpos : 1 ≤ roundDivs q := by
    obtain hlt | hle := lt_or_ge 8192 q
    · rw [(roundDivs_of_lt hlt).1]
      decide
    · exact (roundDivs_bounds hle).1
  let d : Divisor :=
    { freq := rate / 1000 / (roundDivs q * firstDiv q), div1 := firstDiv q, divs := roundDivs q }
  rw [← programmed_scaled (d := d) s.iiccon rfl hpos]
  subst hq
  rw [ClockrateSound, clockrate, calcdivisor_eq, if_neg h]
  split_ifs <;> rfl

lemma target_of_lt {k t p : Nat} (hk : rate / 1000 = k) (ht : target / 1000 = t)
    (hpos : 0 < t) (hq : k / t = q) (hlt : q < p) : k / p ≤ t ∧ rate ≤ target * p := by
  have hkt : k < t * p := by
    rw [← hq, Nat.div_lt_iff_lt_mul hpos, Nat.mul_comm] at hlt
    exact hlt
  refine ⟨Nat.div_le_of_le_mul (by rw [Nat.mul_comm]; exact hkt.le), ?_⟩
  calc rate ≤ 1000 * (k + 1) := by omega
    _ ≤ 1000 * (t * p) := Nat.mul_le_mul_left _ hkt
    _ = 1000 * t * p := (Nat.mul_assoc _ _ _).symm
    _ ≤ target * p := Nat.mul_le_mul_right _ (by omega)

lemma target_lt_of_le {k t p : Nat} (hk : rate / 1000 = k) (ht : target / 1000 = t)
    (hp : 0 < p) (hle : (t + 1) * p ≤ k) : target * p < rate :=
  calc target * p < 1000 * (t + 1) * p := mul_lt_mul_of_pos_right (by omega) hp
    _ = 1000 * ((t + 1) * p) := Nat.mul_assoc _ _ _
    _ ≤ 1000 * k := Nat.mul_le_mul_left _ hle
    _ ≤ rate := by omega

section

variable {k t : Nat} (hk : rate / 1000 = k) (ht : pdata.target / 1000 = t) (hq : k / t = q)

include hk ht hq

/-- Beyond a quotient of 8192 the second divider is 17, and only a failure is sound. -/
lemma clockrateSound_of_large (hlarge : 8192 < q) :
    ClockrateSound quirks rate pdata s ↔ 8704 * (t + 1) ≤ k := by
  have hq' : rate / 1000 / (pdata.target / 1000) = q := by rw [hk, ht, hq]
  have hdivs : roundDivs q * firstDiv q = 8704 := by
    rw [(roundDivs_of_lt hlarge).1, (roundDivs_of_lt hlarge).2]
  have hiff : t < k / 8704 ↔ 8704 * (t + 1) ≤ k := by
    rw [Nat.mul_comm]
    bv_omega
  rw [← hiff]
  by_cases herr : t < k / 8704
  · have hfits : (t + 1) * 8704 ≤ k := by bv_omega
    have hlt := target_lt_of_le hk ht (by norm_num) hfits
    rw [clockrateSound_of_error hq' (by rw [hk, ht, hdivs]; exact herr)]
    bv_omega
  · rw [clockrateSound_of_ok hq' (by rw [hk, ht, hdivs]; exact herr), (roundDivs_of_lt hlarge).1]
    bv_omega

/-- If the first divider divides the quotient, the dividers make up the quotient and no more. -/
lemma clockrateSound_of_dvd (hpos : 0 < t) (hqpos : 0 < q) (hle : q ≤ 8192)
    (hdvd : firstDiv q ∣ q) :
    ClockrateSound quirks rate pdata s ↔
      rate ≤ pdata.target * q ∨ q = 8192 ∧ 8192 * (t + 1) ≤ k := by
  have hq' : rate / 1000 / (pdata.target / 1000) = q := by rw [hk, ht, hq]
  have hdivs := roundDivs_mul hqpos hle hdvd
  have hiff : t < k / q ↔ (t + 1) * q ≤ k := Nat.le_div_iff_mul_le hqpos
  by_cases herr : t < k / q
  · have hlt := target_lt_of_le hk ht hqpos (hiff.mp herr)
    rw [clockrateSound_of_error hq' (by rw [hk, ht, hdivs]; exact herr)]
    constructor
    · intro hnone
      have hq8192 : q = 8192 := by
        by_contra hne
        obtain ⟨-, hrate⟩ := target_of_lt (p := 8192) hk ht hpos hq (by omega)
        exact absurd hnone (by omega)
      subst hq8192
      exact .inr ⟨rfl, by rw [mul_comm]; exact hiff.mp herr⟩
    · rintro (h | ⟨rfl, -⟩)
      · bv_omega
      · exact hlt
  · rw [clockrateSound_of_ok hq' (by rw [hk, ht, hdivs]; exact herr), hdivs]
    constructor
    · rintro ⟨-, hrate⟩
      exact .inl hrate
    · rintro (h | ⟨rfl, h⟩)
      · exact ⟨(roundDivs_bounds hle).2, h⟩
      · bv_omega

/-- Otherwise the dividers leave room for what the kHz rates have lost. -/
lemma clockrateSound_of_not_dvd (hpos : 0 < t) (hle : q ≤ 8192) (hdvd : q = 0 ∨ ¬ firstDiv q ∣ q) :
    ClockrateSound quirks rate pdata s := by
  have hq' : rate / 1000 / (pdata.target / 1000) = q := by rw [hk, ht, hq]
  obtain ⟨hkp, hrate⟩ := target_of_lt hk ht hpos hq (lt_roundDivs_mul hle hdvd)
  rw [clockrateSound_of_ok hq' (by rw [hk, ht]; exact not_lt.mpr hkp)]
  exact ⟨(roundDivs_bounds hle).2, hrate⟩

end

/-- The clock setup is sound exactly for the rates of `ClockFits`. -/
theorem clockrateSound_iff (quirks : BitVec 32) (rate : Nat) (pdata : Pdata) (s : Clocking)
    (htarget : 1000 ≤ pdata.target) :
    ClockrateSound quirks rate pdata s ↔ ClockFits rate pdata.target := by
  obtain ⟨k, hk⟩ : ∃ k, rate / 1000 = k := ⟨_, rfl⟩
  obtain ⟨t, ht⟩ : ∃ t, pdata.target / 1000 = t := ⟨_, rfl⟩
  obtain ⟨q, hq⟩ : ∃ q, k / t = q := ⟨_, rfl⟩
  have hpos : 0 < t := by omega
  simp only [ClockFits, hk, ht, hq]
  obtain hlarge | hle := lt_or_ge 8192 q
  · rw [if_neg (by omega)]
    exact clockrateSound_of_large hk ht hq hlarge
  rw [if_pos hle]
  by_cases hdvd : q = 0 ∨ ¬ firstDiv q ∣ q
  · have hsound : ClockrateSound quirks rate pdata s :=
      clockrateSound_of_not_dvd hk ht hq hpos hle hdvd
    exact iff_of_true hsound (hdvd.imp_right .inl)
  · obtain ⟨hqpos, hdvd'⟩ := not_or.mp hdvd
    rw [clockrateSound_of_dvd hk ht hq hpos (by omega) hle (not_not.mp hdvd'),
      or_iff_right hqpos, or_iff_right hdvd']

def Clocking.reset : Clocking := { clkrate := 0, iiccon := 0, iiclc := 0 }

theorem default_50MHz_sound : ClockrateSound 0 50000000 ⟨0, 0⟩ .reset := by
  refine (clockrateSound_iff 0 50000000 ⟨0, 0⟩ .reset ?_).mpr ?_ <;>
    norm_num [Pdata.target, ClockFits, firstDiv]

/-- The driver accepts 8 kHz from an input clock of 67.5 MHz: the divisor is 17, and the bit
that does not fit into the prescaler field sets `IRQPEND`. -/
theorem slow_67MHz_not_sound : ¬ ClockrateSound 0 67500000 ⟨8000, 0⟩ .reset := by
  intro h
  have hprog : Programmed 67500000 8000 0 0x50 17 := h
  have hscale : scale 0x50 + 1 = 17 := hprog.scale
  exact absurd hscale (by decide)

end Mini2440.I2c
