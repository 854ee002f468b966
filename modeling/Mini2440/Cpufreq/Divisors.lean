import Mini2440.Cpufreq.Registers

/-!
# The divisors of the S3C2440

What `s3c2440_cpufreq_calcdivs` finds, with a loop that moves its own counter past 5 and 7: the
smallest divisor of the bus clock that keeps to the limit. The divisors then go through the
registers, written by `s3c2440_cpufreq_setdivs` and read back by `s3c244x_setup_clocks`.
-/

namespace Mini2440.Cpufreq

open List Library

/-- `s3c2440_cpufreq_calcdivs`: what it returns and the configuration that it leaves. -/
def s3c2440CpufreqCalcdivs (cfg : Config) : Int × Config :=
  match s3c2440.calcDivs cfg with
  | none => (-EINVAL, cfg)
  | some new => (0, new)

/-! ## The loop -/

lemma bounds_of_mem_hdivs : ∀ hdiv ∈ hdivs, 0 < hdiv ∧ hdiv ≤ 8 := by
  decide

def hclkLimit (cfg : Config) : Nat :=
  if cfg.freq.armclk < cfg.freq.fclk then min cfg.max.hclk cfg.freq.armclk else cfg.max.hclk

lemma hclkLimit_eq (cfg : Config) :
    (let armclk := if cfg.freq.armclk > cfg.freq.fclk then cfg.freq.fclk else cfg.freq.armclk
      if armclk < cfg.freq.fclk ∧ armclk < cfg.max.hclk then armclk else cfg.max.hclk) =
      hclkLimit cfg := by
  grind [hclkLimit]

/-- The divisor that the loop leaves with, if there is one. -/
def chosen (cfg : Config) : Option Nat :=
  hdivs.find? fun hdiv => hclkFits (hclkLimit cfg) (cfg.freq.fclk / hdiv)

def withDivs (cfg : Config) (hdiv : Nat) : Config :=
  let hclk := cfg.freq.fclk / hdiv
  let dvs := decide (cfg.freq.armclk < cfg.freq.fclk ∧ hclk < cfg.freq.fclk)
  { cfg with
    freq := { cfg.freq with armclk := if dvs then hclk else cfg.freq.fclk }
    divs :=
      { cfg.divs with
        dvs := dvs
        hDivisor := hdiv
        pDivisor := if hclk ≤ cfg.max.pclk then hdiv else 2 * hdiv } }

lemma s3c2440CpufreqCalcdivs_eq (cfg : Config) :
    s3c2440CpufreqCalcdivs cfg =
      match chosen cfg with
      | none => (-EINVAL, cfg)
      | some hdiv =>
        if cfg.freq.fclk / hdiv / 2 ≤ cfg.max.pclk then (0, withDivs cfg hdiv)
        else (-EINVAL, cfg) := by
  have hlimit := hclkLimit_eq cfg
  simp only [s3c2440CpufreqCalcdivs, Chip.calcDivs, s3c2440, s3c2440Calcdivs, hlimit, hdivLoop_eq,
    chosen]
  cases hfind : hdivs.find? fun hdiv => hclkFits (hclkLimit cfg) (cfg.freq.fclk / hdiv) with
  | none => rfl
  | some hdiv =>
    have hle : ¬hdiv > 8 := (bounds_of_mem_hdivs _ (mem_of_find?_eq_some hfind)).2.not_gt
    have hdiv_le : cfg.freq.fclk / hdiv ≤ cfg.freq.fclk := Nat.div_le_self _ _
    simp only [hle, if_false]
    by_cases hp : cfg.freq.fclk / hdiv / 2 ≤ cfg.max.pclk
    · rw [if_pos hp, if_neg (by grind), Option.map_some]
      simp only [withDivs]
      grind
    · rw [if_neg hp, if_pos (by grind), Option.map_none]

/-! ## What the calculation finds -/

lemma withinKhz_iff {a b : Nat} (ha : a < 2 ^ 31) (hb : b < 2 ^ 31) :
    withinKhz a b ↔ a ≤ b + 1000 ∧ b ≤ a + 1000 := by
  have hbmod : Int.bmod ((a : Int) - b) (2 ^ 32) = (a : Int) - b := by
    apply Int.bmod_eq_of_le <;> omega
  simp only [withinKhz, decide_eq_true_eq]
  omega

lemma hclkFits_iff {hclkMax hclk : Nat} (hmax : hclkMax < 2 ^ 31) (hhclk : hclk < 2 ^ 31) :
    hclkFits hclkMax hclk ↔ hclk ≤ hclkMax + 1000 := by
  rw [hclkFits, Bool.or_eq_true, decide_eq_true_eq, withinKhz_iff hhclk hmax]
  omega

/-- The smallest divisor of the bus clock that keeps to the limit, with a tolerance of 1 kHz. -/
structure Smallest (cfg : Config) (h : Nat) : Prop where
  mem : h ∈ hdivs
  fits : cfg.freq.fclk / h ≤ hclkLimit cfg + 1000
  le : ∀ h' ∈ hdivs, cfg.freq.fclk / h' ≤ hclkLimit cfg + 1000 → h ≤ h'

structure Rated (cfg : Config) : Prop where
  fclk : cfg.freq.fclk < 2 ^ 31
  armclk : cfg.freq.armclk < 2 ^ 31
  hclk : cfg.max.hclk < 2 ^ 31
  pclk : cfg.max.pclk < 2 ^ 31

variable {cfg : Config} {divs : Divs}

lemma Rated.hclkFits_iff (h : Rated cfg) (hdiv : Nat) :
    hclkFits (hclkLimit cfg) (cfg.freq.fclk / hdiv) ↔
      cfg.freq.fclk / hdiv ≤ hclkLimit cfg + 1000 := by
  have hlimit : hclkLimit cfg < 2 ^ 31 := by
    have := h.hclk
    grind [hclkLimit]
  exact Cpufreq.hclkFits_iff hlimit (lt_of_le_of_lt (Nat.div_le_self _ _) h.fclk)

lemma chosen_eq_some_iff (h : Rated cfg) (hdiv : Nat) :
    chosen cfg = some hdiv ↔ Smallest cfg hdiv := by
  rw [chosen, find?_eq_some_iff_append]
  constructor
  · rintro ⟨hfits, before, after, happend, hbefore⟩
    have hsorted : hdivs.Pairwise (· < ·) := by decide
    have hmem : hdiv ∈ hdivs := by simp [happend]
    refine ⟨hmem, (h.hclkFits_iff hdiv).mp hfits, fun h' hmem' hfits' => ?_⟩
    rw [happend, mem_append, mem_cons] at hmem'
    rw [happend, pairwise_append, pairwise_cons] at hsorted
    rcases hmem' with hmem' | rfl | hmem'
    · have := hbefore h' hmem'
      rw [(h.hclkFits_iff h').mpr hfits'] at this
      cases this
    · exact le_rfl
    · exact (hsorted.2.1.1 h' hmem').le
  · intro hsmall
    obtain ⟨before, after, happend⟩ := append_of_mem hsmall.mem
    have hsorted : hdivs.Pairwise (· < ·) := by decide
    rw [happend, pairwise_append] at hsorted
    refine ⟨(h.hclkFits_iff hdiv).mpr hsmall.fits, before, after, happend, fun h' hmem' => ?_⟩
    rw [Bool.not_eq_true', ← Bool.not_eq_true, h.hclkFits_iff]
    intro hfits'
    have hle := hsmall.le h' (by simp [happend, hmem']) hfits'
    have hlt := hsorted.2.2 h' hmem' hdiv (by simp)
    omega

/-- What a successful calculation stores: the divisors, and an ARM clock that is the PLL or, in DVS,
the bus clock. -/
structure Stored (cfg new : Config) : Prop where
  smallest : Smallest cfg new.divs.hDivisor
  pdiv : new.divs.pDivisor = new.divs.hDivisor ∨ new.divs.pDivisor = 2 * new.divs.hDivisor
  pdiv_iff : new.divs.pDivisor = new.divs.hDivisor ↔
    cfg.freq.fclk / new.divs.hDivisor ≤ cfg.max.pclk
  armclk : new.freq.armclk =
    if new.divs.dvs then cfg.freq.fclk / new.divs.hDivisor else cfg.freq.fclk
  armclk_le : cfg.freq.armclk < cfg.freq.fclk → 1 < new.divs.hDivisor →
    new.freq.armclk ≤ cfg.freq.armclk + 1000

lemma stored_withDivs {hdiv : Nat} (h : Smallest cfg hdiv) : Stored cfg (withDivs cfg hdiv) := by
  have hpos := (bounds_of_mem_hdivs hdiv h.mem).1
  refine ⟨h, ?_, ?_, rfl, ?_⟩
  · simp only [withDivs]
    split_ifs
    · exact .inl rfl
    · exact .inr rfl
  · simp only [withDivs]
    split_ifs with hp
    · exact iff_of_true rfl hp
    · bv_omega
  · intro hlt hone
    -- a divisor above one makes the bus clock slower than the PLL, so DVS is on
    have hslow : cfg.freq.fclk / hdiv < cfg.freq.fclk :=
      Nat.div_lt_self (by omega) hone
    have hlimit : hclkLimit cfg ≤ cfg.freq.armclk := by
      rw [hclkLimit, if_pos hlt]
      exact min_le_right _ _
    have harmclk : (withDivs cfg hdiv).freq.armclk = cfg.freq.fclk / hdiv := by
      simp [withDivs, hlt, hslow]
    rw [harmclk]
    exact h.fits.trans (by omega)

/-- The calculation succeeds if and only if some divisor fits and the peripherals can run at half
the bus clock of the smallest one. It then stores the smallest one, and otherwise nothing. -/
theorem calcdivs_smallest (cfg : Config) (h : Rated cfg) :
    ((s3c2440CpufreqCalcdivs cfg).1 = 0 ↔
        ∃ hdiv, Smallest cfg hdiv ∧ cfg.freq.fclk / hdiv / 2 ≤ cfg.max.pclk) ∧
      ((s3c2440CpufreqCalcdivs cfg).1 = 0 → Stored cfg (s3c2440CpufreqCalcdivs cfg).2) ∧
      ((s3c2440CpufreqCalcdivs cfg).1 ≠ 0 → s3c2440CpufreqCalcdivs cfg = (-EINVAL, cfg)) := by
  have hchosen := chosen_eq_some_iff h
  rw [s3c2440CpufreqCalcdivs_eq]
  have hinval : ¬-EINVAL = 0 := by decide
  cases hc : chosen cfg with
  | none =>
    refine ⟨iff_of_false hinval ?_, fun h0 => absurd h0 hinval, fun _ => rfl⟩
    rintro ⟨hdiv, hsmall, -⟩
    rw [(hchosen hdiv).mpr hsmall] at hc
    cases hc
  | some hdiv =>
    have hsmall := (hchosen hdiv).mp hc
    by_cases hp : cfg.freq.fclk / hdiv / 2 ≤ cfg.max.pclk
    · simp only [hp, if_true]
      exact ⟨iff_of_true trivial ⟨hdiv, hsmall, hp⟩, fun _ => stored_withDivs hsmall,
        fun h0 => absurd rfl h0⟩
    · simp only [hp, if_false]
      refine ⟨iff_of_false hinval ?_, fun h0 => absurd h0 hinval, fun _ => trivial⟩
      rintro ⟨hdiv', hsmall', hp'⟩
      have := (hchosen hdiv').mpr hsmall'
      rw [hc, Option.some.injEq] at this
      exact hp (this ▸ hp')

/-- The PLL at 400 MHz, with a request for 100 MHz and the limits of the chip. -/
def request100 : Config where
  freq := ⟨400000000, 100000000, 0, 0, 0⟩
  max := ⟨400000000, 0, 0, 133333333, 66666666⟩
  pll := ⟨0, 400000000⟩
  divs := ⟨0, 0, 0, false⟩
  lockPll := false

/-- The bus clock is divided by four and the core runs at its speed. -/
theorem request100_calcdivs :
    (s3c2440CpufreqCalcdivs request100).1 = 0 ∧
      Stored request100 (s3c2440CpufreqCalcdivs request100).2 ∧
      (s3c2440CpufreqCalcdivs request100).2.divs = ⟨8, 4, 0, true⟩ := by
  have hrated : Rated request100 := ⟨by decide, by decide, by decide, by decide⟩
  have hok : (s3c2440CpufreqCalcdivs request100).1 = 0 := by decide
  exact ⟨hok, (calcdivs_smallest request100 hrated).2.1 hok, by decide⟩

/-! ## Through the registers -/

lemma hDivisor_mem_of_calcdivs {new : Config} (h : s3c2440CpufreqCalcdivs cfg = (0, new)) :
    new.divs.hDivisor ∈ hdivs ∧ new.divs.pDivisor = Regs.pdivOf new.divs * new.divs.hDivisor := by
  rw [s3c2440CpufreqCalcdivs_eq] at h
  have hinval : ¬-EINVAL = 0 := by decide
  cases hc : chosen cfg with
  | none =>
    rw [hc] at h
    exact absurd (congrArg Prod.fst h) hinval
  | some hdiv =>
    rw [hc] at h
    have hmem : hdiv ∈ hdivs := mem_of_find?_eq_some hc
    simp only at h
    split at h
    · obtain rfl : withDivs cfg hdiv = new := congrArg Prod.snd h
      exact ⟨hmem, by grind [withDivs, Regs.pdivOf]⟩
    · exact absurd (congrArg Prod.fst h) hinval

/-- The bits of `CLKDIVN` and `CAMDIVN` that divisors and DVS take up. -/
def clkdivnDivs : BitVec 32 := clkdivnHdivnMask ||| clkdivnPdivn
def camdivnDivs : BitVec 32 := camdivnHclkHalf ||| camdivnDvsen

lemma clkdivFor_and_not (r : Regs) (hmem : divs.hDivisor ∈ hdivs) :
    clkdivFor r divs &&& ~~~clkdivnDivs = r.clkdivn &&& ~~~clkdivnDivs := by
  have hpdivn : ~~~clkdivnDivs &&& (if divs.pDivisor ≠ divs.hDivisor then clkdivnPdivn else 0) =
      0#32 := by
    split_ifs <;> decide
  have hhdivn : ~~~clkdivnDivs &&& (hdivBits divs.hDivisor).1 = 0#32 :=
    (by decide : ∀ hdiv ∈ hdivs, ~~~clkdivnDivs &&& (hdivBits hdiv).1 = 0#32) _ hmem
  rw [clkdivFor, BitVec.or_assoc, clear_or_and_of_disjoint (by decide)]
  rw [BitVec.and_or_distrib_left, hhdivn, hpdivn]
  rfl

lemma camdivFor_and_not (r : Regs) (hmem : divs.hDivisor ∈ hdivs) :
    camdivFor r divs &&& ~~~camdivnDivs = r.camdivn &&& ~~~camdivnDivs := by
  have hhalf : ~~~camdivnDivs &&& (hdivBits divs.hDivisor).2 = 0#32 :=
    (by decide : ∀ hdiv ∈ hdivs, ~~~camdivnDivs &&& (hdivBits hdiv).2 = 0#32) _ hmem
  rw [camdivFor, clear_or_and_of_disjoint (by decide) hhalf]

/-- Whatever the registers were, the divisors that a calculation has stored are the ones that are
read back, DVS is on if it was asked for, and no other bit changes. -/
theorem setdivs_read_back (xtal : Nat) (r : Regs) (cfg new : Config)
    (h : s3c2440CpufreqCalcdivs cfg = (0, new)) :
    let r' := runFrom Regs.write r (setdivs r new)
    r'.fclk xtal = r.fclk xtal ∧
      r'.hclk xtal = r.fclk xtal / new.divs.hDivisor ∧
      (new.divs.pDivisor = new.divs.hDivisor ∧ r'.pclk xtal = r'.hclk xtal ∨
        new.divs.pDivisor = 2 * new.divs.hDivisor ∧ r'.pclk xtal = r'.hclk xtal / 2) ∧
      (r'.camdivn &&& camdivnDvsen ≠ 0 ↔ new.divs.dvs = true) ∧
      r'.clkdivn &&& ~~~clkdivnDivs = r.clkdivn &&& ~~~clkdivnDivs ∧
      r'.camdivn &&& ~~~camdivnDivs = r.camdivn &&& ~~~camdivnDivs := by
  intro r'
  obtain ⟨hmem, hpdiv⟩ := hDivisor_mem_of_calcdivs h
  have hset : SetDivs r new r' := setDivs_setdivs r hmem
  have hfclk : r'.fclk xtal = r.fclk xtal := by rw [Regs.fclk, hset.mpllcon, Regs.fclk]
  have hcamdivn : r'.camdivn =
      camdivFor r new.divs &&& ~~~camdivnDvsen ||| if new.divs.dvs then camdivnDvsen else 0 := rfl
  refine ⟨hfclk, by rw [Regs.hclk, hfclk, hset.hdiv], ?_, ?_, clkdivFor_and_not r hmem, ?_⟩
  · rw [Regs.pclk, hset.pdiv, hpdiv, Regs.pdivOf]
    split_ifs with hne
    · exact .inr ⟨rfl, rfl⟩
    · bv_omega
  · rw [hcamdivn, clear_or_and (by decide)]
    cases new.divs.dvs <;> decide
  · have hdvs : ~~~camdivnDivs &&& (if new.divs.dvs then camdivnDvsen else 0) = 0 := by
      split_ifs <;> decide
    rw [hcamdivn, clear_or_and_of_disjoint (by decide) hdvs, camdivFor_and_not r hmem]

/-- Both registers with all bits set, before the divisors of the request for 100 MHz. -/
theorem request100_read_back :
    let r : Regs := ⟨0x7f021, 0xFFFFFFFF, 0xFFFFFFFF, 0, fun _ => 0⟩
    let new := (s3c2440CpufreqCalcdivs request100).2
    let r' := runFrom Regs.write r (setdivs r new)
    r'.hclk 12000000 = r.fclk 12000000 / 4 ∧ r'.pclk 12000000 = r'.hclk 12000000 / 2 := by
  have h := setdivs_read_back 12000000 ⟨0x7f021, 0xFFFFFFFF, 0xFFFFFFFF, 0, fun _ => 0⟩ request100 _
    (rfl : s3c2440CpufreqCalcdivs request100 = (0, (s3c2440CpufreqCalcdivs request100).2))
  refine ⟨h.2.1, ?_⟩
  rcases h.2.2.1 with ⟨hne, -⟩ | ⟨-, hpclk⟩
  · exact absurd hne (by decide)
  · exact hpclk

end Mini2440.Cpufreq
