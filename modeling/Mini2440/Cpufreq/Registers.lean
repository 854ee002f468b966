import Mini2440.Cpufreq.Chip
import Mini2440.Library.Bits
import Mini2440.Library.Run

/-!
# The clock and memory registers of the S3C2440

The registers that a change of frequency writes, the frequencies that they stand for, as
`s3c244x_setup_clocks` reads them, and the writes that `cpufreq-s3c2440.c` and `cpufreq-utils.c`
make. A function that writes registers is the list of its writes, computed from the registers
that it finds.
-/

namespace Mini2440.Cpufreq

open BitVec Library

structure Regs where
  mpllcon : BitVec 32
  clkdivn : BitVec 32
  camdivn : BitVec 32
  refresh : BitVec 32
  bankcon : Fin 8 → BitVec 32

/-- `__raw_writel` to one of them. -/
inductive Write where
  | mpllcon (v : BitVec 32)
  | clkdivn (v : BitVec 32)
  | camdivn (v : BitVec 32)
  | refresh (v : BitVec 32)
  | bankcon (bank : Fin 8) (v : BitVec 32)

def clkdivnPdivn : BitVec 32 := 1 <<< 0
def clkdivnHdivnMask : BitVec 32 := 3 <<< 1
def clkdivnHdivn1 : BitVec 32 := 0 <<< 1
def clkdivnHdivn2 : BitVec 32 := 1 <<< 1
def clkdivnHdivn48 : BitVec 32 := 2 <<< 1
def clkdivnHdivn36 : BitVec 32 := 3 <<< 1
def camdivnHclk3Half : BitVec 32 := 1 <<< 8
def camdivnHclk4Half : BitVec 32 := 1 <<< 9
def camdivnDvsen : BitVec 32 := 1 <<< 12

def camdivnHclkHalf : BitVec 32 := camdivnHclk3Half ||| camdivnHclk4Half

/-- `s3c24xx_get_pll`. -/
def getPll (pllval : BitVec 32) (baseclk : Nat) : Nat :=
  let mdiv := ((pllval >>> 12) &&& 0xFF).toNat
  let pdiv := ((pllval >>> 4) &&& 0x1F).toNat
  let sdiv := (pllval &&& 0x3).toNat
  baseclk * (mdiv + 8) / ((pdiv + 2) <<< sdiv) % 2 ^ 32

/-- The frequency that a value of `MPLLCON` gives to a crystal. -/
def pllFclk (xtal : Nat) (pllval : BitVec 32) : Nat := getPll pllval xtal * 2 % 2 ^ 32

namespace Regs

@[simp] def write (r : Regs) : Write → Regs
  | .mpllcon v => { r with mpllcon := v }
  | .clkdivn v => { r with clkdivn := v }
  | .camdivn v => { r with camdivn := v }
  | .refresh v => { r with refresh := v }
  | .bankcon bank v => { r with bankcon := Function.update r.bankcon bank v }

def fclk (xtal : Nat) (r : Regs) : Nat := pllFclk xtal r.mpllcon

def hdiv (r : Regs) : Nat :=
  if r.clkdivn &&& clkdivnHdivnMask = clkdivnHdivn1 then 1
  else if r.clkdivn &&& clkdivnHdivnMask = clkdivnHdivn2 then 2
  else if r.clkdivn &&& clkdivnHdivnMask = clkdivnHdivn48 then
    if r.camdivn &&& camdivnHclk4Half ≠ 0 then 8 else 4
  else if r.camdivn &&& camdivnHclk3Half ≠ 0 then 6 else 3

/-- The divisor of the peripheral clock below the bus clock. -/
def pdiv (r : Regs) : Nat := if r.clkdivn &&& clkdivnPdivn ≠ 0 then 2 else 1

def hclk (xtal : Nat) (r : Regs) : Nat := r.fclk xtal / r.hdiv
def pclk (xtal : Nat) (r : Regs) : Nat := r.hclk xtal / r.pdiv

end Regs

/-! ## The writes of the driver -/

/-- `s3c2440_setparent_armclk`, for `clk_h` if `dvs` is set and for `clk_f` otherwise. -/
def setparentArmclk (r : Regs) (dvs : Bool) : List Write :=
  [.camdivn (r.camdivn &&& ~~~camdivnDvsen ||| if dvs then camdivnDvsen else 0)]

/-- The bits of `CLKDIVN` and `CAMDIVN` for a divisor of the bus clock. Other divisors than the
ones of `hdivs` are a `BUG()`. -/
def hdivBits (hdiv : Nat) : BitVec 32 × BitVec 32 :=
  match hdiv with
  | 1 => (clkdivnHdivn1, 0)
  | 2 => (clkdivnHdivn2, 0)
  | 6 => (clkdivnHdivn36, camdivnHclk3Half)
  | 3 => (clkdivnHdivn36, 0)
  | 8 => (clkdivnHdivn48, camdivnHclk4Half)
  | 4 => (clkdivnHdivn48, 0)
  | _ => (0, 0)

/-- The value that `s3c2440_cpufreq_setdivs` calculates for `CLKDIVN`. -/
def clkdivFor (r : Regs) (divs : Divs) : BitVec 32 :=
  (r.clkdivn &&& ~~~(clkdivnHdivnMask ||| clkdivnPdivn) ||| (hdivBits divs.hDivisor).1) |||
    if divs.pDivisor ≠ divs.hDivisor then clkdivnPdivn else 0

/-- The value that `s3c2440_cpufreq_setdivs` calculates for `CAMDIVN`. -/
def camdivFor (r : Regs) (divs : Divs) : BitVec 32 :=
  r.camdivn &&& ~~~camdivnHclkHalf ||| (hdivBits divs.hDivisor).2

/-- `s3c2440_cpufreq_setdivs`. -/
def setdivs (r : Regs) (cfg : Config) : List Write :=
  let clkdiv := clkdivFor r cfg.divs
  let camdiv := camdivFor r cfg.divs
  let ws : List Write := [.camdivn (camdiv ||| camdivnHclkHalf), .clkdivn clkdiv, .camdivn camdiv]
  ws ++ setparentArmclk (runFrom Regs.write r ws) cfg.divs.dvs

/-- `s3c2410_set_fvco`. -/
def setFvco (cfg : Config) : List Write := [.mpllcon (BitVec.ofNat 32 cfg.pll.index)]

/-- `s3c2410_cpufreq_setrefresh`; `period` is the refresh time of the board. -/
def setrefresh (period : Nat) (r : Regs) (cfg : Config) : List Write :=
  let refresh := cfg.freq.hclk / 100 * (period / 10) % 2 ^ 32
  let refresh := (refresh + (1000 * 1000 - 1)) % 2 ^ 32 / (1000 * 1000)
  let refresh : BitVec 32 := (1 <<< 11) + 1 - BitVec.ofNat 32 refresh
  let mask : BitVec 32 := (1 <<< 12) - 1
  [.refresh (r.refresh &&& ~~~mask ||| refresh)]

/-! ## What the writes do to the divisors -/

namespace Regs

variable {r r' : Regs} {divs : Divs}

/-- The divisor of the bus clock as a function of `HDIVN` and of the halving bits. -/
def hdivOf (hdivn half : BitVec 32) : Nat :=
  if hdivn = clkdivnHdivn1 then 1
  else if hdivn = clkdivnHdivn2 then 2
  else if hdivn = clkdivnHdivn48 then if half &&& camdivnHclk4Half ≠ 0 then 8 else 4
  else if half &&& camdivnHclk3Half ≠ 0 then 6 else 3

lemma hdiv_eq (r : Regs) :
    r.hdiv = hdivOf (r.clkdivn &&& clkdivnHdivnMask) (r.camdivn &&& camdivnHclkHalf) := by
  have h3 : camdivnHclkHalf &&& camdivnHclk3Half = camdivnHclk3Half := by decide
  have h4 : camdivnHclkHalf &&& camdivnHclk4Half = camdivnHclk4Half := by decide
  simp [hdiv, hdivOf, BitVec.and_assoc, h3, h4]

lemma hdivOf_le_half (hdivn half : BitVec 32) :
    hdivOf hdivn half ≤ hdivOf hdivn camdivnHclkHalf := by
  have h3 : camdivnHclkHalf &&& camdivnHclk3Half ≠ 0 := by decide
  have h4 : camdivnHclkHalf &&& camdivnHclk4Half ≠ 0 := by decide
  grind [hdivOf]

lemma pdiv_congr (h : r'.clkdivn &&& clkdivnPdivn = r.clkdivn &&& clkdivnPdivn) :
    r'.pdiv = r.pdiv := by
  simp [pdiv, h]

lemma hdiv_le_of_half (hclkdivn : r'.clkdivn = r.clkdivn)
    (hcamdivn : r'.camdivn &&& camdivnHclkHalf = camdivnHclkHalf) : r.hdiv ≤ r'.hdiv := by
  rw [hdiv_eq r', hcamdivn, hclkdivn]
  exact hdivOf_le_half _ _

lemma hdivBits_spec : ∀ d ∈ hdivs, (hdivBits d).1 &&& clkdivnHdivnMask = (hdivBits d).1 ∧
    (hdivBits d).1 &&& clkdivnPdivn = 0 ∧ (hdivBits d).2 &&& camdivnHclkHalf = (hdivBits d).2 ∧
    hdivOf (hdivBits d).1 (hdivBits d).2 = d := by
  decide

variable (r) in
lemma clkdivFor_hdivn (hmem : divs.hDivisor ∈ hdivs) :
    clkdivFor r divs &&& clkdivnHdivnMask = (hdivBits divs.hDivisor).1 := by
  have hpdivn : (if divs.pDivisor ≠ divs.hDivisor then clkdivnPdivn else 0) &&& clkdivnHdivnMask =
      0#32 := by
    split_ifs <;> decide
  rw [clkdivFor, and_or_distrib_right, clear_or_and (by decide),
    (hdivBits_spec _ hmem).1, hpdivn, or_zero]

variable (r) in
lemma camdivFor_half (hmem : divs.hDivisor ∈ hdivs) :
    camdivFor r divs &&& camdivnHclkHalf = (hdivBits divs.hDivisor).2 := by
  rw [camdivFor, clear_or_and (by decide), (hdivBits_spec _ hmem).2.2.1]

/-- The divisor below the bus clock that a configuration asks for. -/
def pdivOf (divs : Divs) : Nat := if divs.pDivisor ≠ divs.hDivisor then 2 else 1

lemma pdiv_of_clkdivFor (hmem : divs.hDivisor ∈ hdivs) (h : r'.clkdivn = clkdivFor r divs) :
    r'.pdiv = pdivOf divs := by
  rw [pdiv, h, clkdivFor, and_or_distrib_right, clear_or_and (by decide),
    (hdivBits_spec _ hmem).2.1, ofNat_eq_ofNat, pdivOf]
  by_cases hp : divs.pDivisor ≠ divs.hDivisor
  · simp only [if_pos hp]; decide
  · simp only [if_neg hp]; decide

lemma hdiv_of_clkdivFor (hmem : divs.hDivisor ∈ hdivs) (hclkdivn : r'.clkdivn = clkdivFor r divs)
    (hcamdivn : r'.camdivn &&& camdivnHclkHalf = (hdivBits divs.hDivisor).2) :
    r'.hdiv = divs.hDivisor := by
  rw [hdiv_eq, hclkdivn, hcamdivn, clkdivFor_hdivn r hmem, (hdivBits_spec _ hmem).2.2.2]

/-! ## Slower clocks -/

variable {xtal : Nat} {r'' : Regs}

structure Slower (xtal : Nat) (r r' : Regs) : Prop where
  fclk : r.fclk xtal ≤ r'.fclk xtal
  hdiv : r'.hdiv ≤ r.hdiv
  pdiv : r'.pdiv ≤ r.pdiv

lemma hdiv_pos (r : Regs) : 0 < r.hdiv := by grind [hdiv]

lemma pdiv_pos (r : Regs) : 0 < r.pdiv := by grind [pdiv]

namespace Slower

lemma refl (xtal : Nat) (r : Regs) : Slower xtal r r := ⟨le_rfl, le_rfl, le_rfl⟩

lemma trans (h : Slower xtal r r') (h' : Slower xtal r' r'') : Slower xtal r r'' :=
  ⟨h.fclk.trans h'.fclk, h'.hdiv.trans h.hdiv, h'.pdiv.trans h.pdiv⟩

lemma hclk (h : Slower xtal r r') : r.hclk xtal ≤ r'.hclk xtal :=
  Nat.div_le_div h.fclk h.hdiv (Nat.ne_of_gt r'.hdiv_pos)

lemma pclk (h : Slower xtal r r') : r.pclk xtal ≤ r'.pclk xtal :=
  Nat.div_le_div h.hclk h.pdiv (Nat.ne_of_gt r'.pdiv_pos)

end Slower

structure SameClocks (r r' : Regs) : Prop where
  mpllcon : r.mpllcon = r'.mpllcon
  clkdivn : r.clkdivn = r'.clkdivn
  camdivn : r.camdivn = r'.camdivn

namespace SameClocks

lemma symm (h : SameClocks r r') : SameClocks r' r :=
  ⟨h.mpllcon.symm, h.clkdivn.symm, h.camdivn.symm⟩

lemma fclk (h : SameClocks r r') : r.fclk xtal = r'.fclk xtal := by
  rw [Regs.fclk, h.mpllcon, Regs.fclk]

lemma hdiv (h : SameClocks r r') : r.hdiv = r'.hdiv := by
  rw [hdiv_eq r, hdiv_eq r', h.clkdivn, h.camdivn]

lemma slower (h : SameClocks r r') : Slower xtal r r' :=
  ⟨h.fclk.le, h.hdiv.ge, (pdiv_congr (by rw [h.clkdivn])).ge⟩

lemma hclk (h : SameClocks r r') : r.hclk xtal = r'.hclk xtal :=
  le_antisymm h.slower.hclk h.symm.slower.hclk

end SameClocks

end Regs

variable {xtal : Nat} {r : Regs} {cfg : Config}

lemma setdivs_eq (r : Regs) :
    setdivs r cfg =
      [.camdivn (camdivFor r cfg.divs ||| camdivnHclkHalf), .clkdivn (clkdivFor r cfg.divs),
        .camdivn (camdivFor r cfg.divs),
        .camdivn (camdivFor r cfg.divs &&& ~~~camdivnDvsen |||
          if cfg.divs.dvs then camdivnDvsen else 0)] := rfl

/-- What `s3c2440_cpufreq_setdivs` leaves. -/
structure SetDivs (r : Regs) (cfg : Config) (r' : Regs) : Prop where
  hdiv : r'.hdiv = cfg.divs.hDivisor
  pdiv : r'.pdiv = Regs.pdivOf cfg.divs
  mpllcon : r'.mpllcon = r.mpllcon
  bankcon : r'.bankcon = r.bankcon

lemma setDivs_setdivs (r : Regs) (hmem : cfg.divs.hDivisor ∈ hdivs) :
    SetDivs r cfg (runFrom Regs.write r (setdivs r cfg)) := by
  have hdvs : camdivnHclkHalf &&& (if cfg.divs.dvs then camdivnDvsen else 0) = 0 := by
    split_ifs <;> decide
  refine ⟨?_, Regs.pdiv_of_clkdivFor (r := r) hmem rfl, rfl, rfl⟩
  apply Regs.hdiv_of_clkdivFor (r := r) hmem rfl
  simp only [setdivs_eq, runFrom_cons, runFrom_nil, Regs.write]
  rw [clear_or_and_of_disjoint (by decide) hdvs, Regs.camdivFor_half r hmem]

/-- On the way the clocks are slower than before, or as slow as the new divisors make them. -/
lemma visits_setdivs (r : Regs) (hmem : cfg.divs.hDivisor ∈ hdivs) :
    ∀ t ∈ visits Regs.write r (setdivs r cfg),
      Regs.Slower xtal t r ∨ Regs.Slower xtal t (runFrom Regs.write r (setdivs r cfg)) := by
  have hhdiv := (setDivs_setdivs r hmem).hdiv
  -- the state after the third write
  let r₃ : Regs := { r with
    clkdivn := clkdivFor r cfg.divs
    camdivn := camdivFor r cfg.divs }
  have h₃ : r₃.hdiv = cfg.divs.hDivisor :=
    Regs.hdiv_of_clkdivFor (r := r) hmem rfl (Regs.camdivFor_half r hmem)
  rw [setdivs_eq] at hhdiv ⊢
  simp only [visits_cons, visits_nil, List.mem_cons, List.not_mem_nil, or_false, forall_eq_or_imp,
    forall_eq] at hhdiv ⊢
  refine ⟨.inl (.refl xtal r), .inl ⟨le_rfl, ?_, ?_⟩, .inr ⟨le_rfl, ?_, ?_⟩,
    .inr ⟨le_rfl, ?_, ?_⟩, .inr (.refl xtal _)⟩
  -- the old divisors, with the bus clock halved where that is possible
  · exact Regs.hdiv_le_of_half rfl or_and_right_self
  · exact (Regs.pdiv_congr rfl).ge
  -- the new ones, still halved
  · exact Regs.hdiv_le_of_half rfl or_and_right_self
  · exact (Regs.pdiv_congr rfl).ge
  · exact (hhdiv.trans h₃.symm).le
  · exact (Regs.pdiv_congr rfl).ge

lemma visits_setdivs_frame (r : Regs) :
    ∀ t ∈ visits Regs.write r (setdivs r cfg), t.mpllcon = r.mpllcon ∧ t.bankcon = r.bankcon := by
  rw [setdivs_eq]
  simp

end Mini2440.Cpufreq
