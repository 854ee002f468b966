import Mini2440.Cpufreq.Table

/-!
# Configurations and their divisors

The configuration that `cpufreq.c` keeps of the core clocks, and the three implementations of
`calc_divs`, which find the divisors for a PLL output and a requested ARM clock.

A `Chip` is an implementation together with what the core relies on: the request that a
configuration was made for leads to the same configuration again. All frequencies are 32-bit
numbers of Hz.
-/

namespace Mini2440.Cpufreq

/-- `struct s3c_freq`. -/
structure Freq where
  fclk : Nat
  armclk : Nat
  hclkTns : Nat
  hclk : Nat
  pclk : Nat
  deriving DecidableEq, Repr

/-- `struct s3c_clkdivs`. -/
structure Divs where
  pDivisor : Nat
  hDivisor : Nat
  armDivisor : Nat
  dvs : Bool
  deriving DecidableEq, Repr

/-- `struct s3c_cpufreq_config`. -/
structure Config where
  freq : Freq
  max : Freq
  pll : Entry
  divs : Divs
  lockPll : Bool
  deriving DecidableEq, Repr

namespace Config

/-- `s3c_cpufreq_calc`. -/
def cpufreqCalc (cfg : Config) : Config :=
  let pll := cfg.pll.frequency
  let hclk := pll / cfg.divs.hDivisor
  { cfg with
    freq :=
      { cfg.freq with
        fclk := pll
        hclk := hclk
        pclk := pll / cfg.divs.pDivisor
        hclkTns := 1000000000 / (hclk / 10) } }

def request (cfg : Config) (pll : Entry) (target : Nat) : Config :=
  { cfg with pll := pll, freq := { cfg.freq with armclk := target, fclk := pll.frequency } }

end Config

/-! ## The divisors of the chips

Each calculation reads the PLL output, the requested ARM clock and the limits. If it succeeds it
stores its results in the configuration. -/

/-- `s3c2410_cpufreq_calcdivs`. -/
def s3c2410Calcdivs (fclk : Nat) (max : Freq) : Option (Config → Config) :=
  let hdiv := if fclk > max.hclk then 2 else 1
  let hclk := fclk / hdiv
  if hclk > max.hclk then none
  else
    let pdiv := if hclk > max.pclk then 2 else 1
    let pclk := hclk / pdiv
    if pclk > max.pclk then none
    else
      some fun cfg =>
        { cfg with
          freq := { cfg.freq with armclk := fclk }
          divs := { cfg.divs with pDivisor := pdiv * hdiv, hDivisor := hdiv } }

/-- `s3c2412_cpufreq_calcdivs`. -/
def s3c2412Calcdivs (fclk armclk : Nat) (max : Freq) : Option (Config → Config) :=
  let hclkMax := if max.hclk > armclk then armclk else max.hclk
  let armdiv := fclk / armclk
  let armdiv := if armdiv < 1 then 1 else armdiv
  let armdiv := if armdiv > 2 then 2 else armdiv
  let armdivClk := fclk / armdiv
  let hdiv := armdivClk / hclkMax
  let hdiv := if hdiv < 1 then 1 else hdiv
  let hclk := armdivClk / hdiv
  let dvs := decide (armclk < armdivClk)
  if hdiv > 4 then none
  else
    let pdiv := if hclk > max.pclk then 2 else 1
    let pdiv := if hclk / pdiv > max.pclk then pdiv + 1 else pdiv
    if pdiv > 2 then none
    else
      some fun cfg =>
        { cfg with
          freq :=
            { cfg.freq with
              armclk := if dvs then hclk else armdivClk
              hclk := hclk
              pclk := hclk / pdiv }
          divs :=
            { armDivisor := armdiv
              dvs := dvs
              hDivisor := hdiv * armdiv
              pDivisor := pdiv * hdiv * armdiv } }

/-- `within_khz`; the difference is a signed 32-bit number. -/
def withinKhz (a b : Nat) : Bool :=
  let diff := Int.bmod ((a : Int) - b) (2 ^ 32)
  decide (-1000 ≤ diff ∧ diff ≤ 1000)

/-- The values that the loop of `s3c2440_cpufreq_calcdivs` tries. -/
def hdivs : List Nat := [1, 2, 3, 4, 6, 8]

def hclkFits (hclkMax hclk : Nat) : Bool := hclk ≤ hclkMax || withinKhz hclk hclkMax

/-- The loop over `hdiv`, for a number of rounds. It gives the values of `hdiv` and `hclk` behind
the loop. -/
def hdivLoop (fclk hclkMax : Nat) : Nat → Nat → Nat → Nat × Nat
  | 0, hdiv, hclk => (hdiv, hclk)
  | rounds + 1, hdiv, hclk =>
    if hdiv < 9 then
      let hdiv := if hdiv = 5 ∨ hdiv = 7 then hdiv + 1 else hdiv
      let hclk := fclk / hdiv
      if hclkFits hclkMax hclk then (hdiv, hclk)
      else hdivLoop fclk hclkMax rounds (hdiv + 1) hclk
    else (hdiv, hclk)

/-- `s3c2440_cpufreq_calcdivs`. Nine rounds end the loop, `hclk` is not set before it. -/
def s3c2440Calcdivs (fclk armclk : Nat) (max : Freq) : Option (Config → Config) :=
  let armclk := if armclk > fclk then fclk else armclk
  -- in DVS the bus must not be faster than the core
  let hclkMax := if armclk < fclk ∧ armclk < max.hclk then armclk else max.hclk
  let (hdiv, hclk) := hdivLoop fclk hclkMax 9 1 0
  if hdiv > 8 then none
  else
    let pdiv := if hclk > max.pclk then 2 else 1
    let pdiv := if hclk / pdiv > max.pclk then pdiv + 1 else pdiv
    if pdiv > 2 then none
    else
      let armclk := if armclk < hclk then hclk else armclk
      let dvs := decide (armclk < fclk)
      some fun cfg =>
        { cfg with
          freq := { cfg.freq with armclk := if dvs then hclk else armclk }
          divs := { cfg.divs with dvs := dvs, hDivisor := hdiv, pDivisor := pdiv * hdiv } }

/-- The loop leaves with the first divisor of the list that fits. -/
lemma hdivLoop_eq (fclk hclkMax : Nat) :
    hdivLoop fclk hclkMax 9 1 0 =
      match hdivs.find? fun hdiv => hclkFits hclkMax (fclk / hdiv) with
      | some hdiv => (hdiv, fclk / hdiv)
      | none => (9, fclk / 8) := by
  simp only [hdivLoop, hdivs, List.find?_cons]
  -- one round for each divisor of the list
  grind

/-! ## Chips -/

/-- Storing results twice is storing them once, and the PLL and the limits are kept. -/
structure Stores (store : Config → Config) : Prop where
  pll : ∀ cfg, (store cfg).pll = cfg.pll
  lockPll : ∀ cfg, (store cfg).lockPll = cfg.lockPll
  max : ∀ cfg, (store cfg).max = cfg.max
  again : ∀ (cfg : Config) (pll : Entry) (target : Nat),
    (store ((store (cfg.request pll target)).cpufreqCalc.request pll target)).cpufreqCalc =
      (store (cfg.request pll target)).cpufreqCalc

variable {store : Config → Config} {max : Freq} {fclk armclk : Nat}

lemma stores_s3c2410 (h : s3c2410Calcdivs fclk max = some store) : Stores store := by
  simp only [s3c2410Calcdivs, Option.ite_none_left_eq_some, Option.some.injEq] at h
  obtain ⟨-, -, rfl⟩ := h
  exact ⟨fun _ => rfl, fun _ => rfl, fun _ => rfl, fun _ _ _ => rfl⟩

lemma stores_s3c2412 (h : s3c2412Calcdivs fclk armclk max = some store) : Stores store := by
  simp only [s3c2412Calcdivs, Option.ite_none_left_eq_some, Option.some.injEq] at h
  obtain ⟨-, -, rfl⟩ := h
  exact ⟨fun _ => rfl, fun _ => rfl, fun _ => rfl, fun _ _ _ => rfl⟩

lemma stores_s3c2440 (h : s3c2440Calcdivs fclk armclk max = some store) : Stores store := by
  simp only [s3c2440Calcdivs, Option.ite_none_left_eq_some, Option.some.injEq] at h
  obtain ⟨-, -, rfl⟩ := h
  exact ⟨fun _ => rfl, fun _ => rfl, fun _ => rfl, fun _ _ _ => rfl⟩

structure Chip where
  divs : (fclk armclk : Nat) → (max : Freq) → Option (Config → Config)
  stores : ∀ {fclk armclk max store}, divs fclk armclk max = some store → Stores store

def s3c2410 : Chip := ⟨fun fclk _ max => s3c2410Calcdivs fclk max, stores_s3c2410⟩
def s3c2412 : Chip := ⟨s3c2412Calcdivs, stores_s3c2412⟩
def s3c2440 : Chip := ⟨s3c2440Calcdivs, stores_s3c2440⟩

def Chip.calcDivs (chip : Chip) (cfg : Config) : Option Config :=
  (chip.divs cfg.freq.fclk cfg.freq.armclk cfg.max).map fun store => store cfg

namespace Chip

variable {chip : Chip} {cfg new : Config} {pll : Entry} {target : Nat}

lemma calcDivs_frame (h : chip.calcDivs (cfg.request pll target) = some new) :
    new.pll = pll ∧ new.lockPll = cfg.lockPll := by
  obtain ⟨store, hstore, rfl⟩ := Option.map_eq_some_iff.mp h
  exact ⟨(chip.stores hstore).pll _, (chip.stores hstore).lockPll _⟩

/-- The request that a configuration was made for leads to the same configuration. -/
lemma calcDivs_again (h : chip.calcDivs (cfg.request pll target) = some new) :
    (chip.calcDivs (new.cpufreqCalc.request pll target)).map Config.cpufreqCalc =
      some new.cpufreqCalc := by
  obtain ⟨store, hstore, rfl⟩ := Option.map_eq_some_iff.mp h
  have hmax : ((store (cfg.request pll target)).cpufreqCalc.request pll target).max = cfg.max :=
    (chip.stores hstore).max _
  have hagain : chip.calcDivs ((store (cfg.request pll target)).cpufreqCalc.request pll target) =
      some (store ((store (cfg.request pll target)).cpufreqCalc.request pll target)) := by
    rw [calcDivs, hmax]
    exact congrArg (Option.map _) hstore
  rw [hagain]
  exact congrArg some ((chip.stores hstore).again cfg pll target)

end Chip

end Mini2440.Cpufreq
