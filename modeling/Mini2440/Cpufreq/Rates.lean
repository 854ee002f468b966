import Mini2440.Cpufreq.Transition

/-!
# The rates of the clocks

What `clk_get_rate` says of the clocks of the driver, next to the configuration that the driver
keeps. The PLL and the bus clocks are given their new rates and the processor's clock is given
its new parent. `clk_f` has no operations: `clk_set_rate` fails for it, the error is ignored, and
the clock keeps the rate that it had at boot.
-/

namespace Mini2440.Cpufreq

open Library Clock

/-- The clocks of the kernel for a configuration, with the rate that `clk_f` had at boot. -/
def clocksFor (boot : Nat) (freq : Freq) (arm : ClkId) : Clocks ClkId
  | .mpll => ⟨none, 0, freq.fclk, false⟩
  | .fclk => ⟨some .mpll, 0, boot, false⟩
  | .hclk => ⟨none, 0, freq.hclk, false⟩
  | .pclk => ⟨none, 0, freq.pclk, false⟩
  | .armclk => ⟨some arm, 0, 0, false⟩

def armParent (dvs : Bool) : ClkId := if dvs then .hclk else .fclk

section Clocks

variable {boot : Nat} {freq : Freq} {arm : ClkId} {new : Config}

lemma opClocks_updateClk (hpll : new.freq.fclk = new.pll.frequency) :
    opClocks (clocksFor boot freq arm) (.updateClk new) = clocksFor boot new.freq arm := by
  funext c
  cases c <;> simp [opClocks, updateclk, Clocks.clkSetRate, clkOps, Clocks.clkDefaultSetrate,
      Clocks.modify_apply, clocksFor, hpll]

lemma opClocks_setDivs :
    opClocks (clocksFor boot freq arm) (.setDivs new) =
      clocksFor boot freq (armParent new.divs.dvs) := by
  funext c
  cases hdvs : new.divs.dvs <;> cases c <;>
    simp [opClocks, Clocks.clkSetParent, clkOps, s3c2440SetparentArmclk, Clocks.modify_apply,
      clocksFor, armParent, hdvs]

/-- After a change every clock but `clk_f` has its place in the new configuration. -/
lemma clocks_change (notify : Bool) (cur : Config) (hpll : new.freq.fclk = new.pll.frequency) :
    runFrom opClocks (clocksFor boot freq arm) (change notify cur new) =
      clocksFor boot new.freq (armParent new.divs.dvs) := by
  -- the other operations are about registers and listeners
  have hmemory : ∀ (t : Clocks ClkId) (p : Prop) [Decidable p],
      runFrom opClocks t (if p then [.setRefresh new, .setIo new] else []) = t := by
    intro t p _
    split_ifs <;> rfl
  have hpre : ∀ (t : Clocks ClkId) (old now : Nat),
      runFrom opClocks t (if notify then [.preChange old now] else []) = t := by
    intro t old now
    split_ifs <;> rfl
  have hpost : ∀ (t : Clocks ClkId) (old now : Nat),
      runFrom opClocks t (if notify then [.postChange old now] else []) = t := by
    intro t old now
    split_ifs <;> rfl
  have hclocks : ∀ t : Clocks ClkId, runFrom opClocks t
          (if new.freq.fclk = cur.freq.fclk then [.setDivs new]
            else if new.freq.fclk < cur.freq.fclk then [.setFvco new, .setDivs new]
            else [.setDivs new, .setFvco new]) =
        opClocks t (.setDivs new) := by
    intro t
    split_ifs <;> rfl
  simp [change, opClocks_updateClk hpll, hpre, hmemory, hclocks, opClocks_setDivs, hpost]

/-! ## What the clocks say -/

lemma rateUp_fclk (n : Nat) :
    (clocksFor boot freq arm).rateUp clkOps (n + 2) (some .fclk) =
      if boot = 0 then freq.fclk else boot := by
  split_ifs with h
  · exact (rateUp_parent h rfl).trans (rateUp_own (.inr rfl))
  · exact rateUp_own (.inl h)

lemma getRate_fclk :
    getRate (clocksFor boot freq arm) .fclk = if boot = 0 then freq.fclk else boot :=
  rateUp_fclk 3

lemma getRate_hclk : getRate (clocksFor boot freq arm) .hclk = freq.hclk :=
  getRate_own (.inr rfl)

lemma getRate_pclk : getRate (clocksFor boot freq arm) .pclk = freq.pclk :=
  getRate_own (.inr rfl)

lemma getRate_armclk (dvs : Bool) :
    getRate (clocksFor boot freq (armParent dvs)) .armclk =
      if dvs then freq.hclk else if boot = 0 then freq.fclk else boot := by
  have hparent : getRate (clocksFor boot freq (armParent dvs)) .armclk =
      (clocksFor boot freq (armParent dvs)).rateUp clkOps 4 (some (armParent dvs)) :=
    rateUp_parent (t := clocksFor boot freq (armParent dvs)) (c := .armclk) (n := 4) rfl rfl
  rw [hparent]
  cases dvs with
  | false => exact rateUp_fclk 2
  | true => exact rateUp_own (c := .hclk) (.inr rfl)

end Clocks

/-! ## Runs -/

/-- The clocks tell the frequencies of the current configuration. -/
def RatesAgree (m : Machine) : Prop :=
  getRate m.clocks .fclk = m.state.cur.freq.fclk ∧
    getRate m.clocks .hclk = m.state.cur.freq.hclk ∧
    getRate m.clocks .pclk = m.state.cur.freq.pclk ∧
    getRate m.clocks .armclk = m.state.cur.freq.armclk

def Succeeds (board : Board) (m : Machine) (req : Request) : Prop := (m.settarget board req).1 = 0

/-- The clocks are those of the current configuration, except for the rate of `clk_f`, and the
frequency of the PLL is `fclk`. -/
structure Clocked (boot fclk : Nat) (m : Machine) : Prop where
  clocks : ∃ dvs, m.clocks = clocksFor boot m.state.cur.freq (armParent dvs) ∧
    m.state.cur.freq.armclk = if dvs then m.state.cur.freq.hclk else m.state.cur.freq.fclk
  freq : m.state.cur.freq.fclk = fclk
  pll : m.state.cur.pll.frequency = fclk

def requestedFclk : Nat → List Request → Nat
  | fclk, [] => fclk
  | fclk, req :: reqs => requestedFclk ((req.pll.map Entry.frequency).getD fclk) reqs

variable {board : Board} {m : Machine} {req : Request} {boot fclk : Nat}

lemma clocked_boot (r : Regs) (iot : Banks) (limits : Freq) (lockPll : Bool) :
    Clocked (r.fclk board.xtal) (r.fclk board.xtal) (Machine.boot board r iot limits lockPll) := by
  let freq : Freq := ⟨r.fclk board.xtal, 0, 0, r.hclk board.xtal, r.pclk board.xtal⟩
  let dvs := decide (r.camdivn &&& camdivnDvsen ≠ 0)
  have hsetup : Machine.setupClocks board r =
      clocksFor (r.fclk board.xtal) freq (armParent dvs) := by
    funext c
    cases c <;> simp [Machine.setupClocks, clocksFor, armParent, freq, dvs]
  have hfclk := getRate_setup_fclk board r
  have hhclk : getRate (Machine.setupClocks board r) .hclk = r.hclk board.xtal := by
    rw [hsetup, getRate_hclk]
  have hpclk : getRate (Machine.setupClocks board r) .pclk = r.pclk board.xtal := by
    rw [hsetup, getRate_pclk]
  have harm : getRate (Machine.setupClocks board r) .armclk =
      if dvs then r.hclk board.xtal else r.fclk board.xtal := by
    rw [hsetup, getRate_armclk]
    grind
  refine ⟨⟨dvs, ?_, ?_⟩, hfclk, hfclk⟩
  · simp only [Machine.boot, Machine.getcur, hfclk, hhclk, hpclk]
    exact hsetup
  · simp [Machine.boot, Machine.getcur, hfclk, hhclk, harm]

lemma Clocked.step (h : Clocked boot fclk m) (hok : Succeeds board m req) :
    Clocked boot ((req.pll.map Entry.frequency).getD fclk) (m.step board req) := by
  obtain ⟨-, iot, hset⟩ | ⟨new, iot, hnew, -, -, hset⟩ := m.settarget_cases board req
  · rw [Succeeds, hset] at hok
    cases hok
  · have hplan := planned_newConfig hnew
    obtain ⟨dvs, hclocks, -⟩ := h.clocks
    have hfreq : new.pll.frequency = (req.pll.map Entry.frequency).getD fclk := by
      rw [hplan.pll, ← h.pll]
      cases req.pll <;> rfl
    rw [Machine.step, hset]
    refine ⟨⟨new.divs.dvs, ?_, hplan.armclk⟩, hplan.fclk.trans hfreq, hfreq⟩
    rw [Machine.changed, hclocks]
    exact clocks_change req.notify m.state.cur hplan.fclk

lemma Clocked.ratesAgree_iff (h : Clocked boot fclk m) : RatesAgree m ↔ boot = 0 ∨ fclk = boot := by
  obtain ⟨dvs, hclocks, harm⟩ := h.clocks
  rw [RatesAgree, hclocks, getRate_fclk, getRate_hclk, getRate_pclk, getRate_armclk, harm, h.freq]
  grind

lemma clocked_run {m : Machine} {reqs : List Request} (h : Clocked boot fclk m)
    (hok : Along (Machine.step board) (Succeeds board) m reqs) :
    Clocked boot (requestedFclk fclk reqs) (runFrom (Machine.step board) m reqs) := by
  induction reqs generalizing m fclk with
  | nil => exact h
  | cons req reqs ih => exact ih (h.step hok.1) hok.2

/-- After a run of successful calls the clocks agree with the configuration exactly if the PLL
has the frequency of boot, or had none. -/
theorem rates_agree_iff (board : Board) (r : Regs) (iot : Banks) (limits : Freq) (lockPll : Bool)
    (reqs : List Request)
    (hok : Along (Machine.step board) (Succeeds board)
      (Machine.boot board r iot limits lockPll) reqs) :
    RatesAgree (Machine.run board r iot limits lockPll reqs) ↔
      r.fclk board.xtal = 0 ∨ requestedFclk (r.fclk board.xtal) reqs = r.fclk board.xtal :=
  (clocked_run (clocked_boot r iot limits lockPll) hok).ratesAgree_iff

def fullSpeedAgain : Request := ⟨400000000, some ⟨pllval 0x5c 1 1, 400000000⟩, true⟩

/-- To half the frequency and back again. -/
theorem halfSpeed_and_back_ratesAgree :
    RatesAgree (Machine.run board12 regs400 (romBanks 600) limits400 false
      [halfSpeed, fullSpeedAgain]) :=
  (rates_agree_iff board12 regs400 (romBanks 600) limits400 false [halfSpeed, fullSpeedAgain]
    ⟨by unfold Succeeds; decide +kernel, by unfold Succeeds; decide +kernel, trivial⟩).mpr
    (.inr (by decide +kernel))

/-- At half the frequency `clk_f` still has the rate of boot. -/
theorem halfSpeed_not_ratesAgree :
    Succeeds board12 (Machine.boot board12 regs400 (romBanks 600) limits400 false) halfSpeed ∧
      ¬ RatesAgree (Machine.run board12 regs400 (romBanks 600) limits400 false [halfSpeed]) := by
  refine ⟨by unfold Succeeds; decide +kernel, fun h => ?_⟩
  exact absurd h.1 (by decide +kernel)

end Mini2440.Cpufreq
