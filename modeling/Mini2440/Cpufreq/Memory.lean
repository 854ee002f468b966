import Mathlib.Tactic.IntervalCases
import Mini2440.Cpufreq.Iotiming

/-!
# The timing of the memory

What the values for the memory controller amount to. The refresh counter of the SDRAM stands for
a number of cycles between two refreshes, which should not take longer than the board allows. The
fields of `BANKCON` stand for the times of a bank, which should not be shorter than the ones that
they are calculated from, and reading the times and calculating the fields again should lead back
to the same value.
-/

namespace Mini2440.Cpufreq

open BitVec Library

/-! ## The refresh counter -/

section Refresh

variable {period : Nat} {r : Regs} {cfg : Config}

/-- `REFRESH` after `s3c2410_cpufreq_setrefresh`. -/
def refreshAfter (period : Nat) (r : Regs) (cfg : Config) : BitVec 32 :=
  (runFrom Regs.write r (setrefresh period r cfg)).refresh

/-- The product that is scaled down to a number of cycles, in millionths of a cycle. -/
def refreshScaled (period hclk : Nat) : Nat := hclk / 100 * (period / 10)

/-- The calculation does not overflow, a counter that fits its field of 11 bits replaces that field
alone, and a refresh comes within the time that the board allows, in nanoseconds. -/
def Refreshes (period hclk : Nat) (old new : BitVec 32) : Prop :=
  refreshScaled period hclk + (1000 * 1000 - 1) < 2 ^ 32 ∧
    ∃ c : BitVec 32, c.toNat < 2 ^ 11 ∧ new = old &&& ~~~mask 32 11 ||| c ∧
      (2 ^ 11 + 1 - c.toNat) * 10 ^ 9 ≤ period * hclk

lemma refreshScaled_le (hhclk : cfg.freq.hclk ≤ 133000000) (hperiod : period ≤ 30000) :
    refreshScaled period cfg.freq.hclk ≤ 3990000000 :=
  Nat.mul_le_mul (Nat.div_le_div_right (c := 100) hhclk) (Nat.div_le_div_right (c := 10) hperiod)

lemma refreshAfter_eq (hhclk : cfg.freq.hclk ≤ 133000000) (hperiod : period ≤ 30000)
    (hle : refreshScaled period cfg.freq.hclk ≤ 2049 * 10 ^ 6) :
    ∃ c : BitVec 32, refreshAfter period r cfg = r.refresh &&& ~~~mask 32 12 ||| c ∧
      c.toNat = 2 ^ 11 + 1 - (refreshScaled period cfg.freq.hclk + 999999) / 10 ^ 6 := by
  have hscaled := refreshScaled_le hhclk hperiod
  refine ⟨_, rfl, ?_⟩
  have hprod : cfg.freq.hclk / 100 * (period / 10) % 2 ^ 32 =
      refreshScaled period cfg.freq.hclk := Nat.mod_eq_of_lt (hscaled.trans_lt (by decide))
  rw [hprod, Nat.mod_eq_of_lt (by omega), toNat_sub, toNat_ofNat]
  change (2 ^ 32 - _ / (1000 * 1000) % 2 ^ 32 + 2049) % 2 ^ 32 = _
  omega

lemma and_not_mask_eq {x : BitVec 32} (h : x.getLsbD 11 = false) :
    x &&& ~~~mask 32 12 = x &&& ~~~mask 32 11 := by
  apply eq_of_getLsbD_eq
  intro i hi
  rw [getLsbD_and, getLsbD_and, getLsbD_not, getLsbD_not, getLsbD_mask, getLsbD_mask]
  by_cases heq : i = 11
  · rw [heq, h, Bool.false_and, Bool.false_and]
  · have hiff : i < 12 ↔ i < 11 := by omega
    simp [hiff]

/-- The period is rounded up to a number of cycles, so that it comes too late unless some number of
cycles lies between the period as scaled down and the period itself; and 12 bits are cleared. -/
theorem refreshes_iff (period : Nat) (r : Regs) (cfg : Config) (hhclk : cfg.freq.hclk ≤ 133000000)
    (hperiod : period ≤ 30000) (hlt : 10 ^ 6 < refreshScaled period cfg.freq.hclk)
    (hle : refreshScaled period cfg.freq.hclk ≤ 2049 * 10 ^ 6) :
    Refreshes period cfg.freq.hclk r.refresh (refreshAfter period r cfg) ↔
      r.refresh.getLsbD 11 = false ∧
        ∃ n, refreshScaled period cfg.freq.hclk ≤ n * 10 ^ 6 ∧
          n * 10 ^ 9 ≤ period * cfg.freq.hclk := by
  obtain ⟨c, hafter, hc⟩ := refreshAfter_eq (r := r) hhclk hperiod hle
  have hscaled := refreshScaled_le hhclk hperiod
  have hsmall : c.toNat < 2 ^ 11 := by omega
  have hceil (k : Nat) : k ≤ (k + 999999) / 10 ^ 6 * 10 ^ 6 := by omega
  rw [hafter]
  constructor
  · rintro ⟨-, d, hd, hnew, htime⟩
    have htop := congrArg (getLsbD · 11) hnew
    simp only [getLsbD_or, getLsbD_and, getLsbD_not, getLsbD_mask,
      getLsbD_of_toNat_lt hsmall le_rfl, getLsbD_of_toNat_lt hd le_rfl] at htop
    obtain rfl : c = d := by
      apply eq_of_getLsbD_eq
      intro i hi
      by_cases h : i < 11
      · have hbit := congrArg (getLsbD · i) hnew
        simpa only [getLsbD_or, getLsbD_and, getLsbD_not, getLsbD_mask, hi, h,
          Nat.lt_succ_of_lt h, decide_true, Bool.and_true, Bool.not_true, Bool.and_false,
          Bool.false_or] using hbit
      · rw [getLsbD_of_toNat_lt hsmall (by omega),
          getLsbD_of_toNat_lt hd (by omega)]
    have hcycles : 2 ^ 11 + 1 - c.toNat =
        (refreshScaled period cfg.freq.hclk + 999999) / 10 ^ 6 := by
      omega
    rw [hcycles] at htime
    exact ⟨by simpa using htop.symm, _, hceil _, htime⟩
  · rintro ⟨htop, n, hn, htime⟩
    refine ⟨by omega, c, hsmall, by rw [and_not_mask_eq htop], le_trans ?_ htime⟩
    exact Nat.mul_le_mul_right _ (by omega)

def busAt (hclk : Nat) : Config :=
  ⟨⟨0, 0, 0, hclk, 0⟩, ⟨0, 0, 0, 0, 0⟩, ⟨0, 0⟩, ⟨1, 1, 1, false⟩, true⟩

def clearRegs : Regs := ⟨0, 0, 0, 0, fun _ => 0⟩

theorem refresh_in_time :
    Refreshes 7800 100000000 clearRegs.refresh (refreshAfter 7800 clearRegs (busAt 100000000)) :=
  (refreshes_iff 7800 clearRegs (busAt 100000000) (by decide) (by decide) (by decide)
    (by decide)).mpr ⟨rfl, 780, by decide, by decide⟩

/-- At 133 MHz with 7.8 µs the refresh comes after 1038 cycles, which take 7804 ns. -/
theorem refresh_too_late :
    ¬ Refreshes 7800 133000000 clearRegs.refresh
      (refreshAfter 7800 clearRegs (busAt 133000000)) := by
  rintro ⟨-, c, -, hnew, htime⟩
  have hafter : refreshAfter 7800 clearRegs (busAt 133000000) = 1011#32 := by decide +kernel
  have hold : clearRegs.refresh = 0#32 := rfl
  rw [hafter, hold, BitVec.zero_and, BitVec.zero_or] at hnew
  rw [← hnew] at htime
  exact absurd htime (by decide)

end Refresh

/-! ## The fields of `BANKCON` -/

section Bank

variable {cyc hclkTns n : Nat} {nwaitEn : Bool} {v : BitVec 32} {bt : Bank}

/-- `s3c2410_iotiming_getbank`. -/
def getbank (hclkTns : Nat) (bt : Bank) : Bank :=
  let c := getCycles bt.bankcon
  { bt with
    tcah := hclkTns * c.tcah % 2 ^ 32
    tcoh := hclkTns * c.tcoh % 2 ^ 32
    tcos := hclkTns * c.tcos % 2 ^ 32
    tacs := hclkTns * c.tacs % 2 ^ 32
    tacc := hclkTns * c.tacc % 2 ^ 32 }

/-- The call of `s3c2410_calc_bank`: its result and the bank that it leaves. -/
def callCalcBank (hclkTns : Nat) (bt : Bank) : Int × Bank :=
  match calcBank hclkTns bt with
  | none => (-EINVAL, bt)
  | some v => (0, { bt with bankcon := v })

lemma toDiv_le_iff (hpos : 0 < hclkTns) (hsum : cyc + hclkTns ≤ 2 ^ 32) (n : Nat) :
    toDiv cyc hclkTns ≤ n ↔ cyc ≤ hclkTns * n := by
  unfold toDiv
  split_ifs with hzero
  · simp [hzero]
  · have hmod : (cyc + hclkTns + (2 ^ 32 - 1)) % 2 ^ 32 = cyc + hclkTns - 1 := by omega
    rw [hmod, Nat.div_le_iff_le_mul_add_pred hpos]
    omega

lemma toDiv_mul (hpos : 0 < hclkTns) (hn : hclkTns * (n + 1) ≤ 2 ^ 32) :
    toDiv (hclkTns * n % 2 ^ 32) hclkTns = n := by
  have hsum : hclkTns * n + hclkTns ≤ 2 ^ 32 := hn
  rw [Nat.mod_eq_of_lt (by omega)]
  refine le_antisymm ((toDiv_le_iff hpos hsum n).mpr le_rfl) ?_
  by_contra! hlt
  have hle := (toDiv_le_iff hpos hsum (n - 1)).mp (by omega)
  exact absurd (le_of_mul_le_mul_left hle hpos) (by omega)

/-- How the calculation of a field ends: with a time that needs more cycles than the limit, or with
a code of `width` bits that stands for cycles enough. -/
inductive FieldFor (limit width : Nat) (cycles : BitVec 32 → Nat) (hclkTns cyc : Nat) :
    Option (BitVec 32) → Prop where
  | none (long : hclkTns * limit < cyc) : FieldFor limit width cycles hclkTns cyc none
  | some (v : BitVec 32) (lt : v.toNat < 2 ^ width) (le : cyc ≤ hclkTns * limit)
      (enough : cyc ≤ hclkTns * cycles v) (fits : hclkTns * cycles v < 2 ^ 32) :
    FieldFor limit width cycles hclkTns cyc (some v)

lemma calc0124_spec (hpos : 0 < hclkTns) (hhclk : hclkTns < 2 ^ 30) (hcyc : cyc < 2 ^ 30) :
    FieldFor 4 2 cycles0124 hclkTns cyc (calc0124 cyc hclkTns) := by
  have hsum : cyc + hclkTns ≤ 2 ^ 32 := by omega
  have hle := (toDiv_le_iff hpos hsum _).mp le_rfl
  have hfour := toDiv_le_iff hpos hsum 4
  unfold calc0124
  split <;> constructor <;> simp_all [cycles0124] <;> omega

lemma calcTacc_spec (hpos : 0 < hclkTns) (hhclk : hclkTns < 2 ^ 30) (hcyc : cyc < 2 ^ 30)
    (nwaitEn : Bool) :
    FieldFor 14 3 taccCycles hclkTns cyc (calcTacc cyc nwaitEn hclkTns) ∧
      ∀ v ∈ calcTacc cyc nwaitEn hclkTns, nwaitEn → 4 ≤ taccCycles v := by
  have hsum : cyc + hclkTns ≤ 2 ^ 32 := by omega
  have hle := toDiv_le_iff hpos hsum
  unfold calcTacc
  dsimp only
  generalize hd : (if nwaitEn && toDiv cyc hclkTns < 4 then 4 else toDiv cyc hclkTns) = d
  have hcases : (d = toDiv cyc hclkTns ∨ toDiv cyc hclkTns < 4 ∧ d = 4) ∧ (nwaitEn → 4 ≤ d) := by
    split_ifs at hd with hwait
    · exact ⟨Or.inr ⟨by simpa using (Bool.and_eq_true_iff.mp hwait).2, hd.symm⟩, fun _ => hd.le⟩
    · exact ⟨Or.inl hd.symm, fun hen => by simp_all⟩
  have hneed : cyc ≤ hclkTns * d := (hle d).mp (by omega)
  have hmore : ∀ n, 4 ≤ n → n < d → hclkTns * n < 2 ^ 30 := by
    intro n hn hlt
    have := (hle n).not.mp (by omega)
    omega
  have hcode (v : BitVec 32) (hv : v.toNat < 2 ^ 3) (hdv : d ≤ taccCycles v)
      (hlt : hclkTns * taccCycles v < 2 ^ 32) (hlimit : d ≤ 14) :
      FieldFor 14 3 taccCycles hclkTns cyc (some v) ∧ ∀ w ∈ some v, nwaitEn → 4 ≤ taccCycles w := by
    refine ⟨.some v hv ((hle 14).mp (by omega)) (hneed.trans (Nat.mul_le_mul_left _ hdv)) hlt, ?_⟩
    intro w hw hen
    cases hw
    exact (hcases.2 hen).trans hdv
  split_ifs with h0 h4 h6 h8 h10 h14
  · exact hcode 0 (by decide) (by simp [h0]) (by change hclkTns * 1 < _; omega) (by omega)
  · have hself : taccCycles (BitVec.ofNat 32 (d - 1)) = d := by
      interval_cases d
      · exact absurd rfl h0
      all_goals rfl
    have hfour : hclkTns * d ≤ hclkTns * 4 := Nat.mul_le_mul_left _ h4
    exact hcode _ (by rw [toNat_ofNat]; omega) hself.ge (by rw [hself]; omega) (by omega)
  · have := hmore 4 le_rfl (by omega)
    exact hcode 4 (by decide) h6 (by change hclkTns * 6 < _; omega) (by omega)
  · have := hmore 6 (by decide) (by omega)
    exact hcode 5 (by decide) (h8.trans (by decide)) (by change hclkTns * 9 < _; omega) (by omega)
  · have := hmore 8 (by decide) (by omega)
    exact hcode 6 (by decide) h10 (by change hclkTns * 10 < _; omega) (by omega)
  · have := hmore 10 (by decide) (by omega)
    exact hcode 7 (by decide) h14 (by change hclkTns * 14 < _; omega) h14
  · refine ⟨.none (Nat.lt_of_not_le fun hlong => ?_), by simp⟩
    have := (hle 14).mpr hlong
    omega

/-! ### The register -/

/-- The bits of a register value that `s3c2410_calc_bank` keeps. -/
def bankconKept : BitVec 32 := bankconSdram ||| bankconPmc16

lemma field_bankconKept : field 13 2 bankconKept = 0 ∧ field 11 2 bankconKept = 0 ∧
    field 4 2 bankconKept = 0 ∧ field 6 2 bankconKept = 0 ∧ field 8 3 bankconKept = 0 := by
  decide

lemma field_bankcon {x tacs tcos tcah tcoh tacc : BitVec 32} (htacs : tacs.toNat < 2 ^ 2)
    (htcos : tcos.toNat < 2 ^ 2) (htcah : tcah.toNat < 2 ^ 2) (htcoh : tcoh.toNat < 2 ^ 2)
    (htacc : tacc.toNat < 2 ^ 3) :
    let v := x &&& bankconKept ||| tacs <<< bankconTacsShift ||| tcos <<< bankconTcosShift |||
      tcah <<< bankconTcahShift ||| tcoh <<< bankconTcohShift ||| tacc <<< bankconTaccShift
    field bankconTacsShift 2 v = tacs ∧ field bankconTcosShift 2 v = tcos ∧
      field bankconTcahShift 2 v = tcah ∧ field bankconTcohShift 2 v = tcoh ∧
      field bankconTaccShift 3 v = tacc ∧ v &&& bankconKept = x &&& bankconKept := by
  have hkept := field_bankconKept
  intro v
  refine ⟨?_, ?_, ?_, ?_, ?_, ?_⟩
  case refine_6 =>
    simp only [v, bankconTacsShift, bankconTcosShift, bankconTcahShift, bankconTcohShift,
      bankconTaccShift, and_or_distrib_right, shiftLeft_and_eq_zero htacs hkept.1,
      shiftLeft_and_eq_zero htcos hkept.2.1, shiftLeft_and_eq_zero htcah hkept.2.2.1,
      shiftLeft_and_eq_zero htcoh hkept.2.2.2.1, shiftLeft_and_eq_zero htacc hkept.2.2.2.2]
    simp [BitVec.and_assoc]
  all_goals
    simp (disch := decide) only [v, field_or, field_and, hkept, bankconTacsShift, bankconTcosShift,
      bankconTcahShift, bankconTcohShift, bankconTaccShift, field_shiftLeft_of_disjoint htacs,
      field_shiftLeft_of_disjoint htcos, field_shiftLeft_of_disjoint htcah,
      field_shiftLeft_of_disjoint htcoh, field_shiftLeft_of_disjoint htacc,
      field_shiftLeft_self htacs, field_shiftLeft_self htcos, field_shiftLeft_self htcah,
      field_shiftLeft_self htcoh, field_shiftLeft_self htacc]
    simp

lemma cycles0124_field (x : BitVec 32) (s : Nat) :
    cycles0124 (x >>> s) = cycles0124 (field s 2 x) := by
  have hself : field s 2 x &&& 3 = x >>> s &&& 3 := by
    rw [field, BitVec.and_assoc]
    rfl
  rw [cycles0124, cycles0124, hself]

lemma taccCycles_field (x : BitVec 32) (s : Nat) :
    taccCycles (x >>> s) = taccCycles (field s 3 x) := by
  have hself : field s 3 x &&& 7 = x >>> s &&& 7 := by
    rw [field, BitVec.and_assoc]
    rfl
  rw [taccCycles, taccCycles, hself]

def Bank.TooLong (bt : Bank) (hclkTns : Nat) : Prop :=
  hclkTns * 4 < bt.tacs ∨ hclkTns * 4 < bt.tcos ∨ hclkTns * 4 < bt.tcah ∨ hclkTns * 4 < bt.tcoh ∨
    hclkTns * 14 < bt.tacc

/-- No time of `new` is shorter than the one of the bank. -/
structure Bank.AtMost (bt new : Bank) : Prop where
  tacs : bt.tacs ≤ new.tacs
  tcos : bt.tcos ≤ new.tcos
  tacc : bt.tacc ≤ new.tacc
  tcoh : bt.tcoh ≤ new.tcoh
  tcah : bt.tcah ≤ new.tcah

/-- The times of a request, in tenths of nanoseconds. -/
def Bank.times (bt : Bank) : List Nat := [bt.tacs, bt.tcos, bt.tacc, bt.tcoh, bt.tcah]

/-- A calculation that succeeds makes no time shorter, and one fails only for a time that does not
fit its field and then leaves the bank alone. -/
theorem callCalcBank_spec (hclkTns : Nat) (bt : Bank) (hpos : 0 < hclkTns)
    (hhclk : hclkTns < 2 ^ 30) (htimes : ∀ t ∈ bt.times, t < 2 ^ 30) :
    ((callCalcBank hclkTns bt).1 = 0 →
      bt.AtMost (getbank hclkTns (callCalcBank hclkTns bt).2) ∧
        (bt.nwaitEn → 4 ≤ (getCycles (callCalcBank hclkTns bt).2.bankcon).tacc) ∧
        (callCalcBank hclkTns bt).2.bankcon &&& bankconKept = bt.bankcon &&& bankconKept) ∧
    ((callCalcBank hclkTns bt).1 ≠ 0 ↔ bt.TooLong hclkTns) ∧
    ((callCalcBank hclkTns bt).1 ≠ 0 → (callCalcBank hclkTns bt).2 = bt) := by
  simp only [Bank.times, List.mem_cons, List.not_mem_nil, or_false, forall_eq_or_imp,
    forall_eq] at htimes
  obtain ⟨htacs, htcos, htacc, htcoh, htcah⟩ := htimes
  have h1 := calc0124_spec hpos hhclk htacs
  have h2 := calc0124_spec hpos hhclk htcos
  have h3 := calc0124_spec hpos hhclk htcah
  have h4 := calc0124_spec hpos hhclk htcoh
  obtain ⟨h5, hwait⟩ := calcTacc_spec hpos hhclk htacc bt.nwaitEn
  unfold callCalcBank calcBank Bank.TooLong
  generalize calc0124 bt.tacs hclkTns = r1 at h1
  generalize calc0124 bt.tcos hclkTns = r2 at h2
  generalize calc0124 bt.tcah hclkTns = r3 at h3
  generalize calc0124 bt.tcoh hclkTns = r4 at h4
  generalize calcTacc bt.tacc bt.nwaitEn hclkTns = r5 at h5 hwait
  rcases h1 with long | ⟨tacs, l1, n1, e1, f1⟩
  · simp [long, EINVAL]
  rcases h2 with long | ⟨tcos, l2, n2, e2, f2⟩
  · simp [long, EINVAL]
  rcases h3 with long | ⟨tcah, l3, n3, e3, f3⟩
  · simp [long, EINVAL]
  rcases h4 with long | ⟨tcoh, l4, n4, e4, f4⟩
  · simp [long, EINVAL]
  rcases h5 with long | ⟨tacc, l5, n5, e5, f5⟩
  · simp [long, EINVAL]
  have hsame : bankconSdram ||| bankconPmc16 = bankconKept := rfl
  obtain ⟨v1, v2, v3, v4, v5, hkept⟩ := field_bankcon (x := bt.bankcon) l1 l2 l3 l4 l5
  simp only [Option.bind_eq_bind, Option.bind_some, ne_eq, not_true_eq_false, false_imp_iff,
    and_true, true_imp_iff, false_iff]
  refine ⟨?_, by omega⟩
  simp only [getbank, getCycles, cycles0124_field, taccCycles_field, hsame, v1, v2, v3, v4, v5,
    Nat.mod_eq_of_lt f1, Nat.mod_eq_of_lt f2, Nat.mod_eq_of_lt f3, Nat.mod_eq_of_lt f4,
    Nat.mod_eq_of_lt f5]
  exact ⟨⟨e1, e2, e5, e4, e3⟩, hwait tacc rfl, hkept⟩

theorem sramBank_spec :
    let bt : Bank := ⟨0x700, 100, 0, 550, 0, 100, true⟩
    bt.AtMost (getbank 100 (callCalcBank 100 bt).2) :=
  ((callCalcBank_spec 100 _ (by decide) (by decide) (by decide)).1 (by decide)).1

/-- With a clock period from `2 ^ 30` on the four cycles of an access with nWAIT overflow. -/
theorem slowClock_reads_shorter :
    let bt : Bank := ⟨0, 0, 0, 1, 0, 0, true⟩
    (callCalcBank (2 ^ 30) bt).1 = 0 ∧
      ¬ bt.AtMost (getbank (2 ^ 30) (callCalcBank (2 ^ 30) bt).2) :=
  ⟨by decide, fun h => absurd h.tacc (by decide)⟩

/-! ### Reading and calculating again -/

lemma mul_cycles_le (hle : hclkTns ≤ 10 ^ 6) (hn : n + 1 ≤ 15) : hclkTns * (n + 1) ≤ 2 ^ 32 :=
  (Nat.mul_le_mul hle hn).trans (by decide)

lemma calc0124_cycles (hpos : 0 < hclkTns) (hle : hclkTns ≤ 10 ^ 6) (hv : v.toNat < 2 ^ 2) :
    calc0124 (hclkTns * cycles0124 v % 2 ^ 32) hclkTns = some v := by
  have hcases : v = 0 ∨ v = 1 ∨ v = 2 ∨ v = 3 := by bv_omega
  rcases hcases with rfl | rfl | rfl | rfl <;>
    (rw [calc0124, toDiv_mul hpos (mul_cycles_le hle (by decide))]; rfl)

/-- The code 5 is read as nine cycles, for which the code is 6. -/
lemma calcTacc_cycles (hpos : 0 < hclkTns) (hle : hclkTns ≤ 10 ^ 6) (hv : v.toNat < 2 ^ 3) :
    calcTacc (hclkTns * taccCycles v % 2 ^ 32) false hclkTns = some (if v = 5 then 6 else v) := by
  have hcases : v = 0 ∨ v = 1 ∨ v = 2 ∨ v = 3 ∨ v = 4 ∨ v = 5 ∨ v = 6 ∨ v = 7 := by bv_omega
  rcases hcases with rfl | rfl | rfl | rfl | rfl | rfl | rfl | rfl <;>
    (rw [calcTacc, toDiv_mul hpos (mul_cycles_le hle (by decide))]; rfl)

/-- All bits of `BANKCON` but those of `tacp` and the upper ones. -/
def bankconCalculated : BitVec 32 := 0x1fff3

/-- The register value is found again unless it has a bit that is not calculated or an access time
of eight cycles. -/
theorem calcBank_getbank_iff (hclkTns : Nat) (bt : Bank) (hpos : 1 ≤ hclkTns)
    (hle : hclkTns ≤ 10 ^ 6) (hwait : bt.nwaitEn = false) :
    calcBank hclkTns (getbank hclkTns bt) = some bt.bankcon ↔
      bt.bankcon &&& bankconCalculated = bt.bankcon ∧ field 8 3 bt.bankcon ≠ 5 := by
  have hcalc : calcBank hclkTns (getbank hclkTns bt) = some (bt.bankcon &&& bankconKept |||
      field 13 2 bt.bankcon <<< bankconTacsShift ||| field 11 2 bt.bankcon <<< bankconTcosShift |||
      field 4 2 bt.bankcon <<< bankconTcahShift ||| field 6 2 bt.bankcon <<< bankconTcohShift |||
      (if field 8 3 bt.bankcon = 5 then 6 else field 8 3 bt.bankcon) <<< bankconTaccShift) := by
    simp only [calcBank, getbank, getCycles, cycles0124_field, taccCycles_field, hwait,
      calc0124_cycles hpos hle toNat_field_lt, calcTacc_cycles hpos hle toNat_field_lt]
    rfl
  rw [hcalc, Option.some.injEq]
  by_cases hfive : field 8 3 bt.bankcon = 5
  · refine iff_of_false (fun h => ?_) fun h => h.2 hfive
    have hsix : (6 : BitVec 32).toNat < 2 ^ 3 := by decide
    have htacc := (congrArg (field bankconTaccShift 3) h).trans hfive
    rw [if_pos hfive, (field_bankcon toNat_field_lt toNat_field_lt toNat_field_lt
      toNat_field_lt hsix).2.2.2.2.1] at htacc
    exact absurd htacc (by decide)
  · rw [if_neg hfive]
    simp only [bankconTacsShift, bankconTcosShift, bankconTcahShift, bankconTcohShift,
      bankconTaccShift, field_shiftLeft, ← and_or_distrib_left]
    exact (and_iff_left hfive).symm

theorem resetBank_getbank :
    let bt : Bank := ⟨0x700, 0, 0, 0, 0, 0, false⟩
    calcBank 75 (getbank 75 bt) = some bt.bankcon :=
  (calcBank_getbank_iff 75 _ (by decide) (by decide) rfl).mpr (by decide)

/-- An access time of eight cycles comes back as one of ten. -/
theorem eightCycles_getbank :
    let bt : Bank := ⟨0x500, 0, 0, 0, 0, 0, false⟩
    calcBank 75 (getbank 75 bt) = some 0x600 ∧ calcBank 75 (getbank 75 bt) ≠ some bt.bankcon := by
  decide

end Bank

end Mini2440.Cpufreq
