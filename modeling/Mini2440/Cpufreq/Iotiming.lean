import Mini2440.Cpufreq.Registers

/-!
# The timing of the IO banks

`iotiming-s3c2410.c`: the times that are recorded for each IO bank, in tenths of nanoseconds,
the value of `BANKCON` that is calculated from them for a clock, and the times that a value of
`BANKCON` stands for.

The calculation rounds each time up to a number of cycles that the register can express, so
that at the period that it is made for no time gets shorter. The period is a 32-bit number.
-/

namespace Mini2440.Cpufreq

open List Function Library

/-- `struct s3c2410_iobank_timing`, without `tacp`, which is recorded nowhere and which
`calc_tacp` ignores. -/
structure Bank where
  bankcon : BitVec 32
  tacs : Nat
  tcos : Nat
  tacc : Nat
  tcoh : Nat
  tcah : Nat
  nwaitEn : Bool

/-- `struct s3c_iotimings`. -/
abbrev Banks := Fin 8 → Option Bank

def bankconPmc16 : BitVec 32 := 3
def bankconTcahShift : Nat := 4
def bankconTcohShift : Nat := 6
def bankconTaccShift : Nat := 8
def bankconTcosShift : Nat := 11
def bankconTacsShift : Nat := 13
def bankconSdram : BitVec 32 := 3 <<< 15

/-! ## Calculating `BANKCON` -/

def toDiv (cyc hclkTns : Nat) : Nat :=
  if cyc = 0 then 0 else (cyc + hclkTns + (2 ^ 32 - 1)) % 2 ^ 32 / hclkTns

/-- `calc_0124`; the field that is added to the register. -/
def calc0124 (cyc hclkTns : Nat) : Option (BitVec 32) :=
  match toDiv cyc hclkTns with
  | 0 => some 0
  | 1 => some 1
  | 2 => some 2
  | 3 => some 3
  | 4 => some 3
  | _ => none

def calcTacc (cyc : Nat) (nwaitEn : Bool) (hclkTns : Nat) : Option (BitVec 32) :=
  let div := toDiv cyc hclkTns
  -- with nWAIT the access takes at least four cycles
  let div := if nwaitEn && div < 4 then 4 else div
  if div = 0 then some 0
  else if div ≤ 4 then some (BitVec.ofNat 32 (div - 1))
  else if div ≤ 6 then some 4
  else if div ≤ 8 then some 5
  else if div ≤ 10 then some 6
  else if div ≤ 14 then some 7
  else none

/-- `s3c2410_calc_bank`. -/
def calcBank (hclkTns : Nat) (bt : Bank) : Option (BitVec 32) := do
  let tacs ← calc0124 bt.tacs hclkTns
  let tcos ← calc0124 bt.tcos hclkTns
  let tcah ← calc0124 bt.tcah hclkTns
  let tcoh ← calc0124 bt.tcoh hclkTns
  let tacc ← calcTacc bt.tacc bt.nwaitEn hclkTns
  some (bt.bankcon &&& (bankconSdram ||| bankconPmc16) ||| tacs <<< bankconTacsShift |||
    tcos <<< bankconTcosShift ||| tcah <<< bankconTcahShift ||| tcoh <<< bankconTcohShift |||
    tacc <<< bankconTaccShift)

/-- One round of `s3c2410_iotiming_calc`: the bank gets its register value and then the
calculated one, if there is one. -/
def calcRound (bankcon : Fin 8 → BitVec 32) (hclkTns : Nat) (iot : Banks) (bank : Fin 8) :
    Except Banks Banks :=
  match iot bank with
  | none => .ok iot
  | some bt =>
    let bt := { bt with bankcon := bankcon bank }
    match calcBank hclkTns bt with
    | none => .error (update iot bank (some bt))
    | some v => .ok (update iot bank (some { bt with bankcon := v }))

/-- `s3c2410_iotiming_calc`; the table that a failure leaves is an error. -/
def iotimingCalc (r : Regs) (hclkTns : Nat) (iot : Banks) : Except Banks Banks :=
  (finRange 8).foldlM (calcRound r.bankcon hclkTns) iot

/-- `s3c2410_iotiming_set`. -/
def iotimingSet (iot : Banks) : List Write :=
  (finRange 8).filterMap fun bank => (iot bank).map fun bt => .bankcon bank bt.bankcon

/-! ## Reading `BANKCON` -/

def taccTab : List Nat := [1, 2, 3, 4, 6, 9, 10, 14]

def taccCycles (v : BitVec 32) : Nat := taccTab.getD (v &&& 7).toNat 0

def cycles0124 (v : BitVec 32) : Nat := if v &&& 3 = 3 then 4 else (v &&& 3).toNat

structure Cycles where
  tacs : Nat
  tcos : Nat
  tacc : Nat
  tcoh : Nat
  tcah : Nat

/-- The fields that `s3c2410_iotiming_getbank` reads. -/
def getCycles (bankcon : BitVec 32) : Cycles where
  tcah := cycles0124 (bankcon >>> bankconTcahShift)
  tcoh := cycles0124 (bankcon >>> bankconTcohShift)
  tcos := cycles0124 (bankcon >>> bankconTcosShift)
  tacs := cycles0124 (bankcon >>> bankconTacsShift)
  tacc := taccCycles (bankcon >>> bankconTaccShift)

/-- A number of cycles of a clock takes at least a time, which is given in tenths of
nanoseconds. -/
def Lasts (time hclk cycles : Nat) : Prop := time * hclk ≤ cycles * 10 ^ 10

/-- A register value gives a bank its times at a clock. -/
structure Bank.Meets (bt : Bank) (bankcon : BitVec 32) (hclk : Nat) : Prop where
  tacs : Lasts bt.tacs hclk (getCycles bankcon).tacs
  tcos : Lasts bt.tcos hclk (getCycles bankcon).tcos
  tacc : Lasts bt.tacc hclk (getCycles bankcon).tacc
  tcoh : Lasts bt.tcoh hclk (getCycles bankcon).tcoh
  tcah : Lasts bt.tcah hclk (getCycles bankcon).tcah

lemma Lasts.mono {time hclk hclk' cycles : Nat} (h : Lasts time hclk cycles)
    (hle : hclk' ≤ hclk) : Lasts time hclk' cycles :=
  (Nat.mul_le_mul_left time hle).trans h

lemma Bank.Meets.mono {bt : Bank} {bankcon : BitVec 32} {hclk hclk' : Nat}
    (h : bt.Meets bankcon hclk) (hle : hclk' ≤ hclk) : bt.Meets bankcon hclk' :=
  ⟨h.tacs.mono hle, h.tcos.mono hle, h.tacc.mono hle, h.tcoh.mono hle, h.tcah.mono hle⟩

/-! ## The calculation for all banks -/

variable {r : Regs} {bankcon : Fin 8 → BitVec 32} {hclkTns : Nat} {iot iot' : Banks}
  {bank bank' : Fin 8} {bt : Bank}

def Calculated (bankcon : BitVec 32) (hclkTns : Nat) (old new : Option Bank) : Prop :=
  match old with
  | none => new = none
  | some bt =>
    ∃ v, calcBank hclkTns { bt with bankcon := bankcon } = some v ∧
      new = some { bt with bankcon := v }

def calcEntry (bankcon : BitVec 32) (hclkTns : Nat) : Option Bank → Option (Option Bank)
  | none => some none
  | some bt =>
    (calcBank hclkTns { bt with bankcon := bankcon }).map fun v => some { bt with bankcon := v }

lemma calcRound_eq_ok_iff :
    calcRound bankcon hclkTns iot bank = .ok iot' ↔
      ∃ new, calcEntry (bankcon bank) hclkTns (iot bank) = some new ∧
        update iot bank new = iot' := by
  unfold calcRound calcEntry
  cases hbt : iot bank with
  | none => simp [← hbt]
  | some bt =>
    dsimp only
    cases calcBank hclkTns { bt with bankcon := bankcon bank } <;> simp

/-- The value that `s3c2410_iotiming_set` gives to the register of a bank. -/
def bankconSet (iot : Banks) (bankcon : Fin 8 → BitVec 32) (bank : Fin 8) : BitVec 32 :=
  match iot bank with
  | none => bankcon bank
  | some bt => bt.bankcon

lemma visits_iotimingSet (iot : Banks) (r : Regs) :
    ∀ t ∈ visits Regs.write r (iotimingSet iot),
      Regs.SameClocks t r ∧
        ∀ bank, t.bankcon bank = r.bankcon bank ∨
          t.bankcon bank = bankconSet iot r.bankcon bank := by
  apply forall_visits
  · rintro t w hw ⟨hclocks, hbanks⟩
    simp only [iotimingSet, mem_filterMap, mem_finRange, true_and, Option.map_eq_some_iff] at hw
    obtain ⟨bank, bt, hbt, rfl⟩ := hw
    refine ⟨{ hclocks with }, fun bank' => ?_⟩
    by_cases heq : bank' = bank
    · subst heq
      simp [bankconSet, hbt]
    · simpa [update_of_ne heq] using hbanks bank'
  · exact ⟨⟨rfl, rfl, rfl⟩, fun _ => .inl rfl⟩

lemma bankcon_foldl_write (banks : List (Fin 8)) :
    (runFrom Regs.write r (banks.filterMap fun bank =>
        (iot bank).map fun bt => Write.bankcon bank bt.bankcon)).bankcon bank =
      if bank ∈ banks then bankconSet iot r.bankcon bank else r.bankcon bank := by
  induction banks generalizing r with
  | nil => simp
  | cons b banks ih =>
    cases hb : iot b with
    | none => grind [bankconSet]
    | some bt =>
      have hset : bankconSet iot (r.write (.bankcon b bt.bankcon)).bankcon bank =
          bankconSet iot r.bankcon bank := by
        by_cases heq : bank = b
        · subst heq
          simp [bankconSet, hb]
        · simp [bankconSet, update_of_ne heq]
      simp only [filterMap_cons, hb, Option.map_some, runFrom_cons, ih, hset]
      by_cases heq : bank = b
      · subst heq
        simp [bankconSet, hb]
      · simp [heq]

lemma iotimingCalc_ok (h : iotimingCalc r hclkTns iot = .ok iot') (bank : Fin 8) :
    Calculated (r.bankcon bank) hclkTns (iot bank) (iot' bank) := by
  have hbank := (foldlM_update_iff (f := fun bank => calcEntry (r.bankcon bank) hclkTns)
    (fun _ _ _ => calcRound_eq_ok_iff) (nodup_finRange 8)).mp h bank
  rw [if_pos (mem_finRange bank)] at hbank
  unfold Calculated
  cases hbt : iot bank with
  | none => simpa [calcEntry, hbt, eq_comm] using hbank
  | some bt =>
    simp only [calcEntry, hbt, Option.map_eq_some_iff] at hbank
    obtain ⟨v, hv, hnew⟩ := hbank
    exact ⟨v, hv, hnew.symm⟩

end Mini2440.Cpufreq
