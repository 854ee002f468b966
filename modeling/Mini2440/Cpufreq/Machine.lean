import Mini2440.Clock.Tree
import Mini2440.Cpufreq.Iotiming
import Mini2440.Cpufreq.Plls
import Mini2440.Cpufreq.Target

/-!
# The driver on an S3C2440

`s3c_cpufreq_settarget` together with what it acts on: the registers, the table of the IO
timings and the clocks of the kernel. The machine starts as `s3c244x_setup_clocks` and
`s3c_cpufreq_getcur` find it, with any registers.

The driver trusts the PLL entries that it is given: their frequencies are compared, not read back
from the PLL.
-/

namespace Mini2440.Cpufreq

open Library Clock

structure Board where
  xtal : Nat
  refresh : Nat

/-! ## The clocks -/

inductive ClkId where
  | mpll | fclk | hclk | pclk | armclk
  deriving DecidableEq, Repr

instance : Fintype ClkId where
  elems := {.mpll, .fclk, .hclk, .pclk, .armclk}
  complete c := by cases c <;> decide

/-- `s3c2440_setparent_armclk`, without its register. -/
def s3c2440SetparentArmclk (t : Clocks ClkId) (parent : ClkId) : Clocks ClkId × Int :=
  if parent = .fclk ∨ parent = .hclk then
    (t.modify .armclk fun clk => { clk with parent := some parent }, 0)
  else (t, -EINVAL)

/-- The operations of the clocks; `clk_f` has none. -/
def clkOps : ClkId → ClkOps ClkId
  | .fclk => ⟨none, none, none⟩
  | .armclk => ⟨none, none, some s3c2440SetparentArmclk⟩
  | c => ⟨some (Clocks.clkDefaultSetrate c), none, none⟩

/-- `s3c_cpufreq_updateclk`. -/
def updateclk (t : Clocks ClkId) (c : ClkId) (freq : Nat) : Clocks ClkId :=
  (t.clkSetRate clkOps (some c) freq).1

def getRate (t : Clocks ClkId) (c : ClkId) : Nat := t.clkGetRate clkOps (some c)

section Rates

variable {t : Clocks ClkId} {c p : ClkId} {n : Nat}

lemma clkOps_getRate : (clkOps c).getRate = none := by
  cases c <;> rfl

lemma rateUp_own (h : (t c).rate ≠ 0 ∨ (t c).parent = none) :
    t.rateUp clkOps (n + 1) (some c) = (t c).rate := by
  rcases h with h | h <;> simp [Clocks.rateUp, clkOps_getRate, h]

lemma rateUp_parent (hrate : (t c).rate = 0) (hparent : (t c).parent = some p) :
    t.rateUp clkOps (n + 1) (some c) = t.rateUp clkOps n (some p) := by
  simp [Clocks.rateUp, clkOps_getRate, hrate, hparent]

lemma getRate_own (h : (t c).rate ≠ 0 ∨ (t c).parent = none) : getRate t c = (t c).rate :=
  rateUp_own h

end Rates

/-! ## The operations of `s3c_cpufreq_settarget` -/

def opClocks (t : Clocks ClkId) : Op → Clocks ClkId
  | .updateClk new =>
    let t := updateclk t .mpll new.pll.frequency
    let t := updateclk t .fclk new.freq.fclk
    let t := updateclk t .hclk new.freq.hclk
    updateclk t .pclk new.freq.pclk
  | .setDivs new =>
    (t.clkSetParent clkOps (some .armclk) (some (if new.divs.dvs then .hclk else .fclk))).1
  | _ => t

def opWrites (board : Board) (iot : Banks) (r : Regs) : Op → List Write
  | .setRefresh new => setrefresh board.refresh r new
  | .setIo _ => iotimingSet iot
  | .setDivs new => setdivs r new
  | .setFvco new => setFvco new
  | .updateClk _ | .preChange _ _ | .postChange _ _ => []

def opsWrites (board : Board) (iot : Banks) : Regs → List Op → List Write
  | _, [] => []
  | r, op :: ops =>
    let ws := opWrites board iot r op
    ws ++ opsWrites board iot (runFrom Regs.write r ws) ops

/-! ## The machine -/

structure Machine where
  regs : Regs
  iot : Banks
  clocks : Clocks ClkId
  state : State

/-- A call of `s3c_cpufreq_settarget`; `notify` tells whether there is a policy. -/
structure Request where
  target : Nat
  pll : Option Entry
  notify : Bool

namespace Machine

/-- `s3c_cpufreq_calcio`, if it is called. -/
def calcio (m : Machine) (req : Request) : Except Banks Banks :=
  match newConfig s3c2440 m.state.cur req.target req.pll with
  | none => .ok m.iot
  | some new =>
    if new.freq.hclk ≠ m.state.cur.freq.hclk then iotimingCalc m.regs new.freq.hclkTns m.iot
    else .ok m.iot

/-- The timings after the calculation, which changes them also when it fails. -/
def calculated : Except Banks Banks → Banks
  | .ok iot => iot
  | .error iot => iot

def outcome (m : Machine) (req : Request) : Int × State :=
  Cpufreq.settarget s3c2440 m.state req.notify (m.calcio req).isOk req.target req.pll

def performed (m : Machine) (req : Request) : List Op :=
  (m.outcome req).2.ops.drop m.state.ops.length

def writes (board : Board) (m : Machine) (req : Request) : List Write :=
  opsWrites board (calculated (m.calcio req)) m.regs (m.performed req)

/-- `s3c_cpufreq_settarget`. -/
def settarget (board : Board) (m : Machine) (req : Request) : Int × Machine :=
  ((m.outcome req).1,
    { regs := runFrom Regs.write m.regs (m.writes board req)
      iot := calculated (m.calcio req)
      clocks := runFrom opClocks m.clocks (m.performed req)
      state := (m.outcome req).2 })

def step (board : Board) (m : Machine) (req : Request) : Machine := (m.settarget board req).2

/-- The clocks that `s3c244x_setup_clocks` and `s3c244x_clk_add` set up. -/
def setupClocks (board : Board) (r : Regs) : Clocks ClkId
  | .mpll => ⟨none, 0, r.fclk board.xtal, false⟩
  | .fclk => ⟨some .mpll, 0, r.fclk board.xtal, false⟩
  | .hclk => ⟨none, 0, r.hclk board.xtal, false⟩
  | .pclk => ⟨none, 0, r.pclk board.xtal, false⟩
  | .armclk => ⟨some (if r.camdivn &&& camdivnDvsen ≠ 0 then .hclk else .fclk), 0, 0, false⟩

/-- `s3c_cpufreq_getcur`, with the limits and the lock that `s3c_cpufreq_initcall` sets. -/
def getcur (r : Regs) (t : Clocks ClkId) (max : Freq) (lockPll : Bool) : Config :=
  let fclk := getRate t .fclk
  let hclk := getRate t .hclk
  let pclk := getRate t .pclk
  { freq := ⟨fclk, getRate t .armclk, 1000000000 / (hclk / 10), hclk, pclk⟩
    max := max
    pll := ⟨r.mpllcon.toNat, fclk⟩
    divs := ⟨fclk / pclk, fclk / hclk, 0, false⟩
    lockPll := lockPll }

def boot (board : Board) (r : Regs) (iot : Banks) (max : Freq) (lockPll : Bool) : Machine :=
  let clocks := setupClocks board r
  { regs := r
    iot := iot
    clocks := clocks
    state := { cur := getcur r clocks max lockPll, lastTarget := allOnes, ops := [] } }

end Machine

/-! ## What a call can do -/

variable {cur new : Config} {target : Nat} {pll : Option Entry}

structure Planned (cur : Config) (pll : Option Entry) (new : Config) : Prop where
  hdiv : new.divs.hDivisor ∈ hdivs
  pdiv : new.divs.pDivisor = Regs.pdivOf new.divs * new.divs.hDivisor
  pll : new.pll = pll.getD cur.pll
  fclk : new.freq.fclk = new.pll.frequency
  hclk : new.freq.hclk = new.freq.fclk / new.divs.hDivisor
  pclk : new.freq.pclk = new.freq.fclk / new.divs.pDivisor
  armclk : new.freq.armclk = if new.divs.dvs then new.freq.hclk else new.freq.fclk

lemma planned_newConfig (h : newConfig s3c2440 cur target pll = some new) :
    Planned cur pll new := by
  obtain ⟨cfg, hcfg, rfl⟩ := Option.map_eq_some_iff.mp h
  obtain ⟨store, hstore, rfl⟩ := Option.map_eq_some_iff.mp hcfg
  simp only [s3c2440, s3c2440Calcdivs, hdivLoop_eq] at hstore
  split at hstore
  case h_2 => cases hstore
  case h_1 hdiv hfind =>
    simp only [Option.ite_none_left_eq_some, Option.some.injEq] at hstore
    obtain ⟨-, hp, rfl⟩ := hstore
    have hmem : hdiv ∈ hdivs := List.mem_of_find?_eq_some hfind
    refine ⟨hmem, ?_, rfl, rfl, rfl, rfl, ?_⟩
    · simp only [Regs.pdivOf, Config.cpufreqCalc]
      grind
    · simp only [Config.cpufreqCalc, Config.request]
      have hle : (pll.getD cur.pll).frequency / hdiv ≤ (pll.getD cur.pll).frequency :=
        Nat.div_le_self _ _
      grind

namespace Machine

variable {board : Board} {m : Machine} {req : Request}

def changed (board : Board) (m : Machine) (req : Request) (new : Config) (iot : Banks) : Machine :=
  let ops := change req.notify m.state.cur new
  { regs := runFrom Regs.write m.regs (opsWrites board iot m.regs ops)
    iot := iot
    clocks := runFrom opClocks m.clocks ops
    state := { m.state with cur := new, ops := m.state.ops ++ ops } }

/-- A call fails, and then only the values that are kept for the banks may change, or it
installs the configuration that it is for. -/
lemma settarget_cases (board : Board) (m : Machine) (req : Request) :
    (m.writes board req = [] ∧
      ∃ iot, m.settarget board req = (-EINVAL, { m with iot := iot })) ∨
    ∃ new iot, newConfig s3c2440 m.state.cur req.target req.pll = some new ∧
      m.calcio req = .ok iot ∧
      m.writes board req = opsWrites board iot m.regs (change req.notify m.state.cur new) ∧
      m.settarget board req = (0, changed board m req new iot) := by
  obtain hfail | ⟨new, hnew, hset⟩ :=
    Cpufreq.settarget_cases s3c2440 m.state req.notify (m.calcio req).isOk req.target req.pll
  · refine .inl ⟨?_, calculated (m.calcio req), ?_⟩
    · simp [writes, performed, outcome, hfail, opsWrites]
    · simp [settarget, writes, performed, outcome, hfail, opsWrites]
  · refine .inr ?_
    cases hio : m.calcio req with
    | ok iot =>
      rw [hio] at hset
      refine ⟨new, iot, hnew, rfl, ?_, ?_⟩
      · simp [writes, performed, outcome, hio, hset, calculated]
      · simp [settarget, writes, performed, outcome, hio, hset, changed, calculated]
    | error iot =>
      rw [hio, Cpufreq.settarget, hnew] at hset
      have hne : new.freq.hclk ≠ m.state.cur.freq.hclk := fun heq => by
        simp [calcio, hnew, heq] at hio
      exact absurd hset (by simp [hne, Except.toBool, EINVAL])

end Machine

end Mini2440.Cpufreq
