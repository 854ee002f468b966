import Mini2440.Cpufreq.Chip
import Mini2440.Library.Run

/-!
# Requests for a frequency

`s3c_cpufreq_target` looks a request up in the frequency table and the PLL table, calculates a
configuration and installs it. It remembers the last target and answers a repeated one at once,
without a look at the relation, the policy or the fate of the last request.

A configuration is `plan`ned by the lookups and calculations alone. A call is honest if, when it
returns zero, the current configuration is the planned one.
-/

namespace Mini2440.Cpufreq

open Library

/-- What `s3c_cpufreq_settarget` does to the hardware and to those who listen, in order. -/
inductive Op where
  | updateClk (new : Config)
  | preChange (old new : Nat)
  | setRefresh (new : Config)
  | setIo (new : Config)
  | setDivs (new : Config)
  | setFvco (new : Config)
  | postChange (old new : Nat)

structure Tables where
  ftab : Option (List Entry)
  pllReg : Option (List Entry)

/-- A call of `s3c_cpufreq_target`. `ioOk` says whether the chip finds timings for its IO banks
when it is asked to. -/
structure Call where
  policy : Policy
  target : Nat
  relation : Nat
  ioOk : Bool
  deriving DecidableEq, Repr

structure State where
  cur : Config
  lastTarget : Nat
  ops : List Op

/-- The configuration that `s3c_cpufreq_settarget` calculates; without an entry for the PLL the
current one is kept. -/
def newConfig (chip : Chip) (cur : Config) (target : Nat) (pll : Option Entry) : Option Config :=
  (chip.calcDivs (cur.request (pll.getD cur.pll) target)).map Config.cpufreqCalc

def change (notify : Bool) (cur new : Config) : List Op :=
  let old := cur.freq.armclk / 1000
  let now := new.freq.armclk / 1000
  let pre : List Op := if notify then [.preChange old now] else []
  let slower : List Op :=
    if new.freq.hclk < cur.freq.hclk then [.setRefresh new, .setIo new] else []
  let clocks : List Op :=
    if new.freq.fclk = cur.freq.fclk then [.setDivs new]
    else if new.freq.fclk < cur.freq.fclk then [.setFvco new, .setDivs new]
    else [.setDivs new, .setFvco new]
  let faster : List Op :=
    if new.freq.hclk > cur.freq.hclk then [.setRefresh new, .setIo new] else []
  let post : List Op := if notify then [.postChange old now] else []
  .updateClk new :: pre ++ slower ++ clocks ++ faster ++ post

/-- `s3c_cpufreq_settarget`. -/
def settarget (chip : Chip) (s : State) (notify ioOk : Bool) (target : Nat) (pll : Option Entry) :
    Int × State :=
  match newConfig chip s.cur target pll with
  | none => (-EINVAL, s)
  | some new =>
    if new.freq.hclk ≠ s.cur.freq.hclk ∧ ioOk = false then (-EINVAL, s)
    else (0, { s with cur := new, ops := s.ops ++ change notify s.cur new })

def toHz (khz : Nat) : Nat := khz * 1000 % 2 ^ 32

/-- The lookups of `s3c_cpufreq_target`: the target in Hz and the entry for the PLL. -/
def lookup (tables : Tables) (lockPll : Bool) (call : Call) : Option (Nat × Option Entry) := do
  let target ←
    match tables.ftab with
    | none => some call.target
    | some ftab => do
      let index ← frequencyTableTarget call.policy ftab call.target call.relation
      let entry ← ftab[index]?
      some entry.frequency
  let target := toHz target
  match tables.pllReg, lockPll with
  | none, _ => some (target, none)
  | some _, true => some (target, none)
  | some pllReg, false => do
    let policy : Policy := ⟨toHz call.policy.min, toHz call.policy.max⟩
    let index ← frequencyTableTarget policy pllReg target call.relation
    let pll ← pllReg[index]?
    some (pll.frequency, some pll)

/-- `s3c_cpufreq_target`. -/
def target (chip : Chip) (tables : Tables) (s : State) (call : Call) : Int × State :=
  if call.target = s.lastTarget then (0, s)
  else
    let s := { s with lastTarget := call.target }
    match lookup tables s.cur.lockPll call with
    | none => (-EINVAL, s)
    | some (hz, pll) => settarget chip s true call.ioOk hz pll

/-! ## Honest answers -/

def plan (chip : Chip) (tables : Tables) (cur : Config) (call : Call) : Option Config := do
  let (hz, pll) ← lookup tables cur.lockPll call
  newConfig chip cur hz pll

/-- If the call returns zero, the configuration that it asks for is installed. -/
def Honest (chip : Chip) (tables : Tables) (s : State) (call : Call) : Prop :=
  (target chip tables s call).1 = 0 →
    plan chip tables s.cur call = some (target chip tables s call).2.cur

variable {chip : Chip} {tables : Tables} {s : State} {call : Call} {cur new : Config}

lemma newConfig_again {hz : Nat} {pll : Option Entry} (h : newConfig chip cur hz pll = some new) :
    newConfig chip new hz pll = some new ∧ new.lockPll = cur.lockPll := by
  obtain ⟨cfg, hcfg, rfl⟩ := Option.map_eq_some_iff.mp h
  obtain ⟨hpll, hlock⟩ := Chip.calcDivs_frame hcfg
  have hentry : pll.getD cfg.cpufreqCalc.pll = pll.getD cur.pll := by
    cases pll with
    | none => exact hpll
    | some entry => rfl
  refine ⟨?_, hlock⟩
  rw [newConfig, hentry]
  exact Chip.calcDivs_again hcfg

lemma plan_again (h : plan chip tables cur call = some new) :
    plan chip tables new call = some new := by
  obtain ⟨⟨hz, pll⟩, hlookup, hnew⟩ := Option.bind_eq_some_iff.mp h
  obtain ⟨hagain, hlock⟩ := newConfig_again hnew
  rw [plan, hlock, hlookup]
  exact hagain

lemma settarget_cases (chip : Chip) (s : State) (notify ioOk : Bool) (hz : Nat)
    (pll : Option Entry) :
    settarget chip s notify ioOk hz pll = (-EINVAL, s) ∨
      ∃ new, newConfig chip s.cur hz pll = some new ∧
        settarget chip s notify ioOk hz pll =
          (0, { s with cur := new, ops := s.ops ++ change notify s.cur new }) := by
  rw [settarget]
  cases newConfig chip s.cur hz pll with
  | none => exact .inl rfl
  | some new =>
    by_cases hio : new.freq.hclk ≠ s.cur.freq.hclk ∧ ioOk = false
    · exact .inl (if_pos hio)
    · exact .inr ⟨new, rfl, if_neg hio⟩

/-- All that a call can do: nothing for the last target, and otherwise it fails or installs the
configuration that it asks for. -/
lemma target_cases (chip : Chip) (tables : Tables) (s : State) (call : Call) :
    (call.target = s.lastTarget ∧ target chip tables s call = (0, s)) ∨
      (call.target ≠ s.lastTarget ∧
        target chip tables s call = (-EINVAL, { s with lastTarget := call.target })) ∨
      (call.target ≠ s.lastTarget ∧ ∃ new, plan chip tables s.cur call = some new ∧
        target chip tables s call =
          (0, ⟨new, call.target, s.ops ++ change true s.cur new⟩)) := by
  by_cases heq : call.target = s.lastTarget
  · exact .inl ⟨heq, if_pos heq⟩
  simp only [target, plan, if_neg heq]
  cases lookup tables s.cur.lockPll call with
  | none => exact .inr (.inl ⟨heq, rfl⟩)
  | some found =>
    obtain hfail | ⟨new, hnew, hset⟩ := settarget_cases chip
      { s with lastTarget := call.target } true call.ioOk found.1 found.2
    · exact .inr (.inl ⟨heq, hfail⟩)
    · exact .inr (.inr ⟨heq, new, hnew, hset⟩)

/-- The driver, with the last call if that returned zero. -/
structure History where
  state : State
  granted : Option Call

namespace History

/-- The driver before any call; the last target is then the greatest number. -/
def start (cur : Config) : History := ⟨{ cur, lastTarget := allOnes, ops := [] }, none⟩

def step (chip : Chip) (tables : Tables) (h : History) (call : Call) : History :=
  let result := target chip tables h.state call
  ⟨result.2, if result.1 = 0 then some call else none⟩

/-- A call that repeats the last target comes after a call that was granted, and has its relation
and policy. -/
def Repeatable (h : History) (call : Call) : Prop :=
  call.target = h.state.lastTarget →
    h.granted.map (fun c => (c.relation, c.policy)) = some (call.relation, call.policy)

def Inv (chip : Chip) (tables : Tables) (h : History) : Prop :=
  ∀ c, h.granted = some c →
    c.target = h.state.lastTarget ∧ plan chip tables h.state.cur c = some h.state.cur

variable {h : History}

lemma inv_start : Inv chip tables (start cur) := by
  intro c hc
  cases hc

lemma Inv.repeated (hinv : Inv chip tables h) (hrep : h.Repeatable call)
    (heq : call.target = h.state.lastTarget) :
    plan chip tables h.state.cur call = some h.state.cur := by
  obtain ⟨c, hc, hsame⟩ := Option.map_eq_some_iff.mp (hrep heq)
  obtain ⟨hrelation, hpolicy⟩ := Prod.mk.inj hsame
  obtain ⟨htarget, hplan⟩ := hinv c hc
  simpa [plan, lookup, heq, htarget, hrelation, hpolicy] using hplan

lemma Inv.honest (hinv : Inv chip tables h) (hrep : h.Repeatable call) :
    Honest chip tables h.state call := by
  intro hret
  obtain ⟨heq, ht⟩ | ⟨-, ht⟩ | ⟨-, new, hplan, ht⟩ := target_cases chip tables h.state call
  · rw [ht]
    exact hinv.repeated hrep heq
  · rw [ht] at hret
    cases hret
  · rw [ht]
    exact hplan

lemma Inv.step (hinv : Inv chip tables h) (hrep : h.Repeatable call) :
    Inv chip tables (h.step chip tables call) := by
  intro c hc
  obtain ⟨heq, ht⟩ | ⟨-, ht⟩ | ⟨-, new, hplan, ht⟩ := target_cases chip tables h.state call
  · simp only [History.step, ht] at hc ⊢
    obtain rfl := Option.some.inj hc
    exact ⟨heq, hinv.repeated hrep heq⟩
  · simp only [History.step, ht] at hc
    cases hc
  · simp only [History.step, ht] at hc ⊢
    obtain rfl := Option.some.inj hc
    exact ⟨rfl, plan_again hplan⟩

/-- Every call of a run is honest, if in the whole run targets are repeated only after a granted
call with the same relation and policy. -/
theorem calls_honest (chip : Chip) (tables : Tables) (cur : Config) (calls : List Call)
    (call : Call) (h : Along (History.step chip tables) Repeatable (start cur) (calls ++ [call])) :
    Honest chip tables (runFrom (History.step chip tables) (start cur) calls).state call := by
  obtain ⟨hcalls, hcall, -⟩ := along_append.mp h
  have hinv := hcalls.invariant (fun _ _ hinv hrep => hinv.step hrep) (inv_start)
  exact hinv.honest hcall

def fullSpeed : Config where
  freq := ⟨400000000, 400000000, 75, 133333333, 66666666⟩
  max := ⟨400000000, 0, 0, 133333333, 66666666⟩
  pll := ⟨0, 400000000⟩
  divs := ⟨6, 3, 0, false⟩
  lockPll := true

def threeSpeeds : Tables where
  ftab := some [⟨0, 400000⟩, ⟨1, 133333⟩, ⟨2, 100000⟩]
  pllReg := none

def slowDown (ioOk : Bool) : Call where
  policy := ⟨50000, 400000⟩
  target := 100000
  relation := relationL
  ioOk := ioOk

theorem slowDown_twice_honest :
    Honest s3c2440 threeSpeeds
      (runFrom (History.step s3c2440 threeSpeeds) (start fullSpeed) [slowDown true]).state
      (slowDown true) :=
  calls_honest s3c2440 threeSpeeds fullSpeed [slowDown true] (slowDown true)
    ⟨fun h => absurd h (by decide), fun _ => by decide +kernel, trivial⟩

/-- A request that fails for want of IO timings is answered with zero when it is repeated, at
the old speed. -/
theorem slowDown_refused_dishonest :
    ¬ Honest s3c2440 threeSpeeds
      (runFrom (History.step s3c2440 threeSpeeds) (start fullSpeed) [slowDown false]).state
      (slowDown false) := by
  intro h
  exact absurd (h (by decide +kernel)) (by decide +kernel)

end History

end Mini2440.Cpufreq
