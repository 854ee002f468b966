import Mini2440.Cpufreq.Machine

/-!
# Between two frequencies

The writes of `s3c_cpufreq_settarget` and the clocks and bank timings at every point between
them. The bus clock never exceeds both its old and its new frequency: the divisors are changed
with the bus clock halved, and while the PLL runs at the slower of its frequencies.

The timings of the banks are written with the refresh rate, before the clock gets slower and
after it has become faster. That is the right order for the refresh rate. The timings are then
used with the wrong clock in both directions.
-/

namespace Mini2440.Cpufreq

open List Library

variable {board : Board} {iot : Banks} {xtal : Nat} {r t : Regs} {cur new : Config}

/-! ## The writes of a change -/

lemma opsWrites_append (ops ops' : List Op) :
    opsWrites board iot r (ops ++ ops') =
      opsWrites board iot r ops ++
        opsWrites board iot (runFrom Regs.write r (opsWrites board iot r ops)) ops' := by
  induction ops generalizing r with
  | nil => simp [opsWrites]
  | cons op ops ih => simp [opsWrites, ih]

def memoryWrites (board : Board) (iot : Banks) (r : Regs) (new : Config) : List Write :=
  setrefresh board.refresh r new ++ iotimingSet iot

def clockWrites (cur new : Config) (r : Regs) : List Write :=
  if new.freq.fclk = cur.freq.fclk then setdivs r new
  else if new.freq.fclk < cur.freq.fclk then
    setFvco new ++ setdivs (runFrom Regs.write r (setFvco new)) new
  else setdivs r new ++ setFvco new

/-- A change is made in three parts, of which the first or the last is empty. -/
lemma opsWrites_change (notify : Bool) :
    opsWrites board iot r (change notify cur new) =
      let before := if new.freq.hclk < cur.freq.hclk then memoryWrites board iot r new else []
      let r' := runFrom Regs.write r before
      let clocks := clockWrites cur new r'
      let r'' := runFrom Regs.write r' clocks
      before ++ clocks ++
        if new.freq.hclk > cur.freq.hclk then memoryWrites board iot r'' new else [] := by
  -- the notifications and the clocks of the kernel write no register
  have hquiet : ∀ (r : Regs) (b : Bool) (op : Op), opWrites board iot r op = [] →
      opsWrites board iot r (if b then [op] else []) = [] := by
    intro r b op hop
    cases b <;> simp [opsWrites, hop]
  have hmemory : ∀ (r : Regs) (p : Prop) [Decidable p],
      opsWrites board iot r (if p then [.setRefresh new, .setIo new] else []) =
        if p then memoryWrites board iot r new else [] := by
    intro r p _
    split_ifs <;> simp [opsWrites, opWrites, memoryWrites]
  have hclocks : ∀ r : Regs, opsWrites board iot r
          (if new.freq.fclk = cur.freq.fclk then [.setDivs new]
            else if new.freq.fclk < cur.freq.fclk then [.setFvco new, .setDivs new]
            else [.setDivs new, .setFvco new]) =
        clockWrites cur new r := by
    unfold clockWrites
    split_ifs <;> simp [opsWrites, opWrites]
  have hupdate : ∀ (r : Regs) (ops : List Op),
      opsWrites board iot r (.updateClk new :: ops) = opsWrites board iot r ops := by
    simp [opsWrites, opWrites]
  simp only [change, opsWrites_append, hupdate, hmemory, hclocks, hquiet _ _ (.preChange _ _) rfl,
    hquiet _ _ (.postChange _ _) rfl, nil_append, append_nil, runFrom_nil,
    runFrom_append]

/-! ## The parts of a change -/

lemma visits_memoryWrites (board : Board) (iot : Banks) (r : Regs) (new : Config) :
    ∀ t ∈ visits Regs.write r (memoryWrites board iot r new),
      Regs.SameClocks t r ∧
        ∀ bank, t.bankcon bank = r.bankcon bank ∨
          t.bankcon bank = bankconSet iot r.bankcon bank := by
  simp only [memoryWrites, forall_visits_append, setrefresh, visits_cons, visits_nil, mem_cons,
    not_mem_nil, or_false, forall_eq_or_imp, forall_eq]
  refine ⟨⟨⟨⟨rfl, rfl, rfl⟩, by simp⟩, ⟨⟨rfl, rfl, rfl⟩, by simp⟩⟩, ?_⟩
  intro t ht
  obtain ⟨hclocks, hbanks⟩ := visits_iotimingSet iot _ t ht
  exact ⟨{ hclocks with }, hbanks⟩

lemma bankcon_memoryWrites (bank : Fin 8) :
    (runFrom Regs.write r (memoryWrites board iot r new)).bankcon bank =
      bankconSet iot r.bankcon bank := by
  rw [memoryWrites, runFrom_append, iotimingSet, bankcon_foldl_write, if_pos (mem_finRange bank)]
  rfl

structure Installed (xtal : Nat) (r : Regs) (cur new : Config) (r' : Regs) : Prop where
  fclk : r'.fclk xtal =
    if new.freq.fclk = cur.freq.fclk then r.fclk xtal
    else pllFclk xtal (BitVec.ofNat 32 new.pll.index)
  hdiv : r'.hdiv = new.divs.hDivisor
  pdiv : r'.pdiv = Regs.pdivOf new.divs
  bankcon : r'.bankcon = r.bankcon

lemma installed_clockWrites (hmem : new.divs.hDivisor ∈ hdivs) :
    Installed xtal r cur new (runFrom Regs.write r (clockWrites cur new r)) := by
  unfold clockWrites
  split_ifs with heq hlt
  · have h := setDivs_setdivs r hmem
    exact { h with fclk := by rw [if_pos heq, Regs.fclk, h.mpllcon, Regs.fclk] }
  · have h := setDivs_setdivs (runFrom Regs.write r (setFvco new)) hmem
    exact { h with fclk := by rw [if_neg heq, Regs.fclk]; rfl }
  · have h := setDivs_setdivs r hmem
    exact { h with fclk := by rw [if_neg heq]; rfl }

/-- The PLL follows the order of the recorded frequencies. -/
structure PllOrder (xtal : Nat) (r : Regs) (cur new : Config) : Prop where
  down : new.freq.fclk < cur.freq.fclk →
    pllFclk xtal (BitVec.ofNat 32 new.pll.index) ≤ r.fclk xtal
  up : cur.freq.fclk < new.freq.fclk →
    r.fclk xtal ≤ pllFclk xtal (BitVec.ofNat 32 new.pll.index)

lemma PllOrder.congr {r' : Regs} (h : PllOrder xtal r cur new)
    (hfclk : r'.fclk xtal = r.fclk xtal) : PllOrder xtal r' cur new :=
  ⟨fun hlt => hfclk ▸ h.down hlt, fun hlt => hfclk ▸ h.up hlt⟩

/-- While the clocks are changed they are slower than before or slower than afterwards. -/
lemma visits_clockWrites (hmem : new.divs.hDivisor ∈ hdivs) (horder : PllOrder xtal r cur new) :
    ∀ t ∈ visits Regs.write r (clockWrites cur new r),
      (Regs.Slower xtal t r ∨
        Regs.Slower xtal t (runFrom Regs.write r (clockWrites cur new r))) ∧
      t.bankcon = r.bankcon := by
  unfold clockWrites
  split_ifs with heq hlt
  · intro t ht
    exact ⟨visits_setdivs r hmem t ht, (visits_setdivs_frame r t ht).2⟩
  · -- the PLL first: with the old divisors everything gets slower
    have hslow : Regs.Slower xtal (runFrom Regs.write r (setFvco new)) r :=
      ⟨horder.down hlt, le_rfl, le_rfl⟩
    simp only [forall_visits_append]
    refine ⟨?_, fun t ht => ?_⟩
    · simp only [setFvco, visits_cons, visits_nil, mem_cons, not_mem_nil, or_false,
        forall_eq_or_imp, forall_eq]
      exact ⟨⟨.inl (.refl xtal r), trivial⟩, ⟨.inl hslow, rfl⟩⟩
    · obtain h | h := visits_setdivs _ hmem t ht
      · exact ⟨.inl (h.trans hslow), (visits_setdivs_frame _ t ht).2⟩
      · exact ⟨.inr h, (visits_setdivs_frame _ t ht).2⟩
  · -- the PLL last: up to there it is slower than it will be
    have hfast : Regs.Slower xtal (runFrom Regs.write r (setdivs r new))
        (runFrom Regs.write r (setdivs r new ++ setFvco new)) := by
      exact ⟨horder.up (by omega), le_rfl, le_rfl⟩
    simp only [forall_visits_append]
    refine ⟨fun t ht => ?_, ?_⟩
    · obtain h | h := visits_setdivs r hmem t ht
      · exact ⟨.inl h, (visits_setdivs_frame r t ht).2⟩
      · exact ⟨.inr (h.trans hfast), (visits_setdivs_frame r t ht).2⟩
    · simp only [setFvco, visits_cons, visits_nil, mem_cons, not_mem_nil, or_false,
        forall_eq_or_imp, forall_eq]
      refine ⟨⟨.inr hfast, rfl⟩, ⟨.inr ?_, rfl⟩⟩
      exact .refl xtal _

/-! ## The whole change -/

section Change

variable (board : Board) (iot : Banks) (r : Regs) (notify : Bool) (cur new : Config)

def slowed : Regs :=
  runFrom Regs.write r (if new.freq.hclk < cur.freq.hclk then memoryWrites board iot r new else [])

def reclocked : Regs :=
  let r' := slowed board iot r cur new
  runFrom Regs.write r' (clockWrites cur new r')

def afterChange : Regs := runFrom Regs.write r (opsWrites board iot r (change notify cur new))

lemma afterChange_eq :
    afterChange board iot r notify cur new =
      let r'' := reclocked board iot r cur new
      runFrom Regs.write r''
        (if new.freq.hclk > cur.freq.hclk then memoryWrites board iot r'' new else []) := by
  simp [afterChange, opsWrites_change, reclocked, slowed]

lemma forall_visits_change {P : Regs → Prop} :
    (∀ t ∈ visits Regs.write r (opsWrites board iot r (change notify cur new)), P t) ↔
      ((∀ t ∈ visits Regs.write r
          (if new.freq.hclk < cur.freq.hclk then memoryWrites board iot r new else []), P t) ∧
        ∀ t ∈ visits Regs.write (slowed board iot r cur new)
          (clockWrites cur new (slowed board iot r cur new)), P t) ∧
      ∀ t ∈ visits Regs.write (reclocked board iot r cur new)
        (if new.freq.hclk > cur.freq.hclk then
          memoryWrites board iot (reclocked board iot r cur new) new else []), P t := by
  simp only [opsWrites_change, forall_visits_append, runFrom_append, slowed, reclocked]

variable {board iot r cur new}

lemma slowed_sameClocks : Regs.SameClocks (slowed board iot r cur new) r := by
  unfold slowed
  split_ifs
  · exact (visits_memoryWrites board iot r new _ (last_mem_visits _ _ _)).1
  · exact ⟨rfl, rfl, rfl⟩

lemma afterChange_sameClocks :
    Regs.SameClocks (afterChange board iot r notify cur new) (reclocked board iot r cur new) := by
  rw [afterChange_eq]
  split_ifs
  · exact (visits_memoryWrites board iot _ new _ (last_mem_visits _ _ _)).1
  · exact ⟨rfl, rfl, rfl⟩

lemma slowed_bankcon (bank : Fin 8) :
    (slowed board iot r cur new).bankcon bank =
      if new.freq.hclk < cur.freq.hclk then bankconSet iot r.bankcon bank
      else r.bankcon bank := by
  unfold slowed
  split_ifs
  · exact bankcon_memoryWrites bank
  · rfl

variable (hmem : new.divs.hDivisor ∈ hdivs)

include hmem

lemma installed_reclocked (xtal : Nat) :
    Installed xtal (slowed board iot r cur new) cur new (reclocked board iot r cur new) :=
  installed_clockWrites hmem

lemma afterChange_bankcon (bank : Fin 8) :
    (afterChange board iot r notify cur new).bankcon bank =
      if new.freq.hclk = cur.freq.hclk then r.bankcon bank
      else bankconSet iot r.bankcon bank := by
  have hre : (reclocked board iot r cur new).bankcon = (slowed board iot r cur new).bankcon :=
    (installed_reclocked hmem 0).bankcon
  rw [afterChange_eq]
  dsimp only
  by_cases hup : new.freq.hclk > cur.freq.hclk
  · rw [if_pos hup, bankcon_memoryWrites, if_neg (by omega), hre]
    simp [bankconSet, slowed_bankcon, if_neg (lt_asymm hup)]
  · rw [if_neg hup, runFrom_nil, hre, slowed_bankcon]
    grind

lemma afterChange_fclk (xtal : Nat) :
    (afterChange board iot r notify cur new).fclk xtal =
      if new.freq.fclk = cur.freq.fclk then r.fclk xtal
      else pllFclk xtal (BitVec.ofNat 32 new.pll.index) := by
  rw [(afterChange_sameClocks notify).fclk, (installed_reclocked hmem xtal).fclk,
    slowed_sameClocks.fclk]

lemma afterChange_hdiv : (afterChange board iot r notify cur new).hdiv = new.divs.hDivisor := by
  rw [(afterChange_sameClocks notify).hdiv, (installed_reclocked hmem 0).hdiv]

/-- At every point of a change the clocks are at most as fast as before it or as after it, and
each bank has its timings of before or of after it. -/
lemma visits_change (horder : PllOrder xtal r cur new) :
    ∀ t ∈ visits Regs.write r (opsWrites board iot r (change notify cur new)),
      (Regs.Slower xtal t r ∨ Regs.Slower xtal t (afterChange board iot r notify cur new)) ∧
        ∀ bank, t.bankcon bank = r.bankcon bank ∨
          t.bankcon bank = (afterChange board iot r notify cur new).bankcon bank := by
  have hsame : Regs.SameClocks (slowed board iot r cur new) r := slowed_sameClocks
  have hsame' : Regs.SameClocks (afterChange board iot r notify cur new)
      (reclocked board iot r cur new) := afterChange_sameClocks notify
  have hre : (reclocked board iot r cur new).bankcon = (slowed board iot r cur new).bankcon :=
    (installed_reclocked hmem 0).bankcon
  have horder' := horder.congr hsame.fclk
  have hbanks : ∀ bank, (slowed board iot r cur new).bankcon bank = r.bankcon bank ∨
      (slowed board iot r cur new).bankcon bank =
        (afterChange board iot r notify cur new).bankcon bank := by
    intro bank
    rw [afterChange_bankcon notify hmem, slowed_bankcon]
    grind
  rw [forall_visits_change]
  refine ⟨⟨?_, fun t ht => ?_⟩, ?_⟩
  · split_ifs with hdown
    · intro t ht
      obtain ⟨hclocks, hbank⟩ := visits_memoryWrites board iot r new t ht
      refine ⟨.inl hclocks.slower, fun bank => ?_⟩
      rw [afterChange_bankcon notify hmem, if_neg (by omega)]
      exact hbank bank
    · simpa using Or.inl (Regs.Slower.refl xtal r)
  · obtain ⟨hslow | hslow, hbank⟩ := visits_clockWrites hmem horder' t ht
    · exact ⟨.inl (hslow.trans hsame.slower), fun bank => hbank ▸ hbanks bank⟩
    · exact ⟨.inr (hslow.trans hsame'.symm.slower), fun bank => hbank ▸ hbanks bank⟩
  · split_ifs with hup
    · intro t ht
      obtain ⟨hclocks, hbank⟩ := visits_memoryWrites board iot _ new t ht
      refine ⟨.inr (hclocks.slower.trans hsame'.symm.slower), fun bank => ?_⟩
      have hset := hbank bank
      simp only [bankconSet, hre, slowed_bankcon, if_neg (lt_asymm hup)] at hset
      rw [afterChange_bankcon notify hmem, if_neg (ne_of_gt hup)]
      exact hset
    · simp only [visits_nil, mem_singleton, forall_eq]
      exact ⟨.inr hsame'.symm.slower, fun bank => hre ▸ hbanks bank⟩

end Change

/-! ## Runs of the machine -/

/-- The recorded frequency of the PLL is the one of its register, up to rounding, and the
recorded bus clock is the one of the divisors. -/
structure Tracks (board : Board) (m : Machine) : Prop where
  fclk_le : m.regs.fclk board.xtal ≤ m.state.cur.freq.fclk
  le_fclk : m.state.cur.freq.fclk ≤ m.regs.fclk board.xtal + 1
  hclk : m.state.cur.freq.hclk = m.state.cur.freq.fclk / m.regs.hdiv
  pll : m.state.cur.pll.frequency = m.state.cur.freq.fclk

def Request.Near (board : Board) (req : Request) : Prop :=
  ∀ e, req.pll = some e → e.Near board.xtal

variable {m : Machine} {req : Request} {P : BitVec 32 → Nat → Prop} {bank : Fin 8} {bt : Bank}

lemma getRate_setup_fclk (board : Board) (r : Regs) :
    getRate (Machine.setupClocks board r) .fclk = r.fclk board.xtal := by
  by_cases h : r.fclk board.xtal = 0
  · have hmpll := rateUp_own (t := Machine.setupClocks board r) (c := .mpll) (n := 3) (.inr rfl)
    exact (rateUp_parent h rfl).trans hmpll
  · exact getRate_own (.inl h)

lemma tracks_boot (max : Freq) (lockPll : Bool) :
    Tracks board (Machine.boot board r iot max lockPll) := by
  have hfclk := getRate_setup_fclk board r
  have hhclk : getRate (Machine.setupClocks board r) .hclk = r.hclk board.xtal :=
    getRate_own (.inr rfl)
  refine ⟨hfclk.ge, hfclk.le.trans (Nat.le_succ _), ?_, rfl⟩
  simp [Machine.boot, Machine.getcur, hfclk, hhclk, Regs.hclk]

lemma Tracks.near (h : Tracks board m) (hnear : req.Near board)
    (hnew : newConfig s3c2440 m.state.cur req.target req.pll = some new)
    (hne : new.freq.fclk ≠ m.state.cur.freq.fclk) : new.pll.Near board.xtal := by
  have hplan := planned_newConfig hnew
  rw [hplan.fclk, hplan.pll] at hne
  cases hpll : req.pll with
  | none => exact absurd h.pll (by simpa [hpll] using hne)
  | some e => simpa [hplan.pll, hpll] using hnear e hpll

lemma Tracks.pllOrder (h : Tracks board m) (hnear : req.Near board)
    (hnew : newConfig s3c2440 m.state.cur req.target req.pll = some new) :
    PllOrder board.xtal m.regs m.state.cur new := by
  have hfclk := (planned_newConfig hnew).fclk
  constructor
  · intro hlt
    have hle := (h.near hnear hnew (ne_of_lt hlt)).1
    have hcur := h.le_fclk
    omega
  · intro hlt
    have hge := (h.near hnear hnew (ne_of_gt hlt)).2
    have hcur := h.fclk_le
    omega

lemma Tracks.step (h : Tracks board m) (hnear : req.Near board) :
    Tracks board (m.step board req) := by
  rw [Machine.step]
  obtain ⟨-, iot, hset⟩ | ⟨new, iot, hnew, -, -, hset⟩ := m.settarget_cases board req
  · rw [hset]
    exact { h with }
  · have hplan := planned_newConfig hnew
    have hhdiv : (afterChange board iot m.regs req.notify m.state.cur new).hdiv =
        new.divs.hDivisor := afterChange_hdiv req.notify hplan.hdiv
    rw [hset]
    obtain ⟨hle, hge⟩ : (afterChange board iot m.regs req.notify m.state.cur new).fclk board.xtal ≤
          new.freq.fclk ∧ new.freq.fclk ≤
        (afterChange board iot m.regs req.notify m.state.cur new).fclk board.xtal + 1 := by
      rw [afterChange_fclk req.notify hplan.hdiv board.xtal]
      split_ifs with heq
      · rw [heq]
        exact ⟨h.fclk_le, h.le_fclk⟩
      · rw [hplan.fclk]
        exact h.near hnear hnew heq
    exact ⟨hle, hge, hplan.hclk.trans (congrArg _ hhdiv.symm), hplan.fclk.symm⟩

def Machine.run (board : Board) (r : Regs) (iot : Banks) (limits : Freq) (lockPll : Bool)
    (reqs : List Request) : Machine :=
  runFrom (Machine.step board) (Machine.boot board r iot limits lockPll) reqs

lemma tracks_run (limits : Freq) (lockPll : Bool)
    {reqs : List Request} (hnear : ∀ q ∈ reqs, q.Near board) :
    Tracks board (Machine.run board r iot limits lockPll reqs) :=
  forall_visits (fun _ q hq h => h.step (hnear q hq)) (tracks_boot limits lockPll)
    _ (last_mem_visits _ _ _)

/-- The registers at the points of a call: before its first write, between any two of its writes
and after the last one. -/
def Machine.points (board : Board) (m : Machine) (req : Request) : List Regs :=
  visits Regs.write m.regs (m.writes board req)

lemma Tracks.points (h : Tracks board m) (hnear : req.Near board) :
    ∀ t ∈ m.points board req,
      (Regs.Slower board.xtal t m.regs ∨
        Regs.Slower board.xtal t (m.step board req).regs) ∧
      ∀ bank, t.bankcon bank = m.regs.bankcon bank ∨
        t.bankcon bank = (m.step board req).regs.bankcon bank := by
  rw [Machine.points, Machine.step]
  obtain ⟨hwrites, iot, hset⟩ | ⟨new, iot, hnew, -, hwrites, hset⟩ := m.settarget_cases board req
  · rw [hwrites, hset]
    simpa using Regs.Slower.refl board.xtal m.regs
  · rw [hwrites, hset]
    exact visits_change req.notify (planned_newConfig hnew).hdiv (h.pllOrder hnear hnew)

/-- In every run, no clock is ever faster than both before and after the call in progress. -/
theorem clocks_bounded (board : Board) (r : Regs) (iot : Banks) (limits : Freq) (lockPll : Bool)
    (reqs : List Request) (req : Request) (hnear : ∀ q ∈ reqs ++ [req], q.Near board) :
    let m := Machine.run board r iot limits lockPll reqs
    ∀ t ∈ m.points board req,
      t.hclk board.xtal ≤
          max (m.regs.hclk board.xtal) ((m.step board req).regs.hclk board.xtal) ∧
        t.pclk board.xtal ≤
          max (m.regs.pclk board.xtal) ((m.step board req).regs.pclk board.xtal) := by
  intro m t ht
  have htracks : Tracks board m := tracks_run limits lockPll fun q hq => hnear q (by simp [hq])
  obtain ⟨hslow | hslow, -⟩ := htracks.points (hnear req (by simp)) t ht
  · exact ⟨le_max_of_le_left hslow.hclk, le_max_of_le_left hslow.pclk⟩
  · exact ⟨le_max_of_le_right hslow.hclk, le_max_of_le_right hslow.pclk⟩

def board12 : Board := ⟨12000000, 7800⟩

/-- A processor at 400 MHz and a bus at 100 MHz, with six cycles for an access to bank 1. -/
def regs400 : Regs where
  mpllcon := 0x5c011
  clkdivn := 5
  camdivn := 0
  refresh := 0
  bankcon := fun bank => if bank = 1 then 0x400 else 0

def romBank (tacc : Nat) : Bank := ⟨0x400, 0, 0, tacc, 0, 0, false⟩

def romBanks (tacc : Nat) : Banks := fun bank => if bank = 1 then some (romBank tacc) else none

def limits400 : Freq := ⟨400000000, 0, 0, 133333333, 66666666⟩

/-- From 400 MHz to 200 MHz by the PLL. -/
def halfSpeed : Request := ⟨200000000, some ⟨pllval 0x5c 1 2, 200000000⟩, true⟩

theorem halfSpeed_clocks_bounded :
    let m := Machine.run board12 regs400 (romBanks 600) limits400 false []
    ∀ t ∈ m.points board12 halfSpeed,
      t.hclk 12000000 ≤ max (m.regs.hclk 12000000) ((m.step board12 halfSpeed).regs.hclk 12000000) ∧
        t.pclk 12000000 ≤
          max (m.regs.pclk 12000000) ((m.step board12 halfSpeed).regs.pclk 12000000) :=
  clocks_bounded board12 regs400 (romBanks 600) limits400 false [] halfSpeed
    (by simp only [nil_append, forall_mem_singleton]
        rintro e ⟨⟩
        decide +kernel)

/-! ## The timings of the banks -/

def TimingSafe (board : Board) (m : Machine) (req : Request) : Prop :=
  ∀ t ∈ m.points board req, ∀ bank bt, m.iot bank = some bt →
    bt.Meets (t.bankcon bank) (t.hclk board.xtal)

def hclkFor (board : Board) (m : Machine) (new : Config) : Nat :=
  (if new.freq.fclk = m.state.cur.freq.fclk then m.regs.fclk board.xtal
    else pllFclk board.xtal (BitVec.ofNat 32 new.pll.index)) / new.divs.hDivisor

/-- The timings of a bank for a new configuration, as `s3c2410_calc_bank` calculates them. They
are left alone if the bus clock does not change. -/
def bankconFor (m : Machine) (new : Config) (bank : Fin 8) (bt : Bank) : BitVec 32 :=
  if new.freq.hclk = m.state.cur.freq.hclk then m.regs.bankcon bank
  else
    (calcBank new.freq.hclkTns { bt with bankcon := m.regs.bankcon bank }).getD
      (m.regs.bankcon bank)

/-- At the faster of the two clocks both the old and the new timings of every bank are long
enough. -/
def TimingFits (board : Board) (m : Machine) (new : Config) : Prop :=
  let fastest := max (m.regs.hclk board.xtal) (hclkFor board m new)
  ∀ bank bt, m.iot bank = some bt →
    bt.Meets (m.regs.bankcon bank) fastest ∧ bt.Meets (bankconFor m new bank bt) fastest

lemma Tracks.hclk_bounds (h : Tracks board m) :
    m.regs.hclk board.xtal ≤ m.state.cur.freq.hclk ∧
      m.state.cur.freq.hclk ≤ m.regs.hclk board.xtal + 1 := by
  rw [h.hclk]
  refine ⟨Nat.div_le_div_right h.fclk_le, ?_⟩
  calc m.state.cur.freq.fclk / m.regs.hdiv
      ≤ (m.regs.fclk board.xtal + m.regs.hdiv) / m.regs.hdiv := by
        apply Nat.div_le_div_right
        have hfclk := h.le_fclk
        have hpos := m.regs.hdiv_pos
        omega
    _ = m.regs.fclk board.xtal / m.regs.hdiv + 1 := Nat.add_div_right _ m.regs.hdiv_pos

lemma bankconFor_eq (hmem : new.divs.hDivisor ∈ hdivs)
    (hnew : newConfig s3c2440 m.state.cur req.target req.pll = some new)
    (hio : m.calcio req = .ok iot) (hbt : m.iot bank = some bt) :
    bankconFor m new bank bt =
      (afterChange board iot m.regs req.notify m.state.cur new).bankcon bank := by
  rw [afterChange_bankcon req.notify hmem, bankconFor]
  split_ifs with heq
  · rfl
  · have hcalc : iotimingCalc m.regs new.freq.hclkTns m.iot = .ok iot := by
      simpa [Machine.calcio, hnew, heq] using hio
    have hbank := iotimingCalc_ok hcalc bank
    simp only [hbt] at hbank
    obtain ⟨v, hv, hiot⟩ := hbank
    simp [hv, bankconSet, hiot]

lemma hclkFor_eq (notify : Bool) (hmem : new.divs.hDivisor ∈ hdivs) :
    hclkFor board m new =
      (afterChange board iot m.regs notify m.state.cur new).hclk board.xtal := by
  rw [hclkFor, Regs.hclk, afterChange_fclk notify hmem board.xtal, afterChange_hdiv notify hmem]

/-- The states of a change in which a clock meets timings that were not made for it: the new
timings before a slower clock, and the old ones after a faster one. -/
lemma timing_of_visits (notify : Bool)
    (hmem : new.divs.hDivisor ∈ hdivs)
    (h : ∀ t ∈ visits Regs.write r (opsWrites board iot r (change notify cur new)),
      P (t.bankcon bank) (t.hclk xtal)) :
    let last := afterChange board iot r notify cur new
    P (r.bankcon bank) (r.hclk xtal) ∧ P (last.bankcon bank) (last.hclk xtal) ∧
      (new.freq.hclk < cur.freq.hclk → P (last.bankcon bank) (r.hclk xtal)) ∧
      (new.freq.hclk > cur.freq.hclk → P (r.bankcon bank) (last.hclk xtal)) := by
  have hfirst := h r (first_mem_visits)
  have hlast := h _ (last_mem_visits _ _ _)
  rw [forall_visits_change] at h
  obtain ⟨⟨-, hclocks⟩, -⟩ := h
  refine ⟨hfirst, hlast, fun hlt => ?_, fun hgt => ?_⟩
  · have hslowed := hclocks _ (first_mem_visits)
    rw [slowed_bankcon, if_pos hlt, slowed_sameClocks.hclk] at hslowed
    rw [afterChange_bankcon notify hmem, if_neg (ne_of_lt hlt)]
    exact hslowed
  · have hre := hclocks _ (last_mem_visits _ _ _)
    change P ((reclocked board iot r cur new).bankcon bank)
      ((reclocked board iot r cur new).hclk xtal) at hre
    rw [(installed_reclocked hmem 0).bankcon, slowed_bankcon, if_neg (lt_asymm hgt)] at hre
    rw [(afterChange_sameClocks notify).hclk]
    exact hre

section Success

variable (hnew : newConfig s3c2440 m.state.cur req.target req.pll = some new)
  (hok : (m.settarget board req).1 = 0)

include hnew hok

lemma settarget_ok : ∃ iot, m.calcio req = .ok iot ∧
      m.writes board req = opsWrites board iot m.regs (change req.notify m.state.cur new) ∧
      m.step board req = Machine.changed board m req new iot := by
  obtain ⟨-, iot, hset⟩ | ⟨new, iot, hnew', hio, hwrites, hset⟩ := m.settarget_cases board req
  · rw [hset] at hok
    cases hok
  · obtain rfl := Option.some.inj (hnew'.symm.trans hnew)
    exact ⟨iot, hio, hwrites, by rw [Machine.step, hset]⟩

lemma step_of_settarget_ok : (m.step board req).state.cur = new ∧
      (m.step board req).regs.hclk board.xtal = hclkFor board m new ∧
      ∀ bank bt, m.iot bank = some bt →
        (m.step board req).regs.bankcon bank = bankconFor m new bank bt := by
  have hmem := (planned_newConfig hnew).hdiv
  obtain ⟨iot, hio, -, hstep⟩ := settarget_ok hnew hok
  rw [hstep]
  exact ⟨rfl, (hclkFor_eq req.notify hmem).symm,
    fun bank bt hbt => (bankconFor_eq hmem hnew hio hbt).symm⟩

/-- What holds at every point of a call holds of the two configurations, and of the new timings
with the faster clock before or of the old ones with the faster clock after. -/
lemma timing_of_points (hbt : m.iot bank = some bt)
    (h : ∀ t ∈ m.points board req, P (t.bankcon bank) (t.hclk board.xtal)) :
    P (m.regs.bankcon bank) (m.regs.hclk board.xtal) ∧
      P (bankconFor m new bank bt) (hclkFor board m new) ∧
      (new.freq.hclk < m.state.cur.freq.hclk →
        P (bankconFor m new bank bt) (m.regs.hclk board.xtal)) ∧
      (new.freq.hclk > m.state.cur.freq.hclk →
        P (m.regs.bankcon bank) (hclkFor board m new)) := by
  have hmem := (planned_newConfig hnew).hdiv
  obtain ⟨iot, hio, hwrites, -⟩ := settarget_ok hnew hok
  rw [Machine.points, hwrites] at h
  rw [hclkFor_eq req.notify hmem, bankconFor_eq hmem hnew hio hbt]
  exact timing_of_visits req.notify hmem h

lemma Tracks.timingSafe_iff (h : Tracks board m) (hnear : req.Near board) :
    TimingSafe board m req ↔ TimingFits board m new := by
  obtain ⟨hcur, hclk, hbankcon⟩ := step_of_settarget_ok hnew hok
  have hbounds := h.hclk_bounds
  have hbounds' := (h.step hnear).hclk_bounds
  rw [hcur] at hbounds'
  constructor
  · intro hsafe bank bt hbt
    obtain ⟨hfirst, hlast, hdown, hup⟩ :=
      timing_of_points (P := fun v f => bt.Meets v f) hnew hok hbt
        fun t ht => hsafe t ht bank bt hbt
    rcases lt_trichotomy new.freq.hclk m.state.cur.freq.hclk with hlt | heq | hgt
    · rw [max_eq_left (by omega)]
      exact ⟨hfirst, hdown hlt⟩
    · -- the timings stay, and the clock is one of the two
      have hsame : bankconFor m new bank bt = m.regs.bankcon bank := if_pos heq
      rw [hsame] at hlast ⊢
      rcases max_choice (m.regs.hclk board.xtal) (hclkFor board m new) with hmax | hmax
      · rw [hmax]; exact ⟨hfirst, hfirst⟩
      · rw [hmax]; exact ⟨hlast, hlast⟩
    · rw [max_eq_right (by omega)]
      exact ⟨hup hgt, hlast⟩
  · intro hfits t ht bank bt hbt
    obtain ⟨hslow, hbank⟩ := h.points hnear t ht
    obtain ⟨hold, hnew⟩ := hfits bank bt hbt
    have hle : t.hclk board.xtal ≤ max (m.regs.hclk board.xtal) (hclkFor board m new) := by
      rw [← hclk]
      rcases hslow with hslow | hslow
      · exact le_max_of_le_left hslow.hclk
      · exact le_max_of_le_right hslow.hclk
    rcases hbank bank with heq | heq
    · rw [heq]
      exact hold.mono hle
    · rw [heq, hbankcon bank bt hbt]
      exact hnew.mono hle

end Success

/-- In every run, a call that succeeds keeps the times of the banks at every point exactly if
both timings of every bank are long enough at the faster clock. -/
theorem bankTiming_safe_iff (board : Board) (r : Regs) (iot : Banks) (limits : Freq)
    (lockPll : Bool) (reqs : List Request) (req : Request) (new : Config)
    (hnear : ∀ q ∈ reqs ++ [req], q.Near board)
    (hnew : newConfig s3c2440 (Machine.run board r iot limits lockPll reqs).state.cur req.target
      req.pll = some new)
    (hok : ((Machine.run board r iot limits lockPll reqs).settarget board req).1 = 0) :
    TimingSafe board (Machine.run board r iot limits lockPll reqs) req ↔
      TimingFits board (Machine.run board r iot limits lockPll reqs) new := by
  have hreqs : ∀ q ∈ reqs, q.Near board := fun q hq => hnear q (by simp [hq])
  exact (tracks_run limits lockPll hreqs).timingSafe_iff hnew hok (hnear req (by simp))

/-- From 400 MHz to 50 MHz by the divisors. -/
def slowBus : Request := ⟨50000000, none, true⟩

def slowBusConfig : Config where
  freq := ⟨400000000, 50000000, 200, 50000000, 50000000⟩
  max := limits400
  pll := ⟨0x5c011, 400000000⟩
  divs := ⟨8, 8, 0, true⟩
  lockPll := false

/-- One cycle is enough at both clocks for an access of 10 ns. -/
theorem slowBus_bankTiming_safe :
    TimingSafe board12 (Machine.run board12 regs400 (romBanks 100) limits400 false []) slowBus := by
  refine (bankTiming_safe_iff board12 regs400 (romBanks 100) limits400 false [] slowBus
    slowBusConfig ?_ (by decide +kernel) (by decide +kernel)).mpr ?_
  · simp [Request.Near, slowBus]
  · intro bank bt hbt
    obtain ⟨rfl, rfl⟩ : bank = 1 ∧ romBank 100 = bt := by
      simpa [Machine.run, Machine.boot, romBanks] using hbt
    constructor <;> constructor <;> unfold Lasts <;> decide +kernel

/-- An access of 60 ns gets three cycles for the clock of 50 MHz, and they are set while the bus
still runs at 100 MHz. -/
theorem slowBus_bankTiming_unsafe :
    let m := Machine.run board12 regs400 (romBanks 600) limits400 false []
    (m.settarget board12 slowBus).1 = 0 ∧ ¬ TimingSafe board12 m slowBus := by
  refine ⟨by decide +kernel, fun hsafe => ?_⟩
  have hmeets := hsafe _ (getElem_mem (by decide +kernel : 2 < _)) 1 (romBank 600) rfl
  exact absurd hmeets.tacc (by unfold Lasts; decide +kernel)

end Mini2440.Cpufreq
