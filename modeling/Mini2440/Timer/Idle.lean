import Mini2440.Timer.Next

/-!
# The next event in every run

In every state between two ticks, each pending timer is in the list of the wheel for its tick, so
the search for the next event finds the earliest one. The exception is a timer that is armed with a
value nearly half of the range in the past: compared with a timer of a block that is about to be
cascaded, it seems to come later.
-/

namespace Mini2440.Timer

open Library

variable {τ : Type} {s s' : State τ} {x y : τ} {e : Word} {ev : Event τ} {b : Slot} {D : Nat}

/-! ## What is promised -/

/-- A value that has passed is raised to `timer_jiffies`. -/
def raised (t e : Word) : Word := if timeBefore e t then t else e

/-- The raised value, at most `NEXT_TIMER_MAX_DELTA` after `timer_jiffies`. -/
def capped (t e : Word) : Word :=
  if timeBefore (t + maxDelta) (raised t e) then t + maxDelta else raised t e

/-- The raised result is the earliest of the capped values of the pending timers that are not
deferrable. -/
def NextEvent (s : State τ) : Prop :=
  (∃ x, s.pending x = true ∧ s.deferrable x = false ∧
    raised s.timerJiffies s.nextTimerInterrupt = capped s.timerJiffies (s.expires x)) ∧
  ∀ y, s.pending y = true → s.deferrable y = false →
    timeBefore (capped s.timerJiffies (s.expires y))
      (raised s.timerJiffies s.nextTimerInterrupt) = false

lemma offset_timerJiffies : s.offset s.timerJiffies = 0 := by
  rw [State.offset, BitVec.sub_self]
  rfl

lemma offset_raised (s : State τ) (e : Word) :
    s.offset (raised s.timerJiffies e) = max (s.offset e) 0 := by
  rw [raised]
  split
  · next h =>
    rw [timeBefore_timerJiffies] at h
    rw [offset_timerJiffies]
    omega
  · next h =>
    rw [timeBefore_timerJiffies] at h
    omega

lemma offset_capped :
    s.offset (capped s.timerJiffies (s.expires x)) = s.rank x := by
  have hraised := offset_raised s (s.expires x)
  have hcap := offset_maxDelta s
  have hlt := offset_lt s (s.expires x)
  have hcmp : timeBefore (s.timerJiffies + maxDelta) (raised s.timerJiffies (s.expires x)) ↔
      s.offset (s.timerJiffies + maxDelta) < s.offset (raised s.timerJiffies (s.expires x)) :=
    timeBefore_iff (by omega) (by omega)
  rw [capped, State.rank]
  split
  · next h =>
    rw [hcmp] at h
    omega
  · next h =>
    rw [hcmp] at h
    omega

/-! ## Where the timers are -/

/-- The timer is on the work list, or it waits for its tick. -/
def Housed (s : State τ) (x : τ) [DecidableEq τ] : Prop :=
  Holds s [x] .work [x] ∨ ∃ b, Waiting s [x] (s.due x) b ∧
    (s.deferrable x = false → -reach ≤ s.offset (s.expires x))

variable [DecidableEq τ]

def Recent (s : State τ) (ev : Event τ) : Prop :=
  ∀ x, ∀ e ∈ armsWith s x ev, s.deferrable x = false → -reach ≤ s.offset e

instance [Fintype τ] (s : State τ) (ev : Event τ) : Decidable (Recent s ev) :=
  haveI (x : τ) : Decidable (∀ e ∈ armsWith s x ev, s.deferrable x = false → -reach ≤ s.offset e) :=
    Option.decidableForallMem _
  Fintype.decidableForallFintype

lemma Housed.of_same (h : Housed s x) (hsame : Same [x] s s')
    (hdef : s'.deferrable x = s.deferrable x) : Housed s' x := by
  have hx : x ∈ [x] := List.mem_singleton_self x
  rcases h with h | ⟨b, hwait, hrecent⟩
  · exact .inl fun c => by rw [hsame.among, h]
  · refine .inr ⟨b, ⟨fun c => by rw [hsame.among, hwait.holds], ?_, fun z hz => ?_⟩, ?_⟩
    · rw [State.due, hsame.now, hsame.timerJiffies, hsame.expires x hx]
      exact hwait.fits
    · rw [State.due, hsame.now, hsame.timerJiffies, hsame.expires x hx, hsame.expires z hz]
      exact hwait.exact z hz
    · rw [hdef, State.offset, hsame.timerJiffies, hsame.expires x hx]
      exact hrecent

lemma toInt_sub_one {a : Word} (h : 0 < a.toInt) : (a - 1).toInt = a.toInt - 1 := by
  have hone : BitVec.toInt (1 : Word) = 1 := rfl
  have hlt : a.toInt < 2 ^ 31 := BitVec.toInt_lt
  rw [BitVec.toInt_sub]
  refine Int.bmod_eq_of_le ?_ ?_
  · omega
  · omega

lemma Housed.beginTick (hs : Clock s) (h : Housed s x) (hwork : s.lists .work = []) :
    Housed s.beginTick x := by
  have hmoved := s.cascaded_moved
  rcases h with h | ⟨b, hwait, hrecent⟩
  · have := h .work
    rw [State.among, hwork] at this
    exact absurd this.symm (by simp)
  · rcases hwait.beginTick hs (by simp) with ⟨-, hhold⟩ | ⟨b', hwait', -⟩
    · exact .inl hhold
    · have hnow : s.beginTick.now = s.now + 1 := congrArg (· + 1) hmoved.now
      have hlater : s.now + 1 ≤ s.due x := hnow ▸ hwait'.fits.le
      have hexp : s.beginTick.expires x = s.expires x := congrFun hmoved.expires x
      have htj : s.beginTick.timerJiffies = s.timerJiffies + 1 :=
        congrArg (· + 1) hmoved.timerJiffies
      have h₁ := due_eq s x
      have h₂ := due_eq s.beginTick x
      -- The value is ahead, and now one tick less.
      have hoff : s.beginTick.offset (s.beginTick.expires x) = s.offset (s.expires x) - 1 := by
        rw [State.offset, hexp, htj, ← sub_sub]
        exact toInt_sub_one (by rw [← State.offset]; omega)
      have hdue : s.beginTick.due x = s.due x := by omega
      refine .inr ⟨b', hdue ▸ hwait', fun _ => ?_⟩
      rw [reach]
      omega

/-! ## Every event -/

lemma cascade_deferrable (n i : Nat) : (s.cascade n i).deferrable = s.deferrable := by
  rw [State.cascade_eq]

lemma cascadeFrom_deferrable (levels : List Nat) :
    (s.cascadeFrom levels).deferrable = s.deferrable := by
  induction levels generalizing s with
  | nil => rfl
  | cons n levels ih =>
    rw [State.cascadeFrom]
    split
    · rw [ih, cascade_deferrable]
    · rw [cascade_deferrable]

lemma detachIfPending_deferrable (clear : Bool) :
    (s.detachIfPending x clear).1.deferrable = s.deferrable := by
  rw [State.detachIfPending]
  split <;> rfl

lemma modTimerCore_deferrable (only : Bool) :
    (s.modTimerCore x e only).1.deferrable = s.deferrable := by
  rw [State.modTimerCore]
  split
  · exact detachIfPending_deferrable false
  · exact detachIfPending_deferrable false

lemma modTimer_deferrable :
    (s.modTimer x e).1.deferrable = s.deferrable := by
  rw [State.modTimer]
  split
  · rfl
  · exact modTimerCore_deferrable ..

lemma step_deferrable (s : State τ) (ev : Event τ) : (step s ev).deferrable = s.deferrable := by
  cases ev with
  | pass _ | setSlack _ _ => rfl
  | add x e =>
    rw [step, State.addTimer]
    split
    · rfl
    · exact modTimer_deferrable ..
  | addOn x e =>
    rw [step, State.addTimerOn]
    split <;> rfl
  | mod x e => exact modTimer_deferrable
  | modPending x e => exact modTimerCore_deferrable true
  | modPinned x e =>
    rw [step, State.modTimerPinned]
    split
    · rfl
    · exact modTimerCore_deferrable ..
  | del x =>
    rw [step, State.delTimer]
    split
    · exact detachIfPending_deferrable true
    · rfl
  | tryDel x =>
    rw [step, State.tryToDelTimerSync]
    split
    · rfl
    · exact detachIfPending_deferrable true
  | run =>
    rw [step]
    split
    · rw [State.nextTick]
      split
      · rw [State.beginTick_eq, State.cascaded]
        split
        · exact cascadeFrom_deferrable _
        · rfl
      · rfl
    · rfl

lemma cascadeFrom_pending (levels : List Nat) (hx : ∀ b, x ∉ s.lists b) :
    (s.cascadeFrom levels).pending x = s.pending x := by
  have hone : ∀ (s : State τ) (n i : Nat), (∀ b, x ∉ s.lists b) →
      (s.cascade n i).pending x = s.pending x := by
    intro s n i hx
    rw [State.cascade_eq]
    simp [hx]
  induction levels generalizing s with
  | nil => rfl
  | cons n levels ih =>
    rw [State.cascadeFrom]
    split
    · rw [ih fun b hb => ?_, hone s n _ hx]
      obtain ⟨c, hc⟩ := (State.cascade_moved s n _).mem x b hb
      exact hx c hc
    · exact hone s n _ hx

lemma beginTick_pending (hs : Tracked s) (hx : s.beginTick.pending x) : s.pending x := by
  by_contra hnot
  have hfalse : s.pending x = false := by simpa using hnot
  rw [State.beginTick_eq, State.cascaded] at hx
  split at hx
  · exact hnot ((cascadeFrom_pending _ (hs x hfalse)).symm.trans hx)
  · exact hnot hx

structure Ready (s : State τ) : Prop where
  tracked : Tracked s
  clock : Clock s
  housed : ∀ x, s.pending x = true → Housed s x

lemma Ready.run (h : Ready s) (hx : (step s .run).pending x) : Housed (step s .run) x := by
  rw [step] at hx ⊢
  split at hx
  · next hwork =>
    rw [State.nextTick] at hx ⊢
    split at hx
    · next htime =>
      rw [if_pos htime]
      exact (h.housed x (beginTick_pending h.tracked hx)).beginTick h.clock hwork
    · next htime =>
      rw [if_neg htime]
      exact (h.housed x hx).of_same
        ⟨fun _ => rfl, fun _ _ => rfl, fun _ _ => rfl, rfl, rfl, rfl, rfl⟩ rfl
  · next y _ hwork =>
    have hne : x ≠ y := by
      rintro rfl
      simp [State.expire, State.detachTimer] at hx
    have hsame : Same [x] s (s.expire y) := State.expire_same (by simpa using hne.symm)
    exact (h.housed x ((hsame.pending x (by simp)).symm.trans hx)).of_same hsame rfl

lemma Ready.step (h : Ready s) (hev : Recent s ev) : Ready (step s ev) := by
  refine ⟨step_tracked h.tracked ev, step_clock h.clock ev, fun x hx => ?_⟩
  by_cases hrun : ev = .run
  · subst hrun
    exact h.run hx
  have hdef := congrFun (step_deferrable s ev) x
  cases harm : armsWith s x ev with
  | some e =>
    have harmed := step_armed h.tracked harm
    have hdue : (Timer.step s ev).due x = dueTick s.now s.timerJiffies e := by
      rw [State.due, harmed.now, harmed.timerJiffies, harmed.expires]
    refine .inr ⟨slotOf s.timerJiffies e, hdue ▸ harmed.waiting h.clock, fun hfirm => ?_⟩
    rw [State.offset, harmed.timerJiffies, harmed.expires]
    exact hev x e harm (hdef ▸ hfirm)
  | none =>
    cases hdel : deletes s x ev with
    | true => exact absurd hx (by rw [(step_deleted hdel).2]; simp)
    | false =>
      have hsame : Same [x] s (Timer.step s ev) := step_same (by simp [Untouched, harm, hdel]) hrun
      exact (h.housed x ((hsame.pending x (by simp)).symm.trans hx)).of_same hsame hdef

lemma Ready.runFrom {evs : List (Event τ)} (h : Fresh s) (hevs : Along Timer.step Recent s evs) :
    Ready (Library.runFrom Timer.step s evs) :=
  hevs.invariant (fun _ _ h hev => h.step hev)
    ⟨h.tracked, h.clock, fun x hx => by rw [h.pending] at hx; cases hx⟩

/-! ## Between two ticks -/

lemma Holds.mem_iff {b c : Slot} (h : Holds s [x] b [x]) : x ∈ s.lists c ↔ c = b := by
  rw [← not_iff_not, ← among_singleton, h]
  split <;> simp_all

lemma Ready.waiting (h : Ready s) (hwork : s.lists .work = []) (hx : s.pending x) :
    ∃ b, Waiting s [x] (s.due x) b ∧ (s.deferrable x = false → -reach ≤ s.offset (s.expires x)) :=
  (h.housed x hx).resolve_left fun hhold => by
    have := hhold.mem_iff.mpr rfl
    rw [hwork] at this
    exact List.not_mem_nil this

lemma Ready.pending_of_mem (h : Ready s) (hx : x ∈ s.lists b) : s.pending x := by
  by_contra hnot
  exact h.tracked x (by simpa using hnot) b hx

lemma Ready.wheel (h : Ready s) (hwork : s.lists .work = []) : Wheel s where
  clock := h.clock
  fits b x hx _ := by
    obtain ⟨c, hwait, -⟩ := h.waiting hwork (h.pending_of_mem hx)
    rw [hwait.holds.mem_iff.mp hx]
    exact hwait.fits
  ahead n i x hx := by
    obtain ⟨c, hwait, -⟩ := h.waiting hwork (h.pending_of_mem hx)
    obtain rfl := hwait.holds.mem_iff.mp hx
    -- A timer of a bucket has the very tick that it is armed with.
    have hexact := hwait.exact x (by simp)
    by_contra hneg
    have hdue := due_eq s x
    have hnow : s.due x = s.now := by omega
    have heq : s.expires x = s.timerJiffies := BitVec.eq_of_toNat_eq (by
      rw [hexact, hnow]
      exact h.clock.symm)
    rw [heq, offset_timerJiffies] at hneg
    omega
  recent b x hx hfirm := by
    obtain ⟨c, -, hrecent⟩ := h.waiting hwork (h.pending_of_mem hx)
    exact hrecent hfirm

lemma Ready.firm_iff (h : Ready s) (hwork : s.lists .work = []) :
    Firm s x ↔ s.pending x ∧ s.deferrable x = false := by
  constructor
  · rintro ⟨hfirm, b, hb⟩
    exact ⟨h.pending_of_mem hb, hfirm⟩
  · rintro ⟨hx, hfirm⟩
    obtain ⟨b, hwait, -⟩ := h.waiting hwork hx
    exact ⟨hfirm, b, hwait.holds.mem_iff.mpr rfl⟩

/-- While no tick is being processed, `__next_timer_interrupt` finds the earliest of the pending
timers that are not deferrable, a value that has passed taken as the next tick, and one that is too
far taken as the limit. No such timer may have been armed nearly half of the range too late. -/
theorem next_event {s₀ : State τ} (h₀ : Fresh s₀) {evs : List (Event τ)}
    (hevs : Along step Recent s₀ evs) :
    let s := runFrom step s₀ evs
    s.lists .work = [] → (∃ x, s.pending x = true ∧ s.deferrable x = false) → NextEvent s := by
  intro s hwork hsome
  have hready : Ready s := Ready.runFrom h₀ hevs
  obtain ⟨hleast, x, hx, hrank⟩ := (hready.wheel hwork).nextTimerInterrupt_earliest
    (hsome.imp fun x hx => (hready.firm_iff hwork).mpr hx)
  obtain ⟨hpend, hfirm⟩ := (hready.firm_iff hwork).mp hx
  refine ⟨⟨x, hpend, hfirm, offset_injective (s := s) ?_⟩, fun y hy hfirm' => ?_⟩
  · rw [offset_raised, offset_capped, hrank]
  · have hle := hleast y ((hready.firm_iff hwork).mpr ⟨hy, hfirm'⟩)
    rw [← offset_capped] at hle
    have hraised := offset_raised s s.nextTimerInterrupt
    have h₁ := offset_lt s (capped s.timerJiffies (s.expires y))
    rw [← Bool.not_eq_true, timeBefore_iff (s := s) (by omega) (by omega)]
    omega

/-- An empty wheel, one tick before a block of 256 ticks begins. -/
def quietWheel : State Bool where
  lists _ := []
  pending _ := false
  expires _ := 0
  slack _ := 0
  deferrable _ := false
  runningTimer := none
  timerJiffies := 511
  nextTimer := 511
  activeTimers := 0
  jiffies := 511
  now := 511
  tick := 0
  log := []

lemma quietWheel_fresh : Fresh quietWheel := ⟨fun _ => rfl, fun _ => rfl, rfl⟩

/-- A timer of the block, and one that has passed a little while before. -/
theorem quietWheel_next :
    NextEvent (runFrom step quietWheel [.addOn true 767, .run, .addOn false 500]) :=
  next_event quietWheel_fresh (by decide +kernel) (by decide +kernel)
    ⟨true, by decide +kernel⟩

/-- The timer that has passed half of the range before is due at once, but the one of the block is
reported. -/
theorem quietWheel_missed :
    let s := runFrom step quietWheel [.addOn true 767, .run, .addOn false 0x80000200]
    Fresh quietWheel ∧ s.lists .work = [] ∧ s.timerJiffies = 512 ∧
      (∀ x, s.pending x = true ∧ s.deferrable x = false) ∧
      s.nextTimerInterrupt = 767 ∧ ¬ NextEvent s := by
  refine ⟨quietWheel_fresh, ?_, ?_, ?_, ?_, fun h => absurd (h.2 false ?_ ?_) ?_⟩
  all_goals decide +kernel

end Mini2440.Timer
