import Mini2440.Timer.Ticks

/-!
# Timers are called on time

A group of timers that were put into the same list for the same tick, one after the other, stays
together until the tick comes; then its timers are called in this order, each of them once. The
group of one timer gives that every timer is called exactly once and in the right tick, the group
of two that the wheel keeps the order.
-/

namespace Mini2440.Timer

open List Library

variable {τ : Type} {s s' : State τ} {l : List τ} {x y : τ} {e : Word} {D : Nat}
  {b : Slot} {ev : Event τ} {base : List (τ × Nat)}

/-! ## The wheel in every run -/

structure Fresh (s : State τ) : Prop where
  lists : ∀ b, s.lists b = []
  pending : ∀ x, s.pending x = false
  clock : Clock s

lemma Fresh.tracked (h : Fresh s) : Tracked s := fun x _ b => by
  rw [h.lists]
  exact not_mem_nil

variable [DecidableEq τ]

lemma step_still (s : State τ) (hrun : ev ≠ .run) : Same [] s (step s ev) :=
  step_same (fun _ hx => absurd hx not_mem_nil) hrun

lemma beginTick_clock (hs : Clock s) : Clock s.beginTick := by
  have hmoved := s.cascaded_moved
  rw [Clock, State.beginTick_eq]
  rw [hmoved.timerJiffies, hmoved.now, BitVec.toNat_add, hs]
  simp

lemma step_clock (hs : Clock s) (ev : Event τ) : Clock (step s ev) := by
  by_cases hrun : ev = .run
  · subst hrun
    rw [step]
    split
    · rw [State.nextTick]
      split
      · exact beginTick_clock hs
      · exact hs
    · exact hs
  · have h := step_still s hrun
    rw [Clock, h.timerJiffies, h.now]
    exact hs

lemma among_singleton : s.among [x] b = [] ↔ x ∉ s.lists b := by
  simp only [State.among, filter_eq_nil_iff, mem_singleton, decide_eq_true_eq]
  exact ⟨fun h hx => h x hx rfl, fun h y hy hyx => h (hyx ▸ hy)⟩

lemma run_tracked (hs : Tracked s) : Tracked (step s .run) := by
  rw [step]
  split
  · rw [State.nextTick]
    split
    · intro x hx b hmem
      have hmoved := s.cascaded_moved
      rw [State.beginTick_eq] at hx hmem
      have hin : ∃ c, x ∈ s.cascaded.lists c := by
        simp only [Function.update_apply] at hmem
        split_ifs at hmem
        · exact absurd hmem not_mem_nil
        · exact ⟨_, hmem⟩
        · exact ⟨_, hmem⟩
      obtain ⟨c, hc⟩ := hin
      obtain ⟨c', hc'⟩ := hmoved.mem x c hc
      refine hs x ?_ c' hc'
      by_contra hp
      have := hmoved.pending x (by simpa using hp)
      simp_all
    · exact hs
  · next y _ _ =>
    intro x hx b hmem
    obtain ⟨hmem, hne⟩ := mem_filter.mp hmem
    have hne : x ≠ y := by simpa using hne
    exact hs x (by simpa [State.expire, State.detachTimer, hne] using hx) b hmem

lemma step_tracked (hs : Tracked s) (ev : Event τ) : Tracked (step s ev) := by
  by_cases hrun : ev = .run
  · subst hrun
    exact run_tracked hs
  · intro x hx b
    cases harm : armsWith s x ev with
    | some e => simp [(step_armed hs harm).pending] at hx
    | none =>
      cases hdel : deletes s x ev with
      | true => exact (step_deleted hdel).1 b
      | false =>
        have h : Same [x] s (step s ev) := step_same (by simp [Untouched, harm, hdel]) hrun
        rw [h.pending x (by simp)] at hx
        rw [← among_singleton, h.among, among_singleton]
        exact hs x hx b

lemma runFrom_sound (h : Fresh s) (evs : List (Event τ)) :
    Tracked (runFrom step s evs) ∧ Clock (runFrom step s evs) :=
  runFrom_invariant (P := fun s => Tracked s ∧ Clock s)
    (fun _ ev h => ⟨step_tracked h.1 ev, step_clock h.2 ev⟩) ⟨h.tracked, h.clock⟩ evs

/-! ## A group in every run -/

/-- The group still waits, or its tick has begun and some of its timers have been called. A group
that was put into `b` waits there until its block begins. -/
inductive Progress (l : List τ) (D : Nat) (b : Slot) (base : List (τ × Nat)) (s : State τ) : Prop
  | waiting (c : Slot) (wait : Waiting s l D c) (stay : s.now ≤ start D b → c = b)
    (calls : s.calls l = base)
  | called (done rest : List τ) (parts : l = done ++ rest) (holds : Holds s l .work rest)
    (past : D < s.now) (current : rest ≠ [] → s.tick = D ∧ s.now = D + 1)
    (calls : s.calls l = base ++ done.map (·, D))

lemma Progress.of_same (h : Progress l D b base s) (hsame : Same l s s') :
    Progress l D b base s' := by
  cases h with
  | waiting c wait stay calls =>
    refine .waiting c ⟨fun a => ?_, ?_, fun x hx => ?_⟩ ?_ (hsame.calls.trans calls)
    · rw [hsame.among, wait.holds]
    · rw [hsame.now]
      exact wait.fits
    · rw [hsame.expires x hx]
      exact wait.exact x hx
    · rwa [hsame.now]
  | called done rest parts holds past current calls =>
    refine .called done rest parts (fun a => ?_) ?_ ?_ (hsame.calls.trans calls)
    · rw [hsame.among, holds]
    · rwa [hsame.now]
    · rwa [hsame.now, hsame.tick]

lemma State.expire_same (hx : x ∉ l) : Same l s (s.expire x) where
  among c := filter_ne_of_notMem hx (s.lists c)
  expires _ _ := rfl
  pending _ hy := update_of_mem hx hy
  timerJiffies := rfl
  now := rfl
  tick := rfl
  calls := by simp [calls, expire, detachTimer, hx]

lemma Progress.expire {zs : List τ} (h : Progress l D b base s) (hl : l.Nodup)
    (hwork : s.lists .work = x :: zs) : Progress l D b base (s.expire x) := by
  by_cases hx : x ∈ l
  · cases h with
    | waiting c wait stay calls =>
      -- A waiting group is on no work list.
      have hnone := wait.holds .work
      have hc : Slot.work ≠ c := by
        rintro rfl
        exact wait.fits
      rw [if_neg hc, State.among, hwork] at hnone
      simp [hx] at hnone
    | called done rest parts holds past current calls =>
      have hrest : rest = x :: zs.filter (· ∈ l) := by
        have := holds .work
        rw [State.among, hwork, filter_cons_of_pos (by simpa using hx)] at this
        exact this.symm
      obtain ⟨htick, hnow⟩ := current (by simp [hrest])
      have hout : x ∉ zs.filter (· ∈ l) := by
        rw [parts, hrest] at hl
        exact (nodup_cons.mp (nodup_append.mp hl).2.1).1
      refine .called (done ++ [x]) (zs.filter (· ∈ l)) ?_ (fun a => ?_) past
        (fun _ => ⟨htick, hnow⟩) ?_
      · rw [append_assoc, singleton_append, ← hrest]
        exact parts
      · have ha : (s.expire x).among l a = (s.among l a).filter (· ≠ x) := by
          simp only [State.among, State.expire, State.detachTimer, filter_filter]
          exact filter_congr fun y _ => Bool.and_comm _ _
        rw [ha, holds]
        split
        · rw [hrest, filter_cons_of_neg (by simp)]
          exact filter_eq_self.mpr fun y hy =>
            decide_eq_true (ne_of_mem_of_not_mem hy hout)
        · rfl
      · have hlog : (s.expire x).calls l = s.calls l ++ [(x, s.tick)] := by
          simp [State.calls, State.expire, State.detachTimer, hx]
        rw [hlog, calls, htick]
        simp
  · exact h.of_same (State.expire_same hx)

lemma Moved.among_nil (h : Moved s s') (hs : ∀ c, s.among l c = []) (c : Slot) :
    s'.among l c = [] := by
  refine filter_eq_nil_iff.mpr fun x hx => ?_
  obtain ⟨a, ha⟩ := h.mem x c hx
  exact filter_eq_nil_iff.mp (hs a) x ha

lemma Progress.beginTick (hs : Clock s) (h : Progress l D b base s) (hl : l ≠ [])
    (hwork : s.lists .work = []) : Progress l D b base s.beginTick := by
  have hmoved := s.cascaded_moved
  have hcalls : s.beginTick.calls l = s.calls l := by
    rw [State.calls, State.beginTick_eq]
    rw [hmoved.log, State.calls]
  have hnow : s.beginTick.now = s.now + 1 := congrArg (· + 1) hmoved.now
  have htick : s.beginTick.tick = s.now := hmoved.now
  cases h with
  | waiting c wait stay calls =>
    rcases wait.beginTick hs hl with ⟨rfl, hhold⟩ | ⟨c', hwait, hstay⟩
    · exact .called [] l rfl hhold (by omega) (fun _ => ⟨htick, hnow⟩) (by simp [hcalls, calls])
    · refine .waiting c' hwait (fun hle => ?_) (hcalls.trans calls)
      rw [hnow] at hle
      obtain rfl := stay (by omega)
      exact hstay hle
  | called done rest parts holds past current calls =>
    have hrest : rest = [] := by
      have := holds .work
      rw [State.among, hwork] at this
      exact this.symm
    subst hrest
    refine .called done [] parts (fun a => ?_) (by omega) (fun h => absurd rfl h)
      (hcalls.trans calls)
    have hnone := hmoved.among_nil (l := l) fun c => by
      rw [holds, ite_self]
    rw [State.beginTick_among, hnone, hnone]
    simp

/-- One event keeps the promise, unless it arms or deletes a timer of the group. -/
lemma Progress.step (hs : Clock s) (h : Progress l D b base s) (hl : l ≠ []) (hnodup : l.Nodup)
    (hev : Untouched l s ev) : Progress l D b base (step s ev) := by
  by_cases hrun : ev = .run
  · subst hrun
    rw [Timer.step]
    split
    · next hwork =>
      rw [State.nextTick]
      split
      · exact h.beginTick hs hl hwork
      · exact h.of_same ⟨fun _ => rfl, fun _ _ => rfl, fun _ _ => rfl, rfl, rfl, rfl, rfl⟩
    · next hwork => exact h.expire hnodup hwork
  · exact h.of_same (step_same hev hrun)

lemma Progress.run {evs : List (Event τ)} (hs : Clock s) (h : Progress l D b base s)
    (hl : l ≠ []) (hnodup : l.Nodup) (hevs : Along Timer.step (Untouched l) s evs) :
    Progress l D b base (runFrom Timer.step s evs) :=
  (hevs.invariant (P := fun s => Clock s ∧ Progress l D b base s)
    (fun _ ev h hev => ⟨step_clock h.1 ev, h.2.step h.1 hl hnodup hev⟩) ⟨hs, h⟩).2

/-! ## Arming -/

lemma Armed.waiting (hs : Clock s) (h : Armed s s' x e) :
    Waiting s' [x] (dueTick s.now s.timerJiffies e) (slotOf s.timerJiffies e) := by
  obtain ⟨hfit, -, hexact⟩ := slotOf_fits hs e
  refine ⟨fun c => ?_, ?_, fun y hy => ?_⟩
  · rw [State.among, h.lists, filter_append]
    split <;> simp
  · rw [h.now]
    exact hfit
  · obtain rfl := mem_singleton.mp hy
    rw [h.expires]
    exact hexact

/-- A second timer for the same tick is put into the same list, behind the first one. -/
lemma Armed.waiting_pair (hs : Clock s) (h : Armed s s' y e) (hsame : Same [x] s s')
    (hxy : x ≠ y) (hD : dueTick s.now s.timerJiffies e = D) (hb : slotOf s.timerJiffies e = b)
    (hx : Waiting s [x] D b) : Waiting s' [x, y] D b := by
  obtain ⟨-, hfit, hexact⟩ := h.waiting hs
  subst hD hb
  refine ⟨fun c => ?_, hfit, fun z hz => ?_⟩
  · have hold : (s.lists c).filter (fun a => decide (a ∈ [x, y]) && decide (a ≠ y)) =
        s.among [x] c :=
      filter_congr fun a _ => by
        by_cases ha : a = x
        · simp [ha, hxy]
        · simp [ha]
    rw [State.among, h.lists, filter_append, filter_filter, hold, hx.holds]
    split <;> simp
  · rcases mem_pair.mp hz with rfl | rfl
    · rw [hsame.expires z (by simp)]
      exact hx.exact z (by simp)
    · exact hexact z (by simp)

/-! ## Rounds -/

/-- The rounds of `__run_timers` with nothing in between. -/
def rounds (s : State τ) (k : Nat) : State τ := runFrom step s (replicate k .run)

lemma rounds_add (j k : Nat) : rounds s (j + k) = rounds (rounds s j) k := by
  rw [rounds, replicate_add, runFrom_append, rounds, rounds]

/-- The timers of a tick are finitely many: none of them can add another one to the work list. -/
lemma rounds_drain (s : State τ) :
    ∃ k, (rounds s k).lists .work = [] ∧ (rounds s k).now = s.now ∧
      (rounds s k).jiffies = s.jiffies ∧ (rounds s k).timerJiffies = s.timerJiffies := by
  generalize hn : (s.lists .work).length = n
  induction n using Nat.strongRecOn generalizing s with
  | _ n ih =>
    cases hwork : s.lists .work with
    | nil => exact ⟨0, hwork, rfl, rfl, rfl⟩
    | cons x zs =>
      have hstep : rounds s 1 = s.expire x := by
        rw [rounds, replicate_one, runFrom_cons, runFrom_nil, step, hwork]
      have hlt : ((s.expire x).lists .work).length < n := by
        rw [hwork, length_cons] at hn
        have hlen : ((s.expire x).lists .work).length ≤ zs.length := by
          simp only [State.expire, State.detachTimer, hwork]
          rw [filter_cons_of_neg (by simp)]
          exact length_filter_le _ _
        omega
      obtain ⟨k, h⟩ := ih _ hlt (s.expire x) rfl
      refine ⟨1 + k, ?_⟩
      rw [rounds_add, hstep]
      exact h

/-- `__run_timers` gets to every tick up to `jiffies`, and to the end of it. -/
lemma rounds_reach (D : Nat) (s : State τ)
    (h : D < s.now ∨ D - s.now ≤ (s.jiffies - s.timerJiffies).toNat ∧
      (s.jiffies - s.timerJiffies).toNat < 2 ^ 31) :
    ∃ k, D < (rounds s k).now ∧ (rounds s k).lists .work = [] := by
  generalize hn : D + 1 - s.now = n
  induction n generalizing s with
  | zero =>
    obtain ⟨k, hwork, hnow, -⟩ := rounds_drain s
    exact ⟨k, by omega, hwork⟩
  | succ n ih =>
    obtain ⟨j, hwork, hnow, hjiff, htj⟩ := rounds_drain s
    have hlater : timeAfterEq (rounds s j).jiffies (rounds s j).timerJiffies := by
      rw [timeAfterEq, hjiff, htj, Bool.not_eq_true', ← Bool.not_eq_true, slt_zero_iff]
      omega
    have hstep : rounds (rounds s j) 1 = (rounds s j).beginTick := by
      rw [rounds, replicate_one, runFrom_cons, runFrom_nil, step, hwork]
      exact if_pos hlater
    have hmoved := (rounds s j).cascaded_moved
    have hnow' : (rounds s j).beginTick.now = s.now + 1 := by
      rw [← hnow]
      exact congrArg (· + 1) hmoved.now
    have hjiff' : (rounds s j).beginTick.jiffies = s.jiffies := hmoved.jiffies.trans hjiff
    have htj' : (rounds s j).beginTick.timerJiffies = s.timerJiffies + 1 := by
      rw [← htj]
      exact congrArg (· + 1) hmoved.timerJiffies
    obtain ⟨k, hk⟩ := ih (rounds s j).beginTick (by rw [hnow', hjiff', htj']; bv_omega) (by omega)
    exact ⟨j + 1 + k, by rwa [rounds_add, rounds_add, hstep]⟩

lemma rounds_untouched (s : State τ) (l : List τ) (k : Nat) :
    Along step (Untouched l) s (replicate k .run) := by
  induction k generalizing s with
  | zero => exact along_nil
  | succ k ih => exact ⟨fun _ _ => ⟨rfl, rfl⟩, ih _⟩

/-! ## Calls -/

lemma Progress.calls_before (h : Progress l D b base s) (hle : s.now ≤ D) : s.calls l = base := by
  cases h with
  | waiting c wait stay calls => exact calls
  | called done rest parts holds past current calls => omega

lemma Progress.calls_after (h : Progress l D b base s)
    (hpast : D + 1 < s.now ∨ D < s.now ∧ s.lists .work = []) :
    s.calls l = base ++ l.map (·, D) := by
  cases h with
  | waiting c wait stay calls =>
    have := wait.fits.le
    omega
  | called done rest parts holds past current calls =>
    have hrest : rest = [] := by
      by_contra hne
      obtain ⟨-, hnow⟩ := current hne
      have hwork : s.lists .work = [] := by
        rcases hpast with hlt | h
        · omega
        · exact h.2
      have hnone := holds .work
      rw [State.among, hwork] at hnone
      exact hne hnone.symm
    rw [calls, parts, hrest, append_nil]

lemma Progress.calls_prefix (h : Progress l D b base s) :
    ∃ done, done <+: l ∧ s.calls l = base ++ done.map (·, D) := by
  cases h with
  | waiting c wait stay calls => exact ⟨[], nil_prefix, by simpa using calls⟩
  | called done rest parts holds past current calls => exact ⟨done, ⟨rest, parts.symm⟩, calls⟩

lemma armsWith_untouched (h : armsWith s y ev = some e) (hxy : x ≠ y) : Untouched [x] s ev := by
  intro z hz
  cases ev <;> simp_all [armsWith, deletes] <;> grind

lemma step_waiting (hs : Tracked s ∧ Clock s) (harm : armsWith s x ev = some e) :
    Progress [x] (dueTick s.now s.timerJiffies e) (slotOf s.timerJiffies e) (s.calls [x])
      (step s ev) := by
  have harmed := step_armed hs.1 harm
  refine .waiting _ (harmed.waiting hs.2) (fun _ => rfl) ?_
  rw [State.calls, harmed.log, State.calls]

/-- A timer that is armed with `e` while `timer_jiffies` is `t`, and neither deleted nor armed
again, is called exactly once: in the tick `e`, or in the tick `t` if `e` has passed. There is no
call before that tick, there has been one at the end of the tick, and `__run_timers` gets there as
soon as `jiffies` does. Two timers that are put into the same list for the same tick are called in
the order in which they were armed. -/
theorem fires_on_time {s₀ : State τ} (h₀ : Fresh s₀) :
    (∀ before ev after x e,
      let s := runFrom step s₀ before
      let s' := runFrom step (step s ev) after
      let D := dueTick s.now s.timerJiffies e
      armsWith s x ev = some e → Along step (Untouched [x]) (step s ev) after →
        BitVec.ofNat 32 D = (if (e - s.timerJiffies).slt 0 then s.timerJiffies else e) ∧
        (s'.calls [x] = s.calls [x] ∨ s'.calls [x] = s.calls [x] ++ [(x, D)]) ∧
        (s'.now ≤ D → s'.calls [x] = s.calls [x]) ∧
        (D + 1 < s'.now ∨ D < s'.now ∧ s'.lists .work = [] →
          s'.calls [x] = s.calls [x] ++ [(x, D)]) ∧
        (D - s'.now ≤ (s'.jiffies - s'.timerJiffies).toNat →
          (s'.jiffies - s'.timerJiffies).toNat < 2 ^ 31 →
          ∃ k, (rounds s' k).calls [x] = s.calls [x] ++ [(x, D)])) ∧
    (∀ before ev between ev' after x y e e',
      let s := runFrom step s₀ before
      let s' := runFrom step (step s ev) between
      let s'' := runFrom step (step s' ev') after
      let D := dueTick s.now s.timerJiffies e
      armsWith s x ev = some e → Along step (Untouched [x]) (step s ev) between →
      armsWith s' y ev' = some e' → Along step (Untouched [x, y]) (step s' ev') after →
      x ≠ y → dueTick s'.now s'.timerJiffies e' = D →
      slotOf s'.timerJiffies e' = slotOf s.timerJiffies e →
        (∃ done, done <+: [x, y] ∧ s''.calls [x, y] = s'.calls [x, y] ++ done.map (·, D)) ∧
        (D + 1 < s''.now ∨ D < s''.now ∧ s''.lists .work = [] →
          s''.calls [x, y] = s'.calls [x, y] ++ [(x, D), (y, D)])) := by
  constructor
  · intro before ev after x e s s' D harm hafter
    have hs : Tracked s ∧ Clock s := runFrom_sound h₀ before
    have hprogress := (step_waiting hs harm).run (step_clock hs.2 ev) (by simp) (by simp) hafter
    refine ⟨ofNat_dueTick hs.2, ?_, hprogress.calls_before, hprogress.calls_after, ?_⟩
    · obtain ⟨done, hdone, hcalls⟩ := hprogress.calls_prefix
      rcases prefix_cons_iff.mp hdone with rfl | ⟨done', rfl, hnil⟩
      · exact .inl (by simpa using hcalls)
      · obtain rfl := prefix_nil.mp hnil
        exact .inr hcalls
    · intro hle hlt
      obtain ⟨k, hk⟩ := rounds_reach D s' (.inr ⟨hle, hlt⟩)
      have hs' : Clock s' := hafter.invariant (fun _ ev h _ => step_clock h ev) (step_clock hs.2 ev)
      exact ⟨k, (hprogress.run hs' (by simp) (by simp) (rounds_untouched s' [x] k)).calls_after
        (.inr hk)⟩
  · intro before ev between ev' after x y e e' s s' s'' D harm hbetween harm' hafter hxy hD hslot
    have hs : Tracked s ∧ Clock s := runFrom_sound h₀ before
    have hs' : Tracked s' ∧ Clock s' := hbetween.invariant (P := fun s => Tracked s ∧ Clock s)
      (fun _ ev h _ => ⟨step_tracked h.1 ev, step_clock h.2 ev⟩)
      ⟨step_tracked hs.1 ev, step_clock hs.2 ev⟩
    have harmed := step_armed hs'.1 harm'
    have hrun : ev' ≠ .run := by
      rintro rfl
      simp [armsWith] at harm'
    have hfit := (slotOf_fits hs'.2 e').1
    rw [hD, hslot] at hfit
    -- The first timer is still where it was put, because the second one is put there.
    have hx : Waiting s' [x] D (slotOf s.timerJiffies e) := by
      cases (step_waiting hs harm).run (step_clock hs.2 ev) (by simp) (by simp) hbetween with
      | waiting c wait stay calls =>
        rw [← stay hfit.start_le]
        exact wait
      | called done rest parts holds past current calls =>
        exact absurd past (Nat.not_lt.mpr hfit.le)
    have hpair := harmed.waiting_pair hs'.2 (step_same (armsWith_untouched harm' hxy) hrun) hxy hD
      hslot hx
    have hcalls : (step s' ev').calls [x, y] = s'.calls [x, y] := by
      rw [State.calls, harmed.log, State.calls]
    have hprogress := (Progress.waiting _ hpair (fun _ => rfl) hcalls).run
      (step_clock hs'.2 ev') (by simp) (by simpa using hxy) hafter
    exact ⟨hprogress.calls_prefix, hprogress.calls_after⟩

/-- An empty wheel, two ticks before the counter wraps around. -/
def nearWrap : State Bool where
  lists _ := []
  pending _ := false
  expires _ := 0
  slack _ := 0
  deferrable _ := false
  runningTimer := none
  timerJiffies := 0xfffffffe
  nextTimer := 0xfffffffe
  activeTimers := 0
  jiffies := 0xfffffffe
  now := 0xfffffffe
  tick := 0
  log := []

/-- Two timers for the tick 1, and the ticks up to it. -/
theorem nearWrap_fires :
    Fresh nearWrap ∧
    (runFrom step (step nearWrap (.add true 1)) (.pass 3 :: replicate 5 .run)).calls [true] =
      [(true, 2 ^ 32 + 1)] ∧
    (runFrom step (step (step nearWrap (.add true 1)) (.add false 1))
      (.pass 3 :: replicate 6 .run)).calls [true, false] =
      [(true, 2 ^ 32 + 1), (false, 2 ^ 32 + 1)] := by
  have hfresh : Fresh nearWrap := ⟨fun _ => rfl, fun _ => rfl, rfl⟩
  obtain ⟨hone, htwo⟩ := fires_on_time hfresh
  refine ⟨hfresh, ?_, ?_⟩
  · exact (hone [] (.add true 1) (.pass 3 :: replicate 5 .run) true 1 (by decide +kernel)
      (by decide +kernel)).2.2.2.1 (by decide +kernel)
  · exact (htwo [] (.add true 1) [] (.add false 1) (.pass 3 :: replicate 6 .run) true false 1 1
      (by decide +kernel) along_nil (by decide +kernel) (by decide +kernel) (by decide)
      (by decide +kernel) (by decide +kernel)).2 (by decide +kernel)

end Mini2440.Timer
