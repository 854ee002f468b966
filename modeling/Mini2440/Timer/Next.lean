import Mathlib.Data.BitVec
import Mini2440.Timer.Fire

/-!
# The next timer event

`__next_timer_interrupt` of `kernel/timer.c` looks for the first timer that is not deferrable. It
goes through `tv1` from the next tick on and, as long as it has found nothing, through the arrays
above; when it has found a timer, only the block of an array that begins first can hold an earlier
one. Ticks are compared as their distances from `timer_jiffies`, which is right only for ticks that
are less than half of the range apart: a timer that had passed long before it was armed can seem to
lie behind the others.
-/

namespace Mini2440.Timer

open List BitVec Library

variable {τ : Type}

/-- `NEXT_TIMER_MAX_DELTA`. -/
def maxDelta : Word := 0x3fffffff

namespace State

variable (s : State τ)

/-- The loop over `tv1`: the first list with a timer that is not deferrable, and the value of the
first such timer in it. -/
def searchTv1 (index : Nat) : Nat → Nat → Option (Nat × Word)
  | 0, _ => none
  | rounds + 1, slot =>
    match (s.lists (.tv1 slot)).find? fun x => !s.deferrable x with
    | some x => some (slot, s.expires x)
    | none =>
      let slot := (slot + 1) % 256
      if slot = index then none else searchTv1 index rounds slot

/-- The loop over the timers of a bucket: `found` and `expires`. -/
def scanBucket (found : Bool) (expires : Word) (zs : List τ) : Bool × Word :=
  zs.foldl (fun r x =>
    if s.deferrable x then r
    else (true, if timeBefore (s.expires x) r.2 then s.expires x else r.2)) (found, expires)

/-- The loop over the buckets of a level. The function returns with `error`, and goes on to the next
level with `ok`. -/
def searchTvn (n index : Nat) : Nat → Nat → Bool → Word → Except Word (Bool × Word)
  | 0, _, found, expires => .ok (found, expires)
  | rounds + 1, slot, found, expires =>
    let r := s.scanBucket found expires (s.lists (.tvn n slot))
    if r.1 then
      if index = 0 ∨ slot < index then .ok r else .error r.2
    else
      let slot := (slot + 1) % 64
      if slot = index then .ok r else searchTvn n index rounds slot r.1 r.2

def searchLevels : List Nat → Word → Bool → Word → Word
  | [], _, _, expires => expires
  | n :: levels, t, found, expires =>
    let index := (t &&& 63).toNat
    match s.searchTvn n index 64 index found expires with
    | .error r => r
    | .ok (found, expires) =>
      let t := if index ≠ 0 then t + (64 - BitVec.ofNat 32 index) else t
      searchLevels levels (t >>> 6) found expires

def nextTimerInterrupt : Word :=
  let t := s.timerJiffies
  let index := (t &&& 255).toNat
  let cascade (found : Bool) (expires : Word) : Word :=
    let t := if index ≠ 0 then t + (256 - BitVec.ofNat 32 index) else t
    s.searchLevels [0, 1, 2, 3] (t >>> 8) found expires
  match s.searchTv1 index 256 index with
  | some (slot, expires) =>
    if index = 0 ∨ slot < index then cascade true expires else expires
  | none => cascade false (t + maxDelta)

/-! ## Distances -/

/-- The distance of a value from `timer_jiffies`, as a signed number. -/
def offset (e : Word) : Int := (e - s.timerJiffies).toInt

def due (x : τ) : Nat := dueTick s.now s.timerJiffies (s.expires x)

/-- The ticks up to the timer, at most `maxDelta`. -/
def rank (x : τ) : Int := min (max (s.offset (s.expires x)) 0) (2 ^ 30 - 1)

end State

variable {s : State τ} {x y : τ} {e e' : Word} {n k q stop now m i : Nat}

lemma offset_lt (s : State τ) (e : Word) : s.offset e < 2 ^ 31 ∧ -2 ^ 31 ≤ s.offset e := by
  simp only [State.offset, toInt_eq_toNat_cond]
  split <;> omega

lemma due_eq (s : State τ) (x : τ) : (s.due x : Int) = s.now + max (s.offset (s.expires x)) 0 := by
  simp only [State.due, dueTick, slt_zero_iff, State.offset, toInt_eq_toNat_cond]
  split <;> split <;> omega

/-- A comparison of words is one of distances if these are less than half of the range apart. -/
lemma timeBefore_iff {a b : Word} (hlt : s.offset a - s.offset b < 2 ^ 31)
    (hge : -2 ^ 31 ≤ s.offset a - s.offset b) : timeBefore a b ↔ s.offset a < s.offset b := by
  have hint : (a - b).toInt = s.offset a - s.offset b := by
    rw [← sub_sub_sub_cancel_right a b s.timerJiffies, toInt_sub]
    simp only [State.offset] at hge hlt ⊢
    exact Int.bmod_eq_of_le (by omega) (by omega)
  have hzero : BitVec.toInt (0 : Word) = 0 := rfl
  rw [timeBefore, BitVec.slt_iff_toInt_lt]
  omega

lemma timeBefore_timerJiffies : timeBefore e s.timerJiffies ↔ s.offset e < 0 := by
  rw [timeBefore, slt_iff_toInt_lt]
  rfl

lemma offset_injective (h : s.offset e = s.offset e') : e = e' :=
  sub_left_injective (eq_of_toInt_eq h)

/-! ## Blocks -/

/-- The number of the first block of a level that begins at the tick or later. -/
def block (now n : Nat) : Nat := (now + width n - 1) / width n

lemma le_block_mul (now n : Nat) : now ≤ block now n * width n := by
  have hpos := width_pos n
  have hdiv := Nat.div_add_mod' (now + width n - 1) (width n)
  have hmod := Nat.mod_lt (now + width n - 1) hpos
  rw [block]
  omega

lemma block_mul_lt (now n : Nat) : block now n * width n < now + width n := by
  have hpos := width_pos n
  have hdiv := Nat.div_mul_le_self (now + width n - 1) (width n)
  rw [block]
  omega

lemma block_le (h : now ≤ q * width n) : block now n ≤ q := by
  have hpos := width_pos n
  rw [block, ← Nat.lt_succ_iff, Nat.div_lt_iff_lt_mul hpos, Nat.succ_mul]
  omega

lemma block_succ : block now (n + 1) = (block now n + 63) / 64 := by
  have hpos := width_pos n
  rw [block, block, width_succ, ← Nat.div_div_eq_div_mul, ← Nat.add_mul_div_right _ 63 hpos]
  congr 2
  omega

lemma block_succ_bounds (now n : Nat) :
    block now n ≤ block now (n + 1) * 64 ∧ block now (n + 1) * 64 < block now n + 64 := by
  rw [block_succ]
  omega

lemma mul_width_succ : q * width (n + 1) = q * 64 * width n := by
  rw [width_succ, mul_comm (width n), ← mul_assoc]

lemma block_mul_mono (h : n ≤ m) : block now n * width n ≤ block now m * width m := by
  induction h with
  | refl => exact le_rfl
  | @step m _ ih =>
    rw [mul_width_succ]
    exact ih.trans (Nat.mul_le_mul_right _ (block_succ_bounds now m).1)

/-- The block of a timer in a bucket is one of the next 64, and the bucket tells which one. -/
lemma Fits.block {D : Nat} (h : Fits now D (.tvn n i)) :
    Timer.block now n ≤ D / width n ∧ D / width n < Timer.block now n + 64 ∧
      i = D / width n % 64 ∧ D / width n * width n ≤ D ∧ D < (D / width n + 1) * width n := by
  obtain ⟨-, hle, hlt, hi⟩ := h
  have hpos := width_pos n
  have hmul : D / width n * width n < (Timer.block now n + 64) * width n := by
    have := le_block_mul now n
    rw [Nat.add_mul]
    omega
  refine ⟨block_le hle, Nat.lt_of_mul_lt_mul_right hmul, hi, Nat.div_mul_le_self _ _, ?_⟩
  have hdiv := Nat.div_add_mod' D (width n)
  have hmod := Nat.mod_lt D hpos
  rw [Nat.succ_mul]
  omega

/-! ## The wheel -/

/-- How far a timer may have passed when it is armed: half of the range less a block of the last
level. -/
def reach : Int := 0x7c000000

/-- The wheel while no tick is being processed. -/
structure Wheel (s : State τ) : Prop where
  clock : Clock s
  fits : ∀ b x, x ∈ s.lists b → s.deferrable x = false → Fits s.now (s.due x) b
  ahead : ∀ n i x, x ∈ s.lists (.tvn n i) → 0 ≤ s.offset (s.expires x)
  recent : ∀ b x, x ∈ s.lists b → s.deferrable x = false → -reach ≤ s.offset (s.expires x)

def Firm (s : State τ) (x : τ) : Prop := s.deferrable x = false ∧ ∃ b, x ∈ s.lists b

def Below (s : State τ) (n : Nat) (x : τ) : Prop :=
  s.deferrable x = false ∧ ((∃ i, x ∈ s.lists (.tv1 i)) ∨ ∃ m < n, ∃ i, x ∈ s.lists (.tvn m i))

lemma Below.firm (h : Below s n x) : Firm s x := by
  obtain ⟨hd, ⟨i, hi⟩ | ⟨m, -, i, hi⟩⟩ := h
  · exact ⟨hd, _, hi⟩
  · exact ⟨hd, _, hi⟩

lemma Below.succ (h : Below s n x) : Below s (n + 1) x := by
  obtain ⟨hd, h | ⟨m, hm, hi⟩⟩ := h
  · exact ⟨hd, .inl h⟩
  · exact ⟨hd, .inr ⟨m, by omega, hi⟩⟩

lemma Wheel.above (hw : Wheel s) (h : Firm s x) (hn : ¬ Below s n x) :
    ∃ m i, n ≤ m ∧ x ∈ s.lists (.tvn m i) ∧ Fits s.now (s.due x) (.tvn m i) := by
  obtain ⟨hd, b, hb⟩ := h
  have hfit := hw.fits b x hb hd
  cases b with
  | tv1 i => exact absurd ⟨hd, .inl ⟨i, hb⟩⟩ hn
  | work => exact hfit.elim
  | tvn m i =>
    refine ⟨m, i, ?_, hb, hfit⟩
    by_contra hlt
    exact hn ⟨hd, .inr ⟨m, by omega, i, hb⟩⟩

lemma Wheel.block_le_due (hw : Wheel s) (h : Firm s x) (hn : ¬ Below s n x) :
    block s.now n * width n ≤ s.due x := by
  obtain ⟨m, i, hm, -, hfit⟩ := hw.above h hn
  obtain ⟨hge, -, -, hmul, -⟩ := hfit.block
  calc block s.now n * width n
      ≤ block s.now m * width m := block_mul_mono hm
    _ ≤ s.due x / width m * width m := Nat.mul_le_mul_right _ hge
    _ ≤ s.due x := hmul

/-- The timers of a bucket are due in its block. -/
lemma Wheel.due_lt (hw : Wheel s) (hq : block s.now n ≤ q) (hq' : q < block s.now n + 64)
    (h : x ∈ s.lists (.tvn n (q % 64))) (hd : s.deferrable x = false) :
    s.due x < (q + 1) * width n := by
  obtain ⟨hge, hlt, hidx, -, hup⟩ := (hw.fits _ x h hd).block
  have heq : s.due x / width n = q := by omega
  rwa [heq] at hup

/-- The result of the search: no timer that counts comes earlier, and one of them comes then. -/
def Earliest (s : State τ) (e : Word) : Prop :=
  (∀ y, Firm s y → max (s.offset e) 0 ≤ s.rank y) ∧ ∃ x, Firm s x ∧ s.rank x = max (s.offset e) 0

/-- The best value so far, from a timer that is due before the tick `stop`. -/
structure Best (s : State τ) (n : Nat) (e : Word) (stop : Nat) : Prop where
  least : ∀ y, Below s n y → max (s.offset e) 0 ≤ s.rank y
  witness : ∃ x, Below s n x ∧ s.rank x = max (s.offset e) 0 ∧ s.due x < stop

lemma rank_le_of_due (h : s.due x ≤ s.due y) : s.rank x ≤ s.rank y := by
  have hx := due_eq s x
  have hy := due_eq s y
  simp only [State.rank]
  omega

lemma Best.offset_le (h : Best s n e stop) : s.offset e ≤ 2 ^ 30 - 1 := by
  obtain ⟨x, -, hx, -⟩ := h.witness
  simp only [State.rank] at hx
  omega

lemma Best.earliest (h : Best s n e stop)
    (hlater : ∀ y, Firm s y → ¬ Below s n y → stop ≤ s.due y) : Earliest s e := by
  obtain ⟨x, hx, hrank, hdue⟩ := h.witness
  refine ⟨fun y hy => ?_, x, hx.firm, hrank⟩
  by_cases hb : Below s n y
  · exact h.least y hb
  · rw [← hrank]
    exact rank_le_of_due (hdue.le.trans (hlater y hy hb))

/-! ## A bucket -/

lemma scanBucket_cons (s : State τ) (found : Bool) (zs : List τ) :
    s.scanBucket found e (x :: zs) =
      if s.deferrable x then s.scanBucket found e zs
      else s.scanBucket true (if timeBefore (s.expires x) e then s.expires x else e) zs := by
  simp only [State.scanBucket, foldl_cons]
  split <;> rfl

/-- The value becomes the earliest of the bucket and the one before. -/
lemma scanBucket_spec {zs : List τ} (found : Bool) (hahead : ∀ y ∈ zs, 0 ≤ s.offset (s.expires y))
    (hle : s.offset e ≤ 2 ^ 30 - 1)
    (hge : 0 ≤ s.offset e ∨
      -reach ≤ s.offset e ∧ ∀ y ∈ zs, s.deferrable y = false → s.offset (s.expires y) < 2 ^ 26) :
    ((s.scanBucket found e zs).1 ↔ found ∨ ∃ y ∈ zs, s.deferrable y = false) ∧
      s.offset (s.scanBucket found e zs).2 ≤ s.offset e ∧
      (∀ y ∈ zs, s.deferrable y = false →
        s.offset (s.scanBucket found e zs).2 ≤ s.offset (s.expires y)) ∧
      ((s.scanBucket found e zs).2 = e ∨
        ∃ y ∈ zs, s.deferrable y = false ∧ (s.scanBucket found e zs).2 = s.expires y) := by
  induction zs generalizing found e with
  | nil => simp [State.scanBucket]
  | cons x zs ih =>
    rw [forall_mem_cons] at hahead
    rw [scanBucket_cons]
    cases hx : s.deferrable x with
    | true =>
      have hge' : 0 ≤ s.offset e ∨ -reach ≤ s.offset e ∧
          ∀ y ∈ zs, s.deferrable y = false → s.offset (s.expires y) < 2 ^ 26 :=
        hge.imp_right fun h => ⟨h.1, fun y hy => h.2 y (mem_cons_of_mem _ hy)⟩
      obtain ⟨hfound, hmono, hall, hwit⟩ := ih found hahead.2 hle hge'
      simp only [mem_cons, exists_eq_or_imp, hx, Bool.true_eq_false, false_and, false_or,
        forall_eq_or_imp, false_implies, true_and]
      exact ⟨hfound, hmono, hall, hwit⟩
    | false =>
      have hxlt := offset_lt s (s.expires x)
      have hcmp : timeBefore (s.expires x) e ↔ s.offset (s.expires x) < s.offset e := by
        refine timeBefore_iff ?_ ?_
        · rcases hge with hge | ⟨hge, hnear⟩
          · omega
          · have := hnear x mem_cons_self hx
            simp only [reach] at hge
            omega
        · omega
      simp only [Bool.false_eq_true, if_false]
      set e₁ := if timeBefore (s.expires x) e then s.expires x else e with he₁
      have hmin : s.offset e₁ = min (s.offset (s.expires x)) (s.offset e) := by
        rw [he₁]
        split
        · next h => rw [min_eq_left (hcmp.mp h).le]
        · next h =>
          rw [hcmp] at h
          rw [min_eq_right (by omega)]
      have hge' : 0 ≤ s.offset e₁ ∨ -reach ≤ s.offset e₁ ∧
          ∀ y ∈ zs, s.deferrable y = false → s.offset (s.expires y) < 2 ^ 26 := by
        rcases hge with hge | hge
        · bv_omega
        · refine .inr ⟨?_, fun y hy => hge.2 y (mem_cons_of_mem _ hy)⟩
          simp only [reach] at *
          omega
      obtain ⟨hfound, hmono, hall, hwit⟩ :=
        ih true hahead.2 (by omega : s.offset e₁ ≤ 2 ^ 30 - 1) hge'
      refine ⟨by simp [hfound, hx], by omega, ?_, ?_⟩
      · simp only [mem_cons, forall_eq_or_imp]
        exact ⟨fun _ => by omega, hall⟩
      · rcases hwit with hwit | ⟨y, hy, hyd, hwit⟩
        · rw [hwit, he₁]
          split
          · exact .inr ⟨x, mem_cons_self, hx, rfl⟩
          · exact .inl rfl
        · exact .inr ⟨y, mem_cons_of_mem _ hy, hyd, hwit⟩

/-! ## A level -/

lemma Best.mono {stop' : Nat} (h : Best s n e stop) (hle : stop ≤ stop') : Best s n e stop' := by
  obtain ⟨x, hx, hrank, hdue⟩ := h.witness
  exact ⟨h.least, x, hx, hrank, hdue.trans_le hle⟩

section

variable (hw : Wheel s) {found : Bool} {t : Word}

include hw

/-- The best value below a level, the bucket of block `q` of the level taken into account, is the
best one below the next level if no timer of the level is due before that block. -/
lemma Wheel.best_bucket (hle : s.offset e ≤ 2 ^ 30 - 1)
    (hlow : ∀ y, Below s n y → max (s.offset e) 0 ≤ s.rank y)
    (hbucket : ∀ y ∈ s.lists (.tvn n (q % 64)), s.deferrable y = false →
      s.offset e ≤ s.offset (s.expires y))
    (hrest : ∀ i, ∀ y ∈ s.lists (.tvn n i), s.deferrable y = false → q ≤ s.due y / width n)
    (hwit : ∃ x, Below s (n + 1) x ∧ s.rank x = max (s.offset e) 0 ∧ s.due x < (q + 1) * width n) :
    Best s (n + 1) e ((q + 1) * width n) := by
  refine ⟨fun y hy => ?_, hwit⟩
  obtain ⟨x, -, hx, hdue⟩ := hwit
  by_cases hb : Below s n y
  · exact hlow y hb
  · obtain ⟨hd, ⟨i, hi⟩ | ⟨m, hm, i, hi⟩⟩ := hy
    · exact absurd ⟨hd, .inl ⟨i, hi⟩⟩ hb
    · obtain rfl : m = n := by
        by_contra hne
        exact hb ⟨hd, .inr ⟨m, by omega, i, hi⟩⟩
      obtain ⟨-, -, hidx, hmul, -⟩ := (hw.fits _ y hi hd).block
      rcases eq_or_lt_of_le (hrest i y hi hd) with heq | hlt
      · -- The timer is in the bucket.
        rw [hidx, ← heq] at hi
        have := hbucket y hi hd
        simp only [State.rank]
        omega
      · rw [← hx]
        refine rank_le_of_due (hdue.le.trans (le_trans ?_ hmul))
        exact Nat.mul_le_mul_right _ hlt

inductive Entry (s : State τ) (n : Nat) : Bool → Word → Prop
  | found (e : Word) (best : Best s n e ((block s.now n + 1) * width n))
    (late : 0 ≤ s.offset e ∨ -reach ≤ s.offset e ∧ s.now = block s.now n * width n) :
    Entry s n true e
  | missing (none : ∀ y, ¬ Below s n y) : Entry s n false (s.timerJiffies + maxDelta)

omit hw in
lemma offset_maxDelta (s : State τ) : s.offset (s.timerJiffies + maxDelta) = 2 ^ 30 - 1 := by
  rw [State.offset, add_comm, add_sub_cancel]
  rfl

lemma Wheel.due_ahead (h : x ∈ s.lists (.tvn n i)) :
    (s.due x : Int) = s.now + s.offset (s.expires x) := by
  have := due_eq s x
  have := hw.ahead n i x h
  omega

/-- With a timer found before, the first bucket of the level is looked at. -/
lemma Wheel.scan_found (hn : n < 4) (best : Best s n e ((block s.now n + 1) * width n))
    (late : 0 ≤ s.offset e ∨ -reach ≤ s.offset e ∧ s.now = block s.now n * width n) :
    ∃ e', s.scanBucket true e (s.lists (.tvn n (block s.now n % 64))) = (true, e') ∧
      Best s (n + 1) e' ((block s.now n + 1) * width n) ∧
      (0 ≤ s.offset e' ∨ -reach ≤ s.offset e' ∧ s.now = block s.now n * width n) := by
  set zs := s.lists (.tvn n (block s.now n % 64)) with hzs
  have hblock (y : τ) (hy : y ∈ zs) (hd : s.deferrable y = false) :=
    hw.due_lt le_rfl (by omega) hy hd
  have hle := best.offset_le
  have hwidth : width n ≤ 2 ^ 26 := Nat.pow_le_pow_right (by decide) (by omega)
  have hge : 0 ≤ s.offset e ∨ -reach ≤ s.offset e ∧
      ∀ y ∈ zs, s.deferrable y = false → s.offset (s.expires y) < 2 ^ 26 := by
    refine late.imp_right fun h => ⟨h.1, fun y hy hd => ?_⟩
    have hdue := hblock y hy hd
    have hoff := hw.due_ahead hy
    rw [Nat.add_mul] at hdue
    omega
  obtain ⟨hfound, hmono, hall, hwit⟩ := scanBucket_spec true (hw.ahead n _) hle hge
  set r := s.scanBucket true e zs with hr
  have hr1 : r.1 := hfound.mpr (.inl rfl)
  refine ⟨r.2, Prod.ext hr1 rfl, ?_, ?_⟩
  · refine hw.best_bucket (by omega) (fun y hy => ?_) hall (fun i y hy hd => ?_) ?_
    · have := best.least y hy
      omega
    · exact (hw.fits _ y hy hd).block.1
    · rcases hwit with hwit | ⟨y, hy, hd, hwit⟩
      · obtain ⟨x, hx, hrank, hdue⟩ := best.witness
        exact ⟨x, hx.succ, hwit ▸ hrank, hdue⟩
      · refine ⟨y, ⟨hd, .inr ⟨n, by omega, _, hy⟩⟩, ?_, hblock y hy hd⟩
        rw [hwit] at hmono ⊢
        simp only [State.rank]
        omega
  · rcases hwit with hwit | ⟨y, hy, -, hwit⟩
    · rw [hwit]
      exact late
    · rw [hwit]
      exact .inl (hw.ahead n _ y hy)

/-- With nothing found before, a bucket is looked at if all buckets before it are empty. -/
lemma Wheel.scan_missing (none : ∀ y, ¬ Below s n y)
    (hrest : ∀ i, ∀ y ∈ s.lists (.tvn n i), s.deferrable y = false → q ≤ s.due y / width n)
    (hq : block s.now n ≤ q) (hq' : q < block s.now n + 64) :
    (∃ e', s.scanBucket false (s.timerJiffies + maxDelta) (s.lists (.tvn n (q % 64))) = (true, e') ∧
        Best s (n + 1) e' ((q + 1) * width n) ∧ 0 ≤ s.offset e') ∨
      (s.scanBucket false (s.timerJiffies + maxDelta) (s.lists (.tvn n (q % 64))) =
          (false, s.timerJiffies + maxDelta) ∧
        ∀ i, ∀ y ∈ s.lists (.tvn n i), s.deferrable y = false → q + 1 ≤ s.due y / width n) := by
  set zs := s.lists (.tvn n (q % 64)) with hzs
  have hblock (y : τ) (hy : y ∈ zs) (hd : s.deferrable y = false) := hw.due_lt hq hq' hy hd
  have hcap := offset_maxDelta s
  obtain ⟨hfound, hmono, hall, hwit⟩ :=
    scanBucket_spec (e := s.timerJiffies + maxDelta) false (hw.ahead n _) (by omega)
      (.inl (by omega))
  set r := s.scanBucket false (s.timerJiffies + maxDelta) zs with hr
  by_cases hany : ∃ y ∈ zs, s.deferrable y = false
  · obtain ⟨y, hy, hd⟩ := hany
    have hr1 : r.1 := hfound.mpr (.inr ⟨y, hy, hd⟩)
    have hpos : 0 ≤ s.offset r.2 := by
      rcases hwit with hwit | ⟨z, hz, -, hwit⟩
      · rw [hwit]
        omega
      · rw [hwit]
        exact hw.ahead n _ z hz
    refine .inl ⟨r.2, Prod.ext hr1 rfl, ?_, hpos⟩
    refine hw.best_bucket (by omega) (fun y hy => absurd hy (none y)) hall hrest ?_
    rcases hwit with hwit | ⟨z, hz, hzd, hwit⟩
    · -- All timers of the bucket are behind the limit.
      refine ⟨y, ⟨hd, .inr ⟨n, by omega, _, hy⟩⟩, ?_, hblock y hy hd⟩
      have := hall y hy hd
      simp only [State.rank]
      rw [hwit] at this ⊢
      omega
    · refine ⟨z, ⟨hzd, .inr ⟨n, by omega, _, hz⟩⟩, ?_, hblock z hz hzd⟩
      rw [hwit] at hmono ⊢
      simp only [State.rank]
      omega
  · have hr1 : r.1 = false := by
      rw [Bool.eq_false_iff, ne_eq, hfound]
      simpa using hany
    have hr2 : r.2 = s.timerJiffies + maxDelta := by
      rcases hwit with hwit | ⟨z, hz, hzd, -⟩
      · exact hwit
      · exact absurd ⟨z, hz, hzd⟩ hany
    refine .inr ⟨Prod.ext hr1 hr2, fun i y hy hd => ?_⟩
    refine lt_of_le_of_ne (hrest i y hy hd) fun heq => hany ⟨y, ?_, hd⟩
    obtain ⟨-, -, hidx, -⟩ := (hw.fits _ y hy hd).block
    rw [hidx, ← heq] at hy
    exact hy

/-- The end of a level: the function returns, or goes on to the next level. -/
def LevelDone (s : State τ) (n : Nat) : Except Word (Bool × Word) → Prop
  | .error e => Earliest s e
  | .ok r => Entry s (n + 1) r.1 r.2

/-- A timer has been found in the block `q`: if the level above has a block that begins before the
end of this one, it is looked at. -/
lemma Wheel.level_done {index slot : Nat} (hindex : index = block s.now n % 64)
    (hslot : slot = q % 64) (hq : block s.now n ≤ q) (hq' : q < block s.now n + 64)
    (best : Best s (n + 1) e ((q + 1) * width n))
    (late : 0 ≤ s.offset e ∨ -reach ≤ s.offset e ∧ s.now = block s.now n * width n ∧
      q = block s.now n) :
    LevelDone s n (if index = 0 ∨ slot < index then .ok (true, e) else .error e) := by
  obtain ⟨hsucc, hsucc'⟩ := block_succ_bounds s.now n
  split
  · next hcascade =>
    refine .found e (best.mono ?_) (late.imp_right fun ⟨hge, hnow, heq⟩ => ⟨hge, ?_⟩)
    · rw [mul_width_succ]
      exact Nat.mul_le_mul_right _ (by omega)
    · rw [mul_width_succ, show block s.now (n + 1) * 64 = block s.now n by omega]
      exact hnow
  · next hreturn =>
    refine best.earliest fun y hy hb => le_trans ?_ (hw.block_le_due hy hb)
    rw [mul_width_succ]
    exact Nat.mul_le_mul_right _ (by omega)

lemma Wheel.searchTvn_missing (none : ∀ y, ¬ Below s n y) (rounds : Nat)
    (hrounds : k + rounds = 64) (hpos : 0 < rounds)
    (hrest : ∀ i, ∀ y ∈ s.lists (.tvn n i), s.deferrable y = false →
      block s.now n + k ≤ s.due y / width n) :
    LevelDone s n (s.searchTvn n (block s.now n % 64) rounds ((block s.now n + k) % 64) false
      (s.timerJiffies + maxDelta)) := by
  induction rounds generalizing k with
  | zero => omega
  | succ rounds ih =>
    rw [State.searchTvn]
    rcases hw.scan_missing none hrest (by omega) (by omega) with
      ⟨e', hscan, hbest, hge⟩ | ⟨hscan, hrest'⟩
    · simp only [hscan]
      exact hw.level_done rfl rfl (by omega) (by omega) hbest (.inl hge)
    · simp only [hscan, Bool.false_eq_true, if_false]
      have hslot : ((block s.now n + k) % 64 + 1) % 64 = (block s.now n + (k + 1)) % 64 := by omega
      rw [hslot]
      split
      · next hround =>
        refine .missing fun y hy => ?_
        obtain ⟨hd, h | ⟨m, hm, i, hi⟩⟩ := hy
        · exact none y ⟨hd, .inl h⟩
        · rcases Nat.lt_succ_iff_lt_or_eq.mp hm with hlt | rfl
          · exact none y ⟨hd, .inr ⟨m, hlt, i, hi⟩⟩
          · have := hrest' i y hi hd
            have := (hw.fits _ y hi hd).block.2.1
            omega
      · next hround => exact ih (by omega) (by omega) hrest'

lemma Wheel.searchTvn_spec (hn : n < 4) (h : Entry s n found e) :
    LevelDone s n (s.searchTvn n (block s.now n % 64) 64 (block s.now n % 64) found e) := by
  cases h with
  | found e best late =>
    obtain ⟨e', hscan, hbest, hlate⟩ := hw.scan_found hn best late
    rw [State.searchTvn]
    simp only [hscan]
    exact hw.level_done rfl rfl le_rfl (by omega) hbest (hlate.imp_right fun h => ⟨h.1, h.2, rfl⟩)
  | missing none =>
    exact hw.searchTvn_missing (k := 0) none 64 rfl (by decide) fun i y hy hd =>
      (hw.fits _ y hy hd).block.1

/-! ## All levels -/

omit hw in
/-- The variable `timer_jiffies` at a level is the first block of the level, up to the wrap-around
that the levels from here on do not notice. -/
lemma next_level {T : Nat} (ht : t.toNat ≤ 2 ^ 24) (hT : t.toNat + 64 ^ (m + 1) * k = T) :
    ((if (t &&& 63).toNat ≠ 0 then t + (64 - BitVec.ofNat 32 (t &&& 63).toNat) else t)
      >>> 6).toNat ≤ 2 ^ 24 ∧
    ((if (t &&& 63).toNat ≠ 0 then t + (64 - BitVec.ofNat 32 (t &&& 63).toNat) else t)
      >>> 6).toNat + 64 ^ m * k = (T + 63) / 64 ∧ (t &&& 63).toNat = T % 64 := by
  have hlow : (t &&& 63).toNat = t.toNat % 64 := by
    exact Nat.and_two_pow_sub_one_eq_mod _ 6
  have hup : ((if (t &&& 63).toNat ≠ 0 then t + (64 - BitVec.ofNat 32 (t &&& 63).toNat) else t)
      >>> 6).toNat = (t.toNat + 63) / 64 := by
    rw [toNat_ushiftRight, hlow]
    split
    · next hne =>
      have hsub : (64 - BitVec.ofNat 32 (t.toNat % 64)).toNat = 64 - t.toNat % 64 := by
        rw [BitVec.toNat_sub, BitVec.toNat_ofNat, show (64 : Word).toNat = 64 from rfl]
        omega
      rw [toNat_add]
      omega
    · omega
  have hmul : 64 ^ (m + 1) * k = 64 * (64 ^ m * k) := by
    rw [pow_succ, mul_comm (64 ^ m) 64, mul_assoc]
  omega

lemma Wheel.searchLevels_spec (hsome : ∃ x, Firm s x) (hm : n + m = 4)
    (ht : t.toNat ≤ 2 ^ 24) (hT : t.toNat + 64 ^ m * k = block s.now n)
    (h : Entry s n found e) : Earliest s (s.searchLevels (range' n m) t found e) := by
  induction m generalizing n t found e with
  | zero =>
    have hall (y : τ) (hy : Firm s y) : Below s n y := by
      by_contra hb
      obtain ⟨m, i, hge, -, hfit⟩ := hw.above hy hb
      have := hfit.1
      omega
    cases h with
    | found e best late => exact best.earliest fun y hy hb => absurd (hall y hy) hb
    | missing none =>
      obtain ⟨x, hx⟩ := hsome
      exact absurd (hall x hx) (none x)
  | succ m ih =>
    obtain ⟨hle, hnext, hlow⟩ := next_level ht hT
    rw [← block_succ] at hnext
    have hdone := hw.searchTvn_spec (by omega) h
    rw [range'_succ, State.searchLevels]
    simp only [hlow] at hle hnext ⊢
    cases hsearch : s.searchTvn n (block s.now n % 64) 64 (block s.now n % 64) found e with
    | error r =>
      rw [hsearch] at hdone
      exact hdone
    | ok r =>
      rw [hsearch] at hdone
      exact ih (by omega) hle hnext hdone

/-! ## The first array -/

/-- What the loop over `tv1` finds: nothing, or a timer that no other one of `tv1` comes before. -/
def FirstDone (s : State τ) : Option (Nat × Word) → Prop
  | none => ∀ y, ¬ Below s 0 y
  | some (slot, e) => ∃ x k, Below s 0 x ∧ e = s.expires x ∧ s.due x = s.now + k ∧ k < 256 ∧
    slot = (s.now + k) % 256 ∧ ∀ y, Below s 0 y → s.due x ≤ s.due y

omit hw in
lemma below_zero : Below s 0 y ↔ s.deferrable y = false ∧ ∃ i, y ∈ s.lists (.tv1 i) := by
  simp [Below]

lemma Wheel.searchTv1_spec (rounds : Nat) (hrounds : k + rounds = 256)
    (hpos : 0 < rounds) (hrest : ∀ y, Below s 0 y → s.now + k ≤ s.due y) :
    FirstDone s (s.searchTv1 (s.now % 256) rounds ((s.now + k) % 256)) := by
  induction rounds generalizing k with
  | zero => omega
  | succ rounds ih =>
    rw [State.searchTv1]
    cases hfind : (s.lists (.tv1 ((s.now + k) % 256))).find? fun x => !s.deferrable x with
    | some x =>
      have hd : s.deferrable x = false := by simpa using find?_some hfind
      have hmem := mem_of_find?_eq_some hfind
      obtain ⟨hle, hlt, hmod⟩ := hw.fits _ x hmem hd
      have hdue : s.due x = s.now + k := by omega
      exact ⟨x, k, below_zero.mpr ⟨hd, _, hmem⟩, rfl, hdue, by omega, rfl,
        fun y hy => hdue ▸ hrest y hy⟩
    | none =>
      have hempty := find?_eq_none.mp hfind
      -- The list stands for the tick `now + k`, so the other timers are due later.
      have hrest' (y : τ) (hy : Below s 0 y) : s.now + (k + 1) ≤ s.due y := by
        have hge := hrest y hy
        obtain ⟨hd, i, hi⟩ := below_zero.mp hy
        obtain ⟨-, -, hmod⟩ := hw.fits _ y hi hd
        by_contra hlt
        have hik : i = (s.now + k) % 256 := by
          omega
        exact hempty y (hik ▸ hi) (by simp [hd])
      have hslot : ((s.now + k) % 256 + 1) % 256 = (s.now + (k + 1)) % 256 := by omega
      simp only [hslot]
      split
      · next hround =>
        intro y hy
        have := hrest' y hy
        obtain ⟨hd, i, hi⟩ := below_zero.mp hy
        obtain ⟨-, hlt, -⟩ := hw.fits _ y hi hd
        omega
      · next hround => exact ih (by omega) (by omega) hrest'

end

lemma width_zero : width 0 = 256 := rfl

lemma first_level (hs : Clock s) :
    ∃ k, ((if (s.timerJiffies &&& 255).toNat ≠ 0 then
        s.timerJiffies + (256 - BitVec.ofNat 32 (s.timerJiffies &&& 255).toNat)
      else s.timerJiffies) >>> 8).toNat ≤ 2 ^ 24 ∧
      ((if (s.timerJiffies &&& 255).toNat ≠ 0 then
        s.timerJiffies + (256 - BitVec.ofNat 32 (s.timerJiffies &&& 255).toNat)
      else s.timerJiffies) >>> 8).toNat + 64 ^ 4 * k = block s.now 0 := by
  have hclock : s.timerJiffies.toNat = s.now % 2 ^ 32 := hs
  have hlow : (s.timerJiffies &&& 255).toNat = s.timerJiffies.toNat % 256 := toNat_low _
  rw [toNat_ushiftRight, hlow, block, width_zero]
  split
  · next hne =>
    have hsub : (256 - BitVec.ofNat 32 (s.timerJiffies.toNat % 256)).toNat =
        256 - s.timerJiffies.toNat % 256 := by bv_omega
    rw [toNat_add]
    refine ⟨(s.now + 255) / 256 / 16777216, ?_, ?_⟩
    · omega
    · omega
  · exact ⟨s.now / 2 ^ 32, by omega, by omega⟩

/-- On a wheel with a timer that counts, the result is the earliest tick. -/
lemma Wheel.nextTimerInterrupt_earliest (hw : Wheel s) (hsome : ∃ x, Firm s x) :
    Earliest s s.nextTimerInterrupt := by
  obtain ⟨k, hle, hT⟩ := first_level hw.clock
  have hlow := low_eq hw.clock
  have hlevels {found : Bool} {e : Word} (h : Entry s 0 found e) :=
    hw.searchLevels_spec hsome rfl hle hT h
  have hfirst := hw.searchTv1_spec (k := 0) 256 rfl (by decide) fun y hy => by
    obtain ⟨hd, i, hi⟩ := below_zero.mp hy
    exact (hw.fits _ y hi hd).1
  rw [State.nextTimerInterrupt]
  simp only [hlow, add_zero] at hlevels hfirst ⊢
  have hbl := le_block_mul s.now 0
  have hbu := block_mul_lt s.now 0
  rw [width_zero] at hbl hbu
  cases hsearch : s.searchTv1 (s.now % 256) 256 (s.now % 256) with
  | none =>
    rw [hsearch] at hfirst
    exact hlevels (.missing hfirst)
  | some r =>
    obtain ⟨slot, e⟩ := r
    rw [hsearch] at hfirst
    obtain ⟨x, k, hx, rfl, hdue, hk, hslot, hmin⟩ := hfirst
    have hdist := due_eq s x
    have hbest (stop : Nat) (hstop : s.now + k < stop) : Best s 0 (s.expires x) stop := by
      have hrank : s.rank x = max (s.offset (s.expires x)) 0 := by
        simp only [State.rank]
        omega
      exact ⟨fun y hy => hrank ▸ rank_le_of_due (hmin y hy), x, hx, hrank, by omega⟩
    simp only
    split
    · next hcascade =>
      refine hlevels (.found _ (hbest _ ?_) ?_)
      · rw [width_zero]
        omega
      · rcases Nat.eq_zero_or_pos k with rfl | hpos
        · refine .inr ⟨?_, ?_⟩
          · obtain ⟨hd, i, hi⟩ := below_zero.mp hx
            exact hw.recent _ x hi hd
          · rw [width_zero]
            omega
        · exact .inl (by omega)
    · next hreturn =>
      refine (hbest (s.now + k + 1) (by omega)).earliest fun y hy hb => ?_
      have hlater := hw.block_le_due hy hb
      rw [width_zero] at hlater
      omega

end Mini2440.Timer
