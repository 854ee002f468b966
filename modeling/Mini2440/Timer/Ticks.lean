import Mathlib.Algebra.Group.Nat.Defs
import Mini2440.Timer.Events

/-!
# Ticks and cascades

A bucket of the level `n` of the wheel stands for a block of `width n` ticks. `Fits` is the
invariant of the wheel: it relates the list that a timer is in to the tick that the timer is due
at and to the tick that comes next. A list of `tv1` may hold the timers of the next 256 ticks, a
bucket of the level `n` those of a block that begins in the next `64 * width n` ticks; so the
index of a bucket is never ambiguous. A bucket is cascaded in the tick that its block begins at.
-/

namespace Mini2440.Timer

open List BitVec Function Library

variable {τ : Type} {s s' : State τ} {l rest : List τ} {x y : τ} {e t : Word} {now D n i : Nat}
  {b : Slot}

/-! ## Due ticks -/

/-- The number of ticks that a bucket of the level stands for. -/
def width (n : Nat) : Nat := 2 ^ (8 + 6 * n)

lemma width_pos (n : Nat) : 0 < width n := Nat.two_pow_pos _

lemma width_succ : width (n + 1) = width n * 64 := by
  rw [width, width, show 8 + 6 * (n + 1) = 8 + 6 * n + 6 by omega, Nat.pow_add]

lemma width_dvd {m : Nat} (h : n ≤ m) : width n ∣ width m :=
  Nat.pow_dvd_pow 2 (by omega)

/-- The tick that a timer armed with `e` is due at, if `now` is the number of the tick `t`. -/
def dueTick (now : Nat) (t e : Word) : Nat :=
  if (e - t).slt 0 then now else now + (e - t).toNat

/-- The tick that a timer due at `D` leaves the list in. -/
def start (D : Nat) : Slot → Nat
  | .tv1 _ => D
  | .tvn n _ => D / width n * width n
  | .work => 0

/-- A timer due at the tick `D` belongs into the list while `now` is the next tick. -/
def Fits (now D : Nat) : Slot → Prop
  | .tv1 i => now ≤ D ∧ D < now + 256 ∧ i = D % 256
  | .tvn n i => n < 4 ∧ now ≤ D / width n * width n ∧ D / width n * width n < now + 64 * width n ∧
    i = D / width n % 64
  | .work => False

lemma Fits.start_le (h : Fits now D b) : now ≤ start D b := by
  cases b with
  | tv1 i => exact h.1
  | tvn n i => exact h.2.1
  | work => exact h.elim

lemma Fits.le (h : Fits now D b) : now ≤ D := by
  cases b with
  | tv1 i => exact h.1
  | tvn n i => exact Nat.le_trans h.2.1 (Nat.div_mul_le_self _ _)
  | work => exact h.elim

lemma Fits.succ (h : Fits now D b) (hlt : now < start D b) : Fits (now + 1) D b := by
  cases b with
  | tv1 i => exact ⟨hlt, by have := h.2.1; omega, h.2.2⟩
  | tvn n i => exact ⟨h.1, hlt, by have := h.2.2.1; omega, h.2.2.2⟩
  | work => exact h.elim

lemma slt_zero_iff (a : Word) : a.slt 0 ↔ 2 ^ 31 ≤ a.toNat := by
  rw [slt_iff_toInt_lt]
  have := a.isLt
  grind

lemma toNat_low (a : Word) : (a &&& 255).toNat = a.toNat % 256 := by
  exact Nat.and_two_pow_sub_one_eq_mod _ 8

lemma toNat_field (a : Word) (k : Nat) : (a >>> k &&& 63).toNat = a.toNat / 2 ^ k % 64 := by
  rw [toNat_and, toNat_ushiftRight, Nat.shiftRight_eq_div_pow]
  exact Nat.and_two_pow_sub_one_eq_mod _ 6

/-- The index of a bucket can be read off the word, which is the tick modulo `2 ^ 32`. -/
lemma mod_div_width (hn : n < 4) : D % 2 ^ 32 / width n % 64 = D / width n % 64 := by
  have hsplit : 2 ^ 32 = width n * (64 * 2 ^ (18 - 6 * n)) := by
    rw [width, ← Nat.pow_add 2 6, ← Nat.pow_add]
    congr 1
    omega
  rw [hsplit, Nat.mod_mul_right_div_self, Nat.mod_mul_right_mod]

lemma slotOf_cases (t e : Word) :
    ((e - t).toNat < 256 ∧ slotOf t e = .tv1 (e.toNat % 256)) ∨
    (∃ n < 4, width n ≤ (e - t).toNat ∧ (e - t).toNat < 64 * width n ∧ (e - t).toNat < 2 ^ 31 ∧
      slotOf t e = .tvn n (e.toNat / width n % 64)) ∨
    (2 ^ 31 ≤ (e - t).toNat ∧ slotOf t e = .tv1 (t.toNat % 256)) := by
  have hmax : ¬ e - t > maxTval := by
    rw [gt_iff_lt, lt_def, show maxTval.toNat = 4294967295 from rfl]
    omega
  unfold slotOf
  generalize e - t = idx at hmax ⊢
  dsimp only
  rw [if_neg hmax]
  simp only [toNat_field, toNat_low, slt_zero_iff, lt_def]
  have h₀ : (256 : Word).toNat = 256 := rfl
  have h₁ : ((1 : Word) <<< 14).toNat = 16384 := rfl
  have h₂ : ((1 : Word) <<< 20).toNat = 1048576 := rfl
  have h₃ : ((1 : Word) <<< 26).toNat = 67108864 := rfl
  split_ifs
  · exact .inl ⟨by assumption, rfl⟩
  · exact .inr (.inl ⟨0, by simp [width]; omega⟩)
  · exact .inr (.inl ⟨1, by simp [width]; omega⟩)
  · exact .inr (.inl ⟨2, by simp [width]; omega⟩)
  · exact .inr (.inr ⟨by assumption, rfl⟩)
  · exact .inr (.inl ⟨3, by simp [width]; omega⟩)

/-- A bucket that is not cascaded in the next tick. -/
def Settled (now D : Nat) : Slot → Prop
  | .tvn n _ => now < D / width n * width n
  | _ => True

def Exact (D : Nat) (e : Word) : Slot → Prop
  | .tvn _ _ => e.toNat = D % 2 ^ 32
  | _ => True

lemma toNat_eq_mod (ht : t.toNat = now % 2 ^ 32) (e : Word) :
    e.toNat = (now + (e - t).toNat) % 2 ^ 32 := by
  rw [toNat_sub]
  omega

lemma slotOf_fits (ht : t.toNat = now % 2 ^ 32) (e : Word) :
    Fits now (dueTick now t e) (slotOf t e) ∧ Settled now (dueTick now t e) (slotOf t e) ∧
      Exact (dueTick now t e) e (slotOf t e) := by
  have he := toNat_eq_mod ht e
  rw [dueTick]
  simp only [slt_zero_iff]
  rcases slotOf_cases t e with ⟨hlt, hslot⟩ | ⟨n, hn, hle, hlt, hpos, hslot⟩ | ⟨hle, hslot⟩
  · rw [hslot, if_neg (by omega)]
    exact ⟨⟨by omega, by omega, by omega⟩, trivial, trivial⟩
  · rw [hslot, if_neg (by omega)]
    have hdiv := Nat.div_add_mod' (now + (e - t).toNat) (width n)
    have hmod := Nat.mod_lt (now + (e - t).toNat) (width_pos n)
    refine ⟨⟨hn, by omega, by omega, ?_⟩, ?_, he⟩
    · rw [he, mod_div_width hn]
    · rw [Settled]
      omega
  · rw [hslot, if_pos hle]
    exact ⟨⟨by omega, by omega, by omega⟩, trivial, trivial⟩

/-- A timer that is taken out of a bucket is still due at the same tick. -/
lemma dueTick_eq (ht : t.toNat = now % 2 ^ 32) (he : e.toNat = D % 2 ^ 32) (hle : now ≤ D)
    (hlt : D < now + 2 ^ 31) : dueTick now t e = D := by
  have hmod := toNat_eq_mod ht e
  rw [dueTick]
  simp only [slt_zero_iff]
  rw [if_neg (by omega)]
  omega

/-- In the tick that a block begins at, its bucket is the only one that the index can mean. -/
lemma Fits.index_ne (h : Fits now D (.tvn n i)) (hs : Settled now D (.tvn n i))
    (hmod : now % width n = 0) : i ≠ now / width n % 64 := by
  obtain ⟨-, -, hlt, rfl⟩ := h
  rw [Settled] at hs
  have hnow : now = now / width n * width n := by
    have := Nat.div_add_mod' now (width n)
    omega
  generalize now / width n = p at *
  generalize D / width n = q at *
  subst hnow
  rw [← Nat.add_mul] at hlt
  have h₁ : p < q := Nat.lt_of_mul_lt_mul_right hs
  have h₂ : q < p + 64 := Nat.lt_of_mul_lt_mul_right hlt
  omega

lemma Fits.settled_or (h : Fits now D b) :
    Settled now D b ∨ ∃ n i, b = .tvn n i ∧ now = D / width n * width n := by
  cases b with
  | tvn n i =>
    rcases Nat.lt_or_eq_of_le h.2.1 with hlt | heq
    · exact .inl hlt
    · exact .inr ⟨n, i, rfl, heq⟩
  | _ => exact .inl trivial

/-! ## Cascades -/

/-- `timer_jiffies` is the number of the next tick, modulo the word. -/
def Clock (s : State τ) : Prop := s.timerJiffies.toNat = s.now % 2 ^ 32

structure Moved (s s' : State τ) : Prop where
  mem : ∀ x b, x ∈ s'.lists b → ∃ c, x ∈ s.lists c
  pending : ∀ x, s.pending x → s'.pending x
  expires : s'.expires = s.expires
  timerJiffies : s'.timerJiffies = s.timerJiffies
  now : s'.now = s.now
  tick : s'.tick = s.tick
  jiffies : s'.jiffies = s.jiffies
  log : s'.log = s.log

lemma Moved.refl (s : State τ) : Moved s s :=
  ⟨fun _ b h => ⟨b, h⟩, fun _ h => h, rfl, rfl, rfl, rfl, rfl, rfl⟩

lemma Moved.trans {s'' : State τ} (h : Moved s s') (h' : Moved s' s'') : Moved s s'' where
  mem x b hx := by
    obtain ⟨c, hc⟩ := h'.mem x b hx
    exact h.mem x c hc
  pending x hx := h'.pending x (h.pending x hx)
  expires := h'.expires.trans h.expires
  timerJiffies := h'.timerJiffies.trans h.timerJiffies
  now := h'.now.trans h.now
  tick := h'.tick.trans h.tick
  jiffies := h'.jiffies.trans h.jiffies
  log := h'.log.trans h.log

lemma Moved.clock (h : Moved s s') (hs : Clock s) : Clock s' := by
  rw [Clock, h.timerJiffies, h.now]
  exact hs

lemma low_eq (hs : Clock s) : (s.timerJiffies &&& 255).toNat = s.now % 256 := by
  rw [toNat_low, hs]
  omega

lemma ofNat_dueTick (hs : Clock s) :
    BitVec.ofNat 32 (dueTick s.now s.timerJiffies e) =
      if (e - s.timerJiffies).slt 0 then s.timerJiffies else e := by
  refine eq_of_toNat_eq ?_
  rw [dueTick]
  split
  · exact hs.symm
  · exact (toNat_eq_mod hs e).symm

lemma index_eq (hs : Clock s) (hn : n < 4) : s.index n = s.now / width n % 64 := by
  rw [State.index, toNat_field, hs, ← width, mod_div_width hn]

variable [DecidableEq τ]

namespace State

lemma foldl_addToList (zs : List τ) (s : State τ) :
    zs.foldl addToList s =
      { s with
        lists := fun c =>
          s.lists c ++ zs.filter fun y => slotOf s.timerJiffies (s.expires y) = c
        pending := fun y => s.pending y || decide (y ∈ zs) } := by
  induction zs generalizing s with
  | nil => simp
  | cons z zs ih =>
    rw [foldl_cons, ih]
    simp only [addToList]
    congr 1
    · funext c
      by_cases hc : slotOf s.timerJiffies (s.expires z) = c
      · subst hc
        simp
        rfl
      · simp [hc, update_of_ne (Ne.symm hc)]
        rfl
    · funext y
      by_cases hy : y = z
      · subst hy
        simp
      · simp [hy]

lemma cascade_eq (s : State τ) :
    s.cascade n i =
      { s with
        lists := fun c =>
          update s.lists (.tvn n i) [] c ++
            (s.lists (.tvn n i)).filter fun y => slotOf s.timerJiffies (s.expires y) = c
        pending := fun y => s.pending y || decide (y ∈ s.lists (.tvn n i)) } :=
  foldl_addToList _ _

lemma cascade_moved (s : State τ) (n i : Nat) : Moved s (s.cascade n i) := by
  rw [cascade_eq]
  refine ⟨fun x b hx => ?_, fun x hx => by simp [hx], rfl, rfl, rfl, rfl, rfl, rfl⟩
  rcases mem_append.mp hx with hx | hx
  · by_cases hb : b = .tvn n i
    · subst hb
      simp at hx
    · exact ⟨b, by simpa [update_of_ne hb] using hx⟩
  · exact ⟨_, mem_of_mem_filter hx⟩

lemma cascadeFrom_moved (s : State τ) (levels : List Nat) : Moved s (s.cascadeFrom levels) := by
  induction levels generalizing s with
  | nil => exact Moved.refl s
  | cons n levels ih =>
    rw [cascadeFrom]
    split
    · exact (cascade_moved s n _).trans (ih _)
    · exact cascade_moved s n _

lemma cascade_among (s : State τ) (c : Slot) :
    (s.cascade n i).among l c =
      (if c = .tvn n i then [] else s.among l c) ++
        (s.among l (.tvn n i)).filter fun y => slotOf s.timerJiffies (s.expires y) = c := by
  rw [cascade_eq]
  simp only [among, filter_append]
  congr 1
  · by_cases hc : c = .tvn n i
    · subst hc
      simp
    · simp [hc]
  · rw [filter_filter, filter_filter]
    exact filter_congr fun y _ => Bool.and_comm _ _

end State

/-- Of the group, the timers `rest` are in the list `b`, in this order, and no timer is in another
list. -/
def Holds (s : State τ) (l : List τ) (b : Slot) (rest : List τ) : Prop :=
  ∀ c, s.among l c = if c = b then rest else []

lemma Holds.cascade_of_ne (h : Holds s l b rest) (hb : b ≠ .tvn n i) :
    Holds (s.cascade n i) l b rest := by
  intro c
  rw [State.cascade_among, h, h, if_neg hb.symm]
  by_cases hc : c = .tvn n i
  · subst hc
    simp [hb.symm]
  · simp [hc]

lemma Holds.cascade_self {b' : Slot} (h : Holds s l (.tvn n i) l)
    (hslot : ∀ x ∈ l, slotOf s.timerJiffies (s.expires x) = b') : Holds (s.cascade n i) l b' l := by
  intro c
  have hfilter : l.filter (fun y => slotOf s.timerJiffies (s.expires y) = c) =
      if c = b' then l else [] := by
    split
    · next hc =>
      exact filter_eq_self.mpr fun y hy => decide_eq_true ((hslot y hy).trans hc.symm)
    · next hc =>
      exact filter_eq_nil_iff.mpr fun y hy => by
        simpa [hslot y hy] using Ne.symm hc
  rw [State.cascade_among, h, h, if_pos rfl, hfilter]
  split
  · rfl
  · simp

/-- The chain goes on to a level only in the first tick of a block of it. -/
lemma mod_width_succ (hmod : now % width n = 0) (hidx : now / width n % 64 = 0) :
    now % width (n + 1) = 0 := by
  rw [width_succ, Nat.mod_mul, hmod, hidx, Nat.mul_zero]

lemma Holds.cascadeFrom_stay (hs : Clock s) (h : Holds s l b rest) (hfit : Fits s.now D b)
    (hset : Settled s.now D b) (m : Nat) (hm : n + m ≤ 4) (hmod : s.now % width n = 0) :
    Holds (s.cascadeFrom (range' n m)) l b rest := by
  induction m generalizing n s with
  | zero => exact h
  | succ m ih =>
    have hidx := index_eq (n := n) hs (by omega)
    have hmoved := s.cascade_moved n (s.index n)
    have hnext : Holds (s.cascade n (s.index n)) l b rest := by
      refine h.cascade_of_ne fun hb => ?_
      subst hb
      exact hfit.index_ne hset hmod hidx
    rw [range'_succ, State.cascadeFrom]
    split
    · next hzero =>
      refine ih (hmoved.clock hs) hnext (hmoved.now ▸ hfit) (hmoved.now ▸ hset) (by omega) ?_
      rw [hmoved.now]
      exact mod_width_succ hmod (hidx ▸ hzero)
    · exact hnext

/-- A group whose block begins is moved to the lists below, where it is settled. -/
lemma Holds.cascadeFrom_move {n₀ i₀ : Nat} {b' : Slot} (hs : Clock s) (h : Holds s l (.tvn n₀ i₀) l)
    (hfit : Fits s.now D (.tvn n₀ i₀)) (hstart : s.now = D / width n₀ * width n₀)
    (hslot : ∀ x ∈ l, slotOf s.timerJiffies (s.expires x) = b') (hfit' : Fits s.now D b')
    (hset' : Settled s.now D b') (m : Nat) (hn : n ≤ n₀) (hm : n + m = 4) :
    Holds (s.cascadeFrom (range' n m)) l b' l := by
  induction m generalizing n s with
  | zero =>
    have := hfit.1
    omega
  | succ m ih =>
    have hidx := index_eq (n := n) hs (by omega)
    have hmoved := s.cascade_moved n (s.index n)
    have hdvd : width n₀ ∣ s.now := hstart ▸ Nat.dvd_mul_left _ _
    rw [range'_succ, State.cascadeFrom]
    rcases Nat.lt_or_eq_of_le hn with hlt | rfl
    · have hzero : s.index n = 0 := by
        obtain ⟨c, hc⟩ := Nat.dvd_trans (width_dvd (show n + 1 ≤ n₀ from hlt)) hdvd
        rw [hidx, hc, width_succ, Nat.mul_assoc, Nat.mul_div_cancel_left _ (width_pos n),
          Nat.mul_mod_right]
      rw [if_pos hzero]
      refine ih (hmoved.clock hs) (h.cascade_of_ne (by simp; omega)) ?_ ?_ ?_ ?_ ?_ hlt (by omega)
      · rwa [hmoved.now]
      · rwa [hmoved.now]
      · rwa [hmoved.timerJiffies, hmoved.expires]
      · rwa [hmoved.now]
      · rwa [hmoved.now]
    · have hself : s.index n = i₀ := by
        rw [hidx, hfit.2.2.2]
        nth_rewrite 1 [hstart]
        rw [Nat.mul_div_cancel _ (width_pos n)]
      have hnext := h.cascade_self hslot
      rw [← hself] at hnext
      split
      · next hzero =>
        refine hnext.cascadeFrom_stay (hmoved.clock hs) (D := D) ?_ ?_ m (by omega) ?_
        · rwa [hmoved.now]
        · rwa [hmoved.now]
        · rw [hmoved.now]
          exact mod_width_succ (Nat.mod_eq_zero_of_dvd hdvd) (hidx ▸ hzero)
      · exact hnext

/-! ## Ticks -/

def State.cascaded (s : State τ) : State τ :=
  if (s.timerJiffies &&& 255).toNat = 0 then s.cascadeFrom [0, 1, 2, 3] else s

lemma State.cascaded_moved (s : State τ) : Moved s s.cascaded := by
  unfold cascaded
  split
  · exact cascadeFrom_moved s _
  · exact Moved.refl s

/-- The group waits in the list `b` for the tick `D`. -/
structure Waiting (s : State τ) (l : List τ) (D : Nat) (b : Slot) : Prop where
  holds : Holds s l b l
  fits : Fits s.now D b
  exact : ∀ x ∈ l, Exact D (s.expires x) b

lemma Waiting.cascaded (hs : Clock s) (h : Waiting s l D b) (hl : l ≠ []) :
    ∃ b', Waiting s.cascaded l D b' ∧ Settled s.now D b' ∧ (s.now < start D b → b' = b) := by
  have hmoved := s.cascaded_moved
  have hlow := low_eq hs
  rcases h.fits.settled_or with hset | ⟨n, i, rfl, hstart⟩
  · refine ⟨b, ⟨?_, ?_, ?_⟩, hset, fun _ => rfl⟩
    · unfold State.cascaded
      split
      · next hzero =>
        exact h.holds.cascadeFrom_stay hs h.fits hset 4 (by decide) (hlow ▸ hzero : s.now % 256 = 0)
      · exact h.holds
    · rw [hmoved.now]
      exact h.fits
    · rw [hmoved.expires]
      exact h.exact
  · obtain ⟨x, hx⟩ := exists_mem_of_ne_nil l hl
    have hsame : ∀ y ∈ l, s.expires y = s.expires x := fun y hy =>
      eq_of_toNat_eq ((h.exact y hy).trans (h.exact x hx).symm)
    have hdue : dueTick s.now s.timerJiffies (s.expires x) = D := by
      have hdiv := Nat.div_add_mod' D (width n)
      have hmod := Nat.mod_lt D (width_pos n)
      have hwidth := Nat.le_of_dvd (width_pos 3) (width_dvd (show n ≤ 3 from
        Nat.le_of_lt_succ h.fits.1))
      rw [show width 3 = 67108864 from rfl] at hwidth
      exact dueTick_eq hs (h.exact x hx) h.fits.le (by omega)
    obtain ⟨hfit, hset, hexact⟩ := slotOf_fits hs (s.expires x)
    rw [hdue] at hfit hset hexact
    refine ⟨slotOf s.timerJiffies (s.expires x), ⟨?_, ?_, ?_⟩, hset, fun hlt => ?_⟩
    · have hzero : s.now % 256 = 0 :=
        Nat.mod_eq_zero_of_dvd (Nat.dvd_trans (width_dvd (Nat.zero_le n))
          (hstart ▸ Nat.dvd_mul_left _ _))
      rw [State.cascaded, if_pos (hlow.trans hzero)]
      exact h.holds.cascadeFrom_move hs h.fits hstart (fun y hy => by rw [hsame y hy]) hfit hset 4
        (Nat.zero_le n) rfl
    · rw [hmoved.now]
      exact hfit
    · intro y hy
      rw [hmoved.expires, hsame y hy]
      exact hexact
    · rw [start, ← hstart] at hlt
      bv_omega

lemma State.beginTick_eq (s : State τ) :
    s.beginTick =
      { s.cascaded with
        timerJiffies := s.cascaded.timerJiffies + 1
        lists := update
          (update s.cascaded.lists .work
            (s.cascaded.lists (.tv1 (s.timerJiffies &&& 255).toNat)))
          (.tv1 (s.timerJiffies &&& 255).toNat) []
        now := s.cascaded.now + 1
        tick := s.cascaded.now } := rfl

lemma State.beginTick_among (s : State τ) (c : Slot) :
    s.beginTick.among l c =
      if c = .tv1 (s.timerJiffies &&& 255).toNat then []
      else if c = .work then s.cascaded.among l (.tv1 (s.timerJiffies &&& 255).toNat)
      else s.cascaded.among l c := by
  rw [beginTick_eq]
  simp only [among, update_apply]
  split_ifs <;> rfl

/-- A group whose tick has come is on the work list; every other one goes on waiting, in the same
list unless its block has begun. -/
lemma Waiting.beginTick (hs : Clock s) (h : Waiting s l D b) (hl : l ≠ []) :
    (D = s.now ∧ Holds s.beginTick l .work l) ∨
      ∃ b', Waiting s.beginTick l D b' ∧ (s.now < start D b → b' = b) := by
  obtain ⟨b', ⟨hhold, hfit, hexact⟩, hset, hstay⟩ := h.cascaded hs hl
  have hmoved := s.cascaded_moved
  have hlow := low_eq hs
  rw [hmoved.now] at hfit
  by_cases hdue : b' = .tv1 (s.now % 256)
  · subst hdue
    obtain ⟨hle, hlt, hmod⟩ := hfit
    have hD : D = s.now := by omega
    refine .inl ⟨hD, fun c => ?_⟩
    rw [State.beginTick_among, hhold, hhold]
    grind
  · have hwork : b' ≠ .work := by
      rintro rfl
      exact hfit
    have hstart : s.now < start D b' := by
      cases b' with
      | tv1 i =>
        refine Nat.lt_of_le_of_ne hfit.1 fun heq => hdue ?_
        rw [hfit.2.2, show s.now = D from heq]
      | tvn n i => exact hset
      | work => exact hfit.elim
    refine .inr ⟨b', ⟨fun c => ?_, ?_, hexact⟩, hstay⟩
    · rw [State.beginTick_among, hhold, hhold]
      grind
    · rw [State.beginTick_eq]
      rw [hmoved.now]
      exact hfit.succ hstart

end Mini2440.Timer
