import Mathlib.Order.Basic

/-!
# The clock of the card

`s3cmci_set_clk` looks for the first prescaler that brings the clock down to the requested one.
It records the rate of each prescaler that it tries, and does not try the last one.
-/

namespace Mini2440.Mmc

/-- The fields of `struct s3cmci_host` for the clock; `real_rate` is passed along. -/
structure Source where
  clkRate : Nat
  clkDiv : Nat

def Source.realRate (s : Source) (psc : Nat) : Nat := s.clkRate / (s.clkDiv * (psc + 1))

/-- `n` rounds of the loop from `psc` on: `mci_psc` and `real_rate`. -/
def setClkLoop (s : Source) (clock : Nat) : Nat → Nat → Nat → Nat × Nat
  | 0, psc, real => (psc, real)
  | n + 1, psc, _ =>
    let real := s.realRate psc
    if real ≤ clock then (psc, real) else setClkLoop s clock n (psc + 1) real

/-- `s3cmci_set_clk`: the prescaler that is programmed and the rate that is recorded. -/
def setClk (s : Source) (clock real : Nat) : Nat × Nat :=
  let (psc, real) := setClkLoop s clock 255 0 real
  let psc := if psc > 255 then 255 else psc
  (psc, if clock = 0 then 0 else real)

/-- The first prescaler that brings the clock down to the requested one, or the last one. -/
structure Prescales (s : Source) (clock psc : Nat) : Prop where
  le : psc ≤ 255
  before : ∀ p < psc, clock < s.realRate p
  reached : s.realRate psc ≤ clock ∨ psc = 255

/-- The loop has passed the prescalers before `psc`, and ends at one that is enough or behind the
last one. -/
lemma setClkLoop_spec {s : Source} {clock psc real psc' real' : Nat} (n : Nat)
    (hbefore : ∀ p < psc, clock < s.realRate p) (hreal : 0 < psc → real = s.realRate (psc - 1))
    (hloop : setClkLoop s clock n psc real = (psc', real')) :
    (∀ p < psc', clock < s.realRate p) ∧
      (psc' < psc + n ∧ s.realRate psc' ≤ clock ∧ real' = s.realRate psc' ∨
        psc' = psc + n ∧ (0 < psc' → real' = s.realRate (psc' - 1))) := by
  induction n generalizing psc real with
  | zero =>
    cases hloop
    exact ⟨hbefore, .inr ⟨rfl, hreal⟩⟩
  | succ n ih =>
    rw [setClkLoop] at hloop
    split_ifs at hloop with hle
    · cases hloop
      exact ⟨hbefore, .inl ⟨by omega, hle, rfl⟩⟩
    · rw [← Nat.add_assoc, Nat.add_right_comm]
      refine ih (fun p hp => ?_) (fun _ => rfl) hloop
      rcases Nat.lt_succ_iff_lt_or_eq.mp hp with hp | rfl
      · exact hbefore p hp
      · exact Nat.lt_of_not_le hle

/-- The right prescaler is programmed, and the rate is recorded for it if and only if a prescaler
before the last one is enough, or the last two give the same rate. -/
theorem setClk_iff (s : Source) (clock real : Nat) (hclock : 0 < clock) :
    Prescales s clock (setClk s clock real).1 ∧
        (setClk s clock real).2 = s.realRate (setClk s clock real).1 ↔
      (∃ p < 255, s.realRate p ≤ clock) ∨ s.realRate 254 = s.realRate 255 := by
  rcases hres : setClkLoop s clock 255 0 real with ⟨psc, rate⟩
  simp only [setClk, hres, if_neg (Nat.ne_of_gt hclock)]
  obtain ⟨hbefore, ⟨hlt, hle, rfl⟩ | ⟨rfl, hrate⟩⟩ := setClkLoop_spec 255 (by simp) (by simp) hres
  · rw [if_neg (by omega)]
    exact iff_of_true ⟨⟨by omega, hbefore, .inl hle⟩, rfl⟩ (.inl ⟨psc, by omega, hle⟩)
  · have hnone : ¬ ∃ p < 255, s.realRate p ≤ clock := by
      rintro ⟨p, hp, hle⟩
      exact Nat.not_lt.mpr hle (hbefore p hp)
    rw [if_neg (by omega), or_iff_right hnone, hrate (by omega)]
    exact and_iff_right ⟨Nat.le_refl _, hbefore, .inr rfl⟩

/-- 400 kHz for the identification of a card, from a clock of 50 MHz. -/
theorem setClk_identification :
    Prescales ⟨50000000, 2⟩ 400000 (setClk ⟨50000000, 2⟩ 400000 0).1 ∧
      (setClk ⟨50000000, 2⟩ 400000 0).2 =
        Source.realRate ⟨50000000, 2⟩ (setClk ⟨50000000, 2⟩ 400000 0).1 :=
  (setClk_iff _ _ _ (by decide)).mpr (.inl ⟨62, by decide, by decide⟩)

/-- For 150 kHz from 100 MHz the last prescaler is programmed, with the rate of the one before. -/
theorem setClk_slow : setClk ⟨100000000, 2⟩ 150000 0 = (255, 196078) ∧
    Source.realRate ⟨100000000, 2⟩ 255 = 195312 := by
  decide +kernel

end Mini2440.Mmc
