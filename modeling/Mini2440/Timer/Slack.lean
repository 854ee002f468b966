import Mathlib.Data.Nat.Bitwise
import Mini2440.Library.Align
import Mini2440.Timer.Fire

/-!
# The slack of a timer

A timer may be late by its slack. `apply_slack` takes the tick of this interval that has the most
trailing zeros, so that it is shared with other timers; the interval may go over the end of the
counter.
-/

namespace Mini2440.Timer.State

open BitVec Library

/-- The position of the highest difference is the one from which on two numbers differ by their last
bit only. -/
lemma div_log2_xor {a c : Nat} (h : a ≠ c) :
    a / 2 ^ ((a ^^^ c).log2 + 1) = c / 2 ^ ((a ^^^ c).log2 + 1) ∧
      a / 2 ^ (a ^^^ c).log2 ≠ c / 2 ^ (a ^^^ c).log2 := by
  have hne : a ^^^ c ≠ 0 := fun hx => h (Nat.eq_of_xor_eq_zero hx)
  have hdiv (i : Nat) : a / 2 ^ i = c / 2 ^ i ↔ a ^^^ c < 2 ^ i := by
    rw [← Nat.xor_eq_zero_iff, ← Nat.shiftRight_eq_div_pow, ← Nat.shiftRight_eq_div_pow,
      ← Nat.shiftRight_xor_distrib, Nat.shiftRight_eq_div_pow, Nat.div_eq_zero_iff_lt]
    exact Nat.two_pow_pos i
  rw [ne_eq, hdiv, hdiv]
  exact ⟨Nat.lt_log2_self, Nat.not_lt.mpr (Nat.log2_self_le hne)⟩

/-- The blocks of `2 ^ lastBit` ticks: the limit is in the block after that of `expires`, also over
the end of the counter. -/
lemma div_lastBit {e d : Word} (hd : 0 < d.toNat) (hlt : d.toNat < 2 ^ 31) :
    lastBit (e ^^^ (e + d)) < 32 ∧
      (e.toNat + d.toNat) / 2 ^ lastBit (e ^^^ (e + d)) =
        e.toNat / 2 ^ lastBit (e ^^^ (e + d)) + 1 := by
  have he := e.isLt
  have hadd : (e + d).toNat = (e.toNat + d.toNat) % 2 ^ 32 := by bv_omega
  have hne : e.toNat ≠ (e + d).toNat := by omega
  obtain ⟨hhigh, hbit⟩ := div_log2_xor hne
  have hxor : e.toNat ^^^ (e + d).toNat ≠ 0 := fun hx => hne (Nat.eq_of_xor_eq_zero hx)
  have hb : (e.toNat ^^^ (e + d).toNat).log2 < 32 :=
    (Nat.log2_lt hxor).mpr (Nat.xor_lt_two_pow he (e + d).isLt)
  rw [lastBit, toNat_xor]
  generalize (e.toNat ^^^ (e + d).toNat).log2 = b at hhigh hbit hb ⊢
  refine ⟨hb, ?_⟩
  by_cases hwrap : e.toNat + d.toNat < 2 ^ 32
  · rw [hadd, Nat.mod_eq_of_lt hwrap] at hhigh hbit
    have hle : e.toNat / 2 ^ b ≤ (e.toNat + d.toNat) / 2 ^ b := Nat.div_le_div_right (by omega)
    rw [Nat.pow_succ, ← Nat.div_div_eq_div_mul, ← Nat.div_div_eq_div_mul] at hhigh
    omega
  · -- The highest bit is set before the end of the counter and clear after it.
    obtain rfl : b = 31 := by
      by_contra hb31
      have hpow : 2 ^ 31 = 2 ^ (b + 1) * 2 ^ (30 - b) := by
        rw [← pow_add]
        congr 1
        omega
      have htop : e.toNat / 2 ^ 31 = (e + d).toNat / 2 ^ 31 := by
        rw [hpow, ← Nat.div_div_eq_div_mul, hhigh, Nat.div_div_eq_div_mul]
      omega
    omega

lemma toNat_roundLimit {e l : Word} (h : e ≠ l) (hb : lastBit (e ^^^ l) < 32) :
    (roundLimit e l).toNat = l.toNat / 2 ^ lastBit (e ^^^ l) * 2 ^ lastBit (e ^^^ l) := by
  have hxor : e ^^^ l ≠ 0 := fun hx => h (BitVec.xor_eq_zero_iff.mp hx)
  rw [roundLimit, if_neg hxor, toNat_and_not (toNat_sub_one ?_)]
  rw [ofNat_eq_ofNat, ← twoPow_eq, toNat_twoPow_of_lt hb]

/-- The tick that is taken is the only one after `expires` and in the interval that is a multiple of
`2 ^ lastBit`, so that every other one has fewer trailing zeros. -/
theorem applySlack_ctz {τ : Type} (s : State τ) (x : τ) (expires : Word)
    (hslack : (s.slack x).toNat < 2 ^ 31) :
    ∃ t ≤ s.slack x, s.applySlack x expires = expires + t ∧
      (0 < s.slack x → 0 < t ∧ ∀ u, 0 < u → u ≤ s.slack x → u ≠ t →
        (expires + u).ctz < (expires + t).ctz) := by
  have hge : (s.slack x).slt 0 = false := by
    rw [slt_eq_decide, toInt_eq_toNat_of_lt (by omega)]
    simp
  rw [applySlack, hge]
  generalize s.slack x = d at *
  rcases Nat.eq_zero_or_pos d.toNat with hd | hd
  · obtain rfl : d = 0 := eq_of_toNat_eq hd
    exact ⟨0, by simp, by simp [roundLimit], by simp⟩
  obtain ⟨hb, hnext⟩ := div_lastBit (e := expires) hd hslack
  have hround := toNat_roundLimit (fun h => by simp at h; simp [h] at hd) hb
  generalize lastBit (expires ^^^ (expires + d)) = b at hb hnext hround
  have hlow := Nat.lt_div_mul_add (a := expires.toNat) (Nat.two_pow_pos b)
  have hhigh := Nat.div_mul_le_self (expires.toNat + d.toNat) (2 ^ b)
  rw [hnext, Nat.add_one_mul] at hhigh
  have hpow : 2 ^ b ∣ 2 ^ 32 := pow_dvd_pow 2 hb.le
  -- The first multiple after `expires`.
  obtain ⟨t, ht⟩ : ∃ t : Word, t.toNat = expires.toNat / 2 ^ b * 2 ^ b + 2 ^ b - expires.toNat :=
    ⟨.ofNat 32 _, Nat.mod_eq_of_lt (by omega)⟩
  have hdvd (u : Word) : 2 ^ b ∣ (expires + u).toNat ↔ 2 ^ b ∣ expires.toNat + u.toNat := by
    rw [toNat_add, Nat.dvd_mod_iff hpow]
  have hsum : expires.toNat + t.toNat = (expires.toNat / 2 ^ b + 1) * 2 ^ b := by
    rw [Nat.add_one_mul]
    omega
  refine ⟨t, by rw [le_def]; omega, eq_of_toNat_eq ?_, fun _ => ⟨by rw [lt_def]; simp; omega, ?_⟩⟩
  · obtain ⟨c, hc⟩ := hpow
    rw [if_neg Bool.false_ne_true, hround, toNat_add, toNat_add, hsum, hc,
      Nat.mod_mul_right_div_self, hnext, Nat.mul_comm _ c, Nat.mul_mod_mul_right]
  intro u hu hle hne
  have hmul := (two_pow_dvd_iff hb.le).mp ((hdvd t).mpr (hsum ▸ dvd_mul_left _ _))
  rw [lt_def]
  refine lt_of_not_ge fun hge => hne (eq_of_toNat_eq ?_)
  obtain ⟨c, hc⟩ := (hdvd u).mp ((two_pow_dvd_iff hb.le).mpr (hmul.trans hge))
  have hgt : expires.toNat / 2 ^ b < c := by
    rw [Nat.div_lt_iff_lt_mul (Nat.two_pow_pos b), Nat.mul_comm, ← hc]
    rw [lt_def] at hu
    omega
  have hlt : c ≤ (expires.toNat + d.toNat) / 2 ^ b := by
    rw [Nat.le_div_iff_mul_le (Nat.two_pow_pos b), Nat.mul_comm, ← hc]
    exact Nat.add_le_add_left hle _
  obtain rfl : c = expires.toNat / 2 ^ b + 1 := by omega
  rw [mul_comm] at hc
  omega

/-- Five ticks before the end of the counter and with a slack of nine, the tick 0 is taken. -/
theorem slack_over_end :
    applySlack { nearWrap with slack := fun _ => 9 } true 0xfffffffb = 0 ∧
      ∀ u : Word, 0 < u → u ≤ 9 → u ≠ 5 → (0xfffffffb + u).ctz < (0 : Word).ctz := by
  obtain ⟨t, -, ht, hbest⟩ :=
    applySlack_ctz { nearWrap with slack := fun _ => 9 } true 0xfffffffb (by decide)
  obtain rfl : t = 5 := by
    rw [show applySlack _ _ _ = 0xfffffffb#32 + 5 from rfl] at ht
    bv_omega
  exact ⟨rfl, (hbest (by decide)).2⟩

end Mini2440.Timer.State
