import Mathlib.Algebra.BigOperators.Intervals

/-!
# The Gregorian calendar

The calendar extended to all years, before and after the reform. Days and seconds are counted from
the beginning of 1970, and months from zero. A `CivilTime` is a time of the calendar, with the
proofs that its fields are in range.

## Main results

* `daysToYear_eq`: the number of days up to a year by a formula.
* `CivilTime.seconds_injective`: different times are different numbers of seconds.
-/

namespace Mini2440.Library

variable {y y' : Int} {m m' : Nat}

/-! ## Years -/

def LeapYear (y : Int) : Prop := y % 4 = 0 ∧ (y % 100 ≠ 0 ∨ y % 400 = 0)

instance : DecidablePred LeapYear := fun y =>
  inferInstanceAs (Decidable (y % 4 = 0 ∧ (y % 100 ≠ 0 ∨ y % 400 = 0)))

def yearLength (y : Int) : Int := if LeapYear y then 366 else 365

/-- The number of days from the beginning of 1970 to the beginning of a year. -/
def daysToYear (y : Int) : Int :=
  ∑ i ∈ Finset.range (y - 1970).toNat, yearLength (1970 + i) -
    ∑ i ∈ Finset.range (1970 - y).toNat, yearLength (y + i)

/-- The number of leap years from the year 1 on to the end of a year. -/
def leapsThrough (y : Int) : Int := y / 4 - y / 100 + y / 400

lemma yearLength_eq (y : Int) : yearLength y = 365 + (leapsThrough y - leapsThrough (y - 1)) := by
  unfold leapsThrough
  by_cases h : LeapYear y
  · rw [yearLength, if_pos h]
    unfold LeapYear at h
    omega
  · rw [yearLength, if_neg h]
    unfold LeapYear at h
    omega

lemma sum_yearLength (n : Nat) :
    ∑ i ∈ Finset.range n, yearLength (y + i) =
      365 * n + (leapsThrough (y + n - 1) - leapsThrough (y - 1)) := by
  induction n with
  | zero => simp
  | succ n ih =>
    rw [Finset.sum_range_succ, yearLength_eq, show y + ((n + 1 : Nat) : Int) - 1 = y + n by omega]
    omega

lemma daysToYear_eq :
    daysToYear y = 365 * (y - 1970) + (leapsThrough (y - 1) - leapsThrough 1969) := by
  rw [daysToYear, sum_yearLength, sum_yearLength]
  rcases Int.le_total 1970 y with h | h
  · rw [show (1970 - y).toNat = 0 by omega, Int.toNat_of_nonneg (by omega : 0 ≤ y - 1970)]
    simp
  · rw [show (y - 1970).toNat = 0 by omega, Int.toNat_of_nonneg (by omega : 0 ≤ 1970 - y)]
    simp
    omega

lemma daysToYear_first : daysToYear 1970 = 0 := by
  simp [daysToYear]

lemma daysToYear_succ : daysToYear (y + 1) = daysToYear y + yearLength y := by
  rw [daysToYear_eq, daysToYear_eq, yearLength_eq, Int.add_sub_cancel]
  omega

lemma le_yearLength (y : Int) : 365 ≤ yearLength y := by
  unfold yearLength
  split <;> omega

lemma daysToYear_mono (h : y ≤ y') : daysToYear y ≤ daysToYear y' := by
  refine monotone_int_of_le_succ (fun y => ?_) h
  have := le_yearLength y
  rw [daysToYear_succ]
  omega

/-! ## Months -/

/-- The number of days in a month, where January is the month 0. -/
def monthLength (y : Int) (m : Nat) : Int :=
  if m = 1 then if LeapYear y then 29 else 28
  else if m = 3 ∨ m = 5 ∨ m = 8 ∨ m = 10 then 30
  else 31

def daysToMonth (y : Int) (m : Nat) : Int := ∑ i ∈ Finset.range m, monthLength y i

lemma daysToMonth_zero : daysToMonth y 0 = 0 := rfl

lemma daysToMonth_succ :
    daysToMonth y (m + 1) = daysToMonth y m + monthLength y m :=
  Finset.sum_range_succ _ _

lemma le_monthLength (y : Int) (m : Nat) : 28 ≤ monthLength y m ∧ monthLength y m ≤ 31 := by
  unfold monthLength
  split_ifs <;> omega

lemma daysToMonth_mono (y : Int) (h : m ≤ m') : daysToMonth y m ≤ daysToMonth y m' := by
  refine monotone_nat_of_le_succ (fun m => ?_) h
  have := le_monthLength y m
  rw [daysToMonth_succ]
  omega

lemma daysToMonth_twelve : daysToMonth y 12 = yearLength y := by
  by_cases h : LeapYear y <;> simp [daysToMonth, Finset.sum_range_succ, monthLength, yearLength, h]

/-! ## Times -/

@[ext] structure CivilTime where
  year : Int
  month : Nat
  day : Int
  hour : Int
  minute : Int
  second : Int
  month_lt : month < 12
  day_pos : 1 ≤ day
  day_le : day ≤ monthLength year month
  hour_nonneg : 0 ≤ hour
  hour_lt : hour < 24
  minute_nonneg : 0 ≤ minute
  minute_lt : minute < 60
  second_nonneg : 0 ≤ second
  second_lt : second < 60

namespace CivilTime

variable {c c' : CivilTime}

def yearDay (c : CivilTime) : Int := daysToMonth c.year c.month + (c.day - 1)

def dayNumber (c : CivilTime) : Int := daysToYear c.year + c.yearDay

/-- The day of the week, from Sunday. The first of January 1970 was a Thursday. -/
def weekday (c : CivilTime) : Int := (c.dayNumber + 4) % 7

def seconds (c : CivilTime) : Int :=
  86400 * c.dayNumber + 3600 * c.hour + 60 * c.minute + c.second

lemma yearDay_nonneg (c : CivilTime) : 0 ≤ c.yearDay := by
  have h₀ := daysToMonth_mono c.year (Nat.zero_le c.month)
  have h₁ := c.day_pos
  rw [daysToMonth_zero] at h₀
  unfold yearDay
  omega

lemma yearDay_lt_next (c : CivilTime) : c.yearDay < daysToMonth c.year (c.month + 1) := by
  have h₁ := c.day_le
  rw [daysToMonth_succ]
  unfold yearDay
  omega

lemma yearDay_lt (c : CivilTime) : c.yearDay < yearLength c.year := by
  have h₁ := daysToMonth_mono c.year (show c.month + 1 ≤ 12 from c.month_lt)
  rw [daysToMonth_twelve] at h₁
  have h₂ := c.yearDay_lt_next
  omega

lemma seconds_nonneg (h : 1970 ≤ c.year) : 0 ≤ c.seconds := by
  have h₀ := daysToYear_mono h
  rw [daysToYear_first] at h₀
  have h₁ := c.yearDay_nonneg
  have h₂ := c.hour_nonneg
  have h₃ := c.minute_nonneg
  have h₄ := c.second_nonneg
  unfold seconds dayNumber
  omega

lemma year_le (h : c.dayNumber = c'.dayNumber) : c.year ≤ c'.year := by
  by_contra hlt
  have hmono := daysToYear_mono (show c'.year + 1 ≤ c.year by omega)
  rw [daysToYear_succ] at hmono
  have h₁ := c.yearDay_nonneg
  have h₂ := c'.yearDay_lt
  unfold dayNumber at h
  omega

lemma month_le (hyear : c.year = c'.year) (h : c.yearDay = c'.yearDay) : c.month ≤ c'.month := by
  by_contra hlt
  have hmono := daysToMonth_mono c.year (show c'.month + 1 ≤ c.month by omega)
  have h₁ := c.day_pos
  have h₂ := c'.yearDay_lt_next
  unfold yearDay at h h₂
  rw [← hyear] at h h₂
  omega

/-- The calendar names every day once. -/
lemma date_eq (h : c.dayNumber = c'.dayNumber) :
    c.year = c'.year ∧ c.month = c'.month ∧ c.day = c'.day := by
  have hyear : c.year = c'.year := Int.le_antisymm (year_le h) (year_le h.symm)
  have hday : c.yearDay = c'.yearDay := by
    unfold dayNumber at h
    rw [hyear] at h
    omega
  have hmonth : c.month = c'.month :=
    le_antisymm (month_le hyear hday) (month_le hyear.symm hday.symm)
  refine ⟨hyear, hmonth, ?_⟩
  unfold yearDay at hday
  rw [hyear, hmonth] at hday
  omega

lemma seconds_injective (h : c.seconds = c'.seconds) : c = c' := by
  have h₁ := c.hour_nonneg
  have h₂ := c.hour_lt
  have h₃ := c.minute_nonneg
  have h₄ := c.minute_lt
  have h₅ := c.second_nonneg
  have h₆ := c.second_lt
  have h₁' := c'.hour_nonneg
  have h₂' := c'.hour_lt
  have h₃' := c'.minute_nonneg
  have h₄' := c'.minute_lt
  have h₅' := c'.second_nonneg
  have h₆' := c'.second_lt
  unfold seconds at h
  have hnumber : c.dayNumber = c'.dayNumber := by omega
  obtain ⟨hyear, hmonth, hday⟩ := date_eq hnumber
  exact CivilTime.ext hyear hmonth hday (by omega) (by omega) (by omega)

end CivilTime

end Mini2440.Library
