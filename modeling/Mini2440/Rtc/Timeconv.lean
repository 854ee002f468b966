import Mini2440.Library.Calendar
import Mini2440.Library.While

/-!
# Broken-down time

`time_to_tm` of `kernel/time/timeconv.c`. The year is found by repeated guesses: the days are
divided by 365, and the guess is corrected by the leap days in between, which may lead back again.
All numbers are signed; for a time of 32 bits they stay far below the limits of a `long`.
-/

namespace Mini2440.Rtc

open Library

/-! ## The functions -/

/-- `struct tm`. -/
structure BrokenTime where
  sec : Int
  min : Int
  hour : Int
  mday : Int
  mon : Int
  year : Int
  wday : Int
  yday : Int
  deriving DecidableEq, Repr

def isleap (year : Int) : Bool := year.tmod 4 = 0 ∧ (year.tmod 100 ≠ 0 ∨ year.tmod 400 = 0)

def mathDiv (a b : Int) : Int := a.tdiv b - if a.tmod b < 0 then 1 else 0

def leapsBetween (y1 y2 : Int) : Int :=
  let leaps1 := mathDiv (y1 - 1) 4 - mathDiv (y1 - 1) 100 + mathDiv (y1 - 1) 400
  let leaps2 := mathDiv (y2 - 1) 4 - mathDiv (y2 - 1) 100 + mathDiv (y2 - 1) 400
  leaps2 - leaps1

def monYday : Bool → List Int
  | false => [0, 31, 59, 90, 120, 151, 181, 212, 243, 273, 304, 334, 365]
  | true => [0, 31, 60, 91, 121, 152, 182, 213, 244, 274, 305, 335, 366]

structure Clock where
  days : Int
  rem : Int

/-- The loops that bring the seconds into the range of a day. -/
def belowDay (c : Clock) : Bool := c.rem < 0

def borrowDay (c : Clock) : Clock := { days := c.days - 1, rem := c.rem + 86400 }

def pastDay (c : Clock) : Bool := c.rem ≥ 86400

def carryDay (c : Clock) : Clock := { days := c.days + 1, rem := c.rem - 86400 }

structure YearDays where
  y : Int
  days : Int

/-- The loop that looks for the year goes on. -/
def outside (s : YearDays) : Bool := s.days < 0 ∨ s.days ≥ if isleap s.y = true then 366 else 365

/-- One round of that loop. -/
def guessYear (s : YearDays) : YearDays :=
  let yg := s.y + mathDiv s.days 365
  { y := yg, days := s.days - ((yg - s.y) * 365 + leapsBetween s.y yg) }

/-- The loop that looks for the month, from the last one on. It ends with January, which begins with
the day 0. -/
def findMonth (ip : List Int) (days : Int) : Nat → Nat
  | 0 => 0
  | y + 1 => if days < ip.getD (y + 1) 0 then findMonth ip days y else y + 1

def fillTm (c : Clock) (s : YearDays) : BrokenTime :=
  let wday := (4 + c.days).tmod 7
  let ip := monYday (isleap s.y)
  let y := findMonth ip s.days 11
  { hour := c.rem.tdiv 3600
    min := (c.rem.tmod 3600).tdiv 60
    sec := (c.rem.tmod 3600).tmod 60
    wday := if wday < 0 then wday + 7 else wday
    year := s.y - 1900
    yday := s.days
    mon := y
    mday := s.days - ip.getD y 0 + 1 }

def timeToTm (fuel : Nat) (totalsecs offset : Int) : Option BrokenTime := do
  let c : Clock := { days := totalsecs.tdiv 86400, rem := totalsecs.tmod 86400 + offset }
  let c ← whileLoop belowDay borrowDay fuel c
  let c ← whileLoop pastDay carryDay fuel c
  let s ← whileLoop outside guessYear fuel { y := 1970, days := c.days }
  return fillTm c s

/-! ## Calendar arithmetic -/

lemma isleap_iff (y : Int) : isleap y ↔ LeapYear y := by
  rw [isleap, decide_eq_true_iff]
  unfold LeapYear
  rw [← Int.dvd_iff_tmod_eq_zero, Ne, ← Int.dvd_iff_tmod_eq_zero, ← Int.dvd_iff_tmod_eq_zero]
  omega

lemma mathDiv_eq (a : Int) {b : Int} (hb : 0 < b) : mathDiv a b = a / b := by
  have hrem' := Int.emod_lt_of_pos a hb
  have hdvd : b ∣ a ↔ a % b = 0 := Int.dvd_iff_emod_eq_zero
  rw [mathDiv, Int.tdiv_eq_ediv, Int.tmod_eq_emod, Int.sign_eq_one_of_pos hb]
  by_cases h : 0 ≤ a ∨ b ∣ a
  · rw [if_pos h, if_pos h]
    omega
  · rw [if_neg h, if_neg h]
    omega

lemma leapsBetween_eq (y1 y2 : Int) :
    leapsBetween y1 y2 = leapsThrough (y2 - 1) - leapsThrough (y1 - 1) := by
  simp [leapsBetween, leapsThrough, mathDiv_eq _ (show (0 : Int) < 4 by decide),
    mathDiv_eq _ (show (0 : Int) < 100 by decide), mathDiv_eq _ (show (0 : Int) < 400 by decide)]

lemma monYday_eq (y : Int) {m : Nat} (h : m ≤ 12) :
    (monYday (isleap y)).getD m 0 = daysToMonth y m := by
  by_cases hleap : LeapYear y
  · rw [(isleap_iff y).mpr hleap]
    simp only [daysToMonth, monthLength, hleap]
    revert m
    decide
  · rw [Bool.eq_false_iff.mpr (mt (isleap_iff y).mp hleap)]
    simp only [daysToMonth, monthLength, hleap]
    revert m
    decide

lemma leapsThrough_mono {y y' : Int} (h : y ≤ y') : leapsThrough y ≤ leapsThrough y' := by
  refine monotone_int_of_le_succ (fun y => ?_) h
  have h₁ := le_yearLength (y + 1)
  have h₂ := yearLength_eq (y + 1)
  rw [Int.add_sub_cancel] at h₂
  omega

lemma leapsThrough_le {y y' : Int} (h : y ≤ y') :
    4 * (leapsThrough y' - leapsThrough y) ≤ y' - y + 3 := by
  unfold leapsThrough
  omega

/-! ## The loops -/

/-- How far the search for the year is from its end. -/
def yearRank (s : YearDays) : Nat :=
  if outside s = true then if s.days < 0 then s.days.natAbs + 1000 else 2 * s.days.natAbs else 0

lemma outside_iff (s : YearDays) : outside s ↔ s.days < 0 ∨ yearLength s.y ≤ s.days := by
  rw [outside, decide_eq_true_iff, yearLength]
  by_cases hleap : LeapYear s.y
  · rw [if_pos hleap, if_pos ((isleap_iff _).mpr hleap)]
  · rw [if_neg hleap, if_neg (mt (isleap_iff _).mp hleap)]

lemma guessYear_days (s : YearDays) :
    (guessYear s).days = s.days % 365 -
      (leapsThrough (s.y + s.days / 365 - 1) - leapsThrough (s.y - 1)) := by
  simp only [guessYear, leapsBetween_eq, mathDiv_eq _ (show (0 : Int) < 365 by decide)]
  omega

lemma guessYear_day (s : YearDays) :
    daysToYear (guessYear s).y + (guessYear s).days = daysToYear s.y + s.days := by
  rw [daysToYear_eq, daysToYear_eq]
  simp only [guessYear, leapsBetween_eq]
  omega

variable {s : YearDays}

/-- From a day before the year the search comes to the year or to a day after it. -/
lemma guessYear_days_of_neg (h : s.days < 0) :
    0 ≤ (guessYear s).days ∧ 4 * (guessYear s).days ≤ 1459 - s.days / 365 := by
  have h₁ := leapsThrough_mono (show s.y + s.days / 365 - 1 ≤ s.y - 1 by omega)
  have h₂ := leapsThrough_le (show s.y + s.days / 365 - 1 ≤ s.y - 1 by omega)
  rw [guessYear_days]
  omega

lemma guessYear_days_of_ge (h : yearLength s.y ≤ s.days) :
    (guessYear s).days < 365 ∧ (s.days < 730 → 0 ≤ (guessYear s).days) ∧
      -(s.days / 365 + 3) ≤ 4 * (guessYear s).days := by
  have hlen := le_yearLength s.y
  have h₁ := leapsThrough_mono (show s.y - 1 ≤ s.y + s.days / 365 - 1 by omega)
  have h₂ := leapsThrough_le (show s.y - 1 ≤ s.y + s.days / 365 - 1 by omega)
  rw [guessYear_days]
  refine ⟨by omega, fun hshort => ?_, by omega⟩
  have hone := yearLength_eq s.y
  rw [show s.y + s.days / 365 - 1 = s.y by omega]
  omega

lemma yearRank_guessYear (h : outside s) : yearRank (guessYear s) < yearRank s := by
  have hlen := le_yearLength (guessYear s).y
  rw [yearRank, yearRank]
  rcases (outside_iff s).mp h with hneg | hge
  · obtain ⟨h₁, h₂⟩ := guessYear_days_of_neg hneg
    rw [if_neg (show ¬ (guessYear s).days < 0 by omega)]
    split <;> omega
  · obtain ⟨h₁, h₂, h₃⟩ := guessYear_days_of_ge hge
    have hlen' := le_yearLength s.y
    rw [if_neg (show ¬ s.days < 0 by omega)]
    split
    · next hout =>
      have hneg : (guessYear s).days < 0 := by
        rcases (outside_iff _).mp hout with hneg | hge'
        · exact hneg
        · omega
      rw [if_pos hneg]
      omega
    · omega

lemma findYear_total (N : Int) :
    ∃ n s, (∀ fuel ≥ n, whileLoop outside guessYear fuel { y := 1970, days := N } = some s) ∧
      daysToYear s.y + s.days = N ∧ 0 ≤ s.days ∧ s.days < yearLength s.y := by
  have hinit : daysToYear 1970 + N = N := by rw [daysToYear_first, Int.zero_add]
  obtain ⟨s, hs, hday, hout⟩ := whileLoop_total outside guessYear
    (s := (⟨1970, N⟩ : YearDays)) (fun s => daysToYear s.y + s.days = N) yearRank
    (fun s hs hout => ⟨(guessYear_day s).trans hs, yearRank_guessYear hout⟩) hinit
  have hin := mt (outside_iff s).mpr (Bool.eq_false_iff.mp hout)
  generalize yearRank _ + 1 = n at hs
  exact ⟨n, s, fun fuel hfuel => whileLoop_mono hs hfuel, hday, by omega, by omega⟩

lemma findMonth_spec {y days : Int} (h : 0 ≤ days) (m : Nat) (hm : m < 12)
    (hlt : days < daysToMonth y (m + 1)) :
    let m' := findMonth (monYday (isleap y)) days m
    m' < 12 ∧ daysToMonth y m' ≤ days ∧ days < daysToMonth y (m' + 1) := by
  induction m with
  | zero => exact ⟨hm, by rwa [findMonth], hlt⟩
  | succ m ih =>
    rw [findMonth, monYday_eq y (by omega)]
    split
    · next hless => exact ih (by omega) hless
    · next hge => exact ⟨hm, Int.not_lt.mp hge, hlt⟩

lemma carry_total (days rem : Int) :
    ∃ n c c', (∀ fuel ≥ n, whileLoop belowDay borrowDay fuel ⟨days, rem⟩ = some c) ∧
      (∀ fuel ≥ n, whileLoop pastDay carryDay fuel c = some c') ∧
      86400 * c'.days + c'.rem = 86400 * days + rem ∧ 0 ≤ c'.rem ∧ c'.rem < 86400 := by
  obtain ⟨c, hc, hsum, hend⟩ := whileLoop_total belowDay borrowDay (s := ⟨days, rem⟩)
    (fun c => 86400 * c.days + c.rem = 86400 * days + rem) (fun c => (-c.rem).toNat)
    (fun c hc hneg => by
      rw [belowDay, decide_eq_true_iff] at hneg
      simp only [borrowDay]
      omega) rfl
  rw [belowDay, decide_eq_false_iff_not] at hend
  obtain ⟨c', hc', ⟨hsum', hnonneg⟩, hend'⟩ := whileLoop_total pastDay carryDay (s := c)
    (fun c => 86400 * c.days + c.rem = 86400 * days + rem ∧ 0 ≤ c.rem) (fun c => c.rem.toNat)
    (fun c hc hpast => by
      rw [pastDay, decide_eq_true_iff] at hpast
      simp only [carryDay]
      omega) ⟨hsum, by omega⟩
  rw [pastDay, decide_eq_false_iff_not] at hend'
  exact ⟨max _ _, c, c', fun fuel hfuel => whileLoop_mono hc (le_trans (le_max_left _ _) hfuel),
    fun fuel hfuel => whileLoop_mono hc' (le_trans (le_max_right _ _) hfuel), hsum', hnonneg,
    by omega⟩

structure BrokenTime.Denotes (tm : BrokenTime) (c : CivilTime) : Prop where
  year : tm.year = c.year - 1900
  mon : tm.mon = c.month
  mday : tm.mday = c.day
  hour : tm.hour = c.hour
  min : tm.min = c.minute
  sec : tm.sec = c.second
  wday : tm.wday = c.weekday
  yday : tm.yday = c.yearDay

lemma fillTm_denotes {c : Clock} (hrem : 0 ≤ c.rem) (hrem' : c.rem < 86400)
    (hday : daysToYear s.y + s.days = c.days) (hdays : 0 ≤ s.days)
    (hdays' : s.days < yearLength s.y) :
    ∃ t, (fillTm c s).Denotes t ∧ t.seconds = 86400 * c.days + c.rem := by
  obtain ⟨m, hmonth⟩ : ∃ m, m = findMonth (monYday (isleap s.y)) s.days 11 := ⟨_, rfl⟩
  have hspec := findMonth_spec hdays 11 (by decide) (by rwa [daysToMonth_twelve])
  simp only [← hmonth, daysToMonth_succ] at hspec
  obtain ⟨hm, hfirst, hlast⟩ := hspec
  have hhour : c.rem.tdiv 3600 = c.rem / 3600 := Int.tdiv_eq_ediv_of_nonneg hrem
  have hpart : c.rem.tmod 3600 = c.rem % 3600 := Int.tmod_eq_emod_of_nonneg hrem
  have hpart' : 0 ≤ c.rem % 3600 := by omega
  have hmin : (c.rem % 3600).tdiv 60 = c.rem % 3600 / 60 := Int.tdiv_eq_ediv_of_nonneg hpart'
  have hsec : (c.rem % 3600).tmod 60 = c.rem % 3600 % 60 := Int.tmod_eq_emod_of_nonneg hpart'
  refine ⟨{
      year := s.y, month := m, day := s.days - daysToMonth s.y m + 1
      hour := c.rem / 3600, minute := c.rem % 3600 / 60, second := c.rem % 3600 % 60
      month_lt := hm, day_pos := by omega, day_le := by omega
      hour_nonneg := by omega, hour_lt := by omega
      minute_nonneg := by omega, minute_lt := by omega
      second_nonneg := by omega, second_lt := by omega }, ?_, ?_⟩
  · constructor
    case mday => simp only [fillTm, ← hmonth, monYday_eq s.y (show m ≤ 12 by omega)]
    case wday =>
      have hrange : (4 + c.days).tmod 7 = _ := Int.tmod_eq_emod
      simp only [fillTm, CivilTime.weekday, CivilTime.dayNumber, CivilTime.yearDay]
      by_cases hpos : 0 ≤ 4 + c.days ∨ 7 ∣ 4 + c.days
      · rw [if_pos hpos] at hrange
        split <;> omega
      · rw [if_neg hpos] at hrange
        split <;> omega
    case yday =>
      simp only [fillTm, CivilTime.yearDay]
      omega
    all_goals simp only [fillTm, hhour, hpart, hmin, hsec, ← hmonth]
  · simp only [CivilTime.seconds, CivilTime.dayNumber, CivilTime.yearDay]
    omega

/-- `time_to_tm` ends, and its result is the time `totalsecs + offset` of the calendar. -/
theorem timeToTm_total (totalsecs offset : Int) :
    ∃ n tm c, (∀ fuel ≥ n, timeToTm fuel totalsecs offset = some tm) ∧ tm.Denotes c ∧
      c.seconds = totalsecs + offset := by
  obtain ⟨n₁, c₀, c, hborrow, hcarry, hsum, hrem, hrem'⟩ :=
    carry_total (totalsecs.tdiv 86400) (totalsecs.tmod 86400 + offset)
  obtain ⟨n₂, s, hyear, hday, hdays, hdays'⟩ := findYear_total c.days
  have hsecs := Int.mul_tdiv_add_tmod totalsecs 86400
  obtain ⟨t, hdenotes, hseconds⟩ := fillTm_denotes hrem hrem' hday hdays hdays'
  refine ⟨max n₁ n₂, fillTm c s, t, fun fuel hfuel => ?_, hdenotes, by omega⟩
  rw [timeToTm]
  simp only [Option.bind_eq_bind, hborrow fuel (by omega), Option.bind_some,
    hcarry fuel (by omega), hyear fuel (by omega)]
  rfl

end Mini2440.Rtc
