import Mini2440.Library.Calendar
import Mini2440.Library.WordArith
import Mini2440.Rtc.Gettime

/-!
# Dates and seconds

The conversions of `drivers/rtc/rtc-lib.c` between a number of seconds and a date, and `mktime` of
`kernel/time.c`, on which one of them rests. All numbers are machine words; those of type `int` are
compared and divided as signed ones.
-/

namespace Mini2440.Rtc

open Library

/-! ## The functions -/

structure RtcTime where
  sec : Word
  min : Word
  hour : Word
  mday : Word
  mon : Word
  year : Word
  wday : Word
  yday : Word
  isdst : Word
  deriving DecidableEq, Repr

/-- The fields that `rtc_valid_tm` looks at. -/
def RtcTime.toTm (tm : RtcTime) : Tm where
  sec := tm.sec.toInt
  min := tm.min.toInt
  hour := tm.hour.toInt
  mday := tm.mday.toInt
  mon := tm.mon.toInt
  year := tm.year.toInt

def leapsThruEndOf (y : Word) : Word := y / 4 - y / 100 + y / 400

/-- The year of a day and the days that are left. The guess is a year of 365 days, which is at most
one year too late. -/
def splitYear (days : Word) : Word × Word :=
  let year := 1970 + days.sdiv 365
  let days := days - ((year - 1970) * 365 + leapsThruEndOf (year - 1) - leapsThruEndOf (1970 - 1))
  if days.slt 0 then
    let year := year - 1
    (year, days + (365 + if isLeapYear year.toNat = true then 1 else 0))
  else (year, days)

def monthLoop (year : Word) : Nat → Word → Word → Word × Word
  | 0, month, days => (month, days)
  | rounds + 1, month, days =>
    let newdays := days - BitVec.ofNat 32 (rtcMonthDays month.toNat year.toNat)
    if newdays.slt 0 then (month, days) else monthLoop year rounds (month + 1) newdays

def rtcTimeToTm (time : Word) : RtcTime :=
  let days := time / 86400
  let time := time - days * 86400
  let wday := (days + 4).srem 7
  let (year, days) := splitYear days
  let yday := days + 1
  let (month, days) := monthLoop year 11 0 days
  let hour := time / 3600
  let time := time - hour * 3600
  let min := time / 60
  { year := year - 1900, mon := month, mday := days + 1
    hour := hour, min := min, sec := time - min * 60
    wday := wday, yday := yday, isdst := 0 }

def mktime (year0 mon0 day hour min sec : Word) : Word :=
  let mon := mon0 - 2
  -- February comes last, since it has the leap day
  let (year, mon) := if 0 ≥ mon.toInt then (year0 - 1, mon + 12) else (year0, mon)
  ((((year / 4 - year / 100 + year / 400 + 367 * mon / 12 + day) + year * 365 - 719499) * 24 +
    hour) * 60 + min) * 60 + sec

def rtcTmToTime (tm : RtcTime) : Word :=
  mktime (tm.year + 1900) (tm.mon + 1) tm.mday tm.hour tm.min tm.sec

/-- The first date that does not fit into 32 bits, by the comment above `mktime`: 2106-02-07
06:28:16. -/
def overflowDate : Tm where
  year := 206
  mon := 1
  mday := 7
  hour := 6
  min := 28
  sec := 16

def Tm.Before (a b : Tm) : Prop :=
  [a.year, a.mon, a.mday, a.hour, a.min, a.sec] < [b.year, b.mon, b.mday, b.hour, b.min, b.sec]

instance (a b : Tm) : Decidable (a.Before b) :=
  inferInstanceAs (Decidable ([a.year, a.mon, a.mday, a.hour, a.min, a.sec] < _))

/-! ## Dates -/

variable {tm : RtcTime} {c : CivilTime} {t : Word} {n : Nat}

structure Shows (tm : RtcTime) (c : CivilTime) : Prop where
  year : tm.year.toInt = c.year - 1900
  mon : tm.mon.toInt = c.month
  mday : tm.mday.toInt = c.day
  hour : tm.hour.toInt = c.hour
  min : tm.min.toInt = c.minute
  sec : tm.sec.toInt = c.second

lemma Shows.toTm_eq {tm' : RtcTime} (h : Shows tm c) (h' : Shows tm' c) : tm.toTm = tm'.toTm := by
  simp [RtcTime.toTm, h.year, h.mon, h.mday, h.hour, h.min, h.sec, h'.year, h'.mon, h'.mday,
    h'.hour, h'.min, h'.sec]

lemma isLeapYear_iff (year : Nat) : isLeapYear year ↔ LeapYear year := by
  rw [isLeapYear, decide_eq_true_iff]
  unfold LeapYear
  omega

lemma rtcMonthDays_eq {month : Nat} (year : Nat) (h : month < 12) :
    (rtcMonthDays month year : Int) = monthLength year month := by
  by_cases hleap : LeapYear year
  · simp only [rtcMonthDays, isLeapYear_iff, monthLength, hleap]
    revert month
    decide
  · simp only [rtcMonthDays, isLeapYear_iff, monthLength, hleap]
    revert month
    decide

lemma natCast_unsigned {x : Int} (h : 0 ≤ x) (hlt : x < 2 ^ 32) : (unsigned x : Int) = x := by
  rw [unsigned_of_nonneg h (by omega), Int.toNat_of_nonneg h]

lemma toInt_of_unsigned_lt {x : Word} (h : unsigned x.toInt < n) (hn : n ≤ 2 ^ 31) :
    x.toInt = unsigned x.toInt := by
  rw [unsigned, BitVec.ofInt_toInt] at h ⊢
  rw [BitVec.toInt_eq_toNat_cond]
  split <;> omega

/-- The valid dates are the times from 1970 on. -/
lemma rtcValidTm_iff : rtcValidTm tm.toTm = 0 ↔ ∃ c, Shows tm c ∧ 1970 ≤ c.year := by
  have hyear := tm.year.toInt_lt
  rw [rtcValidTm, ite_eq_right_iff]
  constructor
  · intro h
    have h := mt h (by decide)
    simp only [RtcTime.toTm, not_or, not_lt, not_le] at h
    obtain ⟨h70, hmon, hmday, hmday', hhour, hmin, hsec⟩ := h
    have hnat := natCast_unsigned (x := tm.year.toInt + 1900) (by omega) (by omega)
    rw [rtcMonthDays_eq _ hmon, hnat] at hmday'
    have hmon' := toInt_of_unsigned_lt hmon (by decide)
    have hhour' := toInt_of_unsigned_lt hhour (by decide)
    have hmin' := toInt_of_unsigned_lt hmin (by decide)
    have hsec' := toInt_of_unsigned_lt hsec (by decide)
    refine ⟨{
      year := tm.year.toInt + 1900, month := unsigned tm.mon.toInt, day := tm.mday.toInt
      hour := tm.hour.toInt, minute := tm.min.toInt, second := tm.sec.toInt
      month_lt := hmon, day_pos := hmday, day_le := hmday'
      hour_nonneg := by omega, hour_lt := by omega
      minute_nonneg := by omega, minute_lt := by omega
      second_nonneg := by omega, second_lt := by omega }, ⟨?_, hmon', rfl, rfl, rfl, rfl⟩, ?_⟩
    · simp only
      omega
    · simp only
      omega
  · rintro ⟨c, hc, h1970⟩ h
    have hmonth := c.month_lt
    have h₁ := c.day_pos
    have h₂ := c.day_le
    have h₃ := natCast_unsigned c.hour_nonneg (by have := c.hour_lt; omega)
    have h₄ := natCast_unsigned c.minute_nonneg (by have := c.minute_lt; omega)
    have h₅ := natCast_unsigned c.second_nonneg (by have := c.second_lt; omega)
    have h₆ := natCast_unsigned (x := (c.month : Int)) (by omega) (by omega)
    have h₇ := natCast_unsigned (x := c.year) (by omega) (by have := hc.year; omega)
    simp only [RtcTime.toTm, hc.year, hc.mon, hc.mday, hc.hour, hc.min, hc.sec,
      Int.sub_add_cancel, Int.ofNat.inj h₆] at h
    rw [rtcMonthDays_eq _ hmonth, h₇] at h
    have := c.hour_lt
    have := c.minute_lt
    have := c.second_lt
    omega

/-! ## From seconds to dates -/

lemma leapsThruEndOf_eq (h : n < 2 ^ 32) :
    leapsThruEndOf (BitVec.ofNat 32 n) = BitVec.ofInt 32 (leapsThrough n) := by
  rw [leapsThrough, BitVec.ofInt_add, ofInt_sub]
  exact congrArg₂ (· + ·) (congrArg₂ (· - ·) (ofNat_udiv h (by decide)) (ofNat_udiv h (by decide)))
    (ofNat_udiv h (by decide))

/-- The guess is right or one year too late. -/
lemma splitYear_spec {D : Nat} (h : D ≤ 49710) :
    ∃ Y R : Nat, splitYear (BitVec.ofNat 32 D) = (BitVec.ofNat 32 Y, BitVec.ofNat 32 R) ∧
      1970 ≤ Y ∧ Y ≤ 2106 ∧ daysToYear Y + R = D ∧ R < yearLength Y := by
  obtain ⟨g, hg⟩ : ∃ g, g = D / 365 := ⟨_, rfl⟩
  have hguess : daysToYear (1970 + g : Nat) =
      365 * g + (leapsThrough (1969 + g : Nat) - leapsThrough 1969) := by
    rw [daysToYear_eq]
    congr 3 <;> omega
  have hrest : BitVec.ofNat 32 D - (((BitVec.ofNat 32 (1970 + g)) - 1970) * 365 +
        leapsThruEndOf (BitVec.ofNat 32 (1970 + g) - 1) - leapsThruEndOf (1970 - 1)) =
      BitVec.ofInt 32 (D - daysToYear (1970 + g : Nat)) := by
    have h₁ : BitVec.ofNat 32 (1970 + g) - 1970 = BitVec.ofNat 32 g := by bv_omega
    have h₂ : BitVec.ofNat 32 (1970 + g) - 1 = BitVec.ofNat 32 (1969 + g) := by bv_omega
    rw [h₁, h₂, show (1970 - 1 : Word) = BitVec.ofNat 32 1969 from rfl,
      leapsThruEndOf_eq (by omega), hguess, ofInt_sub, BitVec.ofInt_add, BitVec.ofInt_mul,
      ofInt_sub, BitVec.mul_comm (BitVec.ofInt 32 365)]
    congr 1
    rw [BitVec.sub_eq_add_neg, BitVec.add_assoc, ← BitVec.sub_eq_add_neg]
    rfl
  have hbound : -34 ≤ (D : Int) - daysToYear (1970 + g : Nat) ∧
      (D : Int) - daysToYear (1970 + g : Nat) < 365 := by
    rw [hguess]
    unfold leapsThrough
    omega
  have hyear : 1970 + (BitVec.ofNat 32 D).sdiv 365 = BitVec.ofNat 32 (1970 + g) := by
    rw [BitVec.ofNat_add, hg]
    exact congrArg (_ + ·) (sdiv_ofNat (k := 365) (by omega) (by decide))
  rw [splitYear, hyear]
  simp only
  rw [hrest, slt_zero_ofInt (by omega) (by omega)]
  by_cases hneg : (D : Int) - daysToYear (1970 + g : Nat) < 0
  · have hpos : 0 < g := by
      apply pos_of_ne_zero
      rintro rfl
      rw [hguess] at hneg
      unfold leapsThrough at hneg
      omega
    have hlast : daysToYear (1970 + g : Nat) =
        daysToYear (1969 + g : Nat) + yearLength (1969 + g : Nat) := by
      rw [← daysToYear_succ]
      congr 1
      omega
    have hleap : (365 + if isLeapYear (1969 + g) then 1 else 0 : Word) =
        BitVec.ofInt 32 (yearLength (1969 + g : Nat)) := by
      rw [yearLength]
      by_cases hleap : LeapYear (1969 + g : Nat)
      · rw [if_pos ((isLeapYear_iff _).mpr hleap), if_pos hleap]
        rfl
      · rw [if_neg (mt (isLeapYear_iff _).mp hleap), if_neg hleap]
        rfl
    have hlen := le_yearLength (1969 + g : Nat)
    obtain ⟨R, hR⟩ := Int.eq_ofNat_of_zero_le
      (show 0 ≤ (D : Int) - daysToYear (1969 + g : Nat) by omega)
    refine ⟨1969 + g, R, ?_, by omega, by omega, by omega, by omega⟩
    rw [if_pos (decide_eq_true hneg),
      show BitVec.ofNat 32 (1970 + g) - 1 = BitVec.ofNat 32 (1969 + g) by bv_omega,
      BitVec.toNat_ofNat, Nat.mod_eq_of_lt (by omega), hleap, ← BitVec.ofInt_add,
      ← BitVec.ofInt_natCast 32 R]
    congr 2
    omega
  · have hlen := le_yearLength (1970 + g : Nat)
    obtain ⟨R, hR⟩ := Int.eq_ofNat_of_zero_le (Int.not_lt.mp hneg)
    refine ⟨1970 + g, R, ?_, by omega, by omega, by omega, by omega⟩
    rw [if_neg (by simpa using hneg), hR, BitVec.ofInt_natCast]

lemma monthLoop_spec {Y R : Nat} (hY : Y < 2 ^ 32) (hR : R < yearLength Y) (rounds : Nat)
    {m d : Nat} (hm : m + rounds = 11) (hd : (R : Int) = daysToMonth Y m + d) :
    ∃ m' d' : Nat, monthLoop (BitVec.ofNat 32 Y) rounds (BitVec.ofNat 32 m) (BitVec.ofNat 32 d) =
        (BitVec.ofNat 32 m', BitVec.ofNat 32 d') ∧
      m' < 12 ∧ (R : Int) = daysToMonth Y m' + d' ∧ d' < monthLength Y m' := by
  induction rounds generalizing m d with
  | zero =>
    refine ⟨m, d, rfl, by omega, hd, ?_⟩
    rw [← daysToMonth_twelve, show 12 = m + 1 by omega, daysToMonth_succ] at hR
    omega
  | succ rounds ih =>
    have hlen := rtcMonthDays_eq Y (show m < 12 by omega)
    have hlen' := le_monthLength Y m
    have hfirst := daysToMonth_mono Y (Nat.zero_le m)
    have hyear : yearLength Y ≤ 366 := by
      unfold yearLength
      split <;> omega
    rw [daysToMonth_zero] at hfirst
    have hnew : BitVec.ofNat 32 d -
        BitVec.ofNat 32 (rtcMonthDays (BitVec.ofNat 32 m).toNat (BitVec.ofNat 32 Y).toNat) =
          BitVec.ofInt 32 (d - monthLength Y m) := by
      rw [BitVec.toNat_ofNat, BitVec.toNat_ofNat, Nat.mod_eq_of_lt (by omega), Nat.mod_eq_of_lt hY,
        ← hlen, ofInt_sub, BitVec.ofInt_natCast, BitVec.ofInt_natCast]
    rw [monthLoop, hnew, slt_zero_ofInt (by omega) (by omega)]
    by_cases hlt : (d : Int) - monthLength Y m < 0
    · rw [if_pos (decide_eq_true hlt)]
      exact ⟨m, d, rfl, by omega, hd, by omega⟩
    · obtain ⟨d', hd'⟩ := Int.eq_ofNat_of_zero_le (Int.not_lt.mp hlt)
      rw [hd']
      have hnext : BitVec.ofNat 32 m + 1 = BitVec.ofNat 32 (m + 1) := by bv_omega
      rw [hnext]
      refine ih (by omega) ?_
      rw [daysToMonth_succ]
      omega

/-- The date of a number of seconds is their time in the calendar. -/
lemma rtcTimeToTm_spec (t : Word) :
    ∃ c : CivilTime, Shows (rtcTimeToTm t) c ∧ c.seconds = t.toNat ∧ 1970 ≤ c.year ∧
      (rtcTimeToTm t).wday.toInt = c.weekday := by
  obtain ⟨T, hT, rfl⟩ : ∃ T < 2 ^ 32, t = BitVec.ofNat 32 T :=
    ⟨t.toNat, t.isLt, (BitVec.ofNat_toNat 32 t).symm⟩
  obtain ⟨D, hD⟩ : ∃ D, D = T / 86400 := ⟨_, rfl⟩
  obtain ⟨S, hS⟩ : ∃ S, S = T % 86400 := ⟨_, rfl⟩
  have hdays : BitVec.ofNat 32 T / 86400 = BitVec.ofNat 32 D := hD ▸ ofNat_udiv hT (by decide)
  have htime : BitVec.ofNat 32 T - BitVec.ofNat 32 D * 86400 = BitVec.ofNat 32 S := by bv_omega
  have hhour : BitVec.ofNat 32 S / 3600 = BitVec.ofNat 32 (S / 3600) :=
    ofNat_udiv (by omega) (by decide)
  have htime' : BitVec.ofNat 32 S - BitVec.ofNat 32 (S / 3600) * 3600 =
    BitVec.ofNat 32 (S % 3600) := by bv_omega
  have hmin : BitVec.ofNat 32 (S % 3600) / 60 = BitVec.ofNat 32 (S % 3600 / 60) :=
    ofNat_udiv (by omega) (by decide)
  have hsec : BitVec.ofNat 32 (S % 3600) - BitVec.ofNat 32 (S % 3600 / 60) * 60 =
    BitVec.ofNat 32 (S % 3600 % 60) := by bv_omega
  have hwday : (BitVec.ofNat 32 D + 4).srem 7 = BitVec.ofNat 32 ((D + 4) % 7) := by
    rw [← srem_ofNat (by omega) (by decide), BitVec.ofNat_add]
    rfl
  obtain ⟨Y, R, hsplit, hY, hY', hR, hR'⟩ := splitYear_spec (D := D) (by omega)
  obtain ⟨m, d, hmonth, hm, hd, hd'⟩ := monthLoop_spec (by omega) hR' 11 (zero_add 11)
    (show (R : Int) = daysToMonth Y 0 + R by rw [daysToMonth_zero]; omega)
  have hlen := le_monthLength Y m
  have hshow : rtcTimeToTm (BitVec.ofNat 32 T) = {
      year := BitVec.ofNat 32 (Y - 1900), mon := BitVec.ofNat 32 m, mday := BitVec.ofNat 32 (d + 1)
      hour := BitVec.ofNat 32 (S / 3600), min := BitVec.ofNat 32 (S % 3600 / 60)
      sec := BitVec.ofNat 32 (S % 3600 % 60), wday := BitVec.ofNat 32 ((D + 4) % 7)
      yday := BitVec.ofNat 32 (R + 1), isdst := 0 } := by
    have hyear : BitVec.ofNat 32 Y - 1900 = BitVec.ofNat 32 (Y - 1900) := by bv_omega
    rw [rtcTimeToTm]
    rw [hdays, htime, hsplit]
    simp only
    rw [show monthLoop (BitVec.ofNat 32 Y) 11 0 (BitVec.ofNat 32 R) = _ from hmonth, hhour, htime',
      hmin, hsec, hwday, hyear, BitVec.ofNat_add d 1, BitVec.ofNat_add R 1]
    rfl
  rw [hshow]
  refine ⟨{
      year := Y, month := m, day := d + 1, hour := S / 3600, minute := S % 3600 / 60
      second := S % 3600 % 60
      month_lt := hm, day_pos := by omega, day_le := by omega
      hour_nonneg := by omega, hour_lt := by omega
      minute_nonneg := by omega, minute_lt := by omega
      second_nonneg := by omega, second_lt := by omega }, ?_, ?_, ?_, ?_⟩
  · constructor <;> simp only <;> rw [toInt_ofNat_of_lt (by omega)] <;> omega
  · simp only [CivilTime.seconds, CivilTime.dayNumber, CivilTime.yearDay]
    rw [BitVec.toNat_ofNat]
    omega
  · simp only
    omega
  · simp only [CivilTime.weekday, CivilTime.dayNumber, CivilTime.yearDay]
    rw [toInt_ofNat_of_lt (by omega)]
    omega

/-! ## From dates to seconds -/

/-- The months from March on follow a linear formula. -/
lemma daysToMonth_linear (y : Int) {m : Nat} (hm : m < 12) :
    daysToMonth y m =
      if m < 2 then 367 * ((m : Int) + 11) / 12 - 336
      else 367 * ((m : Int) - 1) / 12 + 29 + (yearLength y - 365) := by
  by_cases hleap : LeapYear y
  · simp only [daysToMonth, monthLength, yearLength, hleap]
    revert m
    decide
  · simp only [daysToMonth, monthLength, yearLength, hleap]
    revert m
    decide

/-- The formula of `mktime`, in which a year begins in March. -/
lemma dayNumber_eq :
    c.dayNumber =
      let y := if c.month < 2 then c.year - 1 else c.year
      let m : Int := if c.month < 2 then c.month + 11 else c.month - 1
      leapsThrough y + 367 * m / 12 + c.day + y * 365 - 719499 := by
  have hyear := yearLength_eq c.year
  rw [CivilTime.dayNumber, CivilTime.yearDay, daysToYear_eq, daysToMonth_linear c.year c.month_lt,
    show leapsThrough 1969 = 477 from rfl]
  simp only
  split <;> omega

/-- The arithmetic of `mktime` does not depend on the width of a word as long as the divisions are
exact. -/
lemma mktime_word {y m : Nat} (hy : y < 2 ^ 32) (hm : m ≤ 12) (day hour min sec : Int) :
    ((((leapsThruEndOf (BitVec.ofNat 32 y) + 367 * BitVec.ofNat 32 m / 12 + BitVec.ofInt 32 day) +
      BitVec.ofNat 32 y * 365 - 719499) * 24 + BitVec.ofInt 32 hour) * 60 + BitVec.ofInt 32 min) *
        60 + BitVec.ofInt 32 sec =
      BitVec.ofInt 32 ((((leapsThrough y + 367 * m / 12 + day + y * 365 - 719499) * 24 + hour) *
        60 + min) * 60 + sec) := by
  have hdiv : 367 * BitVec.ofNat 32 m / 12 = BitVec.ofInt 32 (367 * m / 12) := by
    have hmul : 367 * BitVec.ofNat 32 m = BitVec.ofNat 32 (367 * m) := (BitVec.ofNat_mul 367 m).symm
    rw [hmul]
    exact ofNat_udiv (k := 12) (by omega) (by decide)
  rw [leapsThruEndOf_eq hy, hdiv, BitVec.ofInt_add, BitVec.ofInt_mul, BitVec.ofInt_add,
    BitVec.ofInt_mul, BitVec.ofInt_add, BitVec.ofInt_mul, ofInt_sub, BitVec.ofInt_add,
    BitVec.ofInt_add, BitVec.ofInt_add, BitVec.ofInt_mul]
  rfl

lemma rtcTmToTime_eq (hc : Shows tm c) (h1970 : 1970 ≤ c.year) :
    rtcTmToTime tm = BitVec.ofInt 32 c.seconds := by
  have hyear := tm.year.toInt_lt
  have hshowYear := hc.year
  obtain ⟨Y, hY⟩ := Int.eq_ofNat_of_zero_le (show 0 ≤ c.year by omega)
  have hword : ∀ {x : Word} {v : Int}, x.toInt = v → x = BitVec.ofInt 32 v := by
    rintro x v rfl
    exact BitVec.ofInt_toInt.symm
  have hy : tm.year + 1900 = BitVec.ofNat 32 Y := by
    rw [hword hc.year, hY, ofInt_sub]
    exact BitVec.sub_add_cancel _ _
  have hm : tm.mon + 1 = BitVec.ofNat 32 (c.month + 1) := by
    rw [hword hc.mon, BitVec.ofNat_add]
    rfl
  have hmonth := c.month_lt
  have hmon : BitVec.ofNat 32 (c.month + 1) - 2 = BitVec.ofInt 32 (c.month - 1) := by
    bv_omega
  rw [rtcTmToTime, hy, hm, mktime, hmon, BitVec.toInt_ofInt_eq_self (by decide) (by omega)
    (by omega), hword hc.mday, hword hc.hour, hword hc.min, hword hc.sec]
  have hseconds : c.seconds = ((c.dayNumber * 24 + c.hour) * 60 + c.minute) * 60 + c.second := by
    unfold CivilTime.seconds
    omega
  rw [hseconds, dayNumber_eq]
  by_cases hearly : c.month < 2
  · have hlast : BitVec.ofNat 32 Y - 1 = BitVec.ofNat 32 (Y - 1) := by bv_omega
    have hlate : BitVec.ofInt 32 (c.month - 1) + 12 = BitVec.ofNat 32 (c.month + 11) := by
      bv_omega
    rw [if_pos (by omega), if_pos hearly, if_pos hearly, hY, hlast, hlate,
      show (Y : Int) - 1 = (Y - 1 : Nat) by omega]
    exact mktime_word (by omega) (by omega) _ _ _ _
  · rw [if_neg (by omega), if_neg hearly, if_neg hearly, hY,
      show (c.month : Int) - 1 = (c.month - 1 : Nat) by omega]
    exact mktime_word (by omega) (by omega) _ _ _ _

/-- The comment above `mktime` is right: a date before the overflow is less than `2 ^ 32`. -/
lemma seconds_lt_of_before (hc : Shows tm c) (h : tm.toTm.Before overflowDate) :
    c.seconds < 2 ^ 32 := by
  have h₁ := c.day_le
  have h₂ := c.hour_lt
  have h₃ := c.minute_lt
  have h₄ := c.second_lt
  have h₅ := c.yearDay_lt
  have hmonth := le_monthLength c.year c.month
  have hsum : c.dayNumber = daysToYear c.year + daysToMonth c.year c.month + (c.day - 1) := by
    unfold CivilTime.dayNumber CivilTime.yearDay
    omega
  have h2106 : c.year = 2106 → daysToYear c.year = 49673 := fun h => h ▸ by
    rw [daysToYear_eq]
    rfl
  have hsecond : c.month = 1 → daysToMonth c.year c.month = 31 := fun h => by
    rw [h, daysToMonth_succ]
    rfl
  simp only [Tm.Before, overflowDate, RtcTime.toTm, hc.year, hc.mon, hc.mday, hc.hour, hc.min,
    hc.sec, List.cons_lt_cons_iff, List.not_lt_nil, and_false, or_false] at h
  unfold CivilTime.seconds
  rcases h with hyear | ⟨hyear, hrest⟩
  · have hmono := daysToYear_mono (show c.year + 1 ≤ 2106 by omega)
    rw [daysToYear_succ, show daysToYear 2106 = 49673 by rw [daysToYear_eq]; rfl] at hmono
    unfold CivilTime.dayNumber
    omega
  · rcases hrest with hmon | ⟨hmon, hrest⟩
    · have hfirst : c.month = 0 := by omega
      rw [hfirst, daysToMonth_zero] at hsum
      omega
    · omega

/-- Seconds and dates are converted into one another without loss. -/
theorem rtc_round_trip :
    (∀ t : Word, rtcValidTm (rtcTimeToTm t).toTm = 0 ∧
        (∃ c, Shows (rtcTimeToTm t) c ∧ (rtcTimeToTm t).wday.toInt = c.weekday) ∧
        rtcTmToTime (rtcTimeToTm t) = t) ∧
      ∀ tm : RtcTime, rtcValidTm tm.toTm = 0 → tm.toTm.Before overflowDate →
        (rtcTimeToTm (rtcTmToTime tm)).toTm = tm.toTm := by
  constructor
  · intro t
    obtain ⟨c, hshows, hseconds, hyear, hwday⟩ := rtcTimeToTm_spec t
    refine ⟨rtcValidTm_iff.mpr ⟨c, hshows, hyear⟩, ⟨c, hshows, hwday⟩, ?_⟩
    rw [rtcTmToTime_eq hshows hyear, hseconds, BitVec.ofInt_natCast, BitVec.ofNat_toNat,
      BitVec.setWidth_eq]
  · intro tm hvalid hbefore
    obtain ⟨c, hshows, hyear⟩ := rtcValidTm_iff.mp hvalid
    obtain ⟨c', hshows', hseconds, -, -⟩ := rtcTimeToTm_spec (rtcTmToTime tm)
    have hlt := seconds_lt_of_before hshows hbefore
    have hc : c' = c := by
      apply CivilTime.seconds_injective
      have hnonneg := CivilTime.seconds_nonneg hyear
      rw [hseconds, rtcTmToTime_eq hshows hyear, BitVec.toNat_ofInt]
      omega
    subst hc
    exact hshows'.toTm_eq hshows

/-- The last date before the overflow. -/
theorem rtc_round_trip_last :
    let tm : RtcTime := { year := 206, mon := 1, mday := 7, hour := 6, min := 28, sec := 15
                          wday := 0, yday := 0, isdst := 0 }
    rtcTmToTime tm = 0xffffffff ∧ (rtcTimeToTm (rtcTmToTime tm)).toTm = tm.toTm :=
  ⟨by decide, rtc_round_trip.2 _ (by decide) (by decide)⟩

end Mini2440.Rtc
