import Mathlib.Order.Monotone.Basic
import Mini2440.Errno
import Mini2440.Library.Words

/-!
# Reading the real time clock

`s3c_rtc_gettime` reads six registers one after the other while the clock goes on. The seconds are
read last. If they are zero the minute may have ended between the reads, and all registers are
read once more. Then the minute has just begun, and nothing but the seconds changes for a while.

The clock itself is hardware. `Time` and `Time.next` say what its registers count.
-/

namespace Mini2440.Rtc

open Library

structure Regs where
  sec : Byte
  min : Byte
  hour : Byte
  date : Byte
  mon : Byte
  year : Byte
  deriving DecidableEq, Repr

/-- The fields of `struct rtc_time` that the driver fills in. -/
structure Tm where
  sec : Int
  min : Int
  hour : Int
  mday : Int
  mon : Int
  year : Int
  deriving DecidableEq, Repr

def bcd2bin (val : Byte) : Nat := (val &&& 0x0f).toNat + (val >>> 4).toNat * 10

def bin2bcd (val : Nat) : Byte := BitVec.ofNat 8 ((val / 10) <<< 4 + val % 10)

def rtcDaysInMonth : List Nat := [31, 28, 31, 30, 31, 30, 31, 31, 30, 31, 30, 31]

def isLeapYear (year : Nat) : Bool := year % 4 = 0 ∧ year % 100 ≠ 0 ∨ year % 400 = 0

def rtcMonthDays (month year : Nat) : Nat :=
  rtcDaysInMonth.getD month 0 + if isLeapYear year = true ∧ month = 1 then 1 else 0

/-- The conversion of an `int` to `unsigned`. -/
def unsigned (x : Int) : Nat := (BitVec.ofInt 32 x).toNat

lemma unsigned_of_nonneg {x : Int} (h : 0 ≤ x) (hlt : x < 4294967296) : unsigned x = x.toNat := by
  rw [unsigned, BitVec.toNat_ofInt]
  omega

def rtcValidTm (tm : Tm) : Int :=
  if tm.year < 70 ∨ unsigned tm.mon ≥ 12 ∨ tm.mday < 1 ∨
      tm.mday > rtcMonthDays (unsigned tm.mon) (unsigned (tm.year + 1900)) ∨
      unsigned tm.hour ≥ 24 ∨ unsigned tm.min ≥ 60 ∨ unsigned tm.sec ≥ 60 then -EINVAL
  else 0

/-- One pass over the registers. `regs` are their contents at each access of the call, and the
pass starts with the access `k`. -/
def readRegs (regs : Nat → Regs) (k : Nat) : Regs where
  min := (regs k).min
  hour := (regs (k + 1)).hour
  date := (regs (k + 2)).date
  mon := (regs (k + 3)).mon
  year := (regs (k + 4)).year
  sec := (regs (k + 5)).sec

def decode (raw : Regs) : Tm where
  sec := bcd2bin raw.sec
  min := bcd2bin raw.min
  hour := bcd2bin raw.hour
  mday := bcd2bin raw.date
  mon := (bcd2bin raw.mon : Int) - 1
  year := bcd2bin raw.year + 100

def s3cRtcGettime (regs : Nat → Regs) : Int × Tm :=
  let raw := readRegs regs 0
  let raw := if raw.sec = 0 then readRegs regs 6 else raw
  (rtcValidTm (decode raw), decode raw)

def lastAccess (regs : Nat → Regs) : Nat := if (readRegs regs 0).sec = 0 then 11 else 5

/-! ## The clock -/

/-- The number of days in a month of the years 2000 to 2099. -/
def daysIn (mon year : Nat) : Nat :=
  if mon = 2 then if year % 4 = 0 then 29 else 28
  else if mon = 4 ∨ mon = 6 ∨ mon = 9 ∨ mon = 11 then 30
  else 31

structure Minute where
  min : Nat
  hour : Nat
  mday : Nat
  mon : Nat
  year : Nat
  min_lt : min < 60
  hour_lt : hour < 24
  mday_pos : 1 ≤ mday
  mday_le : mday ≤ daysIn mon year
  mon_pos : 1 ≤ mon
  mon_le : mon ≤ 12
  year_lt : year < 100

structure Time extends Minute where
  sec : Nat
  sec_lt : sec < 60

lemma daysIn_pos (mon year : Nat) : 1 ≤ daysIn mon year := by
  unfold daysIn
  split_ifs <;> decide

def Minute.next (m : Minute) : Minute :=
  if hmin : m.min < 59 then { m with min := m.min + 1, min_lt := by omega }
  else if hhour : m.hour < 23 then
    { m with min := 0, hour := m.hour + 1, min_lt := by decide, hour_lt := by omega }
  else if hday : m.mday < daysIn m.mon m.year then
    { m with
      min := 0, hour := 0, mday := m.mday + 1
      min_lt := by decide, hour_lt := by decide, mday_pos := by omega, mday_le := by omega }
  else if hmon : m.mon < 12 then
    { m with
      min := 0, hour := 0, mday := 1, mon := m.mon + 1
      min_lt := by decide, hour_lt := by decide, mday_pos := le_rfl, mday_le := daysIn_pos _ _
      mon_pos := by omega, mon_le := by omega }
  else
    { min := 0, hour := 0, mday := 1, mon := 1, year := (m.year + 1) % 100
      min_lt := by decide, hour_lt := by decide, mday_pos := le_rfl, mday_le := daysIn_pos _ _
      mon_pos := le_rfl, mon_le := by decide, year_lt := Nat.mod_lt _ (by decide) }

namespace Time

def next (t : Time) : Time :=
  if hsec : t.sec < 59 then { t with sec := t.sec + 1, sec_lt := by omega }
  else ⟨t.toMinute.next, 0, by decide⟩

def after (t : Time) : Nat → Time
  | 0 => t
  | n + 1 => (t.after n).next

def regs (t : Time) : Regs where
  sec := bin2bcd t.sec
  min := bin2bcd t.min
  hour := bin2bcd t.hour
  date := bin2bcd t.mday
  mon := bin2bcd t.mon
  year := bin2bcd t.year

/-- The time as `struct rtc_time` has it. -/
def tm (t : Time) : Tm where
  sec := t.sec
  min := t.min
  hour := t.hour
  mday := t.mday
  mon := (t.mon : Int) - 1
  year := t.year + 100

end Time

/-! ## What is read -/

lemma bcd2bin_bin2bcd : ∀ n < 100, bcd2bin (bin2bcd n) = n := by
  decide

lemma bin2bcd_eq_zero : ∀ n < 100, (bin2bcd n = 0 ↔ n = 0) := by
  decide

lemma daysIn_eq :
    ∀ year < 100, ∀ mon < 12, daysIn (mon + 1) year = rtcMonthDays mon (year + 2000) := by
  decide +kernel

lemma daysIn_le (mon year : Nat) : daysIn mon year ≤ 31 := by
  unfold daysIn
  split_ifs <;> decide

namespace Time

variable {t : Time} {n k : Nat}

lemma decode_regs (t : Time) : decode t.regs = t.tm := by
  have hmday := t.mday_le.trans (daysIn_le t.mon t.year)
  have hmon := t.mon_le
  have hmin := t.min_lt
  have hhour := t.hour_lt
  have hsec := t.sec_lt
  simp [decode, regs, tm, bcd2bin_bin2bcd _ t.year_lt, bcd2bin_bin2bcd t.mday (by omega),
    bcd2bin_bin2bcd t.mon (by omega), bcd2bin_bin2bcd t.min (by omega),
    bcd2bin_bin2bcd t.hour (by omega), bcd2bin_bin2bcd t.sec (by omega)]

lemma rtcValidTm_tm (t : Time) : rtcValidTm t.tm = 0 := by
  have hsec := t.sec_lt
  have hmin := t.min_lt
  have hhour := t.hour_lt
  have hpos := t.mon_pos
  have hle := t.mon_le
  have hyear := t.year_lt
  have hdays := daysIn_eq t.year t.year_lt (t.mon - 1) (by omega)
  have hmon : unsigned t.tm.mon = t.mon - 1 := by
    rw [unsigned_of_nonneg] <;> simp only [tm] <;> omega
  have hcentury : unsigned (t.tm.year + 1900) = t.year + 2000 := by
    rw [unsigned_of_nonneg] <;> simp only [tm] <;> omega
  have hday := t.mday_pos
  have hlast := t.mday_le
  rw [Nat.sub_add_cancel hpos] at hdays
  unfold rtcValidTm
  rw [hmon, hcentury]
  rw [unsigned_of_nonneg, unsigned_of_nonneg, unsigned_of_nonneg] <;> simp only [tm] <;> omega

lemma next_of_lt (h : t.sec < 59) : t.next.toMinute = t.toMinute ∧ t.next.sec = t.sec + 1 := by
  rw [next, dif_pos h]
  exact ⟨rfl, rfl⟩

lemma next_sec_of_ge (h : ¬ t.sec < 59) : t.next.sec = 0 := by
  rw [next, dif_neg h]

lemma after_add (h : (t.after n).sec + k < 60) :
    (t.after (n + k)).toMinute = (t.after n).toMinute ∧
      (t.after (n + k)).sec = (t.after n).sec + k := by
  induction k with
  | zero => exact ⟨rfl, rfl⟩
  | succ k ih =>
    obtain ⟨hminute, hsec⟩ := ih (by omega)
    have hnext := next_of_lt (t := t.after (n + k)) (by omega)
    exact ⟨hnext.1.trans hminute, by rw [← Nat.add_assoc, after, hnext.2, hsec, Nat.add_assoc]⟩

/-- A pass in which the minute does not change reads the time at its last access. -/
lemma readRegs_eq {ticks : Nat → Nat} {k : Nat}
    (h : ∀ j, k ≤ j → j ≤ k + 5 →
      (t.after (ticks j)).toMinute = (t.after (ticks (k + 5))).toMinute) :
    readRegs (fun j => (t.after (ticks j)).regs) k = (t.after (ticks (k + 5))).regs := by
  simp [readRegs, regs, h k le_rfl (by omega), h (k + 1) (by omega) (by omega),
    h (k + 2) (by omega) (by omega), h (k + 3) (by omega) (by omega),
    h (k + 4) (by omega) (by omega)]

variable {ticks : Nat → Nat}

/-- If the seconds that a pass has read are not zero, its minute has not ended. -/
lemma readRegs_of_ne_zero (hmono : Monotone ticks) (hpass : ticks 5 ≤ ticks 0 + 1)
    (hsec : (t.after (ticks 5)).sec ≠ 0) :
    readRegs (fun j => (t.after (ticks j)).regs) 0 = (t.after (ticks 5)).regs := by
  refine readRegs_eq (k := 0) fun j _ hj => ?_
  have hfirst : ticks 0 ≤ ticks j := hmono (Nat.zero_le j)
  have hlast : ticks j ≤ ticks 5 := hmono hj
  obtain heq | heq : ticks 5 = ticks j ∨ ticks 5 = ticks j + 1 := by omega
  · rw [heq]
  · have hlt : (t.after (ticks j)).sec < 59 := by
      by_contra hge
      rw [heq, after, next_sec_of_ge hge] at hsec
      exact hsec rfl
    rw [heq, (after_add (k := 1) (by omega)).1]

lemma readRegs_of_eq_zero (hmono : Monotone ticks) (htotal : ticks 11 ≤ ticks 0 + 2)
    (hsec : (t.after (ticks 5)).sec = 0) :
    readRegs (fun j => (t.after (ticks j)).regs) 6 = (t.after (ticks 11)).regs := by
  have hminute : ∀ j, 6 ≤ j → j ≤ 11 →
      (t.after (ticks j)).toMinute = (t.after (ticks 5)).toMinute := by
    intro j hge hle
    have hfirst : ticks 0 ≤ ticks 5 := hmono (by decide)
    have hnext : ticks 5 ≤ ticks j := hmono (by omega)
    have hlast : ticks j ≤ ticks 11 := hmono hle
    obtain ⟨d, hd⟩ := Nat.exists_eq_add_of_le hnext
    rw [hd]
    exact (after_add (by omega)).1
  refine readRegs_eq (k := 6) fun j hge hle => ?_
  rw [hminute j hge hle, hminute 11 (by decide) (by decide)]

end Time

/-- Whatever the time and wherever the ticks fall, at most one of them in the first pass and two in
the call, the time that is returned is the time of the clock at one of the accesses. -/
theorem gettime_not_torn (t : Time) (ticks : Nat → Nat) (hmono : Monotone ticks)
    (hpass : ticks 5 ≤ ticks 0 + 1) (htotal : ticks 11 ≤ ticks 0 + 2) :
    let regs := fun k => (t.after (ticks k)).regs
    ∃ k ≤ lastAccess regs, s3cRtcGettime regs = (0, (t.after (ticks k)).tm) := by
  intro regs
  have hsec :=
    bin2bcd_eq_zero (t.after (ticks 5)).sec (by have := (t.after (ticks 5)).sec_lt; omega)
  by_cases hzero : (readRegs regs 0).sec = 0
  · refine ⟨11, by rw [lastAccess, if_pos hzero], ?_⟩
    have hread := Time.readRegs_of_eq_zero hmono htotal (hsec.mp hzero)
    simp only [s3cRtcGettime, if_pos hzero]
    rw [hread, Time.decode_regs, Time.rtcValidTm_tm]
  · refine ⟨5, by rw [lastAccess, if_neg hzero], ?_⟩
    have hread := Time.readRegs_of_ne_zero hmono hpass (hsec.not.mp hzero)
    simp only [s3cRtcGettime, if_neg hzero]
    rw [hread, Time.decode_regs, Time.rtcValidTm_tm]

def endOfYear : Time where
  min := 59
  hour := 23
  mday := 31
  mon := 12
  year := 12
  sec := 59
  min_lt := by decide
  hour_lt := by decide
  mday_pos := by decide
  mday_le := by decide
  mon_pos := by decide
  mon_le := by decide
  year_lt := by decide
  sec_lt := by decide

/-- The year ends after the minutes have been read. -/
theorem endOfYear_not_torn :
    let regs := fun k => (endOfYear.after (if k = 0 then 0 else 1)).regs
    (readRegs regs 0).min ≠ (readRegs regs 6).min ∧
      ∃ k ≤ lastAccess regs, s3cRtcGettime regs =
        (0, (endOfYear.after (if k = 0 then 0 else 1)).tm) := by
  refine ⟨by decide, gettime_not_torn endOfYear (fun k => if k = 0 then 0 else 1) ?_ (by decide)
    (by decide)⟩
  intro j k hjk
  simp only
  split_ifs <;> omega

end Mini2440.Rtc
