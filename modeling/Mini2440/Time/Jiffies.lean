import Mathlib.Algebra.Group.Nat.Defs
import Mathlib.Data.Set.Basic
import Mathlib.Order.Bounds.Defs

/-!
# Times in jiffies

`timespec_to_jiffies` and `timeval_to_jiffies` of `kernel/time.c` divide by a tick with a
multiplication by a scaled reciprocal, which is rounded up. The nanoseconds are rounded up before
the multiplication and come out right. The microseconds are rounded up after it, when a whole number
of ticks has already become a little more.
-/

namespace Mini2440.Time

/-! ## The constants of `jiffies.h` for 200 ticks a second -/

def hz : Nat := 200

def shiftHz : Nat := 8

def nsecPerSec : Nat := 1000000000

def nsecPerUsec : Nat := 1000

def tickNsec : Nat := (nsecPerSec + hz / 2) / hz

def secJiffieSc : Nat :=
  if (nsecPerSec <<< 2 / tickNsec) <<< (31 - shiftHz - 2) &&& 0x80000000 = 0 then 32 - shiftHz
  else 31 - shiftHz

def nsecJiffieSc : Nat := secJiffieSc + 29

def usecJiffieSc : Nat := secJiffieSc + 19

/-- A number of nanoseconds in ticks, scaled by `sc` bits and rounded up. -/
def conversion (nsec sc : Nat) : Nat := (nsec <<< sc + tickNsec - 1) / tickNsec

def secConversion : Nat := conversion nsecPerSec secJiffieSc

def nsecConversion : Nat := conversion 1 nsecJiffieSc

def usecConversion : Nat := conversion nsecPerUsec usecJiffieSc

def usecRound : Nat := 1 <<< usecJiffieSc - 1

def maxJiffyOffset : Nat := (2 ^ 31 - 1) >>> 1 - 1

def maxSecInJiffies : Nat := maxJiffyOffset * tickNsec / nsecPerSec

lemma constants : tickNsec = 5000000 ∧ secJiffieSc = 24 ∧ nsecJiffieSc = 53 ∧ usecJiffieSc = 43 ∧
    secConversion = 3355443200 ∧ nsecConversion = 1801439851 ∧ usecConversion = 1759218605 ∧
    usecRound = 2 ^ 43 - 1 ∧ maxSecInJiffies = 5368709 := by
  decide

/-! ## The conversions -/

/-- `struct timespec`, for times from zero on. -/
structure Timespec where
  tvSec : Nat
  tvNsec : Nat

structure Timeval where
  tvSec : Nat
  tvUsec : Nat

/-- Seconds and a part of a second in scaled jiffies, as jiffies. -/
def scaled (sec part : Nat) : Nat :=
  ((sec * secConversion + part) % 2 ^ 64) >>> secJiffieSc % 2 ^ 32

def timespecToJiffies (value : Timespec) : Nat :=
  let (sec, nsec) := if maxSecInJiffies ≤ value.tvSec then (maxSecInJiffies, 0)
    else (value.tvSec, value.tvNsec + tickNsec - 1)
  scaled sec ((nsec * nsecConversion % 2 ^ 64) >>> (nsecJiffieSc - secJiffieSc))

def timevalToJiffies (value : Timeval) : Nat :=
  let (sec, usec) := if maxSecInJiffies ≤ value.tvSec then (maxSecInJiffies, 0)
    else (value.tvSec, value.tvUsec)
  scaled sec (((usec * usecConversion + usecRound) % 2 ^ 64) >>> (usecJiffieSc - secJiffieSc))

def jiffiesToTimespec (jiffies : Nat) : Timespec :=
  let nsec := jiffies * tickNsec % 2 ^ 64
  ⟨nsec / nsecPerSec, nsec % nsecPerSec⟩

def jiffiesToTimeval (jiffies : Nat) : Timeval :=
  let nsec := jiffies * tickNsec % 2 ^ 64
  ⟨nsec / nsecPerSec, nsec % nsecPerSec / nsecPerUsec⟩

variable {sec n : Nat} (hsec : sec < maxSecInJiffies)

include hsec

lemma scaled_eq (hn : n < 2 ^ 32) : scaled sec n = sec * hz + n / 2 ^ secJiffieSc := by
  obtain ⟨-, hsc, -, -, hconv, -, -, -, hmax⟩ := constants
  rw [scaled, Nat.shiftRight_eq_div_pow, hsc, hconv, hz]
  omega

lemma timespecToJiffies_eq (hn : n < nsecPerSec) :
    timespecToJiffies ⟨sec, n⟩ = sec * hz + (n + tickNsec - 1) / tickNsec := by
  obtain ⟨htick, hsc, hnsc, -, -, hconv, -, -, hmax⟩ := constants
  rw [nsecPerSec] at hn
  simp only [timespecToJiffies, if_neg (Nat.not_le.mpr hsec)]
  rw [Nat.mod_eq_of_lt (by rw [hconv, htick]; omega), scaled_eq hsec] <;>
    rw [Nat.shiftRight_eq_div_pow, hconv, hnsc, hsc, htick]
  all_goals omega

lemma timevalToJiffies_eq (hn : n < 10 ^ 6) :
    timevalToJiffies ⟨sec, n⟩ = sec * hz + if n = 0 then 0 else n / 5000 + 1 := by
  obtain ⟨-, hsc, -, husc, -, -, hconv, hround, hmax⟩ := constants
  simp only [timevalToJiffies, if_neg (Nat.not_le.mpr hsec)]
  rw [Nat.mod_eq_of_lt (by rw [hconv, hround]; omega), scaled_eq hsec] <;>
    rw [Nat.shiftRight_eq_div_pow, hconv, hround, husc, hsc]
  · split <;> omega
  · omega

omit hsec

/-- The result is the time in ticks, rounded up, and the calculation stays within 64 bits. -/
theorem timespecToJiffies_least :
    (∀ sec < maxSecInJiffies, ∀ nsec < nsecPerSec,
      IsLeast {n | sec * nsecPerSec + nsec ≤ n * tickNsec} (timespecToJiffies ⟨sec, nsec⟩) ∧
        sec * secConversion + (nsec + tickNsec - 1) * nsecConversion < 2 ^ 64) ∧
    ∀ j < 2 ^ 32, (jiffiesToTimespec j).tvSec < maxSecInJiffies →
      timespecToJiffies (jiffiesToTimespec j) = j := by
  obtain ⟨htick, -, -, -, hsconv, hconv, -, -, hmax⟩ := constants
  refine ⟨fun sec hsec nsec hnsec => ⟨?_, ?_⟩, fun j hj hlt => ?_⟩
  · rw [timespecToJiffies_eq hsec hnsec, htick, nsecPerSec, hz]
    refine ⟨?_, fun n hn => ?_⟩
    · rw [Set.mem_ofPred_eq]
      omega
    · rw [Set.mem_ofPred_eq] at hn
      omega
  · rw [nsecPerSec] at hnsec
    rw [hsconv, hconv, htick]
    omega
  · simp only [jiffiesToTimespec, nsecPerSec, htick] at hlt ⊢
    rw [timespecToJiffies_eq hlt (by rw [nsecPerSec]; omega), htick, hz]
    omega

/-- A nanosecond more than two seconds takes a tick more. -/
theorem twoSeconds_timespec :
    IsLeast {n | 2 * nsecPerSec + 1 ≤ n * tickNsec} (timespecToJiffies ⟨2, 1⟩) ∧
      timespecToJiffies ⟨2, 1⟩ = 2 * hz + 1 :=
  ⟨(timespecToJiffies_least.1 2 (by decide) 1 (by decide)).1, by decide⟩

/-- A whole number of ticks in the microseconds is rounded up to the next one. -/
theorem timevalToJiffies_least_iff (sec usec : Nat) (hsec : sec < maxSecInJiffies)
    (husec : usec < 10 ^ 6) :
    (IsLeast {n | sec * nsecPerSec + usec * nsecPerUsec ≤ n * tickNsec}
        (timevalToJiffies ⟨sec, usec⟩) ↔ (tickNsec ∣ usec * nsecPerUsec → usec = 0)) ∧
    ∀ j < 2 ^ 32, jiffiesToTimeval j = ⟨sec, usec⟩ →
      (timevalToJiffies ⟨sec, usec⟩ = j ↔ (tickNsec ∣ usec * nsecPerUsec → usec = 0)) := by
  have htick := constants.1
  rw [timevalToJiffies_eq hsec husec, htick, nsecPerSec, nsecPerUsec, hz]
  refine ⟨⟨?_, fun hcond => ⟨?_, fun n hn => ?_⟩⟩, fun j hj heq => ?_⟩
  · rintro ⟨-, hleast⟩ hdvd
    have hle := @hleast (sec * 200 + usec / 5000) (by rw [Set.mem_ofPred_eq]; omega)
    split at hle <;> omega
  · rw [Set.mem_ofPred_eq]
    split <;> omega
  · rw [Set.mem_ofPred_eq] at hn
    split <;> omega
  · have hsmall : j * 5000000 % 2 ^ 64 = j * 5000000 := by omega
    simp only [jiffiesToTimeval, nsecPerSec, nsecPerUsec, htick, hsmall, Timeval.mk.injEq] at heq
    split <;> omega

theorem microsecond_timeval :
    IsLeast {n | 0 * nsecPerSec + 1 * nsecPerUsec ≤ n * tickNsec} (timevalToJiffies ⟨0, 1⟩) :=
  (timevalToJiffies_least_iff 0 1 (by decide) (by decide)).1.mpr (by decide)

/-- One tick becomes two. -/
theorem tick_timeval : timevalToJiffies (jiffiesToTimeval 1) = 2 := by
  decide

end Mini2440.Time
