import Mini2440.Library.Bits
import Mini2440.Library.Run
import Mini2440.Library.Words

/-!
# Resuming the GPIO banks

A bank is resumed in three steps: the pins that must not show the saved data get their configuration
first, then the data is written, then all configurations. `samsung_gpio_pm_4bit_mask` looks at four
of the eight pins in a register only, so the other ones show the saved data in their old mode.
-/

namespace Mini2440.Gpio

open BitVec Library Function

/-- The registers of a bank, or their saved values; `con true` is the register at `base - 4`. -/
structure Bank where
  con : Bool → Word
  dat : Word
  up : Word

inductive Write
  | con (low : Bool) (v : Word)
  | dat (v : Word)
  | up (v : Word)

def Bank.write (b : Bank) : Write → Bank
  | .con low v => { b with con := update b.con low v }
  | .dat v => { b with dat := v }
  | .up v => { b with up := v }

def isSfn (con : Word) : Prop := 2 ≤ con
def isIn (con : Word) : Prop := con = 0
def isOut (con : Word) : Prop := con = 1

instance (con : Word) : Decidable (isSfn con) := inferInstanceAs (Decidable (2 ≤ con))
instance (con : Word) : Decidable (isIn con) := inferInstanceAs (Decidable (con = 0))
instance (con : Word) : Decidable (isOut con) := inferInstanceAs (Decidable (con = 1))

/-- The configuration has to be changed before the data. -/
def First (old new : Word) : Prop :=
  ¬ (old = new ∨ isSfn old ∧ isSfn new ∨ isIn old ∧ isOut new ∨ isSfn old ∧ isOut new)

instance (old new : Word) : Decidable (First old new) := inferInstanceAs (Decidable (¬ _))

/-- The loop over `n` pins of `w` bits each. -/
def changeMask (w : Nat) (old new : Word) : Nat → Word
  | 0 => 0
  | n + 1 => changeMask w old new n |||
      if First (field (w * n) w old) (field (w * n) w new) then mask 32 w <<< (w * n) else 0

def firstCon (w n : Nat) (old new : Word) : Word :=
  old &&& ~~~changeMask w old new n ||| new &&& changeMask w old new n

/-- `samsung_gpio_pm_2bit_resume` up to the data. -/
def before2 (old saved : Bank) : List Write :=
  [.up saved.up, .con false (firstCon 2 16 (old.con false) (saved.con false))]

def after2 (saved : Bank) : List Write := [.con false (saved.con false)]

/-- `samsung_gpio_pm_4bit_resume` up to the data. -/
def before4 (ngpio : Nat) (old saved : Bank) : List Write :=
  .con false (firstCon 4 4 (old.con false) (saved.con false)) ::
    if 8 < ngpio then [.con true (firstCon 4 4 (old.con true) (saved.con true))] else []

def after4 (ngpio : Nat) (saved : Bank) : List Write :=
  .con false (saved.con false) :: (if 8 < ngpio then [.con true (saved.con true)] else []) ++
    [.dat saved.dat, .up saved.up]

def cfg2 (b : Bank) (pin : Nat) : Word := field (2 * pin) 2 (b.con false)

/-- The configuration of a pin in a 4-bit bank; with more than eight pins the first eight of them
are in the lower register. -/
def cfg4 (ngpio : Nat) (b : Bank) (pin : Nat) : Word :=
  field (4 * (pin % 8)) 4 (b.con (8 < ngpio ∧ pin < 8))

/-- While the old data is there, only old outputs drive it; from then on, only saved outputs do. In
the end the registers, of which there are two for the configuration if `wide`, are as saved. -/
def Resumes (cfg : Bank → Nat → Word) (n : Nat) (wide : Bool) (old saved : Bank)
    (before after : List Write) : Prop :=
  let written := runFrom Bank.write old (before ++ [.dat saved.dat])
  let last := runFrom Bank.write written after
  (∀ t ∈ visits Bank.write old before, ∀ pin < n, isOut (cfg t pin) → isOut (cfg old pin)) ∧
    (∀ t ∈ visits Bank.write written after, ∀ pin < n,
      isOut (cfg t pin) → isOut (cfg saved pin)) ∧
    last.con false = saved.con false ∧ (wide → last.con true = saved.con true) ∧
    last.dat = saved.dat ∧ last.up = saved.up

variable {w n k : Nat} {old new : Word}

lemma getLsbD_changeMask (hw : 0 < w) {i : Nat} (hi : i < w) (hk : w * k + w ≤ 32) :
    (changeMask w old new n).getLsbD (w * k + i) =
      decide (k < n ∧ First (field (w * k) w old) (field (w * k) w new)) := by
  induction n with
  | zero => simp [changeMask]
  | succ n ih =>
    rw [changeMask, getLsbD_or, ih]
    by_cases hkn : k = n
    · subst hkn
      split_ifs with h
      · simp [h, getLsbD_mask, hi]
        omega
      · simp [h]
    · have hout : (mask 32 w <<< (w * n)).getLsbD (w * k + i) = false := by
        rcases Nat.lt_or_gt_of_ne hkn with hlt | hgt
        · have hle : w * (k + 1) ≤ w * n := Nat.mul_le_mul_left w hlt
          simp [show w * k + i < w * n by grind]
        · have hle : w * (n + 1) ≤ w * k := Nat.mul_le_mul_left w hgt
          simp [getLsbD_mask, show ¬ w * k + i - w * n < w by grind]
      split_ifs <;> simp [hout] <;> grind

lemma field_firstCon (old new : Word) (hw : 0 < w) (hk : w * k + w ≤ 32) :
    field (w * k) w (firstCon w n old new) =
      if k < n ∧ First (field (w * k) w old) (field (w * k) w new) then field (w * k) w new
      else field (w * k) w old := by
  apply eq_of_getLsbD_eq
  intro i hi
  by_cases hiw : i < w
  · have hbit : w * k + i < 32 := by omega
    rw [getLsbD_field, firstCon, getLsbD_or, getLsbD_and, getLsbD_and, getLsbD_not,
      getLsbD_changeMask hw hiw hk]
    split_ifs with h <;> simp [h, hiw, hbit, getLsbD_field]
  · split_ifs <;> simp [getLsbD_field, hiw]

lemma First.not_out (h : First old new) : ¬ isOut new := by
  have hmode : isIn old ∨ isOut old ∨ isSfn old := by
    simp only [isIn, isOut, isSfn]
    bv_omega
  grind [First, isOut]

/-- What is an output after the first change was one before and is to be one. -/
lemma out_firstCon (old new : Word) (hw : 0 < w) (hk : w * k + w ≤ 32)
    (h : isOut (field (w * k) w (firstCon w n old new))) :
    isOut (field (w * k) w old) ∧ (k < n → isOut (field (w * k) w new)) := by
  rw [field_firstCon old new hw hk] at h
  split_ifs at h with hfirst
  · exact absurd h hfirst.2.not_out
  · refine ⟨h, fun hlt => ?_⟩
    have hlast : ¬ First (field (w * k) w old) (field (w * k) w new) := fun hf => hfirst ⟨hlt, hf⟩
    grind [First, isOut, isIn, isSfn]

/-- In a 2-bit bank the configuration of a pin is also at every point the old or the saved one. -/
theorem resume2_spec (old saved : Bank) :
    Resumes cfg2 16 false old saved (before2 old saved) (after2 saved) ∧
      ∀ t ∈ visits Bank.write old (before2 old saved ++ .dat saved.dat :: after2 saved),
        ∀ pin < 16, cfg2 t pin = cfg2 old pin ∨ cfg2 t pin = cfg2 saved pin := by
  have hcfg : ∀ pin < 16, _ := fun pin hpin =>
    field_firstCon (w := 2) (n := 16) (k := pin) (old.con false) (saved.con false) (by decide)
      (by omega)
  have hout : ∀ pin < 16, _ := fun pin hpin =>
    out_firstCon (w := 2) (n := 16) (k := pin) (old.con false) (saved.con false) (by decide)
      (by omega)
  constructor
  · simp [Resumes, before2, after2, Bank.write, cfg2]
    grind
  · simp [before2, after2, Bank.write, cfg2]
    grind

/-- A 4-bit bank is resumed without a glitch if and only if none of the upper four pins of a
register goes from an output to something else. -/
theorem resume4_iff (ngpio : Nat) (old saved : Bank) :
    Resumes (cfg4 ngpio) ngpio (8 < ngpio) old saved (before4 ngpio old saved)
        (after4 ngpio saved) ↔
      ∀ pin < ngpio, 4 ≤ pin % 8 → isOut (cfg4 ngpio old pin) → isOut (cfg4 ngpio saved pin) := by
  have hcfg : ∀ low pin, _ := fun low pin =>
    field_firstCon (w := 4) (n := 4) (k := pin % 8) (old.con low) (saved.con low) (by decide)
      (by omega)
  have hout : ∀ low pin, _ := fun low pin =>
    out_firstCon (w := 4) (n := 4) (k := pin % 8) (old.con low) (saved.con low) (by decide)
      (by omega)
  by_cases h8 : 8 < ngpio
  · simp [Resumes, before4, after4, h8, Bank.write, cfg4]
    constructor
    · -- the first point with the saved data
      rintro ⟨-, h, -⟩ pin hpin hhigh hold
      have hpin := h pin hpin
      by_cases hlow : pin < 8
      · grind
      · grind
    · intro h
      refine ⟨⟨?_, ?_⟩, ?_, ?_, ?_⟩
      all_goals grind
  · simp [Resumes, before4, after4, h8, Bank.write, cfg4]
    grind

/-- Pin 4 of eight is an output before and an input afterwards, and drives the saved data. -/
theorem pin4_glitch :
    let old : Bank := ⟨fun _ => 0x10000, 0, 0⟩
    let saved : Bank := ⟨fun _ => 0, 0x10, 0⟩
    let t := runFrom Bank.write old (before4 8 old saved ++ [.dat saved.dat])
    isOut (cfg4 8 t 4) ∧ t.dat = saved.dat ∧ isIn (cfg4 8 saved 4) := by
  decide

end Mini2440.Gpio
