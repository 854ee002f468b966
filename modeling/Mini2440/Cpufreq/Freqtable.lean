import Mini2440.Cpufreq.Chip
import Mini2440.Errno

/-!
# The frequency table of the S3C2440

`s3c_cpufreq_build_freq` runs `s3c2440_cpufreq_calctable` twice, first without a table to learn its
size and then to fill it. Both passes walk the divisors with `run_freq_for`, which reads the first
one again when it moves on from it: the loop starts with `div = *divs` and goes on with
`div = *divs++`. The table therefore begins with the frequency of the PLL twice.
-/

namespace Mini2440.Cpufreq

open List

def tableEnd : Nat := 2 ^ 32 - 2

/-- `s3c_cpufreq_addfreq`: the next index, and the table if there is one. -/
def addfreq (table : Option (List Entry)) (index : Int) (tableSize freq : Nat) :
    Int × Option (List Entry) :=
  if index < 0 then (index, table)
  else
    match table with
    | none => (index + 1, none)
    | some entries =>
      if index ≥ tableSize then (-ENOMEM, some entries)
      else (index + 1, some (entries.set index.toNat ⟨index.toNat, freq⟩))

section Walk

variable (maxHclk fclk tableSize : Nat)

/-- The loop of `run_freq_for` from a value of `div` on; the list is what `divs` points to. -/
def runFreqLoop : List Int → Int → Int → Option (List Entry) → Int × Option (List Entry)
  | divs, div, index, table =>
    if div > 0 then
      let freq := fclk / div.toNat
      if freq > maxHclk ∧ div ≠ 1 then
        match divs with
        | [] => (index, table)
        | div :: divs => runFreqLoop divs div index table
      else
        let (index, table) := addfreq table index tableSize (freq / 1000)
        if index < 0 then (index, table)
        else
          match divs with
          | [] => (index, table)
          | div :: divs => runFreqLoop divs div index table
    else (index, table)

/-- `run_freq_for`. The divisors end with one that is not positive, so that the loop stops before
the end of the array. -/
def runFreqFor (divs : List Int) (table : Option (List Entry)) : Int × Option (List Entry) :=
  match divs with
  | [] => (0, table)
  | div :: _ => runFreqLoop maxHclk fclk tableSize divs div 0 table

end Walk

def hclkDivs : List Int := [1, 2, 3, 4, 6, 8, -1]

/-- `s3c2440_cpufreq_calctable`, for the limits of `cfg->info`. -/
def s3c2440Calctable (max : Freq) (table : Option (List Entry)) (tableSize : Nat) :
    Int × Option (List Entry) :=
  runFreqFor max.hclk max.fclk tableSize hclkDivs table

/-- `s3c_cpufreq_build_freq`: what it returns and the table that it leaves. `kmalloc` gives the
contents of the memory that it finds, or fails. -/
def buildFreq (max : Freq) (kmalloc : Option (Nat → Entry)) : Int × Option (List Entry) :=
  let size := (s3c2440Calctable max none 0).1
  let size := (size + 1).toNat
  match kmalloc with
  | none => (-ENOMEM, none)
  | some contents =>
    let ftab := (range size).map contents
    let (ret, ftab) := s3c2440Calctable max (some ftab) size
    (0, (addfreq ftab ret size tableEnd).2)

/-! ## What a walk adds -/

variable {maxHclk fclk tableSize : Nat}

def kept (maxHclk fclk : Nat) : List Int → Int → List Nat
  | divs, div =>
    if div > 0 then
      let freq := fclk / div.toNat
      let rest :=
        match divs with
        | [] => []
        | div :: divs => kept maxHclk fclk divs div
      if freq > maxHclk ∧ div ≠ 1 then rest else freq / 1000 :: rest
    else []

/-- The entries with these frequencies, numbered from `index` on. -/
def numbered : Nat → List Nat → List Entry
  | _, [] => []
  | index, freq :: freqs => ⟨index, freq⟩ :: numbered (index + 1) freqs

@[simp] lemma map_frequency_numbered (index : Nat) (freqs : List Nat) :
    (numbered index freqs).map Entry.frequency = freqs := by
  induction freqs generalizing index with
  | nil => rfl
  | cons freq freqs ih => rw [numbered, map_cons, ih]

@[simp] lemma length_numbered (index : Nat) (freqs : List Nat) :
    (numbered index freqs).length = freqs.length := by
  induction freqs generalizing index with
  | nil => rfl
  | cons freq freqs ih => rw [numbered, length_cons, ih, length_cons]

/-- The table with these frequencies at the index and behind it. -/
def fill (table : Option (List Entry)) (index : Nat) (freqs : List Nat) : Option (List Entry) :=
  table.map fun entries =>
    entries.take index ++ numbered index freqs ++ entries.drop (index + freqs.length)

def Room (table : Option (List Entry)) (tableSize index count : Nat) : Prop :=
  ∀ entries, table = some entries → entries.length = tableSize ∧ index + count ≤ tableSize

variable {table : Option (List Entry)} {index count : Nat} {freq : Nat} {freqs : List Nat}

lemma Room.mono {count' : Nat} (h : Room table tableSize index count) (hle : count' ≤ count) :
    Room table tableSize index count' := by
  intro entries hentries
  obtain ⟨hlength, hroom⟩ := h entries hentries
  exact ⟨hlength, by omega⟩

lemma fill_nil (table : Option (List Entry)) (index : Nat) : fill table index [] = table := by
  cases table <;> simp [fill, numbered]

lemma addfreq_eq_fill (h : Room table tableSize index 1) (freq : Nat) :
    addfreq table index tableSize freq = (((index + 1 : Nat) : Int), fill table index [freq]) := by
  rw [addfreq.eq_def]
  cases table with
  | none => rfl
  | some entries =>
    obtain ⟨hlength, hroom⟩ := h entries rfl
    have hlt : ¬(index : Int) ≥ tableSize := by omega
    have hindex : index < entries.length := by omega
    simp only [hlt, Int.toNat_natCast, fill, set_eq_take_append_cons_drop, hindex, append_assoc]
    rfl

lemma fill_cons (h : Room table tableSize index (freqs.length + 1)) :
    fill (fill table index [freq]) (index + 1) freqs = fill table index (freq :: freqs) := by
  cases table with
  | none => rfl
  | some entries =>
    obtain ⟨hlength, hroom⟩ := h entries rfl
    have htake : (entries.take index).length = index := by
      rw [length_take]
      omega
    simp only [fill, Option.map_some, numbered, append_assoc]
    rw [take_append, drop_append, htake]
    have h2 : index + 1 + freqs.length - index = freqs.length + 1 := by omega
    rw [take_of_length_le (by omega)]
    simp [Nat.add_comm, Nat.add_left_comm]

lemma Room.fill (h : Room table tableSize index (count + 1)) (freq : Nat) :
    Room (fill table index [freq]) tableSize (index + 1) count := by
  intro entries hentries
  cases table with
  | none => cases hentries
  | some old =>
    obtain ⟨hlength, hroom⟩ := h old rfl
    obtain rfl : _ = entries := Option.some.inj hentries
    refine ⟨?_, by omega⟩
    simp only [length_append, length_take, length_drop, length_numbered, length_singleton]
    omega

/-- The loop adds the frequencies that are kept, in their order. -/
lemma runFreqLoop_eq (divs : List Int) (div : Int)
    (h : Room table tableSize index (kept maxHclk fclk divs div).length) :
    runFreqLoop maxHclk fclk tableSize divs div index table =
      (((index + (kept maxHclk fclk divs div).length : Nat) : Int),
        fill table index (kept maxHclk fclk divs div)) := by
  induction divs generalizing div index table with
  | nil =>
    by_cases hdiv : div > 0
    · by_cases hskip : fclk / div.toNat > maxHclk ∧ div ≠ 1
      · simp [runFreqLoop, kept, hskip, fill_nil]
      · rw [kept, if_pos hdiv, if_neg hskip] at h
        have hadd := addfreq_eq_fill (h.mono (by simp)) (fclk / div.toNat / 1000)
        rw [runFreqLoop, kept]
        simp only [hdiv, hskip, hadd]
        rfl
    · simp [runFreqLoop, kept, hdiv, fill_nil]
  | cons next divs ih =>
    by_cases hdiv : div > 0
    · by_cases hskip : fclk / div.toNat > maxHclk ∧ div ≠ 1
      · rw [kept, if_pos hdiv, if_pos hskip] at h
        rw [runFreqLoop, kept]
        simp only [hdiv, if_pos hskip]
        exact ih next h
      · rw [kept, if_pos hdiv, if_neg hskip] at h
        have hadd := addfreq_eq_fill (h.mono (by simp)) (fclk / div.toNat / 1000)
        have hrest := ih next (h.fill (fclk / div.toNat / 1000))
        rw [runFreqLoop, kept]
        simp only [hdiv, if_true, hskip, if_false, hadd]
        rw [if_neg (by omega)]
        rw [hrest, fill_cons h, length_cons, Nat.add_right_comm, Nat.add_assoc]
    · simp [runFreqLoop, kept, hdiv, fill_nil]

/-! ## The table -/

/-- The frequencies that the table is for, one for each divisor that keeps the bus clock to its
limit. -/
def wanted (max : Freq) : List Nat :=
  (hdivs.filter fun d => d = 1 ∨ max.fclk / d ≤ max.hclk).map fun d => max.fclk / d / 1000

/-- Both passes find the first divisor twice. -/
lemma kept_hclkDivs (max : Freq) :
    kept max.hclk max.fclk hclkDivs 1 = max.fclk / 1000 :: wanted max := by
  simp only [hclkDivs, kept, wanted, hdivs]
  grind

lemma calctable_eq {max : Freq} (h : Room table tableSize 0 ((wanted max).length + 1)) :
    s3c2440Calctable max table tableSize =
      ((((wanted max).length + 1 : Nat) : Int), fill table 0 (max.fclk / 1000 :: wanted max)) := by
  have hlength : (kept max.hclk max.fclk hclkDivs 1).length = (wanted max).length + 1 := by
    rw [kept_hclkDivs, length_cons]
  have hloop := runFreqLoop_eq hclkDivs 1 (hlength ▸ h)
  rw [kept_hclkDivs, zero_add] at hloop
  exact hloop

/-- A table that has the size of the first pass and an entry for the end, is terminated by it, and
lists the wanted frequencies once each. -/
def Complete (max : Freq) (ftab : List Entry) : Prop :=
  ∃ entries index, ftab = entries ++ [⟨index, tableEnd⟩] ∧
    (entries.length : Int) = (s3c2440Calctable max none 0).1 ∧
    (entries.map Entry.frequency).Perm (wanted max)

/-- The table that is built has the size of the first pass and ends as it should, but the
frequency of the PLL stands in it once more than it should, whatever the limits are. -/
theorem buildFreq_not_complete (max : Freq) (contents : Nat → Entry) :
    ∃ entries index, buildFreq max (some contents) = (0, some (entries ++ [⟨index, tableEnd⟩])) ∧
      (entries.length : Int) = (s3c2440Calctable max none 0).1 ∧
      entries.map Entry.frequency = max.fclk / 1000 :: wanted max ∧
      ¬Complete max (entries ++ [⟨index, tableEnd⟩]) := by
  let n := (wanted max).length + 1
  let freqs := max.fclk / 1000 :: wanted max
  have hsize : s3c2440Calctable max none 0 = ((n : Int), none) :=
    calctable_eq (by intro entries h; cases h)
  let ftab := (range (n + 1)).map contents
  have hlength : ftab.length = n + 1 := by simp [ftab]
  have hfill : s3c2440Calctable max (some ftab) (n + 1) =
      ((n : Int), fill (some ftab) 0 freqs) := by
    refine calctable_eq ?_
    rintro entries ⟨⟩
    exact ⟨hlength, by omega⟩
  have hroom : Room (fill (some ftab) 0 freqs) (n + 1) n 1 := by
    rintro entries ⟨⟩
    simp [hlength, freqs, n]
  have hlast : fill (fill (some ftab) 0 freqs) n [tableEnd] =
      some (numbered 0 freqs ++ [⟨n, tableEnd⟩]) := by
    have hnumbered : (numbered 0 freqs).length = n := by simp [freqs, n]
    simp [fill, numbered, ← hnumbered, hlength]
  refine ⟨numbered 0 freqs, n, ?_, ?_, map_frequency_numbered 0 freqs, ?_⟩
  · have hnat : ((n : Int) + 1).toNat = n + 1 := rfl
    simp only [buildFreq, hsize, hnat]
    rw [hfill]
    rw [addfreq_eq_fill hroom, hlast]
  · rw [hsize, length_numbered]
    rfl
  · rintro ⟨entries, index, happend, -, hperm⟩
    obtain ⟨rfl, -⟩ := append_inj' happend rfl
    rw [map_frequency_numbered] at hperm
    have := hperm.length_eq
    rw [length_cons] at this
    omega

/-- With the limits of the chip 400 MHz stands in the table twice. -/
theorem limits_table_not_complete :
    let max : Freq := ⟨400000000, 0, 0, 133333333, 66666666⟩
    let ftab : List Entry := [⟨0, 400000⟩, ⟨1, 400000⟩, ⟨2, 133333⟩, ⟨3, 100000⟩, ⟨4, 66666⟩,
      ⟨5, 50000⟩, ⟨6, tableEnd⟩]
    buildFreq max (some fun _ => ⟨0, 0⟩) = (0, some ftab) ∧ ¬Complete max ftab := by
  refine ⟨by decide, ?_⟩
  rintro ⟨entries, index, happend, -, hperm⟩
  have hlength := congrArg length happend
  have hwanted := hperm.length_eq
  simp only [length_append, length_cons] at hlength
  rw [length_map, show (wanted ⟨400000000, 0, 0, 133333333, 66666666⟩).length = 5 by decide]
    at hwanted
  omega

end Mini2440.Cpufreq
