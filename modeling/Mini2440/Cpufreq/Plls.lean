import Mini2440.Cpufreq.Registers

/-!
# The PLL table of the S3C2440

The entries of `pll-s3c2440-12000000.c`, for the crystal of the board. The frequency of an entry
is the one that its register value gives. `s3c24xx_get_pll` rounds before it is doubled, so the
frequency that is read back may be lower by one.
-/

namespace Mini2440.Cpufreq

def pllval (m p s : Nat) : Nat := m <<< 12 ||| p <<< 4 ||| s

/-- The register value of an entry gives its frequency, up to rounding. -/
def Entry.Near (xtal : Nat) (e : Entry) : Prop :=
  pllFclk xtal (BitVec.ofNat 32 e.index) ≤ e.frequency ∧
    e.frequency ≤ pllFclk xtal (BitVec.ofNat 32 e.index) + 1

instance (xtal : Nat) (e : Entry) : Decidable (e.Near xtal) := inferInstanceAs (Decidable (_ ∧ _))

def s3c2440Plls12 : List Entry :=
  [⟨pllval 0x75 3 3, 75000000⟩, ⟨pllval 0x98 4 3, 80000000⟩, ⟨pllval 0x70 2 3, 90000000⟩,
   ⟨pllval 0x5c 1 3, 100000000⟩, ⟨pllval 0x66 1 3, 110000000⟩, ⟨pllval 0x70 1 3, 120000000⟩,
   ⟨pllval 0x75 3 2, 150000000⟩, ⟨pllval 0x98 4 2, 160000000⟩, ⟨pllval 0x4d 1 2, 170000000⟩,
   ⟨pllval 0x70 2 2, 180000000⟩, ⟨pllval 0x57 1 2, 190000000⟩, ⟨pllval 0x5c 1 2, 200000000⟩,
   ⟨pllval 0x84 2 2, 210000000⟩, ⟨pllval 0x66 1 2, 220000000⟩, ⟨pllval 0x6b 1 2, 230000000⟩,
   ⟨pllval 0x70 1 2, 240000000⟩, ⟨pllval 0x75 3 1, 300000000⟩, ⟨pllval 0x93 4 1, 310000000⟩,
   ⟨pllval 0x98 4 1, 320000000⟩, ⟨pllval 0x66 2 1, 330000000⟩, ⟨pllval 0x4d 1 1, 340000000⟩,
   ⟨pllval 0xa7 4 1, 350000000⟩, ⟨pllval 0x70 2 1, 360000000⟩, ⟨pllval 0xb1 4 1, 370000000⟩,
   ⟨pllval 0x57 1 1, 380000000⟩, ⟨pllval 0x7a 2 1, 390000000⟩, ⟨pllval 0x5c 1 1, 400000000⟩]

lemma near_of_mem_s3c2440Plls12 : ∀ e ∈ s3c2440Plls12, e.Near 12000000 := by decide +kernel

end Mini2440.Cpufreq
