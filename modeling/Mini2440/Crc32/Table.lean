import Mini2440.Library.Bits
import Mini2440.Library.ShiftRegister
import Mini2440.Library.Words

/-!
# The tables of `gen_crc32table.c`

`crc32init_le_generic` fills the first row of a table from the entries for single bits, the highest
one first: the entry for `i + j` is the sum of those for `i` and `j`. The other rows continue the
first one by a byte each. The entry of row `j` for a byte is what `8 * (j + 1)` steps of the
register make of it.
-/

namespace Mini2440.Crc32

open BitVec Library

def crcpolyLe : Word := 0xedb88320#32

/-- Rows of 256 words; `tab[row][i]`. -/
abbrev Table := Nat → Nat → Word

def Table.set (tab : Table) (row i : Nat) (v : Word) : Table :=
  fun row' i' => if row' = row ∧ i' = i then v else tab row' i'

lemma Table.set_self (tab : Table) (row i : Nat) (v : Word) : tab.set row i v row i = v :=
  if_pos ⟨rfl, rfl⟩

variable {i : Nat}

lemma Table.set_of_ne {tab : Table} {row row' i' : Nat} {v : Word}
    (h : row' ≠ row ∨ i' ≠ i) : tab.set row i v row' i' = tab row' i' :=
  if_neg (by tauto)

/-- The inner loop, `for (j = 0; j < LE_TABLE_SIZE; j += 2 * i)`, for a number of rounds. -/
def bitLoop (crc : Word) (i : Nat) : Nat → Nat → Table → Table
  | 0, _, tab => tab
  | rounds + 1, j, tab =>
    if j < 256 then bitLoop crc i rounds (j + 2 * i) (tab.set 0 (i + j) (crc ^^^ tab 0 j))
    else tab

/-- The outer loop, `for (i = LE_TABLE_SIZE >> 1; i; i >>= 1)`, for a number of rounds. -/
def firstRowLoop (polynomial : Word) : Nat → Nat → Word → Table → Table
  | 0, _, _, tab => tab
  | rounds + 1, i, crc, tab =>
    if i ≠ 0 then
      let crc := shiftStep polynomial crc
      firstRowLoop polynomial rounds (i >>> 1) crc (bitLoop crc i 256 0 tab)
    else tab

/-- The loop `for (j = 1; j < LE_TABLE_ROWS; j++)`, for a number of rounds. -/
def rowsLoop (i : Nat) : Nat → Nat → Word → Table → Table
  | 0, _, _, tab => tab
  | rounds + 1, j, crc, tab =>
    let crc := tab 0 (crc &&& 0xff#32).toNat ^^^ (crc >>> 8)
    rowsLoop i rounds (j + 1) crc (tab.set j i crc)

/-- `crc32init_le_generic`, for a table with `rows` rows. -/
def crc32initLeGeneric (rows : Nat) (polynomial : Word) (tab : Table) : Table :=
  let tab := tab.set 0 0 0
  let tab := firstRowLoop polynomial 9 128 1 tab
  (List.range 256).foldl (fun tab i => rowsLoop i (rows - 1) 1 (tab 0 i) tab) tab

variable {polynomial : Word} {tab : Table} {e : Nat}

/-! ## The first row -/

lemma two_mul_mul_ne (hi : 0 < i) (p q : Nat) : 2 * i * p ≠ i + 2 * i * q := by
  intro heq
  have hmod := congrArg (· % (2 * i)) heq
  simp only [Nat.mul_mod_right, Nat.add_mul_mod_self_left] at hmod
  rw [Nat.mod_eq_of_lt (by omega)] at hmod
  omega

lemma bitLoop_read (crc : Word) (hi : 0 < i) (rounds q p : Nat) (tab : Table) :
    bitLoop crc i rounds (2 * i * q) tab 0 (2 * i * p) = tab 0 (2 * i * p) := by
  induction rounds generalizing q tab with
  | zero => rfl
  | succ rounds ih =>
    by_cases hlt : 2 * i * q < 256
    · rw [bitLoop, if_pos hlt, ← Nat.mul_succ, ih, Table.set_of_ne (.inr (two_mul_mul_ne hi p q))]
    · rw [bitLoop, if_neg hlt]

/-- The entries that the inner loop writes from a value of `j` on. -/
lemma bitLoop_written (crc : Word) (hi : 0 < i) {rounds q : Nat}
    (hrounds : 256 ≤ 2 * i * (q + rounds)) (p : Nat) (tab : Table) :
    bitLoop crc i rounds (2 * i * q) tab 0 (i + 2 * i * p) =
      if q ≤ p ∧ 2 * i * p < 256 then crc ^^^ tab 0 (2 * i * p) else tab 0 (i + 2 * i * p) := by
  induction rounds generalizing q tab with
  | zero =>
    rw [bitLoop, if_neg]
    rintro ⟨hle, hlt⟩
    have := Nat.mul_le_mul_left (2 * i) hle
    rw [Nat.add_zero] at hrounds
    omega
  | succ rounds ih =>
    by_cases hlt : 2 * i * q < 256
    · rw [bitLoop, if_pos hlt, ← Nat.mul_succ, ih (by rwa [Nat.succ_add] at *),
        Table.set_of_ne (.inr (two_mul_mul_ne hi p q))]
      by_cases hpq : p = q
      · subst hpq
        rw [if_neg (by omega), if_pos ⟨le_rfl, hlt⟩, Table.set_self]
      · have hne : i + 2 * i * p ≠ i + 2 * i * q := by
          intro heq
          exact hpq (Nat.eq_of_mul_eq_mul_left (by omega : 0 < 2 * i) (by omega))
        rw [Table.set_of_ne (.inr hne)]
        have hiff : q + 1 ≤ p ↔ q ≤ p := by omega
        simp [hiff]
    · rw [bitLoop, if_neg hlt, if_neg]
      rintro ⟨hle, hlt'⟩
      have := Nat.mul_le_mul_left (2 * i) hle
      omega

/-- The entries at multiples of `2 ^ e` are right. -/
def Known (polynomial : Word) (e : Nat) (tab : Table) : Prop :=
  ∀ x < 256, 2 ^ e ∣ x → tab 0 x = shifts polynomial 8 (BitVec.ofNat 32 x)

lemma ofNat_two_pow_add (e p : Nat) :
    BitVec.ofNat 32 (2 ^ e + 2 ^ (e + 1) * p) =
      (1#32 <<< e) ^^^ BitVec.ofNat 32 (2 ^ (e + 1) * p) := by
  apply BitVec.eq_of_getLsbD_eq
  intro t ht
  have hlt : 2 ^ e < 2 ^ (e + 1) := Nat.pow_lt_pow_right (by decide) (by omega)
  rw [getLsbD_xor, getLsbD_one_shiftLeft ht, getLsbD_ofNat, getLsbD_ofNat,
    Nat.add_comm, Nat.testBit_two_pow_mul_add _ hlt, Nat.testBit_two_pow_mul,
    Nat.testBit_two_pow]
  by_cases hte : t < e + 1
  · have hnot : ¬e + 1 ≤ t := by omega
    simp [ht, hte, hnot, eq_comm]
  · have hne : t ≠ e := by omega
    have hle : e + 1 ≤ t := by omega
    simp [hte, hle, hne]

lemma Known.step (he : e < 8) (h : Known polynomial (e + 1) tab) :
    Known polynomial e (bitLoop (shifts polynomial (8 - e) 1#32) (2 ^ e) 256 0 tab) := by
  have hpos := Nat.two_pow_pos e
  have hpow : 2 * 2 ^ e = 2 ^ (e + 1) := by bv_omega
  -- the entry for a single bit
  have hbit : shifts polynomial (8 - e) 1#32 = shifts polynomial 8 (1#32 <<< e) := by
    conv => rhs; rw [show 8 = (8 - e) + e by omega]
    rw [shifts_add, shifts_two_pow (by omega)]
  have hrounds : 256 ≤ 2 * 2 ^ e * (0 + 256) := by omega
  intro x hx hdvd
  obtain ⟨y, rfl⟩ := hdvd
  obtain ⟨p, rfl | rfl⟩ : ∃ p, y = 2 * p ∨ y = 2 * p + 1 := ⟨y / 2, by omega⟩
  · have hmul : 2 ^ e * (2 * p) = 2 * 2 ^ e * p := by rw [mul_left_comm, mul_assoc]
    rw [hmul]
    have hread := bitLoop_read (shifts polynomial (8 - e) 1#32) hpos 256 0 p tab
    rw [Nat.mul_zero] at hread
    rw [hread]
    exact h _ (by omega) ⟨p, by rw [hpow]⟩
  · have hmul : 2 ^ e * (2 * p + 1) = 2 ^ e + 2 * 2 ^ e * p := by
      rw [Nat.mul_succ, Nat.mul_left_comm, Nat.mul_assoc, Nat.add_comm]
    rw [hmul] at hx ⊢
    have hwritten := bitLoop_written (shifts polynomial (8 - e) 1#32) hpos hrounds p tab
    rw [Nat.mul_zero, if_pos ⟨Nat.zero_le p, by omega⟩] at hwritten
    rw [hwritten, hbit, h _ (by omega) ⟨p, by rw [hpow]⟩, ← shifts_xor, hpow, ofNat_two_pow_add]

lemma Known.loop (he : e ≤ 8) (h : Known polynomial e tab) :
    Known polynomial 0
      (firstRowLoop polynomial (e + 1) (2 ^ e >>> 1) (shifts polynomial (8 - e) 1#32) tab) := by
  induction e generalizing tab with
  | zero => exact h
  | succ e ih =>
    have hhalf : 2 ^ (e + 1) >>> 1 = 2 ^ e := by bv_omega
    have hne : 2 ^ e ≠ 0 := Nat.pos_iff_ne_zero.mp (Nat.two_pow_pos e)
    have hstep : shiftStep polynomial (shifts polynomial (8 - (e + 1)) 1#32) =
        shifts polynomial (8 - e) 1#32 := by
      rw [← shifts_succ, show 8 - (e + 1) + 1 = 8 - e by omega]
    rw [firstRowLoop, hhalf, if_pos hne]
    simp only [hstep]
    exact ih (by omega) (h.step (by omega))

/-- The first row holds eight steps of each byte. -/
lemma firstRow_known (polynomial : Word) (tab : Table) :
    Known polynomial 0 (firstRowLoop polynomial 9 128 1 (tab.set 0 0 0)) := by
  refine Known.loop (e := 8) le_rfl ?_
  intro x hx hdvd
  obtain rfl : x = 0 := Nat.eq_zero_of_dvd_of_lt hdvd hx
  exact (shifts_zero_word).symm

/-! ## The other rows -/

lemma getLsbD_and_255 (c : Word) : (c &&& 0xff#32).getLsbD i = (decide (i < 8) && c.getLsbD i) := by
  have hmask : (0xff#32).getLsbD i = decide (i < 8) := by
    rw [getLsbD_ofNat, show (0xff : Nat) = 2 ^ 8 - 1 from rfl, Nat.testBit_two_pow_sub_one]
    by_cases hi : i < 8
    · simp
      omega
    · simp [hi]
  rw [getLsbD_and, hmask, Bool.and_comm]

lemma toNat_and_255_lt (c : Word) : (c &&& 0xff#32).toNat < 256 := by
  exact Nat.lt_of_le_of_lt Nat.and_le_right (by decide)

/-- Eight steps are those of the low byte, added to the rest of the word. -/
lemma shifts_eight (c : Word) :
    shifts polynomial 8 c = shifts polynomial 8 (c &&& 0xff#32) ^^^ (c >>> 8) := by
  refine shifts_split (fun i hi => ?_) fun i hi => ?_
  · rw [getLsbD_and_255, decide_eq_true hi, Bool.true_and]
  · rw [getLsbD_and_255, decide_eq_false (by omega), Bool.false_and]

lemma Known.lookup (h : Known polynomial 0 tab) (c : Word) :
    tab 0 (c &&& 0xff#32).toNat = shifts polynomial 8 (c &&& 0xff#32) := by
  rw [h _ (toNat_and_255_lt c) (one_dvd _), ofNat_toNat, setWidth_eq]

def Right (polynomial : Word) (rows : Nat) (tab : Table) (i : Nat) : Prop :=
  ∀ j < rows, tab j i = shifts polynomial (8 * (j + 1)) (BitVec.ofNat 32 i)

lemma rowsLoop_spec (i rounds : Nat) {j : Nat} (hj : 0 < j) (hknown : Known polynomial 0 tab) :
    let tab' := rowsLoop i rounds j (shifts polynomial (8 * j) (BitVec.ofNat 32 i)) tab
    (∀ row i', i' ≠ i ∨ row < j → tab' row i' = tab row i') ∧
      ∀ row, j ≤ row → row < j + rounds →
        tab' row i = shifts polynomial (8 * (row + 1)) (BitVec.ofNat 32 i) := by
  induction rounds generalizing j tab with
  | zero => exact ⟨fun _ _ _ => rfl, fun row _ _ => by omega⟩
  | succ rounds ih =>
    have hcrc : tab 0 (shifts polynomial (8 * j) (BitVec.ofNat 32 i) &&& 0xff#32).toNat ^^^
        (shifts polynomial (8 * j) (BitVec.ofNat 32 i) >>> 8) =
          shifts polynomial (8 * (j + 1)) (BitVec.ofNat 32 i) := by
      rw [hknown.lookup, ← shifts_eight, ← shifts_add, Nat.mul_succ, Nat.add_comm]
    simp only [rowsLoop, hcrc]
    have hset : Known polynomial 0
        (tab.set j i (shifts polynomial (8 * (j + 1)) (BitVec.ofNat 32 i))) := by
      intro x hx hdvd
      rw [Table.set_of_ne (.inl (by omega))]
      exact hknown x hx hdvd
    obtain ⟨hkept, hwritten⟩ := ih (j := j + 1) (by omega) hset
    refine ⟨fun row i' hne => ?_, fun row hle hlt => ?_⟩
    · rw [hkept row i' (by omega), Table.set_of_ne (by omega)]
    · by_cases hrow : row = j
      · subst hrow
        rw [hkept row i (.inr (by omega)), Table.set_self]
      · exact hwritten row (by omega) (by omega)

lemma foldl_rows_spec {rows : Nat} (hknown : Known polynomial 0 tab) {n : Nat} (hn : n ≤ 256) :
    let tab' := (List.range n).foldl (fun tab i => rowsLoop i (rows - 1) 1 (tab 0 i) tab) tab
    Known polynomial 0 tab' ∧ ∀ i < n, Right polynomial rows tab' i := by
  induction n with
  | zero => exact ⟨hknown, fun i hi => by omega⟩
  | succ n ih =>
    have hprev := ih (by omega)
    simp only [List.range_succ, List.foldl_append, List.foldl_cons, List.foldl_nil] at hprev ⊢
    generalize (List.range n).foldl (fun tab i => rowsLoop i (rows - 1) 1 (tab 0 i) tab) tab =
      tab' at hprev
    obtain ⟨hknown', hright⟩ := hprev
    have hentry := hknown' n (by omega) (one_dvd _)
    rw [hentry]
    obtain ⟨hkept, hwritten⟩ := rowsLoop_spec n (rows - 1) Nat.one_pos hknown'
    refine ⟨fun x hx hdvd => ?_, fun i hi j hj => ?_⟩
    · rw [hkept 0 x (.inr Nat.one_pos)]
      exact hknown' x hx hdvd
    · by_cases hin : i = n
      · subst hin
        by_cases hj0 : j = 0
        · subst hj0
          rw [hkept 0 i (.inr Nat.one_pos)]
          exact hentry
        · exact hwritten j (by omega) (by omega)
      · rw [hkept j i (.inl hin)]
        exact hright i (by omega) j hj

lemma crc32initLeGeneric_spec (rows : Nat)
    (hi : i < 256) : Right polynomial rows (crc32initLeGeneric rows polynomial tab) i :=
  (foldl_rows_spec (firstRow_known polynomial tab) le_rfl).2 i hi

end Mini2440.Crc32
