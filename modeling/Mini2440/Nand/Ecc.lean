import Mathlib.Algebra.BigOperators.Group.Finset.Sigma
import Mathlib.Data.Nat.Bitwise
import Mathlib.Tactic.IntervalCases
import Mini2440.Library.Bits
import Mini2440.Library.Parity
import Mini2440.Library.Words

/-!
# The software ECC

`nand_ecc.c` computes three bytes of ECC for a block of 256 or 512 bytes. `__nand_calculate_ecc`
goes through the block in words, sixteen in a round, and keeps the exclusive ors of those words
whose number has a certain bit clear. At the end it folds the words into bytes and takes their
parities. The theorem of this file says what that amounts to: a bit of the ECC is the inverted
parity of the data bits whose address has a certain bit set, or clear.

The rounds are unrolled in the source and share partial sums; `round` is that sequence of
statements.
-/

namespace Mini2440.Nand

open BitVec Finset Library

abbrev Buf := Nat → Byte

/-- `CONFIG_MTD_NAND_ECC_SMC` and `__BIG_ENDIAN`. -/
structure Config where
  smc : Bool
  bigEndian : Bool
  deriving DecidableEq, Repr

/-- The bytes `code[0]` to `code[2]`. -/
@[ext] structure Ecc where
  code0 : Byte
  code1 : Byte
  code2 : Byte
  deriving DecidableEq, Repr

/-- The table `invparity`: one for the bytes with an even number of bits. -/
def invparityTable : List Nat :=
  [1, 0, 0, 1, 0, 1, 1, 0, 0, 1, 1, 0, 1, 0, 0, 1,
   0, 1, 1, 0, 1, 0, 0, 1, 1, 0, 0, 1, 0, 1, 1, 0,
   0, 1, 1, 0, 1, 0, 0, 1, 1, 0, 0, 1, 0, 1, 1, 0,
   1, 0, 0, 1, 0, 1, 1, 0, 0, 1, 1, 0, 1, 0, 0, 1,
   0, 1, 1, 0, 1, 0, 0, 1, 1, 0, 0, 1, 0, 1, 1, 0,
   1, 0, 0, 1, 0, 1, 1, 0, 0, 1, 1, 0, 1, 0, 0, 1,
   1, 0, 0, 1, 0, 1, 1, 0, 0, 1, 1, 0, 1, 0, 0, 1,
   0, 1, 1, 0, 1, 0, 0, 1, 1, 0, 0, 1, 0, 1, 1, 0,
   0, 1, 1, 0, 1, 0, 0, 1, 1, 0, 0, 1, 0, 1, 1, 0,
   1, 0, 0, 1, 0, 1, 1, 0, 0, 1, 1, 0, 1, 0, 0, 1,
   1, 0, 0, 1, 0, 1, 1, 0, 0, 1, 1, 0, 1, 0, 0, 1,
   0, 1, 1, 0, 1, 0, 0, 1, 1, 0, 0, 1, 0, 1, 1, 0,
   1, 0, 0, 1, 0, 1, 1, 0, 0, 1, 1, 0, 1, 0, 0, 1,
   0, 1, 1, 0, 1, 0, 0, 1, 1, 0, 0, 1, 0, 1, 1, 0,
   0, 1, 1, 0, 1, 0, 0, 1, 1, 0, 0, 1, 0, 1, 1, 0,
   1, 0, 0, 1, 0, 1, 1, 0, 0, 1, 1, 0, 1, 0, 0, 1]

def invparity (x : Word) : Byte := BitVec.ofNat 8 (invparityTable.getD x.toNat 0)

/-! ## The rounds -/

structure Acc where
  par : Word
  rp4 : Word
  rp6 : Word
  rp8 : Word
  rp10 : Word
  rp12 : Word
  rp14 : Word
  rp16 : Word
  deriving DecidableEq, Repr

/-- The body of the loop; `w` are the words at `buf`. -/
def round (mult : Nat) (w : Nat → Word) (s : Acc) (i : Nat) : Acc :=
  let cur := w (16 * i + 0)
  let tmppar := cur
  let rp4 := s.rp4 ^^^ cur
  let cur := w (16 * i + 1)
  let tmppar := tmppar ^^^ cur
  let rp6 := s.rp6 ^^^ tmppar
  let cur := w (16 * i + 2)
  let tmppar := tmppar ^^^ cur
  let rp4 := rp4 ^^^ cur
  let cur := w (16 * i + 3)
  let tmppar := tmppar ^^^ cur
  let rp8 := s.rp8 ^^^ tmppar
  let cur := w (16 * i + 4)
  let tmppar := tmppar ^^^ cur
  let rp4 := rp4 ^^^ cur
  let rp6 := rp6 ^^^ cur
  let cur := w (16 * i + 5)
  let tmppar := tmppar ^^^ cur
  let rp6 := rp6 ^^^ cur
  let cur := w (16 * i + 6)
  let tmppar := tmppar ^^^ cur
  let rp4 := rp4 ^^^ cur
  let cur := w (16 * i + 7)
  let tmppar := tmppar ^^^ cur
  let rp10 := s.rp10 ^^^ tmppar
  let cur := w (16 * i + 8)
  let tmppar := tmppar ^^^ cur
  let rp4 := rp4 ^^^ cur
  let rp6 := rp6 ^^^ cur
  let rp8 := rp8 ^^^ cur
  let cur := w (16 * i + 9)
  let tmppar := tmppar ^^^ cur
  let rp6 := rp6 ^^^ cur
  let rp8 := rp8 ^^^ cur
  let cur := w (16 * i + 10)
  let tmppar := tmppar ^^^ cur
  let rp4 := rp4 ^^^ cur
  let rp8 := rp8 ^^^ cur
  let cur := w (16 * i + 11)
  let tmppar := tmppar ^^^ cur
  let rp8 := rp8 ^^^ cur
  let cur := w (16 * i + 12)
  let tmppar := tmppar ^^^ cur
  let rp4 := rp4 ^^^ cur
  let rp6 := rp6 ^^^ cur
  let cur := w (16 * i + 13)
  let tmppar := tmppar ^^^ cur
  let rp6 := rp6 ^^^ cur
  let cur := w (16 * i + 14)
  let tmppar := tmppar ^^^ cur
  let rp4 := rp4 ^^^ cur
  let cur := w (16 * i + 15)
  let tmppar := tmppar ^^^ cur
  { par := s.par ^^^ tmppar
    rp4 := rp4
    rp6 := rp6
    rp8 := rp8
    rp10 := rp10
    rp12 := if i &&& 0x1 = 0 then s.rp12 ^^^ tmppar else s.rp12
    rp14 := if i &&& 0x2 = 0 then s.rp14 ^^^ tmppar else s.rp14
    rp16 := if mult = 2 ∧ i &&& 0x4 = 0 then s.rp16 ^^^ tmppar else s.rp16 }

/-- The word that the processor loads from the place `k`. -/
def word (cfg : Config) (buf : Buf) (k : Nat) : Word :=
  let bytes := [buf (4 * k), buf (4 * k + 1), buf (4 * k + 2), buf (4 * k + 3)]
  leWord (if cfg.bigEndian then bytes.reverse else bytes)

def accumulate (mult : Nat) (w : Nat → Word) : Acc :=
  (List.range (mult <<< 2)).foldl (round mult w) ⟨0, 0, 0, 0, 0, 0, 0, 0⟩

/-! ## The code -/

def foldByte (x : Word) : Word :=
  let x := x ^^^ x >>> 16
  let x := x ^^^ x >>> 8
  x &&& 0xff

def foldUpper (x : Word) : Word :=
  let x := x >>> 16
  let x := x ^^^ x >>> 8
  x &&& 0xff

def foldLower (x : Word) : Word :=
  let x := x &&& 0xffff
  let x := x ^^^ x >>> 8
  x &&& 0xff

def octet (rp7 rp6 rp5 rp4 rp3 rp2 rp1 rp0 : Word) : Byte :=
  invparity rp7 <<< 7 ||| invparity rp6 <<< 6 ||| invparity rp5 <<< 5 ||| invparity rp4 <<< 4 |||
    invparity rp3 <<< 3 ||| invparity rp2 <<< 2 ||| invparity rp1 <<< 1 ||| invparity rp0

/-- The inverted parities of the columns, in the six upper bits of a byte. -/
def columns (par : Word) : Byte :=
  invparity (par &&& 0xf0) <<< 7 ||| invparity (par &&& 0x0f) <<< 6 |||
    invparity (par &&& 0xcc) <<< 5 ||| invparity (par &&& 0x33) <<< 4 |||
    invparity (par &&& 0xaa) <<< 3 ||| invparity (par &&& 0x55) <<< 2

/-- `__nand_calculate_ecc`. -/
def calculateEcc (cfg : Config) (buf : Buf) (eccsize : Nat) : Ecc :=
  let mult := eccsize >>> 8
  let s := accumulate mult (word cfg buf)
  let rp4 := foldByte s.rp4
  let rp6 := foldByte s.rp6
  let rp8 := foldByte s.rp8
  let rp10 := foldByte s.rp10
  let rp12 := foldByte s.rp12
  let rp14 := foldByte s.rp14
  let rp16 := if mult = 2 then foldByte s.rp16 else s.rp16
  let rp2 := if cfg.bigEndian then foldUpper s.par else foldLower s.par
  let rp3 := if cfg.bigEndian then foldLower s.par else foldUpper s.par
  let par := s.par ^^^ s.par >>> 16
  let rp0 := if cfg.bigEndian then par >>> 8 &&& 0xff else par &&& 0xff
  let rp1 := if cfg.bigEndian then par &&& 0xff else par >>> 8 &&& 0xff
  let par := par ^^^ par >>> 8
  let par := par &&& 0xff
  let rp5 := (par ^^^ rp4) &&& 0xff
  let rp7 := (par ^^^ rp6) &&& 0xff
  let rp9 := (par ^^^ rp8) &&& 0xff
  let rp11 := (par ^^^ rp10) &&& 0xff
  let rp13 := (par ^^^ rp12) &&& 0xff
  let rp15 := (par ^^^ rp14) &&& 0xff
  -- the source leaves rp17 alone unless there are 512 bytes
  let rp17 := if mult = 2 then (par ^^^ rp16) &&& 0xff else 0
  let low := octet rp7 rp6 rp5 rp4 rp3 rp2 rp1 rp0
  let high := octet rp15 rp14 rp13 rp12 rp11 rp10 rp9 rp8
  { code0 := if cfg.smc then low else high
    code1 := if cfg.smc then high else low
    code2 :=
      if mult = 1 then columns par ||| 3
      else columns par ||| invparity rp17 <<< 1 ||| invparity rp16 <<< 0 }

/-! ## What the rounds add up -/

variable {t s : Nat}

section Rounds

variable {mult n i b j : Nat} {w : Nat → Word} {s : Acc}

/-- A bit of the exclusive or of the selected ones of the first `n` words. -/
def total (sel : Nat → Bool) (w : Nat → Word) (n b : Nat) : Bool :=
  ∑ k ∈ range n, (sel k && (w k).getLsbD b)

/-- The words whose number has the bit `t` clear. -/
def clearAt (t k : Nat) : Bool := !k.testBit t

lemma total_round (sel : Nat → Bool) :
    total sel w (16 * (i + 1)) b =
      (total sel w (16 * i) b ^^
        ∑ j ∈ range 16, (sel (16 * i + j) && (w (16 * i + j)).getLsbD b)) := by
  rw [total, Nat.mul_succ, sum_range_add]
  rfl

lemma clearAt_low (ht : t < 4) (hj : j < 16) : clearAt t (16 * i + j) = clearAt t j := by
  rw [clearAt, clearAt, show 16 * i + j = 2 ^ 4 * i + j by rfl, Nat.testBit_two_pow_mul_add i hj,
    if_pos ht]

lemma clearAt_high (ht : 4 ≤ t) (hj : j < 16) : clearAt t (16 * i + j) = clearAt (t - 4) i := by
  rw [clearAt, clearAt, show 16 * i + j = 2 ^ 4 * i + j by rfl, Nat.testBit_two_pow_mul_add i hj,
    if_neg (by omega)]

/-- What the accumulators hold after `n` words. -/
structure Sums (mult : Nat) (w : Nat → Word) (n : Nat) (s : Acc) : Prop where
  par : ∀ b, s.par.getLsbD b = total (fun _ => true) w n b
  rp4 : ∀ b, s.rp4.getLsbD b = total (clearAt 0) w n b
  rp6 : ∀ b, s.rp6.getLsbD b = total (clearAt 1) w n b
  rp8 : ∀ b, s.rp8.getLsbD b = total (clearAt 2) w n b
  rp10 : ∀ b, s.rp10.getLsbD b = total (clearAt 3) w n b
  rp12 : ∀ b, s.rp12.getLsbD b = total (clearAt 4) w n b
  rp14 : ∀ b, s.rp14.getLsbD b = total (clearAt 5) w n b
  rp16 : mult = 2 → ∀ b, s.rp16.getLsbD b = total (clearAt 6) w n b

/-- The words of a round whose number has a low bit clear. -/
lemma total_clearAt_low (ht : t < 4) :
    total (clearAt t) w (16 * (i + 1)) b =
      (total (clearAt t) w (16 * i) b ^^
        ∑ j ∈ range 16, (clearAt t j && (w (16 * i + j)).getLsbD b)) := by
  rw [total_round]
  congr 1
  refine sum_congr rfl fun j hj => ?_
  rw [clearAt_low ht (mem_range.mp hj)]

/-- A high bit is the same for the words of a round. -/
lemma total_clearAt_high (ht : 4 ≤ t) :
    total (clearAt t) w (16 * (i + 1)) b =
      (total (clearAt t) w (16 * i) b ^^
        (clearAt (t - 4) i && ∑ j ∈ range 16, (w (16 * i + j)).getLsbD b)) := by
  rw [total_round]
  congr 1
  rw [← Bool.mul_eq_and, mul_sum]
  refine sum_congr rfl fun j hj => ?_
  rw [clearAt_high ht (mem_range.mp hj)]
  rfl

lemma and_two_pow_eq_zero_iff (i t : Nat) : i &&& 2 ^ t = 0 ↔ clearAt t i := by
  rw [Nat.and_two_pow, clearAt]
  cases i.testBit t <;> simp

lemma Sums.round (h : Sums mult w (16 * i) s) :
    Sums mult w (16 * (i + 1)) (Nand.round mult w s i) := by
  constructor
  case par =>
    intro b
    rw [total_round, ← h.par]
    simp [Nand.round, sum_range_succ, Bool.add_eq_xor]
  case rp4 | rp6 | rp8 | rp10 =>
    intro b
    rw [total_clearAt_low (by decide)]
    simp [← h.rp4, ← h.rp6, ← h.rp8, ← h.rp10, Nand.round, clearAt,
      Nat.testBit_eq_decide_div_mod_eq, sum_range_succ, Bool.add_eq_xor]
  case rp12 =>
    intro b
    have hif : i % 2 = 0 ↔ clearAt 0 i := by simpa using and_two_pow_eq_zero_iff i 0
    rw [total_clearAt_high (by decide), ← h.rp12]
    cases hi : clearAt 0 i <;> simp [Nand.round, hif, hi, sum_range_succ, Bool.add_eq_xor]
  case rp14 =>
    intro b
    have hif : i &&& 0x2 = 0 ↔ clearAt 1 i := and_two_pow_eq_zero_iff i 1
    rw [total_clearAt_high (by decide), ← h.rp14]
    cases hi : clearAt 1 i <;> simp [Nand.round, hif, hi, sum_range_succ, Bool.add_eq_xor]
  case rp16 =>
    intro hmult b
    have hif : i &&& 0x4 = 0 ↔ clearAt 2 i := and_two_pow_eq_zero_iff i 2
    rw [total_clearAt_high (by decide), ← h.rp16 hmult]
    cases hi : clearAt 2 i <;> simp [Nand.round, hmult, hif, hi, sum_range_succ, Bool.add_eq_xor]

lemma sums_accumulate (mult : Nat) (w : Nat → Word) :
    Sums mult w (16 * (mult <<< 2)) (accumulate mult w) := by
  unfold accumulate
  induction mult <<< 2 with
  | zero => constructor <;> simp [total, Bool.zero_eq_false]
  | succ n ih =>
    rw [List.range_succ, List.foldl_append]
    exact ih.round

end Rounds

/-! ## Parities of addresses -/

section Addresses

/-- The bits of a block: the number of the byte and that of the bit in it. -/
@[irreducible] def cells (size : Nat) : Finset (Nat × Nat) := range size ×ˢ range 8

lemma mem_cells {size : Nat} {x : Nat × Nat} : x ∈ cells size ↔ x.1 < size ∧ x.2 < 8 := by
  simp [cells]

def bits (buf : Buf) (x : Nat × Nat) : Bool := (buf x.1).getLsbD x.2

/-- The address of a bit: nine bits for the byte and three for the bit in it. -/
def addr (x : Nat × Nat) (s : Nat) : Bool := if s < 9 then x.1.testBit s else x.2.testBit (s - 9)

variable {cfg : Config} {buf : Buf} {n b : Nat} {x y : Word}

/-- The bit `b` of the byte that a word has from the address `c` on. -/
def lane (cfg : Config) (x : Word) (c b : Nat) : Bool :=
  x.getLsbD (8 * (if cfg.bigEndian then 3 - c else c) + b)

lemma lane_word {k c : Nat} (hc : c < 4) (hb : b < 8) :
    lane cfg (word cfg buf k) c b = (buf (4 * k + c)).getLsbD b := by
  unfold lane word
  cases cfg.bigEndian with
  | false =>
    rw [leWord_getLsbD (by simp) (by simpa using hc) hb]
    interval_cases c <;> rfl
  | true =>
    rw [leWord_getLsbD (by simp) (by simp; omega) hb]
    interval_cases c <;> rfl

def odd (x : Word) : Bool := ∑ b ∈ range 8, x.getLsbD b

/-- The parity of a byte that is made of the selected lanes of an accumulator. -/
lemma odd_eq_parity {sel : Nat → Bool} {m : Nat → Nat → Bool}
    (hx : ∀ b, x.getLsbD b = total sel (word cfg buf) n b)
    (hy : ∀ b < 8, y.getLsbD b = ∑ c ∈ range 4, (m c b && lane cfg x c b)) :
    odd y = parity (cells (4 * n)) (fun p => sel (p.1 / 4) && m (p.1 % 4) p.2) (bits buf) := by
  have hlane : ∀ c ∈ range 4, ∀ b ∈ range 8, (m c b && lane cfg x c b) =
        ∑ k ∈ range n, ((sel k && m c b) && (buf (4 * k + c)).getLsbD b) := by
    intro c hc b hb
    rw [lane, hx, total, ← Bool.mul_eq_and, mul_sum]
    refine sum_congr rfl fun k _ => ?_
    have hword : lane cfg (word cfg buf k) c b = (buf (4 * k + c)).getLsbD b :=
      lane_word (mem_range.mp hc) (mem_range.mp hb)
    rw [← hword, lane, Bool.mul_eq_and, Bool.and_assoc, Bool.and_left_comm]
  have hplace : ∀ k, ∀ c ∈ range 4, (4 * k + c) / 4 = k ∧ (4 * k + c) % 4 = c := by
    intro k c hc
    have := mem_range.mp hc
    omega
  calc odd y
      = ∑ b ∈ range 8, ∑ c ∈ range 4, (m c b && lane cfg x c b) :=
        sum_congr rfl fun b hb => hy b (mem_range.mp hb)
    _ = ∑ c ∈ range 4, ∑ b ∈ range 8, ∑ k ∈ range n,
          ((sel k && m c b) && (buf (4 * k + c)).getLsbD b) := by
        rw [sum_comm]
        exact sum_congr rfl fun c hc => sum_congr rfl fun b hb => hlane c hc b hb
    _ = ∑ k ∈ range n, ∑ c ∈ range 4, ∑ b ∈ range 8,
          ((sel k && m c b) && (buf (4 * k + c)).getLsbD b) :=
        (sum_congr rfl fun c _ => sum_comm).trans sum_comm
    _ = parity (cells (4 * n)) (fun p => sel (p.1 / 4) && m (p.1 % 4) p.2) (bits buf) := by
        rw [parity, cells, sum_product, sum_range_mul]
        refine sum_congr rfl fun k _ => sum_congr rfl fun c hc => sum_congr rfl fun b _ => ?_
        obtain ⟨hdiv, hmod⟩ := hplace k c hc
        simp [bits, hdiv, hmod]

/-! ### The bytes that the accumulators are folded into -/

lemma sum_lanes (m : Nat → Bool) :
    ∑ c ∈ range 4, (m c && lane cfg x c b) =
      ((m 0 && lane cfg x 0 b) ^^ (m 1 && lane cfg x 1 b) ^^ (m 2 && lane cfg x 2 b) ^^
        (m 3 && lane cfg x 3 b)) := by
  simp [sum_range_succ, Bool.add_eq_xor]

lemma foldByte_getLsbD (hb : b < 8) :
    (foldByte x).getLsbD b = ∑ c ∈ range 4, (true && lane cfg x c b) := by
  rw [sum_lanes fun _ => true]
  unfold foldByte lane
  cases cfg.bigEndian <;> interval_cases b <;> simp <;> grind

def rp23 (cfg : Config) (par : Word) (v : Bool) : Word :=
  if cfg.bigEndian = v then foldLower par else foldUpper par

lemma rp23_getLsbD (v : Bool) (hb : b < 8) :
    (rp23 cfg x v).getLsbD b = ∑ c ∈ range 4, ((c.testBit 1 == v) && lane cfg x c b) := by
  rw [sum_lanes fun c => c.testBit 1 == v]
  unfold rp23 foldUpper foldLower lane
  cases cfg.bigEndian <;> cases v <;> interval_cases b <;>
    simp [Nat.testBit_eq_decide_div_mod_eq, Bool.xor_comm]

def rp01 (cfg : Config) (par : Word) (v : Bool) : Word :=
  if cfg.bigEndian = v then (par ^^^ par >>> 16) &&& 0xff
  else (par ^^^ par >>> 16) >>> 8 &&& 0xff

lemma rp01_getLsbD (v : Bool) (hb : b < 8) :
    (rp01 cfg x v).getLsbD b = ∑ c ∈ range 4, ((c.testBit 0 == v) && lane cfg x c b) := by
  rw [sum_lanes fun c => c.testBit 0 == v]
  unfold rp01 lane
  cases cfg.bigEndian <;> cases v <;> interval_cases b <;> simp [Bool.xor_comm]

/-! ### The parities -/

variable (hpar : ∀ b, x.getLsbD b = total (fun _ => true) (word cfg buf) n b) {v : Bool}

include hpar

lemma odd_lanes (hs : s < 2)
    (hy : ∀ b < 8, y.getLsbD b = ∑ c ∈ range 4, ((c.testBit s == v) && lane cfg x c b)) :
    odd y = addressParity (cells (4 * n)) addr s v (bits buf) := by
  rw [odd_eq_parity (m := fun c _ => c.testBit s == v) hpar hy]
  congr 1
  funext p
  have hlow : (p.1 % 2 ^ 2).testBit s = p.1.testBit s := by
    rw [Nat.testBit_mod_two_pow, decide_eq_true hs, Bool.true_and]
  have hrow : s < 9 := by omega
  simpa [addr, hrow] using congrArg (· == v) hlow

lemma odd_columns {mask : Word} (hmask : ∀ b < 8, mask.getLsbD b = (b.testBit s == v)) :
    odd (foldByte x &&& mask) = addressParity (cells (4 * n)) addr (s + 9) v (bits buf) := by
  have hy : ∀ b < 8, (foldByte x &&& mask).getLsbD b =
      ∑ c ∈ range 4, ((b.testBit s == v) && lane cfg x c b) := by
    intro b hb
    have hfold : (foldByte x).getLsbD b = ∑ c ∈ range 4, (true && lane cfg x c b) :=
      foldByte_getLsbD hb
    rw [getLsbD_and, hmask b hb, hfold, Bool.and_comm, ← Bool.mul_eq_and, mul_sum]
    rfl
  rw [odd_eq_parity (m := fun _ b => b.testBit s == v) hpar hy]
  congr 1

omit hpar in
lemma odd_row (ht : t < 7) (hx : ∀ b, y.getLsbD b = total (clearAt t) (word cfg buf) n b) :
    odd (foldByte y) = addressParity (cells (4 * n)) addr (t + 2) false (bits buf) := by
  rw [odd_eq_parity (m := fun _ _ => true) hx fun b hb => foldByte_getLsbD hb]
  congr 1
  funext p
  have hrow : t + 2 < 9 := by omega
  have hdiv : (p.1 / 2 ^ 2).testBit t = p.1.testBit (t + 2) := by
    rw [Nat.testBit_div_two_pow]
  simpa [addr, clearAt, hrow] using hdiv

omit hpar in
lemma odd_xor : odd ((x ^^^ y) &&& 0xff) = (odd x ^^ odd y) := by
  have hbit : ∀ b ∈ range 8, ((x ^^^ y) &&& 0xff).getLsbD b = x.getLsbD b + y.getLsbD b := by
    intro b hb
    have hmask : (0xff : Word).getLsbD b := by
      have hb := mem_range.mp hb
      interval_cases b <;> rfl
    rw [getLsbD_and, getLsbD_xor, hmask, Bool.and_true, Bool.add_eq_xor]
  rw [odd, sum_congr rfl hbit, sum_add_distrib]
  rfl

def rowPair (par y : Word) (v : Bool) : Word :=
  if v then (foldByte par ^^^ foldByte y) &&& 0xff else foldByte y

lemma odd_rowPair (ht : t < 7) (hx : ∀ b, y.getLsbD b = total (clearAt t) (word cfg buf) n b)
    (v : Bool) : odd (rowPair x y v) = addressParity (cells (4 * n)) addr (t + 2) v (bits buf) := by
  cases v with
  | false => exact odd_row ht hx
  | true =>
    have hall : odd (foldByte x) = parity (cells (4 * n)) (fun _ => true) (bits buf) :=
      odd_eq_parity (m := fun _ _ => true) hpar fun b hb => foldByte_getLsbD hb
    rw [rowPair, if_pos rfl, odd_xor, hall, odd_row ht hx, addressParity, ← parity_not]
    congr 1
    funext p
    cases addr p (t + 2) <;> rfl

end Addresses

/-! ## The bits of the code -/

section Code

variable {x y : Word} {k t : Nat}

lemma invparityTable_spec :
    ∀ n < 256, invparityTable.getD n 0 = (!(∑ b ∈ range 8, n.testBit b)).toNat := by
  decide +kernel

lemma invparity_eq (hx : x.toNat < 256) : invparity x = (ofBool (!odd x)).setWidth 8 := by
  have hodd : odd x = ∑ b ∈ range 8, x.toNat.testBit b := rfl
  rw [invparity, invparityTable_spec _ hx, hodd]
  cases ∑ b ∈ range 8, x.toNat.testBit b <;> rfl

lemma invparity_shiftLeft_getLsbD (hx : x.toNat < 256) (ht : t < 8) :
    (invparity x <<< k).getLsbD t = (decide (t = k) && !odd x) := by
  rw [invparity_eq hx]
  cases odd x with
  | false =>
    have hone : (ofBool (!false)).setWidth 8 = 1#8 := rfl
    rw [hone, getLsbD_one_shiftLeft ht, Bool.not_false, Bool.and_true]
  | true =>
    simp

lemma and_ff_lt : (x &&& 0xff).toNat < 256 := by
  exact Nat.lt_of_le_of_lt Nat.and_le_right (by decide)

lemma foldByte_lt : (foldByte x).toNat < 256 := and_ff_lt

lemma slot_lt (hs : s < 4) (v : Bool) : 2 * s + v.toNat < 8 := by
  cases v <;> simp <;> omega

def octetOf (r : Nat → Bool → Word) : Byte :=
  octet (r 3 true) (r 3 false) (r 2 true) (r 2 false) (r 1 true) (r 1 false) (r 0 true) (r 0 false)

lemma octetOf_getLsbD {r : Nat → Bool → Word} (hr : ∀ s v, (r s v).toNat < 256)
    (hs : s < 4) (v : Bool) : (octetOf r).getLsbD (2 * s + v.toNat) = !odd (r s v) := by
  have hlt := slot_lt hs v
  have hzero : (invparity (r 0 false)).getLsbD (2 * s + v.toNat) =
      (decide (2 * s + v.toNat = 0) && !odd (r 0 false)) := by
    simpa using invparity_shiftLeft_getLsbD (k := 0) (hr 0 false) hlt
  simp only [octetOf, octet, getLsbD_or, hzero, invparity_shiftLeft_getLsbD (hr _ _) hlt]
  interval_cases s <;> cases v <;> simp

lemma columns_getLsbD (hx : x.toNat < 256) (ht : t < 8) :
    (columns x).getLsbD t =
      (decide (2 ≤ t) &&
        !odd (x &&& ([0, 0, 0x55, 0xaa, 0x33, 0xcc, 0x0f, 0xf0].getD t 0))) := by
  have hmask : ∀ m : Word, (x &&& m).toNat < 256 := by
    intro m
    exact Nat.lt_of_le_of_lt Nat.and_le_left hx
  simp only [columns, getLsbD_or, invparity_shiftLeft_getLsbD, hmask, ht]
  interval_cases t <;> simp

/-- The bytes, the one of the lower half of the byte address first. -/
def Ecc.byte (smc : Bool) (e : Ecc) : Nat → Byte
  | 0 => if smc then e.code0 else e.code1
  | 1 => if smc then e.code1 else e.code0
  | _ => e.code2

/-- The bits `2 s` and `2 s + 1` of the code. -/
def Ecc.slot (smc : Bool) (e : Ecc) (s : Nat) (v : Bool) : Bool :=
  (e.byte smc (s / 4)).getLsbD (2 * (s % 4) + v.toNat)

lemma Ecc.slot_add (smc : Bool) (e : Ecc) (hs : s < 4) (v : Bool) :
    e.slot smc (s + 4 * k) v = (e.byte smc k).getLsbD (2 * s + v.toNat) := by
  rw [Ecc.slot, Nat.add_mul_div_left _ _ (by decide), Nat.add_mul_mod_self_left,
    Nat.div_eq_of_lt hs, Nat.zero_add, Nat.mod_eq_of_lt hs]

variable {cfg : Config} {buf : Buf} {mult n s eccsize : Nat} {a : Acc}

def lowRows (cfg : Config) (a : Acc) : Nat → Bool → Word
  | 0 => rp01 cfg a.par
  | 1 => rp23 cfg a.par
  | 2 => rowPair a.par a.rp4
  | _ => rowPair a.par a.rp6

def highRows (a : Acc) : Nat → Bool → Word
  | 0 => rowPair a.par a.rp8
  | 1 => rowPair a.par a.rp10
  | 2 => rowPair a.par a.rp12
  | _ => rowPair a.par a.rp14

lemma rowPair_lt (v : Bool) : (rowPair x y v).toNat < 256 := by
  cases v <;> exact and_ff_lt

lemma lowRows_lt (s : Nat) (v : Bool) : (lowRows cfg a s v).toNat < 256 := by
  unfold lowRows
  split
  · rw [rp01]
    split <;> exact and_ff_lt
  · rw [rp23]
    split <;> exact and_ff_lt
  · exact rowPair_lt v
  · exact rowPair_lt v

lemma highRows_lt (s : Nat) (v : Bool) : (highRows a s v).toNat < 256 := by
  unfold highRows
  split <;> exact rowPair_lt v

lemma octet_low (h : Sums mult (word cfg buf) n a) (hs : s < 4) (v : Bool) :
    (octetOf (lowRows cfg a)).getLsbD (2 * s + v.toNat) =
      !addressParity (cells (4 * n)) addr s v (bits buf) := by
  rw [octetOf_getLsbD lowRows_lt hs]
  congr 1
  interval_cases s
  · exact odd_lanes h.par (by decide) fun b hb => rp01_getLsbD v hb
  · exact odd_lanes h.par (by decide) fun b hb => rp23_getLsbD v hb
  · exact odd_rowPair h.par (by decide) h.rp4 v
  · exact odd_rowPair h.par (by decide) h.rp6 v

lemma octet_high (h : Sums mult (word cfg buf) n a) (hs : s < 4) (v : Bool) :
    (octetOf (highRows a)).getLsbD (2 * s + v.toNat) =
      !addressParity (cells (4 * n)) addr (s + 4) v (bits buf) := by
  rw [octetOf_getLsbD highRows_lt hs]
  congr 1
  interval_cases s
  · exact odd_rowPair h.par (by decide) h.rp8 v
  · exact odd_rowPair h.par (by decide) h.rp10 v
  · exact odd_rowPair h.par (by decide) h.rp12 v
  · exact odd_rowPair h.par (by decide) h.rp14 v

lemma columns_slot (h : Sums mult (word cfg buf) n a) (hs : s < 3) (v : Bool) :
    (columns (foldByte a.par)).getLsbD (2 * (s + 1) + v.toNat) =
      !addressParity (cells (4 * n)) addr (s + 9) v (bits buf) := by
  have hlt := slot_lt (Nat.succ_lt_succ hs) v
  have hle : 2 ≤ 2 * (s + 1) + v.toNat := by omega
  rw [columns_getLsbD foldByte_lt hlt, decide_eq_true hle, Bool.true_and]
  congr 1
  refine odd_columns h.par fun b hb => ?_
  interval_cases s <;> cases v <;> interval_cases b <;> rfl

lemma low_calculateEcc :
    (calculateEcc cfg buf eccsize).byte cfg.smc 0 =
      octetOf (lowRows cfg (accumulate (eccsize >>> 8) (word cfg buf))) := by
  cases cfg with
  | mk smc bigEndian => cases smc <;> cases bigEndian <;> rfl

lemma high_calculateEcc :
    (calculateEcc cfg buf eccsize).byte cfg.smc 1 =
      octetOf (highRows (accumulate (eccsize >>> 8) (word cfg buf))) := by
  cases cfg with
  | mk smc bigEndian => cases smc <;> rfl

lemma code2_256 :
    (calculateEcc cfg buf 256).code2 = columns (foldByte (accumulate 1 (word cfg buf)).par) ||| 3 :=
  rfl

lemma code2_512 :
    let a := accumulate 2 (word cfg buf)
    (calculateEcc cfg buf 512).code2 =
      columns (foldByte a.par) ||| invparity (rowPair a.par a.rp16 true) <<< 1 |||
        invparity (rowPair a.par a.rp16 false) <<< 0 :=
  rfl

lemma slot_code2 (hsize : eccsize = 256 ∨ eccsize = 512) (hs : s < 4)
    (hused : s ≠ 0 ∨ eccsize = 512) (v : Bool) :
    (calculateEcc cfg buf eccsize).code2.getLsbD (2 * s + v.toNat) =
      !addressParity (cells eccsize) addr (s + 8) v (bits buf) := by
  have hlt := slot_lt hs v
  rcases hsize with rfl | rfl
  · have hsums : Sums 1 (word cfg buf) 64 _ := sums_accumulate 1 (word cfg buf)
    obtain ⟨s, rfl⟩ : ∃ k, s = k + 1 := Nat.exists_eq_add_one.mpr (by omega)
    have hthree : (3#8).getLsbD (2 * (s + 1) + v.toNat) = false := by
      have hs : s < 3 := by omega
      interval_cases s <;> cases v <;> rfl
    rw [code2_256, getLsbD_or, columns_slot hsums (by omega) v]
    exact (Bool.or_eq_left_iff_imp.mpr (by simp [hthree]))
  · have hsums : Sums 2 (word cfg buf) 128 _ := sums_accumulate 2 (word cfg buf)
    rw [code2_512, getLsbD_or, getLsbD_or, invparity_shiftLeft_getLsbD (rowPair_lt _) hlt,
      invparity_shiftLeft_getLsbD (rowPair_lt _) hlt]
    cases s with
    | zero =>
      rw [columns_getLsbD foldByte_lt hlt]
      have hrow := odd_rowPair hsums.par (by decide) (hsums.rp16 rfl) v
      cases v <;> simpa using hrow
    | succ s =>
      have hone : 2 * (s + 1) + v.toNat ≠ 1 := by omega
      rw [columns_slot hsums (by omega) v, decide_eq_false hone]
      simp

/-- **What the ECC is.** Each of its bits that are in use is the inverted parity of the data bits
whose address has one bit as given. -/
lemma slot_calculateEcc (hsize : eccsize = 256 ∨ eccsize = 512) (hs : s < 12)
    (hused : s ≠ 8 ∨ eccsize = 512) (v : Bool) :
    (calculateEcc cfg buf eccsize).slot cfg.smc s v =
      !addressParity (cells eccsize) addr s v (bits buf) := by
  have hsums := sums_accumulate (eccsize >>> 8) (word cfg buf)
  have hcells : 4 * (16 * (eccsize >>> 8 <<< 2)) = eccsize := by bv_omega
  obtain ⟨k, j, hj, rfl⟩ : ∃ k j, j < 4 ∧ s = j + 4 * k := ⟨s / 4, s % 4, by omega, by omega⟩
  have hk : k < 3 := by omega
  rw [Ecc.slot_add cfg.smc _ hj v]
  interval_cases k
  · rw [low_calculateEcc, octet_low hsums hj v, hcells]
    rfl
  · rw [high_calculateEcc, octet_high hsums hj v, hcells]
  · exact slot_code2 hsize hj (by omega) v

lemma slot_unused (v : Bool) : (calculateEcc cfg buf 256).slot cfg.smc 8 v := by
  have hthree : (3#8).getLsbD (2 * 0 + v.toNat) := by cases v <;> rfl
  change (calculateEcc cfg buf 256).code2.getLsbD (2 * 0 + v.toNat)
  rw [code2_256, getLsbD_or]
  exact Bool.or_eq_true_iff.mpr (Or.inr hthree)

def pairsByte (p : Nat → Bool → Bool) : Byte :=
  ofBoolListLE [p 0 false, p 0 true, p 1 false, p 1 true, p 2 false, p 2 true, p 3 false, p 3 true]

/-- The definition of the code, bit by bit: a pair of inverted parities for each bit of an address.
The bytes of a block of 256 bytes have no ninth bit in their addresses. -/
def bitwiseEcc (cfg : Config) (buf : Buf) (eccsize : Nat) : Ecc :=
  let p (i : Nat) (v : Bool) : Bool :=
    (i = 8 && eccsize = 256) || !addressParity (cells eccsize) addr i v (bits buf)
  let low := pairsByte p
  let high := pairsByte fun s => p (s + 4)
  { code0 := if cfg.smc then low else high
    code1 := if cfg.smc then high else low
    code2 := pairsByte fun s => p (s + 8) }

lemma Ecc.byte_eq_pairsByte {smc : Bool} {e : Ecc} {p : Nat → Bool → Bool}
    (h : ∀ s < 4, ∀ v, e.slot smc (s + 4 * k) v = p s v) : e.byte smc k = pairsByte p := by
  apply eq_of_getLsbD_eq
  intro t ht
  have hpair := h (t / 2) (by omega) (decide (t % 2 = 1))
  rw [Ecc.slot_add smc e (by omega)] at hpair
  refine Eq.trans ?_ getLsbD_ofBoolListLE.symm
  interval_cases t <;> exact hpair

/-- The code of a block of 256 or 512 bytes is the one of the definition. -/
theorem calculateEcc_eq_bitwiseEcc (cfg : Config) (buf : Buf) {eccsize : Nat}
    (hsize : eccsize = 256 ∨ eccsize = 512) :
    calculateEcc cfg buf eccsize = bitwiseEcc cfg buf eccsize := by
  have hslot : ∀ i < 12, ∀ v, (calculateEcc cfg buf eccsize).slot cfg.smc i v =
      ((i = 8 && eccsize = 256) || !addressParity (cells eccsize) addr i v (bits buf)) := by
    intro i hi v
    by_cases hused : i ≠ 8 ∨ eccsize = 512
    · have hbit : (decide (i = 8) && decide (eccsize = 256)) = false := by
        rw [Bool.and_eq_false_iff, decide_eq_false_iff_not, decide_eq_false_iff_not]
        omega
      rw [slot_calculateEcc hsize hi hused, hbit, Bool.false_or]
    · obtain ⟨rfl, rfl⟩ : i = 8 ∧ eccsize = 256 := by omega
      exact slot_unused v
  have hbyte : ∀ k < 3, (calculateEcc cfg buf eccsize).byte cfg.smc k =
      (bitwiseEcc cfg buf eccsize).byte cfg.smc k := by
    intro k hk
    rw [Ecc.byte_eq_pairsByte fun s hs => hslot (s + 4 * k) (by omega)]
    cases cfg with
    | mk smc bigEndian => cases smc <;> interval_cases k <;> rfl
  have h0 := hbyte 0 (by decide)
  have h1 := hbyte 1 (by decide)
  have h2 := hbyte 2 (by decide)
  cases cfg with
  | mk smc bigEndian =>
    cases smc with
    | false => exact Ecc.ext h1 h0 h2
    | true => exact Ecc.ext h0 h1 h2

/-- A block with three bits set. -/
theorem threeBits_eq_bitwiseEcc :
    let cfg : Config := ⟨true, false⟩
    let buf : Buf := fun i => if i = 5 then 0x88 else if i = 200 then 1 else 0
    calculateEcc cfg buf 256 = bitwiseEcc cfg buf 256 ∧
      calculateEcc cfg buf 256 = ⟨0x6A, 0x5A, 0x6B⟩ := by
  intro cfg buf
  exact ⟨calculateEcc_eq_bitwiseEcc cfg buf (Or.inl rfl), by decide +kernel⟩

end Code

end Mini2440.Nand
