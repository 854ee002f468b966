import Mini2440.Crc32.Table

/-!
# The sliced CRC of `lib/crc32.c`

`crc32_le` on a little-endian machine, for the variants with one bit, four tables and eight tables.
The sliced variants go through single bytes until the buffer is aligned, through words or pairs of
words, and through the bytes that are left. All of them are the register of the bitwise loop, which
takes a byte into its low bits and then makes eight steps.
-/

namespace Mini2440.Crc32

open List BitVec Library

/-- `CRC_LE_BITS` of the sliced variants. -/
inductive Slice where
  | by4 | by8
  deriving DecidableEq, Repr

/-- `LE_TABLE_ROWS`. -/
def Slice.rows : Slice → Nat
  | .by4 => 4
  | .by8 => 8

/-- `CRC_LE_BITS == 1`: the loop over the bits of a byte. -/
def bitwiseByte (polynomial crc : Word) (byte : Byte) : Word :=
  shifts polynomial 8 (crc ^^^ byte.setWidth 32)

/-- `crc32_le_generic` with `CRC_LE_BITS == 1`. -/
def crc32LeBitwise (polynomial crc : Word) (p : List Byte) : Word :=
  p.foldl (bitwiseByte polynomial) crc

section Body

variable (tab : Table)

def doCrc (crc : Word) (x : Byte) : Word :=
  tab 0 ((crc ^^^ x.setWidth 32) &&& 0xff#32).toNat ^^^ (crc >>> 8)

def doCrc4 (q : Word) : Word :=
  tab 3 (q &&& 0xff#32).toNat ^^^ tab 2 ((q >>> 8) &&& 0xff#32).toNat ^^^
    tab 1 ((q >>> 16) &&& 0xff#32).toNat ^^^ tab 0 ((q >>> 24) &&& 0xff#32).toNat

def doCrc8 (q : Word) : Word :=
  tab 7 (q &&& 0xff#32).toNat ^^^ tab 6 ((q >>> 8) &&& 0xff#32).toNat ^^^
    tab 5 ((q >>> 16) &&& 0xff#32).toNat ^^^ tab 4 ((q >>> 24) &&& 0xff#32).toNat

/-- The loop that aligns the buffer: bytes as long as the address is not a multiple of four. -/
def alignLoop : Word → Nat → List Byte → Word × List Byte
  | crc, _, [] => (crc, [])
  | crc, addr, x :: buf =>
    if addr &&& 3 ≠ 0 then alignLoop (doCrc tab crc x) (addr + 1) buf else (crc, x :: buf)

def le32 : List Byte → Word
  | [] => 0#32
  | x :: bytes => x.setWidth 32 ||| (le32 bytes <<< 8)

/-- The load `*b`, from the bytes that `b` points to. -/
def loadWord (buf : List Byte) : Word := le32 (buf.take 4)

def wordLoop (slice : Slice) : Nat → Word → List Byte → Word × List Byte
  | 0, crc, buf => (crc, buf)
  | len + 1, crc, buf =>
    match slice with
    | .by4 => wordLoop slice len (doCrc4 tab (crc ^^^ loadWord buf)) (buf.drop 4)
    | .by8 =>
      let crc := doCrc8 tab (crc ^^^ loadWord buf)
      let buf := buf.drop 4
      let crc := crc ^^^ doCrc4 tab (loadWord buf)
      wordLoop slice len crc (buf.drop 4)

/-- `rem_len` and the number of rounds for a length. -/
def Slice.split (slice : Slice) (len : Nat) : Nat × Nat :=
  match slice with
  | .by4 => (len &&& 3, len >>> 2)
  | .by8 => (len &&& 7, len >>> 3)

/-- `crc32_body`, for a buffer at an address. -/
def crc32Body (slice : Slice) (crc : Word) (addr : Nat) (buf : List Byte) : Word :=
  let (crc, buf) := alignLoop tab crc addr buf
  let (remLen, len) := slice.split buf.length
  let (crc, p) := wordLoop tab slice len crc buf
  (p.take remLen).foldl (doCrc tab) crc

end Body

/-- `crc32_le_generic` of a sliced variant; words are little-endian already. -/
def crc32LeGeneric (slice : Slice) (crc : Word) (addr : Nat) (p : List Byte) (tab : Table) : Word :=
  crc32Body tab slice crc addr p

/-- `crc32_le`, with the table that the generator computes. -/
def crc32Le (slice : Slice) (crc : Word) (addr : Nat) (p : List Byte) : Word :=
  crc32LeGeneric slice crc addr p (crc32initLeGeneric slice.rows crcpolyLe fun _ _ => 0#32)

/-! ## Bytes and words -/

variable {polynomial : Word} {tab : Table} {rows : Nat}

def Tabulates (polynomial : Word) (rows : Nat) (tab : Table) : Prop :=
  ∀ i < 256, Right polynomial rows tab i

lemma setWidth_ushiftRight (x : Byte) : x.setWidth 32 >>> 8 = 0#32 := by
  apply eq_of_getLsbD_eq
  simp

section Lookup

variable (h : Tabulates polynomial rows tab) {j : Nat}

include h

lemma Tabulates.lookup (hj : j < rows) (c : Word) :
    tab j (c &&& 0xff#32).toNat = shifts polynomial (8 * (j + 1)) (c &&& 0xff#32) := by
  rw [h _ (toNat_and_255_lt c) j hj, ofNat_toNat, setWidth_eq]

lemma doCrc_eq (hrows : 0 < rows) (crc : Word) (x : Byte) :
    doCrc tab crc x = bitwiseByte polynomial crc x := by
  rw [doCrc, h.lookup hrows, bitwiseByte, shifts_eight (crc ^^^ x.setWidth 32),
    ushiftRight_xor_distrib, setWidth_ushiftRight, xor_zero]

/-- The steps of a word, one byte of it at a time. -/
lemma Tabulates.shifts (hj : j < rows) (q : Word) :
    shifts polynomial (8 * (j + 1)) q =
      tab j (q &&& 0xff#32).toNat ^^^ Library.shifts polynomial (8 * j) (q >>> 8) := by
  rw [h.lookup hj, Nat.mul_succ, shifts_add, shifts_eight, shifts_xor, ← shifts_add]

/-- Four steps through rows `j + 3` to `j` make `8 * (j + 4)` steps of the word. -/
lemma Tabulates.four (hj : j + 3 < rows) (q : Word) :
    tab (j + 3) (q &&& 0xff#32).toNat ^^^ tab (j + 2) ((q >>> 8) &&& 0xff#32).toNat ^^^
        tab (j + 1) ((q >>> 16) &&& 0xff#32).toNat ^^^ tab j ((q >>> 24) &&& 0xff#32).toNat =
      Library.shifts polynomial (8 * (j + 4)) q := by
  have hzero : q >>> 32 = 0#32 := by bv_omega
  rw [h.shifts (by omega : j + 3 < rows), h.shifts (by omega : j + 2 < rows),
    h.shifts (by omega : j + 1 < rows), h.shifts (by omega : j < rows)]
  simp [hzero, shifts_zero_word, xor_assoc]

lemma doCrc4_eq (hrows : 4 ≤ rows) (q : Word) :
    doCrc4 tab q = shifts polynomial 32 q := h.four (by omega : 0 + 3 < rows) q

lemma doCrc8_eq (hrows : 8 ≤ rows) (q : Word) :
    doCrc8 tab q = shifts polynomial 64 q := h.four (by omega : 4 + 3 < rows) q

end Lookup

lemma getLsbD_le32 (bytes : List Byte) {i : Nat} (hi : 8 * bytes.length ≤ i) :
    (le32 bytes).getLsbD i = false := by
  induction bytes generalizing i with
  | nil => simp [le32]
  | cons x bytes ih =>
    rw [length_cons] at hi
    have hrest := ih (i := i - 8) (by omega)
    have hx : x.getLsbD i = false := getLsbD_of_ge x i (by omega)
    simp [le32, hrest, hx]

lemma shifts_xor_le32 (crc : Word) (x : Byte) {bytes : List Byte} (hlen : bytes.length ≤ 3) :
    shifts polynomial 8 (crc ^^^ le32 (x :: bytes)) =
      bitwiseByte polynomial crc x ^^^ le32 bytes := by
  have hxor : le32 (x :: bytes) = x.setWidth 32 ^^^ (le32 bytes <<< 8) := by
    apply eq_of_getLsbD_eq
    intro i hi
    rw [le32, getLsbD_or, getLsbD_xor]
    by_cases hlow : i < 8
    · simp [hlow]
    · have hx : (x.setWidth 32).getLsbD i = false := by
        simp [getLsbD_of_ge x i (by omega)]
      rw [hx, Bool.false_or, Bool.false_xor]
  have hlow : shifts polynomial 8 (le32 bytes <<< 8) = le32 bytes := by
    rw [shifts_of_low fun i hi => by simp [hi]]
    apply eq_of_getLsbD_eq
    intro i hi
    rw [getLsbD_ushiftRight, getLsbD_shiftLeft, Nat.add_sub_cancel_left,
      decide_eq_false (by omega : ¬8 + i < 8)]
    by_cases hhigh : 8 + i < 32
    · rw [decide_eq_true hhigh, Bool.not_false, Bool.true_and, Bool.true_and]
    · rw [decide_eq_false hhigh, Bool.false_and, Bool.false_and, getLsbD_le32 bytes (by omega)]
  rw [hxor, ← xor_assoc, shifts_xor, hlow, bitwiseByte]

/-- The bytes of a word one after the other are the word at once. -/
lemma crc32LeBitwise_word (crc : Word) {bytes : List Byte} (hlen : bytes.length ≤ 4) :
    crc32LeBitwise polynomial crc bytes =
      shifts polynomial (8 * bytes.length) (crc ^^^ le32 bytes) := by
  induction bytes generalizing crc with
  | nil => simp [crc32LeBitwise, le32]
  | cons x bytes ih =>
    rw [length_cons] at hlen
    have hrest := ih (bitwiseByte polynomial crc x) (by omega)
    rw [crc32LeBitwise, length_cons, Nat.mul_succ, shifts_add, shifts_xor_le32 crc x (by omega)]
    exact hrest

lemma crc32LeBitwise_append (crc : Word) (a b : List Byte) :
    crc32LeBitwise polynomial crc (a ++ b) =
      crc32LeBitwise polynomial (crc32LeBitwise polynomial crc a) b := foldl_append

lemma crc32LeBitwise_four (crc : Word) {buf : List Byte} (hlen : 4 ≤ buf.length) :
    crc32LeBitwise polynomial crc buf =
      crc32LeBitwise polynomial (shifts polynomial 32 (crc ^^^ loadWord buf)) (buf.drop 4) := by
  have htake : (buf.take 4).length = 4 := by
    rw [length_take]
    omega
  conv => lhs; rw [← take_append_drop 4 buf]
  rw [crc32LeBitwise_append, crc32LeBitwise_word crc htake.le, htake, loadWord]

/-! ## The three loops -/

/-- The loops keep the value that the bitwise loop reaches from a state. -/
lemma alignLoop_spec (h : Tabulates polynomial rows tab) (hrows : 0 < rows) (crc : Word)
    (addr : Nat) (buf : List Byte) :
    crc32LeBitwise polynomial (alignLoop tab crc addr buf).1 (alignLoop tab crc addr buf).2 =
      crc32LeBitwise polynomial crc buf := by
  induction buf generalizing crc addr with
  | nil => rfl
  | cons x buf ih =>
    rw [alignLoop]
    split_ifs
    · rw [ih, doCrc_eq h hrows]
      rfl
    · rfl

def Slice.bytes : Slice → Nat
  | .by4 => 4
  | .by8 => 8

lemma Slice.split_eq (slice : Slice) (len : Nat) :
    slice.split len = (len % slice.bytes, len / slice.bytes) := by
  cases slice with
  | by4 => exact Prod.ext (Nat.and_two_pow_sub_one_eq_mod _ 2) (Nat.shiftRight_eq_div_pow _ 2)
  | by8 => exact Prod.ext (Nat.and_two_pow_sub_one_eq_mod _ 3) (Nat.shiftRight_eq_div_pow _ 3)

lemma wordLoop_spec (slice : Slice) (h : Tabulates polynomial slice.rows tab) {len : Nat}
    (crc : Word) (buf : List Byte) (hlen : slice.bytes * len ≤ buf.length) :
    crc32LeBitwise polynomial (wordLoop tab slice len crc buf).1
          (wordLoop tab slice len crc buf).2 =
        crc32LeBitwise polynomial crc buf ∧
      (wordLoop tab slice len crc buf).2 = buf.drop (slice.bytes * len) := by
  induction len generalizing crc buf with
  | zero => exact ⟨rfl, rfl⟩
  | succ len ih =>
    cases slice with
    | by4 =>
      simp only [Slice.bytes] at hlen ih ⊢
      obtain ⟨hvalue, hrest⟩ := ih (doCrc4 tab (crc ^^^ loadWord buf)) (buf.drop 4)
        (by rw [length_drop]; omega)
      rw [wordLoop]
      refine ⟨?_, ?_⟩
      · rw [hvalue, doCrc4_eq h (by decide), ← crc32LeBitwise_four _ (by omega)]
      · rw [hrest, drop_drop, Nat.mul_succ, Nat.add_comm]
    | by8 =>
      simp only [Slice.bytes] at hlen ih ⊢
      obtain ⟨hvalue, hrest⟩ := ih
        (doCrc8 tab (crc ^^^ loadWord buf) ^^^ doCrc4 tab (loadWord (buf.drop 4)))
        ((buf.drop 4).drop 4) (by rw [length_drop, length_drop]; omega)
      rw [wordLoop]
      refine ⟨?_, ?_⟩
      · have h64 : shifts polynomial 64 (crc ^^^ loadWord buf) =
            shifts polynomial 32 (shifts polynomial 32 (crc ^^^ loadWord buf)) :=
          shifts_add 32 32 _
        simp only [hvalue]
        rw [doCrc8_eq h (by decide), doCrc4_eq h (by decide), h64, ← shifts_xor,
          ← crc32LeBitwise_four _ (by rw [length_drop]; omega),
          ← crc32LeBitwise_four _ (by omega)]
      · simp only [hrest]
        rw [drop_drop, drop_drop]
        congr 1
        omega

/-- A sliced variant with the table of a polynomial is the bitwise loop. -/
lemma crc32Body_eq (slice : Slice) (h : Tabulates polynomial slice.rows tab) (crc : Word)
    (addr : Nat) (buf : List Byte) :
    crc32Body tab slice crc addr buf = crc32LeBitwise polynomial crc buf := by
  have hrows : 0 < slice.rows := by cases slice <;> decide
  rw [← alignLoop_spec h hrows crc addr buf, crc32Body]
  generalize alignLoop tab crc addr buf = start
  obtain ⟨crc, buf⟩ := start
  have hdo : doCrc tab = bitwiseByte polynomial := by
    funext crc x
    exact doCrc_eq h hrows crc x
  obtain ⟨hvalue, hrest⟩ := wordLoop_spec slice h crc buf (Nat.mul_div_le _ _)
  have hleft : (wordLoop tab slice (buf.length / slice.bytes) crc buf).2.length ≤
      buf.length % slice.bytes := by
    rw [hrest, length_drop]
    have := Nat.div_add_mod buf.length slice.bytes
    omega
  simp only [slice.split_eq]
  rw [take_of_length_le hleft, hdo]
  exact hvalue

lemma tabulates_init : Tabulates polynomial rows (crc32initLeGeneric rows polynomial tab) :=
  fun _ hi => crc32initLeGeneric_spec rows hi

/-- Both sliced variants of `crc32_le` are the bitwise CRC, for every seed, buffer and alignment,
so that a buffer can be taken in parts. -/
theorem crc32Le_eq_bitwise (slice : Slice) :
    (∀ crc addr p, crc32Le slice crc addr p = crc32LeBitwise crcpolyLe crc p) ∧
      ∀ crc a b addrA addrB addr,
        crc32Le slice (crc32Le slice crc addrA a) addrB b = crc32Le slice crc addr (a ++ b) := by
  have heq : ∀ crc addr p, crc32Le slice crc addr p = crc32LeBitwise crcpolyLe crc p :=
    fun crc addr p => crc32Body_eq slice (tabulates_init) crc addr p
  refine ⟨heq, fun crc a b addrA addrB addr => ?_⟩
  rw [heq, heq, heq, crc32LeBitwise_append]

lemma crc32LeBitwise_injective (h : polynomial.msb) (p : List Byte) :
    Function.Injective (crc32LeBitwise polynomial · p) := by
  intro c d heq
  induction p generalizing c d with
  | nil => exact heq
  | cons x p ih => exact (BitVec.xor_left_inj _).mp (shifts_injective h 8 (ih heq))

/-- A change of one byte changes the CRC. -/
theorem crc32Le_detects (slice : Slice) (crc : Word) (addr addr' : Nat) (a b : List Byte)
    (x y : Byte) :
    crc32Le slice crc addr (a ++ x :: b) = crc32Le slice crc addr' (a ++ y :: b) ↔ x = y := by
  simp only [crc32Le, crc32LeGeneric, crc32Body_eq slice tabulates_init, crc32LeBitwise_append]
  refine ⟨fun heq => ?_, fun heq => heq ▸ rfl⟩
  have hbyte := crc32LeBitwise_injective (by decide) b heq
  have hword := (BitVec.xor_right_inj _).mp (shifts_injective (by decide) 8 hbyte)
  simpa using congrArg (setWidth 8) hword

/-- The usual check value, of the nine digits. -/
example : crc32LeBitwise crcpolyLe 0xFFFFFFFF#32
    [0x31#8, 0x32#8, 0x33#8, 0x34#8, 0x35#8, 0x36#8, 0x37#8, 0x38#8, 0x39#8] ^^^ 0xFFFFFFFF#32 =
      0xCBF43926#32 := by decide +kernel

end Mini2440.Crc32
