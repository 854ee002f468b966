import Mathlib.Data.List.DropRight
import Mathlib.Data.Nat.Digits.Lemmas
import Mini2440.Text.Parse

/-!
# Decimal numerals

The conversion of `lib/vsprintf.c` for machines with 32 bits. The functions put the digits of a
number into a buffer, the least significant one first; here they return what they have written.
Divisions by ten and by ten thousand are multiplications and shifts, which are exact below certain
bounds, and a 64 bit number is taken apart into its 16 bit parts.
-/

namespace Mini2440.Text

open List BitVec Library

/-! ## The functions -/

/-- The end of `put_dec_trunc8`, for a number of up to four digits. -/
def putDecTail (r : Word) : List Byte :=
  let q := (r * 0x199a) >>> 16
  let c₁ := ((r - 10 * q) + 0x30).setWidth 8
  if q = 0 then [c₁]
  else
    let r := (q * 0xcd) >>> 11
    let c₂ := ((q - 10 * r) + 0x30).setWidth 8
    if r = 0 then [c₁, c₂]
    else
      let q := (r * 0xcd) >>> 11
      let c₃ := ((r - 10 * q) + 0x30).setWidth 8
      if q = 0 then [c₁, c₂, c₃]
      else [c₁, c₂, c₃, (q + 0x30).setWidth 8]

/-- The loop of `put_dec_trunc8`, with a limit for the number of rounds. -/
def putDecTruncLoop : Nat → Word → List Byte
  | 0, r => putDecTail r
  | rounds + 1, r =>
    if 10000 ≤ r then
      let q := r + 0x30
      let r := ((r.setWidth 64 * 0x1999999a#64) >>> 32).setWidth 32
      (q - 10 * r).setWidth 8 :: putDecTruncLoop rounds r
    else putDecTail r

/-- `put_dec_trunc8`. A number of 32 bits has at most six digits more than four. -/
def putDecTrunc8 (r : Word) : List Byte := putDecTruncLoop 6 r

def putDecFull4 (q : Word) : List Byte :=
  let r := (q * 0xccd) >>> 15
  let c₀ := ((q - 10 * r) + 0x30).setWidth 8
  let q := (r * 0xcd) >>> 11
  let c₁ := ((r - 10 * q) + 0x30).setWidth 8
  let r := (q * 0xcd) >>> 11
  let c₂ := ((q - 10 * r) + 0x30).setWidth 8
  [c₀, c₁, c₂, (r + 0x30).setWidth 8]

/-- `put_dec_helper4`: what it writes and what it returns. -/
def putDecHelper4 (x : Word) : List Byte × Word :=
  let q := ((x.setWidth 64 * 0x346dc5d7#64) >>> 43).setWidth 32
  (putDecFull4 (x - q * 10000), q)

def putDec (n : BitVec 64) : List Byte :=
  if n < 100000000 then putDecTrunc8 (n.setWidth 32)
  else
    let low : Word := n.setWidth 32
    let d1 := low >>> 16
    let h : Word := (n >>> 32).setWidth 32
    let d2 := h &&& 0xffff
    let d3 := h >>> 16
    let p₀ := putDecHelper4 (656 * d3 + 7296 * d2 + 5536 * d1 + (low &&& 0xffff))
    let p₁ := putDecHelper4 (p₀.2 + (7671 * d3 + 9496 * d2 + 6 * d1))
    let p₂ := putDecHelper4 (p₁.2 + (4749 * d3 + 42 * d2))
    let q := p₂.2 + 281 * d3
    if q ≠ 0 then p₀.1 ++ p₁.1 ++ p₂.1 ++ putDecTrunc8 q
    else (p₀.1 ++ p₁.1 ++ p₂.1).rdropWhile (· = chr '0')

/-- `num_to_str`: the length that it returns and the characters that it stores. -/
def numToStr (size : Int) (num : BitVec 64) : Int × List Byte :=
  let tmp := if num ≤ 9 then [chr '0' + num.setWidth 8] else putDec num
  if size < tmp.length then (0, []) else (tmp.length, tmp.reverse)

/-! ## Digits -/

def digitChar (d : Nat) : Byte := BitVec.ofNat 8 (d + 0x30)

def decimalDigits (n : Nat) : List Byte := (Nat.digits 10 n).map digitChar

def decimalNumeral (n : Nat) : List Byte :=
  if n = 0 then [chr '0'] else (decimalDigits n).reverse

variable {n m a d : Nat} {q r x : Word}

lemma decimalDigits_step (hn : 0 < n) :
    decimalDigits n = digitChar (n % 10) :: decimalDigits (n / 10) := by
  rw [decimalDigits, Nat.digits_def' (by decide) hn, map_cons, decimalDigits]

lemma decimalDigits_zero : decimalDigits 0 = [] := by
  rw [decimalDigits, Nat.digits_zero, map_nil]

lemma lastDigit (h : r.toNat = q.toNat / 10) :
    ((q - 10 * r) + 0x30).setWidth 8 = digitChar (q.toNat % 10) := by
  rw [digitChar]
  bv_omega

/-! ## Divisions -/

/-- A division by a multiplication and a shift: the multiplier exceeds the reciprocal by so little
that the error stays below one unit. -/
lemma mul_div_two_pow {x k e M : Nat} (hM : M * d = 2 ^ k + e)
    (hbound : x / d * e + x % d * M < 2 ^ k) : x * M / 2 ^ k = x / d := by
  have hsplit : x * M = 2 ^ k * (x / d) + (x / d * e + x % d * M) := by
    calc x * M = (d * (x / d) + x % d) * M := by rw [Nat.div_add_mod]
      _ = x / d * (M * d) + x % d * M := by ring
      _ = 2 ^ k * (x / d) + (x / d * e + x % d * M) := by rw [hM]; ring
  rw [hsplit, Nat.mul_add_div (Nat.two_pow_pos k), Nat.div_eq_of_lt hbound, Nat.add_zero]

lemma div_ten_small (h : q.toNat < 16389) : ((q * 0x199a) >>> 16).toNat = q.toNat / 10 := by
  have hnat : ((q * 0x199a) >>> 16).toNat = q.toNat * 0x199a / 2 ^ 16 := by bv_omega
  rw [hnat, mul_div_two_pow (d := 10) (e := 4) (by decide) (by omega)]

lemma div_ten_tiny (h : q.toNat < 1029) : ((q * 0xcd) >>> 11).toNat = q.toNat / 10 := by
  have hnat : ((q * 0xcd) >>> 11).toNat = q.toNat * 0xcd / 2 ^ 11 := by bv_omega
  rw [hnat, mul_div_two_pow (d := 10) (e := 2) (by decide) (by omega)]

lemma div_ten_short (h : q.toNat < 16389) : ((q * 0xccd) >>> 15).toNat = q.toNat / 10 := by
  have hnat : ((q * 0xccd) >>> 15).toNat = q.toNat * 0xccd / 2 ^ 15 := by bv_omega
  rw [hnat, mul_div_two_pow (d := 10) (e := 2) (by decide) (by omega)]

lemma toNat_mul_shift {c k : Nat} (hc : c < 2 ^ 32) (hsmall : x.toNat * c / 2 ^ k < 2 ^ 32) :
    (((x.setWidth 64 * BitVec.ofNat 64 c) >>> k).setWidth 32).toNat = x.toNat * c / 2 ^ k := by
  have hx := x.isLt
  have hmul : x.toNat * c < 2 ^ 32 * 2 ^ 32 := Nat.mul_lt_mul'' hx hc
  rw [toNat_setWidth, toNat_ushiftRight, toNat_mul, toNat_setWidth,
    toNat_ofNat, Nat.mod_eq_of_lt (show x.toNat < 2 ^ 64 by omega),
    Nat.mod_eq_of_lt (show c < 2 ^ 64 by omega),
    Nat.mod_eq_of_lt (show x.toNat * c < 2 ^ 64 by omega), Nat.shiftRight_eq_div_pow,
    Nat.mod_eq_of_lt hsmall]

lemma div_ten_large (h : r.toNat < 1073741829) :
    (((r.setWidth 64 * 0x1999999a#64) >>> 32).setWidth 32).toNat = r.toNat / 10 := by
  rw [toNat_mul_shift (by decide) (by omega),
    mul_div_two_pow (d := 10) (e := 4) (by decide) (by omega)]

lemma div_ten_thousand (h : x.toNat < 1128869999) :
    (((x.setWidth 64 * 0x346dc5d7#64) >>> 43).setWidth 32).toNat = x.toNat / 10000 := by
  rw [toNat_mul_shift (by decide) (by omega),
    mul_div_two_pow (d := 10000) (e := 7792) (by decide) (by omega)]

/-! ## Short numbers -/

lemma eq_zero_iff (h : r.toNat = n) : r = 0 ↔ n = 0 := by
  rw [← toNat_inj, h]
  rfl

lemma topDigit : (q + 0x30).setWidth 8 = digitChar q.toNat := by
  rw [digitChar]
  bv_omega

lemma putDecTail_eq (hpos : 0 < r.toNat) (hlt : r.toNat < 10000) :
    putDecTail r = decimalDigits r.toNat := by
  have h₁ := div_ten_small (q := r) (by omega)
  have h₂ := div_ten_tiny (q := (r * 0x199a) >>> 16) (by omega)
  have h₃ := div_ten_tiny (q := (((r * 0x199a) >>> 16) * 0xcd) >>> 11) (by omega)
  rw [putDecTail]
  dsimp only
  rw [lastDigit h₁, lastDigit h₂, lastDigit h₃, decimalDigits_step hpos]
  split
  · next hzero => rw [(eq_zero_iff h₁).mp hzero, decimalDigits_zero]
  next hne =>
  have hne := mt (eq_zero_iff h₁).mpr hne
  rw [← h₁, decimalDigits_step (by omega)]
  split
  · next hzero => rw [(eq_zero_iff h₂).mp hzero, decimalDigits_zero]
  next hne' =>
  have hne' := mt (eq_zero_iff h₂).mpr hne'
  rw [← h₂, decimalDigits_step (by omega)]
  split
  · next hzero => rw [(eq_zero_iff h₃).mp hzero, decimalDigits_zero]
  next hne'' =>
  have hne'' := mt (eq_zero_iff h₃).mpr hne''
  have hlast : ((((r * 0x199a) >>> 16 * 0xcd) >>> 11 * 0xcd) >>> 11).toNat < 10 := by omega
  rw [← h₃, decimalDigits_step (by omega), topDigit, Nat.mod_eq_of_lt hlast,
    Nat.div_eq_of_lt hlast, decimalDigits_zero]

lemma loopDigit (h : q.toNat = r.toNat / 10) :
    (r + 0x30 - 10 * q).setWidth 8 = digitChar (r.toNat % 10) := by
  rw [digitChar]
  bv_omega

lemma putDecTruncLoop_eq (rounds : Nat) (hpos : 0 < r.toNat) (hlt : r.toNat < 10000 * 10 ^ rounds)
    (hbound : r.toNat < 1073741829) : putDecTruncLoop rounds r = decimalDigits r.toNat := by
  induction rounds generalizing r with
  | zero => exact putDecTail_eq hpos (by omega)
  | succ rounds ih =>
    rw [putDecTruncLoop]
    split
    · next hge =>
      have hdiv := div_ten_large hbound
      have hnat : 10000 ≤ r.toNat := hge
      rw [decimalDigits_step hpos, ← hdiv]
      dsimp only
      rw [ih (by omega) (by omega) (by omega), loopDigit hdiv]
    · next hge =>
      have hnat : ¬ 10000 ≤ r.toNat := hge
      exact putDecTail_eq hpos (by omega)

lemma putDecTrunc8_eq (hpos : 0 < r.toNat) (hlt : r.toNat < 100000000) :
    putDecTrunc8 r = decimalDigits r.toNat :=
  putDecTruncLoop_eq 6 hpos (by omega) (by omega)

/-! ## Groups of four digits -/

def four (a : Nat) : List Byte :=
  [digitChar (a % 10), digitChar (a / 10 % 10), digitChar (a / 100 % 10), digitChar (a / 1000 % 10)]

lemma putDecFull4_eq (h : q.toNat < 10000) : putDecFull4 q = four q.toNat := by
  have h₁ := div_ten_short (q := q) (by omega)
  have h₂ := div_ten_tiny (q := (q * 0xccd) >>> 15) (by omega)
  have h₃ := div_ten_tiny (q := (((q * 0xccd) >>> 15) * 0xcd) >>> 11) (by omega)
  rw [putDecFull4, lastDigit h₁, lastDigit h₂, lastDigit h₃, topDigit, h₃, h₂, h₁, four,
    Nat.div_div_eq_div_mul, Nat.div_div_eq_div_mul,
    Nat.mod_eq_of_lt (show q.toNat / 1000 < 10 by omega)]

lemma putDecHelper4_eq (h : x.toNat < 1128869999) :
    (putDecHelper4 x).1 = four (x.toNat % 10000) ∧ (putDecHelper4 x).2.toNat = x.toNat / 10000 := by
  have hdiv := div_ten_thousand h
  refine ⟨?_, hdiv⟩
  have hmod : (x - ((x.setWidth 64 * 0x346dc5d7#64) >>> 43).setWidth 32 * 10000).toNat =
      x.toNat % 10000 := by
    bv_omega
  rw [putDecHelper4, putDecFull4_eq (by omega), hmod]

lemma decimalDigits_four (ha : a < 10000) (hm : 0 < m) :
    decimalDigits (a + 10000 * m) = four a ++ decimalDigits m := by
  rw [decimalDigits_step (by omega), decimalDigits_step (by omega), decimalDigits_step (by omega),
    decimalDigits_step (by omega)]
  have hrest : (a + 10000 * m) / 10 / 10 / 10 / 10 = m := by omega
  have h₀ : (a + 10000 * m) % 10 = a % 10 := by omega
  have h₁ : (a + 10000 * m) / 10 % 10 = a / 10 % 10 := by omega
  have h₂ : (a + 10000 * m) / 10 / 10 % 10 = a / 100 % 10 := by omega
  have h₃ : (a + 10000 * m) / 10 / 10 / 10 % 10 = a / 1000 % 10 := by omega
  rw [hrest, h₀, h₁, h₂, h₃]
  rfl

lemma digitChar_eq_zero (hd : d < 10) : digitChar d = chr '0' ↔ d = 0 := by
  rw [digitChar, chr, ← toNat_inj, toNat_ofNat, toNat_ofNat]
  have hzero : '0'.toNat = 48 := rfl
  omega

lemma rdropWhile_digit (hd : d < 10) (l : List Byte) :
    (l ++ [digitChar d]).rdropWhile (· = chr '0') =
      if d = 0 then l.rdropWhile (· = chr '0') else l ++ [digitChar d] := by
  rw [rdropWhile_concat]
  simp [digitChar_eq_zero hd]

lemma rdropWhile_four (hpos : 0 < a) (ha : a < 10000) (l : List Byte) :
    (l ++ four a).rdropWhile (· = chr '0') = l ++ decimalDigits a := by
  have hfour : l ++ four a = l ++ [digitChar (a % 10)] ++ [digitChar (a / 10 % 10)] ++
      [digitChar (a / 100 % 10)] ++ [digitChar (a / 1000 % 10)] := by simp [four]
  have hmod : ∀ b, b % 10 < 10 := fun b => Nat.mod_lt b (by decide)
  rw [hfour, rdropWhile_digit (hmod _), rdropWhile_digit (hmod _), rdropWhile_digit (hmod _),
    rdropWhile_digit (hmod _), decimalDigits_step hpos]
  by_cases h₁ : a / 10 = 0
  · rw [h₁, decimalDigits_zero]
    rw [if_pos (by omega), if_pos (by omega), if_pos (by omega), if_neg (by omega)]
  rw [decimalDigits_step (Nat.pos_of_ne_zero h₁), Nat.div_div_eq_div_mul]
  by_cases h₂ : a / 100 = 0
  · rw [h₂, decimalDigits_zero]
    rw [if_pos (by omega), if_pos (by omega), if_neg (by omega)]
    simp
  rw [decimalDigits_step (Nat.pos_of_ne_zero h₂), Nat.div_div_eq_div_mul]
  by_cases h₃ : a / 1000 = 0
  · rw [h₃, decimalDigits_zero]
    rw [if_pos (by omega), if_neg (by omega)]
    simp
  rw [decimalDigits_step (Nat.pos_of_ne_zero h₃), Nat.div_eq_of_lt (show a / 1000 < 10 by omega),
    decimalDigits_zero, if_neg (by omega)]
  simp

/-! ## Long numbers -/

lemma toNat_and_low : (x &&& 0xffff).toNat = x.toNat % 65536 := by
  exact Nat.and_two_pow_sub_one_eq_mod x.toNat 16

lemma sixteen_bit_parts :
    n % 2 ^ 16 + 2 ^ 16 * (n / 2 ^ 16 % 2 ^ 16) + 2 ^ 32 * (n / 2 ^ 32 % 2 ^ 16) +
      2 ^ 48 * (n / 2 ^ 48) = n := by
  omega

/-- The 16 bit parts of a number give its last twelve digits, in groups of four, and the rest.
None of the sums is too large for the division. -/
lemma putDec_groups (d0 d1 d2 d3 : Word) (h0 : d0.toNat < 65536) (h1 : d1.toNat < 65536)
    (h2 : d2.toNat < 65536) (h3 : d3.toNat < 65536) :
    let p₀ := putDecHelper4 (656 * d3 + 7296 * d2 + 5536 * d1 + d0)
    let p₁ := putDecHelper4 (p₀.2 + (7671 * d3 + 9496 * d2 + 6 * d1))
    let p₂ := putDecHelper4 (p₁.2 + (4749 * d3 + 42 * d2))
    ∃ a₀ a₁ a₂, a₀ < 10000 ∧ a₁ < 10000 ∧ a₂ < 10000 ∧
      p₀.1 = four a₀ ∧ p₁.1 = four a₁ ∧ p₂.1 = four a₂ ∧
      d0.toNat + 2 ^ 16 * d1.toNat + 2 ^ 32 * d2.toNat + 2 ^ 48 * d3.toNat =
        a₀ + 10000 * (a₁ + 10000 * (a₂ + 10000 * (p₂.2 + 281 * d3).toNat)) := by
  intro p₀ p₁ p₂
  have hx₀ : (656 * d3 + 7296 * d2 + 5536 * d1 + d0).toNat =
      656 * d3.toNat + 7296 * d2.toNat + 5536 * d1.toNat + d0.toNat := by bv_omega
  obtain ⟨hc₀, hq₀⟩ : p₀.1 = four _ ∧ p₀.2.toNat = _ :=
    putDecHelper4_eq (x := 656 * d3 + 7296 * d2 + 5536 * d1 + d0) (by omega)
  have hx₁ : (p₀.2 + (7671 * d3 + 9496 * d2 + 6 * d1)).toNat =
      p₀.2.toNat + (7671 * d3.toNat + 9496 * d2.toNat + 6 * d1.toNat) := by bv_omega
  obtain ⟨hc₁, hq₁⟩ : p₁.1 = four _ ∧ p₁.2.toNat = _ :=
    putDecHelper4_eq (x := p₀.2 + (7671 * d3 + 9496 * d2 + 6 * d1)) (by omega)
  have hx₂ : (p₁.2 + (4749 * d3 + 42 * d2)).toNat =
      p₁.2.toNat + (4749 * d3.toNat + 42 * d2.toNat) := by bv_omega
  obtain ⟨hc₂, hq₂⟩ : p₂.1 = four _ ∧ p₂.2.toNat = _ :=
    putDecHelper4_eq (x := p₁.2 + (4749 * d3 + 42 * d2)) (by omega)
  have hx₃ : (p₂.2 + 281 * d3).toNat = p₂.2.toNat + 281 * d3.toNat := by bv_omega
  refine ⟨_, _, _, Nat.mod_lt _ (by decide), Nat.mod_lt _ (by decide), Nat.mod_lt _ (by decide),
    hc₀, hc₁, hc₂, ?_⟩
  omega

lemma putDec_eq (n : BitVec 64) (hn : n ≠ 0) : putDec n = decimalDigits n.toNat := by
  have hpos : 0 < n.toNat := by bv_omega
  rw [putDec]
  split
  · next hshort =>
    have hshort : n.toNat < 100000000 := hshort
    have hnat : (n.setWidth 32).toNat = n.toNat := by bv_omega
    rw [putDecTrunc8_eq (by omega) (by omega), hnat]
  next hlong =>
  have hlong : ¬ n.toNat < 100000000 := hlong
  have hd0 : (n.setWidth 32 &&& 0xffff).toNat = n.toNat % 2 ^ 16 := by
    rw [toNat_and_low, toNat_setWidth]
    omega
  have hd1 : (n.setWidth 32 >>> 16).toNat = n.toNat / 2 ^ 16 % 2 ^ 16 := by bv_omega
  have hd2 : ((n >>> 32).setWidth 32 &&& 0xffff).toNat = n.toNat / 2 ^ 32 % 2 ^ 16 := by
    rw [toNat_and_low, toNat_setWidth, toNat_ushiftRight]
    omega
  have hd3 : ((n >>> 32).setWidth 32 >>> 16).toNat = n.toNat / 2 ^ 48 := by bv_omega
  obtain ⟨a₀, a₁, a₂, ha₀, ha₁, ha₂, hc₀, hc₁, hc₂, hsum⟩ := putDec_groups
    (n.setWidth 32 &&& 0xffff) (n.setWidth 32 >>> 16) ((n >>> 32).setWidth 32 &&& 0xffff)
    ((n >>> 32).setWidth 32 >>> 16) (by omega) (by omega) (by omega) (by omega)
  rw [hd0, hd1, hd2, hd3, sixteen_bit_parts] at hsum
  dsimp only
  rw [hc₀, hc₁, hc₂]
  revert hsum
  generalize (putDecHelper4 _).2 + 281 * _ = q
  intro hsum
  split
  · next hq =>
    have hq : 0 < q.toNat := by bv_omega
    rw [putDecTrunc8_eq hq (by omega), hsum, decimalDigits_four ha₀ (by omega),
      decimalDigits_four ha₁ (by omega), decimalDigits_four ha₂ hq]
    simp
  · next hq =>
    have hq : q.toNat = 0 := by bv_omega
    rw [hq, Nat.add_zero] at hsum
    rw [rdropWhile_four (by omega) ha₂, hsum, decimalDigits_four ha₀ (by omega),
      decimalDigits_four ha₁ (by omega), List.append_assoc]

/-! ## Numerals -/

lemma numToStr_eq (num : BitVec 64) {size : Int}
    (hsize : (decimalNumeral num.toNat).length ≤ size) :
    numToStr size num = (((decimalNumeral num.toNat).length : Int), decimalNumeral num.toNat) := by
  have htmp : (if num ≤ 9 then [chr '0' + num.setWidth 8] else putDec num) =
      (decimalNumeral num.toNat).reverse := by
    split
    · next hsmall =>
      have hsmall : num.toNat ≤ 9 := hsmall
      have hchar : chr '0' + num.setWidth 8 = digitChar num.toNat := by
        rw [digitChar, show chr '0' = 0x30 from rfl]
        bv_omega
      rw [decimalNumeral, hchar]
      split
      · next hzero => rw [hzero]; rfl
      · next hzero =>
        rw [reverse_reverse, decimalDigits_step (Nat.pos_of_ne_zero hzero),
          Nat.mod_eq_of_lt (by omega), Nat.div_eq_of_lt (by omega), decimalDigits_zero]
    · next hlarge =>
      have hlarge : ¬ num.toNat ≤ 9 := hlarge
      rw [decimalNumeral, if_neg (by omega), reverse_reverse, putDec_eq]
      rintro rfl
      exact hlarge (by decide)
  rw [numToStr, htmp, length_reverse, reverse_reverse, if_neg (by omega)]

lemma digitOf_digitChar (h : d < 10) : digitOf (digitChar d) = some d := by
  decide +revert

lemma value_decimalDigits : value 10 (decimalDigits n).reverse = n := by
  have hread : ∀ ds : List Nat, (∀ d ∈ ds, d < 10) →
      value 10 (ds.map digitChar).reverse = Nat.ofDigits 10 ds := by
    intro ds hds
    induction ds with
    | nil => rfl
    | cons d ds ih =>
      have ih := ih fun d' hd' => hds d' (mem_cons_of_mem d hd')
      rw [value, valueFrom] at ih ⊢
      rw [map_cons, reverse_cons, foldl_append, Nat.ofDigits_cons]
      simp only [foldl_cons, foldl_nil, digitOf_digitChar (hds d mem_cons_self), Option.getD_some]
      omega
  rw [decimalDigits, hread _ fun d hd => Nat.digits_lt_base (by decide) hd, Nat.ofDigits_digits]

lemma isDigit_of_mem_decimalNumeral {c : Byte} (hc : c ∈ decimalNumeral n) : IsDigit 10 c := by
  rw [decimalNumeral] at hc
  split at hc
  · rw [mem_singleton] at hc
    subst hc
    decide
  · rw [mem_reverse, decimalDigits, mem_map] at hc
    obtain ⟨d, hd, rfl⟩ := hc
    have hd := Nat.digits_lt_base (by decide) hd
    exact ⟨d, digitOf_digitChar hd, hd⟩

lemma decimalNumeral_ne_nil : decimalNumeral n ≠ [] := by
  rw [decimalNumeral]
  split
  · simp
  · next hzero =>
    rw [decimalDigits_step (pos_of_ne_zero hzero)]
    simp

lemma numeral_decimalNumeral (n : Nat) : Numeral 10 10 (decimalNumeral n) n := by
  have hvalue : value 10 (decimalNumeral n) = n := by
    rw [decimalNumeral]
    split
    · next hzero => rw [hzero]; rfl
    · exact value_decimalDigits
  have hnumeral := Numeral.plain (.inr (.inl rfl)) decimalNumeral_ne_nil
    fun c (hc : c ∈ decimalNumeral n) => isDigit_of_mem_decimalNumeral hc
  rwa [hvalue] at hnumeral

lemma length_decimalNumeral (num : BitVec 64) : (decimalNumeral num.toNat).length ≤ 20 := by
  rw [decimalNumeral]
  split
  · simp
  · rw [length_reverse, decimalDigits, length_map, Nat.digits_length_le_iff (by decide)]
    omega

lemma kstrtoull_decimalNumeral (num res : BitVec 64) :
    kstrtoull (decimalNumeral num.toNat) 10 res = (0, num) := by
  have hnumeral := numeral_decimalNumeral num.toNat
  have hlen := length_decimalNumeral num
  have hsigned : Signed 10 (decimalNumeral num.toNat) false num.toNat [] :=
    ⟨_, _, .absent, rfl, ⟨_, _, (append_nil _).symm, hnumeral, by simp⟩⟩
  rw [kstrtoull_ok ⟨fun hmem => not_isDigit_zero (isDigit_of_mem_decimalNumeral hmem),
    shortRuns_of_length (by omega)⟩ hsigned (.inl rfl) num.isLt, ofNat_toNat,
    setWidth_eq]

/-- `put_dec` writes the digits of every number but zero; `num_to_str` gives the usual numeral of
every number when the buffer has room for it, and `kstrtoull` reads it back. -/
theorem decimal_exact :
    (∀ n : BitVec 64, n ≠ 0 → putDec n = decimalDigits n.toNat) ∧
      ∀ (n res : BitVec 64) (size : Int), (decimalNumeral n.toNat).length ≤ size →
        numToStr size n = (((decimalNumeral n.toNat).length : Int), decimalNumeral n.toNat) ∧
          kstrtoull (decimalNumeral n.toNat) 10 res = (0, n) :=
  ⟨putDec_eq, fun n res _ hsize => ⟨numToStr_eq n hsize, kstrtoull_decimalNumeral n res⟩⟩

/-- The largest number, which has twenty digits, in the buffer that `num_to_str` uses itself. -/
theorem decimal_exact_largest :
    putDec 0xffffffffffffffff = decimalDigits 0xffffffffffffffff ∧
      numToStr 24 0xffffffffffffffff =
        (((decimalNumeral 0xffffffffffffffff).length : Int), decimalNumeral 0xffffffffffffffff) ∧
      kstrtoull (decimalNumeral 0xffffffffffffffff) 10 0 = (0, 0xffffffffffffffff) := by
  have hlen := length_decimalNumeral 0xffffffffffffffff
  have hfits : ((decimalNumeral (0xffffffffffffffff : BitVec 64).toNat).length : Int) ≤ 24 := by
    omega
  exact ⟨decimal_exact.1 0xffffffffffffffff (by decide),
    decimal_exact.2 0xffffffffffffffff 0 24 hfits⟩

end Mini2440.Text
