import Mathlib.Data.List.TakeWhile
import Mini2440.Text.Kstrtox

/-!
# Numerals

What the functions of `lib/kstrtox.c` are meant to accept, stated without them: the numerals of a
base and their values. `_kstrtoull` reads exactly these, as long as the number of digits leaves the
overflow flag alone.
-/

namespace Mini2440.Text

open List Library

variable {s t num rest ds : List Byte} {base radix v n : Nat} {c x : Byte} {res : BitVec 64}

/-! ## The language -/

/-- The digits, the letters of both cases being those from ten on. -/
def digitOf (c : Byte) : Option Nat :=
  if 0x30 ≤ c.toNat ∧ c.toNat ≤ 0x39 then some (c.toNat - 0x30)
  else if 0x41 ≤ c.toNat ∧ c.toNat ≤ 0x46 then some (c.toNat - 0x41 + 10)
  else if 0x61 ≤ c.toNat ∧ c.toNat ≤ 0x66 then some (c.toNat - 0x61 + 10)
  else none

def IsDigit (radix : Nat) (c : Byte) : Prop := ∃ v ∈ digitOf c, v < radix

instance : Decidable (IsDigit radix c) :=
  decidable_of_iff ((digitOf c).any (· < radix) = true) (by
    cases h : digitOf c <;> simp [IsDigit, h])

def valueFrom (radix n : Nat) (ds : List Byte) : Nat :=
  ds.foldl (fun v c => v * radix + (digitOf c).getD 0) n

def value (radix : Nat) (ds : List Byte) : Nat := valueFrom radix 0 ds

/-- The numerals of a base with their radix and value. With base 0 the radix is found from the first
characters. -/
inductive Numeral : (base radix : Nat) → List Byte → Nat → Prop where
  | plain {base : Nat} {ds : List Byte} (given : base = 8 ∨ base = 10 ∨ base = 16) (some : ds ≠ [])
      (digits : ∀ c ∈ ds, IsDigit base c) : Numeral base base ds (value base ds)
  | hex {base : Nat} {x : Byte} {ds : List Byte} (given : base = 0 ∨ base = 16)
      (mark : x = chr 'x' ∨ x = chr 'X') (some : ds ≠ []) (digits : ∀ c ∈ ds, IsDigit 16 c) :
      Numeral base 16 (chr '0' :: x :: ds) (value 16 ds)
  | octal {ds : List Byte} (digits : ∀ c ∈ ds, IsDigit 8 c) :
      Numeral 0 8 (chr '0' :: ds) (value 8 (chr '0' :: ds))
  | decimal {c : Byte} {ds : List Byte} (first : c ≠ chr '0')
      (digits : ∀ d ∈ c :: ds, IsDigit 10 d) : Numeral 0 10 (c :: ds) (value 10 (c :: ds))

/-- The string begins with a numeral, and the digits end there. -/
structure Begins (base : Nat) (s : List Byte) (v : Nat) (rest : List Byte) : Prop where
  split : ∃ num radix, s = num ++ rest ∧ Numeral base radix num v ∧
    ∀ c ∈ rest.head?, ¬ IsDigit radix c

/-- The rest that is allowed after a numeral. -/
def Final (rest : List Byte) : Prop := rest = [] ∨ rest = [chr '\n']

/-- No `2 ^ 31` digits follow one another. -/
def ShortRuns (s : List Byte) : Prop :=
  ∀ run, run <:+: s → (∀ c ∈ run, IsDigit 16 c) → run.length < 2 ^ 31

/-! ## Digits -/

lemma digit_eq : digit c = digitOf c := by
  revert c
  decide +kernel

lemma isxdigit_iff : isxdigit c ↔ IsDigit 16 c := by
  revert c
  decide +kernel

lemma tolower_eq_x (c : Byte) : tolower c = chr 'x' ↔ c = chr 'x' ∨ c = chr 'X' := by
  revert c
  decide +kernel

lemma not_isDigit_x (h : tolower c = chr 'x') : ¬ IsDigit 16 c := by
  revert c
  decide +kernel

lemma not_isDigit_zero : ¬ IsDigit radix 0 := by
  rintro ⟨v, hv, -⟩
  cases hv

lemma IsDigit.mono {radix' : Nat} (h : IsDigit radix c) (hle : radix ≤ radix') :
    IsDigit radix' c := by
  obtain ⟨v, hv, hlt⟩ := h
  exact ⟨v, hv, by omega⟩

def digits (radix : Nat) (s : List Byte) : List Byte := s.takeWhile (fun c => IsDigit radix c)

def afterDigits (radix : Nat) (s : List Byte) : List Byte := s.dropWhile (fun c => IsDigit radix c)

lemma digits_append_after (radix : Nat) (s : List Byte) :
    digits radix s ++ afterDigits radix s = s := takeWhile_append_dropWhile

lemma isDigit_of_mem_digits (h : c ∈ digits radix s) : IsDigit radix c := by
  simpa using mem_takeWhile_imp h

lemma afterDigits_head (h : c ∈ (afterDigits radix s).head?) : ¬ IsDigit radix c := by
  have hne : afterDigits radix s ≠ [] := by
    rintro hnil
    simp [hnil] at h
  have hhead := head_dropWhile_not (fun c => decide (IsDigit radix c)) hne
  rw [head?_eq_some_head hne, Option.mem_some_iff] at h
  subst h
  simpa [afterDigits] using hhead

lemma digits_of_append (hnum : ∀ c ∈ num, IsDigit radix c)
    (hrest : ∀ c ∈ rest.head?, ¬ IsDigit radix c) :
    digits radix (num ++ rest) = num ∧ afterDigits radix (num ++ rest) = rest := by
  constructor
  · rw [digits, takeWhile_append_of_pos (by simpa using hnum)]
    cases rest with
    | nil => simp
    | cons c rest => simp [hrest c (by simp)]
  · rw [afterDigits, dropWhile_append_of_pos (by simpa using hnum)]
    cases rest with
    | nil => simp
    | cons c rest => simp [hrest c (by simp)]

instance : Decidable (Final rest) := inferInstanceAs (Decidable (_ ∨ _))

/-- A string as the functions get it. -/
structure Readable (s : List Byte) : Prop where
  nul : (0 : Byte) ∉ s
  runs : ShortRuns s

lemma Readable.of_suffix (h : Readable s) (ht : t <:+ s) : Readable t :=
  ⟨fun hmem => h.nul (ht.subset hmem), fun run hrun => h.runs run (hrun.trans ht.isInfix)⟩

/-! ## The loop -/

def Scan.exact (n : Nat) (rv : Word) : Scan := ⟨BitVec.ofNat 64 n, rv, decide (2 ^ 64 ≤ n)⟩

lemma highest_four (a : BitVec 64) : a &&& (~~~0#64 <<< 60) = 0 ↔ a.toNat < 2 ^ 60 := by
  rw [show ~~~0#64 = BitVec.allOnes 64 from rfl, ← BitVec.shiftLeft_ushiftRight, ← BitVec.toNat_inj,
    BitVec.toNat_shiftLeft, BitVec.toNat_ushiftRight,
    show BitVec.toNat (0 : BitVec 64) = 0 from rfl]
  omega

/-- The overflow test is exact: a number without a bit in its highest four has room for a digit of
every base up to 16, and for the others the division decides. -/
lemma Scan.push_exact (hbase : base ≤ 16) (hval : v < base) (rv : Word) :
    (Scan.exact n rv).push base v = Scan.exact (n * base + v) (rv + 1) := by
  have hres : BitVec.ofNat 64 n * BitVec.ofNat 64 base + BitVec.ofNat 64 v =
      BitVec.ofNat 64 (n * base + v) := by
    rw [← BitVec.ofNat_mul, ← BitVec.ofNat_add]
  have hpos : 0 < base := by omega
  have hnat : (Scan.exact n rv).res.toNat = n % 2 ^ 64 := BitVec.toNat_ofNat ..
  have hroom : n < 2 ^ 60 → n * base + v < 2 ^ 64 := fun hn => by
    have hmul : n * base ≤ (2 ^ 60 - 1) * 16 := Nat.mul_le_mul (by omega) hbase
    omega
  have hover : ((Scan.exact n rv).push base v).overflow = decide (2 ^ 64 ≤ n * base + v) := by
    rw [Bool.eq_iff_iff]
    simp only [Scan.push, Bool.or_eq_true, Bool.and_eq_true, decide_eq_true_eq, ne_eq, highest_four,
      hnat, Nat.div_lt_iff_lt_mul hpos]
    by_cases hle : 2 ^ 64 ≤ n
    · have hmul : n ≤ n * base := Nat.le_mul_of_pos_right n hpos
      exact ⟨fun _ => by omega, fun _ => .inl (decide_eq_true hle)⟩
    · have hfalse : (Scan.exact n rv).overflow = false := decide_eq_false hle
      rw [hfalse, Nat.mod_eq_of_lt (by omega)]
      simp only [Bool.false_eq_true, false_or]
      omega
  rw [show Scan.exact (n * base + v) (rv + 1) =
    ⟨BitVec.ofNat 64 (n * base + v), rv + 1, decide (2 ^ 64 ≤ n * base + v)⟩ from rfl,
    ← hres, ← hover]
  rfl

lemma parseLoop_exact (hbase : radix ≤ 16) (s : List Byte) (n : Nat) (rv : Word) :
    parseLoop radix s (Scan.exact n rv) =
      Scan.exact (valueFrom radix n (digits radix s))
        (rv + BitVec.ofNat 32 (digits radix s).length) := by
  induction s generalizing n rv with
  | nil => simp [parseLoop, digits, valueFrom]
  | cons c s ih =>
    by_cases hc : IsDigit radix c
    · have hne : c ≠ 0 := by
        rintro rfl
        exact not_isDigit_zero hc
      obtain ⟨v, hv, hlt⟩ := id hc
      have hdigits : digits radix (c :: s) = c :: digits radix s := by simp [digits, hc]
      rw [parseLoop, if_neg hne, digit_eq, hv]
      simp only [if_neg (not_le.mpr hlt)]
      have hvalue : valueFrom radix n (c :: digits radix s) =
          valueFrom radix (n * radix + v) (digits radix s) := by
        rw [valueFrom, foldl_cons, hv, Option.getD_some, valueFrom]
      rw [Scan.push_exact hbase hlt, ih, hdigits, hvalue, length_cons, Nat.add_comm _ 1,
        BitVec.ofNat_add, ← BitVec.add_assoc]
      rfl
    · have hdigits : digits radix (c :: s) = [] := by simp [digits, hc]
      rw [hdigits, parseLoop, digit_eq]
      cases hv : digitOf c with
      | none => simp [valueFrom]
      | some v =>
        have hle : radix ≤ v := by
          by_contra hlt
          exact hc ⟨v, hv, by omega⟩
        simp [valueFrom, hle]

lemma parseInteger_eq (hbase : radix ≤ 16) :
    parseInteger s radix =
      (if 2 ^ 64 ≤ value radix (digits radix s) then
          BitVec.ofNat 32 (digits radix s).length ||| kstrtoxOverflow
        else BitVec.ofNat 32 (digits radix s).length,
        BitVec.ofNat 64 (value radix (digits radix s))) := by
  have hscan := parseLoop_exact hbase s 0 0
  rw [parseInteger, show (⟨0, 0, false⟩ : Scan) = Scan.exact 0 0 from rfl, hscan]
  simp only [Scan.exact, decide_eq_true_eq, BitVec.ofNat_eq_ofNat, BitVec.zero_add]
  congr

/-! ## The whole string -/

lemma and_overflow (h : n < 2 ^ 31) : BitVec.ofNat 32 n &&& kstrtoxOverflow = 0 := by
  rw [kstrtoxOverflow, show (0x80000000 : Word) = BitVec.allOnes 32 <<< 31 from rfl,
    ← BitVec.shiftLeft_ushiftRight, ← BitVec.toNat_inj, BitVec.toNat_shiftLeft,
    BitVec.toNat_ushiftRight, BitVec.toNat_ofNat, show BitVec.toNat (0 : Word) = 0 from rfl]
  omega

lemma and_not_overflow (h : n < 2 ^ 31) :
    (BitVec.ofNat 32 n &&& ~~~kstrtoxOverflow) = BitVec.ofNat 32 n := by
  rw [← BitVec.toNat_inj, BitVec.toNat_and, BitVec.toNat_ofNat,
    show (~~~kstrtoxOverflow).toNat = 2 ^ 31 - 1 from rfl, Nat.and_two_pow_sub_one_eq_mod]
  omega

lemma or_and_overflow (x : Word) : (x ||| kstrtoxOverflow) &&& kstrtoxOverflow ≠ 0 := by
  intro h
  have hbit := congrArg (BitVec.getLsbD · 31) h
  have htop : kstrtoxOverflow.getLsbD 31 := rfl
  rw [BitVec.getLsbD_and, BitVec.getLsbD_or, htop] at hbit
  simp at hbit

lemma charAt_zero_iff (h : (0 : Byte) ∉ s) : charAt s 0 = 0 ↔ s = [] := by
  cases s with
  | nil => simp [charAt]
  | cons c s =>
    rw [mem_cons, not_or] at h
    simpa [charAt] using Ne.symm h.1

lemma final_iff (h : (0 : Byte) ∉ rest) :
    charAt (if charAt rest 0 = chr '\n' then rest.drop 1 else rest) 0 = 0 ↔ Final rest := by
  cases rest with
  | nil => simp [Final, charAt]
  | cons c rest =>
    rw [mem_cons, not_or] at h
    by_cases hc : c = chr '\n'
    · subst hc
      simpa [Final, charAt] using charAt_zero_iff h.2
    · simpa [Final, charAt, hc] using Ne.symm h.1

lemma kstrtoull'_eq (hs : Readable s) (hfix : parseIntegerFixupRadix s base = (t, radix))
    (hradix : radix ≤ 16) (hsuffix : t <:+ s) :
    kstrtoull' s base res =
      if 2 ^ 64 ≤ value radix (digits radix t) then (-ERANGE, res)
      else if digits radix t = [] then (-EINVAL, res)
      else if ¬ Final (afterDigits radix t) then (-EINVAL, res)
      else (0, BitVec.ofNat 64 (value radix (digits radix t))) := by
  have hlen : (digits radix t).length < 2 ^ 31 :=
    (hs.of_suffix hsuffix).runs _ ( takeWhile_prefix _).isInfix fun c hc =>
      (isDigit_of_mem_digits hc).mono hradix
  have hnul : (0 : Byte) ∉ afterDigits radix t :=
    (hs.of_suffix (( dropWhile_suffix _).trans hsuffix)).nul
  have hdrop : t.drop (digits radix t).length = afterDigits radix t := by
    have hdrop := @drop_left _ (digits radix t) (afterDigits radix t)
    rwa [digits_append_after] at hdrop
  rw [kstrtoull', hfix]
  simp only [parseInteger_eq hradix]
  split
  · rw [if_pos (or_and_overflow _)]
  · have hnat : (BitVec.ofNat 32 (digits radix t).length).toNat = (digits radix t).length :=
      by bv_omega
    have hzero : BitVec.ofNat 32 (digits radix t).length = 0 ↔ digits radix t = [] := by
      rw [← BitVec.toNat_inj, hnat]
      exact length_eq_zero_iff
    rw [if_neg (by rw [and_overflow hlen]; simp), and_not_overflow hlen, hnat, hdrop]
    simp only [hzero, ne_eq, final_iff hnul]

/-! ## The radix -/

lemma value_zero : value radix [chr '0'] = 0 := by
  simp [value, valueFrom, show digitOf (chr '0') = some 0 from rfl]

lemma tolower_second {d : Byte} (hds : ∀ c ∈ ds, IsDigit 16 c)
    (hx : ds = [] → ∀ c ∈ rest.head?, tolower c ≠ chr 'x') :
    tolower (charAt (d :: ds ++ rest) 1) ≠ chr 'x' := by
  cases ds with
  | cons e ds => exact fun h => not_isDigit_x h (hds e (by simp))
  | nil =>
    cases rest with
    | nil => exact (by decide : tolower 0 ≠ chr 'x')
    | cons c rest => exact hx rfl c (by simp)

lemma fixupRadix_hex (hbase : base = 0 ∨ base = 16) (hx : tolower x = chr 'x')
    (hd : base = 0 → isxdigit (charAt ds 0)) :
    parseIntegerFixupRadix (chr '0' :: x :: ds) base = (ds, 16) := by
  have hsecond : charAt (chr '0' :: x :: ds) 1 = x := rfl
  have hthird : charAt (chr '0' :: x :: ds) 2 = charAt ds 0 := by simp [charAt]
  have hfirst : charAt (chr '0' :: x :: ds) 0 = chr '0' := rfl
  rcases hbase with rfl | rfl
  · simp [parseIntegerFixupRadix, hfirst, hsecond, hthird, hx, hd rfl]
  · simp [parseIntegerFixupRadix, hfirst, hsecond, hx]

lemma fixupRadix_given (hbase : base ≠ 0)
    (hx : base = 16 → charAt s 0 = chr '0' → tolower (charAt s 1) ≠ chr 'x') :
    parseIntegerFixupRadix s base = (s, base) := by
  rw [parseIntegerFixupRadix]
  simp only [if_neg hbase]
  rw [if_neg]
  rintro ⟨hsixteen, hzero, hmark⟩
  exact hx hsixteen hzero hmark

lemma fixupRadix_octal (hzero : charAt s 0 = chr '0')
    (hx : ¬ (tolower (charAt s 1) = chr 'x' ∧ isxdigit (charAt s 2))) :
    parseIntegerFixupRadix s 0 = (s, 8) := by
  simp [parseIntegerFixupRadix, hzero, hx]

lemma fixupRadix_decimal (hzero : charAt s 0 ≠ chr '0') : parseIntegerFixupRadix s 0 = (s, 10) := by
  simp [parseIntegerFixupRadix, hzero]

/-- The base that is given, or found, and the digits that it leaves. -/
lemma fixupRadix_of_begins (h : Begins base s v rest)
    (hx : v = 0 → ∀ c ∈ rest.head?, tolower c ≠ chr 'x') :
    ∃ t radix, parseIntegerFixupRadix s base = (t, radix) ∧ radix ≤ 16 ∧ t <:+ s ∧
      digits radix t ≠ [] ∧ value radix (digits radix t) = v ∧ afterDigits radix t = rest := by
  obtain ⟨num, radix, rfl, hnum, hrest⟩ := h.split
  cases hnum with
  | plain given some hds =>
    obtain ⟨hdigits, hafter⟩ := digits_of_append hds hrest
    refine ⟨num ++ rest, base, fixupRadix_given (by omega) fun hsixteen hzero => ?_, by omega,
      suffix_refl _, by rwa [hdigits], by rw [hdigits], hafter⟩
    subst hsixteen
    obtain ⟨d, ds, rfl⟩ := exists_cons_of_ne_nil some
    refine tolower_second (fun c hc => hds c (mem_cons_of_mem d hc)) fun hnil => hx ?_
    rw [hnil, show d = chr '0' from hzero, value_zero]
  | @hex _ x ds given mark some hds =>
    obtain ⟨hdigits, hafter⟩ := digits_of_append hds hrest
    obtain ⟨d, ds', rfl⟩ := exists_cons_of_ne_nil some
    refine ⟨d :: ds' ++ rest, 16, ?_, le_rfl, ⟨[chr '0', x], rfl⟩, by rwa [hdigits],
      by rw [hdigits], hafter⟩
    exact fixupRadix_hex given ((tolower_eq_x x).mpr mark) fun _ =>
      (isxdigit_iff).mpr (hds d (by simp))
  | @octal ds hds =>
    have hall : ∀ c ∈ chr '0' :: ds, IsDigit 8 c := by
      simp only [mem_cons, forall_eq_or_imp]
      exact ⟨by decide, hds⟩
    obtain ⟨hdigits, hafter⟩ := digits_of_append hall hrest
    refine ⟨chr '0' :: ds ++ rest, 8, fixupRadix_octal rfl fun hmark => ?_, by omega,
      suffix_refl _, by rw [hdigits]; simp, by rw [hdigits], hafter⟩
    refine tolower_second (fun c hc => (hds c hc).mono (by omega)) (fun hnil => hx ?_) hmark.1
    rw [hnil, value_zero]
  | @decimal c ds first hds =>
    obtain ⟨hdigits, hafter⟩ := digits_of_append hds hrest
    exact ⟨c :: ds ++ rest, 10, fixupRadix_decimal first, by omega, suffix_refl _,
      by rw [hdigits]; simp, by rw [hdigits], hafter⟩

lemma cons_of_charAt (h : charAt s 0 = c) (hc : c ≠ 0) : s = c :: s.drop 1 := by
  cases s with
  | nil => exact absurd h.symm hc
  | cons d s =>
    obtain rfl : d = c := h
    rfl

lemma marked_of_charAt (hzero : charAt s 0 = chr '0') (hx : tolower (charAt s 1) = chr 'x') :
    ∃ x, (x = chr 'x' ∨ x = chr 'X') ∧ s = chr '0' :: x :: s.drop 2 := by
  have hne : charAt s 1 ≠ 0 := by
    intro h
    rw [h] at hx
    exact absurd hx (by decide)
  have hfirst := cons_of_charAt hzero (by decide)
  have hsecond : charAt (s.drop 1) 0 = charAt s 1 := by simp [charAt]
  refine ⟨charAt s 1, (tolower_eq_x _).mp hx, ?_⟩
  rw [hfirst]
  exact congrArg _ ((cons_of_charAt hsecond hne).trans (by simp [charAt]))

lemma begins_of_digits (num : List Byte) (hnum : Numeral base radix (num ++ digits radix t) v)
    (hs : s = num ++ t) : Begins base s v (afterDigits radix t) :=
  ⟨num ++ digits radix t, radix, by rw [append_assoc, digits_append_after, hs], hnum,
    fun _ => afterDigits_head⟩

lemma begins_marked (hbase : base = 0 ∨ base = 16) (hzero : charAt s 0 = chr '0')
    (hx : tolower (charAt s 1) = chr 'x') (hd : base = 0 → isxdigit (charAt s 2))
    (hfix : parseIntegerFixupRadix s base = (t, radix)) (hne : digits radix t ≠ []) :
    Begins base s (value radix (digits radix t)) (afterDigits radix t) := by
  obtain ⟨x, hmark, hs⟩ := marked_of_charAt hzero hx
  have hthird : charAt (s.drop 2) 0 = charAt s 2 := by simp [charAt]
  rw [hs, fixupRadix_hex hbase ((tolower_eq_x x).mpr hmark) (by rwa [hthird])] at hfix
  obtain ⟨rfl, rfl⟩ := Prod.mk.inj hfix
  exact begins_of_digits [chr '0', x] (.hex hbase hmark hne fun _ => isDigit_of_mem_digits) hs

lemma begins_plain (hbase : base = 8 ∨ base = 10 ∨ base = 16)
    (hx : base = 16 → charAt s 0 = chr '0' → tolower (charAt s 1) ≠ chr 'x')
    (hfix : parseIntegerFixupRadix s base = (t, radix)) (hne : digits radix t ≠ []) :
    Begins base s (value radix (digits radix t)) (afterDigits radix t) := by
  rw [fixupRadix_given (by omega) hx] at hfix
  obtain ⟨rfl, rfl⟩ := Prod.mk.inj hfix
  exact begins_of_digits [] (.plain hbase hne fun _ => isDigit_of_mem_digits) rfl

lemma begins_of_fixupRadix (hbase : base = 0 ∨ base = 8 ∨ base = 10 ∨ base = 16)
    (hfix : parseIntegerFixupRadix s base = (t, radix)) (hne : digits radix t ≠ []) :
    Begins base s (value radix (digits radix t)) (afterDigits radix t) := by
  rcases hbase with rfl | hbase
  · by_cases hzero : charAt s 0 = chr '0'
    · by_cases hx : tolower (charAt s 1) = chr 'x' ∧ isxdigit (charAt s 2)
      · exact begins_marked (.inl rfl) hzero hx.1 (fun _ => hx.2) hfix hne
      · rw [fixupRadix_octal hzero hx] at hfix
        obtain ⟨rfl, rfl⟩ := Prod.mk.inj hfix
        have hcons : digits 8 s = chr '0' :: digits 8 (s.drop 1) := by
          conv_lhs => rw [cons_of_charAt hzero (by decide)]
          exact takeWhile_cons_of_pos (by decide)
        refine begins_of_digits [] ?_ rfl
        rw [hcons]
        exact .octal fun _ => isDigit_of_mem_digits
    · rw [fixupRadix_decimal hzero] at hfix
      obtain ⟨rfl, rfl⟩ := Prod.mk.inj hfix
      obtain ⟨c, ds, hcons⟩ := exists_cons_of_ne_nil hne
      have hc : c ≠ chr '0' := by
        rintro rfl
        refine hzero ?_
        rw [← digits_append_after 10 s, hcons]
        rfl
      refine begins_of_digits [] ?_ rfl
      have hall : ∀ d ∈ digits 10 s, IsDigit 10 d := fun _ => isDigit_of_mem_digits
      rw [hcons]
      rw [hcons] at hall
      exact .decimal hc hall
  · by_cases hx : base = 16 ∧ charAt s 0 = chr '0' ∧ tolower (charAt s 1) = chr 'x'
    · exact begins_marked (.inr hx.1) hx.2.1 hx.2.2 (by omega) hfix hne
    · exact begins_plain hbase (fun hsixteen hzero hmark => hx ⟨hsixteen, hzero, hmark⟩) hfix hne

/-! ## Reading an unsigned number -/

lemma fixupRadix_bounds (hbase : base ≤ 16) (hfix : parseIntegerFixupRadix s base = (t, radix)) :
    radix ≤ 16 ∧ t <:+ s := by
  have hdrop := drop_suffix 2 s
  rw [parseIntegerFixupRadix] at hfix
  grind [suffix_refl]

def IsBase (base : Nat) : Prop := base = 0 ∨ base = 8 ∨ base = 10 ∨ base = 16

lemma value_nil : value radix [] = 0 := rfl

variable (hbase : IsBase base) (hs : Readable s)

include hs in
lemma kstrtoull'_range (h : Begins base s v rest) (hv : 2 ^ 64 ≤ v) :
    kstrtoull' s base res = (-ERANGE, res) := by
  obtain ⟨t, radix, hfix, hradix, hsuffix, -, rfl, -⟩ := fixupRadix_of_begins h (by omega)
  rw [kstrtoull'_eq hs hfix hradix hsuffix, if_pos hv]

include hs in
lemma kstrtoull'_ok (h : Begins base s v rest) (hrest : Final rest) (hv : v < 2 ^ 64) :
    kstrtoull' s base res = (0, BitVec.ofNat 64 v) := by
  have hx : v = 0 → ∀ c ∈ rest.head?, tolower c ≠ chr 'x' := by
    rintro - c hc
    rcases hrest with rfl | rfl
    · cases hc
    · obtain rfl := Option.mem_some_iff.mp hc
      decide
  obtain ⟨t, radix, hfix, hradix, hsuffix, hne, rfl, rfl⟩ := fixupRadix_of_begins h hx
  rw [kstrtoull'_eq hs hfix hradix hsuffix, if_neg (by omega), if_neg hne,
    if_neg (not_not.mpr hrest)]

include hbase hs in
lemma kstrtoull'_inval (hno : ∀ v rest, Begins base s v rest → v < 2 ^ 64 ∧ ¬ Final rest) :
    kstrtoull' s base res = (-EINVAL, res) := by
  rcases hfix : parseIntegerFixupRadix s base with ⟨t, radix⟩
  obtain ⟨hradix, hsuffix⟩ := fixupRadix_bounds (by rcases hbase with h | h | h | h <;> omega) hfix
  rw [kstrtoull'_eq hs hfix hradix hsuffix]
  by_cases hne : digits radix t = []
  · rw [hne, value_nil, if_neg (by omega), if_pos rfl]
  · obtain ⟨hv, hrest⟩ := hno _ _ (begins_of_fixupRadix hbase hfix hne)
    rw [if_neg (by omega), if_neg hne, if_pos hrest]

end Mini2440.Text
