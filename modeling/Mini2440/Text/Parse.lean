import Mathlib.Algebra.Group.Int.Defs
import Mini2440.Text.Numeral

/-!
# The conversion functions

`kstrtoull` accepts exactly the unsigned numerals below `2 ^ 64`, and the signed functions those
that fit the type of the result. Two things are left out on purpose. A minus sign before zero is
refused as out of range. And digits are counted in 31 bits: a run of `2 ^ 31` digits is taken for an
overflow, whatever its value.
-/

namespace Mini2440.Text

open List BitVec Library

variable {s t rest : List Byte} {base v w n : Nat} {neg : Bool} {res : BitVec 64} {x : Int}

inductive Sign : List Byte → Bool → Prop where
  | absent : Sign [] false
  | plus : Sign [chr '+'] false
  | minus : Sign [chr '-'] true

/-- The string begins with a sign, or none, and a numeral. -/
def Signed (base : Nat) (s : List Byte) (neg : Bool) (v : Nat) (rest : List Byte) : Prop :=
  ∃ sign t, Sign sign neg ∧ s = sign ++ t ∧ Begins base t v rest

lemma Begins.first (h : Begins base s v rest) : IsDigit 16 (charAt s 0) := by
  obtain ⟨num, radix, rfl, hnum, -⟩ := h.split
  cases hnum with
  | plain given some digits =>
    obtain ⟨d, ds, rfl⟩ := exists_cons_of_ne_nil some
    exact (digits d (by simp)).mono (by omega)
  | hex given mark some digits => exact (by decide : IsDigit 16 (chr '0'))
  | octal digits => exact (by decide : IsDigit 16 (chr '0'))
  | decimal first digits => exact (digits _ mem_cons_self).mono (by omega)

lemma not_isDigit_sign : ¬ IsDigit 16 (chr '+') ∧ ¬ IsDigit 16 (chr '-') := by
  decide

lemma shortRuns_of_length (h : s.length < 2 ^ 31) : ShortRuns s :=
  fun _ hrun _ => lt_of_le_of_lt hrun.length_le h

/-! ## Unsigned numbers -/

lemma kstrtoull_of_signed (h : Signed base s false v rest) :
    ∃ t, t <:+ s ∧ Begins base t v rest ∧ kstrtoull s base res = kstrtoull' t base res := by
  obtain ⟨sign, t, hsign, rfl, hbegins⟩ := h
  cases hsign with
  | absent =>
    refine ⟨t, suffix_refl t, hbegins, ?_⟩
    have hplus : charAt t 0 ≠ chr '+' := fun hplus =>
      not_isDigit_sign.1 (hplus ▸ hbegins.first)
    rw [kstrtoull, nil_append, if_neg hplus]
  | plus =>
    refine ⟨t, suffix_append _ t, hbegins, ?_⟩
    rfl

section

variable (hbase : IsBase base) (hs : Readable s)

include hs in
lemma kstrtoull_ok (h : Signed base s false v rest) (hrest : Final rest) (hv : v < 2 ^ 64) :
    kstrtoull s base res = (0, BitVec.ofNat 64 v) := by
  obtain ⟨t, hsuffix, hbegins, heq⟩ := kstrtoull_of_signed h
  rw [heq, kstrtoull'_ok (hs.of_suffix hsuffix) hbegins hrest hv]

include hs in
lemma kstrtoull_range (h : Signed base s false v rest) (hv : 2 ^ 64 ≤ v) :
    kstrtoull s base res = (-ERANGE, res) := by
  obtain ⟨t, hsuffix, hbegins, heq⟩ := kstrtoull_of_signed h
  rw [heq, kstrtoull'_range (hs.of_suffix hsuffix) hbegins hv]

include hbase hs in
lemma kstrtoull_inval (hno : ∀ v rest, Signed base s false v rest → v < 2 ^ 64 ∧ ¬ Final rest) :
    kstrtoull s base res = (-EINVAL, res) := by
  rw [kstrtoull]
  split
  · next hplus =>
    have hcons := cons_of_charAt hplus (by decide)
    exact kstrtoull'_inval hbase (hs.of_suffix (drop_suffix 1 s)) fun v rest h =>
      hno v rest ⟨_, _, .plus, hcons, h⟩
  · exact kstrtoull'_inval hbase hs fun v rest h => hno v rest ⟨_, _, .absent, rfl, h⟩

end

/-- `kstrtoull` stores the value of an optional plus sign, a numeral of the base and an optional
newline if it is below `2 ^ 64`. It returns `-ERANGE` if the digits make a greater number, whatever
follows, and `-EINVAL` for every other string; then it leaves the result alone. -/
theorem kstrtoull_spec (hbase : IsBase base) (hnul : (0 : Byte) ∉ s) (hrun : ShortRuns s)
    (res : BitVec 64) :
    (∀ v rest, Signed base s false v rest → Final rest → v < 2 ^ 64 →
      kstrtoull s base res = (0, BitVec.ofNat 64 v)) ∧
    (∀ v rest, Signed base s false v rest → 2 ^ 64 ≤ v → kstrtoull s base res = (-ERANGE, res)) ∧
    ((∀ v rest, Signed base s false v rest → v < 2 ^ 64 ∧ ¬ Final rest) →
      kstrtoull s base res = (-EINVAL, res)) :=
  ⟨fun _ _ => kstrtoull_ok ⟨hnul, hrun⟩, fun _ _ => kstrtoull_range ⟨hnul, hrun⟩,
    kstrtoull_inval hbase ⟨hnul, hrun⟩⟩

/-- `0x1F` and a newline, with the base to be found. -/
theorem kstrtoull_hex : kstrtoull (['0', 'x', '1', 'F', '\n'].map chr) 0 7 = (0, 31) :=
  (kstrtoull_spec (.inl rfl) (by decide) (shortRuns_of_length (by decide)) 7).1 31 [chr '\n']
    ⟨[], _, .absent, rfl, ⟨['0', 'x', '1', 'F'].map chr, 16, rfl,
      .hex (.inl rfl) (.inl rfl) (by decide) (by decide), by decide⟩⟩ (.inr rfl) (by decide)

/-! ## Too many digits -/

lemma value_zeros (radix n : Nat) : value radix (replicate n (chr '0')) = 0 := by
  induction n with
  | zero => rfl
  | succ n ih =>
    rw [List.replicate_succ, value, valueFrom, List.foldl_cons, Nat.zero_mul]
    exact ih

lemma begins_zeros (hn : 0 < n) : Begins 10 (replicate n (chr '0')) 0 [] := by
  refine ⟨replicate n (chr '0'), 10, (append_nil _).symm, ?_, by simp⟩
  have hnum : Numeral 10 10 (replicate n (chr '0')) (value 10 (replicate n (chr '0'))) := by
    refine .plain (.inr (.inl rfl)) (fun h => ?_) fun c hc => ?_
    · have := congrArg length h
      rw [length_replicate, length_nil] at this
      omega
    · rw [eq_of_mem_replicate hc]
      decide
  rwa [value_zeros] at hnum

lemma signed_zeros (hn : 0 < n) : Signed 10 (replicate n (chr '0')) false 0 [] :=
  ⟨[], _, .absent, (nil_append _).symm, begins_zeros hn⟩

/-- The number of digits reaches the overflow flag. -/
lemma kstrtoull'_zeros (hge : 2 ^ 31 ≤ n) (hlt : n < 2 ^ 32) :
    kstrtoull' (List.replicate n (chr '0')) 10 res = (-ERANGE, res) := by
  have hdigits : digits 10 (List.replicate n (chr '0')) = List.replicate n (chr '0') := by
    have hall : ∀ c ∈ List.replicate n (chr '0'), IsDigit 10 c := fun c hc => by
      rw [List.eq_of_mem_replicate hc]
      decide
    have hrest : ∀ c ∈ ([] : List Byte).head?, ¬ IsDigit 10 c := by simp
    have hsplit := (digits_of_append hall hrest).1
    rwa [List.append_nil] at hsplit
  have hflag : BitVec.ofNat 32 n &&& kstrtoxOverflow ≠ 0 := by
    rw [kstrtoxOverflow, show (0x80000000 : Word) = BitVec.allOnes 32 <<< 31 from rfl,
      ← shiftLeft_ushiftRight, ne_eq, ← toNat_inj, toNat_shiftLeft, BitVec.toNat_ushiftRight,
      BitVec.toNat_ofNat, show BitVec.toNat (0 : Word) = 0 from rfl]
    omega
  rw [kstrtoull', fixupRadix_given (by decide) (by omega)]
  simp only [parseInteger_eq (show 10 ≤ 16 by decide), hdigits, value_zeros, List.length_replicate]
  rw [if_neg (show ¬ 2 ^ 64 ≤ 0 by omega), if_pos hflag]

lemma charAt_zeros (hn : 0 < n) : charAt (replicate n (chr '0')) 0 = chr '0' := by
  obtain ⟨m, rfl⟩ := Nat.exists_eq_succ_of_ne_zero (Nat.pos_iff_ne_zero.mp hn)
  rfl

lemma kstrtoull_zeros (hge : 2 ^ 31 ≤ n) (hlt : n < 2 ^ 32) :
    kstrtoull (replicate n (chr '0')) 10 res = (-ERANGE, res) := by
  have hplus : charAt (replicate n (chr '0')) 0 ≠ chr '+' := by
    rw [charAt_zeros (by omega)]
    decide
  rw [kstrtoull, if_neg hplus, kstrtoull'_zeros hge hlt]

/-- A numeral of `2 ^ 31` zeros is refused, although its value is 0. -/
theorem kstrtoull_many_zeros :
    Signed 10 (replicate (2 ^ 31) (chr '0')) false 0 [] ∧
      ∀ res, kstrtoull (replicate (2 ^ 31) (chr '0')) 10 res = (-ERANGE, res) :=
  ⟨signed_zeros (by decide), fun _ => kstrtoull_zeros le_rfl (by decide)⟩

/-! ## Signed numbers -/

def signedValue (neg : Bool) (v : Nat) : Int := if neg then -v else v

def Fits (w : Nat) (x : Int) : Prop := -2 ^ (w - 1) ≤ x ∧ x < 2 ^ (w - 1)

instance {x : Int} : Decidable (Fits w x) := inferInstanceAs (Decidable (_ ∧ _))

/-- The function stores the value of an optional sign, a numeral and an optional newline if it fits
the result, except that zero has no minus sign. It returns `-ERANGE` if it does not fit, and also
if the digits make a number from `2 ^ 64` on, whatever follows; and `-EINVAL` for every other
string. -/
def ParsesSigned (w : Nat) (f : List Byte → Nat → BitVec w → Int × BitVec w) : Prop :=
  ∀ s base res, IsBase base → (0 : Byte) ∉ s → ShortRuns s →
    (∀ neg v rest, Signed base s neg v rest → Final rest → Fits w (signedValue neg v) →
      ¬ (neg = true ∧ v = 0) → f s base res = (0, BitVec.ofInt w (signedValue neg v))) ∧
    (∀ neg v rest, Signed base s neg v rest →
      2 ^ 64 ≤ v ∨ Final rest ∧ (¬ Fits w (signedValue neg v) ∨ neg = true ∧ v = 0) →
      f s base res = (-ERANGE, res)) ∧
    ((∀ neg v rest, Signed base s neg v rest → v < 2 ^ 64 ∧ ¬ Final rest) →
      f s base res = (-EINVAL, res))

lemma signed_minus (h : Signed base s true v rest) :
    charAt s 0 = chr '-' ∧ Begins base (s.drop 1) v rest := by
  obtain ⟨sign, t, hsign, rfl, hbegins⟩ := h
  cases hsign with
  | minus => exact ⟨rfl, hbegins⟩

lemma signed_plus (h : Signed base s false v rest) : charAt s 0 ≠ chr '-' := by
  obtain ⟨sign, t, hsign, rfl, hbegins⟩ := h
  cases hsign with
  | absent => exact fun hminus => not_isDigit_sign.2 (hminus ▸ hbegins.first)
  | plus => exact (by decide : chr '+' ≠ chr '-')

lemma neg_toInt_iff (hv : v < 2 ^ 64) :
    0 ≤ (-BitVec.ofNat 64 v).toInt ↔ ¬ Fits 64 (signedValue true v) ∨ v = 0 := by
  rw [BitVec.toInt_eq_toNat_cond, BitVec.toNat_neg, BitVec.toNat_ofNat]
  simp only [Fits, signedValue, if_true]
  split <;> omega

lemma toInt_neg_iff (hv : v < 2 ^ 64) :
    (BitVec.ofNat 64 v).toInt < 0 ↔ ¬ Fits 64 (signedValue false v) := by
  rw [BitVec.toInt_eq_toNat_cond, BitVec.toNat_ofNat]
  simp only [Fits, signedValue, Bool.false_eq_true, if_false]
  split <;> omega

lemma kstrtoll_error {e : Int} {x : BitVec 64} (he : e < 0)
    (h : if charAt s 0 = chr '-' then kstrtoull' (s.drop 1) base 0 = (e, x)
      else kstrtoull s base 0 = (e, x)) : kstrtoll s base res = (e, res) := by
  rw [kstrtoll]
  split at h
  · next hminus => rw [if_pos hminus, h, if_pos he]
  · next hminus => rw [if_neg hminus, h, if_pos he]

lemma kstrtoll_minus (hminus : charAt s 0 = chr '-') (hv : v < 2 ^ 64)
    (h : kstrtoull' (s.drop 1) base 0 = (0, BitVec.ofNat 64 v)) :
    kstrtoll s base res =
      if ¬ Fits 64 (signedValue true v) ∨ v = 0 then (-ERANGE, res)
      else (0, BitVec.ofInt 64 (signedValue true v)) := by
  have hcast : -BitVec.ofNat 64 v = BitVec.ofInt 64 (signedValue true v) := by
    simp [signedValue, BitVec.ofInt_neg]
  rw [kstrtoll, if_pos hminus, h]
  simp only [Int.lt_irrefl, if_false, neg_toInt_iff hv]
  rw [hcast]

lemma kstrtoll_plus (hplus : charAt s 0 ≠ chr '-') (hv : v < 2 ^ 64)
    (h : kstrtoull s base 0 = (0, BitVec.ofNat 64 v)) :
    kstrtoll s base res =
      if ¬ Fits 64 (signedValue false v) then (-ERANGE, res)
      else (0, BitVec.ofInt 64 (signedValue false v)) := by
  have hcast : BitVec.ofNat 64 v = BitVec.ofInt 64 (signedValue false v) := by
    simp [signedValue]
  rw [kstrtoll, if_neg hplus, h]
  simp only [Int.lt_irrefl, if_false, toInt_neg_iff hv]
  rw [hcast]

lemma kstrtoll_parses : ParsesSigned 64 kstrtoll := by
  intro s base res hbase hnul hrun
  have hs : Readable s := ⟨hnul, hrun⟩
  have hs' := hs.of_suffix (drop_suffix 1 s)
  -- The result for every numeral below `2 ^ 64`.
  have hvalue : ∀ neg v rest, Signed base s neg v rest → Final rest → v < 2 ^ 64 →
      kstrtoll s base res = if ¬ Fits 64 (signedValue neg v) ∨ neg ∧ v = 0 then (-ERANGE, res)
        else (0, BitVec.ofInt 64 (signedValue neg v)) := by
    intro neg v rest h hrest hv
    cases neg with
    | true =>
      obtain ⟨hminus, hbegins⟩ := signed_minus h
      rw [kstrtoll_minus hminus hv (kstrtoull'_ok hs' hbegins hrest hv)]
      simp
    | false =>
      rw [kstrtoll_plus (signed_plus h) hv (kstrtoull_ok hs h hrest hv)]
      simp
  have hlarge : ∀ neg v rest, Signed base s neg v rest → 2 ^ 64 ≤ v →
      kstrtoll s base res = (-ERANGE, res) := by
    intro neg v rest h hv
    refine kstrtoll_error (by decide) (x := 0) ?_
    cases neg with
    | true =>
      obtain ⟨hminus, hbegins⟩ := signed_minus h
      rw [if_pos hminus, kstrtoull'_range hs' hbegins hv]
    | false => rw [if_neg (signed_plus h), kstrtoull_range hs h hv]
  refine ⟨fun neg v rest h hrest hfits hzero => ?_, fun neg v rest h hcase => ?_, fun hno => ?_⟩
  · have hv : v < 2 ^ 64 := by
      cases neg <;> simp only [Fits, signedValue] at hfits <;> omega
    rw [hvalue neg v rest h hrest hv, if_neg]
    rintro (hnot | hneg)
    · exact hnot hfits
    · exact hzero hneg
  · rcases lt_or_ge v (2 ^ 64) with hv | hv
    · obtain ⟨hrest, hcase⟩ := hcase.resolve_left (by omega)
      rw [hvalue neg v rest h hrest hv, if_pos hcase]
    · exact hlarge neg v rest h hv
  · refine kstrtoll_error (by decide) (x := 0) ?_
    split
    · next hminus =>
      have hcons := cons_of_charAt hminus (by decide)
      exact kstrtoull'_inval hbase hs' fun v rest h =>
        hno true v rest ⟨_, _, .minus, hcons, h⟩
    · exact kstrtoull_inval hbase hs fun v rest h => hno false v rest h

/-! ## Narrower types -/

lemma setWidth_ofInt (hw : w ≤ 64) :
    (BitVec.ofInt 64 x).setWidth w = BitVec.ofInt w x := by
  have hdvd := Int.natCast_dvd_natCast.mpr (Nat.pow_dvd_pow 2 hw)
  have hnonneg : 0 ≤ x % ((2 ^ 64 : Nat) : Int) := by bv_omega
  refine eq_of_toNat_eq ?_
  rw [toNat_setWidth, toNat_ofInt, toNat_ofInt,
    ← Int.emod_emod_of_dvd x hdvd, Int.toNat_emod hnonneg (Int.natCast_nonneg _)]
  rfl

lemma two_pow_sub_one (hpos : 0 < w) : (2 : Nat) ^ w = 2 ^ (w - 1) * 2 := by
  rw [← Nat.pow_succ, Nat.succ_eq_add_one, Nat.sub_add_cancel hpos]

lemma fits_iff_bmod (hpos : 0 < w) : Fits w x ↔ x.bmod (2 ^ w) = x := by
  have hpow : ((2 ^ (w - 1) : Nat) : Int) = 2 ^ (w - 1) := by push_cast; rfl
  have hhalf := two_pow_sub_one hpos
  have hnat : 0 < 2 ^ (w - 1) := Nat.two_pow_pos _
  rw [Fits]
  constructor
  · rintro ⟨hge, hlt⟩
    exact Int.bmod_eq_of_le (by omega) (by omega)
  · have hge := Int.le_bmod (x := x) (m := 2 ^ w) (by omega)
    have hlt := Int.bmod_lt (x := x) (m := 2 ^ w) (by omega)
    omega

lemma Fits.mono (h : Fits w x) (hw : w ≤ 64) : Fits 64 x := by
  have hpow : (2 : Int) ^ (w - 1) ≤ 2 ^ 63 := by
    have := Nat.pow_le_pow_right (show 0 < 2 by decide) (show w - 1 ≤ 63 by omega)
    exact_mod_cast this
  exact ⟨by have := h.1; omega, by have := h.2; omega⟩

lemma signExtend_iff (hpos : 0 < w) (hw : w ≤ 64) (hx : Fits 64 x) :
    BitVec.ofInt 64 x = (BitVec.ofInt w x).signExtend 64 ↔ Fits w x := by
  rw [← BitVec.toInt_inj, BitVec.toInt_signExtend_of_le hw, BitVec.toInt_ofInt, BitVec.toInt_ofInt,
    (fits_iff_bmod (by decide)).mp hx, fits_iff_bmod hpos]
  exact eq_comm

lemma kstrtos_parses (hpos : 0 < w) (hw : w ≤ 64) : ParsesSigned w (kstrtos w) := by
  intro s base res hbase hnul hrun
  obtain ⟨hok, hrange, hinval⟩ := kstrtoll_parses s base 0 hbase hnul hrun
  have herror : ∀ e, e < 0 → kstrtoll s base 0 = (e, 0) → kstrtos w s base res = (e, res) := by
    intro e he h
    rw [kstrtos, h, if_pos he]
  have hvalue : ∀ neg v rest, Signed base s neg v rest → Final rest → Fits 64 (signedValue neg v) →
      ¬ (neg ∧ v = 0) → kstrtos w s base res =
        if Fits w (signedValue neg v) then (0, BitVec.ofInt w (signedValue neg v))
        else (-ERANGE, res) := by
    intro neg v rest h hrest hfits hzero
    rw [kstrtos, hok neg v rest h hrest hfits hzero]
    simp only [Int.lt_irrefl, if_false, setWidth_ofInt hw, ne_eq, signExtend_iff hpos hw hfits,
      ite_not]
  refine ⟨fun neg v rest h hrest hfits hzero => ?_, fun neg v rest h hcase => ?_, fun hno => ?_⟩
  · rw [hvalue neg v rest h hrest (hfits.mono hw) hzero, if_pos hfits]
  · by_cases hwide : 2 ^ 64 ≤ v ∨ Final rest ∧ (¬ Fits 64 (signedValue neg v) ∨ neg ∧ v = 0)
    · exact herror _ (by decide) (hrange neg v rest h hwide)
    · obtain ⟨hlt, hrest⟩ := not_or.mp hwide
      obtain ⟨hfinal, hcase⟩ := hcase.resolve_left hlt
      obtain ⟨hfits, hzero⟩ := not_or.mp (not_and.mp hrest hfinal)
      rw [hvalue neg v rest h hfinal (not_not.mp hfits) hzero, if_neg (hcase.resolve_right hzero)]
  · exact herror _ (by decide) (hinval hno)

/-- The signed functions read exactly the signed numerals that fit their results. -/
theorem kstrto_signed :
    ParsesSigned 64 kstrtoll ∧ ParsesSigned 32 kstrtol ∧ ParsesSigned 32 kstrtoint ∧
      ParsesSigned 16 kstrtos16 ∧ ParsesSigned 8 kstrtos8 :=
  ⟨kstrtoll_parses, kstrtos_parses (by decide) (by decide),
    kstrtos_parses (by decide) (by decide), kstrtos_parses (by decide) (by decide),
    kstrtos_parses (by decide) (by decide)⟩

/-- The least value of the narrowest type, and the one below it. -/
theorem kstrtos8_least :
    kstrtos8 (['-', '1', '2', '8'].map chr) 10 7 = (0, -128) ∧
      kstrtos8 (['-', '1', '2', '9'].map chr) 10 7 = (-ERANGE, 7) := by
  have hspec := kstrto_signed.2.2.2.2
  constructor
  · refine (hspec _ 10 7 (.inr (.inr (.inl rfl))) (by decide)
      (shortRuns_of_length (by decide))).1 true 128 [] ?_ (.inl rfl) (by decide) (by decide)
    exact ⟨_, ['1', '2', '8'].map chr, .minus, rfl, ⟨['1', '2', '8'].map chr, 10, rfl,
      .plain (.inr (.inl rfl)) (by decide) (by decide), by decide⟩⟩
  · refine (hspec _ 10 7 (.inr (.inr (.inl rfl))) (by decide)
      (shortRuns_of_length (by decide))).2.1 true 129 [] ?_ (.inr ⟨.inl rfl, .inl (by decide)⟩)
    exact ⟨_, ['1', '2', '9'].map chr, .minus, rfl, ⟨['1', '2', '9'].map chr, 10, rfl,
      .plain (.inr (.inl rfl)) (by decide) (by decide), by decide⟩⟩

/-- A zero with a minus sign is refused; digits for more than 64 bits are out of range even if a
letter follows; and so are `2 ^ 31` zeros. -/
theorem kstrtoll_refused :
    (Signed 10 (['-', '0'].map chr) true 0 [] ∧ Fits 64 (signedValue true 0) ∧
      ∀ res, kstrtoll (['-', '0'].map chr) 10 res = (-ERANGE, res)) ∧
    (∀ res, kstrtoll (List.replicate 17 (chr 'f') ++ [chr 'z']) 16 res = (-ERANGE, res)) ∧
    Signed 10 (List.replicate (2 ^ 31) (chr '0')) false 0 [] ∧
      ∀ res, kstrtoll (replicate (2 ^ 31) (chr '0')) 10 res = (-ERANGE, res) := by
  refine ⟨⟨?_, by decide, fun res => ?_⟩, fun res => ?_, ?_, fun res => ?_⟩
  · exact ⟨_, ['0'].map chr, .minus, rfl, ⟨['0'].map chr, 10, rfl,
      .plain (.inr (.inl rfl)) (by decide) (by decide), by decide⟩⟩
  · exact kstrtoll_minus (v := 0) rfl (by decide) (by decide +kernel)
  · exact kstrtoll_error (x := 0) (by decide) (by decide +kernel)
  · exact signed_zeros (by decide)
  · refine kstrtoll_error (x := 0) (by decide) ?_
    rw [if_neg (by rw [charAt_zeros (by decide)]; decide), kstrtoull_zeros le_rfl (by decide)]

end Mini2440.Text
