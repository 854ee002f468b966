import Mini2440.Printk.Ring
import Mini2440.Printk.Text

/-!
# Dumping the log

`syslog_print_all` sums up the lengths of all the records since the last clear, skips records until
the rest fits into the user's buffer, and copies the rest. In the sums a record may have no prefix
because of the flags of the record before it; in the copy the first record has none before it. The
dump stays in the user's buffer if and only if there is room for the prefix that this adds.
-/

namespace Mini2440.Printk

open List Library

open Text (chr)

def int32 (x : Int) : Int := x.bmod (2 ^ 32)

/-- `LOG_LINE_MAX + PREFIX_MAX`, the size of the buffer that a record's text is formatted in. -/
def textSize : Nat := 1024

/-- Whether `kmalloc` succeeds, and which of the copies to an offset of the user's buffer fail. -/
structure Env where
  alloc : Bool
  fault : Int → Bool

/-- The copies to the user's buffer, each an offset and the bytes that go there. -/
abbrev Copies := List (Int × List Byte)

structure Dump where
  ret : Int
  copies : Copies
  clearSeq : Nat
  clearIdx : Nat

variable (env : Env) (time : Bool) (buf : Buffer) (size : Int)

def sumLoop : Nat → Nat → Nat → Int → Int
  | 0, _, _, len => len
  | n + 1, idx, prev, len =>
    let msg := msgAt buf (logFromIdx buf idx)
    sumLoop n (logNext buf idx) msg.flags (int32 (len + msgPrintTextLen time true msg prev))

/-- The second loop moves the first record forward until the length fits into the buffer: the number
of the records that are left and the index of the first one. -/
def skipLoop : Nat → Nat → Nat → Int → Nat × Nat
  | 0, idx, _, _ => (0, idx)
  | n + 1, idx, prev, len =>
    if size < len then
      let msg := msgAt buf (logFromIdx buf idx)
      skipLoop n (logNext buf idx) msg.flags (int32 (len - msgPrintTextLen time true msg prev))
    else (n + 1, idx)

/-- The third loop copies the texts. Nothing is stored while it runs, so that no record that it has
still to copy is gone. -/
def copyLoop : Nat → Nat → Nat → Int → Copies → Int × Copies
  | 0, _, _, len, copies => (len, copies)
  | n + 1, idx, prev, len, copies =>
    if len < 0 then (len, copies)
    else
      let msg := msgAt buf (logFromIdx buf idx)
      let text := msgPrintText time true msg prev textSize
      let textlen := int32 text.length
      if textlen < 0 then (textlen, copies)
      else if env.fault len then copyLoop n (logNext buf idx) msg.flags (-14) copies
      else copyLoop n (logNext buf idx) msg.flags (int32 (len + textlen)) (copies ++ [(len, text)])

/-- Where the dump starts: messages that are gone are passed over. -/
def clearPos (s : Log) (clearSeq clearIdx : Nat) : Nat × Nat :=
  if clearSeq < s.firstSeq then (s.firstSeq, s.firstIdx) else (clearSeq, clearIdx)

/-- The three loops, for the `n` records from `idx` on. -/
def dumpLoops (n idx : Nat) : Int × Copies :=
  let len := sumLoop time buf n idx 0 0
  let (n', idx') := skipLoop time buf size n idx 0 len
  copyLoop env time buf n' idx' 0 0 []

/-- `syslog_print_all(buf, size, clear)`; `user` says that `buf` is not `NULL`. -/
def syslogPrintAll (s : Log) (clearSeq clearIdx : Nat) (user clear : Bool) : Dump :=
  if !env.alloc then ⟨-12, [], clearSeq, clearIdx⟩
  else
    let pos := if user then clearPos s clearSeq clearIdx else (clearSeq, clearIdx)
    let (len, copies) :=
      if user then dumpLoops env time s.buf size (s.nextSeq - pos.1) pos.2 else (0, [])
    let pos' := if clear then (s.nextSeq, s.nextIdx) else pos
    ⟨len, copies, pos'.1, pos'.2⟩

/-! ## What the dump should do -/

def Copies.total (copies : Copies) : Nat := (copies.map fun c => c.2.length).sum

/-- The records' texts, one after the other; `prev` are the flags of the record before the first. -/
def dumpTexts : Nat → List Msg → List (List Byte)
  | _, [] => []
  | prev, m :: ms => msgPrintText time true m prev textSize :: dumpTexts m.flags ms

def placed : Int → List (List Byte) → Copies
  | _, [] => []
  | off, t :: ts => (off, t) :: placed (off + t.length) ts

/-- The dump of the records `recs` respects the user's buffer of `size` bytes: at most `size` bytes
are copied, they are counted in the result, and they are the text of a suffix of the records, from
the start of the buffer on. -/
structure Respects (recs : List Msg) (d : Dump) : Prop where
  fits : (d.copies.total : Int) ≤ size
  ret : d.ret = d.copies.total
  suffix : ∃ k, d.copies = placed 0 (dumpTexts time 0 (recs.drop k))

/-! ## When it does -/

/-- The lengths of the records; `prev` are the flags of the record before the first. -/
def sizeFrom : Nat → List Msg → Nat
  | _, [] => 0
  | prev, m :: ms => msgPrintTextLen time true m prev + sizeFrom m.flags ms

/-- The longest suffix of the records whose lengths add up to an `int` of at most `size`, and the
flags of the record before it. -/
def fitting : Nat → List Msg → Nat × List Msg
  | prev, [] => (prev, [])
  | prev, m :: ms =>
    if int32 (sizeFrom time prev (m :: ms)) ≤ size then (prev, m :: ms) else fitting m.flags ms

/-- The prefix of the first record that the flags of the record before it suppress. -/
def suppressed (prev : Nat) : List Msg → Nat
  | [] => 0
  | m :: _ => if startsLine prev m.flags then 0 else printPrefixLen time true m

/-- The bytes that are cut off since they do not fit into the buffer for a record's text. -/
def cutOff : Nat → List Msg → Nat
  | _, [] => 0
  | prev, m :: ms =>
    msgPrintTextLen time true m prev - (msgPrintText time true m prev textSize).length +
      cutOff m.flags ms

def PrefixFits (recs : List Msg) : Prop :=
  let fit := fitting time size 0 recs
  (sizeFrom time fit.1 fit.2 + suppressed time fit.1 fit.2 : Int) ≤ size + cutOff time 0 fit.2

instance (recs : List Msg) : Decidable (PrefixFits time size recs) :=
  inferInstanceAs (Decidable (_ ≤ _))

variable {env time buf size} {prev n idx : Nat} {m : Msg} {recs ms : List Msg} {copies : Copies}
  {len : Int}

/-! ## The sums -/

lemma sumLoop_eq (hlen : int32 len = len) :
    sumLoop time buf n idx prev len = int32 (len + sizeFrom time prev (records buf n idx)) := by
  induction n generalizing idx prev len with
  | zero => simpa [sumLoop, records, sizeFrom] using hlen.symm
  | succ n ih =>
    rw [sumLoop, ih (by simp [int32]), records, sizeFrom]
    simp [int32, Int.add_assoc]

lemma skipLoop_eq (hlen : len = int32 (sizeFrom time prev (records buf n idx))) :
    records buf (skipLoop time buf size n idx prev len).1
        (skipLoop time buf size n idx prev len).2 =
      (fitting time size prev (records buf n idx)).2 := by
  induction n generalizing idx prev len with
  | zero => rfl
  | succ n ih =>
    rw [records] at hlen ⊢
    rw [skipLoop, fitting, ← hlen]
    by_cases hfits : len ≤ size
    · rw [if_neg (by omega), if_pos hfits]
      rfl
    · rw [if_pos (by omega), if_neg hfits]
      refine ih ?_
      rw [hlen, sizeFrom]
      simp [int32]

/-! ## The copies -/

@[simp] lemma Copies.total_singleton (off : Int) (t : List Byte) :
    Copies.total [(off, t)] = t.length := by
  simp [Copies.total]

@[simp] lemma Copies.total_append (a b : Copies) : Copies.total (a ++ b) = a.total + b.total := by
  simp [Copies.total]

def textsLength (ts : List (List Byte)) : Nat := (ts.map length).sum

@[simp] lemma textsLength_nil : textsLength [] = 0 := rfl

@[simp] lemma textsLength_cons (t : List Byte) (ts : List (List Byte)) :
    textsLength (t :: ts) = t.length + textsLength ts := by
  simp [textsLength]

@[simp] lemma total_placed (off : Int) (ts : List (List Byte)) :
    (placed off ts).total = textsLength ts := by
  induction ts generalizing off with
  | nil => rfl
  | cons t ts ih =>
    have hcons : (placed off (t :: ts)).total = t.length + (placed (off + t.length) ts).total := by
      simp [placed, Copies.total]
    rw [hcons, ih, textsLength_cons]

lemma int32_of_lt {k : Nat} (h : k < 2 ^ 31) : int32 k = k :=
  Int.bmod_eq_of_le (by omega) (by omega)

lemma length_msgPrintText (time : Bool) (prev : Nat) (hm : m.priority < 10000) :
    (msgPrintText time true m prev textSize).length < textSize ∧
      (msgPrintText time true m prev textSize).length ≤ msgPrintTextLen time true m prev := by
  have h := length_textLoop (printPrefix time true m) (endsLine m.flags)
    (startsLine prev m.flags) (textLines m.text) [] (by decide : 0 < textSize)
  rw [length_printPrefix hm] at h
  rwa [length_nil, zero_add] at h

lemma copyLoop_le : copies.total ≤ (copyLoop env time buf n idx prev len copies).2.total := by
  induction n generalizing idx prev len copies with
  | zero => exact le_refl _
  | succ n ih =>
    simp only [copyLoop]
    split_ifs
    · exact le_refl _
    · exact le_refl _
    · exact ih
    · refine le_trans ?_ ih
      rw [Copies.total_append]
      omega

section

variable (hfault : ∀ off, env.fault off = false)

include hfault

lemma copyLoop_round {len : Nat} :
    let msg := msgAt buf (logFromIdx buf idx)
    let text := msgPrintText time true msg prev textSize
    copyLoop env time buf (n + 1) idx prev len copies =
      copyLoop env time buf n (logNext buf idx) msg.flags (int32 (len + text.length : Nat))
        (copies ++ [((len : Int), text)]) := by
  intro msg text
  have htext : text.length < textSize :=
    (length_msgPrintText time prev (priority_msgAt buf (logFromIdx buf idx))).1
  have hint : int32 text.length = text.length := int32_of_lt (htext.trans (by decide))
  rw [copyLoop, if_neg (by omega)]
  change (if int32 text.length < 0 then _ else _) = _
  rw [if_neg (by omega), hfault, if_neg (by simp), hint, Nat.cast_add]

/-- The texts are copied one behind the other while their length is that of an `int`. -/
lemma copyLoop_eq (len : Nat) (copies : Copies)
    (hlen : len + textsLength (dumpTexts time prev (records buf n idx)) < 2 ^ 31) :
    copyLoop env time buf n idx prev len copies =
      (((len + textsLength (dumpTexts time prev (records buf n idx)) : Nat) : Int),
        copies ++ placed len (dumpTexts time prev (records buf n idx))) := by
  induction n generalizing idx prev len copies with
  | zero => simp [copyLoop, records, dumpTexts, placed]
  | succ n ih =>
    rw [records, dumpTexts, textsLength_cons] at hlen ⊢
    rw [copyLoop_round hfault, int32_of_lt (by omega), ih _ _ (by omega), append_assoc, add_assoc]
    rfl

/-- If their length is not that of an `int`, too much is copied. -/
lemma copyLoop_overflow (len : Nat) (hcopies : copies.total = len) (hlen : len < 2 ^ 31)
    (hover : 2 ^ 31 ≤ len + textsLength (dumpTexts time prev (records buf n idx))) :
    2 ^ 31 ≤ (copyLoop env time buf n idx prev len copies).2.total := by
  induction n generalizing idx prev len copies with
  | zero =>
    simp only [records, dumpTexts, textsLength_nil] at hover
    omega
  | succ n ih =>
    rw [records, dumpTexts, textsLength_cons] at hover
    rw [copyLoop_round hfault]
    generalize msgPrintText time true (msgAt buf (logFromIdx buf idx)) prev textSize = t at hover ⊢
    have htotal : Copies.total (copies ++ [((len : Int), t)]) = len + t.length := by
      rw [Copies.total_append, hcopies, Copies.total_singleton]
    by_cases hstep : len + t.length < 2 ^ 31
    · rw [int32_of_lt hstep]
      exact ih _ htotal hstep (by omega)
    · exact le_trans (by omega) copyLoop_le

end

lemma copyLoop_start
    (hfault : ∀ off, env.fault off = false) :
    let texts := dumpTexts time 0 (records buf n idx)
    let r := copyLoop env time buf n idx 0 0 []
    (textsLength texts < 2 ^ 31 → r = ((textsLength texts : Int), placed 0 texts)) ∧
      (2 ^ 31 ≤ textsLength texts → 2 ^ 31 ≤ r.2.total) := by
  intro texts r
  constructor
  · intro hlt
    have h : r = _ := copyLoop_eq hfault 0 [] (by rwa [zero_add])
    rwa [zero_add] at h
  · intro hle
    exact copyLoop_overflow hfault 0 rfl (by omega) (by rwa [zero_add])

/-! ## The prefix -/

lemma textLines_ne_nil (text : List Byte) : textLines text ≠ [] := by
  cases text with
  | nil => simp [textLines]
  | cons b bs =>
    rw [textLines]
    split
    · simp
    · split <;> simp

lemma msgPrintTextLen_zero (m : Msg) (prev : Nat) :
    msgPrintTextLen time true m 0 =
      msgPrintTextLen time true m prev + suppressed time prev [m] := by
  obtain ⟨l, ls, hls⟩ := exists_cons_of_ne_nil (textLines_ne_nil m.text)
  rw [msgPrintTextLen, msgPrintTextLen, startsLine_zero, hls, suppressed]
  cases startsLine prev m.flags
  · simp only [lenLoop, Bool.false_eq_true, if_true, if_false]
    omega
  · simp

lemma sizeFrom_zero (prev : Nat) (ms : List Msg) :
    sizeFrom time 0 ms = sizeFrom time prev ms + suppressed time prev ms := by
  cases ms with
  | nil => rfl
  | cons m ms =>
    rw [sizeFrom, sizeFrom, msgPrintTextLen_zero m prev]
    simp only [suppressed]
    omega

/-- What is copied and what is cut off are the lengths of the records. -/
lemma textsLength_add_cutOff (time : Bool) (prev : Nat) (hms : ∀ m ∈ ms, m.priority < 10000) :
    textsLength (dumpTexts time prev ms) + cutOff time prev ms = sizeFrom time prev ms := by
  induction ms generalizing prev with
  | nil => rfl
  | cons m ms ih =>
    have hle := (length_msgPrintText time prev (hms m mem_cons_self)).2
    have hrest := ih m.flags fun m' hm' => hms m' (mem_cons_of_mem _ hm')
    rw [dumpTexts, textsLength_cons, cutOff, sizeFrom]
    omega

lemma fitting_suffix (time : Bool) (size : Int) (prev : Nat) (recs : List Msg) :
    ∃ k, (fitting time size prev recs).2 = recs.drop k := by
  induction recs generalizing prev with
  | nil => exact ⟨0, rfl⟩
  | cons m ms ih =>
    rw [fitting]
    split
    case isTrue => exact ⟨0, rfl⟩
    case isFalse =>
      obtain ⟨k, hk⟩ := ih m.flags
      exact ⟨k + 1, hk⟩

lemma priority_of_mem_records (h : m ∈ records buf n idx) : m.priority < 10000 := by
  induction n generalizing idx with
  | zero => simp [records] at h
  | succ n ih =>
    rw [records, mem_cons] at h
    obtain rfl | h := h
    · exact priority_msgAt _ _
    · exact ih h

/-- The texts of the records that are kept fit if and only if there is room for the prefix. -/
lemma prefixFits_iff (hrecs : ∀ m ∈ recs, m.priority < 10000) :
    PrefixFits time size recs ↔
      (textsLength (dumpTexts time 0 (fitting time size 0 recs).2) : Int) ≤ size := by
  obtain ⟨k, hk⟩ := fitting_suffix time size 0 recs
  have hkept : ∀ m ∈ (fitting time size 0 recs).2, m.priority < 10000 := by
    rw [hk]
    exact fun m hm => hrecs m (mem_of_mem_drop hm)
  have hcut := textsLength_add_cutOff time 0 hkept
  rw [sizeFrom_zero (fitting time size 0 recs).1] at hcut
  change (_ : Int) ≤ _ ↔ _
  omega

/-- For every content of the log buffer, every clear position and every size, when the memory for
the text is there and the user's buffer can be written: the dump of the records since the last
clear respects the user's buffer if and only if the prefix of the first record fits, too. -/
theorem syslogPrintAll_respects_iff (s : Log) (clearSeq clearIdx : Nat) (clear : Bool)
    (hsize : size < 2 ^ 31) (halloc : env.alloc = true) (hfault : ∀ off, env.fault off = false) :
    let pos := clearPos s clearSeq clearIdx
    let recs := records s.buf (s.nextSeq - pos.1) pos.2
    Respects time size recs (syslogPrintAll env time size s clearSeq clearIdx true clear) ↔
      PrefixFits time size recs := by
  intro pos recs
  -- The third loop starts at the records that fit.
  obtain ⟨n', idx', hloop, hkept⟩ : ∃ n' idx',
      dumpLoops env time s.buf size (s.nextSeq - pos.1) pos.2 =
        copyLoop env time s.buf n' idx' 0 0 [] ∧
      records s.buf n' idx' = (fitting time size 0 recs).2 := by
    refine ⟨_, _, rfl, skipLoop_eq ?_⟩
    rw [sumLoop_eq rfl, Int.zero_add]
  have hret : (syslogPrintAll env time size s clearSeq clearIdx true clear).ret =
      (copyLoop env time s.buf n' idx' 0 0 []).1 := by
    rw [← hloop]
    simp [syslogPrintAll, halloc, pos]
  have hcopies : (syslogPrintAll env time size s clearSeq clearIdx true clear).copies =
      (copyLoop env time s.buf n' idx' 0 0 []).2 := by
    rw [← hloop]
    simp [syslogPrintAll, halloc, pos]
  rw [prefixFits_iff fun m hm => priority_of_mem_records hm, ← hkept]
  obtain ⟨hshort, hlong⟩ := copyLoop_start hfault
  constructor
  · intro h
    have hfits := h.fits
    rw [hcopies] at hfits
    by_cases hlt : textsLength (dumpTexts time 0 (records s.buf n' idx')) < 2 ^ 31
    · rwa [hshort hlt, total_placed] at hfits
    · omega
  · intro hfits
    have heq := hshort (by omega)
    obtain ⟨k, hk⟩ := fitting_suffix time size 0 recs
    refine ⟨?_, ?_, k, ?_⟩
    · rw [hcopies, heq, total_placed]
      exact hfits
    · rw [hret, hcopies, heq, total_placed]
    · rw [hcopies, heq, hkept, hk]

/-! ## A line in two fragments -/

lemma one_lt_nsec : 1 < 2 ^ 64 := by decide

def fragment (b : Char) (flags : Nat) (h : flags < 16) : Args where
  facility := 0
  level := 6
  flags := flags
  tsNsec := 1
  clock := 1
  dict := []
  text := [chr b]
  flags_lt := h
  tsNsec_lt := one_lt_nsec
  clock_lt := one_lt_nsec
  dict_lt := by decide
  text_lt := Nat.one_lt_two_pow (by decide)

def twoFragments : Log :=
  let s := logStore smallBuffer (.boot fun _ => 0) (fragment 'a' logCont (by decide))
  logStore smallBuffer s (fragment 'b' (logCont + logNewline) (by decide))

/-- In a buffer of five bytes there is room for the second fragment and its prefix. -/
theorem twoFragments_respects :
    let recs := records twoFragments.buf 2 0
    PrefixFits false 5 recs ∧
      Respects false 5 recs
        (syslogPrintAll ⟨true, fun _ => false⟩ false 5 twoFragments 0 0 true false) := by
  have hfits : PrefixFits false 5 (records twoFragments.buf 2 0) := by decide
  exact ⟨hfits, (syslogPrintAll_respects_iff twoFragments 0 0 false (by decide) rfl
    fun _ => rfl).mpr hfits⟩

/-- In a buffer of two bytes there is room for the second fragment, as it continues the line of the
first one. It is copied with a prefix. -/
theorem twoFragments_overrun :
    let d := syslogPrintAll ⟨true, fun _ => false⟩ false 2 twoFragments 0 0 true false
    d.copies = [(0, [chr '<', chr '6', chr '>', chr 'b', chr '\n'])] ∧
      ¬ Respects false 2 (records twoFragments.buf 2 0) d := by
  refine ⟨by decide, fun h => ?_⟩
  have hfits := h.fits
  revert hfits
  decide

end Mini2440.Printk
