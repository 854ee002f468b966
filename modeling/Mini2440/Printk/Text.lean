import Mini2440.Printk.Record
import Mini2440.Text.PutDec

/-!
# The text of a record

`msg_print_text` formats a record for `syslog`: every line of the text behind a prefix, unless the
flags of the record before it say that its first line continues a line. Without a buffer it only
computes the length; with one it stops before a line that does not fit.
-/

namespace Mini2440.Printk

open List Library

open Text (chr decimalNumeral)

def logNewline : Nat := 2

def logPrefix : Nat := 4

def logCont : Nat := 8

/-- `flags & flag`. -/
def hasFlag (flags flag : Nat) : Bool := flags &&& flag != 0

variable (time syslog : Bool) (ts : Nat) (msg : Msg) (prev : Nat)

/-- The seconds of a timestamp, as an `unsigned long`. -/
def tsSeconds : Nat := ts / 1000000000 % 2 ^ 32

def printTime : List Byte :=
  if time then
    chr '[' :: (decimalNumeral (tsSeconds ts)).leftpad 5 (chr ' ') ++
      chr '.' :: (decimalNumeral (ts % 1000000000 / 1000)).leftpad 6 (chr '0') ++
      [chr ']', chr ' ']
  else []

/-- `print_time(ts, NULL)`, the length of `[%5lu.000000] `. -/
def printTimeLen : Nat := if time then max 5 (decimalNumeral (tsSeconds ts)).length + 10 else 0

def Msg.priority : Nat := msg.facility <<< 3 ||| msg.level

def printPrefix : List Byte :=
  (if syslog then chr '<' :: decimalNumeral msg.priority ++ [chr '>'] else []) ++
    printTime time msg.tsNsec

/-- `print_prefix(msg, syslog, NULL)`. -/
def printPrefixLen : Nat :=
  (if syslog then
    3 + (if 999 < msg.priority then 3 else if 99 < msg.priority then 2
      else if 9 < msg.priority then 1 else 0)
  else 0) + printTimeLen time msg.tsNsec

def startsLine (flags : Nat) : Bool :=
  !(hasFlag prev logCont && !hasFlag flags logPrefix) &&
    !(hasFlag flags logCont && (hasFlag prev logCont && !hasFlag prev logNewline))

def endsLine (flags : Nat) : Bool := !(hasFlag flags logCont && !hasFlag flags logNewline)

/-- The lines that the rounds of the loop find with `memchr`. -/
def textLines : List Byte → List (List Byte)
  | [] => [[]]
  | b :: bs =>
    if b = chr '\n' then [] :: textLines bs
    else match textLines bs with
      | [] => [[b]]
      | l :: ls => (b :: l) :: ls

def lenLoop (prefixLen : Nat) (newline : Bool) : Bool → List (List Byte) → Nat
  | _, [] => 0
  | start, l :: ls =>
    (if start then prefixLen else 0) + l.length + (if !ls.isEmpty || newline then 1 else 0) +
      lenLoop prefixLen newline true ls

/-- The rounds of the loop that fills a buffer of this size; `buf` is what it holds already. -/
def textLoop (start : List Byte) (prefixLen : Nat) (newline : Bool) (size : Nat) :
    Bool → List (List Byte) → List Byte → List Byte
  | _, [], buf => buf
  | first, l :: ls, buf =>
    if size - buf.length ≤ prefixLen + l.length + 1 then buf
    else textLoop start prefixLen newline size true ls
      (buf ++ ((if first then start else []) ++ l ++
        (if !ls.isEmpty || newline then [chr '\n'] else [])))

/-- `msg_print_text(msg, prev, syslog, NULL, 0)`. -/
def msgPrintTextLen : Nat :=
  lenLoop (printPrefixLen time syslog msg) (endsLine msg.flags) (startsLine prev msg.flags)
    (textLines msg.text)

/-- `msg_print_text(msg, prev, syslog, buf, size)`: the text that it leaves in the buffer. -/
def msgPrintText (size : Nat) : List Byte :=
  textLoop (printPrefix time syslog msg) (printPrefixLen time syslog msg) (endsLine msg.flags) size
    (startsLine prev msg.flags) (textLines msg.text) []

/-! ## Lengths -/

variable {time syslog ts msg prev} {n : Nat}

lemma length_decimalNumeral_small (h : n < 10) : (decimalNumeral n).length = 1 := by
  unfold decimalNumeral
  split
  case isTrue => rfl
  case isFalse hn =>
    rw [Text.decimalDigits_step (by omega), Nat.div_eq_of_lt h]
    rfl

lemma length_decimalNumeral_step (h : 10 ≤ n) :
    (decimalNumeral n).length = (decimalNumeral (n / 10)).length + 1 := by
  rw [decimalNumeral, if_neg (by omega), decimalNumeral, if_neg (by omega), length_reverse,
    length_reverse, Text.decimalDigits_step (by omega), length_cons]

lemma length_decimalNumeral_le {k : Nat} (hk : 0 < k) (h : n < 10 ^ k) :
    (decimalNumeral n).length ≤ k := by
  induction k generalizing n with
  | zero => exact absurd hk (by decide)
  | succ k ih =>
    by_cases hn : n < 10
    · rw [length_decimalNumeral_small hn]
      omega
    · have hk' : 0 < k := by
        by_contra hzero
        obtain rfl : k = 0 := by omega
        omega
      have hdiv : n / 10 < 10 ^ k := by bv_omega
      rw [length_decimalNumeral_step (by omega)]
      exact Nat.succ_le_succ (ih hk' hdiv)

lemma length_printTime : (printTime time ts).length = printTimeLen time ts := by
  unfold printTime printTimeLen
  split
  case isTrue =>
    have hmicro : (decimalNumeral (ts % 1000000000 / 1000)).length ≤ 6 :=
      length_decimalNumeral_le (by decide) (by omega)
    simp only [length_append, length_cons, length_nil, length_leftpad]
    omega
  case isFalse => rfl

lemma length_printPrefix (h : msg.priority < 10000) :
    (printPrefix time syslog msg).length = printPrefixLen time syslog msg := by
  have hnumeral : (decimalNumeral msg.priority).length =
      1 + (if 999 < msg.priority then 3 else if 99 < msg.priority then 2
        else if 9 < msg.priority then 1 else 0) := by
    split_ifs with h₃ h₂ h₁
    · rw [length_decimalNumeral_step (by omega), length_decimalNumeral_step (by omega),
        length_decimalNumeral_step (by omega), length_decimalNumeral_small (by omega)]
    · rw [length_decimalNumeral_step (by omega), length_decimalNumeral_step (by omega),
        length_decimalNumeral_small (by omega)]
    · rw [length_decimalNumeral_step (by omega), length_decimalNumeral_small (by omega)]
    · rw [length_decimalNumeral_small (by omega)]
  rw [printPrefix, printPrefixLen, length_append, length_printTime]
  cases syslog
  · rfl
  · simp only [if_true, length_append, length_cons, length_nil]
    omega

/-- A record of the log has a priority of at most four digits. -/
lemma priority_msgAt (buf : Buffer) (a : Nat) : (msgAt buf a).priority < 10000 := by
  have hor : (buf (a + 14)).toNat <<< 3 ||| (buf (a + 15)).toNat / 32 < 2 ^ 11 := by
    refine Nat.or_lt_two_pow ?_ (by omega)
    omega
  change (buf (a + 14)).toNat <<< 3 ||| (buf (a + 15)).toNat / 32 < 10000
  omega

lemma startsLine_zero (flags : Nat) : startsLine 0 flags := by
  simp [startsLine, hasFlag]

/-- The text of the buffer is at most as long as the length computed without one, and it fits. -/
lemma length_textLoop (start : List Byte) (newline : Bool) {size : Nat} (first : Bool)
    (ls : List (List Byte)) (buf : List Byte) (hbuf : buf.length < size) :
    (textLoop start start.length newline size first ls buf).length < size ∧
      (textLoop start start.length newline size first ls buf).length ≤
        buf.length + lenLoop start.length newline first ls := by
  induction ls generalizing first buf with
  | nil => exact ⟨hbuf, le_refl _⟩
  | cons l ls ih =>
    rw [textLoop, lenLoop]
    split
    case isTrue => exact ⟨hbuf, Nat.le_add_right _ _⟩
    case isFalse hfits =>
      have hline : ((if first then start else []) ++ l ++
          (if !ls.isEmpty || newline then [chr '\n'] else [])).length =
          (if first then start.length else 0) + l.length +
            (if !ls.isEmpty || newline then 1 else 0) := by
        rw [length_append, length_append]
        congr 1
        · cases first <;> rfl
        · split <;> rfl
      have hstart : (if first then start.length else 0) ≤ start.length := by
        split <;> omega
      have hend : (if !ls.isEmpty || newline then 1 else 0) ≤ 1 := by
        split <;> omega
      obtain ⟨hlt, hle⟩ := ih true (buf ++ ((if first then start else []) ++ l ++
        (if !ls.isEmpty || newline then [chr '\n'] else []))) (by
          rw [length_append]
          omega)
      rw [length_append] at hle
      exact ⟨hlt, by omega⟩

end Mini2440.Printk
