import Mathlib.Algebra.Group.Nat.Defs
import Mathlib.Data.List.Infix
import Mini2440.Errno
import Mini2440.Library.Words

/-!
# Integers from strings

The functions of `lib/kstrtox.c`. A string is the list of the characters before its terminator, and
what is read beyond the end is the terminator. `_parse_integer` returns the number of digits, with
an overflow flag in the highest bit.
-/

namespace Mini2440.Text

open Library

def chr (c : Char) : Byte := BitVec.ofNat 8 c.toNat

/-- `s[k]`. -/
def charAt (s : List Byte) (k : Nat) : Byte := s.getD k 0

def tolower (c : Byte) : Byte := c ||| 0x20

def isxdigit (c : Byte) : Bool :=
  (chr '0' ≤ c && c ≤ chr '9') || (chr 'A' ≤ c && c ≤ chr 'F') || (chr 'a' ≤ c && c ≤ chr 'f')

/-- `_parse_integer_fixup_radix`: the rest of the string and the base. -/
def parseIntegerFixupRadix (s : List Byte) (base : Nat) : List Byte × Nat :=
  let base :=
    if base = 0 then
      if charAt s 0 = chr '0' then
        if tolower (charAt s 1) = chr 'x' ∧ isxdigit (charAt s 2) then 16 else 8
      else 10
    else base
  if base = 16 ∧ charAt s 0 = chr '0' ∧ tolower (charAt s 1) = chr 'x' then (s.drop 2, base)
  else (s, base)

def kstrtoxOverflow : Word := 0x80000000

/-- The value of a character in the loop of `_parse_integer`. -/
def digit (c : Byte) : Option Nat :=
  if chr '0' ≤ c ∧ c ≤ chr '9' then some (c.toNat - 0x30)
  else if chr 'a' ≤ tolower c ∧ tolower c ≤ chr 'f' then some ((tolower c).toNat - 0x61 + 10)
  else none

/-- The variables of `_parse_integer`. -/
structure Scan where
  res : BitVec 64
  rv : Word
  overflow : Bool

/-- The body of the loop, for a digit. -/
def Scan.push (base : Nat) (a : Scan) (val : Nat) : Scan where
  res := a.res * BitVec.ofNat 64 base + BitVec.ofNat 64 val
  rv := a.rv + 1
  overflow :=
    a.overflow || (a.res &&& (~~~0#64 <<< 60) ≠ 0 && (2 ^ 64 - 1 - val) / base < a.res.toNat)

def parseLoop (base : Nat) : List Byte → Scan → Scan
  | [], a => a
  | c :: s, a =>
    if c = 0 then a
    else
      match digit c with
      | none => a
      | some val => if base ≤ val then a else parseLoop base s (a.push base val)

/-- `_parse_integer`: the return value and `*p`. -/
def parseInteger (s : List Byte) (base : Nat) : Word × BitVec 64 :=
  let a := parseLoop base s ⟨0, 0, false⟩
  (if a.overflow then a.rv ||| kstrtoxOverflow else a.rv, a.res)

/-- `_kstrtoull`: the return value and what `*res` is afterwards. -/
def kstrtoull' (s : List Byte) (base : Nat) (res : BitVec 64) : Int × BitVec 64 :=
  let f := parseIntegerFixupRadix s base
  let r := parseInteger f.1 f.2
  if r.1 &&& kstrtoxOverflow ≠ 0 then (-ERANGE, res)
  else
    let rv := r.1 &&& ~~~kstrtoxOverflow
    if rv = 0 then (-EINVAL, res)
    else
      let s := f.1.drop rv.toNat
      let s := if charAt s 0 = chr '\n' then s.drop 1 else s
      if charAt s 0 ≠ 0 then (-EINVAL, res) else (0, r.2)

def kstrtoull (s : List Byte) (base : Nat) (res : BitVec 64) : Int × BitVec 64 :=
  kstrtoull' (if charAt s 0 = chr '+' then s.drop 1 else s) base res

/-- The sign test of `kstrtoll` is made on the negated number. -/
def kstrtoll (s : List Byte) (base : Nat) (res : BitVec 64) : Int × BitVec 64 :=
  if charAt s 0 = chr '-' then
    let r := kstrtoull' (s.drop 1) base 0
    if r.1 < 0 then (r.1, res)
    else if 0 ≤ (-r.2).toInt then (-ERANGE, res)
    else (0, -r.2)
  else
    let r := kstrtoull s base 0
    if r.1 < 0 then (r.1, res)
    else if r.2.toInt < 0 then (-ERANGE, res)
    else (0, r.2)

/-- The narrower functions: the number has to survive the cast to the type of the result. -/
def kstrtos (w : Nat) (s : List Byte) (base : Nat) (res : BitVec w) : Int × BitVec w :=
  let r := kstrtoll s base 0
  if r.1 < 0 then (r.1, res)
  else if r.2 ≠ (r.2.setWidth w).signExtend 64 then (-ERANGE, res)
  else (0, r.2.setWidth w)

def kstrtol : List Byte → Nat → BitVec 32 → Int × BitVec 32 := kstrtos 32

def kstrtoint : List Byte → Nat → BitVec 32 → Int × BitVec 32 := kstrtos 32

def kstrtos16 : List Byte → Nat → BitVec 16 → Int × BitVec 16 := kstrtos 16

def kstrtos8 : List Byte → Nat → BitVec 8 → Int × BitVec 8 := kstrtos 8

end Mini2440.Text
