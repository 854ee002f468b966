import Mathlib.Algebra.Group.Nat.Defs
import Mini2440.Library.HeapOrder
import Mini2440.Library.Words

/-!
# The heapsort of the kernel

`sort` of `lib/sort.c` on an array of bytes. A pointer is its distance from `base`, so that the
array is at the distances below its length and everything else is out of bounds. The counters of
the code are scaled by the size of an element. They are of type `int`, but most comparisons have a
`size_t` on one side and are unsigned; `i >= 0` and `i > 0` are the signed ones.
-/

namespace Mini2440.Sort

open List Library

/-- Why a run has no result: an access out of the bounds of the array, or too many rounds. -/
inductive Fault where
  | access
  | rounds
  deriving DecidableEq, Repr

/-! ## Accesses -/

def load (bytes : List Byte) (p : Word) : Except Fault Byte :=
  match bytes[p.toNat]? with
  | some b => .ok b
  | none => .error .access

def store (bytes : List Byte) (p : Word) (b : Byte) : Except Fault (List Byte) :=
  if p.toNat < bytes.length then .ok (bytes.set p.toNat b) else .error .access

/-- The `size` bytes at `p`. -/
def element (bytes : List Byte) (p size : Word) : Except Fault (List Byte) :=
  if p.toNat + size.toNat ≤ bytes.length then .ok ((bytes.drop p.toNat).take size.toNat)
  else .error .access

/-- The bytes at `p` are overwritten. -/
def overwrite (bytes : List Byte) (p : Word) (new : List Byte) : Except Fault (List Byte) :=
  if p.toNat + new.length ≤ bytes.length then
    .ok (bytes.take p.toNat ++ new ++ bytes.drop (p.toNat + new.length))
  else .error .access

/-! ## The swap functions -/

def u32Swap (bytes : List Byte) (a b _size : Word) : Except Fault (List Byte) := do
  let t := leWord (← element bytes a 4)
  let v := leWord (← element bytes b 4)
  let bytes ← overwrite bytes a (leBytes 4 v)
  overwrite bytes b (leBytes 4 t)

/-- The loop of `generic_swap`; its body is executed once before the test. -/
def swapLoop : Nat → List Byte → Word → Word → Word → Except Fault (List Byte)
  | 0, _, _, _, _ => .error .rounds
  | fuel + 1, bytes, a, b, size => do
    let t ← load bytes a
    let v ← load bytes b
    let bytes ← store bytes a v
    let bytes ← store bytes b t
    if 0 < (size - 1).toInt then swapLoop fuel bytes (a + 1) (b + 1) (size - 1) else .ok bytes

def genericSwap (bytes : List Byte) (a b size : Word) : Except Fault (List Byte) :=
  swapLoop size.toNat bytes a b size

/-! ## The loops -/

section Loops

variable (cmp : List Byte → List Byte → Int)

/-- `cmp_func(base + p, base + q)`. -/
def compareAt (bytes : List Byte) (size p q : Word) : Except Fault Int := do
  let x ← element bytes p size
  let y ← element bytes q size
  .ok (cmp x y)

/-- The child at `c` or the one after it. -/
def greaterChild (size bound : Word) (bytes : List Byte) (c : Word) : Except Fault Word :=
  if c < bound - size then do
    let d ← compareAt cmp bytes size c (c + size)
    .ok (if d < 0 then c + size else c)
  else .ok c

/-- The inner loop of both phases; `bound` is `n` in the first one and `i` in the second one. -/
def siftDown (swap : List Byte → Word → Word → Word → Except Fault (List Byte))
    (size bound : Word) : Nat → List Byte → Word → Except Fault (List Byte)
  | 0, _, _ => .error .rounds
  | fuel + 1, bytes, r =>
    if r * 2 + size < bound then do
      let c ← greaterChild cmp size bound bytes (r * 2 + size)
      let d ← compareAt cmp bytes size r c
      if 0 ≤ d then .ok bytes
      else do
        let bytes ← swap bytes r c size
        siftDown swap size bound fuel bytes c
    else .ok bytes

variable (swap : List Byte → Word → Word → Word → Except Fault (List Byte)) (size n : Word)
  (rounds : Nat)

/-- The first loop. -/
def heapify : Nat → List Byte → Word → Except Fault (List Byte)
  | 0, _, _ => .error .rounds
  | fuel + 1, bytes, i =>
    if 0 ≤ i.toInt then do
      let bytes ← siftDown cmp swap size n rounds bytes i
      heapify fuel bytes (i - size)
    else .ok bytes

/-- The second loop. -/
def sortLoop : Nat → List Byte → Word → Except Fault (List Byte)
  | 0, _, _ => .error .rounds
  | fuel + 1, bytes, i =>
    if 0 < i.toInt then do
      let bytes ← swap bytes 0 i size
      let bytes ← siftDown cmp swap size i rounds bytes 0
      sortLoop fuel bytes (i - size)
    else .ok bytes

end Loops

/-- `sort` with a null pointer for `swap_func`. No loop has more rounds than there are words. -/
def sort (cmp : List Byte → List Byte → Int) (bytes : List Byte) (num size : Word) :
    Except Fault (List Byte) := do
  let swap := if size = 4 then u32Swap else genericSwap
  let n := num * size
  let rounds := 2 ^ 32
  let bytes ← heapify cmp swap size n rounds rounds bytes ((num / 2 - 1) * size)
  sortLoop cmp swap size rounds rounds bytes (n - size)

/-! ## Elements -/

abbrev Element (n : Nat) := { bytes : List Byte // bytes.length = n }

def encode {n : Nat} (xs : List (Element n)) : List Byte := (xs.map Subtype.val).flatten

section Encode

variable {n : Nat} {xs ys : List (Element n)} {k l : Nat}

lemma encode_append : encode (xs ++ ys) = encode xs ++ encode ys := by
  simp [encode]

lemma encode_cons (x : Element n) : encode (x :: xs) = x.val ++ encode xs := rfl

@[simp] lemma length_encode : (encode xs).length = xs.length * n := by
  induction xs with
  | nil => simp [encode]
  | cons x xs ih => rw [encode_cons, length_append, ih, x.property, length_cons,
      Nat.succ_mul, Nat.add_comm]

lemma encode_split (hk : k < xs.length) :
    encode xs = encode (xs.take k) ++ (xs[k].val ++ encode (xs.drop (k + 1))) := by
  rw [← encode_cons, ← encode_append, getElem_cons_drop, take_append_drop]

lemma length_encode_take (hk : k < xs.length) : (encode (xs.take k)).length = k * n := by
  rw [length_encode, length_take, Nat.min_eq_left (by omega)]

lemma take_drop_encode (hk : k < xs.length) : ((encode xs).drop (k * n)).take n = xs[k].val := by
  rw [encode_split hk, drop_left' (length_encode_take hk), take_left' xs[k].property]

lemma getElem?_encode {j : Nat} (hj : j < n) :
    (encode xs)[k * n + j]? = xs[k]?.bind fun x => x.val[j]? := by
  by_cases hk : k < xs.length
  · rw [getElem?_eq_getElem hk, Option.bind_some, ← take_drop_encode hk,
      getElem?_take_of_lt hj, getElem?_drop]
  · rw [getElem?_eq_none (Nat.le_of_not_lt hk), Option.bind_none, getElem?_eq_none]
    rw [length_encode]
    exact Nat.le_trans (Nat.mul_le_mul_right n (Nat.le_of_not_lt hk)) (Nat.le_add_right _ _)

end Encode

end Mini2440.Sort
