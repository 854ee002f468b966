import Mathlib.Algebra.Group.Nat.Defs
import Mini2440.Errno
import Mini2440.Library.Cyclic
import Mini2440.Library.Run
import Mini2440.Library.Words

/-!
# The generic kernel FIFO

The functions of `lib/kfifo.c` on a machine with 32-bit words. The counters `in` and `out` run
freely, only their difference and their low bits are used. A copy into the buffer or out of it is
made in two pieces, whose offsets and lengths are calculated with wrapping arithmetic.

Bytes are of any type, and a pointer is the memory behind it.
-/

namespace Mini2440.Kfifo

open Library

structure Fifo (β : Type*) where
  inp : Word
  out : Word
  mask : Word
  esize : Word
  data : Nat → β

def flsLong (x : Word) : Nat := if x = 0 then 0 else Nat.log2 x.toNat + 1

/-- `__roundup_pow_of_two`; a shift by the width of a word leaves nothing. -/
def roundupPowOfTwo (n : Word) : Word := 1#32 <<< flsLong (n - 1)

variable {β : Type*}

/-- `__kfifo_alloc`; `kmalloc` gives the contents of the memory that it finds, or fails. -/
def kfifoAlloc (kmalloc : Word → Option (Nat → β)) (size esize : Word) : Except Int (Fifo β) :=
  let size := roundupPowOfTwo size
  if size < 2 then .error (-EINVAL)
  else
    match kmalloc (size * esize) with
    | none => .error (-ENOMEM)
    | some data => .ok ⟨0, 0, size - 1, esize, data⟩

/-- `__kfifo_init`; a division by zero gives zero. -/
def kfifoInit (buffer : Nat → β) (size esize : Word) : Except Int (Fifo β) :=
  let size := size / esize
  let size := roundupPowOfTwo size
  if size < 2 then .error (-EINVAL) else .ok ⟨0, 0, size - 1, esize, buffer⟩

/-- The two pieces of a copy: the first one lies at an offset and the rest at the beginning of the
buffer. -/
structure Pieces where
  off : Word
  first : Word
  rest : Word

namespace Fifo

/-- `kfifo_unused`. -/
def unused (f : Fifo β) : Word := (f.mask + 1) - (f.inp - f.out)

/-- What `kfifo_copy_in` and `kfifo_copy_out` calculate. -/
def pieces (f : Fifo β) (len off : Word) : Pieces :=
  let size := f.mask + 1
  let off := off &&& f.mask
  let (off, size, len) :=
    if f.esize ≠ 1 then (off * f.esize, size * f.esize, len * f.esize) else (off, size, len)
  let l := if len ≤ size - off then len else size - off
  ⟨off, l, len - l⟩

def copyIn (f : Fifo β) (src : Nat → β) (len off : Word) : Fifo β :=
  let p := f.pieces len off
  let data := blockCopy f.data p.off.toNat src 0 p.first.toNat
  { f with data := blockCopy data 0 src p.first.toNat p.rest.toNat }

def copyOut (f : Fifo β) (dst : Nat → β) (len off : Word) : Nat → β :=
  let p := f.pieces len off
  let dst := blockCopy dst 0 f.data p.off.toNat p.first.toNat
  blockCopy dst p.first.toNat f.data 0 p.rest.toNat

/-- The number of elements that `__kfifo_in` accepts. -/
def acceptable (f : Fifo β) (len : Word) : Word := if len > f.unused then f.unused else len

/-- The number of elements that `__kfifo_out_peek` copies. -/
def available (f : Fifo β) (len : Word) : Word :=
  if len > f.inp - f.out then f.inp - f.out else len

def kfifoIn (f : Fifo β) (buf : Nat → β) (len : Word) : Word × Fifo β :=
  let len := f.acceptable len
  let f := f.copyIn buf len f.inp
  (len, { f with inp := f.inp + len })

def kfifoOutPeek (f : Fifo β) (buf : Nat → β) (len : Word) : Word × (Nat → β) :=
  let len := f.available len
  (len, f.copyOut buf len f.out)

def kfifoOut (f : Fifo β) (buf : Nat → β) (len : Word) : Word × (Nat → β) × Fifo β :=
  let (len, buf) := f.kfifoOutPeek buf len
  (len, buf, { f with out := f.out + len })

end Fifo

/-! ## Calls -/

/-- A call, with the memory that its pointer is for and the number of elements. -/
inductive Op (β : Type*) where
  | put (buf : Nat → β) (len : Word)
  | get (buf : Nat → β) (len : Word)
  | peek (buf : Nat → β) (len : Word)

structure Call (β : Type*) where
  op : Op β
  ret : Word
  buf : Nat → β

namespace Fifo

def call (f : Fifo β) : Op β → Call β
  | .put buf len => ⟨.put buf len, (f.kfifoIn buf len).1, buf⟩
  | .get buf len => ⟨.get buf len, (f.kfifoOut buf len).1, (f.kfifoOut buf len).2.1⟩
  | .peek buf len => ⟨.peek buf len, (f.kfifoOutPeek buf len).1, (f.kfifoOutPeek buf len).2⟩

def step (f : Fifo β) : Op β → Fifo β
  | .put buf len => (f.kfifoIn buf len).2
  | .get buf len => (f.kfifoOut buf len).2.2
  | .peek _ _ => f

def trace (f : Fifo β) : List (Op β) → List (Call β)
  | [] => []
  | op :: ops => f.call op :: (f.step op).trace ops

/-- The parts of the buffer that a call reads or writes, as offsets with lengths. -/
def touched (f : Fifo β) (op : Op β) : List (Nat × Nat) :=
  let p :=
    match op with
    | .put _ len => f.pieces (f.acceptable len) f.inp
    | .get _ len | .peek _ len => f.pieces (f.available len) f.out
  [(p.off.toNat, p.first.toNat), (0, p.rest.toNat)]

/-- All parts of the buffer that the calls of a run touch lie below `size`. -/
def Inside (f : Fifo β) (size : Nat) (ops : List (Op β)) : Prop :=
  Along step (fun f op => ∀ part ∈ f.touched op, ∀ i < part.2, part.1 + i < size) f ops

lemma trace_append (f : Fifo β) (ops ops' : List (Op β)) :
    f.trace (ops ++ ops') = f.trace ops ++ (runFrom step f ops).trace ops' := by
  induction ops generalizing f with
  | nil => rfl
  | cons op ops ih => simp only [List.cons_append, trace, ih, runFrom_cons]

end Fifo

/-! ## Powers of two -/

lemma toNat_one_shiftLeft {k : Nat} (hk : k < 32) : (1#32 <<< k).toNat = 2 ^ k := by
  have hlt : 2 ^ k < 2 ^ 32 := Nat.pow_lt_pow_right (by decide) hk
  rw [BitVec.toNat_shiftLeft, BitVec.toNat_ofNat, Nat.shiftLeft_eq, Nat.one_mul,
    Nat.mod_eq_of_lt hlt]

/-- A word that is rounded up to two at least becomes the least power of two from the word on. -/
lemma roundupPowOfTwo_spec {n : Word} (h : ¬roundupPowOfTwo n < 2) :
    ∃ k < 32, (roundupPowOfTwo n).toNat = 2 ^ k ∧ 0 < k ∧ n.toNat ≤ 2 ^ k ∧
      2 ^ k < 2 * n.toNat := by
  by_cases h0 : n = 0
  · subst h0
    exact absurd (by decide) h
  by_cases h1 : n - 1 = 0
  · rw [roundupPowOfTwo, flsLong, if_pos h1] at h
    exact absurd (by decide) h
  have hpos : 0 < n.toNat := by bv_omega
  have hpred : (n - 1).toNat = n.toNat - 1 := by bv_omega
  have hne : n.toNat - 1 ≠ 0 := by bv_omega
  -- the highest bit of `n - 1` gives the power below `n`
  have hself := Nat.log2_self_le hne
  have hlt := Nat.lt_log2_self (n := n.toNat - 1)
  have hround : roundupPowOfTwo n = 1#32 <<< (Nat.log2 (n.toNat - 1) + 1) := by
    rw [roundupPowOfTwo, flsLong, if_neg h1, hpred]
  have hk : Nat.log2 (n.toNat - 1) + 1 < 32 := by
    by_contra hge
    rw [hround, BitVec.shiftLeft_eq_zero (by omega)] at h
    exact h (by decide)
  refine ⟨_, hk, by rw [hround, toNat_one_shiftLeft hk], by omega, by omega, ?_⟩
  omega

end Mini2440.Kfifo
