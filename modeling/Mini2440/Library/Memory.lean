import Mathlib.Algebra.Group.Nat.Defs
import Mathlib.Data.List.Basic

/-!
# Blocks of a memory

A memory is a function of the address. A block of cells is read as a list and written from a list,
and a series of writes is performed from left to right. The last part is about numbers that are
kept in several bytes, the least significant one first.
-/

namespace Mini2440.Library

open List

variable {β : Type*} {m m' : Nat → β} {a b i n : Nat} {l : List β} {ws : List (Nat × List β)}

/-- The `n` cells from `a` on. -/
def readBlock (m : Nat → β) (a n : Nat) : List β := (range n).map fun i => m (a + i)

/-- The list is stored in the cells from `a` on. -/
def writeBlock (m : Nat → β) (a : Nat) (l : List β) : Nat → β :=
  fun i => if a ≤ i then (l[i - a]?).getD (m i) else m i

@[simp] lemma length_readBlock : (readBlock m a n).length = n := by
  simp [readBlock]

lemma readBlock_congr (h : ∀ i, a ≤ i → i < a + n → m' i = m i) :
    readBlock m' a n = readBlock m a n := by
  refine map_congr_left fun i hi => h _ (by omega) ?_
  have := mem_range.mp hi
  omega

lemma writeBlock_outside (h : i < a ∨ a + l.length ≤ i) : writeBlock m a l i = m i := by
  unfold writeBlock
  split
  case isTrue hle =>
    rw [getElem?_eq_none (by omega)]
    rfl
  case isFalse => rfl

lemma writeBlock_inside (h : i < l.length) : writeBlock m a l (a + i) = l[i] := by
  simp [writeBlock, h]

lemma readBlock_writeBlock_self (h : n = l.length) : readBlock (writeBlock m a l) a n = l := by
  subst h
  refine ext_getElem length_readBlock fun i hi hi' => ?_
  simp only [readBlock, getElem_map, getElem_range]
  exact writeBlock_inside hi'

/-! ## Series of writes -/

/-- The memory after the writes, each an address and what is stored from there on. -/
def writeAll (m : Nat → β) (ws : List (Nat × List β)) : Nat → β :=
  ws.foldl (fun m w => writeBlock m w.1 w.2) m

@[simp] lemma writeAll_nil : writeAll m [] = m := rfl

@[simp] lemma writeAll_cons (w : Nat × List β) :
    writeAll m (w :: ws) = writeAll (writeBlock m w.1 w.2) ws := rfl

lemma writeAll_append (ws ws' : List (Nat × List β)) :
    writeAll m (ws ++ ws') = writeAll (writeAll m ws) ws' := by
  rw [writeAll, foldl_append]
  rfl

lemma writeAll_outside (h : ∀ w ∈ ws, i < w.1 ∨ w.1 + w.2.length ≤ i) : writeAll m ws i = m i := by
  induction ws generalizing m with
  | nil => rfl
  | cons w ws ih =>
    rw [writeAll_cons, ih fun w' hw' => h w' (mem_cons_of_mem _ hw')]
    exact writeBlock_outside (h w mem_cons_self)

lemma readBlock_writeAll {k : Nat} (hk : ws[k]? = some (a, l)) (hn : n = l.length)
    (later : ∀ w ∈ ws.drop (k + 1), a + l.length ≤ w.1 ∨ w.1 + w.2.length ≤ a) :
    readBlock (writeAll m ws) a n = l := by
  induction ws generalizing m k with
  | nil => simp at hk
  | cons w ws ih =>
    rw [writeAll_cons]
    cases k with
    | zero =>
      obtain rfl : w = (a, l) := by simpa using hk
      refine (readBlock_congr fun i _ _ => writeAll_outside fun w' hw' => ?_).trans
        (readBlock_writeBlock_self hn)
      have := later w' hw'
      omega
    | succ k => exact ih (by simpa using hk) later

lemma readBlock_one : readBlock m a 1 = [m a] := by
  simp [readBlock]

/-! ## Numbers in bytes -/

/-- The number that the bytes stand for. -/
def leNat : List (BitVec 8) → Nat
  | [] => 0
  | b :: bs => b.toNat + 256 * leNat bs

/-- The lowest `n` bytes of a number. -/
def natBytes : Nat → Nat → List (BitVec 8)
  | 0, _ => []
  | n + 1, v => BitVec.ofNat 8 v :: natBytes n (v / 256)

@[simp] lemma length_natBytes (n v : Nat) : (natBytes n v).length = n := by
  induction n generalizing v with
  | zero => rfl
  | succ n ih => rw [natBytes, length_cons, ih]

lemma leNat_natBytes (n v : Nat) : leNat (natBytes n v) = v % 256 ^ n := by
  induction n generalizing v with
  | zero => simp [natBytes, leNat, Nat.mod_one]
  | succ n ih =>
    rw [natBytes, leNat, ih, BitVec.toNat_ofNat, pow_succ' 256 n, Nat.mod_mul]

end Mini2440.Library
