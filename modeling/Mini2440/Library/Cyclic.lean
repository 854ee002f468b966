import Mathlib.Tactic.SplitIfs

/-!
# Cyclic buffers

Copies of blocks between memories, and the copies in two pieces with which a block goes into a
buffer that is used cyclically, or out of it. A position of the buffer is the rest of an unbounded
position by the size of the buffer, so that what the buffer holds can be stated for a window of an
unbounded sequence.
-/

namespace Mini2440.Library

variable {β : Type*} {dst src data : Nat → β} {d s n i t size p len : Nat}

/-- `memcpy(dst + d, src + s, n)`. -/
def blockCopy (dst : Nat → β) (d : Nat) (src : Nat → β) (s n : Nat) : Nat → β :=
  fun i => if d ≤ i ∧ i < d + n then src (s + (i - d)) else dst i

lemma blockCopy_inside (h : t < n) : blockCopy dst d src s n (d + t) = src (s + t) := by
  rw [blockCopy, if_pos ⟨by omega, by omega⟩, Nat.add_sub_cancel_left]

lemma blockCopy_outside (h : i < d ∨ d + n ≤ i) : blockCopy dst d src s n i = dst i := by
  rw [blockCopy, if_neg (by omega)]

/-- A block goes into a cyclic buffer: up to its end, and the rest to its beginning. -/
def cyclicIn (size : Nat) (data : Nat → β) (off : Nat) (src : Nat → β) (len : Nat) : Nat → β :=
  let l := min len (size - off)
  blockCopy (blockCopy data off src 0 l) 0 src l (len - l)

def cyclicOut (size : Nat) (dst data : Nat → β) (off len : Nat) : Nat → β :=
  let l := min len (size - off)
  blockCopy (blockCopy dst 0 data off l) l data 0 (len - l)

lemma add_mod_cases (hp : p % size < size) (ht : t < size) :
    (p + t) % size = if p % size + t < size then p % size + t else p % size + t - size := by
  rw [← Nat.mod_add_mod]
  split_ifs with h
  · exact Nat.mod_eq_of_lt h
  · rw [Nat.mod_eq_sub_mod (by omega), Nat.mod_eq_of_lt (by omega)]

lemma cyclicIn_inside (hlen : len ≤ size) (ht : t < len) :
    cyclicIn size data (p % size) src len ((p + t) % size) = src t := by
  have hp : p % size < size := Nat.mod_lt _ (by omega)
  rw [add_mod_cases hp (by omega), cyclicIn]
  by_cases h : p % size + t < size
  · rw [if_pos h]
    by_cases hfirst : p % size + t < len - min len (size - p % size)
    · omega
    · rw [blockCopy_outside (by omega), blockCopy_inside (by omega), Nat.zero_add]
  · have hsplit : p % size + t - size = 0 + (t - (size - p % size)) := by omega
    rw [if_neg h, hsplit, blockCopy_inside (by omega)]
    congr 1
    omega

lemma cyclicIn_before (hlt : t < p) (hle : p + len ≤ t + size) :
    cyclicIn size data (p % size) src len (t % size) = data (t % size) := by
  have hp : p % size < size := Nat.mod_lt _ (by omega)
  -- the position lies `p - t` before `p`, and behind the block in the same round
  have hcases := add_mod_cases (t := size - (p - t)) hp (by omega)
  have hmod : (p + (size - (p - t))) % size = t % size := by
    rw [show p + (size - (p - t)) = t + size by omega, Nat.add_mod_right]
  rw [cyclicIn, blockCopy_outside (by split_ifs at hcases <;> omega),
    blockCopy_outside (by split_ifs at hcases <;> omega)]

lemma cyclicOut_inside (hlen : len ≤ size) (ht : t < len) :
    cyclicOut size dst data (p % size) len t = data ((p + t) % size) := by
  have hp : p % size < size := Nat.mod_lt _ (by omega)
  rw [add_mod_cases hp (by omega), cyclicOut]
  by_cases h : p % size + t < size
  · rw [if_pos h, blockCopy_outside (by omega)]
    have hinside : blockCopy dst 0 data (p % size) (min len (size - p % size)) (0 + t) =
        data (p % size + t) := blockCopy_inside (by omega)
    rwa [Nat.zero_add] at hinside
  · have hl : min len (size - p % size) = size - p % size := by omega
    have hsplit : t = (size - p % size) + (p % size + t - size) := by omega
    rw [if_neg h, hl]
    conv => lhs; rw [hsplit]
    rw [blockCopy_inside (by omega), Nat.zero_add]

end Mini2440.Library
