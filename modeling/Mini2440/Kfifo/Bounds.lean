import Mathlib.Data.BitVec
import Mini2440.Kfifo.Queue

/-!
# A fifo in a buffer of the caller

`__kfifo_init` divides the size of the buffer by the size of the elements and rounds the result up
to a power of two. Unless it is one already, the fifo has more elements than the buffer: the one
behind the last that fits goes over the end.
-/

namespace Mini2440.Kfifo

open BitVec Library

variable {β : Type*} {f : Fifo β}

lemma Fifo.Inside.mono {size size' : Nat} {ops : List (Op β)} (h : f.Inside size ops)
    (hle : size ≤ size') : f.Inside size' ops := by
  induction ops generalizing f with
  | nil => exact trivial
  | cons op ops ih =>
    refine ⟨fun part hpart i hi => ?_, ih h.2⟩
    exact lt_of_lt_of_le (h.1 part hpart i hi) hle

lemma kfifoInit_eq_ok {buffer : Nat → β} {size esize : Word}
    (h : kfifoInit buffer size esize = .ok f) :
    ¬roundupPowOfTwo (size / esize) < 2 ∧
      f = ⟨0, 0, roundupPowOfTwo (size / esize) - 1, esize, buffer⟩ := by
  rw [kfifoInit] at h
  split at h
  · cases h
  · rename_i hsize
    exact ⟨hsize, (Except.ok.inj h).symm⟩

lemma two_pow_eq_of_lt {k m : Nat} (hle : 2 ^ k ≤ 2 ^ m) (hlt : 2 ^ m < 2 * 2 ^ k) : m = k := by
  rw [← Nat.pow_succ'] at hlt
  have h1 := (Nat.pow_le_pow_iff_right (by decide : 1 < 2)).mp hle
  have h2 := (Nat.pow_lt_pow_iff_right (by decide : 1 < 2)).mp hlt
  omega

lemma roundupPowOfTwo_two_pow {n : Word} {k : Nat} (h : ¬roundupPowOfTwo n < 2)
    (hk : n.toNat = 2 ^ k) : (roundupPowOfTwo n).toNat = n.toNat := by
  obtain ⟨m, -, hm, -, hle, hlt⟩ := roundupPowOfTwo_spec h
  rw [hk] at hle hlt
  rw [hm, hk, two_pow_eq_of_lt hle hlt]

/-! ## Filling a fifo element by element -/

/-- A fifo of `capacity` elements with `n` of them in use, none of which was taken out. -/
structure Filled (f : Fifo β) (k n : Nat) (esize : Word) : Prop where
  lt : k < 32
  mask : f.mask.toNat = 2 ^ k - 1
  esize : f.esize = esize
  inp : f.inp = BitVec.ofNat 32 n
  out : f.out = 0

namespace Filled

variable {k n : Nat} {esize : Word}

lemma toNat_size (h : Filled f k n esize) : (f.mask + 1).toNat = 2 ^ k :=
  Fifo.toNat_size h.lt h.mask

lemma acceptable (h : Filled f k n esize) (hn : n < 2 ^ k) : f.acceptable 1 = 1 := by
  have hlt : 2 ^ k < 2 ^ 32 := Nat.pow_lt_pow_right (by decide) h.lt
  have hone : (1 : Word).toNat = 1 := rfl
  have hinp : (f.inp - f.out).toNat = n := by
    rw [h.inp, h.out, sub_zero, toNat_ofNat, Nat.mod_eq_of_lt (by omega)]
  have hunused : f.unused.toNat = 2 ^ k - n := by
    have hle : f.inp - f.out ≤ f.mask + 1 := by
      rw [le_def, h.toNat_size]
      omega
    rw [Fifo.unused, toNat_sub_of_le hle, h.toNat_size, hinp]
  rw [Fifo.acceptable, if_neg]
  rw [gt_iff_lt, lt_def]
  omega

lemma put (h : Filled f k n esize) (hn : n < 2 ^ k) (buf : Nat → β) :
    Filled (f.step (.put buf 1)) k (n + 1) esize := by
  refine { h with inp := ?_ }
  have hinp : (f.step (.put buf 1)).inp = f.inp + f.acceptable 1 := rfl
  rw [hinp, h.acceptable hn, h.inp]
  apply eq_of_toNat_eq
  simp

lemma run (h : Filled f k 0 esize) (buf : Nat → β) (hn : n ≤ 2 ^ k) :
    Filled (runFrom Fifo.step f (List.replicate n (.put buf 1))) k n esize := by
  induction n with
  | zero => exact h
  | succ n ih =>
    rw [List.replicate_succ', runFrom_append]
    exact (ih (by omega)).put hn buf

/-- The next element goes behind the ones in use, as long as its offset and the room behind it are
words. -/
lemma touched_put (h : Filled f k n esize) (hn : n < 2 ^ k) (buf : Nat → β)
    (hoff : n * esize.toNat < 2 ^ 32) (hgap : (2 ^ k - n) * esize.toNat < 2 ^ 32) :
    (n * esize.toNat, esize.toNat) ∈ f.touched (.put buf 1) := by
  have hmask : (f.inp &&& f.mask).toNat = n := by
    rw [h.inp, Fifo.toNat_and h.lt h.mask, Nat.mod_eq_of_lt hn]
  have hoff' : ((f.inp &&& f.mask) * f.esize).toNat = n * esize.toNat := by
    rw [BitVec.toNat_mul, hmask, h.esize, Nat.mod_eq_of_lt hoff]
  have hsub : (f.mask + 1) - (f.inp &&& f.mask) = BitVec.ofNat 32 (2 ^ k - n) := by
    apply BitVec.eq_of_toNat_eq
    have hle : f.inp &&& f.mask ≤ f.mask + 1 := by
      rw [le_def, h.toNat_size]
      omega
    have hlt : 2 ^ k < 2 ^ 32 := Nat.pow_lt_pow_right (by decide) h.lt
    rw [toNat_sub_of_le hle, hmask, h.toNat_size, toNat_ofNat, Nat.mod_eq_of_lt (by omega)]
  have hgap' : ((f.mask + 1) * f.esize - (f.inp &&& f.mask) * f.esize).toNat =
      (2 ^ k - n) * esize.toNat := by
    have hlt : 2 ^ k < 2 ^ 32 := Nat.pow_lt_pow_right (by decide) h.lt
    rw [← sub_mul, hsub, h.esize, toNat_mul, toNat_ofNat,
      Nat.mod_eq_of_lt (show 2 ^ k - n < 2 ^ 32 by omega), Nat.mod_eq_of_lt hgap]
  have hfits : f.esize ≤ (f.mask + 1) * f.esize - (f.inp &&& f.mask) * f.esize := by
    rw [le_def, hgap', h.esize]
    exact Nat.le_mul_of_pos_left _ (by omega)
  simp only [Fifo.touched, h.acceptable hn, Fifo.pieces_eq_scaled, Fifo.scaled, one_mul]
  rw [if_pos hfits, hoff', h.esize]
  exact List.mem_cons_self

end Filled

/-- The fifo keeps to the buffer in all runs if and only if the buffer has room for a number of
elements that is a power of two. -/
theorem kfifoInit_inside_iff (buffer : Nat → β) (size esize : Word) (f : Fifo β)
    (h : kfifoInit buffer size esize = .ok f) :
    (∀ ops, f.Inside size.toNat ops) ↔ ∃ k, (size / esize).toNat = 2 ^ k := by
  obtain ⟨hround, rfl⟩ := kfifoInit_eq_ok h
  have hdiv : (size / esize).toNat = size.toNat / esize.toNat := toNat_udiv
  have hfit : (size / esize).toNat * esize.toNat ≤ size.toNat := by
    rw [hdiv]
    exact Nat.div_mul_le_self _ _
  obtain ⟨k, hlt, hpow, hpos, hle, htwice⟩ := roundupPowOfTwo_spec hround
  constructor
  · intro hinside
    by_contra hnot
    generalize hn : (size / esize).toNat = n at hdiv hfit hle htwice hnot
    have hmore : n < 2 ^ k := lt_of_le_of_ne hle fun heq => hnot ⟨k, heq⟩
    have hempty : Filled (⟨0, 0, roundupPowOfTwo (size / esize) - 1, esize, buffer⟩ : Fifo β) k 0
        esize := by
      refine ⟨hlt, ?_, rfl, rfl, rfl⟩
      have hone : (1 : Word).toNat = 1 := rfl
      rw [BitVec.toNat_sub_of_le (by rw [BitVec.le_def]; omega), hpow, hone]
    -- the element behind the last one that fits
    have hrun := hempty.run buffer (by omega)
    have hgap : (2 ^ k - n) * esize.toNat ≤ n * esize.toNat := Nat.mul_le_mul_right _ (by omega)
    have htouched := hrun.touched_put hmore buffer (by omega) (by omega)
    have hall := hinside (List.replicate n (.put buffer 1) ++ [.put buffer 1])
    have hlast := (along_append.mp hall).2
    have hesize : 0 < esize.toNat := by
      by_contra hzero
      rw [show esize.toNat = 0 by omega] at hdiv
      omega
    have hover : size.toNat < n * esize.toNat + esize.toNat := by
      rw [hdiv, Nat.mul_comm]
      exact Nat.lt_mul_div_succ _ hesize
    have := hlast.1 _ htouched (size.toNat - n * esize.toNat) (by omega)
    simp only at this
    omega
  · rintro ⟨m, hm⟩ ops
    have hsame := roundupPowOfTwo_two_pow hround hm
    have hbytes : (roundupPowOfTwo (size / esize)).toNat * esize.toNat < 2 ^ 32 := by
      rw [hsame]
      exact lt_of_le_of_lt hfit size.isLt
    obtain ⟨k', hpow', -, hreached⟩ := reached_empty buffer hround hbytes
    refine (hreached.inside ops).mono ?_
    rw [← hpow', hsame]
    exact hfit

/-- A buffer of four bytes holds four elements of one byte. -/
theorem fourBytes_inside :
    let f : Fifo Nat := ⟨0, 0, 3, 1, fun _ => 0⟩
    kfifoInit (fun _ => 0) 4 1 = .ok f ∧ ∀ ops, f.Inside 4 ops :=
  ⟨rfl, (kfifoInit_inside_iff (fun _ => 0) 4 1 ⟨0, 0, 3, 1, fun _ => 0⟩ rfl).mpr ⟨2, rfl⟩⟩

/-- In a buffer of three bytes the fourth element goes to offset 3. -/
theorem threeBytes_overrun :
    let f : Fifo Nat := ⟨0, 0, 3, 1, fun _ => 0⟩
    kfifoInit (fun _ => 0) 3 1 = .ok f ∧ ¬f.Inside 3 [.put (fun t => t) 4] := by
  refine ⟨rfl, fun h => ?_⟩
  exact absurd (h.1 (0, 4) (by decide) 3 (by decide)) (by decide)

end Mini2440.Kfifo
