import Mini2440.Errno
import Mini2440.Kfifo.Queue

/-!
# Copies from and to user space

`__kfifo_from_user` and `__kfifo_to_user` copy two pieces, and either copy may stop early. The
elements that are not complete are counted right, but they are then taken off a number of bytes.
-/

namespace Mini2440.Kfifo

open BitVec Library

/-- `copy_from_user` or `copy_to_user`: of `n` bytes `left n` are not copied. In the buffer of the
fifo something is left for them. -/
structure UserCopy (β : Type*) where
  left : Word → Word
  fill : Nat → β
  left_le : ∀ n, left n ≤ n

variable {β : Type*}

def UserCopy.write (c : UserCopy β) (dst : Nat → β) (off : Nat) (src : Nat → β) (pos : Nat)
    (n : Word) : Nat → β :=
  blockCopy (blockCopy dst off c.fill 0 n.toNat) off src pos (n - c.left n).toNat

def divRoundUp (n d : Word) : Word := (n + d - 1) / d

namespace Pieces

/-- The elements that are not copied and `*copied`, as `kfifo_copy_from_user` and
`kfifo_copy_to_user` calculate them. -/
def copyUser (p : Pieces) (esize : Word) (c c' : UserCopy β) : Word × Word :=
  let ret :=
    if c.left p.first ≠ 0 then divRoundUp (c.left p.first + p.rest) esize
    else if c'.left p.rest ≠ 0 then divRoundUp (c'.left p.rest) esize
    else 0
  (ret, p.first + p.rest - ret)

def copied (p : Pieces) (c c' : UserCopy β) : Nat :=
  if c.left p.first = 0 then p.first.toNat + (p.rest.toNat - (c'.left p.rest).toNat)
  else p.first.toNat - (c.left p.first).toNat

end Pieces

namespace Fifo

def copyFromUser (f : Fifo β) (c c' : UserCopy β) (src : Nat → β) (p : Pieces) : Fifo β :=
  let data := c.write f.data p.off.toNat src 0 p.first
  { f with data := if c.left p.first ≠ 0 then data else c'.write data 0 src p.first.toNat p.rest }

def requested (f : Fifo β) (len : Word) : Word := if f.esize ≠ 1 then len / f.esize else len

def settle (len ret : Word) : Int × Word := if ret ≠ 0 then (-EFAULT, len - ret) else (0, len)

def kfifoFromUser (f : Fifo β) (c c' : UserCopy β) (src : Nat → β) (len : Word) :
    Int × Word × Fifo β :=
  let len := f.acceptable (f.requested len)
  let p := f.pieces len f.inp
  let (ret, copied) := p.copyUser f.esize c c'
  let (err, len) := settle len ret
  (err, copied, { f.copyFromUser c c' src p with inp := f.inp + len })

def kfifoToUser (f : Fifo β) (c c' : UserCopy β) (len : Word) : Int × Word × Fifo β :=
  let len := f.available (f.requested len)
  let (ret, copied) := (f.pieces len f.out).copyUser f.esize c c'
  let (err, len) := settle len ret
  (err, copied, { f with out := f.out + len })

end Fifo

/-- A call for `len` elements of which `bytes` bytes are copied reports what happened: it moves the
fifo by the elements that are complete, says how many bytes they have, and fails if one is
missing. -/
def Reports (esize len : Word) (bytes : Nat) (err : Int) (copied moved : Word) : Prop :=
  let e := bytes / esize.toNat
  err = (if e = len.toNat then 0 else -EFAULT) ∧ copied = BitVec.ofNat 32 (e * esize.toNat) ∧
    moved = BitVec.ofNat 32 e

section

variable {p : Pieces} {c c' : UserCopy β} {esize len : Word}
  (hsum : p.first.toNat + p.rest.toNat = len.toNat * esize.toNat)
  (hsmall : len.toNat * esize.toNat < 2 ^ 32)

include hsum hsmall

/-- If something is missing, the missing elements would have to be as many as their bytes. -/
lemma esize_eq_one {bytes : Nat} {ret : Word} (hlt : bytes < len.toNat * esize.toNat)
    (hrep : Reports esize len bytes (Fifo.settle len ret).1 (p.first + p.rest - ret)
      (Fifo.settle len ret).2) : esize = 1 := by
  obtain ⟨herr, hcopied, hmoved⟩ := hrep
  have hlt : bytes / esize.toNat < len.toNat := Nat.div_lt_of_lt_mul (by rwa [Nat.mul_comm])
  generalize bytes / esize.toNat = e at hmoved hcopied herr hlt
  have hne : ret ≠ 0 := by
    rintro rfl
    rw [if_neg (by omega)] at herr
    cases herr
  rw [Fifo.settle, if_pos hne] at hmoved
  have hret : ret.toNat = len.toNat - e := by bv_omega
  obtain ⟨d, hd⟩ := Nat.exists_eq_add_of_le (Nat.le_of_lt hlt)
  rw [hd, Nat.add_mul] at hsum hsmall
  have hbytes : d * esize.toNat = d * 1 := by bv_omega
  exact eq_of_toNat_eq (Nat.eq_of_mul_eq_mul_left (by omega : 0 < d) hbytes)

lemma reports_of_ret {bytes : Nat} {ret : Word} (hret : ret.toNat + bytes / esize.toNat = len.toNat)
    (hone : ret = 0 ∨ esize = 1) :
    Reports esize len bytes (Fifo.settle len ret).1 (p.first + p.rest - ret)
      (Fifo.settle len ret).2 := by
  unfold Reports Fifo.settle
  generalize bytes / esize.toNat = e at hret
  rcases hone with rfl | rfl
  · obtain rfl : e = len.toNat := by simpa using hret
    refine ⟨(if_pos rfl).symm, by bv_omega, eq_of_toNat_eq (by simp)⟩
  · have hone : (1 : Word).toNat = 1 := rfl
    simp only [hone, Nat.mul_one] at hsum ⊢
    split_ifs <;> refine ⟨?_, ?_, ?_⟩ <;> bv_omega

lemma reports_iff (hpos : 0 < esize.toNat) :
    Reports esize len (p.copied c c') (Fifo.settle len (p.copyUser esize c c').1).1
        (p.copyUser esize c c').2 (Fifo.settle len (p.copyUser esize c c').1).2 ↔
      esize = 1 ∨ p.copied c c' = len.toNat * esize.toNat := by
  have hfirst := c.left_le p.first
  have hrest := c'.left_le p.rest
  constructor
  · intro hrep
    by_cases hlt : p.copied c c' < len.toNat * esize.toNat
    · exact .inl (esize_eq_one hsum hsmall hlt hrep)
    · right
      unfold Pieces.copied at hlt ⊢
      split_ifs at hlt ⊢ <;> bv_omega
  · rintro (rfl | hall)
    · have hdiv : ∀ n : Word, divRoundUp n 1 = n := fun n => by
        rw [divRoundUp, BitVec.add_sub_cancel]
        exact udiv_one
      have hone : (1 : Word).toNat = 1 := rfl
      refine reports_of_ret hsum hsmall ?_ (.inr rfl)
      simp only [hone, Nat.mul_one] at hsum
      simp only [Pieces.copyUser, Pieces.copied, hdiv, hone, Nat.div_one]
      split_ifs <;> bv_omega
    · have hret : (p.copyUser esize c c').1 = 0 := by
        unfold Pieces.copied at hall
        unfold Pieces.copyUser
        split_ifs at hall ⊢
        all_goals bv_omega
      refine reports_of_ret hsum hsmall ?_ (.inl hret)
      rw [hret, hall, Nat.mul_div_cancel _ hpos]
      exact Nat.zero_add _

end

lemma Sized.toNat_pieces {f : Fifo β} {k : Nat} {len : Word} (h : Sized f k)
    (hlen : len.toNat ≤ 2 ^ k) (off : Word) :
    (f.pieces len off).first.toNat + (f.pieces len off).rest.toNat = len.toNat * f.esize.toNat ∧
      len.toNat * f.esize.toNat < 2 ^ 32 := by
  obtain ⟨-, hfirst, hrest⟩ := h.pieces_eq off.toNat hlen
  rw [ofNat_toNat, setWidth_eq] at hfirst hrest
  have hle : len.toNat * f.esize.toNat ≤ 2 ^ k * f.esize.toNat := Nat.mul_le_mul_right _ hlen
  have hbytes := h.bytes
  omega

/-- A call reports what happened if and only if the elements are bytes or nothing is missing. -/
theorem userCopies_report_iff (f : Fifo β) (k : Nat) (h : Sized f k)
    (hused : (f.inp - f.out).toNat ≤ 2 ^ k) (hpos : 0 < f.esize.toNat) (c c' : UserCopy β)
    (src : Nat → β) (len : Word) :
    (let n := f.acceptable (f.requested len)
      let bytes := (f.pieces n f.inp).copied c c'
      let r := f.kfifoFromUser c c' src len
      Reports f.esize n bytes r.1 r.2.1 (r.2.2.inp - f.inp) ↔
        f.esize = 1 ∨ bytes = n.toNat * f.esize.toNat) ∧
    let n := f.available (f.requested len)
    let bytes := (f.pieces n f.out).copied c c'
    let r := f.kfifoToUser c c' len
    Reports f.esize n bytes r.1 r.2.1 (r.2.2.out - f.out) ↔
      f.esize = 1 ∨ bytes = n.toNat * f.esize.toNat := by
  have hsize := h.toNat_size
  have hadd : ∀ a b : Word, a + b - a = b := fun a b => by rw [BitVec.add_comm, add_sub_cancel]
  have hin : (f.acceptable (f.requested len)).toNat ≤ 2 ^ k := by
    unfold Fifo.acceptable Fifo.unused
    split_ifs <;> bv_omega
  have hout : (f.available (f.requested len)).toNat ≤ 2 ^ k := by
    unfold Fifo.available
    split_ifs <;> bv_omega
  obtain ⟨hsum, hsmall⟩ := h.toNat_pieces hin f.inp
  obtain ⟨hsum', hsmall'⟩ := h.toNat_pieces hout f.out
  simp only [Fifo.kfifoFromUser, Fifo.kfifoToUser, hadd]
  exact ⟨reports_iff hsum hsmall hpos, reports_iff hsum' hsmall' hpos⟩

/-- The last `m` bytes of a copy are missing. -/
def missing (m : Word) : UserCopy Nat where
  left n := if n < m then n else m
  fill _ := 0
  left_le n := by split_ifs <;> bv_omega

def quads : Fifo Nat := ⟨0, 0, 3, 4, fun _ => 0⟩

lemma sized_quads : Sized quads 2 := ⟨by decide, by decide, by decide⟩

theorem quads_report :
    let r := quads.kfifoFromUser (missing 0) (missing 0) id 8
    Reports 4 2 8 r.1 r.2.1 (r.2.2.inp - 0) :=
  (userCopies_report_iff quads 2 sized_quads (by decide) (by decide) (missing 0) (missing 0) id
    8).1.mpr (.inr (by decide))

/-- Of two elements of four bytes the last two bytes are missing: seven bytes are reported for the
one element that is put in. -/
theorem quads_fault :
    let r := quads.kfifoFromUser (missing 2) (missing 0) id 8
    (quads.pieces 2 0).copied (missing 2) (missing 0) = 6 ∧ r.2.1 = 7 ∧ r.2.2.inp = 1 ∧
      ¬ Reports 4 2 6 r.1 r.2.1 (r.2.2.inp - 0) := by
  refine ⟨by decide, by decide, by decide, fun h => ?_⟩
  exact absurd h.2.1 (by decide)

end Mini2440.Kfifo
