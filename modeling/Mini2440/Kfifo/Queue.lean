import Mathlib.Data.List.Induction
import Mini2440.Kfifo.Fifo

/-!
# A fifo is a queue

With a buffer of less than `2 ^ 32` bytes no calculation of the copies wraps around. The buffer is
then a window of the stream of all bytes that were ever accepted: a byte of the stream lies at its
position modulo the number of bytes of the buffer, from the byte that is the next to be taken out
on. The two counters are the ends of the window modulo `2 ^ 32`.
-/

namespace Mini2440.Kfifo

open List BitVec Library

variable {β : Type*}

def elements (esize n : Nat) (buf : Nat → β) : List (List β) :=
  (range n).map fun k => (range esize).map fun j => buf (k * esize + j)

@[simp] lemma length_elements (esize n : Nat) (buf : Nat → β) :
    (elements esize n buf).length = n := by
  simp [elements]

lemma elements_congr {esize n : Nat} {buf buf' : Nat → β}
    (h : ∀ t < n * esize, buf t = buf' t) : elements esize n buf = elements esize n buf' := by
  refine map_congr_left fun k hk => map_congr_left fun j hj => h _ ?_
  rw [mem_range] at hk hj
  calc k * esize + j < k * esize + esize := by omega
    _ = (k + 1) * esize := by rw [Nat.add_one_mul]
    _ ≤ n * esize := Nat.mul_le_mul_right _ hk

lemma elements_add (esize m n : Nat) (buf : Nat → β) :
    elements esize (m + n) buf =
      elements esize m buf ++ elements esize n fun t => buf (m * esize + t) := by
  simp only [elements, range_add, map_append, map_map]
  congr 1
  refine map_congr_left fun k _ => map_congr_left fun j _ => ?_
  rw [Nat.add_mul, Nat.add_assoc]

def accepted (esize : Nat) : List (Call β) → List (List β)
  | [] => []
  | ⟨.put buf _, ret, _⟩ :: calls => elements esize ret.toNat buf ++ accepted esize calls
  | _ :: calls => accepted esize calls

def returned (esize : Nat) : List (Call β) → List (List β)
  | [] => []
  | ⟨.get _ _, ret, buf⟩ :: calls => elements esize ret.toNat buf ++ returned esize calls
  | _ :: calls => returned esize calls

/-- A fifo of `2 ^ k` elements whose buffer has less than `2 ^ 32` bytes. -/
structure Sized (f : Fifo β) (k : Nat) : Prop where
  lt : k < 32
  mask : f.mask.toNat = 2 ^ k - 1
  bytes : 2 ^ k * f.esize.toNat < 2 ^ 32

/-- The buffer holds the part of the stream from element `o` to element `i`. -/
structure Holds (f : Fifo β) (k : Nat) (stream : Nat → β) (i o : Nat) : Prop where
  sized : Sized f k
  inp : f.inp = BitVec.ofNat 32 i
  out : f.out = BitVec.ofNat 32 o
  le : o ≤ i
  room : i ≤ o + 2 ^ k
  data : ∀ t, o * f.esize.toNat ≤ t → t < i * f.esize.toNat →
    f.data (t % (2 ^ k * f.esize.toNat)) = stream t

variable {f : Fifo β} {k i o : Nat} {stream : Nat → β} {len off : Word}

/-- The pieces of a copy, with the multiplications in any case. -/
def Fifo.scaled (f : Fifo β) (len off : Word) : Pieces :=
  let gap := (f.mask + 1) * f.esize - (off &&& f.mask) * f.esize
  let l := if len * f.esize ≤ gap then len * f.esize else gap
  ⟨(off &&& f.mask) * f.esize, l, len * f.esize - l⟩

lemma Fifo.pieces_eq_scaled (f : Fifo β) : f.pieces len off = f.scaled len off := by
  rw [Fifo.pieces, Fifo.scaled]
  by_cases h : f.esize = 1
  · simp [h]
  · rw [if_pos h]

lemma Fifo.toNat_size (hlt : k < 32) (hmask : f.mask.toNat = 2 ^ k - 1) :
    (f.mask + 1).toNat = 2 ^ k := by
  have hpos := Nat.two_pow_pos k
  have hpow : 2 ^ k < 2 ^ 32 := Nat.pow_lt_pow_right (by decide) hlt
  have hone : (1 : Word).toNat = 1 := rfl
  rw [toNat_add]
  omega

lemma Fifo.toNat_and (hlt : k < 32) (hmask : f.mask.toNat = 2 ^ k - 1) (n : Nat) :
    (BitVec.ofNat 32 n &&& f.mask).toNat = n % 2 ^ k := by
  have hdvd : 2 ^ k ∣ 2 ^ 32 := Nat.pow_dvd_pow 2 (by omega)
  rw [BitVec.toNat_and, hmask, BitVec.toNat_ofNat, Nat.and_two_pow_sub_one_eq_mod,
    Nat.mod_mod_of_dvd _ hdvd]

namespace Sized

lemma toNat_size (h : Sized f k) : (f.mask + 1).toNat = 2 ^ k := Fifo.toNat_size h.lt h.mask

/-- The pieces of a copy of at most as many elements as there is room for, in numbers. -/
lemma pieces_eq (h : Sized f k) (n : Nat) (hlen : len.toNat ≤ 2 ^ k) :
    let size := 2 ^ k * f.esize.toNat
    let off := n * f.esize.toNat % size
    let bytes := len.toNat * f.esize.toNat
    let p := f.pieces len (BitVec.ofNat 32 n)
    p.off.toNat = off ∧ p.first.toNat = min bytes (size - off) ∧
      p.rest.toNat = bytes - min bytes (size - off) := by
  intro size off bytes p
  have hbytes : size < 2 ^ 32 := h.bytes
  -- an element size of one makes no difference
  have hmul : p = f.scaled len (BitVec.ofNat 32 n) := f.pieces_eq_scaled
  have hmod : n % 2 ^ k * f.esize.toNat = off := (Nat.mul_mod_mul_right _ _ _).symm
  have hoff_le : off ≤ size := by
    rw [← hmod]
    exact Nat.mul_le_mul_right _ (Nat.le_of_lt (by omega))
  have hbytes_le : bytes ≤ size := Nat.mul_le_mul_right _ hlen
  have hoff : ((BitVec.ofNat 32 n &&& f.mask) * f.esize).toNat = off := by
    rw [BitVec.toNat_mul, Fifo.toNat_and h.lt h.mask, hmod, Nat.mod_eq_of_lt (by omega)]
  have hsize : ((f.mask + 1) * f.esize).toNat = size := by
    rw [toNat_mul, h.toNat_size, Nat.mod_eq_of_lt hbytes]
  have hcount : (len * f.esize).toNat = bytes := by bv_omega
  have hgap : ((f.mask + 1) * f.esize - (BitVec.ofNat 32 n &&& f.mask) * f.esize).toNat =
      size - off := by bv_omega
  have hfirst : p.first.toNat = min bytes (size - off) := by
    rw [hmul]
    simp only [Fifo.scaled]
    split_ifs with hle <;> rw [le_def, hcount, hgap] at hle
    · rw [hcount, Nat.min_eq_left hle]
    · rw [hgap, Nat.min_eq_right (by omega)]
  refine ⟨by rw [hmul]; exact hoff, hfirst, ?_⟩
  have hrest : p.rest = len * f.esize - p.first := by rw [hmul]; rfl
  have hle : p.first ≤ len * f.esize := by bv_omega
  rw [hrest, toNat_sub_of_le hle, hcount, hfirst]

end Sized

/-! ## The calls on the stream -/

namespace Holds

variable (h : Holds f k stream i o)

include h

lemma toNat_used : (f.inp - f.out).toNat = i - o := by
  have hle := h.le
  have hroom := h.room
  have hlt : 2 ^ k < 2 ^ 32 := Nat.pow_lt_pow_right (by decide) h.sized.lt
  rw [h.inp, h.out, toNat_sub, toNat_ofNat, toNat_ofNat]
  omega

lemma toNat_unused : f.unused.toNat = 2 ^ k - (i - o) := by
  have hroom := h.room
  have horder := h.le
  have hle : f.inp - f.out ≤ f.mask + 1 := by
    rw [le_def, h.toNat_used, h.sized.toNat_size]
    omega
  rw [Fifo.unused, toNat_sub_of_le hle, h.sized.toNat_size, h.toNat_used]

lemma toNat_acceptable (len : Word) :
    (f.acceptable len).toNat = min len.toNat (2 ^ k - (i - o)) := by
  rw [Fifo.acceptable]
  split_ifs with hgt
  · rw [gt_iff_lt, lt_def, h.toNat_unused] at hgt
    rw [h.toNat_unused]
    omega
  · rw [gt_iff_lt, lt_def, h.toNat_unused] at hgt
    omega

lemma toNat_available (len : Word) : (f.available len).toNat = min len.toNat (i - o) := by
  rw [Fifo.available]
  split_ifs with hgt
  · rw [gt_iff_lt, lt_def, h.toNat_used] at hgt
    rw [h.toNat_used]
    omega
  · rw [gt_iff_lt, lt_def, h.toNat_used] at hgt
    omega

def extend (stream : Nat → β) (n : Nat) (buf : Nat → β) : Nat → β :=
  fun t => if t < n then stream t else buf (t - n)

lemma put (buf : Nat → β) (len : Word) :
    Holds (f.kfifoIn buf len).2 k (extend stream (i * f.esize.toNat) buf)
      (i + (f.acceptable len).toNat) o := by
  have hle := h.le
  have hroom := h.room
  have hn := h.toNat_acceptable len
  let e := f.esize.toNat
  let n := (f.acceptable len).toNat
  refine ⟨⟨h.sized.lt, h.sized.mask, h.sized.bytes⟩, ?_, h.out, by omega, by omega, ?_⟩
  · have hinp : (f.kfifoIn buf len).2.inp = f.inp + f.acceptable len := rfl
    rw [hinp, h.inp]
    apply eq_of_toNat_eq
    simp
  · intro t hlo hhi
    change t < (i + n) * e at hhi
    change o * e ≤ t at hlo
    have hdata : (f.kfifoIn buf len).2.data = cyclicIn (2 ^ k * e) f.data
        (i * e % (2 ^ k * e)) buf (n * e) := by
      obtain ⟨hoff, hfirst, hrest⟩ := h.sized.pieces_eq i (by omega : n ≤ 2 ^ k)
      rw [← h.inp] at hoff hfirst hrest
      simp [Fifo.kfifoIn, Fifo.copyIn, hoff, hfirst, hrest, cyclicIn, n, e]
    have hne : n * e ≤ 2 ^ k * e := Nat.mul_le_mul_right _ (by omega)
    rw [hdata]
    change cyclicIn (2 ^ k * e) f.data (i * e % (2 ^ k * e)) buf (n * e) (t % (2 ^ k * e)) =
      if t < i * e then stream t else buf (t - i * e)
    rw [Nat.add_mul] at hhi
    by_cases hold : t < i * e
    · -- the window is at most one round long
      have hwindow : i * e + n * e ≤ o * e + 2 ^ k * e := by
        rw [← Nat.add_mul, ← Nat.add_mul]
        exact Nat.mul_le_mul_right _ (by omega)
      rw [if_pos hold, cyclicIn_before hold (by omega), h.data t hlo hold]
    · rw [if_neg hold]
      have hinside : cyclicIn (2 ^ k * e) f.data (i * e % (2 ^ k * e)) buf (n * e)
          ((i * e + (t - i * e)) % (2 ^ k * e)) = buf (t - i * e) :=
        cyclicIn_inside hne (by omega)
      rwa [Nat.add_sub_cancel' (by omega)] at hinside

lemma peek (buf : Nat → β) (len : Word) :
    elements f.esize.toNat (f.available len).toNat (f.kfifoOutPeek buf len).2 =
      elements f.esize.toNat (f.available len).toNat fun t => stream (o * f.esize.toNat + t) := by
  have hle := h.le
  have hroom := h.room
  have hn := h.toNat_available len
  let e := f.esize.toNat
  let n := (f.available len).toNat
  refine elements_congr fun t ht => ?_
  change t < n * e at ht
  have hcopy : (f.kfifoOutPeek buf len).2 = cyclicOut (2 ^ k * e) buf f.data
      (o * e % (2 ^ k * e)) (n * e) := by
    obtain ⟨hoff, hfirst, hrest⟩ := h.sized.pieces_eq o (by omega : n ≤ 2 ^ k)
    rw [← h.out] at hoff hfirst hrest
    simp [Fifo.kfifoOutPeek, Fifo.copyOut, hoff, hfirst, hrest, cyclicOut, n, e]
  have hne : n * e ≤ 2 ^ k * e := Nat.mul_le_mul_right _ (by omega)
  have hend : o * e + n * e ≤ i * e := by
    rw [← Nat.add_mul]
    exact Nat.mul_le_mul_right _ (by omega)
  rw [hcopy, cyclicOut_inside hne ht]
  exact h.data (o * e + t) (Nat.le_add_right _ _) (show o * e + t < i * e by omega)

lemma get (buf : Nat → β) (len : Word) :
    Holds (f.kfifoOut buf len).2.2 k stream i (o + (f.available len).toNat) := by
  have hle := h.le
  have hroom := h.room
  have hn := h.toNat_available len
  refine ⟨⟨h.sized.lt, h.sized.mask, h.sized.bytes⟩, h.inp, ?_, by omega, by omega, ?_⟩
  · have hout : (f.kfifoOut buf len).2.2.out = f.out + f.available len := rfl
    rw [hout, h.out]
    apply eq_of_toNat_eq
    simp
  · intro t hlo hhi
    have hmono : o * f.esize.toNat ≤ (o + (f.available len).toNat) * f.esize.toNat :=
      Nat.mul_le_mul_right _ (by omega)
    exact h.data t (Nat.le_trans hmono hlo) hhi

end Holds

/-! ## Runs -/

lemma accepted_append (esize : Nat) (calls calls' : List (Call β)) :
    accepted esize (calls ++ calls') = accepted esize calls ++ accepted esize calls' := by
  induction calls with
  | nil => rfl
  | cons c calls ih =>
    obtain ⟨op, ret, buf⟩ := c
    cases op <;> simp [accepted, ih]

lemma returned_append (esize : Nat) (calls calls' : List (Call β)) :
    returned esize (calls ++ calls') = returned esize calls ++ returned esize calls' := by
  induction calls with
  | nil => rfl
  | cons c calls ih =>
    obtain ⟨op, ret, buf⟩ := c
    cases op <;> simp [returned, ih]

/-- The fifo after some calls: what they accepted is the stream up to `i` and what they returned is
the stream up to `o`. -/
structure Reached (f : Fifo β) (k : Nat) (calls : List (Call β)) (stream : Nat → β)
    (i o : Nat) : Prop where
  holds : Holds f k stream i o
  accepted : accepted f.esize.toNat calls = elements f.esize.toNat i stream
  returned : returned f.esize.toNat calls = elements f.esize.toNat o stream

variable {calls : List (Call β)}

lemma Reached.step (h : Reached f k calls stream i o) (op : Op β) :
    ∃ stream' i' o', Reached (f.step op) k (calls ++ [f.call op]) stream' i' o' := by
  cases op with
  | put buf len =>
    refine ⟨_, _, o, h.holds.put buf len, ?_, ?_⟩
    · change Kfifo.accepted f.esize.toNat (calls ++ [f.call (.put buf len)]) =
        elements f.esize.toNat (i + (f.acceptable len).toNat)
          (Holds.extend stream (i * f.esize.toNat) buf)
      rw [accepted_append, h.accepted, elements_add]
      congr 1
      · exact elements_congr fun t ht => (if_pos ht).symm
      · change elements f.esize.toNat (f.acceptable len).toNat buf ++ [] = _
        rw [append_nil]
        refine elements_congr fun t ht => ?_
        rw [Holds.extend, if_neg (by omega), Nat.add_sub_cancel_left]
    · change Kfifo.returned f.esize.toNat (calls ++ [f.call (.put buf len)]) =
        elements f.esize.toNat o (Holds.extend stream (i * f.esize.toNat) buf)
      rw [returned_append, h.returned]
      change elements f.esize.toNat o stream ++ [] = _
      rw [append_nil]
      refine elements_congr fun t ht => ?_
      have hmono := Nat.mul_le_mul_right f.esize.toNat h.holds.le
      rw [Holds.extend, if_pos (by omega)]
  | get buf len =>
    refine ⟨stream, i, _, h.holds.get buf len, ?_, ?_⟩
    · change Kfifo.accepted f.esize.toNat (calls ++ [f.call (.get buf len)]) = _
      rw [accepted_append, h.accepted]
      exact append_nil _
    · change Kfifo.returned f.esize.toNat (calls ++ [f.call (.get buf len)]) =
        elements f.esize.toNat (o + (f.available len).toNat) stream
      rw [returned_append, h.returned, elements_add]
      congr 1
      change elements f.esize.toNat (f.available len).toNat (f.kfifoOutPeek buf len).2 ++ [] = _
      rw [append_nil, h.holds.peek buf len]
  | peek buf len =>
    refine ⟨stream, i, o, h.holds, ?_, ?_⟩
    · rw [accepted_append, Fifo.step, h.accepted]
      exact append_nil _
    · rw [returned_append, Fifo.step, h.returned]
      exact append_nil _

/-- Every run keeps the buffer a window of the stream. -/
lemma Reached.run (h : Reached f k [] stream i o) (ops : List (Op β)) :
    ∃ stream' i' o', Reached (runFrom Fifo.step f ops) k (f.trace ops) stream' i' o' := by
  induction ops using List.reverseRecOn with
  | nil => exact ⟨stream, i, o, h⟩
  | append_singleton ops op ih =>
    obtain ⟨stream', i', o', h'⟩ := ih
    rw [Fifo.trace_append, runFrom_append]
    exact h'.step op

lemma Sized.touched_lt (h : Sized f k) {n : Nat} (hlen : len.toNat ≤ 2 ^ k) :
    let p := f.pieces len (BitVec.ofNat 32 n)
    p.off.toNat + p.first.toNat ≤ 2 ^ k * f.esize.toNat ∧
      p.rest.toNat ≤ 2 ^ k * f.esize.toNat := by
  obtain ⟨hoff, hfirst, hrest⟩ := h.pieces_eq n hlen
  have hbytes : len.toNat * f.esize.toNat ≤ 2 ^ k * f.esize.toNat := Nat.mul_le_mul_right _ hlen
  have hle : n * f.esize.toNat % (2 ^ k * f.esize.toNat) ≤ 2 ^ k * f.esize.toNat := by
    rw [Nat.mul_mod_mul_right]
    exact Nat.mul_le_mul_right _ (Nat.le_of_lt (by omega))
  omega

lemma Holds.inside (h : Holds f k stream i o) (op : Op β) :
    ∀ part ∈ f.touched op, ∀ j < part.2, part.1 + j < 2 ^ k * f.esize.toNat := by
  have hparts : ∀ (len : Word) (n : Nat), len.toNat ≤ 2 ^ k →
      let p := f.pieces len (BitVec.ofNat 32 n)
      ∀ part ∈ [(p.off.toNat, p.first.toNat), (0, p.rest.toNat)], ∀ j < part.2,
        part.1 + j < 2 ^ k * f.esize.toNat := by
    intro len n hlen p part hpart j hj
    obtain ⟨hfirst, hrest⟩ := h.sized.touched_lt (n := n) hlen
    simp only [List.mem_cons, List.not_mem_nil, or_false] at hpart
    rcases hpart with rfl | rfl
    · exact Nat.lt_of_lt_of_le (Nat.add_lt_add_left hj _) hfirst
    · exact Nat.lt_of_lt_of_le (by simpa using hj) hrest
  have hroom := h.room
  have hle := h.le
  cases op with
  | put buf len =>
    have hn := h.toNat_acceptable len
    have := hparts (f.acceptable len) i (by omega)
    rwa [← h.inp] at this
  | get buf len | peek buf len =>
    have hn := h.toNat_available len
    have := hparts (f.available len) o (by omega)
    rwa [← h.out] at this

lemma esize_step (f : Fifo β) (op : Op β) : (f.step op).esize = f.esize := by
  cases op <;> rfl

lemma esize_run (f : Fifo β) (ops : List (Op β)) : (runFrom Fifo.step f ops).esize = f.esize :=
  runFrom_invariant (P := fun f' => f'.esize = f.esize)
    (fun f' op h => (esize_step f' op).trans h) rfl ops

lemma Reached.inside (h : Reached f k calls stream i o) (ops : List (Op β)) :
    f.Inside (2 ^ k * f.esize.toNat) ops := by
  induction ops generalizing f calls stream i o with
  | nil => exact trivial
  | cons op ops ih =>
    obtain ⟨stream', i', o', h'⟩ := h.step op
    have hrest := ih h'
    rw [esize_step] at hrest
    exact ⟨h.holds.inside op, hrest⟩

lemma reached_empty {size esize : Word} (data : Nat → β) (h : ¬roundupPowOfTwo size < 2)
    (hbytes : (roundupPowOfTwo size).toNat * esize.toNat < 2 ^ 32) :
    ∃ k, (roundupPowOfTwo size).toNat = 2 ^ k ∧ size.toNat ≤ 2 ^ k ∧
      Reached ⟨0, 0, roundupPowOfTwo size - 1, esize, data⟩ k [] data 0 0 := by
  obtain ⟨k, hlt, hpow, -, hle, -⟩ := roundupPowOfTwo_spec h
  refine ⟨k, hpow, hle, ⟨⟨hlt, ?_, hpow ▸ hbytes⟩, rfl, rfl, Nat.le_refl 0, Nat.zero_le _, ?_⟩,
    rfl, rfl⟩
  · have hpos := Nat.two_pow_pos k
    have hone : (1 : Word).toNat = 1 := rfl
    rw [toNat_sub_of_le (by rw [le_def, hpow]; exact hpos), hpow, hone]
  · intro t _ ht
    rw [Nat.zero_mul] at ht
    bv_omega

def Op.moves : Op β → Bool
  | .peek _ _ => false
  | _ => true

lemma trace_filter (f : Fifo β) (ops : List (Op β)) :
    f.trace (ops.filter Op.moves) = (f.trace ops).filter fun c => c.op.moves := by
  induction ops generalizing f with
  | nil => rfl
  | cons op ops ih =>
    cases op with
    | put buf len | get buf len =>
      simp only [filter_cons, Op.moves, if_true, Fifo.trace, Fifo.call, ih]
    | peek buf len => exact ih f

/-- What is asked of a queue of `capacity` elements that has made some calls: the elements that
were returned are the first ones of those that were accepted, there are at most `capacity` elements
between the two, and the next call transfers as many elements as it can. -/
structure Queues (esize capacity : Nat) (f : Fifo β) (calls : List (Call β)) : Prop where
  order : returned esize calls <+: accepted esize calls
  bound : (accepted esize calls).length ≤ (returned esize calls).length + capacity
  put : ∀ buf len, (f.call (.put buf len)).ret.toNat =
    min len.toNat (capacity - ((accepted esize calls).length - (returned esize calls).length))
  get : ∀ buf len, (f.call (.get buf len)).ret.toNat =
    min len.toNat ((accepted esize calls).length - (returned esize calls).length)
  peek : ∀ buf len, (f.call (.peek buf len)).ret = (f.call (.get buf len)).ret ∧
    (f.call (.peek buf len)).buf = (f.call (.get buf len)).buf

lemma Reached.queues (h : Reached f k calls stream i o) : Queues f.esize.toNat (2 ^ k) f calls := by
  have haccepted : (Kfifo.accepted f.esize.toNat calls).length = i := by
    rw [h.accepted, length_elements]
  have hreturned : (Kfifo.returned f.esize.toNat calls).length = o := by
    rw [h.returned, length_elements]
  have hle := h.holds.le
  refine ⟨?_, ?_, fun buf len => ?_, fun buf len => ?_, fun buf len => ⟨rfl, rfl⟩⟩
  · rw [h.accepted, h.returned, ← Nat.add_sub_cancel' hle, elements_add]
    exact prefix_append _ _
  · rw [haccepted, hreturned]
    exact h.holds.room
  · rw [haccepted, hreturned]
    exact h.holds.toNat_acceptable len
  · rw [haccepted, hreturned]
    exact h.holds.toNat_available len

/-- A fifo whose buffer has less than `2 ^ 32` bytes is a bounded queue in all runs, however often
its counters wrap around. Its calls keep to the memory that was allocated, and the results of
the other calls do not depend on the peeks. -/
theorem kfifo_queues (kmalloc : Word → Option (Nat → β)) (size esize : Word) (f : Fifo β)
    (h : kfifoAlloc kmalloc size esize = .ok f)
    (hbytes : (roundupPowOfTwo size).toNat * esize.toNat < 2 ^ 32) (ops : List (Op β)) :
    ∃ k, (roundupPowOfTwo size).toNat = 2 ^ k ∧ size.toNat ≤ 2 ^ k ∧
      Queues esize.toNat (2 ^ k) (runFrom Fifo.step f ops) (f.trace ops) ∧
      f.Inside (2 ^ k * esize.toNat) ops ∧
      f.trace (ops.filter Op.moves) = (f.trace ops).filter fun c => c.op.moves := by
  rw [kfifoAlloc] at h
  split at h
  · cases h
  · rename_i hsize
    split at h
    · cases h
    · rename_i data _
      obtain ⟨k, hpow, hle, hempty⟩ := reached_empty data hsize hbytes
      obtain rfl := Except.ok.inj h
      obtain ⟨stream, i, o, hreached⟩ := hempty.run ops
      have hesize := esize_run (⟨0, 0, roundupPowOfTwo size - 1, esize, data⟩ : Fifo β) ops
      refine ⟨k, hpow, hle, ?_, hempty.inside ops, trace_filter _ ops⟩
      have hqueues := hreached.queues
      rwa [hesize] at hqueues

/-- Four bytes go through a fifo of two elements of two bytes. -/
theorem pairs_queue :
    let f : Fifo Nat := ⟨0, 0, 1, 2, fun _ => 0⟩
    let calls := f.trace [.put (fun t => t) 3, .get (fun _ => 9) 1]
    kfifoAlloc (fun _ => some fun _ => 0) 2 2 = .ok f ∧
      returned 2 calls <+: accepted 2 calls ∧ returned 2 calls = [[0, 1]] := by
  refine ⟨rfl, ?_, by decide⟩
  obtain ⟨_, _, _, hqueues, _⟩ := kfifo_queues (fun _ => some fun _ => (0 : Nat)) 2 2
    ⟨0, 0, 1, 2, fun _ => 0⟩ rfl (by decide) [.put (fun t => t) 3, .get (fun _ => 9) 1]
  exact hqueues.order

lemma head_eq_of_elements {esize : Nat} {buf buf' : Nat → β} (h : 0 < esize)
    (hstart : elements esize 1 buf <+: elements esize 1 buf') : buf 0 = buf' 0 := by
  have heq := hstart.eq_of_length (by simp)
  simp only [elements, range_one, map_cons, map_nil, Nat.zero_mul, Nat.zero_add, cons.injEq,
    and_true, map_inj_left, mem_range] at heq
  exact heq 0 h

/-- `2 ^ 16` elements of `2 ^ 16 + 1` bytes take `2 ^ 32 + 2 ^ 16` bytes, which is `2 ^ 16` in a
word, less than one element. The last byte of the element that is put in goes over its first one. -/
theorem overflow_not_queue :
    let f : Fifo Bool := ⟨0, 0, 0xFFFF, 0x10001, fun _ => false⟩
    let ops : List (Op Bool) := [.put (fun t => t = 0x10000) 1, .get (fun _ => false) 1]
    kfifoAlloc (fun _ => some fun _ => false) 0x10000 0x10001 = .ok f ∧ f.Inside 0x10000 ops ∧
      ¬returned 0x10001 (f.trace ops) <+: accepted 0x10001 (f.trace ops) := by
  have hinside (part : Nat × Nat) (h : part ∈ [(0, 0x10000), (0, 1)]) :
      ∀ i < part.2, part.1 + i < 0x10000 := by
    simp only [mem_cons, not_mem_nil, or_false] at h
    rcases h with rfl | rfl <;> intro i hi <;> omega
  refine ⟨rfl, ⟨hinside, hinside, trivial⟩, fun hstart => ?_⟩
  simp only [Fifo.trace, Fifo.call, returned, accepted, append_nil] at hstart
  exact absurd (head_eq_of_elements (by decide) hstart) (by decide)

end Mini2440.Kfifo
