import Mini2440.Errno
import Mini2440.Library.Segments
import Mini2440.Library.Words

/-!
# Transfers by the processor

The fields of `struct s3cmci_host` for transfers without DMA, and one pass through the loops of
`do_pio_read` and `do_pio_write`. A pass starts with the number of bytes that `SDIFSTA` shows. It
either leaves the function or decides on a number of bytes to move.

A pointer into the scatter list is a segment with an offset.
-/

namespace Mini2440.Mmc

open Library

/-- The values of `pio_active`. -/
inductive Xfer where
  | none | read | write
  deriving DecidableEq, Repr

structure Ptr where
  seg : Nat
  off : Nat
  deriving DecidableEq, Repr

abbrev Memory := Nat → Nat → Byte

/-- The state of a transfer. `data` are the lengths of the segments of `mrq->data`, if there is
a request with data. -/
structure Pio where
  data : Option (List Nat)
  active : Xfer
  sgptr : Nat
  bytes : Nat
  count : Nat
  ptr : Ptr
  deriving DecidableEq, Repr

namespace Pio

/-- The first part of `s3cmci_prepare_pio`. -/
def prepare (data : Option (List Nat)) (active : Xfer) (ptr : Ptr) : Pio :=
  ⟨data, active, 0, 0, 0, ptr⟩

def getDataBuffer (p : Pio) : Except Int Pio :=
  if p.active = .none then .error (-EINVAL)
  else
    match p.data with
    | none => .error (-EINVAL)
    | some sg =>
      match sg[p.sgptr]? with
      | none => .error (-EBUSY)
      | some length =>
        .ok { p with bytes := length, ptr := ⟨p.sgptr, 0⟩, sgptr := p.sgptr + 1 }

/-- `if (!host->pio_bytes) res = get_data_buffer(...)`. -/
def nextBuffer (p : Pio) : Except Int Pio := if p.bytes = 0 then p.getDataBuffer else .ok p

/-- The bytes to move for a number of bytes that the FIFO has or has room for: all that is left
of the segment, or whole words. -/
def batch (p : Pio) (fifo : Nat) : Nat := if fifo ≥ p.bytes then p.bytes else fifo - fifo % 4

def take (p : Pio) (n : Nat) : Pio :=
  { p with bytes := p.bytes - n, count := (p.count + n) % 2 ^ 32 }

/-- A pass of `do_pio_read` that finds `fifo` bytes in the FIFO. An error is a return. -/
def readRound (p : Pio) (fifo : Nat) : Except Pio (Nat × Pio) :=
  match p.nextBuffer with
  | .error _ => .error { p with active := .none }
  | .ok p => if fifo = 0 then .error p else .ok (p.batch fifo, p.take (p.batch fifo))

def fifoFree (level : Nat) : Nat := (63 + 2 ^ 32 - level) % 2 ^ 32

/-- A pass of `do_pio_write` that finds `level` bytes in the FIFO. An error is a return. -/
def writeRound (p : Pio) (level : Nat) : Except Pio (Nat × Pio) :=
  let fifo := fifoFree level
  if fifo > 3 then
    match p.nextBuffer with
    | .error _ => .error { p with active := .none }
    | .ok p => .ok (p.batch fifo, p.take (p.batch fifo))
  else .error p

/-! ## Where a transfer is -/

open Segments

/-- The transfer has moved `pos` bytes and has decided on `pending` more, and the pointer is
where the next byte goes. -/
structure At (sg : List Nat) (pos pending : Nat) (p : Pio) : Prop where
  data : p.data = some sg
  sgptr : p.sgptr ≤ sg.length
  base : pos + pending + p.bytes = base sg p.sgptr
  ptr : pending + p.bytes ≠ 0 →
    p.ptr.seg + 1 = p.sgptr ∧ p.ptr.off % 4 = 0 ∧
      p.ptr.off + (pending + p.bytes) = len sg p.ptr.seg

variable {sg : List Nat} {pos pending n fifo : Nat} {p : Pio}

lemma at_prepare (active : Xfer) (ptr : Ptr) :
    (prepare (some sg) active ptr).At sg 0 0 :=
  ⟨rfl, Nat.zero_le _, rfl, fun h => absurd rfl h⟩

lemma At.le_sum (h : p.At sg pos pending) : pos + pending + p.bytes ≤ sg.sum :=
  h.base.trans_le (base_le_sum)

lemma At.base_ptr (h : p.At sg pos pending) (hne : pending + p.bytes ≠ 0) :
    Segments.base sg p.ptr.seg + p.ptr.off = pos := by
  obtain ⟨hseg, -, hlen⟩ := h.ptr hne
  have hbase := h.base
  rw [← hseg, base_succ] at hbase
  omega

lemma At.nextBuffer (h : p.At sg pos 0) (hactive : p.active ≠ .none) (hpos : ∀ n ∈ sg, 0 < n) :
    (∃ err, p.nextBuffer = .error err ∧ pos = sg.sum) ∨
      ∃ p', p.nextBuffer = .ok p' ∧ p'.At sg pos 0 ∧ p'.bytes ≠ 0 ∧ p'.active = p.active ∧
        p'.count = p.count := by
  have hbase := h.base
  by_cases hbytes : p.bytes = 0
  · rcases h.sgptr.lt_or_eq with hlt | heq
    · let p' : Pio := { p with bytes := sg[p.sgptr], ptr := ⟨p.sgptr, 0⟩, sgptr := p.sgptr + 1 }
      have hlen : sg[p.sgptr] = len sg p.sgptr := (List.getD_eq_getElem _ _ hlt).symm
      have hnext : p.nextBuffer = .ok p' := by
        simp [Pio.nextBuffer, hbytes, getDataBuffer, hactive, h.data, hlt, p']
      refine .inr ⟨p', hnext, ⟨h.data, hlt, ?_, fun _ => ⟨rfl, rfl, ?_⟩⟩, ?_, rfl, rfl⟩
      · simp only [p', base_succ]
        omega
      · simp only [p']
        omega
      · exact (hpos _ (List.getElem_mem hlt)).ne'
    · refine .inl
        ⟨-EBUSY, by simp [Pio.nextBuffer, hbytes, getDataBuffer, hactive, h.data, heq], ?_⟩
      rw [heq, base_length] at hbase
      omega
  · exact .inr ⟨p, by simp [Pio.nextBuffer, hbytes], h, hbytes, rfl, rfl⟩

lemma At.take (h : p.At sg pos 0) (hn : n ≤ p.bytes) : (p.take n).At sg pos n := by
  have hbase := h.base
  have hsum : n + (p.bytes - n) = 0 + p.bytes := by omega
  refine ⟨h.data, h.sgptr, ?_, ?_⟩
  · simp only [Pio.take]
    omega
  · simpa only [Pio.take, hsum] using h.ptr

lemma At.advance (h : p.At sg pos (4 + n)) :
    { p with ptr := ⟨p.ptr.seg, p.ptr.off + 4⟩ }.At sg (pos + 4) n := by
  obtain ⟨hseg, hoff, hlen⟩ := h.ptr (by omega)
  have hbase := h.base
  refine ⟨h.data, h.sgptr, ?_, fun _ => ⟨hseg, ?_, ?_⟩⟩
  · dsimp only
    omega
  · dsimp only
    omega
  · dsimp only
    omega

lemma At.mod_four (h : p.At sg pos pending) (hlen : 4 ∣ len sg p.ptr.seg) :
    (pending + p.bytes) % 4 = 0 := by
  by_cases hne : pending + p.bytes = 0
  · rw [hne]
  · obtain ⟨-, hoff, hptr⟩ := h.ptr hne
    omega

lemma At.words (h : p.At sg pos pending) (hwords : ∀ n ∈ sg.dropLast, 4 ∣ n)
    (hlast : p.sgptr ≠ sg.length) : (pending + p.bytes) % 4 = 0 := by
  by_cases hne : pending + p.bytes = 0
  · rw [hne]
  · obtain ⟨hseg, -, -⟩ := h.ptr hne
    have hsgptr := h.sgptr
    have hlt : p.ptr.seg < sg.dropLast.length := by
      rw [List.length_dropLast]
      omega
    have hmem := hwords _ (List.getElem_mem hlt)
    rw [List.getElem_dropLast, ← List.getD_eq_getElem _ 0] at hmem
    exact h.mod_four hmem

lemma batch_le_bytes : p.batch fifo ≤ p.bytes := by
  unfold batch
  split_ifs <;> omega

lemma batch_le_fifo : p.batch fifo ≤ fifo := by
  unfold batch
  split_ifs <;> omega

lemma batch_eq_bytes (h : p.batch fifo % 4 ≠ 0) : p.batch fifo = p.bytes := by
  unfold batch at h ⊢
  split_ifs at h ⊢ <;> omega

/-- What a pass decides for `fifo` bytes: only at the very end it is not whole words, and it is
nothing only if less than a word is there and more is to come. -/
structure Decided (sg : List Nat) (pos fifo : Nat) (p : Pio) (n : Nat) (p' : Pio) : Prop where
  at_pos : p'.At sg pos n
  le_fifo : n ≤ fifo
  tail : n % 4 ≠ 0 → p'.bytes = 0 ∧ p'.sgptr = sg.length
  progress : 3 < fifo ∨ sg.sum ≤ pos + fifo → n ≠ 0
  active : p'.active = p.active
  count : p'.count = (p.count + n) % 2 ^ 32

lemma At.decided (h : p.At sg pos 0) (hbytes : p.bytes ≠ 0) (hwords : ∀ n ∈ sg.dropLast, 4 ∣ n)
    (fifo : Nat) : Decided sg pos fifo p (p.batch fifo) (p.take (p.batch fifo)) := by
  refine ⟨h.take batch_le_bytes, batch_le_fifo, fun htail => ?_, fun hroom hzero => ?_, rfl, rfl⟩
  · have hall := batch_eq_bytes htail
    refine ⟨by simp [Pio.take, hall], ?_⟩
    by_contra hlast
    have hfour := h.words hwords hlast
    omega
  · have hle := h.le_sum
    unfold batch at hzero
    split_ifs at hzero <;> omega

/-- A pass of `do_pio_read` ends the transfer when all is read, leaves when the FIFO is empty,
and otherwise decides on some bytes. -/
lemma At.readRound (h : p.At sg pos 0) (hactive : p.active ≠ .none) (hpos : ∀ n ∈ sg, 0 < n)
    (hwords : ∀ n ∈ sg.dropLast, 4 ∣ n) (fifo : Nat) :
    (p.readRound fifo = .error { p with active := .none } ∧ pos = sg.sum) ∨
      (∃ p', p.readRound fifo = .error p' ∧ fifo = 0 ∧ p'.At sg pos 0 ∧ p'.bytes ≠ 0 ∧
        p'.active = p.active ∧ p'.count = p.count) ∨
      ∃ n p', p.readRound fifo = .ok (n, p') ∧ Decided sg pos fifo p n p' := by
  rcases h.nextBuffer hactive hpos with ⟨err, hnext, hall⟩ | ⟨p', hnext, hp', hbytes, hact, hcount⟩
  · exact .inl ⟨by simp [Pio.readRound, hnext], hall⟩
  · refine .inr ?_
    by_cases hfifo : fifo = 0
    · exact .inl ⟨p', by simp [Pio.readRound, hnext, hfifo], hfifo, hp', hbytes, hact, hcount⟩
    · have hdecided := hp'.decided hbytes hwords fifo
      exact .inr ⟨_, _, by simp [Pio.readRound, hnext, hfifo], { hdecided with
        active := hdecided.active.trans hact, count := by rw [hdecided.count, hcount] }⟩

lemma At.writeRound (h : p.At sg pos 0) (hactive : p.active ≠ .none) (hpos : ∀ n ∈ sg, 0 < n)
    (hwords : ∀ n ∈ sg.dropLast, 4 ∣ n) (level : Nat) :
    (p.writeRound level = .error { p with active := .none } ∧ pos = sg.sum) ∨
      (p.writeRound level = .error p ∧ fifoFree level ≤ 3) ∨
      ∃ n p', p.writeRound level = .ok (n, p') ∧ 3 < fifoFree level ∧
        Decided sg pos (fifoFree level) p n p' := by
  by_cases hroom : 3 < fifoFree level
  · rcases h.nextBuffer hactive hpos with
      ⟨err, hnext, hall⟩ | ⟨p', hnext, hp', hbytes, hact, hcount⟩
    · exact .inl ⟨by simp [Pio.writeRound, hnext, hroom], hall⟩
    · have hdecided := hp'.decided hbytes hwords (fifoFree level)
      exact .inr (.inr ⟨_, _, by simp [Pio.writeRound, hnext, hroom], hroom, { hdecided with
        active := hdecided.active.trans hact, count := by rw [hdecided.count, hcount] }⟩)
  · exact .inr (.inl ⟨by simp [Pio.writeRound, hroom], by omega⟩)

end Pio

end Mini2440.Mmc
