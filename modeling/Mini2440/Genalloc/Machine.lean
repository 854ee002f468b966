import Mini2440.Genalloc.Pool
import Mini2440.Library.Run

/-!
# Calls that run at the same time

`gen_pool_alloc` and `gen_pool_free` of `lib/genalloc.c`, called by any number of callers without a
lock. A step is what a caller does up to and including one access to the counters and the bitmaps:
an `atomic_read`, `atomic_sub` or `atomic_add`, the load or the `cmpxchg` of `set_bits_ll` and
`clear_bits_ll`, or a search in the bitmap. A search reads many words while others change them, so
it may return anything between its bounds.
-/

namespace Mini2440.Genalloc

open Function Library

/-- The `algo` of a pool: `gen_pool_first_fit`, the default, or `gen_pool_best_fit`. -/
inductive Algo where
  | firstFit
  | bestFit

/-- What does not change while the pool is in use. -/
structure Layout where
  order : Nat
  order_lt : order < 32
  chunks : List (Extent order)
  apart : chunks.Pairwise Extent.Apart
  algo : Algo

/-- Memory that a call has returned, with the size of the request. The chunk is the one that it was
taken from, which the code does not record. -/
structure Block where
  chunk : Nat
  addr : Word
  size : Word
  deriving DecidableEq

/-- A call of `gen_pool_alloc` at one of the chunks. -/
structure Call where
  size : Word
  chunk : Nat
  deriving DecidableEq

/-- Who has called `bitmap_find_next_zero_area`: `gen_pool_first_fit`, or `gen_pool_best_fit` with
its variables. -/
inductive Search where
  | first
  | best (startBit len : Word)
  deriving DecidableEq

/-- Who has called `bitmap_clear_ll`: `gen_pool_alloc` after a conflict, or `gen_pool_free`. -/
inductive Purpose where
  | retry (a : Call) (startBit : Word)
  | release (size : Word)
  deriving DecidableEq

inductive Pc where
  | idle
  /-- `atomic_read(&chunk->avail)` -/
  | checkAvail (a : Call) (startBit : Word)
  /-- `find_next_zero_bit(map, size, start)` -/
  | findZero (a : Call) (f : Search) (start : Word)
  /-- `find_next_bit(map, end, index)` -/
  | findBit (a : Call) (f : Search) (index : Word)
  /-- `find_next_bit(map, size, index + nr)` in `gen_pool_best_fit` -/
  | findEnd (a : Call) (startBit len index : Word)
  /-- `nval = *addr` in `set_bits_ll`, or the end of `bitmap_set_ll` -/
  | setLoad (a : Call) (startBit : Word) (c : Cursor)
  /-- `cmpxchg(addr, val, val | mask_to_set)` -/
  | setXchg (a : Call) (startBit : Word) (c : Cursor) (val : Word)
  /-- `nval = *addr` in `clear_bits_ll`, or the end of `bitmap_clear_ll` -/
  | clearLoad (p : Purpose) (chunk : Nat) (c : Cursor)
  /-- `cmpxchg(addr, val, val & ~mask_to_clear)` -/
  | clearXchg (p : Purpose) (chunk : Nat) (c : Cursor) (val : Word)
  /-- `atomic_sub(size, &chunk->avail)` -/
  | subAvail (a : Call) (startBit : Word)
  /-- `atomic_add(size, &chunk->avail)` -/
  | addAvail (chunk : Nat) (size : Word)
  /-- A `BUG_ON` or `BUG` was executed. -/
  | bug
  /-- The memory in front of a bitmap was accessed. -/
  | wild
  deriving DecidableEq

/-- The counters and bitmaps of the chunks, the callers, and the blocks that have been returned and
not been given back. -/
structure State (ι : Type*) where
  avail : Nat → Word
  bits : Nat → Map
  pc : ι → Pc
  out : List Block

inductive Action (ι : Type*) where
  | alloc (i : ι) (size : Word)
  | free (i : ι) (b : Block)
  /-- The next step of the caller; a search that is part of it returns the given number if that is
  between its bounds. -/
  | run (i : ι) (found : Nat)

namespace Layout

variable (L : Layout)

def startAddr (k : Nat) : Word := ((L.chunks[k]?).map Extent.startAddr).getD 0

def endBit (k : Nat) : Word := ((L.chunks[k]?).map Extent.endBit).getD 0

/-- `nbits << order`. -/
def rounded (size : Word) : Word := nbits L.order size <<< L.order

/-- The beginning of `gen_pool_free`, which looks for the chunk of the address. -/
def enterFree (addr size : Word) : Pc :=
  match L.chunks.findIdx? fun e => e.startAddr ≤ addr ∧ addr < e.endAddr with
  | none => .bug
  | some k =>
    if ((L.chunks[k]?).map Extent.endAddr).getD 0 < addr + size then .bug
    else
      let startBit := (addr - L.startAddr k) >>> L.order
      .clearLoad (.release size) k (.enter startBit.toNat (nbits L.order size).toInt)

/-- `pool->algo(chunk->bits, end_bit, start_bit, nbits, pool->data)`. -/
def callAlgo (a : Call) (startBit : Word) : Pc :=
  match L.algo with
  | .firstFit => .findZero a .first startBit
  | .bestFit => .findZero a (.best (L.endBit a.chunk) (L.endBit a.chunk + 1)) startBit

def algoReturns (a : Call) (startBit : Word) : Pc :=
  if (L.endBit a.chunk).sle startBit then .checkAvail { a with chunk := a.chunk + 1 } startBit
  else if startBit.slt 0#32 then .wild
  else .setLoad a startBit (.enter startBit.toNat (nbits L.order a.size).toInt)

/-- `bitmap_find_next_zero_area` returns. -/
def areaReturns (a : Call) (f : Search) (index : Word) : Pc :=
  match f with
  | .first => L.algoReturns a index
  | .best startBit len =>
    if index < L.endBit a.chunk then .findEnd a startBit len index
    else L.algoReturns a startBit

end Layout

/-- The result of a search that is asked for an index from `offset` on and below `size`. -/
def scan (size offset : Word) (found : Nat) : Word :=
  .ofNat 32 (if size ≤ offset then size.toNat else max offset.toNat (min found size.toNat))

namespace State

variable {ι : Type*} [DecidableEq ι] (L : Layout) (s : State ι)

def goto (i : ι) (p : Pc) : State ι := { s with pc := update s.pc i p }

def run (i : ι) (found : Nat) : State ι :=
  match s.pc i with
  | .idle | .bug | .wild => s
  | .checkAvail a startBit =>
    if a.chunk < L.chunks.length then
      if s.avail a.chunk < a.size then
        s.goto i (.checkAvail { a with chunk := a.chunk + 1 } startBit)
      else s.goto i (L.callAlgo a startBit)
    else s.goto i .idle
  | .findZero a f start =>
    let size := L.endBit a.chunk
    let index := scan size start found
    let stop := index + nbits L.order a.size
    if size < stop then s.goto i (L.areaReturns a f stop) else s.goto i (.findBit a f index)
  | .findBit a f index =>
    let stop := index + nbits L.order a.size
    let j := scan stop index found
    if j < stop then s.goto i (.findZero a f (j + 1)) else s.goto i (L.areaReturns a f index)
  | .findEnd a startBit len index =>
    let nr := nbits L.order a.size
    let nextBit := scan (L.endBit a.chunk) (index + nr) found
    if nextBit - index < len then
      if nextBit - index = nr then s.goto i (L.algoReturns a index)
      else s.goto i (.findZero a (.best index (nextBit - index)) (nextBit + 1))
    else s.goto i (.findZero a (.best startBit len) (nextBit + 1))
  | .setLoad a startBit c =>
    match c.current with
    | none => s.goto i (.subAvail a startBit)
    | some _ => s.goto i (.setXchg a startBit c (s.bits a.chunk c.word))
  | .setXchg a startBit c val =>
    match c.current with
    | none => s
    | some mask =>
      if val &&& mask ≠ 0 then
        -- what remains is `c.nr`, and the bits before are cleared again
        let nr := (nbits L.order a.size).toInt - c.nr
        s.goto i (.clearLoad (.retry a startBit) a.chunk (.enter startBit.toNat nr))
      else if s.bits a.chunk c.word = val then
        { s with
          bits := update s.bits a.chunk (setMask (s.bits a.chunk) c.word mask)
          pc := update s.pc i (.setLoad a startBit c.advance) }
      else s.goto i (.setXchg a startBit c (s.bits a.chunk c.word))
  | .clearLoad p k c =>
    match c.current with
    | none =>
      match p with
      | .retry a startBit => s.goto i (L.callAlgo a startBit)
      | .release size => s.goto i (.addAvail k size)
    | some _ => s.goto i (.clearXchg p k c (s.bits k c.word))
  | .clearXchg p k c val =>
    match c.current with
    | none => s
    | some mask =>
      if val &&& mask ≠ mask then s.goto i .bug
      else if s.bits k c.word = val then
        { s with
          bits := update s.bits k (clearMask (s.bits k) c.word mask)
          pc := update s.pc i (.clearLoad p k c.advance) }
      else s.goto i (.clearXchg p k c (s.bits k c.word))
  | .subAvail a startBit =>
    let addr := L.startAddr a.chunk + startBit <<< L.order
    { s with
      avail := update s.avail a.chunk (s.avail a.chunk - L.rounded a.size)
      pc := update s.pc i .idle
      out := ⟨a.chunk, addr, a.size⟩ :: s.out }
  | .addAvail k size =>
    { s with
      avail := update s.avail k (s.avail k + L.rounded size)
      pc := update s.pc i .idle }

/-- A step of the system. A caller makes one call at a time and gives back only what was returned
before. A call of `gen_pool_alloc` for no bytes returns at once. -/
def step : Action ι → State ι
  | .alloc i size =>
    if s.pc i = .idle ∧ size ≠ 0 then s.goto i (.checkAvail ⟨size, 0⟩ 0) else s
  | .free i b =>
    if s.pc i = .idle ∧ b ∈ s.out then
      { s with
        pc := update s.pc i (L.enterFree b.addr b.size)
        out := s.out.erase b }
    else s
  | .run i found => s.run L i found

def initial : State ι where
  avail k := .ofNat 32 (((L.chunks[k]?).map Extent.size).getD 0)
  bits _ _ := 0
  pc _ := .idle
  out := []

end State

/-! ## What is promised -/

def Block.Apart (b c : Block) : Prop :=
  b.addr.toNat + b.size.toNat ≤ c.addr.toNat ∨ c.addr.toNat + c.size.toNat ≤ b.addr.toNat

def Block.Inside {order : Nat} (b : Block) (e : Extent order) : Prop :=
  e.start ≤ b.addr.toNat ∧ b.addr.toNat + b.size.toNat ≤ e.start + e.size

/-- The bytes that the blocks of a chunk take, each rounded up to whole units. -/
def taken (L : Layout) (out : List Block) (k : Nat) : Nat :=
  ((out.filter fun b => b.chunk = k).map fun b =>
    unitsFor L.order b.size.toNat * 2 ^ L.order).sum

/-- No two blocks overlap, each one is in its chunk, nothing has been reported or accessed wrongly,
and without a call in progress the counters are exact. -/
structure Safe {ι : Type*} (L : Layout) (s : State ι) : Prop where
  apart : s.out.Pairwise Block.Apart
  inside : ∀ b ∈ s.out, ∃ e, L.chunks[b.chunk]? = some e ∧ b.Inside e
  quiet : ∀ i, s.pc i ≠ .bug ∧ s.pc i ≠ .wild
  counted : (∀ i, s.pc i = .idle) → ∀ k e, L.chunks[k]? = some e →
    (s.avail k).toNat = e.size - taken L s.out k ∧ taken L s.out k ≤ e.size

/-- The arithmetic on a request does not overflow at a chunk: neither the sum that rounds it up, nor
the sum of its units and a position in the chunk as an `int`. -/
def Fits {order : Nat} (e : Extent order) (size : Word) : Prop :=
  size.toNat + 2 ^ order ≤ 2 ^ 32 ∧ unitsFor order size.toNat + e.units < 2 ^ 31

instance {order : Nat} (e : Extent order) (size : Word) : Decidable (Fits e size) :=
  inferInstanceAs (Decidable (_ ∧ _))

/-- The test on the counter lets no request through that is too large for the arithmetic, and what
is given back is not in a chunk that ends with the address space. -/
def admitted {ι : Type*} (L : Layout) (s : State ι) : Action ι → Bool
  | .alloc _ _ => true
  | .free _ b => (L.chunks[b.chunk]?).all fun e => e.start + e.size < 2 ^ 32
  | .run i _ =>
    match s.pc i with
    | .checkAvail a _ =>
      s.avail a.chunk < a.size || (L.chunks[a.chunk]?).all fun e => Fits e a.size
    | _ => true

/-- A search in the step returns what it finds in the bitmap as it is at that time. -/
def faithful {ι : Type*} (L : Layout) (s : State ι) : Action ι → Bool
  | .run i found =>
    match s.pc i with
    | .findZero a _ start =>
      let size := L.endBit a.chunk
      scan size start found = findNextZeroBit (s.bits a.chunk) size start
    | .findBit a _ index =>
      let stop := index + nbits L.order a.size
      scan stop index found = findNextBit (s.bits a.chunk) stop index
    | .findEnd a _ _ index =>
      let from_ := index + nbits L.order a.size
      scan (L.endBit a.chunk) from_ found = findNextBit (s.bits a.chunk) (L.endBit a.chunk) from_
    | _ => true
  | _ => true

/-! ## A request that is too large -/

def twoBytes : Layout where
  order := 0
  order_lt := order_zero_lt
  chunks := [⟨0x1000, 2, by decide, by decide, by decide⟩]
  apart := by simp
  algo := .firstFit

/-- Caller 0 passes the test on the counter for one byte. Caller 1 takes both bytes and gives them
back, up to the addition to the counter. Caller 0 takes the first byte, and the subtraction makes
the counter negative. Caller 2 asks for `2 ^ 32 - 1` bytes. -/
def overdraft : List (Action Nat) :=
  [.alloc 0 1, .run 0 0,
    .alloc 1 2, .run 1 0, .run 1 0, .run 1 2, .run 1 0, .run 1 0, .run 1 0, .run 1 0,
    .free 1 ⟨0, 0x1000, 2⟩, .run 1 0, .run 1 0,
    .run 0 0, .run 0 1, .run 0 0, .run 0 0, .run 0 0, .run 0 0,
    .alloc 2 0xffffffff, .run 2 0, .run 2 1, .run 2 0, .run 2 0, .run 2 0, .run 2 0, .run 2 0]

/-- The request is granted, although no chunk has as many bytes. -/
theorem overdraft_unsafe :
    Along (State.step twoBytes) (fun s a => faithful twoBytes s a = true)
        (State.initial twoBytes) overdraft ∧
      ¬ Safe twoBytes (runFrom (State.step twoBytes) (State.initial twoBytes) overdraft) := by
  have hout : (runFrom (State.step twoBytes) (State.initial twoBytes) overdraft).out =
      [⟨0, 0x1001, 0xffffffff⟩, ⟨0, 0x1000, 1⟩] := by decide
  refine ⟨by decide, fun h => ?_⟩
  obtain ⟨e, he, -, hle⟩ := h.inside ⟨0, 0x1001, 0xffffffff⟩ (by simp [hout])
  obtain rfl : _ = e := Option.some.inj he
  exact absurd hle (by decide)

end Mini2440.Genalloc
