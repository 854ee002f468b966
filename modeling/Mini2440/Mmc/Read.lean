import Mini2440.Library.Run
import Mini2440.Mmc.Pio

/-!
# Reading from the FIFO

`do_pio_read` as a machine that makes one access to the controller at a time, while bytes from the
card go into the FIFO between any two accesses. A call starts from `idle`, as `pio_tasklet` makes
it; at `top` it is about to read `SDIFSTA`; after that it has a number of words and at most three
more bytes to read.
-/

namespace Mini2440.Mmc

open List Library Segments

inductive ReadPc where
  | idle
  | top
  | words (n tail : Nat)
  deriving DecidableEq, Repr

@[simp] def ReadPc.pending : ReadPc → Nat
  | .words n tail => 4 * n + tail
  | _ => 0

/-- The transfer, the memory, the FIFO and the bytes that the card has not sent yet. -/
structure Reader where
  pio : Pio
  mem : Memory
  fifo : List Byte
  coming : List Byte
  pc : ReadPc

inductive ReadEvent where
  | arrive (n : Nat)
  | run

def Memory.store (mem : Memory) (p : Ptr) (b : Byte) : Memory :=
  Function.update mem p.seg (Function.update (mem p.seg) p.off b)

/-- `while (n--) { *p++ = data; data >>= 8; }`; for four bytes it is also `*p = data`. -/
def Memory.storeBytes (mem : Memory) (p : Ptr) : Nat → Word → Memory
  | 0, _ => mem
  | n + 1, data =>
    Memory.storeBytes (mem.store p (data.setWidth 8)) ⟨p.seg, p.off + 1⟩ n (data >>> 8)

namespace Reader

/-- `readl(from_ptr)`: the next bytes of the FIFO, up to four. -/
def readl (s : Reader) : Word := leWord (s.fifo.take 4)

def run (s : Reader) : Reader :=
  match s.pc with
  | .idle => if s.pio.active = .read then { s with pc := .top } else s
  | .top =>
    match s.pio.readRound s.fifo.length with
    | .error pio => { s with pio := pio, pc := .idle }
    | .ok (n, pio) => { s with pio := pio, pc := .words (n / 4) (n % 4) }
  | .words (n + 1) tail =>
    { s with
      pio := { s.pio with ptr := ⟨s.pio.ptr.seg, s.pio.ptr.off + 4⟩ }
      mem := s.mem.storeBytes s.pio.ptr 4 s.readl
      fifo := s.fifo.drop 4
      pc := .words n tail }
  | .words 0 tail =>
    if tail = 0 then { s with pc := .top }
    else
      { s with
        mem := s.mem.storeBytes s.pio.ptr tail s.readl
        fifo := s.fifo.drop 4
        pc := .top }

/-- The FIFO has room for 64 bytes. -/
def step (s : Reader) : ReadEvent → Reader
  | .arrive n =>
    let n := min n (64 - s.fifo.length)
    { s with fifo := s.fifo ++ s.coming.take n, coming := s.coming.drop n }
  | .run => s.run

/-- After `s3cmci_prepare_pio`, with the FIFO empty. -/
def start (sg : List Nat) (stream : List Byte) (mem : Memory) (ptr : Ptr) : Reader :=
  ⟨Pio.prepare (some sg) .read ptr, mem, [], stream, .idle⟩

end Reader

/-! ## The invariant -/

/-- What holds between two accesses when the bytes `got` have been read. -/
structure Reading (sg : List Nat) (stream : List Byte) (mem : Memory) (got : List Byte)
    (s : Reader) : Prop where
  stream_eq : stream = got ++ s.fifo ++ s.coming
  mem_eq : s.mem = fill sg got mem
  at_pos : s.pio.At sg got.length s.pc.pending
  avail : s.pc.pending ≤ s.fifo.length
  tail : ∀ n tail, s.pc = .words n tail → tail ≠ 0 → s.pio.bytes = 0 ∧ s.pio.sgptr = sg.length
  tail_lt : ∀ n tail, s.pc = .words n tail → tail < 4
  count : s.pio.count = (got.length + s.pc.pending) % 2 ^ 32
  active : s.pio.active = .read ∨
    s.pio.active = .none ∧ s.pc = .idle ∧ got.length = stream.length
  waiting : s.pc = .idle → s.pio.active = .read → s.pio.bytes = 0 → got = []

variable {sg : List Nat} {stream got bs : List Byte} {mem : Memory} {s : Reader} {n : Nat}

lemma reading_start (ptr : Ptr) :
    Reading sg stream mem [] (Reader.start sg stream mem ptr) := by
  refine ⟨rfl, (fill_nil sg mem).symm, Pio.at_prepare .read ptr, le_refl _, ?_, ?_, rfl,
    .inl rfl, fun _ _ _ => rfl⟩ <;> rintro _ _ ⟨⟩

section

variable (h : Reading sg stream mem got s)

include h

lemma Reading.arrive (n : Nat) : Reading sg stream mem got (s.step (.arrive n)) := by
  refine { h with stream_eq := ?_, avail := h.avail.trans ?_ }
  · simp only [Reader.step]
    simpa using h.stream_eq
  · simp [Reader.step]

omit h in
lemma storeBytes_leWord {seg off : Nat} (hn : n ≤ bs.length) (hbs : bs.length ≤ 4)
    (hoff : off + n ≤ len sg seg) (hplace : base sg seg + off = got.length) :
    Memory.storeBytes (fill sg got mem) ⟨seg, off⟩ n (leWord bs) =
      fill sg (got ++ bs.take n) mem := by
  induction n generalizing off got bs with
  | zero => simp [Memory.storeBytes]
  | succ n ih =>
    cases bs with
    | nil => simp at hn
    | cons b bs =>
      simp only [length_cons] at hn hbs
      have hstore : Memory.store (fill sg got mem) ⟨seg, off⟩ b = fill sg (got ++ [b]) mem :=
        (fill_snoc (by omega) hplace).symm
      have hrest : Memory.storeBytes (fill sg (got ++ [b]) mem) ⟨seg, off + 1⟩ n (leWord bs) =
          fill sg (got ++ [b] ++ bs.take n) mem :=
        ih (by omega) (by omega) (by omega) (by simp; omega)
      rw [Memory.storeBytes, leWord_cons_setWidth, leWord_cons_shiftRight (by omega), hstore, hrest]
      simp

lemma Reading.idle (hpc : s.pc = .idle) : Reading sg stream mem got s.run := by
  rw [Reader.run, hpc]
  split_ifs with hactive
  · have hpos := h.at_pos
    have hcount := h.count
    rw [hpc] at hpos hcount
    refine ⟨h.stream_eq, h.mem_eq, hpos, Nat.zero_le _, ?_, ?_, hcount, .inl hactive, ?_⟩ <;> simp
  · exact h

lemma Reading.active_of_ne_idle (hpc : s.pc ≠ .idle) : s.pio.active = .read := by
  rcases h.active with hactive | ⟨-, hidle, -⟩
  · exact hactive
  · exact absurd hidle hpc

variable (hsg : ∀ n ∈ sg, 0 < n) (hwords : ∀ n ∈ sg.dropLast, 4 ∣ n)
  (hlen : stream.length = sg.sum)

include hsg hwords hlen in
lemma Reading.top (hpc : s.pc = .top) : Reading sg stream mem got s.run := by
  have hactive := h.active_of_ne_idle (by simp [hpc])
  have hpos := h.at_pos
  have hcount := h.count
  rw [hpc] at hpos hcount
  rw [Reader.run, hpc]
  rcases hpos.readRound (by simp [hactive]) hsg hwords s.fifo.length with
    ⟨hround, hall⟩ | ⟨p, hround, -, hp, hbytes, hact, hcnt⟩ | ⟨n, p, hround, hd⟩
  · -- no more buffers: everything has been read
    rw [hround]
    exact ⟨h.stream_eq, h.mem_eq, { hpos with }, Nat.zero_le _,
      by simp, by simp, hcount, .inr ⟨rfl, rfl, hall.trans hlen.symm⟩, by simp⟩
  · rw [hround]
    exact ⟨h.stream_eq, h.mem_eq, hp, Nat.zero_le _, by simp, by simp, hcnt.trans hcount,
      .inl (hact.trans hactive), fun _ _ hzero => absurd hzero hbytes⟩
  · have hpending : (ReadPc.words (n / 4) (n % 4)).pending = n := Nat.div_add_mod n 4
    rw [hround]
    refine ⟨h.stream_eq, h.mem_eq, ?_, ?_, ?_, ?_, ?_, .inl (hd.active.trans hactive), by simp⟩
    · simpa only [hpending] using hd.at_pos
    · simpa only [hpending] using hd.le_fifo
    · rintro _ _ ⟨⟩
      exact hd.tail
    · rintro _ _ ⟨⟩
      exact Nat.mod_lt _ (by decide)
    · simp only [hd.count, hcount, ReadPc.pending]
      omega

lemma Reading.word {tail : Nat} (hpc : s.pc = .words (n + 1) tail) :
    Reading sg stream mem (got ++ s.fifo.take 4) s.run := by
  have hactive := h.active_of_ne_idle (by simp [hpc])
  have hpending : s.pc.pending = 4 + (4 * n + tail) := by
    rw [hpc, ReadPc.pending]
    omega
  have hpos := h.at_pos
  have havail := h.avail
  rw [hpending] at hpos havail
  have hfour : (s.fifo.take 4).length = 4 := by
    rw [length_take]
    omega
  obtain ⟨-, -, hlen⟩ := hpos.ptr (by omega)
  have hmem : s.mem.storeBytes s.pio.ptr 4 s.readl = fill sg (got ++ s.fifo.take 4) mem := by
    rw [h.mem_eq, Reader.readl, storeBytes_leWord hfour.ge hfour.le (by omega)
      (hpos.base_ptr (by omega)), take_take, min_self]
  rw [Reader.run, hpc]
  refine ⟨?_, hmem, ?_, ?_, ?_, ?_, ?_, .inl hactive, by simp⟩
  · rw [append_assoc got, take_append_drop]
    exact h.stream_eq
  · rw [length_append, hfour]
    exact hpos.advance
  · simp only [ReadPc.pending, length_drop]
    omega
  · rintro _ _ ⟨⟩
    exact h.tail _ _ hpc
  · rintro _ _ ⟨⟩
    exact h.tail_lt _ _ hpc
  · rw [h.count, length_append, ReadPc.pending]
    omega

/-- The bytes after the last word of a pass are the last ones of the stream. -/
lemma Reading.last {tail : Nat} (hlen : stream.length = sg.sum) (hpc : s.pc = .words 0 tail) :
    Reading sg stream mem (got ++ s.fifo.take tail) s.run := by
  have hactive := h.active_of_ne_idle (by simp [hpc])
  have hpos := h.at_pos
  have hcount := h.count
  have havail := h.avail
  simp only [hpc, ReadPc.pending, mul_zero, zero_add] at hpos hcount havail
  rw [Reader.run, hpc]
  dsimp only
  split_ifs with htail
  · subst htail
    rw [take_zero, append_nil]
    exact ⟨h.stream_eq, h.mem_eq, hpos, Nat.zero_le _, by simp, by simp, hcount, .inl hactive,
      by simp⟩
  · have hlt := h.tail_lt _ _ hpc
    obtain ⟨hbytes, hsgptr⟩ := h.tail _ _ hpc htail
    have hbase := hpos.base
    rw [hsgptr, base_length, ← hlen, h.stream_eq] at hbase
    simp only [length_append] at hbase
    have hfifo : s.fifo.length = tail := by omega
    obtain ⟨-, -, hseg⟩ := hpos.ptr (by omega)
    have hmem : s.mem.storeBytes s.pio.ptr tail s.readl =
        fill sg (got ++ s.fifo.take tail) mem := by
      rw [h.mem_eq, Reader.readl, storeBytes_leWord (by simp; omega) (by simp) (by omega)
        (hpos.base_ptr (by omega)), take_take, min_eq_left (by omega)]
    have htake : s.fifo.take tail = s.fifo := take_of_length_le hfifo.le
    have hdrop : s.fifo.drop 4 = [] := drop_eq_nil_of_le (by omega)
    refine ⟨?_, hmem, ?_, Nat.zero_le _, by simp, by simp, ?_, .inl hactive, by simp⟩
    · rw [htake, hdrop]
      simpa using h.stream_eq
    · rw [htake, length_append, hfifo]
      refine ⟨hpos.data, hpos.sgptr, ?_, fun hne => absurd hbytes (by simpa using hne)⟩
      simpa using hpos.base
    · rw [htake, length_append, hfifo]
      exact hcount

include hsg hwords hlen in
lemma Reading.step (event : ReadEvent) : ∃ got', Reading sg stream mem got' (s.step event) := by
  cases event with
  | arrive n => exact ⟨got, h.arrive n⟩
  | run =>
    cases hpc : s.pc with
    | idle => exact ⟨got, h.idle hpc⟩
    | top => exact ⟨got, h.top hsg hwords hlen hpc⟩
    | words n tail =>
      cases n with
      | zero => exact ⟨_, h.last hlen hpc⟩
      | succ n => exact ⟨_, h.word hpc⟩

/-! ## Reaching the end -/

/-- A bound on the accesses that are left when the card has sent everything and there are
`length` bytes in the FIFO. -/
def ReadPc.rank (pc : ReadPc) (active : Xfer) (length : Nat) : Nat :=
  match pc with
  | .idle => if active = .none then 0 else 2 * length + 2
  | .top => 2 * length + 1
  | .words n tail => if n = 0 ∧ tail = 0 then 2 * length + 2 else 2 * length

def Reader.rank (s : Reader) : Nat := s.pc.rank s.pio.active s.fifo.length

omit h in
lemma Reader.rank_le (s : Reader) : s.rank ≤ 2 * s.fifo.length + 2 := by
  rw [rank]
  cases s.pc <;> grind [ReadPc.rank]

include hsg hwords hlen in
lemma Reading.rank_run (hcoming : s.coming = []) : s.run.rank ≤ s.rank - 1 ∧ s.run.coming = [] := by
  have hpos := h.at_pos
  have havail := h.avail
  have hstream := congrArg length h.stream_eq
  simp only [length_append, hcoming, length_nil] at hstream
  rw [Reader.rank, Reader.rank, Reader.run]
  cases hpc : s.pc with
  | idle =>
    rcases h.active with hactive | ⟨hactive, -⟩
    · simp [hactive, ReadPc.rank, hcoming]
    · simp [hactive, ReadPc.rank, hcoming, hpc]
  | top =>
    have hactive := h.active_of_ne_idle (by simp [hpc])
    rw [hpc] at hpos
    rcases hpos.readRound (by simp [hactive]) hsg hwords s.fifo.length with
      ⟨hround, -⟩ | ⟨p, hround, hfifo, hp, hbytes, -⟩ | ⟨n, p, hround, hd⟩
    · rw [hround]
      exact ⟨by simp [ReadPc.rank], hcoming⟩
    · -- with the FIFO empty nothing is left of any segment
      have hle := hp.le_sum
      omega
    · have hne := hd.progress (.inr (by omega))
      have hwork : ¬ (n / 4 = 0 ∧ n % 4 = 0) := by omega
      rw [hround]
      exact ⟨by simp only [ReadPc.rank, if_neg hwork]; omega, hcoming⟩
  | words n tail =>
    rw [hpc] at havail
    cases n with
    | zero =>
      dsimp only
      split_ifs with htail
      · exact ⟨by simp [ReadPc.rank, htail], hcoming⟩
      · simp only [ReadPc.pending] at havail
        refine ⟨?_, hcoming⟩
        simp only [ReadPc.rank, length_drop, htail, and_false, if_false]
        omega
    | succ n =>
      simp only [ReadPc.pending] at havail
      refine ⟨?_, hcoming⟩
      simp only [ReadPc.rank]
      grind

lemma Reading.none_of_rank (hrank : s.rank = 0) : s.pio.active = .none := by
  have havail := h.avail
  rw [Reader.rank] at hrank
  cases hpc : s.pc with
  | idle =>
    rw [hpc, ReadPc.rank] at hrank
    grind
  | top =>
    rw [hpc, ReadPc.rank] at hrank
    omega
  | words n tail =>
    rw [hpc, ReadPc.rank] at hrank
    rw [hpc, ReadPc.pending] at havail
    grind

lemma Reading.got_eq (hnone : s.pio.active = .none) : got = stream := by
  have hlen : got.length = stream.length := by
    rcases h.active with hread | ⟨-, -, hlen⟩
    · simp [hread] at hnone
    · exact hlen
  have hstart : got <+: stream := ⟨s.fifo ++ s.coming, by rw [h.stream_eq, append_assoc]⟩
  exact hstart.eq_of_length hlen

/-- The call that reads the last byte ends the transfer. -/
lemma Reading.none_of_all (hlen : stream.length = sg.sum)
    (hpc : s.pc = .idle) (hall : got = stream) (hne : stream ≠ []) : s.pio.active = .none := by
  rcases h.active with hread | ⟨hnone, -⟩
  · have hle := h.at_pos.le_sum
    simp only [hall] at hle
    exact absurd (hall.symm.trans (h.waiting hpc hread (by omega))) hne
  · exact hnone

include hsg hwords hlen in
/-- What is left to do is bounded by the bytes in the FIFO. -/
lemma Reading.finishes (hcoming : s.coming = []) (hn : 2 * s.fifo.length + 2 ≤ n) :
    let last := runFrom Reader.step s (replicate n .run)
    last.pio.active = .none ∧ last.mem = fill sg stream mem := by
  intro last
  have hlast : (∃ got, Reading sg stream mem got last ∧ last.coming = []) ∧ last.rank = 0 := by
    refine runFrom_rank (P := fun s => ∃ got, Reading sg stream mem got s ∧ s.coming = [])
      Reader.rank ?_ ⟨got, h, hcoming⟩ ?_
    · rintro t event hevent ⟨got, ht, hnil⟩
      obtain rfl := eq_of_mem_replicate hevent
      obtain ⟨got', ht'⟩ := ht.step hsg hwords hlen .run
      obtain ⟨hrank, hnil'⟩ := ht.rank_run hsg hwords hlen hnil
      exact ⟨⟨got', ht', hnil'⟩, hrank⟩
    · rw [length_replicate]
      exact s.rank_le.trans hn
  obtain ⟨⟨got', h', -⟩, hrank⟩ := hlast
  have hnone := h'.none_of_rank hrank
  exact ⟨hnone, h'.got_eq hnone ▸ h'.mem_eq⟩

end

/-- Whatever the arrivals, the bytes that have been read are in their places and nothing else
has been written, and the transfer ends after the last byte. -/
theorem pioRead_correct (sg : List Nat) (hsg : ∀ n ∈ sg, 0 < n) (hwords : ∀ n ∈ sg.dropLast, 4 ∣ n)
    (stream : List Byte) (hlen : stream.length = sg.sum) (mem : Memory) (ptr : Ptr)
    (events : List ReadEvent) :
    let s := runFrom Reader.step (Reader.start sg stream mem ptr) events
    (∃ got, stream = got ++ s.fifo ++ s.coming ∧ s.mem = fill sg got mem ∧
      (s.pc.pending = 0 → s.pio.count = got.length % 2 ^ 32) ∧
      (s.pio.active = .none → got = stream) ∧
      (s.pc = .idle → got = stream → stream ≠ [] → s.pio.active = .none)) ∧
    (s.coming = [] → ∀ n, 2 * s.fifo.length + 2 ≤ n →
      let last := runFrom Reader.step s (replicate n .run)
      last.pio.active = .none ∧ last.mem = fill sg stream mem) := by
  intro s
  have hinv := runFrom_invariant (P := fun s => ∃ got, Reading sg stream mem got s)
    (fun _ event ⟨_, h⟩ => h.step hsg hwords hlen event)
    ⟨[], reading_start ptr⟩ events
  obtain ⟨got, h⟩ := hinv
  refine ⟨⟨got, h.stream_eq, h.mem_eq, fun hpending => ?_, h.got_eq, h.none_of_all hlen⟩,
    fun hcoming _ => h.finishes hsg hwords hlen hcoming⟩
  rw [h.count, hpending, add_zero]

def sevenBytes : List Byte := [1, 2, 3, 4, 5, 6, 7]

theorem sevenBytes_pioRead :
    let s := runFrom Reader.step (Reader.start [4, 3] sevenBytes (fun _ _ => 0) ⟨0, 0⟩) [.arrive 7]
    let last := runFrom Reader.step s (replicate 16 .run)
    last.pio.active = .none ∧ last.mem = fill [4, 3] sevenBytes fun _ _ => 0 :=
  (pioRead_correct [4, 3] (by decide) (by decide) sevenBytes rfl (fun _ _ => 0) ⟨0, 0⟩
    [.arrive 7]).2 rfl 16 (by decide)

end Mini2440.Mmc
