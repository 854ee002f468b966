import Mini2440.Library.Run
import Mini2440.Mmc.Pio

/-!
# Writing to the FIFO

`do_pio_write` as a machine that makes one access to the controller at a time. The number of
bytes that it finds in the FIFO may be anything at each access to `SDIFSTA`.
-/

namespace Mini2440.Mmc

open List Library Segments

inductive WritePc where
  | idle
  | top
  | words (n : Nat)
  deriving DecidableEq, Repr

@[simp] def WritePc.pending : WritePc → Nat
  | .words n => 4 * n
  | _ => 0

/-- The transfer and the words that have been written to the data register. `level` is what the
last access to `SDIFSTA` has shown and `batch` the number of words written since. -/
structure Writer where
  pio : Pio
  sent : List Word
  level : Nat
  batch : Nat
  pc : WritePc

/-- `*ptr`. -/
def Memory.load (mem : Memory) (p : Ptr) : Word :=
  leWord ((range 4).map fun k => mem p.seg (p.off + k))

namespace Writer

def step (mem : Memory) (s : Writer) (level : Fin 64) : Writer :=
  match s.pc with
  | .idle => if s.pio.active = .write then { s with pc := .top } else s
  | .top =>
    match s.pio.writeRound level with
    | .error pio => { s with pio := pio, level := level, batch := 0, pc := .idle }
    | .ok (n, pio) =>
      { s with pio := pio, level := level, batch := 0, pc := .words ((n + 3) / 4) }
  | .words (n + 1) =>
    { s with
      pio := { s.pio with ptr := ⟨s.pio.ptr.seg, s.pio.ptr.off + 4⟩ }
      sent := s.sent ++ [mem.load s.pio.ptr]
      batch := s.batch + 1
      pc := .words n }
  | .words 0 => { s with pc := .top }

/-- After the counters have been reset in `s3cmci_prepare_pio`. -/
def start (sg : List Nat) (ptr : Ptr) : Writer :=
  ⟨Pio.prepare (some sg) .write ptr, [], 0, 0, .idle⟩

def bytes (s : Writer) : List Byte := s.sent.flatMap (leBytes 4)

end Writer

structure Writing (sg : List Nat) (mem : Memory) (s : Writer) : Prop where
  bytes_eq : s.bytes = (gather sg mem).take (4 * s.sent.length)
  at_pos : s.pio.At sg (4 * s.sent.length) s.pc.pending
  room : 4 * s.batch + s.pc.pending ≤ 64 - s.level
  active : s.pio.active = .write ∨
    s.pio.active = .none ∧ s.pc = .idle ∧ 4 * s.sent.length = sg.sum

variable {sg : List Nat} {mem : Memory} {s : Writer} {n : Nat}

lemma writing_start (ptr : Ptr) :
    Writing sg mem (Writer.start sg ptr) :=
  ⟨rfl, Pio.at_prepare .write ptr, Nat.zero_le _, .inl rfl⟩

lemma Writing.active_of_ne_idle (h : Writing sg mem s) (hpc : s.pc ≠ .idle) :
    s.pio.active = .write := by
  rcases h.active with hactive | ⟨-, hidle, -⟩
  · exact hactive
  · exact absurd hidle hpc

lemma Writing.top (hsg : ∀ n ∈ sg, 0 < n) (hwords : ∀ n ∈ sg, 4 ∣ n) (h : Writing sg mem s)
    (hpc : s.pc = .top) (level : Fin 64) : Writing sg mem (s.step mem level) := by
  have hactive := h.active_of_ne_idle (by simp [hpc])
  have hpos := h.at_pos
  rw [hpc] at hpos
  rw [Writer.step, hpc]
  have hlast : ∀ n ∈ sg.dropLast, 4 ∣ n := fun n hn => hwords n (dropLast_subset sg hn)
  rcases hpos.writeRound (by simp [hactive]) hsg hlast level with
    ⟨hround, hall⟩ | ⟨hround, -⟩ | ⟨n, p, hround, hroom, hd⟩
  · rw [hround]
    exact ⟨h.bytes_eq, { hpos with }, Nat.zero_le _, .inr ⟨rfl, rfl, hall⟩⟩
  · rw [hround]
    exact ⟨h.bytes_eq, hpos, Nat.zero_le _, .inl hactive⟩
  · have hfour : n % 4 = 0 := by
      have hmod := hd.at_pos.mod_four (len_induction hwords (by omega))
      by_contra hne
      have hzero := (hd.tail hne).1
      omega
    have hpending : (WritePc.words ((n + 3) / 4)).pending = n := by
      simp only [WritePc.pending]
      omega
    have hfree : Pio.fifoFree level = 63 - level := by
      unfold Pio.fifoFree
      omega
    rw [hround]
    refine ⟨h.bytes_eq, ?_, ?_, .inl (hd.active.trans hactive)⟩
    · simpa only [hpending] using hd.at_pos
    · have hle := hd.le_fifo
      simp only [hpending]
      omega

lemma Writing.word (h : Writing sg mem s) (hpc : s.pc = .words (n + 1)) (level : Fin 64) :
    Writing sg mem (s.step mem level) := by
  have hactive := h.active_of_ne_idle (by simp [hpc])
  have hpending : s.pc.pending = 4 + 4 * n := by
    rw [hpc, WritePc.pending]
    omega
  have hpos := h.at_pos
  have hroom := h.room
  rw [hpending] at hpos hroom
  obtain ⟨-, -, hlen⟩ := hpos.ptr (by omega)
  have hplace := hpos.base_ptr (by omega)
  have hword : leBytes 4 (mem.load s.pio.ptr) =
      (range 4).map fun k => mem s.pio.ptr.seg (s.pio.ptr.off + k) :=
    leBytes_leWord ((range 4).map _) (by simp)
  have hlength : 4 * (s.sent ++ [mem.load s.pio.ptr]).length = 4 * s.sent.length + 4 := by
    rw [length_append, length_singleton]
    omega
  have htake := take_gather_add (n := 4) mem (by omega : s.pio.ptr.off + 4 ≤ len sg s.pio.ptr.seg)
  rw [hplace] at htake
  rw [Writer.step, hpc]
  refine ⟨?_, ?_, ?_, .inl hactive⟩
  · rw [hlength, htake, ← hword, ← h.bytes_eq]
    simp [Writer.bytes]
  · rw [hlength]
    exact hpos.advance
  · simp only [WritePc.pending]
    omega

lemma Writing.step (hsg : ∀ n ∈ sg, 0 < n) (hwords : ∀ n ∈ sg, 4 ∣ n) (h : Writing sg mem s)
    (level : Fin 64) : Writing sg mem (s.step mem level) := by
  cases hpc : s.pc with
  | idle =>
    have hpos := h.at_pos
    have hroom := h.room
    rw [hpc] at hpos hroom
    rw [Writer.step, hpc]
    split_ifs with hactive
    · exact ⟨h.bytes_eq, hpos, hroom, .inl hactive⟩
    · exact h
  | top => exact h.top hsg hwords hpc level
  | words n =>
    cases n with
    | zero =>
      have hactive := h.active_of_ne_idle (by simp [hpc])
      have hpos := h.at_pos
      have hroom := h.room
      rw [hpc] at hpos hroom
      rw [Writer.step, hpc]
      exact ⟨h.bytes_eq, hpos, hroom, .inl hactive⟩
    | succ n => exact h.word hpc level

lemma Writing.all_of_none (h : Writing sg mem s) (hnone : s.pio.active = .none) :
    s.bytes = gather sg mem := by
  rcases h.active with hwrite | ⟨-, -, hall⟩
  · simp [hwrite] at hnone
  · rw [h.bytes_eq, hall, ← length_gather, take_length]

/-! ## Reaching the end -/

/-- A bound on the accesses that are left when `left` bytes are, if the FIFO always has room. -/
def WritePc.rank (pc : WritePc) (active : Xfer) (left : Nat) : Nat :=
  match pc with
  | .idle => if active = .none then 0 else 2 * left + 2
  | .top => 2 * left + 1
  | .words n => if n = 0 then 2 * left + 2 else 2 * left

def Writer.rank (sg : List Nat) (s : Writer) : Nat :=
  s.pc.rank s.pio.active (sg.sum - 4 * s.sent.length)

lemma Writer.rank_le (sg : List Nat) (s : Writer) : s.rank sg ≤ 2 * sg.sum + 2 := by
  rw [rank]
  cases s.pc <;> grind [WritePc.rank]

lemma Writing.rank_step (hsg : ∀ n ∈ sg, 0 < n) (hwords : ∀ n ∈ sg, 4 ∣ n) (h : Writing sg mem s)
    {level : Fin 64} (hroom : level.val ≤ 59) : (s.step mem level).rank sg ≤ s.rank sg - 1 := by
  have hpos := h.at_pos
  have hle := hpos.le_sum
  rw [Writer.rank, Writer.rank, Writer.step]
  cases hpc : s.pc with
  | idle =>
    rcases h.active with hactive | ⟨hactive, -⟩
    · simp [hactive, WritePc.rank]
    · simp [hactive, WritePc.rank, hpc]
  | top =>
    have hactive := h.active_of_ne_idle (by simp [hpc])
    have hlast : ∀ n ∈ sg.dropLast, 4 ∣ n := fun n hn => hwords n (dropLast_subset sg hn)
    rw [hpc] at hpos
    rcases hpos.writeRound (by simp [hactive]) hsg hlast level with
      ⟨hround, -⟩ | ⟨-, hfull⟩ | ⟨n, p, hround, hfree, hd⟩
    · rw [hround]
      simp [WritePc.rank]
    · unfold Pio.fifoFree at hfull
      omega
    · have hne := hd.progress (.inl hfree)
      have hwork : (n + 3) / 4 ≠ 0 := by omega
      rw [hround]
      simp [WritePc.rank, hwork]
  | words n =>
    cases n with
    | zero => simp [WritePc.rank]
    | succ n =>
      simp only [WritePc.pending, WritePc.rank] at hle ⊢
      grind

lemma Writing.none_of_rank (h : Writing sg mem s) (hrank : s.rank sg = 0) :
    s.pio.active = .none := by
  have hle := h.at_pos.le_sum
  rw [Writer.rank] at hrank
  cases hpc : s.pc with
  | idle =>
    rw [hpc, WritePc.rank] at hrank
    grind
  | top =>
    rw [hpc, WritePc.rank] at hrank
    omega
  | words n =>
    rw [hpc, WritePc.rank] at hrank
    rw [hpc, WritePc.pending] at hle
    grind

/-- Whatever the levels of the FIFO, the words that have been written are the contents of the
segments from their beginning, no batch is larger than the room that was found, and the transfer
ends only with everything written. It does end if there is room for long enough. -/
theorem pioWrite_correct (sg : List Nat) (hsg : ∀ n ∈ sg, 0 < n) (hwords : ∀ n ∈ sg, 4 ∣ n)
    (mem : Memory) (ptr : Ptr) (levels : List (Fin 64)) :
    let s := runFrom (Writer.step mem) (Writer.start sg ptr) levels
    s.bytes = (gather sg mem).take (4 * s.sent.length) ∧
      4 * s.batch ≤ 64 - s.level ∧
      (s.pio.active = .none → s.bytes = gather sg mem) ∧
      ∀ more : List (Fin 64), (∀ level ∈ more, level.val ≤ 59) → 2 * sg.sum + 2 ≤ more.length →
        (runFrom (Writer.step mem) s more).pio.active = .none := by
  intro s
  have h : Writing sg mem s :=
    runFrom_invariant (fun _ level h => h.step hsg hwords level) (writing_start ptr) levels
  refine ⟨h.bytes_eq, (Nat.le_add_right _ _).trans h.room, h.all_of_none, ?_⟩
  intro more hroom hlong
  obtain ⟨hlast, hrank⟩ := runFrom_rank (P := Writing sg mem) (Writer.rank sg)
    (fun t level hlevel ht =>
      ⟨ht.step hsg hwords level, ht.rank_step hsg hwords (hroom level hlevel)⟩)
    h ((s.rank_le sg).trans hlong)
  exact hlast.none_of_rank hrank

/-- Two segments and a FIFO that gets fuller. -/
theorem twoSegments_pioWrite :
    let s := runFrom (Writer.step fun i j => BitVec.ofNat 8 (8 * i + j))
      (Writer.start [4, 8] ⟨0, 0⟩) [0, 10, 20, 30, 40, 50, 60]
    4 * s.batch ≤ 64 - s.level :=
  (pioWrite_correct [4, 8] (by decide) (by decide) _ _ _).2.1

end Mini2440.Mmc
