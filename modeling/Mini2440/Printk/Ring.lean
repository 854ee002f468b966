import Mathlib.Algebra.GroupWithZero.Nat
import Mini2440.Printk.Record

/-!
# The log buffer

The state of the log buffer and `log_store`, which drops the oldest records until the new one fits,
wraps to the start of the buffer behind a header of length zero if it has to, and fills the record
in. A reader goes from record to record with `log_from_idx` and `log_next`.

`Ring` says where the live records are: one behind the other from `log_first_idx` on, and those
that came after the last wrap one behind the other from the start of the buffer on.
-/

namespace Mini2440.Printk

open List Library

/-- The log buffer's length, of which `log_buf_len_setup` makes a power of two in a `u32`, and
`LOG_ALIGN`. -/
structure Config where
  bufLen : Nat
  align : Nat
  bufLen_le : bufLen ≤ 2 ^ 31
  align_eq : align = 4 ∨ align = 8

/-- The smallest buffer that can be configured. -/
def smallBuffer : Config := ⟨4096, 8, by decide, .inr rfl⟩

/-- The buffer, and the index and sequence number of its first record and of the next one. -/
structure Log where
  buf : Buffer
  firstSeq : Nat
  firstIdx : Nat
  nextSeq : Nat
  nextIdx : Nat

def Log.boot (buf : Buffer) : Log := ⟨buf, 0, 0, 0, 0⟩

/-! ## Reading -/

/-- `log_from_idx(idx)`. A record of length zero is the end of buffer marker. -/
def logFromIdx (buf : Buffer) (idx : Nat) : Nat := if lenAt buf idx = 0 then 0 else idx

def logNext (buf : Buffer) (idx : Nat) : Nat :=
  if lenAt buf idx = 0 then lenAt buf 0 else (idx + lenAt buf idx) % 2 ^ 32

/-- The index that a reader at `idx` has after so many records. -/
def walk (buf : Buffer) : Nat → Nat → Nat
  | 0, idx => idx
  | n + 1, idx => walk buf n (logNext buf idx)

def records (buf : Buffer) : Nat → Nat → List Msg
  | 0, _ => []
  | n + 1, idx => msgAt buf (logFromIdx buf idx) :: records buf n (logNext buf idx)

/-! ## Storing -/

variable (c : Config) (s : Log) (r : Args)

/-- The contiguous space that is free while there are records. -/
def freeSpace : Nat :=
  if s.firstIdx < s.nextIdx then max ((c.bufLen + 2 ^ 32 - s.nextIdx) % 2 ^ 32) s.firstIdx
  else s.firstIdx - s.nextIdx

def dropFirst : Log :=
  { s with firstIdx := logNext s.buf s.firstIdx, firstSeq := s.firstSeq + 1 }

/-- The loop that drops records until there is enough contiguous space. Each round raises
`log_first_seq`, so that the difference of the sequence numbers bounds the rounds. -/
def dropLoop : Nat → Log → Log
  | 0, s => s
  | n + 1, s =>
    if s.firstSeq < s.nextSeq then
      if r.size c.align + sizeofLog < freeSpace c s then s else dropLoop n (dropFirst s)
    else s

def dropOld : Log := dropLoop c r (s.nextSeq - s.firstSeq) s

/-- The message and an additional empty header do not fit at the end of the buffer. -/
def wraps : Bool := c.bufLen ≤ (s.nextIdx + r.size c.align + sizeofLog) % 2 ^ 32

def storeIdx : Nat := if wraps c s r then 0 else s.nextIdx

/-- The empty header that signifies a wrap around. -/
def markWrites : List (Nat × List Byte) :=
  if wraps c s r then [(s.nextIdx, replicate sizeofLog 0)] else []

def storeWrites : List (Nat × List Byte) :=
  markWrites c s r ++
    fillWrites c.align r (writeAll s.buf (markWrites c s r)) (storeIdx c s r)

/-- What follows the loop: the marker, the record and the new heads. -/
def insert : Log :=
  let buf := writeAll s.buf (storeWrites c s r)
  { s with
    buf := buf
    nextIdx := (storeIdx c s r + lenAt buf (storeIdx c s r)) % 2 ^ 32
    nextSeq := (s.nextSeq + 1) % 2 ^ 64 }

def logStore : Log := insert c (dropOld c s r) r

/-! ## Where the records are -/

/-- The records lie one behind the other from `a` on. -/
def Seg (buf : Buffer) : Nat → List Args → Prop
  | _, [] => True
  | a, r :: rs =>
    (msgAt buf a = r.msg c.align ∧ r.size c.align < 2 ^ 16) ∧ Seg buf (a + r.size c.align) rs

def total (rs : List Args) : Nat := (rs.map fun r => r.size c.align).sum

/-- The live records: `up` from the first index on and `lo` from the start of the buffer on. -/
structure Ring (up lo : List Args) : Prop where
  upper : Seg c s.buf s.firstIdx up
  lower : Seg c s.buf 0 lo
  straight : lo = [] → s.nextIdx = s.firstIdx + total c up
  wrapped : lo ≠ [] → s.nextIdx = total c lo ∧ s.nextIdx ≤ s.firstIdx ∧
    lenAt s.buf (s.firstIdx + total c up) = 0 ∧ s.firstIdx + total c up + sizeofLog ≤ c.bufLen
  room : s.nextIdx = 0 ∨ s.nextIdx + sizeofLog < c.bufLen
  seq : s.firstSeq + (up.length + lo.length) = s.nextSeq
  seq_lt : s.nextSeq < 2 ^ 64

variable {c s r} {buf buf' : Buffer} {a n k : Nat} {up lo rs rs' : List Args}

lemma Config.align_le : c.align ≤ 8 := by
  have := c.align_eq
  omega

@[simp] lemma total_nil : total c [] = 0 := rfl

@[simp] lemma total_cons : total c (r :: rs) = r.size c.align + total c rs := by
  simp [total]

@[simp] lemma total_append : total c (rs ++ rs') = total c rs + total c rs' := by
  simp [total]

lemma size_pos : 0 < r.size c.align := by
  have := r.le_size c.align
  simp only [sizeofLog] at this
  omega

lemma walk_add : walk buf (n + k) a = walk buf k (walk buf n a) := by
  induction n generalizing a with
  | zero => rw [Nat.zero_add, walk]
  | succ n ih => rw [Nat.succ_add, walk, walk, ih]

lemma length_records : (records buf n a).length = n := by
  induction n generalizing a with
  | zero => rfl
  | succ n ih => rw [records, length_cons, ih]

lemma records_add : records buf (n + k) a = records buf n a ++ records buf k (walk buf n a) := by
  induction n generalizing a with
  | zero => rw [Nat.zero_add, records, walk, nil_append]
  | succ n ih => rw [Nat.succ_add, records, records, walk, ih, cons_append]

/-! ### Segments -/

lemma seg_append : Seg c buf a (rs ++ rs') ↔ Seg c buf a rs ∧ Seg c buf (a + total c rs) rs' := by
  induction rs generalizing a with
  | nil => simp [Seg]
  | cons r rs ih => simp only [cons_append, Seg, ih, total_cons, and_assoc, add_assoc]

lemma Seg.congr (h : Seg c buf a rs)
    (same : ∀ i, a ≤ i → i < a + total c rs → buf' i = buf i) : Seg c buf' a rs := by
  induction rs generalizing a with
  | nil => trivial
  | cons r rs ih =>
    obtain ⟨⟨hmsg, hsize⟩, hrest⟩ := h
    rw [total_cons] at same
    have hspace := r.le_size c.align
    refine ⟨⟨?_, hsize⟩, ih hrest fun i hi hi' => same i (by omega) (by omega)⟩
    rw [← hmsg]
    refine msgAt_congr (b := a + r.size c.align) ?_ fun i hi hi' => same i hi (by omega)
    rw [hmsg]
    simp only [Args.msg]
    omega

lemma Seg.lenAt_eq (h : Seg c buf a (r :: rs)) : lenAt buf a = r.size c.align := by
  have hlen : (msgAt buf a).len = r.size c.align % 2 ^ 16 := by rw [h.1.1]; rfl
  exact hlen.trans (Nat.mod_eq_of_lt h.1.2)

lemma Seg.lenAt_ne_zero (h : Seg c buf a (r :: rs)) : lenAt buf a ≠ 0 := by
  have := h.lenAt_eq
  have := size_pos (c := c) (r := r)
  omega

lemma Seg.logNext_eq (h : Seg c buf a (r :: rs)) (ha : a + r.size c.align < 2 ^ 32) :
    logNext buf a = a + r.size c.align := by
  rw [logNext, if_neg h.lenAt_ne_zero, h.lenAt_eq, Nat.mod_eq_of_lt ha]

lemma Seg.walk_eq (h : Seg c buf a rs) (ha : a + total c rs < 2 ^ 32) :
    walk buf rs.length a = a + total c rs := by
  induction rs generalizing a with
  | nil => rfl
  | cons r rs ih =>
    rw [total_cons] at ha
    rw [length_cons, walk, h.logNext_eq (by omega), ih h.2 (by omega), total_cons, add_assoc]

lemma Seg.records_eq (h : Seg c buf a rs) (ha : a + total c rs < 2 ^ 32) :
    records buf rs.length a = rs.map (Args.msg c.align) := by
  induction rs generalizing a with
  | nil => rfl
  | cons r rs ih =>
    rw [total_cons] at ha
    rw [length_cons, records, logFromIdx, if_neg h.lenAt_ne_zero, h.1.1,
      h.logNext_eq (by omega), ih h.2 (by omega), map_cons]

lemma Seg.walk_congr (h : Seg c buf a rs) (h' : Seg c buf' a rs)
    (ha : a + total c rs < 2 ^ 32) (hn : n ≤ rs.length) : walk buf n a = walk buf' n a := by
  rw [← take_append_drop n rs, total_append] at ha
  rw [← take_append_drop n rs, seg_append] at h h'
  have hw := h.1.walk_eq (by omega)
  have hw' := h'.1.walk_eq (by omega)
  rw [length_take, Nat.min_eq_left hn] at hw hw'
  rw [hw, hw']

/-! ### The marker -/

/-- A reader at the marker goes on as if it were at the start of the buffer. -/
lemma logNext_marker (h : lenAt buf a = 0) (h₀ : Seg c buf 0 (r :: rs)) :
    logNext buf a = logNext buf 0 := by
  have hlt := h₀.1.2
  rw [logNext, if_pos h, h₀.logNext_eq (by omega), h₀.lenAt_eq, zero_add]

lemma walk_marker (h : lenAt buf a = 0) (h₀ : Seg c buf 0 (r :: rs)) (hn : n ≠ 0) :
    walk buf n a = walk buf n 0 := by
  cases n with
  | zero => exact absurd rfl hn
  | succ n => rw [walk, walk, logNext_marker h h₀]

lemma records_marker (h : lenAt buf a = 0) (h₀ : Seg c buf 0 (r :: rs)) :
    records buf n a = records buf n 0 := by
  cases n with
  | zero => rfl
  | succ n => rw [records, records, logNext_marker h h₀, logFromIdx, if_pos h, logFromIdx, ite_self]

/-! ### Readers of the ring -/

namespace Ring

lemma upper_le (h : Ring c s up lo) : s.firstIdx + total c up ≤ c.bufLen := by
  have := h.room
  by_cases hlo : lo = []
  · have := h.straight hlo
    omega
  · have := (h.wrapped hlo).2.2.2
    omega

lemma lower_le (h : Ring c s up lo) : total c lo ≤ c.bufLen := by
  have := h.room
  by_cases hlo : lo = []
  · simp [hlo]
  · have := (h.wrapped hlo).1
    omega

/-- A walk over all the records reads exactly them and ends at the next index. -/
lemma records_eq (h : Ring c s up lo) :
    records s.buf (up.length + lo.length) s.firstIdx = (up ++ lo).map (Args.msg c.align) := by
  have hle := c.bufLen_le
  have hup := h.upper_le
  have hlo := h.lower_le
  rw [records_add, h.upper.records_eq (by omega), h.upper.walk_eq (by omega), map_append]
  cases lo with
  | nil => rfl
  | cons r lo =>
    have hmark := (h.wrapped (cons_ne_nil r lo)).2.2.1
    rw [records_marker hmark h.lower, h.lower.records_eq (by omega)]

lemma walk_congr {s' : Log} {up' lo' : List Args} (h : Ring c s up lo)
    (h' : Ring c s' up' lo') (first : s'.firstIdx = s.firstIdx)
    (hup : up <+: up') (hlo : lo <+: lo') (hwrap : lo ≠ [] → up' = up)
    (hn : n ≤ up.length + lo.length) : walk s'.buf n s'.firstIdx = walk s.buf n s.firstIdx := by
  have hle := c.bufLen_le
  have hup_le := h.upper_le
  have hlo_le := h.lower_le
  obtain ⟨up₂, rfl⟩ := hup
  obtain ⟨lo₂, rfl⟩ := hlo
  have hupper : Seg c s'.buf s.firstIdx up := by
    have := h'.upper
    rw [first, seg_append] at this
    exact this.1
  have hlower : Seg c s'.buf 0 lo := (seg_append.mp h'.lower).1
  rw [first]
  by_cases hk : n ≤ up.length
  · exact hupper.walk_congr h.upper (by omega) hk
  · obtain ⟨k, rfl⟩ := Nat.exists_eq_add_of_le (Nat.le_of_not_le hk)
    cases lo with
    | nil => simp at hn; omega
    | cons r lo =>
      have hmark := (h.wrapped (cons_ne_nil r lo)).2.2.1
      have hmark' := (h'.wrapped (by simp)).2.2.1
      rw [first, hwrap (cons_ne_nil r lo)] at hmark'
      rw [walk_add, walk_add, hupper.walk_eq (by omega), h.upper.walk_eq (by omega),
        walk_marker hmark' hlower (by omega), walk_marker hmark h.lower (by omega)]
      exact hlower.walk_congr h.lower (by omega) (by omega)

end Ring

end Mini2440.Printk
