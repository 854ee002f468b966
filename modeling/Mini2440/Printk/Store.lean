import Mini2440.Library.Run
import Mini2440.Printk.Ring

/-!
# Whole runs of the log buffer

`log_store` keeps the layout of the ring, drops records from its front only and leaves the readers'
indices as they are, unless the buffer runs empty and the new record, stored at the start of the
buffer, reaches over the end of buffer marker that was just written, or the record's length does
not fit into its `u16`.
-/

namespace Mini2440.Printk

open List Library

variable {c : Config} {s : Log} {r : Args} {up lo : List Args} {n i : Nat}

/-! ## Dropping records -/

/-- What the loop does to the state: it drops `d` records. -/
structure Dropped (s s' : Log) (live live' : List Args) (d : Nat) : Prop where
  buf : s'.buf = s.buf
  nextIdx : s'.nextIdx = s.nextIdx
  nextSeq : s'.nextSeq = s.nextSeq
  firstSeq : s'.firstSeq = s.firstSeq + d
  firstIdx : s'.firstIdx = walk s.buf d s.firstIdx
  le : d ≤ live.length
  live : live' = live.drop d

lemma Dropped.refl (s : Log) (live : List Args) : Dropped s s live live 0 :=
  ⟨rfl, rfl, rfl, rfl, rfl, Nat.zero_le _, rfl⟩

namespace Ring

lemma dropFirst (h : Ring c s up lo) (hne : up ++ lo ≠ []) :
    ∃ up' lo', Ring c (dropFirst s) up' lo' ∧ up' ++ lo' = (up ++ lo).tail := by
  have hle := c.bufLen_le
  have hup := h.upper_le
  have hlo := h.lower_le
  cases up with
  | cons r up =>
    rw [total_cons] at hup
    have hnext : logNext s.buf s.firstIdx = s.firstIdx + r.size c.align :=
      h.upper.logNext_eq (by omega)
    refine ⟨up, lo, ⟨?_, h.lower, ?_, ?_, h.room, ?_, h.seq_lt⟩, rfl⟩
    · simp only [Printk.dropFirst, hnext]
      exact h.upper.2
    · intro hnil
      simp only [Printk.dropFirst, hnext]
      rw [h.straight hnil, total_cons, add_assoc]
    · intro hcons
      obtain ⟨htotal, hbelow, hmark, hend⟩ := h.wrapped hcons
      rw [total_cons, ← add_assoc] at hmark hend
      simp only [Printk.dropFirst, hnext]
      bv_omega
    · have := h.seq
      simp only [length_cons] at this
      simp only [Printk.dropFirst]
      omega
  | nil =>
    cases lo with
    | nil => exact absurd rfl hne
    | cons r lo =>
      -- The first index is at the marker, so the record at the start of the buffer is dropped.
      obtain ⟨htotal, hbelow, hmark, hend⟩ := h.wrapped (cons_ne_nil r lo)
      rw [total_nil, add_zero] at hmark hend
      rw [total_cons] at htotal hlo
      have hnext : logNext s.buf s.firstIdx = r.size c.align := by
        rw [logNext_marker hmark h.lower, h.lower.logNext_eq (by omega), zero_add]
      refine ⟨lo, [], ⟨?_, trivial, ?_, fun hne => absurd rfl hne, h.room, ?_, h.seq_lt⟩, ?_⟩
      · simp only [Printk.dropFirst, hnext]
        have := h.lower.2
        rwa [zero_add] at this
      · intro _
        simp only [Printk.dropFirst, hnext]
        exact htotal
      · have := h.seq
        simp only [length_cons, length_nil] at this ⊢
        simp only [Printk.dropFirst]
        omega
      · simp

/-- The loop ends with an empty ring or with enough space. -/
lemma dropLoop (h : Ring c s up lo) (hn : n = up.length + lo.length) :
    ∃ up' lo' d, Ring c (dropLoop c r n s) up' lo' ∧
      Dropped s (Printk.dropLoop c r n s) (up ++ lo) (up' ++ lo') d ∧
      (up' ++ lo' = [] ∨
        r.size c.align + sizeofLog < freeSpace c (Printk.dropLoop c r n s)) := by
  induction n generalizing s up lo with
  | zero =>
    have hnil : up ++ lo = [] := by
      rw [← length_eq_zero_iff, length_append]
      exact hn.symm
    exact ⟨up, lo, 0, h, .refl s _, .inl hnil⟩
  | succ n ih =>
    have hseq := h.seq
    rw [Printk.dropLoop, if_pos (by omega)]
    split
    case isTrue hfree => exact ⟨up, lo, 0, h, .refl s _, .inr hfree⟩
    case isFalse =>
      have hne : up ++ lo ≠ [] := by
        rw [← length_pos_iff, length_append]
        omega
      obtain ⟨up₁, lo₁, h₁, htail⟩ := h.dropFirst hne
      have hlen := congrArg length htail
      rw [length_append, length_tail, length_append] at hlen
      obtain ⟨up', lo', d, h', hd, hend⟩ := ih h₁ (by omega)
      refine ⟨up', lo', d + 1, h', ?_, hend⟩
      refine { hd with firstSeq := ?_, le := ?_, live := ?_ }
      · rw [hd.firstSeq]
        simp only [Printk.dropFirst]
        omega
      · have := hd.le
        rw [length_append] at this ⊢
        omega
      · rw [hd.live, htail, drop_tail]

end Ring

/-! ## Inserting a record -/

lemma wraps_iff (h : s.nextIdx ≤ c.bufLen) :
    wraps c s r ↔ c.bufLen ≤ s.nextIdx + r.size c.align + sizeofLog := by
  have hle := c.bufLen_le
  have hsize := r.size_le c.align_le
  rw [wraps, decide_eq_true_iff, Nat.mod_eq_of_lt (by simp only [sizeofLog]; omega)]

lemma insert_buf : (insert c s r).buf =
    writeAll (writeAll s.buf (markWrites c s r))
      (fillWrites c.align r (writeAll s.buf (markWrites c s r)) (storeIdx c s r)) :=
  writeAll_append _ _

lemma msgAt_insert : msgAt (insert c s r).buf (storeIdx c s r) = r.msg c.align := by
  rw [insert_buf]
  exact msgAt_fill _ _ _ _

lemma insert_at (hlen : r.size c.align < 2 ^ 16) (hstore : storeIdx c s r = i)
    (hi : i ≤ c.bufLen) : (msgAt (insert c s r).buf i = r.msg c.align ∧ r.size c.align < 2 ^ 16) ∧
      (insert c s r).nextIdx = i + r.size c.align := by
  subst hstore
  have hle := c.bufLen_le
  have hmsg := msgAt_insert (c := c) (s := s) (r := r)
  have hsize : lenAt (insert c s r).buf (storeIdx c s r) = r.size c.align :=
    (congrArg Msg.len hmsg).trans (Nat.mod_eq_of_lt hlen)
  refine ⟨⟨hmsg, hlen⟩, ?_⟩
  change (storeIdx c s r + lenAt (insert c s r).buf _) % 2 ^ 32 = _
  rw [hsize, Nat.mod_eq_of_lt (by omega)]

/-- The bytes outside the record, and outside the marker if there is one, are as before. -/
lemma insert_buf_outside (hrecord : i < storeIdx c s r ∨ storeIdx c s r + r.size c.align ≤ i)
    (hmark : wraps c s r → i < s.nextIdx ∨ s.nextIdx + sizeofLog ≤ i) :
    (insert c s r).buf i = s.buf i := by
  rw [insert_buf, writeAll_outside, writeAll_outside]
  · intro w hw
    unfold markWrites at hw
    split at hw
    case isTrue hwraps =>
      rw [mem_singleton] at hw
      subst hw
      simpa using hmark hwraps
    case isFalse => simp at hw
  · intro w hw
    have := fillWrites_inside w hw
    omega

/-- The marker is there, unless the record has been written over it. -/
lemma lenAt_marker (hwraps : wraps c s r) (hsize : r.size c.align ≤ s.nextIdx) :
    lenAt (insert c s r).buf s.nextIdx = 0 := by
  have hstore : storeIdx c s r = 0 := if_pos hwraps
  have hmark : markWrites c s r = [(s.nextIdx, replicate sizeofLog 0)] := if_pos hwraps
  have hbyte {i : Nat} (hi : i < sizeofLog) : (insert c s r).buf (s.nextIdx + i) = 0 := by
    rw [insert_buf, writeAll_outside]
    · rw [hmark, writeAll_cons, writeAll_nil, writeBlock_inside (by simpa using hi)]
      simp
    · intro w hw
      have := fillWrites_inside w hw
      omega
  have hblock : readBlock (insert c s r).buf (s.nextIdx + 8) 2 = [0, 0] := by
    have h₈ := hbyte (i := 8) (by decide)
    have h₉ := hbyte (i := 9) (by decide)
    simp [readBlock, range_succ, h₈, h₉]
  rw [lenAt, u16At, hblock]
  rfl

/-- The text, the dictionary and the padding of the record plus two headers are less than the
buffer. -/
def Small (c : Config) (r : Args) : Prop := r.size c.align + sizeofLog < c.bufLen

/-- The length fits into `msg->len`; if the record has to be stored at the start of the buffer, it
does not reach over the marker; and the sequence number does not wrap around. -/
structure Kept (c : Config) (s : Log) (r : Args) : Prop where
  len : r.size c.align < 2 ^ 16
  marker : s.nextIdx + r.size c.align + sizeofLog < c.bufLen ∨ r.size c.align ≤ s.nextIdx
  seq : s.nextSeq + 1 < 2 ^ 64

namespace Ring

lemma nextIdx_le (h : Ring c s up lo) : s.nextIdx ≤ c.bufLen := by
  have := h.room
  omega

/-- Once there is enough space, a record that wraps finds all the live ones above it. -/
lemma above_of_wraps (h : Ring c s up lo) (small : Small c r) (kept : Kept c s r)
    (space : up ++ lo = [] ∨ r.size c.align + sizeofLog < freeSpace c s)
    (hwraps : c.bufLen ≤ s.nextIdx + r.size c.align + sizeofLog) :
    lo = [] ∧ r.size c.align ≤ s.firstIdx ∧ s.nextIdx + sizeofLog < c.bufLen := by
  have hroom : s.nextIdx + sizeofLog < c.bufLen := by
    have := h.room
    unfold Small at small
    omega
  have hkept : r.size c.align ≤ s.nextIdx := by
    have := kept.marker
    omega
  by_cases hlo : lo = []
  · refine ⟨hlo, ?_, hroom⟩
    have hnext := h.straight hlo
    cases up with
    | nil =>
      rw [total_nil] at hnext
      omega
    | cons r' up =>
      have hfree := space.resolve_left (by simp)
      have := size_pos (c := c) (r := r')
      rw [total_cons] at hnext
      rw [freeSpace, if_pos (by omega)] at hfree
      omega
  · obtain ⟨htotal, hbelow, -, hend⟩ := h.wrapped hlo
    have hfree := space.resolve_left (by simp [hlo])
    rw [freeSpace, if_neg (by omega)] at hfree
    omega

lemma insert_nextSeq (kept : Kept c s r) : (Printk.insert c s r).nextSeq = s.nextSeq + 1 :=
  Nat.mod_eq_of_lt kept.seq

lemma insert_seq (h : Ring c s up lo) (kept : Kept c s r) (hn : n = up.length + lo.length + 1) :
    (Printk.insert c s r).firstSeq + n = (Printk.insert c s r).nextSeq := by
  rw [insert_nextSeq kept, ← h.seq, hn]
  rfl

/-- The record goes to the start of the buffer, behind the marker; the others stay above it. -/
lemma insert_wraps (h : Ring c s up []) (small : Small c r) (kept : Kept c s r)
    (hwraps : wraps c s r) (habove : r.size c.align ≤ s.firstIdx)
    (hroom : s.nextIdx + sizeofLog < c.bufLen) : Ring c (Printk.insert c s r) up [r] := by
  have hstore : storeIdx c s r = 0 := if_pos hwraps
  have hend := h.straight rfl
  obtain ⟨hmsg, hnext⟩ := insert_at kept.len hstore (Nat.zero_le _)
  rw [zero_add] at hnext
  refine ⟨?_, ⟨hmsg, trivial⟩, by simp, fun _ => ⟨?_, ?_, ?_, ?_⟩, ?_,
    h.insert_seq kept rfl, insert_nextSeq kept ▸ kept.seq⟩
  · refine h.upper.congr fun i hi hi' => ?_
    exact insert_buf_outside (by omega) (by omega)
  · rw [hnext]
    simp
  · rw [hnext]
    exact habove
  · change lenAt _ (s.firstIdx + total c up) = 0
    rw [← hend]
    exact lenAt_marker hwraps (by omega)
  · change s.firstIdx + total c up + sizeofLog ≤ c.bufLen
    omega
  · rw [hnext]
    exact .inr small

/-- The record goes behind the last one of a ring that has not wrapped. -/
lemma insert_straight (h : Ring c s up []) (kept : Kept c s r) (hwraps : ¬ wraps c s r)
    (hfits : s.nextIdx + r.size c.align + sizeofLog < c.bufLen) :
    Ring c (Printk.insert c s r) (up ++ [r]) [] := by
  have hstore : storeIdx c s r = s.nextIdx := if_neg hwraps
  have hend := h.straight rfl
  obtain ⟨hmsg, hnext⟩ := insert_at kept.len hstore (by omega)
  refine ⟨seg_append.mpr ⟨?_, ⟨hend ▸ hmsg, trivial⟩⟩, trivial, ?_, fun h => absurd rfl h, ?_,
    h.insert_seq kept (by simp), insert_nextSeq kept ▸ kept.seq⟩
  · refine h.upper.congr fun i hi hi' => ?_
    exact insert_buf_outside (by omega) fun hw => absurd hw hwraps
  · rw [hnext, hend]
    simp [Printk.insert, add_assoc]
  · rw [hnext]
    exact .inr hfits

section

variable (h : Ring c s up lo)

include h

/-- The record goes between the records at the start of the buffer and the first one. -/
lemma insert_between (kept : Kept c s r) (hlo : lo ≠ []) (hwraps : ¬ wraps c s r)
    (hfits : s.nextIdx + r.size c.align + sizeofLog < s.firstIdx) :
    Ring c (Printk.insert c s r) up (lo ++ [r]) := by
  have hstore : storeIdx c s r = s.nextIdx := if_neg hwraps
  obtain ⟨htotal, hbelow, hmark, hend⟩ := h.wrapped hlo
  obtain ⟨hmsg, hnext⟩ := insert_at kept.len hstore h.nextIdx_le
  have hsame {i : Nat} (hi : i < s.nextIdx ∨ s.firstIdx ≤ i) :
      (Printk.insert c s r).buf i = s.buf i :=
    insert_buf_outside (by omega) fun hw => absurd hw hwraps
  refine ⟨h.upper.congr fun i hi _ => hsame (.inr hi), ?_, by simp, fun _ => ⟨?_, ?_, ?_, hend⟩,
    ?_, h.insert_seq kept (by simp [add_assoc]), insert_nextSeq kept ▸ kept.seq⟩
  · rw [seg_append, zero_add, ← htotal]
    exact ⟨h.lower.congr fun i _ hi => hsame (.inl (by omega)), ⟨hmsg, trivial⟩⟩
  · rw [hnext, htotal]
    simp
  · change _ ≤ s.firstIdx
    omega
  · rw [← hmark]
    refine u16At_congr fun i hi _ => hsame (.inr ?_)
    change s.firstIdx + total c up + 8 ≤ i at hi
    omega
  · omega

lemma insert (small : Small c r) (kept : Kept c s r)
    (space : up ++ lo = [] ∨ r.size c.align + sizeofLog < freeSpace c s) :
    ∃ up' lo', Ring c (Printk.insert c s r) up' lo' ∧ up' ++ lo' = up ++ lo ++ [r] ∧
      up <+: up' ∧ lo <+: lo' ∧ (lo ≠ [] → up' = up) := by
  have hiff := wraps_iff (r := r) h.nextIdx_le
  by_cases hwraps : wraps c s r
  · obtain ⟨rfl, habove, hroom⟩ := h.above_of_wraps small kept space (hiff.mp hwraps)
    exact ⟨up, [r], h.insert_wraps small kept hwraps habove hroom, by simp, prefix_refl up,
      nil_prefix, fun h => absurd rfl h⟩
  · have hfits := mt hiff.mpr hwraps
    by_cases hlo : lo = []
    · subst hlo
      exact ⟨up ++ [r], [], h.insert_straight kept hwraps (by omega), by simp,
        prefix_append up [r], prefix_refl [], fun h => absurd rfl h⟩
    · have hbelow := (h.wrapped hlo).2.1
      have hfree := space.resolve_left (by simp [hlo])
      rw [freeSpace, if_neg (by omega)] at hfree
      exact ⟨up, lo ++ [r], h.insert_between kept hlo hwraps (by omega), by simp,
        prefix_refl up, prefix_append lo [r], fun _ => rfl⟩

lemma storeWrites_inside (small : Small c r) :
    ∀ w ∈ storeWrites c s r, w.1 + w.2.length ≤ c.bufLen := by
  have hiff := wraps_iff (r := r) h.nextIdx_le
  have hroom := h.room
  unfold Small at small
  intro w hw
  by_cases hwraps : wraps c s r
  · rw [storeWrites, markWrites, if_pos hwraps, storeIdx, if_pos hwraps, mem_append,
      mem_singleton] at hw
    obtain rfl | hw := hw
    · simp only [length_replicate]
      omega
    · have := (fillWrites_inside w hw).2
      omega
  · have hfits := mt hiff.mpr hwraps
    rw [storeWrites, markWrites, if_neg hwraps, storeIdx, if_neg hwraps] at hw
    have := (fillWrites_inside w hw).2
    omega

/-- A call of `log_store` drops `d` records, adds its own and does not move the others. -/
lemma logStore (small : Small c r) (kept : Kept c s r) :
    ∃ up' lo' d, Ring c (logStore c s r) up' lo' ∧ d ≤ (up ++ lo).length ∧
      up' ++ lo' = (up ++ lo).drop d ++ [r] ∧
      (Printk.logStore c s r).firstSeq = s.firstSeq + d ∧
      ∀ n, n + d ≤ (up ++ lo).length →
        walk (Printk.logStore c s r).buf n (Printk.logStore c s r).firstIdx =
          walk s.buf (d + n) s.firstIdx := by
  obtain ⟨up₁, lo₁, d, h₁, hd, space⟩ := h.dropLoop (r := r) (n := s.nextSeq - s.firstSeq) (by
    have := h.seq
    omega)
  change Ring c (dropOld c s r) up₁ lo₁ at h₁
  have kept₁ : Kept c (dropOld c s r) r := by
    refine ⟨kept.len, ?_, ?_⟩
    · rw [dropOld, hd.nextIdx]
      exact kept.marker
    · rw [dropOld, hd.nextSeq]
      exact kept.seq
  obtain ⟨up', lo', h', hlive, hup, hlo, hwrap⟩ := h₁.insert small kept₁ space
  refine ⟨up', lo', d, h', hd.le, by rw [hlive, hd.live], hd.firstSeq, fun n hn => ?_⟩
  have hlen := congrArg length hd.live
  rw [length_append, length_drop] at hlen
  calc walk (Printk.logStore c s r).buf n (Printk.logStore c s r).firstIdx
      = walk (dropOld c s r).buf n (dropOld c s r).firstIdx :=
        h₁.walk_congr h' rfl hup hlo hwrap (by omega)
    _ = walk s.buf n (walk s.buf d s.firstIdx) := by rw [dropOld, hd.buf, hd.firstIdx]
    _ = walk s.buf (d + n) s.firstIdx := walk_add.symm

lemma writes_inside (small : Small c r) :
    ∀ w ∈ storeWrites c (dropOld c s r) r, w.1 + w.2.length ≤ c.bufLen := by
  obtain ⟨up₁, lo₁, d, h₁, -, -⟩ := h.dropLoop (r := r) (n := s.nextSeq - s.firstSeq) (by
    have := h.seq
    omega)
  exact h₁.storeWrites_inside small

end

end Ring

/-! ## Runs -/

/-- A walk over the live records reads those that were stored last, in order: of all the records
`rs` stored so far those with the sequence numbers from `log_first_seq` on. -/
structure Walks (c : Config) (rs : List Args) (s : Log) : Prop where
  le : s.firstSeq ≤ s.nextSeq
  nextSeq : s.nextSeq = rs.length
  records : records s.buf (s.nextSeq - s.firstSeq) s.firstIdx =
    (rs.drop s.firstSeq).map (Args.msg c.align)

/-- A reader at index `idx`, for the sequence number `seq`, reads the records with the sequence
numbers from there on. -/
def Valid (c : Config) (rs : List Args) (s : Log) (seq idx : Nat) : Prop :=
  records s.buf (s.nextSeq - seq) idx = (rs.drop seq).map (Args.msg c.align)

def Holds (c : Config) (rs : List Args) (s : Log) : Prop :=
  ∃ up lo, Ring c s up lo ∧ s.nextSeq = rs.length ∧ rs.drop s.firstSeq = up ++ lo

/-- The reader's index is on the way from the first record to the last one, if its record has not
been dropped. -/
def OnWay (s : Log) (seq idx : Nat) : Prop :=
  s.firstSeq ≤ seq → seq ≤ s.nextSeq ∧ idx = walk s.buf (seq - s.firstSeq) s.firstIdx

def Admitted (c : Config) (s : Log) (r : Args) : Prop := Small c r ∧ Kept c s r

variable {rs rs' : List Args} {seq idx : Nat}

lemma Ring.boot (c : Config) (buf : Buffer) : Ring c (.boot buf) [] [] :=
  ⟨trivial, trivial, fun _ => rfl, fun h => absurd rfl h, .inl rfl, rfl, Nat.two_pow_pos 64⟩

lemma Holds.boot (c : Config) (buf : Buffer) : Holds c [] (.boot buf) :=
  ⟨[], [], .boot c buf, rfl, rfl⟩

lemma Holds.logStore (h : Holds c rs s) (adm : Admitted c s r) :
    Holds c (rs ++ [r]) (logStore c s r) := by
  obtain ⟨up, lo, hring, hlen, hlive⟩ := h
  obtain ⟨up', lo', d, hring', hd, hlive', hfirst, -⟩ := hring.logStore adm.1 adm.2
  have hcount := congrArg length hlive
  rw [length_drop] at hcount
  have hseq := hring.seq
  rw [length_append] at hcount hd
  have hseq' := hring'.seq
  have hcount' := congrArg length hlive'
  rw [length_append, length_append, length_drop, length_append, length_singleton] at hcount'
  refine ⟨up', lo', hring', ?_, ?_⟩
  · rw [length_append, length_singleton]
    omega
  · rw [hlive', hfirst, drop_append_of_le_length (by omega), ← drop_drop, hlive]

lemma OnWay.logStore (h : Holds c rs s) (way : OnWay s seq idx) (adm : Admitted c s r) :
    OnWay (logStore c s r) seq idx := by
  obtain ⟨up, lo, hring, hlen, hlive⟩ := h
  obtain ⟨up', lo', d, hring', hd, hlive', hfirst, hwalk⟩ := hring.logStore adm.1 adm.2
  have hseq := hring.seq
  have hseq' := hring'.seq
  have hcount' := congrArg length hlive'
  rw [length_append, length_append, length_drop, length_singleton] at hcount'
  rw [length_append] at hd hcount'
  intro hle
  obtain ⟨hnext, hidx⟩ := way (by omega)
  refine ⟨by omega, ?_⟩
  rw [hwalk _ (by rw [length_append]; omega), hidx]
  congr 1
  omega

lemma Holds.run (h : Holds c rs s) (adm : Along (Printk.logStore c) (Admitted c) s rs') :
    Holds c (rs ++ rs') (runFrom (Printk.logStore c) s rs') ∧
      ∀ seq idx, OnWay s seq idx → OnWay (runFrom (Printk.logStore c) s rs') seq idx := by
  induction rs' generalizing rs s with
  | nil => exact ⟨by simpa using h, fun _ _ way => way⟩
  | cons r rs' ih =>
    obtain ⟨hrun, hway⟩ := ih (h.logStore adm.1) adm.2
    rw [append_assoc] at hrun
    exact ⟨hrun, fun seq idx way => hway seq idx (OnWay.logStore h way adm.1)⟩

lemma Holds.valid (h : Holds c rs s) (way : OnWay s seq idx) (hle : s.firstSeq ≤ seq) :
    Valid c rs s seq idx := by
  obtain ⟨up, lo, hring, hlen, hlive⟩ := h
  obtain ⟨hnext, rfl⟩ := way hle
  have hseq := hring.seq
  have hall := hring.records_eq
  rw [show up.length + lo.length = (seq - s.firstSeq) + (s.nextSeq - seq) by omega, records_add,
    ← hlive] at hall
  have hdrop := congrArg (drop (seq - s.firstSeq)) hall
  rw [drop_left' length_records, ← map_drop, drop_drop] at hdrop
  rw [Valid, hdrop]
  congr 2
  omega

lemma OnWay.walk (hn : n ≤ s.nextSeq - s.firstSeq) (hle : s.firstSeq ≤ s.nextSeq) :
    OnWay s (s.firstSeq + n) (walk s.buf n s.firstIdx) :=
  fun _ => ⟨by omega, by rw [Nat.add_sub_cancel_left]⟩

lemma Holds.walks (h : Holds c rs s) : Walks c rs s := by
  obtain ⟨up, lo, hring, hlen, hlive⟩ := id h
  have hseq := hring.seq
  have hvalid := h.valid (OnWay.walk (Nat.zero_le _) (by omega)) (by omega)
  exact ⟨by omega, hlen, hvalid⟩

/-- Along every run of admitted calls: a walk reads the records
that were stored last, the next call writes inside the buffer only, and the position of every
reader stays valid in all that follows until its record is dropped. -/
theorem logStore_run (c : Config) (buf : Buffer) (rs rs' : List Args)
    (adm : Along (logStore c) (Admitted c) (.boot buf) (rs ++ rs')) :
    let s := runFrom (logStore c) (.boot buf) rs
    let s' := runFrom (logStore c) (.boot buf) (rs ++ rs')
    Walks c rs s ∧
      (∀ r ∈ rs'.head?, ∀ w ∈ storeWrites c (dropOld c s r) r, w.1 + w.2.length ≤ c.bufLen) ∧
      ∀ n ≤ s.nextSeq - s.firstSeq, s'.firstSeq ≤ s.firstSeq + n →
        Valid c (rs ++ rs') s' (s.firstSeq + n) (walk s.buf n s.firstIdx) := by
  intro s s'
  obtain ⟨adm₁, adm₂⟩ := along_append.mp adm
  have hs : Holds c rs s := ((Holds.boot c buf).run adm₁).1
  obtain ⟨hs', hway⟩ := hs.run adm₂
  rw [← runFrom_append] at hs' hway
  refine ⟨hs.walks, ?_, fun n hn hle => ?_⟩
  · intro r hr
    obtain ⟨up, lo, hring, -, -⟩ := hs
    cases rs' with
    | nil => simp at hr
    | cons r' rs' =>
      obtain rfl : r' = r := by simpa using hr
      exact hring.writes_inside adm₂.1.1
  · exact hs'.valid (hway _ _ (OnWay.walk hn hs.walks.le)) hle

/-! ## A buffer of 4096 bytes -/

/-- A record with a text of one byte and a dictionary of `n`. -/
def withDict (n : Nat) (h : n < 2 ^ 16) : Args where
  facility := 0
  level := 6
  flags := 2
  tsNsec := 1
  clock := 1
  dict := replicate n 0x61
  text := [0x61]
  flags_lt := by decide
  tsNsec_lt := by decide
  clock_lt := by decide
  dict_lt := by simpa using h
  text_lt := by decide

/-- The fourth of four records drops two and is stored at the start of the buffer. -/
theorem fourRecords_run :
    let r := withDict 1327 (by decide)
    let s := runFrom (logStore smallBuffer) (.boot fun _ => 0) (replicate 4 r)
    Along (logStore smallBuffer) (Admitted smallBuffer) (.boot fun _ => 0)
        (replicate 4 r ++ [r]) ∧
      Walks smallBuffer (replicate 4 r) s ∧ s.firstSeq = 2 ∧ s.firstIdx = 2688 ∧
        s.nextIdx = 1344 := by
  intro r s
  have hsmall : Small smallBuffer r := by unfold Small; decide +kernel
  have hlen : r.size 8 < 2 ^ 16 := by decide +kernel
  have adm : Along (logStore smallBuffer) (Admitted smallBuffer) (.boot fun _ => 0)
      (replicate 4 r ++ [r]) :=
    ⟨⟨hsmall, hlen, .inl (by decide +kernel), by decide +kernel⟩,
      ⟨hsmall, hlen, .inl (by decide +kernel), by decide +kernel⟩,
      ⟨hsmall, hlen, .inl (by decide +kernel), by decide +kernel⟩,
      ⟨hsmall, hlen, .inr (by decide +kernel), by decide +kernel⟩,
      ⟨hsmall, hlen, .inl (by decide +kernel), by decide +kernel⟩, trivial⟩
  exact ⟨adm, (logStore_run smallBuffer (fun _ => 0) (replicate 4 r) [r] adm).1,
    by decide +kernel, by decide +kernel, by decide +kernel⟩

/-- The second record makes the buffer run empty, has to be stored at its start and covers the
marker that was written for the wrap. The first index then leads into the middle of it. -/
theorem longRecord_covers_marker :
    let r₁ := withDict 1999 (by decide)
    let r₂ := withDict 2079 (by decide)
    (∀ r ∈ [r₁, r₂], r.size 8 + 2 * sizeofLog < smallBuffer.bufLen) ∧
      ¬ Walks smallBuffer [r₁, r₂]
        (runFrom (logStore smallBuffer) (.boot fun _ => 0) [r₁, r₂]) := by
  intro r₁ r₂
  refine ⟨by decide +kernel, fun hwalks => ?_⟩
  -- two bytes of the dictionary are read as the length of a record
  have hlens := congrArg (map Msg.len) hwalks.records
  exact absurd hlens (by decide +kernel)

end Mini2440.Printk
