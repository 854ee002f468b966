import Mini2440.Library.Memory
import Mini2440.Library.Words

/-!
# Records of the kernel log

`struct log` as it lies in the log buffer: a header of sixteen bytes, the text, the dictionary and
the padding. `log_store` fills one in with a series of writes; what the fields of a header say is
decoded from the bytes, whatever they are.
-/

namespace Mini2440.Printk

open List BitVec Library

/-- The bytes of the log buffer, by their offset from `log_buf`. -/
abbrev Buffer := Nat → Byte

def sizeofLog : Nat := 16

/-- What a record says: the fields of `struct log`, the text and the dictionary. -/
@[ext] structure Msg where
  tsNsec : Nat
  len : Nat
  textLen : Nat
  dictLen : Nat
  facility : Nat
  flags : Nat
  level : Nat
  text : List Byte
  dict : List Byte
  deriving DecidableEq

/-- A `u16` of the buffer. -/
def u16At (buf : Buffer) (a : Nat) : Nat := leNat (readBlock buf a 2)

/-- `msg->len` of the header at `a`. -/
def lenAt (buf : Buffer) (a : Nat) : Nat := u16At buf (a + 8)

def logText (a : Nat) : Nat := a + sizeofLog

/-- `log_dict(msg)`, for a text of this length. -/
def logDict (a textLen : Nat) : Nat := a + sizeofLog + textLen

/-- The record at `a`. The flags are the low five bits of their byte, the level the others. -/
def msgAt (buf : Buffer) (a : Nat) : Msg where
  tsNsec := leNat (readBlock buf a 8)
  len := lenAt buf a
  textLen := u16At buf (a + 10)
  dictLen := u16At buf (a + 12)
  facility := (buf (a + 14)).toNat
  flags := (buf (a + 15)).toNat % 32
  level := (buf (a + 15)).toNat / 32
  text := readBlock buf (logText a) (u16At buf (a + 10))
  dict := readBlock buf (logDict a (u16At buf (a + 10))) (u16At buf (a + 12))

lemma u16At_congr {buf buf' : Buffer} {a : Nat}
    (h : ∀ i, a ≤ i → i < a + 2 → buf' i = buf i) : u16At buf' a = u16At buf a :=
  congrArg leNat (readBlock_congr h)

lemma msgAt_congr {buf buf' : Buffer} {a b : Nat}
    (hb : a + sizeofLog + (msgAt buf a).textLen + (msgAt buf a).dictLen ≤ b)
    (h : ∀ i, a ≤ i → i < b → buf' i = buf i) : msgAt buf' a = msgAt buf a := by
  simp only [msgAt, sizeofLog] at hb
  have htextLen : u16At buf' (a + 10) = u16At buf (a + 10) :=
    u16At_congr fun i _ _ => h i (by omega) (by omega)
  have hdictLen : u16At buf' (a + 12) = u16At buf (a + 12) :=
    u16At_congr fun i _ _ => h i (by omega) (by omega)
  have hlen : lenAt buf' a = lenAt buf a := u16At_congr fun i _ _ => h i (by omega) (by omega)
  apply Msg.ext
  case tsNsec => exact congrArg leNat (readBlock_congr fun i _ _ => h i (by omega) (by omega))
  case len => exact hlen
  case textLen => exact htextLen
  case dictLen => exact hdictLen
  case facility => simp only [msgAt, h (a + 14) (by omega) (by omega)]
  case flags => simp only [msgAt, h (a + 15) (by omega) (by omega)]
  case level => simp only [msgAt, h (a + 15) (by omega) (by omega)]
  case text =>
    simp only [msgAt, htextLen, logText, sizeofLog]
    exact readBlock_congr fun i _ _ => h i (by omega) (by omega)
  case dict =>
    simp only [msgAt, htextLen, hdictLen, logDict, sizeofLog]
    exact readBlock_congr fun i _ _ => h i (by omega) (by omega)

/-! ## Storing a record -/

/-- The arguments of `log_store`, and the time that `local_clock()` returns to it. -/
structure Args where
  facility : Int
  level : Int
  flags : Nat
  tsNsec : Nat
  clock : Nat
  dict : List Byte
  text : List Byte
  /-- An `or` of the four members of `enum log_flags`. -/
  flags_lt : flags < 16
  tsNsec_lt : tsNsec < 2 ^ 64
  clock_lt : clock < 2 ^ 64
  dict_lt : dict.length < 2 ^ 16
  text_lt : text.length < 2 ^ 16

namespace Args

variable (align : Nat) (r : Args)

/-- `pad_len = (-size) & (LOG_ALIGN - 1)`. -/
def padLen : Nat :=
  (-BitVec.ofNat 32 (sizeofLog + r.text.length + r.dict.length) &&&
    BitVec.ofNat 32 (align - 1)).toNat

def size : Nat := sizeofLog + r.text.length + r.dict.length + r.padLen align

def stamp : Nat := if 0 < r.tsNsec then r.tsNsec else r.clock

def msg : Msg where
  tsNsec := r.stamp
  len := r.size align % 2 ^ 16
  textLen := r.text.length
  dictLen := r.dict.length
  facility := (r.facility % 256).toNat
  flags := r.flags
  level := (r.level % 8).toNat
  text := r.text
  dict := r.dict

variable {align}

lemma padLen_le (h : align ≤ 8) : r.padLen align ≤ 7 := by
  have hmask : r.padLen align ≤ (BitVec.ofNat 32 (align - 1)).toNat := by
    exact Nat.and_le_right
  rw [toNat_ofNat] at hmask
  omega

lemma le_size (align : Nat) : sizeofLog + r.text.length + r.dict.length ≤ r.size align :=
  Nat.le_add_right _ _

lemma size_le (h : align ≤ 8) : r.size align ≤ 2 ^ 18 := by
  have := r.padLen_le h
  have := r.text_lt
  have := r.dict_lt
  simp only [size, sizeofLog]
  omega

lemma stamp_lt : r.stamp < 2 ^ 64 := by
  unfold stamp
  split
  · exact r.tsNsec_lt
  · exact r.clock_lt

end Args

/-- `msg->level = level & 7`, in the byte that the flags share. -/
def setLevel (b : Byte) (level : Nat) : Byte := BitVec.ofNat 8 (b.toNat % 32 + 32 * level)

/-- `msg->flags = flags`, in the byte that the level shares. -/
def setFlags (b : Byte) (flags : Nat) : Byte := BitVec.ofNat 8 (b.toNat / 32 * 32 + flags)

lemma toNat_setFlags_setLevel (b : Byte) {level flags : Nat} (hl : level < 8)
    (hf : flags < 32) : (setFlags (setLevel b level) flags).toNat = 32 * level + flags := by
  simp only [setFlags, setLevel, toNat_ofNat]
  omega

/-- The writes that fill in the record at `a`, in their order. -/
def fillWrites (align : Nat) (r : Args) (buf : Buffer) (a : Nat) : List (Nat × List Byte) :=
  let bits := setLevel (buf (a + 15)) (r.level % 8).toNat
  [(logText a, r.text),
    (a + 10, natBytes 2 r.text.length),
    (logDict a r.text.length, r.dict),
    (a + 12, natBytes 2 r.dict.length),
    (a + 14, [BitVec.ofInt 8 r.facility]),
    (a + 15, [bits]),
    (a + 15, [setFlags bits (r.flags % 32)]),
    (a, natBytes 8 r.stamp),
    (logDict a r.text.length + r.dict.length, List.replicate (r.padLen align) 0),
    (a + 8, natBytes 2 (r.size align))]

lemma fillWrites_inside {align : Nat} {r : Args} {buf : Buffer} {a : Nat} :
    ∀ w ∈ fillWrites align r buf a, a ≤ w.1 ∧ w.1 + w.2.length ≤ a + r.size align := by
  simp only [fillWrites, logText, logDict, Args.size, sizeofLog, List.forall_mem_cons,
    length_natBytes, length_replicate, length_singleton, not_mem_nil,
    false_implies, implies_true, and_true]
  omega

lemma readBlock_fill (align : Nat) (r : Args) (buf : Buffer) (a : Nat) :
    let buf' := writeAll buf (fillWrites align r buf a)
    readBlock buf' a 8 = natBytes 8 r.stamp ∧
      readBlock buf' (a + 8) 2 = natBytes 2 (r.size align) ∧
      readBlock buf' (a + 10) 2 = natBytes 2 r.text.length ∧
      readBlock buf' (a + 12) 2 = natBytes 2 r.dict.length ∧
      readBlock buf' (a + 14) 1 = [BitVec.ofInt 8 r.facility] ∧
      readBlock buf' (a + 15) 1 =
        [setFlags (setLevel (buf (a + 15)) (r.level % 8).toNat) (r.flags % 32)] ∧
      readBlock buf' (logText a) r.text.length = r.text ∧
      readBlock buf' (logDict a r.text.length) r.dict.length = r.dict := by
  refine ⟨readBlock_writeAll (k := 7) rfl rfl ?_, readBlock_writeAll (k := 9) rfl rfl ?_,
    readBlock_writeAll (k := 1) rfl rfl ?_, readBlock_writeAll (k := 3) rfl rfl ?_,
    readBlock_writeAll (k := 4) rfl rfl ?_, readBlock_writeAll (k := 6) rfl rfl ?_,
    readBlock_writeAll (k := 0) rfl rfl ?_, readBlock_writeAll (k := 2) rfl rfl ?_⟩
  all_goals
    simp only [fillWrites, logText, logDict, sizeofLog, drop_succ_cons, drop_zero,
      drop_nil, forall_mem_cons, length_natBytes, length_replicate,
      length_singleton, not_mem_nil, false_implies, implies_true, and_true]
  all_goals omega

/-- The record that is filled in says what `log_store` was given. -/
lemma msgAt_fill (align : Nat) (r : Args) (buf : Buffer) (a : Nat) :
    msgAt (writeAll buf (fillWrites align r buf a)) a = r.msg align := by
  obtain ⟨hstamp, hlen, htextLen, hdictLen, hfacility, hbits, htext, hdict⟩ :=
    readBlock_fill align r buf a
  rw [readBlock_one, singleton_inj] at hfacility hbits
  have hlt := r.flags_lt
  have hlevel : (r.level % 8).toNat < 8 := by omega
  have hbyte := toNat_setFlags_setLevel (buf (a + 15)) hlevel (Nat.mod_lt r.flags (by decide))
  rw [← hbits] at hbyte
  have htextLen' := congrArg leNat htextLen
  have hdictLen' := congrArg leNat hdictLen
  rw [leNat_natBytes, Nat.mod_eq_of_lt (b := 256 ^ 2) r.text_lt] at htextLen'
  rw [leNat_natBytes, Nat.mod_eq_of_lt (b := 256 ^ 2) r.dict_lt] at hdictLen'
  apply Msg.ext
  case tsNsec =>
    simp only [msgAt, hstamp, leNat_natBytes]
    exact Nat.mod_eq_of_lt r.stamp_lt
  case len =>
    simp only [msgAt, lenAt, u16At, hlen, leNat_natBytes]
    rfl
  case textLen => exact htextLen'
  case dictLen => exact hdictLen'
  case facility =>
    simp only [msgAt, hfacility]
    rfl
  case flags =>
    simp only [msgAt, Args.msg]
    omega
  case level =>
    simp only [msgAt, Args.msg]
    omega
  case text =>
    simp only [msgAt, u16At, htextLen']
    exact htext
  case dict =>
    simp only [msgAt, u16At, htextLen', hdictLen']
    exact hdict

end Mini2440.Printk
