import Mathlib.Algebra.Group.Nat.Defs
import Mathlib.Tactic.ByContra
import Mini2440.Errno
import Mini2440.Library.While
import Mini2440.Library.Words

/-!
# Flash partitions from the command line

`parse_cmdline_partitions` of `drivers/mtd/cmdlinepart.c` takes the partitions that were given for a
device, finds their places and cuts them at the end of the device. Those that become empty are taken
out of the array while it is walked. What the description of the format promises is `layout`; the
arithmetic of the code is that of 64 bits.
-/

namespace Mini2440.Mtd

open List BitVec Library

/-! ## The function -/

/-- `struct mtd_partition`. -/
structure Partition where
  name : List Byte
  size : BitVec 64
  offset : BitVec 64
  maskFlags : Word
  deriving DecidableEq, Repr

/-- `struct cmdline_mtd_partition`, where `num_parts` is the length of the list. -/
structure CmdlineMtd where
  mtdId : List Byte
  parts : List Partition
  deriving DecidableEq, Repr

def sizeRemaining : BitVec 64 := allOnes 64

def offsetContinuous : BitVec 64 := allOnes 64

structure Walk where
  i : Nat
  offset : BitVec 64
  parts : List Partition

def start (offset : BitVec 64) (p : Partition) : BitVec 64 :=
  if p.offset = offsetContinuous then offset else p.offset

def place (size offset : BitVec 64) (p : Partition) : Partition :=
  let offset := start offset p
  let psize := if p.size = sizeRemaining then size - offset else p.size
  let psize := if offset + psize > size then size - offset else psize
  { p with offset := offset, size := psize }

def walking (w : Walk) : Bool := w.i < w.parts.length

/-- One round of the loop. Taking out an entry moves those after it down, and the index stays. -/
def walkStep (size : BitVec 64) (w : Walk) : Walk :=
  match w.parts[w.i]? with
  | none => w
  | some p =>
    let p := place size w.offset p
    if p.size = 0 then { i := w.i, offset := p.offset + p.size, parts := w.parts.eraseIdx w.i }
    else { i := w.i + 1, offset := p.offset + p.size, parts := w.parts.set w.i p }

/-- `parse_cmdline_partitions` once the command line has been parsed: the result and the array that
is handed out. `copied` says whether there is memory for the copy. -/
def parseCmdlinePartitions (fuel : Nat) (partitions : List CmdlineMtd) (name : Option (List Byte))
    (size : BitVec 64) (copied : Bool) : Option (Int × List Partition) :=
  match partitions.find? fun part => name.all (part.mtdId = ·) with
  | none => some (0, [])
  | some part => do
    let w ← whileLoop walking (walkStep size) fuel { i := 0, offset := 0, parts := part.parts }
    if copied then return (w.parts.length, w.parts) else return (-ENOMEM, [])

/-! ## What is promised -/

structure Extent where
  name : List Byte
  maskFlags : Word
  offset : Nat
  size : Nat
  deriving DecidableEq, Repr

/-- The place of a partition in plain numbers: at the given offset or after the last one, with the
given size or what is left of the device. -/
def Partition.extent (flash last : Nat) (p : Partition) : Extent :=
  let offset := if p.offset = offsetContinuous then last else p.offset.toNat
  { name := p.name, maskFlags := p.maskFlags, offset := offset
    size := if p.size = sizeRemaining then flash - offset else min p.size.toNat (flash - offset) }

/-- The places of all partitions, the empty ones included. -/
def layout (flash : Nat) : Nat → List Partition → List Extent
  | _, [] => []
  | last, p :: ps =>
    let e := p.extent flash last
    e :: layout flash (e.offset + e.size) ps

def Partition.toExtent (p : Partition) : Extent :=
  { name := p.name, maskFlags := p.maskFlags, offset := p.offset.toNat, size := p.size.toNat }

/-- The partitions that are handed out are the given ones, each at its place, without the empty
ones, and they lie on the device. -/
structure FitsDevice (flash : Nat) (given returned : List Partition) : Prop where
  places : returned.map Partition.toExtent = (layout flash 0 given).filter (0 < ·.size)
  fit : ∀ p ∈ returned, 0 < p.size.toNat ∧ p.offset.toNat + p.size.toNat ≤ flash

def Reachable (flash : Nat) (p : Partition) (e : Extent) : Prop :=
  e.offset ≤ flash ∧ (p.size = sizeRemaining ∨ e.offset + p.size.toNat < 2 ^ 64)

instance (flash : Nat) (p : Partition) (e : Extent) : Decidable (Reachable flash p e) :=
  inferInstanceAs (Decidable (_ ∧ _))

def InReach (flash last : Nat) (given : List Partition) : Prop :=
  ∀ x ∈ given.zip (layout flash last given), Reachable flash x.1 x.2

instance (flash last : Nat) (given : List Partition) : Decidable (InReach flash last given) :=
  inferInstanceAs (Decidable (∀ x ∈ _, _))

/-! ## One partition -/

variable {size offset : BitVec 64} {p : Partition} {given : List Partition}

lemma extent_eq (flash : Nat) :
    p.extent flash offset.toNat =
      let o := (start offset p).toNat
      { name := p.name, maskFlags := p.maskFlags, offset := o
        size := if p.size = sizeRemaining then flash - o else min p.size.toNat (flash - o) } := by
  unfold Partition.extent start
  split <;> rfl

lemma place_of_reachable (h : Reachable size.toNat p (p.extent size.toNat offset.toNat)) :
    (place size offset p).toExtent = p.extent size.toNat offset.toNat := by
  rw [extent_eq] at h ⊢
  unfold place
  obtain ⟨hstart, hend⟩ := h
  generalize start offset p = o at hstart hend ⊢
  have hrest := toNat_sub_of_le hstart
  by_cases hremaining : p.size = sizeRemaining
  · have hcut : ¬ o + (size - o) > size := by bv_omega
    simp only [hremaining, if_true, Partition.toExtent, if_neg hcut, hrest]
  · have hsum : (o + p.size).toNat = o.toNat + p.size.toNat := by bv_omega
    simp only [hremaining, if_false, Partition.toExtent, gt_iff_lt, lt_def, hsum]
    split
    · next hcut =>
      rw [hrest, Nat.min_eq_right (by omega)]
    · next hcut => rw [Nat.min_eq_left (by omega)]

/-- The cut of a partition that does not begin on the device is a wrap around. -/
lemma place_of_not_reachable (h : ¬ Reachable size.toNat p (p.extent size.toNat offset.toNat)) :
    size.toNat < (place size offset p).offset.toNat + (place size offset p).size.toNat ∧
      (place size offset p).size ≠ 0 := by
  rw [extent_eq] at h
  unfold place
  generalize start offset p = o at h ⊢
  have hsum : (o + p.size).toNat = (o.toNat + p.size.toNat) % 2 ^ 64 := by bv_omega
  simp only [Reachable] at h
  by_cases hremaining : p.size = sizeRemaining
  · have hbeyond : size.toNat < o.toNat := by bv_omega
    simp only [hremaining, ne_eq, ← toNat_inj]
    exact ⟨by omega, by simp; omega⟩
  · simp only [hremaining, if_false, lt_def, ne_eq, ← toNat_inj]
    split
    · bv_omega
    · bv_omega

/-! ## The walk -/

def placeAll (size : BitVec 64) : BitVec 64 → List Partition → List Partition
  | _, [] => []
  | offset, p :: ps =>
    let p := place size offset p
    if p.size = 0 then placeAll size (p.offset + p.size) ps
    else p :: placeAll size (p.offset + p.size) ps

lemma walk_total (size offset : BitVec 64) (done rest : List Partition) {fuel : Nat}
    (hfuel : rest.length < fuel) :
    ∃ w, whileLoop walking (walkStep size) fuel ⟨done.length, offset, done ++ rest⟩ = some w ∧
      w.parts = done ++ placeAll size offset rest := by
  induction rest generalizing done offset fuel with
  | nil =>
    obtain ⟨fuel, rfl⟩ : ∃ n, fuel = n + 1 := ⟨fuel - 1, by omega⟩
    exact ⟨_, by rw [whileLoop, if_neg (by simp [walking])], rfl⟩
  | cons p rest ih =>
    obtain ⟨fuel, rfl⟩ : ∃ n, fuel = n + 1 := ⟨fuel - 1, by omega⟩
    have hfuel : rest.length < fuel := by simpa using hfuel
    rw [whileLoop, if_pos (by simp [walking]), walkStep, placeAll]
    simp only [getElem?_append_right (Nat.le_refl _), Nat.sub_self, getElem?_cons_zero]
    split
    · rw [eraseIdx_append_of_length_le (Nat.le_refl _), Nat.sub_self]
      exact ih _ done hfuel
    · have hset : (done ++ p :: rest).set done.length (place size offset p) =
          (done ++ [place size offset p]) ++ rest := by
        rw [List.set_append_right _ _ (Nat.le_refl _), Nat.sub_self, List.append_assoc]
        rfl
      have hnext := ih ((place size offset p).offset + (place size offset p).size)
        (done ++ [place size offset p]) hfuel
      rwa [List.length_append, ← hset, List.append_assoc] at hnext

lemma extent_le {flash last : Nat} (h : (p.extent flash last).offset ≤ flash) :
    (p.extent flash last).offset + (p.extent flash last).size ≤ flash := by
  have hsize : (p.extent flash last).size ≤ flash - (p.extent flash last).offset := by
    simp only [Partition.extent]
    split <;> omega
  omega

lemma place_end (h : Reachable size.toNat p (p.extent size.toNat offset.toNat)) :
    ((place size offset p).offset + (place size offset p).size).toNat =
      (p.extent size.toNat offset.toNat).offset + (p.extent size.toNat offset.toNat).size := by
  have hplace := place_of_reachable h
  have hle := extent_le h.1
  rw [← hplace] at hle ⊢
  simp only [Partition.toExtent] at hle ⊢
  rw [toNat_add, Nat.mod_eq_of_lt (by omega)]

lemma inReach_cons {flash last : Nat} {ps : List Partition} :
    InReach flash last (p :: ps) ↔ Reachable flash p (p.extent flash last) ∧
      InReach flash ((p.extent flash last).offset + (p.extent flash last).size) ps := by
  simp only [InReach, layout, zip_cons_cons, forall_mem_cons]

/-- As long as the partitions are within reach, the walk does what is promised. -/
lemma placeAll_of_inReach (h : InReach size.toNat offset.toNat given) :
    (placeAll size offset given).map Partition.toExtent =
        (layout size.toNat offset.toNat given).filter (0 < ·.size) ∧
      ∀ p ∈ placeAll size offset given,
        0 < p.size.toNat ∧ p.offset.toNat + p.size.toNat ≤ size.toNat := by
  induction given generalizing offset with
  | nil => exact ⟨rfl, by simp [placeAll]⟩
  | cons p ps ih =>
    obtain ⟨hreach, hrest⟩ := inReach_cons.mp h
    rw [← place_end hreach] at hrest
    obtain ⟨hplaces, hfit⟩ := ih hrest
    have hplace := place_of_reachable hreach
    have hle := extent_le hreach.1
    rw [placeAll, layout, ← place_end hreach]
    rw [← hplace] at hle ⊢
    split
    · next hzero =>
      have hempty : ¬ 0 < (place size offset p).toExtent.size := by
        simp [Partition.toExtent, hzero]
      rw [filter_cons_of_neg (by simpa using hempty)]
      exact ⟨hplaces, hfit⟩
    · next hzero =>
      have hpos : 0 < (place size offset p).toExtent.size :=
        Nat.pos_of_ne_zero fun h => hzero (eq_of_toNat_eq h)
      rw [filter_cons_of_pos (by simpa using hpos), map_cons, hplaces]
      exact ⟨rfl, forall_mem_cons.mpr ⟨⟨hpos, hle⟩, hfit⟩⟩

lemma exists_of_not_inReach (h : ¬ InReach size.toNat offset.toNat given) :
    ∃ p ∈ placeAll size offset given, size.toNat < p.offset.toNat + p.size.toNat := by
  induction given generalizing offset with
  | nil => exact absurd (fun x hx => by simp at hx) h
  | cons p ps ih =>
    rw [placeAll]
    by_cases hreach : Reachable size.toNat p (p.extent size.toNat offset.toNat)
    · rw [inReach_cons, ← place_end hreach] at h
      obtain ⟨q, hq, hbeyond⟩ := ih fun hrest => h ⟨hreach, hrest⟩
      refine ⟨q, ?_, hbeyond⟩
      split
      · exact hq
      · exact mem_cons_of_mem _ hq
    · obtain ⟨hbeyond, hsize⟩ := place_of_not_reachable hreach
      exact ⟨_, by rw [if_neg hsize]; exact mem_cons_self, hbeyond⟩

/-- The partitions of a device fit it exactly if each of them begins on the device and ends below
`2 ^ 64`. -/
theorem partitions_fit_iff (partitions : List CmdlineMtd) (name : Option (List Byte))
    (size : BitVec 64) (part : CmdlineMtd)
    (hpart : partitions.find? (fun part => name.all (part.mtdId = ·)) = some part) :
    ∃ returned, (∀ fuel > part.parts.length,
        parseCmdlinePartitions fuel partitions name size true =
          some ((returned.length : Int), returned)) ∧
      (FitsDevice size.toNat part.parts returned ↔ InReach size.toNat 0 part.parts) := by
  refine ⟨placeAll size 0 part.parts, fun fuel hfuel => ?_, fun hfits => ?_, fun hreach => ?_⟩
  · obtain ⟨w, hw, hparts⟩ := walk_total size 0 [] part.parts hfuel
    rw [length_nil, nil_append] at hw
    simp only [parseCmdlinePartitions, hpart, hw, Option.bind_eq_bind, Option.bind_some, hparts]
    rfl
  · by_contra hreach
    have hreach : ¬ InReach size.toNat (0 : BitVec 64).toNat part.parts := hreach
    obtain ⟨p, hp, hbeyond⟩ := exists_of_not_inReach hreach
    have hfit := (hfits.fit p hp).2
    omega
  · have hreach : InReach size.toNat (0 : BitVec 64).toNat part.parts := hreach
    obtain ⟨hplaces, hfit⟩ := placeAll_of_inReach hreach
    exact ⟨hplaces, hfit⟩

/-- Two partitions on a flash of 16 MiB: one of 256 KiB, and one for the rest of the device. -/
def twoParts : CmdlineMtd where
  mtdId := []
  parts := [⟨[], 0x40000, offsetContinuous, 0⟩, ⟨[], sizeRemaining, offsetContinuous, 0⟩]

theorem twoParts_fit :
    ∃ returned, (∀ fuel > 2, parseCmdlinePartitions fuel [twoParts] none 0x1000000 true =
        some ((returned.length : Int), returned)) ∧
      FitsDevice 0x1000000 twoParts.parts returned := by
  obtain ⟨returned, hreturned, hfits⟩ :=
    partitions_fit_iff [twoParts] none 0x1000000 twoParts (by decide)
  exact ⟨returned, hreturned, hfits.mpr (by decide)⟩

def farPart : CmdlineMtd where
  mtdId := []
  parts := [⟨[], 0x100000, 0x2000000, 0⟩]

/-- It is handed out with nearly `2 ^ 64` bytes. -/
theorem farPart_beyond :
    parseCmdlinePartitions 2 [farPart] none 0x1000000 true =
        some (1, [⟨[], 0xffffffffff000000, 0x2000000, 0⟩]) ∧
      ¬ FitsDevice 0x1000000 farPart.parts [⟨[], 0xffffffffff000000, 0x2000000, 0⟩] := by
  refine ⟨by decide, fun hfits => ?_⟩
  have hfit := hfits.fit _ mem_cons_self
  exact absurd hfit (by decide)

end Mini2440.Mtd
