import Mathlib.Data.Set.Card
import Mathlib.Order.Interval.Finset.Nat
import Mini2440.Memblock.Operations

/-!
# The memory limit

`memblock_enforce_memory_limit` finds the address below which there are as many bytes of memory
as the limit says, and takes the rest out of both arrays. What `__memblock_remove` returns is
ignored: an array without room for two more regions stays as it is if `memblock_double_array` fails.
-/

namespace Mini2440.Memblock

open List BitVec Library

/-- The loop of `memblock_enforce_memory_limit`. -/
def maxAddr : List Region → Word → Word
  | [], _ => 0xffffffff
  | r :: l, limit => if limit ≤ r.size then r.base + limit else maxAddr l (limit - r.size)

/-- `__memblock_remove` before `memblock_allow_resize`: `memblock_double_array` returns an error and
the array is not touched. -/
def tryRemove (t : Regions) (base size : Word) : Option Regions :=
  if capSize base size ≠ 0 ∧ t.max < t.cnt + 2 then some t else removeRange t base size

def enforceMemoryLimit (b : Blocks) (limit : Word) : Option Blocks :=
  if limit = 0 then some b
  else do
    let memory ← tryRemove b.memory (maxAddr b.memory.regions limit) 0xffffffff
    let reserved ← tryRemove b.reserved (maxAddr b.memory.regions limit) 0xffffffff
    some { b with memory := memory, reserved := reserved }

/-! ## Counting bytes -/

variable {l : List Region} {limit : Word} {t : Regions} {S : Set Nat} {lo m : Nat}

/-- The number of bytes of the regions below `m`. -/
noncomputable def bytesBelow (l : List Region) (m : Nat) : Nat :=
  {a | Covers (spans l) a ∧ a < m}.ncard

lemma bytesBelow_cons {r : Region} (h : Ascending 0 lo (spans (r :: l))) :
    bytesBelow (r :: l) m = (min r.span.hi m - r.span.lo) + bytesBelow l m := by
  have hsplit : {a | Covers (spans (r :: l)) a ∧ a < m} =
      Set.Ico r.span.lo (min r.span.hi m) ∪ {a | Covers (spans l) a ∧ a < m} := by
    ext a
    simp only [spans_cons, covers_cons, Set.mem_union, Set.mem_Ico, Set.mem_ofPred_eq, lt_min_iff]
    tauto
  have hdisjoint : Disjoint (Set.Ico r.span.lo (min r.span.hi m))
      {a | Covers (spans l) a ∧ a < m} := by
    refine Set.disjoint_left.mpr fun a ha hl => ?_
    have hle := h.tail.le_of_covers hl.1
    have hlt := ha.2
    omega
  have hfinite : {a | Covers (spans l) a ∧ a < m}.Finite :=
    (Set.finite_Iio m).subset fun a ha => ha.2
  rw [bytesBelow, hsplit, Set.ncard_union_eq hdisjoint (Set.finite_Ico _ _) hfinite,
    ← Finset.coe_Ico, Set.ncard_coe_finset, Nat.card_Ico]
  rfl

/-- The limit is reached behind a byte of memory. -/
lemma maxAddr_spec (h : Ascending 0 lo (spans l)) (hfit : Fits l) (hpos : 0 < limit.toNat)
    (hle : limit.toNat ≤ sizes l) :
    bytesBelow l (maxAddr l limit).toNat = limit.toNat ∧
      ∃ last, Covers (spans l) last ∧ (maxAddr l limit).toNat = last + 1 := by
  induction l generalizing lo limit with
  | nil => exact absurd hle (not_le.mpr hpos)
  | cons r l ih =>
    have hspan : r.span.lo = r.base.toNat ∧ r.span.hi = r.base.toNat + r.size.toNat := ⟨rfl, rfl⟩
    have hsizes : sizes (r :: l) = r.size.toNat + sizes l := by simp [sizes]
    rw [fits_cons] at hfit
    rw [maxAddr, bytesBelow_cons h, spans_cons]
    simp only [covers_cons]
    split_ifs with hin
    · rw [le_def] at hin
      have hm : (r.base + limit).toNat = r.base.toNat + limit.toNat := by bv_omega
      have hrest : bytesBelow l (r.base + limit).toNat = 0 := by
        refine (Set.ncard_eq_zero ((Set.finite_Iio _).subset fun a ha => ha.2)).mpr ?_
        refine Set.eq_empty_of_forall_notMem fun a ha => ?_
        have hge := h.tail.le_of_covers ha.1
        have hlt := ha.2
        omega
      exact ⟨by omega, r.base.toNat + limit.toNat - 1, .inl (by omega), by omega⟩
    · rw [BitVec.not_le] at hin
      have hsub := toNat_sub_of_le (BitVec.le_of_lt hin)
      rw [lt_def] at hin
      have hnext : 0 < (limit - r.size).toNat := by omega
      obtain ⟨hbytes, last, hlast, hm⟩ := ih h.tail hfit.2 hnext (by omega)
      have hge := h.tail.le_of_covers hlast
      exact ⟨by omega, last, .inr hlast, hm⟩

lemma maxAddr_of_lt (h : sizes l < limit.toNat) : maxAddr l limit = 0xffffffff := by
  induction l generalizing limit with
  | nil => rfl
  | cons r l ih =>
    have hsizes : sizes (r :: l) = r.size.toNat + sizes l := by simp [sizes]
    have hlt : r.size < limit := by bv_omega
    rw [maxAddr, if_neg (BitVec.not_le.mpr hlt)]
    refine ih ?_
    rw [toNat_sub_of_le (BitVec.le_of_lt hlt)]
    omega

/-! ## Cutting the arrays -/

lemma tryRemove_spec (h : Represents t S) (hroom : t.cnt + 2 ≤ t.max) (base : Word) :
    ∃ t', tryRemove t base 0xffffffff = some t' ∧ Represents t' (S ∩ Set.Iio base.toNat) := by
  obtain ⟨t', hremove, ht', -⟩ := removeRange_spec h base 0xffffffff
  refine ⟨t', by rw [tryRemove, if_neg (by omega), hremove], ?_⟩
  have hset : S \ addresses base 0xffffffff = S ∩ Set.Iio base.toNat := by
    refine Set.ext fun a => and_congr_right fun ha => ?_
    obtain ⟨s, hs, -, hlt⟩ := (h.covers a).mpr ha
    obtain ⟨r, hr, rfl⟩ := mem_map.mp hs
    have hhi := h.wellFormed.fits r hr
    have hmax : (0xffffffff : Word).toNat = 2 ^ 32 - 1 := rfl
    simp only [addresses, Set.mem_Iio, Set.mem_ofPred_eq]
    omega
  rwa [hset] at ht'

/-- If there is room in the arrays, a limit up to the size of the memory leaves the lowest bytes of
it, as many as the limit says, and what is reserved below their end. A larger one leaves everything
as it is. -/
theorem enforceMemoryLimit_spec (b : Blocks) (M R : Set Nat) (limit : Word)
    (hmem : Represents b.memory M) (hres : Represents b.reserved R) (hlimit : limit ≠ 0)
    (hroom : limit.toNat ≤ sizes b.memory.regions →
      ∀ t ∈ [b.memory, b.reserved], t.cnt + 2 ≤ t.max) :
    ∃ b', enforceMemoryLimit b limit = some b' ∧
      (limit.toNat ≤ sizes b.memory.regions → ∃ last ∈ M,
        (M ∩ Set.Iio (last + 1)).ncard = limit.toNat ∧
        Represents b'.memory (M ∩ Set.Iio (last + 1)) ∧
        Represents b'.reserved (R ∩ Set.Iio (last + 1))) ∧
      (sizes b.memory.regions < limit.toNat → b' = b) := by
  have hasc := hmem.wellFormed.ascending.relax (Nat.zero_le 1)
  have hM := Set.ext fun a => (hmem.covers a).symm
  rw [enforceMemoryLimit, if_neg hlimit]
  by_cases hle : limit.toNat ≤ sizes b.memory.regions
  · obtain ⟨hbytes, last, hlast, hm⟩ := maxAddr_spec hasc hmem.wellFormed.fits
      (pos_of_ne_zero fun h0 => hlimit (eq_of_toNat_eq h0)) hle
    obtain ⟨memory, hmemory, hrep⟩ :=
      tryRemove_spec hmem (hroom hle _ (by simp)) (maxAddr b.memory.regions limit)
    obtain ⟨reserved, hreserved, hrep'⟩ :=
      tryRemove_spec hres (hroom hle _ (by simp)) (maxAddr b.memory.regions limit)
    refine ⟨⟨memory, reserved, b.currentLimit⟩, ?_, fun _ => ⟨last, ?_, ?_, ?_, ?_⟩,
      fun hlt => absurd hle (by omega)⟩
    · rw [hmemory, hreserved]
      rfl
    · exact (hmem.covers last).mp hlast
    · rw [← hm, ← hbytes, hM]
      rfl
    · rwa [← hm]
    · rwa [← hm]
  · have hlt := not_le.mp hle
    have hsame : ∀ t, tryRemove t 0xffffffff 0xffffffff = some t := by
      simp [tryRemove, removeRange, isolateRange, capSize, removeLoop]
    refine ⟨b, ?_, fun h => absurd h hle, fun _ => rfl⟩
    rw [maxAddr_of_lt hlt, hsame, hsame]
    rfl

/-- Half of the memory of the board. -/
theorem board_limit :
    let M := {a | Covers (spans [⟨0x30000000, 0x4000000⟩]) a}
    ∃ b', enforceMemoryLimit
        ⟨⟨[⟨0x30000000, 0x4000000⟩], 0x4000000, 128⟩, .init, 0xffffffff⟩ 0x2000000 = some b' ∧
      ∃ last ∈ M, (M ∩ Set.Iio (last + 1)).ncard = 0x2000000 ∧
        Represents b'.memory (M ∩ Set.Iio (last + 1)) := by
  obtain ⟨b', hb', hsome, -⟩ := enforceMemoryLimit_spec
    ⟨⟨[⟨0x30000000, 0x4000000⟩], 0x4000000, 128⟩, .init, 0xffffffff⟩ _ ∅ 0x2000000
    ⟨⟨by decide, .inr (by decide), by decide⟩, fun _ => .rfl, by decide⟩ represents_init
    (by decide) fun _ => by decide
  obtain ⟨last, hlast, hcard, hmem, -⟩ := hsome (by decide)
  exact ⟨b', hb', last, hlast, hcard, hmem⟩

def crowded : Regions :=
  ⟨(range 127).map fun i => ⟨BitVec.ofNat 32 (0x2000 * i), 0x1000⟩, 0x7f000, 128⟩

theorem crowded_limit : crowded.regions.Pairwise (fun r s => r.span.hi < s.span.lo) ∧
    enforceMemoryLimit ⟨crowded, .init, 0xffffffff⟩ 0x1000 =
      some ⟨crowded, .init, 0xffffffff⟩ := by
  decide +kernel

end Mini2440.Memblock
