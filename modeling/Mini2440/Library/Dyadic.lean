import Mathlib.Data.Nat.Bitwise
import Mathlib.Data.List.Perm.Basic

/-!
# Blocks whose size is a power of two

A block of order `k` is `2 ^ k` consecutive numbers. It is aligned if it begins at a multiple of
its size; then it is one of the two halves of an aligned block of the next order, its parent, and
the other half is its buddy. Where the buddy and the parent begin is a matter of bit `k` of the
block's first number, and masking off the bits above the orders in use does not change that.

`Partition U bs` says that the blocks of a list are aligned and make up the set `U`, each number
of it once. Splitting a block into its halves, and joining two buddies, keeps that.
-/

namespace Mini2440.Library

open List

/-- The numbers from `start` on, `2 ^ order` of them. -/
structure Block where
  start : Nat
  order : Nat
  deriving DecidableEq, Repr

namespace Block

def Has (b : Block) (u : Nat) : Prop := b.start ≤ u ∧ u < b.start + 2 ^ b.order

def Apart (b c : Block) : Prop :=
  b.start + 2 ^ b.order ≤ c.start ∨ c.start + 2 ^ c.order ≤ b.start

def Aligned (b : Block) : Prop := 2 ^ b.order ∣ b.start

instance (b : Block) (u : Nat) : Decidable (b.Has u) := inferInstanceAs (Decidable (_ ∧ _))
instance (b c : Block) : Decidable (b.Apart c) := inferInstanceAs (Decidable (_ ∨ _))
instance (b : Block) : Decidable b.Aligned := inferInstanceAs (Decidable (_ ∣ _))

lemma has_start (b : Block) : b.Has b.start :=
  ⟨Nat.le_refl _, Nat.lt_add_of_pos_right (Nat.two_pow_pos _)⟩

lemma Apart.symm {b c : Block} (h : b.Apart c) : c.Apart b := Or.symm h

lemma Apart.start_ne {b c : Block} (h : b.Apart c) : b.start ≠ c.start := by
  have hb := Nat.two_pow_pos b.order
  have hc := Nat.two_pow_pos c.order
  unfold Apart at h
  omega

end Block

/-! ## Buddies -/

variable {n k m : Nat}

/-- The first number of the other half of the parent. -/
def buddyStart (n k : Nat) : Nat := if 2 ^ (k + 1) ∣ n then n + 2 ^ k else n - 2 ^ k

def parentStart (n k : Nat) : Nat := if 2 ^ (k + 1) ∣ n then n else n - 2 ^ k

lemma dvd_or_exists_add (h : 2 ^ k ∣ n) :
    2 ^ (k + 1) ∣ n ∨ ¬ 2 ^ (k + 1) ∣ n ∧ ∃ m, 2 ^ (k + 1) ∣ m ∧ n = m + 2 ^ k := by
  obtain ⟨c, rfl⟩ := h
  have hiff : 2 ^ (k + 1) ∣ 2 ^ k * c ↔ 2 ∣ c := by
    rw [Nat.pow_succ, Nat.mul_dvd_mul_iff_left (Nat.two_pow_pos k)]
  rcases Nat.mod_two_eq_zero_or_one c with hc | hc
  · exact .inl (hiff.mpr (Nat.dvd_of_mod_eq_zero hc))
  · refine .inr ⟨fun hdvd => ?_, 2 ^ (k + 1) * (c / 2), Nat.dvd_mul_right _ _, ?_⟩
    · omega
    · rw [Nat.pow_succ, Nat.mul_assoc, ← Nat.mul_succ]
      congr 1
      omega

lemma buddyStart_of_dvd (h : 2 ^ (k + 1) ∣ n) : buddyStart n k = n + 2 ^ k := if_pos h

lemma parentStart_of_dvd (h : 2 ^ (k + 1) ∣ n) : parentStart n k = n := if_pos h

lemma not_dvd_add_two_pow (h : 2 ^ (k + 1) ∣ m) : ¬ 2 ^ (k + 1) ∣ m + 2 ^ k := by
  intro hdvd
  have hle := Nat.le_of_dvd (Nat.two_pow_pos k) ((Nat.dvd_add_right h).mp hdvd)
  omega

lemma buddyStart_add (h : 2 ^ (k + 1) ∣ m) : buddyStart (m + 2 ^ k) k = m := by
  rw [buddyStart, if_neg (not_dvd_add_two_pow h), Nat.add_sub_cancel]

lemma parentStart_add (h : 2 ^ (k + 1) ∣ m) : parentStart (m + 2 ^ k) k = m := by
  rw [parentStart, if_neg (not_dvd_add_two_pow h), Nat.add_sub_cancel]

lemma buddyStart_buddyStart (h : 2 ^ k ∣ n) : buddyStart (buddyStart n k) k = n := by
  rcases dvd_or_exists_add h with hn | ⟨-, m, hm, rfl⟩
  · rw [buddyStart_of_dvd hn, buddyStart_add hn]
  · rw [buddyStart_add hm, buddyStart_of_dvd hm]

lemma buddyStart_ne (h : 2 ^ k ∣ n) : buddyStart n k ≠ n := by
  rcases dvd_or_exists_add h with hn | ⟨-, m, hm, rfl⟩
  · rw [buddyStart_of_dvd hn]
    omega
  · rw [buddyStart_add hm]
    omega

/-- A block and its buddy lie in the same part of every larger size. -/
lemma buddyStart_div (h : 2 ^ k ∣ n) (hkm : k < m) : buddyStart n k / 2 ^ m = n / 2 ^ m := by
  have hhalf : ∀ c, 2 ^ (k + 1) ∣ c → (c + 2 ^ k) / 2 ^ m = c / 2 ^ m := by
    intro c hc
    obtain ⟨d, hd⟩ := Nat.exists_eq_add_of_lt hkm
    have hm : 2 ^ m = 2 ^ (k + 1) * 2 ^ d := by rw [← Nat.pow_add]; congr 1; omega
    have hlt : 2 ^ k < 2 ^ (k + 1) := by omega
    obtain ⟨e, rfl⟩ := hc
    rw [hm, ← Nat.div_div_eq_div_mul, ← Nat.div_div_eq_div_mul,
      Nat.mul_add_div (by omega), Nat.div_eq_of_lt hlt,
      Nat.mul_div_cancel_left _ (by omega), Nat.add_zero]
  rcases dvd_or_exists_add h with hn | ⟨-, c, hc, rfl⟩
  · rw [buddyStart_of_dvd hn, hhalf n hn]
  · rw [buddyStart_add hc, hhalf c hc]

/-! ## Bits -/

lemma mul_two_pow_xor (c k : Nat) : 2 ^ k * c ^^^ 2 ^ k = 2 ^ k * (c ^^^ 1) := by
  have h := Nat.shiftLeft_xor_distrib (a := c) (b := 1) (i := k)
  rw [Nat.shiftLeft_eq, Nat.shiftLeft_eq, Nat.shiftLeft_eq, Nat.one_mul] at h
  rw [Nat.mul_comm, Nat.mul_comm (2 ^ k), h]

lemma mul_two_pow_and (c d k : Nat) : 2 ^ k * c &&& 2 ^ k * d = 2 ^ k * (c &&& d) := by
  have h := Nat.shiftLeft_and_distrib (a := c) (b := d) (i := k)
  rw [Nat.shiftLeft_eq, Nat.shiftLeft_eq, Nat.shiftLeft_eq] at h
  rw [Nat.mul_comm, Nat.mul_comm (2 ^ k) d, Nat.mul_comm (2 ^ k) (c &&& d), h]

lemma xor_two_pow_of_dvd (h : 2 ^ (k + 1) ∣ m) :
    m ^^^ 2 ^ k = m + 2 ^ k ∧ (m + 2 ^ k) ^^^ 2 ^ k = m ∧ (m + 2 ^ k) &&& m = m := by
  obtain ⟨c, rfl⟩ := h
  have hsucc : 2 ^ k * (2 * c) + 2 ^ k = 2 ^ k * (2 * c + 1) := by rw [Nat.mul_succ]
  have hxor : (2 * c) ^^^ 1 = 2 * c + 1 := Nat.xor_one_of_even (even_two_mul c)
  have hup : 2 ^ k * (2 * c) ^^^ 2 ^ k = 2 ^ k * (2 * c) + 2 ^ k := by
    rw [mul_two_pow_xor, hxor, hsucc]
  rw [Nat.pow_succ, Nat.mul_assoc]
  refine ⟨hup, by rw [← hup, Nat.xor_assoc, Nat.xor_self, Nat.xor_zero], ?_⟩
  rw [hsucc, mul_two_pow_and]
  congr 1
  refine Nat.eq_of_testBit_eq fun i => ?_
  cases i with
  | zero => simp
  | succ i =>
    rw [Nat.testBit_and, Nat.testBit_succ, Nat.testBit_succ,
      show (2 * c + 1) / 2 = 2 * c / 2 by omega, Bool.and_self]

/-- The buddy is found by turning bit `k` over. -/
lemma xor_two_pow_eq_buddyStart (h : 2 ^ k ∣ n) : n ^^^ 2 ^ k = buddyStart n k := by
  rcases dvd_or_exists_add h with hn | ⟨-, m, hm, rfl⟩
  · rw [buddyStart_of_dvd hn, (xor_two_pow_of_dvd hn).1]
  · rw [buddyStart_add hm, (xor_two_pow_of_dvd hm).2.1]

/-- The parent has the bits that the two buddies have in common. -/
lemma buddyStart_and_eq_parentStart (h : 2 ^ k ∣ n) : buddyStart n k &&& n = parentStart n k := by
  rcases dvd_or_exists_add h with hn | ⟨-, m, hm, rfl⟩
  · rw [buddyStart_of_dvd hn, parentStart_of_dvd hn, (xor_two_pow_of_dvd hn).2.2]
  · rw [buddyStart_add hm, parentStart_add hm, Nat.and_comm, (xor_two_pow_of_dvd hm).2.2]

/-! ## Indices below a power of two -/

lemma starts_mod (h : 2 ^ k ∣ n) (hkm : k < m) :
    n + buddyStart (n % 2 ^ m) k - n % 2 ^ m = buddyStart n k ∧
      n + parentStart (n % 2 ^ m) k - n % 2 ^ m = parentStart n k ∧
      parentStart n k % 2 ^ m = parentStart (n % 2 ^ m) k := by
  have hdvd : ∀ j ≤ m, ∀ c, 2 ^ j ∣ c % 2 ^ m ↔ 2 ^ j ∣ c := fun j hj c =>
    Nat.dvd_mod_iff (Nat.pow_dvd_pow 2 hj)
  rcases dvd_or_exists_add h with hn | ⟨-, c, hc, rfl⟩
  · have hmod := (hdvd (k + 1) hkm n).mpr hn
    rw [buddyStart_of_dvd hn, buddyStart_of_dvd hmod, parentStart_of_dvd hn,
      parentStart_of_dvd hmod]
    exact ⟨by omega, by omega, rfl⟩
  · have hcmod := (hdvd (k + 1) hkm c).mpr hc
    -- adding `2 ^ k` to the even half does not carry past bit `k`
    have hlt : c % 2 ^ m + 2 ^ k < 2 ^ m := by
      have hmod := Nat.mod_lt c (Nat.two_pow_pos m)
      obtain ⟨d, hd⟩ := hcmod
      obtain ⟨e, he⟩ := Nat.pow_dvd_pow 2 (Nat.succ_le_of_lt hkm)
      rw [hd, he] at hmod ⊢
      have hde : d + 1 ≤ e := Nat.lt_of_mul_lt_mul_left hmod
      have hmul := Nat.mul_le_mul_left (2 ^ (k + 1)) hde
      rw [Nat.mul_succ, Nat.pow_succ] at hmul
      rw [Nat.pow_succ]
      omega
    have hadd : (c + 2 ^ k) % 2 ^ m = c % 2 ^ m + 2 ^ k := by
      rw [← Nat.mod_eq_of_lt hlt, Nat.mod_add_mod]
    rw [hadd, buddyStart_add hc, buddyStart_add hcmod, parentStart_add hc, parentStart_add hcmod]
    exact ⟨by omega, by omega, rfl⟩

/-! ## Partitions -/

variable {U : Set Nat} {b : Block} {bs cs : List Block} {p o : Nat}

/-- The blocks are aligned, and every number of `U`, and no other, is in exactly one of them. -/
structure Partition (U : Set Nat) (bs : List Block) : Prop where
  aligned : ∀ b ∈ bs, b.Aligned
  apart : bs.Pairwise Block.Apart
  covers : ∀ u, u ∈ U ↔ ∃ b ∈ bs, b.Has u

lemma Partition.perm (h : Partition U bs) (hperm : bs.Perm cs) : Partition U cs where
  aligned := fun b hb => h.aligned b (hperm.mem_iff.mpr hb)
  apart := hperm.pairwise h.apart fun hbc => hbc.symm
  covers := fun u => (h.covers u).trans (exists_congr fun _ => and_congr_left' hperm.mem_iff)

lemma Partition.start_mem (h : Partition U bs) (hb : b ∈ bs) : b.start ∈ U :=
  (h.covers _).mpr ⟨b, hb, b.has_start⟩

lemma halves_has (u : Nat) :
    (⟨p, o + 1⟩ : Block).Has u ↔ (⟨p, o⟩ : Block).Has u ∨ (⟨p + 2 ^ o, o⟩ : Block).Has u := by
  simp only [Block.Has]
  omega

lemma halves_apart {c : Block} :
    (⟨p, o + 1⟩ : Block).Apart c ↔ (⟨p, o⟩ : Block).Apart c ∧ (⟨p + 2 ^ o, o⟩ : Block).Apart c := by
  have hc := Nat.two_pow_pos c.order
  have ho := Nat.two_pow_pos o
  simp only [Block.Apart]
  omega

lemma partition_halves (hp : 2 ^ (o + 1) ∣ p) :
    Partition U (⟨p, o⟩ :: ⟨p + 2 ^ o, o⟩ :: bs) ↔ Partition U (⟨p, o + 1⟩ :: bs) := by
  have hcovers : (∀ u, u ∈ U ↔ ∃ b ∈ (⟨p, o⟩ :: ⟨p + 2 ^ o, o⟩ :: bs : List Block), b.Has u) ↔
      ∀ u, u ∈ U ↔ ∃ b ∈ (⟨p, o + 1⟩ :: bs : List Block), b.Has u := by
    refine forall_congr' fun u => ?_
    simp only [mem_cons, or_and_right, exists_or, exists_eq_left, halves_has, or_assoc]
  have hlow : 2 ^ o ∣ p := Nat.dvd_trans (Nat.pow_dvd_pow 2 (Nat.le_succ o)) hp
  constructor
  · rintro ⟨haligned, hapart, hcov⟩
    simp only [pairwise_cons, mem_cons, forall_eq_or_imp] at haligned hapart
    refine ⟨?_, ?_, hcovers.mp hcov⟩
    · simp only [mem_cons, forall_eq_or_imp]
      exact ⟨hp, haligned.2.2⟩
    · refine pairwise_cons.mpr ⟨fun c hc => ?_, hapart.2.2⟩
      exact halves_apart.mpr ⟨hapart.1.2 c hc, hapart.2.1 c hc⟩
  · rintro ⟨haligned, hapart, hcov⟩
    simp only [pairwise_cons, mem_cons, forall_eq_or_imp] at haligned hapart
    refine ⟨?_, ?_, hcovers.mpr hcov⟩
    · simp only [mem_cons, forall_eq_or_imp]
      exact ⟨hlow, (Nat.dvd_add_right hlow).mpr (Nat.dvd_refl _), haligned.2⟩
    · simp only [pairwise_cons, mem_cons, forall_eq_or_imp]
      refine ⟨⟨.inl (Nat.le_refl _), fun c hc => ?_⟩, fun c hc => ?_, hapart.2⟩
      · exact (halves_apart.mp (hapart.1 c hc)).1
      · exact (halves_apart.mp (hapart.1 c hc)).2

lemma Partition.join (h : Partition U (⟨p, o⟩ :: ⟨buddyStart p o, o⟩ :: bs)) :
    Partition U (⟨parentStart p o, o + 1⟩ :: bs) := by
  have hp : 2 ^ o ∣ p := h.aligned ⟨p, o⟩ (by simp)
  rcases dvd_or_exists_add hp with heven | ⟨-, m, hm, rfl⟩
  · rw [buddyStart_of_dvd heven] at h
    rw [parentStart_of_dvd heven]
    exact (partition_halves heven).mp h
  · rw [buddyStart_add hm] at h
    rw [parentStart_add hm]
    exact (partition_halves hm).mp (h.perm (List.Perm.swap _ _ _))

/-! ## Lists of lists -/

lemma flatMap_range_perm_cons {α : Type*} {f g : Nat → List α} {x : α} {i n : Nat} (hn : i < n)
    (hi : (f i).Perm (x :: g i)) (hother : ∀ j < n, j ≠ i → f j = g j) :
    ((range n).flatMap f).Perm (x :: (range n).flatMap g) := by
  induction n with
  | zero => omega
  | succ n ih =>
    rw [range_succ, flatMap_append, flatMap_append, flatMap_singleton, flatMap_singleton]
    rcases Nat.lt_succ_iff_lt_or_eq.mp hn with hlt | rfl
    · rw [hother n (by omega) (by omega)]
      exact (ih hlt fun j hj => hother j (by omega)).append_right (g n)
    · have hsame : (range i).flatMap f = (range i).flatMap g := by
        refine flatMap_congr fun j hj => ?_
        rw [mem_range] at hj
        exact hother j (by omega) (by omega)
      rw [hsame]
      exact (hi.append_left _).trans perm_middle

end Mini2440.Library
