import Mini2440.PageAlloc.Zone

/-!
# What the lists, the counts and the page flags have to do with each other

`Keeps L U z held` is the invariant of the allocator: the blocks that are held outside, and the
free blocks of the zone, are a partition of the pages `U`; the flags tell exactly which pages
head a free block and of which order; the counts are the lengths of the lists; no two buddies are
both free. Inside the functions the block that is being split or merged is one of the held ones.

The invariant has four rules: a free block is taken, a held block is put into a list, a held
block is split, and two held buddies are joined. The functions follow from these.
-/

namespace Mini2440.PageAlloc

open List Function Library

variable {κ : Type*} {n order page : Nat} {b : Block}

namespace Zone

/-- The free blocks of the orders below `n`. -/
def blocks (z : Zone) (n : Nat) : List Block :=
  (range n).flatMap fun order => (z.freeList order).map (Block.mk · order)

lemma mem_blocks {z : Zone} : b ∈ z.blocks n ↔ b.order < n ∧ b.start ∈ z.freeList b.order := by
  simp only [blocks, mem_flatMap, mem_range, mem_map]
  constructor
  · rintro ⟨order, ho, page, hp, rfl⟩
    exact ⟨ho, hp⟩
  · rintro ⟨ho, hp⟩
    exact ⟨b.order, ho, b.start, hp, rfl⟩

lemma blocks_perm_cons {z z' : Zone} (ho : order < n)
    (hl : (z'.freeList order).Perm (page :: z.freeList order))
    (hother : ∀ o < n, o ≠ order → z'.freeList o = z.freeList o) :
    (z'.blocks n).Perm (⟨page, order⟩ :: z.blocks n) := by
  refine flatMap_range_perm_cons ho (hl.map _) fun o hlt hne => ?_
  rw [hother o hlt hne]

end Zone

/-- The pages are all valid, and the pages of one block of the highest order have the same zone
identification. -/
structure Layout.Zoned (L : Layout κ) (U : Set Nat) : Prop where
  valid : ∀ u ∈ U, L.pfnValidWithin u
  zone : ∀ u ∈ U, ∀ v ∈ U,
    u / 2 ^ (L.maxOrder - 1) = v / 2 ^ (L.maxOrder - 1) → L.pageZoneId u = L.pageZoneId v

structure Keeps (L : Layout κ) (U : Set Nat) (z : Zone) (held : List Block) : Prop where
  small : ∀ b ∈ held, b.order < L.maxOrder
  partition : Partition U (held ++ z.blocks L.maxOrder)
  counted : ∀ order < L.maxOrder, z.nrFree order = (z.freeList order).length
  marked : ∀ order < L.maxOrder, ∀ page ∈ z.freeList order,
    z.pageBuddy page ∧ z.pagePrivate page = order
  listed : ∀ u ∈ U, ∀ page, L.pfnValidWithin page → L.pageZoneId u = L.pageZoneId page →
    z.pageBuddy page →
      z.pagePrivate page < L.maxOrder ∧ page ∈ z.freeList (z.pagePrivate page)
  coalesced : ∀ order, order + 1 < L.maxOrder → ∀ page ∈ z.freeList order,
    findBuddyIndex page order ∉ z.freeList order

lemma findBuddyIndex_eq (h : 2 ^ order ∣ page) :
    findBuddyIndex page order = buddyStart page order := by
  rw [findBuddyIndex, Nat.one_shiftLeft, xor_two_pow_eq_buddyStart h]

namespace Keeps

variable {L : Layout κ} {U : Set Nat} {z : Zone} {held held' : List Block} {b : Block}
  {page order : Nat} {l : List Nat}

/-! ## What the invariant says of single pages -/

lemma listed_aligned (h : Keeps L U z held) (ho : order < L.maxOrder)
    (hp : page ∈ z.freeList order) : 2 ^ order ∣ page :=
  h.partition.aligned ⟨page, order⟩ (mem_append_right _ (Zone.mem_blocks.mpr ⟨ho, hp⟩))

lemma held_aligned (h : Keeps L U z (⟨page, order⟩ :: held)) : 2 ^ order ∣ page :=
  h.partition.aligned ⟨page, order⟩ (by simp)

lemma held_mem (h : Keeps L U z (⟨page, order⟩ :: held)) : page ∈ U :=
  h.partition.start_mem (b := ⟨page, order⟩) (by simp)

section

variable (h : Keeps L U z held)

include h

lemma listed_mem (ho : order < L.maxOrder) (hp : page ∈ z.freeList order) : page ∈ U :=
  h.partition.start_mem (b := ⟨page, order⟩)
    (mem_append_right _ (Zone.mem_blocks.mpr ⟨ho, hp⟩))

lemma held_not_listed (hb : b ∈ held) (ho : order < L.maxOrder) : b.start ∉ z.freeList order := by
  intro hp
  have hapart := (pairwise_append.mp h.partition.apart).2.2 b hb ⟨b.start, order⟩
    (Zone.mem_blocks.mpr ⟨ho, hp⟩)
  exact hapart.start_ne rfl

lemma nodup (ho : order < L.maxOrder) : (z.freeList order).Nodup := by
  have hblocks := (pairwise_append.mp h.partition.apart).2.1
  have hlist := (pairwise_flatMap.mp hblocks).1 order (mem_range.mpr ho)
  exact (pairwise_map.mp hlist).imp fun hapart => hapart.start_ne

lemma regroup (hsmall : ∀ b ∈ held', b.order < L.maxOrder)
    (hpart : Partition U (held' ++ z.blocks L.maxOrder)) : Keeps L U z held' :=
  { h with small := hsmall, partition := hpart }

lemma perm (hperm : held.Perm held') : Keeps L U z held' :=
  h.regroup (fun b hb => h.small b (hperm.mem_iff.mpr hb))
    (h.partition.perm (hperm.append_right _))

/-! ## The four rules -/

lemma take (ho : order < L.maxOrder) (hp : page ∈ z.freeList order) :
    Keeps L U (z.remove page order) (⟨page, order⟩ :: held) := by
  have hother : ∀ o < L.maxOrder, o ≠ order → page ∉ z.freeList o := fun o hlt hne hmem =>
    hne ((h.marked o hlt page hmem).2.symm.trans (h.marked order ho page hp).2)
  have hgone : ∀ o < L.maxOrder, page ∉ (z.freeList o).erase page := fun o hlt =>
    (h.nodup hlt).not_mem_erase
  refine ⟨forall_mem_cons.mpr ⟨ho, h.small⟩, ?_, ?_, ?_, ?_, ?_⟩
  · have hblocks : (z.blocks L.maxOrder).Perm
        (⟨page, order⟩ :: (z.remove page order).blocks L.maxOrder) :=
      Zone.blocks_perm_cons ho (perm_cons_erase hp) fun o hlt hne =>
        (erase_of_not_mem (hother o hlt hne)).symm
    exact h.partition.perm ((hblocks.append_left held).trans perm_middle)
  · intro o hlt
    rw [Zone.remove_nrFree, Zone.remove_freeList]
    by_cases heq : o = order
    · subst heq
      rw [update_self, h.counted o hlt, length_erase_of_mem hp]
    · rw [update_of_ne heq, erase_of_not_mem (hother o hlt heq), h.counted o hlt]
  · intro o hlt q hq
    have hne : q ≠ page := fun heq => hgone o hlt (heq ▸ hq)
    rw [Zone.remove_pageBuddy, Zone.remove_pagePrivate, update_of_ne hne, update_of_ne hne]
    exact h.marked o hlt q (mem_of_mem_erase hq)
  · intro u hu q hvalid hzone hbuddy
    rw [Zone.remove_pageBuddy] at hbuddy
    have hne : q ≠ page := by
      rintro rfl
      rw [update_self] at hbuddy
      exact absurd hbuddy Bool.false_ne_true
    rw [update_of_ne hne] at hbuddy
    obtain ⟨hlt, hmem⟩ := h.listed u hu q hvalid hzone hbuddy
    rw [Zone.remove_pagePrivate, update_of_ne hne]
    exact ⟨hlt, (mem_erase_of_ne hne).mpr hmem⟩
  · intro o hlt q hq hq'
    exact h.coalesced o hlt q (mem_of_mem_erase hq) (mem_of_mem_erase hq')

end

lemma put (h : Keeps L U z (⟨page, order⟩ :: held)) (hl : l.Perm (page :: z.freeList order))
    (hbuddy : order + 1 < L.maxOrder → buddyStart page order ∉ z.freeList order) :
    Keeps L U (z.insert page order l) held := by
  have ho : order < L.maxOrder := h.small ⟨page, order⟩ (by simp)
  have hfresh : ∀ o < L.maxOrder, page ∉ z.freeList o := fun o hlt =>
    h.held_not_listed (b := ⟨page, order⟩) (by simp) hlt
  have hsame : (z.insert page order l).freeList order = l := update_self ..
  have hother : ∀ o, o ≠ order → (z.insert page order l).freeList o = z.freeList o :=
    fun o hne => update_of_ne hne ..
  have hmem : ∀ o q, q ∈ (z.insert page order l).freeList o ↔
      o = order ∧ q = page ∨ q ∈ z.freeList o := by
    intro o q
    by_cases heq : o = order
    · subst heq
      rw [hsame, hl.mem_iff]
      simp
    · rw [hother o heq]
      simp [heq]
  refine ⟨fun b hb => h.small b (by simp [hb]), ?_, ?_, ?_, ?_, ?_⟩
  · have hblocks := Zone.blocks_perm_cons ho (by rw [hsame]; exact hl) fun o _ hne => hother o hne
    refine h.partition.perm ?_
    exact ((hblocks.append_left held).trans perm_middle).symm
  · intro o hlt
    rw [Zone.insert_nrFree]
    by_cases heq : o = order
    · subst heq
      rw [update_self, hsame, hl.length_eq, length_cons, h.counted o hlt]
    · rw [update_of_ne heq, hother o heq, h.counted o hlt]
  · intro o hlt q hq
    rw [Zone.insert_pageBuddy, Zone.insert_pagePrivate]
    rcases (hmem o q).mp hq with ⟨rfl, rfl⟩ | hold
    · rw [update_self, update_self]
      exact ⟨rfl, rfl⟩
    · have hne : q ≠ page := fun heq => hfresh o hlt (heq ▸ hold)
      rw [update_of_ne hne, update_of_ne hne]
      exact h.marked o hlt q hold
  · intro u hu q hvalid hzone hq
    rw [Zone.insert_pagePrivate]
    by_cases heq : q = page
    · subst heq
      rw [update_self]
      exact ⟨ho, (hmem order q).mpr (.inl ⟨rfl, rfl⟩)⟩
    · rw [Zone.insert_pageBuddy, update_of_ne heq] at hq
      rw [update_of_ne heq]
      obtain ⟨hlt, hold⟩ := h.listed u hu q hvalid hzone hq
      exact ⟨hlt, (hmem _ q).mpr (.inr hold)⟩
  · intro o hlt q hq hq'
    have hpage : 2 ^ order ∣ page := h.held_aligned
    rcases (hmem o q).mp hq with ⟨rfl, rfl⟩ | hold
    · rw [findBuddyIndex_eq hpage] at hq'
      rcases (hmem o _).mp hq' with ⟨-, heq⟩ | hold'
      · exact buddyStart_ne hpage heq
      · exact hbuddy hlt hold'
    · rcases (hmem o _).mp hq' with ⟨rfl, heq⟩ | hold'
      · -- the old block is the buddy of the new one
        have hq2 : 2 ^ o ∣ q := h.listed_aligned ho hold
        rw [findBuddyIndex_eq hq2] at heq
        rw [← heq, buddyStart_buddyStart hq2] at hbuddy
        exact hbuddy hlt hold
      · exact h.coalesced o hlt q hold hold'

/-- A held block may be cut into its halves, of which the upper one comes first. -/
lemma split (h : Keeps L U z (⟨page, order + 1⟩ :: held)) :
    Keeps L U z (⟨page + 2 ^ order, order⟩ :: ⟨page, order⟩ :: held) := by
  have ho : order + 1 < L.maxOrder := h.small ⟨page, order + 1⟩ (by simp)
  refine h.regroup ?_ (((partition_halves h.held_aligned).mpr h.partition).perm (.swap _ _ _))
  simp only [mem_cons, forall_eq_or_imp]
  exact ⟨by omega, by omega, fun b hb => h.small b (by simp [hb])⟩

lemma join (h : Keeps L U z (⟨buddyStart page order, order⟩ :: ⟨page, order⟩ :: held))
    (ho : order + 1 < L.maxOrder) : Keeps L U z (⟨parentStart page order, order + 1⟩ :: held) := by
  refine h.regroup ?_ (h.partition.perm (.swap _ _ _)).join
  simp only [mem_cons, forall_eq_or_imp]
  exact ⟨ho, fun b hb => h.small b (by simp [hb])⟩

/-! ## Freeing -/

variable [DecidableEq κ]

/-- The test of the loop finds out whether the buddy is free. -/
lemma pageIsBuddy_iff (hU : L.Zoned U) (h : Keeps L U z (⟨page, order⟩ :: held))
    (ho : order + 1 < L.maxOrder) :
    pageIsBuddy L z page (buddyStart page order) order ↔
      buddyStart page order ∈ z.freeList order := by
  simp only [pageIsBuddy, Bool.and_eq_true, decide_eq_true_eq, beq_iff_eq]
  constructor
  · rintro ⟨⟨hvalid, hzone⟩, hbuddy, hprivate⟩
    have hlisted := (h.listed page h.held_mem _ hvalid hzone hbuddy).2
    rwa [hprivate] at hlisted
  · intro hp
    have hmem : buddyStart page order ∈ U := h.listed_mem (by omega) hp
    have hdiv : buddyStart page order / 2 ^ (L.maxOrder - 1) = page / 2 ^ (L.maxOrder - 1) :=
      buddyStart_div h.held_aligned (by omega)
    exact ⟨⟨hU.valid _ hmem, hU.zone page h.held_mem _ hmem hdiv.symm⟩,
      h.marked order (by omega) _ hp⟩

end Keeps

/-- The index is the page frame number in the lowest `MAX_ORDER` bits. -/
def Cursor.Indexed (L : Layout κ) (c : Cursor) : Prop := c.pageIdx = c.page % 2 ^ L.maxOrder

section Cursor

variable {L : Layout κ} {c : Cursor} (hc : c.Indexed L) (hpage : 2 ^ c.order ∣ c.page)
  (ho : c.order < L.maxOrder)

include hc hpage ho

lemma Cursor.Indexed.aligned : 2 ^ c.order ∣ c.pageIdx := by
  rw [hc]
  exact (Nat.dvd_mod_iff (Nat.pow_dvd_pow 2 (Nat.le_of_lt ho))).mpr hpage

lemma Cursor.Indexed.buddy : c.buddy = buddyStart c.page c.order := by
  rw [Cursor.buddy, findBuddyIndex_eq (hc.aligned hpage ho), hc]
  exact (starts_mod hpage ho).1

lemma Cursor.Indexed.combined :
    c.combined.page = parentStart c.page c.order ∧ c.combined.Indexed L := by
  have hidx : findBuddyIndex c.pageIdx c.order &&& c.pageIdx = parentStart c.pageIdx c.order := by
    rw [findBuddyIndex_eq (hc.aligned hpage ho),
      buddyStart_and_eq_parentStart (hc.aligned hpage ho)]
  have hstarts := starts_mod hpage ho
  rw [← hc] at hstarts
  have hparent : c.combined.page = parentStart c.page c.order := by
    rw [Cursor.combined, hidx]
    exact hstarts.2.1
  refine ⟨hparent, ?_⟩
  rw [Cursor.Indexed, hparent, hstarts.2.2]
  exact hidx

end Cursor

section Free

variable [DecidableEq κ] {L : Layout κ} {U : Set Nat} {z : Zone} {held : List Block}

/-- The block that the loop ends with has no free buddy, or is of the highest order. -/
lemma mergeLoop_keeps (hU : L.Zoned U) {c : Cursor} (hn : c.order + n + 1 = L.maxOrder)
    (hc : c.Indexed L) (h : Keeps L U z (⟨c.page, c.order⟩ :: held)) :
    ∃ z' c', mergeLoop L n z c = (z', c') ∧ Keeps L U z' (⟨c'.page, c'.order⟩ :: held) ∧
      (c'.order + 1 < L.maxOrder → buddyStart c'.page c'.order ∉ z'.freeList c'.order) := by
  induction n generalizing z c with
  | zero => exact ⟨z, c, rfl, h, fun hlt => by omega⟩
  | succ n ih =>
    have ho : c.order + 1 < L.maxOrder := by omega
    have hbuddy := hc.buddy h.held_aligned (by omega)
    obtain ⟨hpage, hcomb⟩ := hc.combined h.held_aligned (by omega)
    rw [mergeLoop]
    by_cases htest : pageIsBuddy L z c.page c.buddy c.order
    · rw [if_pos htest, hbuddy]
      rw [hbuddy, h.pageIsBuddy_iff hU ho] at htest
      refine ih (by simp only [Cursor.combined]; omega) hcomb ?_
      rw [hpage]
      exact (h.take (by omega) htest).join ho
    · rw [if_neg htest]
      rw [hbuddy, h.pageIsBuddy_iff hU ho] at htest
      exact ⟨z, c, rfl, h, fun _ => htest⟩

lemma freeOnePage_keeps (hU : L.Zoned U) (h : Keeps L U z (b :: held)) :
    Keeps L U (freeOnePage L z b.start b.order) held := by
  have ho : b.order < L.maxOrder := h.small b (by simp)
  have hidx : b.start &&& (1 <<< L.maxOrder - 1) = b.start % 2 ^ L.maxOrder := by
    rw [Nat.one_shiftLeft, Nat.and_two_pow_sub_one_eq_mod]
  obtain ⟨z', c, hloop, hkeeps, hbuddy⟩ :=
    mergeLoop_keeps (c := ⟨b.start, b.start &&& (1 <<< L.maxOrder - 1), b.order⟩)
      (n := L.maxOrder - 1 - b.order) hU (by simp only; omega) hidx h
  obtain ⟨l, hl, hlink⟩ := linkBlock_eq L z' c
  rw [freeOnePage, hloop, hlink]
  exact hkeeps.put hl hbuddy

end Free

/-! ## Allocating -/

section Alloc

variable {L : Layout κ} {U : Set Nat} {z : Zone} {held : List Block} {page order : Nat}

/-- What `expand` leaves of the block is its lowest part. -/
lemma expand_keeps {high : Nat} (hle : order ≤ high) (h : Keeps L U z (⟨page, high⟩ :: held)) :
    Keeps L U (expand z page order high) (⟨page, order⟩ :: held) := by
  induction high generalizing z with
  | zero =>
    obtain rfl := Nat.le_zero.mp hle
    exact h
  | succ high ih =>
    rcases lt_or_eq_of_le hle with hlt | rfl
    · have hle' : order ≤ high := by omega
      have hpage : 2 ^ (high + 1) ∣ page := h.held_aligned
      rw [expand_succ z page hle']
      refine ih hle' (h.split.put (.refl _) fun _ => ?_)
      -- the buddy of the upper half is the lower one, which is held
      rw [buddyStart_add hpage]
      exact h.split.held_not_listed (b := ⟨page, high⟩) (by simp) (by omega)
    · rw [expand_self]
      exact h

lemma rmqueueLoop_keeps (h : Keeps L U z held) {current : Nat} (hn : current + n = L.maxOrder)
    (hle : order ≤ current) :
    (∃ page z', rmqueueLoop z order n current = (some page, z') ∧
      Keeps L U z' (⟨page, order⟩ :: held)) ∨
    rmqueueLoop z order n current = (none, z) ∧
      ∀ o, current ≤ o → o < L.maxOrder → z.freeList o = [] := by
  induction n generalizing current with
  | zero => exact .inr ⟨rfl, fun o hlow hhigh => by omega⟩
  | succ n ih =>
    rw [rmqueueLoop]
    cases hlist : z.freeList current with
    | nil =>
      have hnext : current + 1 + n = L.maxOrder := by omega
      rcases ih hnext (by omega) with hfound | ⟨hnone, hempty⟩
      · exact .inl hfound
      · refine .inr ⟨hnone, fun o hlow hhigh => ?_⟩
        rcases lt_or_eq_of_le hlow with hlt | rfl
        · exact hempty o hlt hhigh
        · exact hlist
    | cons page rest =>
      have hp : page ∈ z.freeList current := by simp [hlist]
      exact .inl ⟨page, _, rfl, expand_keeps hle (h.take (by omega) hp)⟩

/-- `__rmqueue_smallest` hands out a block of the order, or finds that there is no free block of
that order or a higher one. -/
lemma rmqueueSmallest_keeps (h : Keeps L U z held) (order : Nat) :
    (∃ page z', rmqueueSmallest L z order = (some page, z') ∧
      Keeps L U z' (⟨page, order⟩ :: held)) ∨
    rmqueueSmallest L z order = (none, z) ∧
      ∀ o, order ≤ o → o < L.maxOrder → z.freeList o = [] := by
  rw [rmqueueSmallest]
  rcases lt_or_ge order L.maxOrder with hlt | hge
  · exact rmqueueLoop_keeps h (by omega) (by omega)
  · rw [Nat.sub_eq_zero_of_le hge]
    exact .inr ⟨rfl, fun o hlow hhigh => by omega⟩

end Alloc

end Mini2440.PageAlloc
