import Mini2440.PageAlloc.Buddies
import Mini2440.Library.Run

/-!
# Sequences of allocations and frees

The state of a run is the zone together with the blocks that were handed out and not yet given
back. A run may ask for a block of any order, and may give back any block that it holds, at the
order that it was handed out with. A block that could not be had leaves the state as it was.
-/

namespace Mini2440.PageAlloc

open Library

variable {κ : Type*}

def Layout.freePages (L : Layout κ) (z : Zone) : Set Nat :=
  {u | ∃ b ∈ z.blocks L.maxOrder, b.Has u}

/-- A free state: the lists, counts and flags agree, and there are no two free buddies. -/
structure Layout.Coalesced (L : Layout κ) (z : Zone) : Prop where
  zoned : L.Zoned (L.freePages z)
  keeps : Keeps L (L.freePages z) z []

structure State where
  zone : Zone
  outstanding : List Block

inductive Call where
  | rmqueueSmallest (order : Nat)
  | freeOnePage (b : Block)

section Step

variable [DecidableEq κ]

def step (L : Layout κ) (s : State) : Call → State
  | .rmqueueSmallest order =>
    match rmqueueSmallest L s.zone order with
    | (some page, z) => ⟨z, ⟨page, order⟩ :: s.outstanding⟩
    | (none, z) => ⟨z, s.outstanding⟩
  | .freeOnePage b => ⟨freeOnePage L s.zone b.start b.order, s.outstanding.erase b⟩

def Call.Allowed (s : State) : Call → Prop
  | .rmqueueSmallest _ => True
  | .freeOnePage b => b ∈ s.outstanding

instance (s : State) (call : Call) : Decidable (call.Allowed s) :=
  match call with
  | .rmqueueSmallest _ => .isTrue trivial
  | .freeOnePage b => inferInstanceAs (Decidable (b ∈ s.outstanding))

variable {L : Layout κ} {U : Set Nat} {s : State}

lemma step_keeps (hU : L.Zoned U) (call : Call) (h : Keeps L U s.zone s.outstanding)
    (hcall : call.Allowed s) : Keeps L U (step L s call).zone (step L s call).outstanding := by
  cases call with
  | rmqueueSmallest order =>
    rw [step]
    rcases rmqueueSmallest_keeps h order with ⟨page, z', heq, hkeeps⟩ | ⟨heq, -⟩
    · rw [heq]
      exact hkeeps
    · rw [heq]
      exact h
  | freeOnePage b =>
    exact freeOnePage_keeps hU (h.perm (List.perm_cons_erase hcall))

/-- From a coalesced free state, after any sequence of calls, the free and the outstanding blocks
are a partition into aligned blocks of the pages that were free at first, the counts are the
lengths of the lists, no two buddies below the highest order are both free, and an order is
refused only if there is no free block of that order or a higher one. -/
theorem buddy_partition (L : Layout κ) (z : Zone) (hz : L.Coalesced z) (calls : List Call)
    (hcalls : Along (step L) (fun s call => call.Allowed s) ⟨z, []⟩ calls) :
    let s := runFrom (step L) ⟨z, []⟩ calls
    Partition (L.freePages z) (s.outstanding ++ s.zone.blocks L.maxOrder) ∧
      (∀ order < L.maxOrder, s.zone.nrFree order = (s.zone.freeList order).length) ∧
      (∀ order, order + 1 < L.maxOrder → ∀ page ∈ s.zone.freeList order,
        findBuddyIndex page order ∉ s.zone.freeList order) ∧
      ∀ order, (rmqueueSmallest L s.zone order).1 = none →
        ∀ b ∈ s.zone.blocks L.maxOrder, b.order < order := by
  intro s
  have hkeeps := hcalls.invariant (P := fun s => Keeps L (L.freePages z) s.zone s.outstanding)
    (fun _ call => step_keeps hz.zoned call) hz.keeps
  refine ⟨hkeeps.partition, hkeeps.counted, hkeeps.coalesced, fun order hnone b hb => ?_⟩
  rcases rmqueueSmallest_keeps hkeeps order with ⟨page, z', heq, -⟩ | ⟨-, hempty⟩
  · rw [heq] at hnone
    exact absurd hnone (Option.some_ne_none page)
  · obtain ⟨hlt, hmem⟩ := Zone.mem_blocks.mp hb
    by_contra hge
    rw [hempty b.order (by omega) hlt] at hmem
    exact absurd hmem List.not_mem_nil

end Step

/-! ## A zone of four pages -/

def smallLayout : Layout Unit := ⟨3, fun _ => true, fun _ => ()⟩

def smallZone : Zone where
  freeList order := if order = 2 then [4] else []
  nrFree order := if order = 2 then 1 else 0
  pageBuddy page := page == 4
  pagePrivate page := if page = 4 then 2 else 0

lemma smallZone_coalesced : smallLayout.Coalesced smallZone := by
  refine ⟨⟨fun _ _ => rfl, fun _ _ _ _ _ => rfl⟩, ?_, ⟨?_, ?_, fun u => Iff.rfl⟩, ?_, ?_, ?_, ?_⟩
  · exact fun b hb => absurd hb List.not_mem_nil
  · decide
  · decide
  · decide
  · decide
  · rintro u - page - - hbuddy
    obtain rfl : page = 4 := by simpa [smallZone] using hbuddy
    decide
  · intro order ho
    have hlt : order < 2 := Nat.lt_of_succ_lt_succ ho
    simp [smallZone, Nat.ne_of_lt hlt]

def smallCalls : List Call :=
  [.rmqueueSmallest 0, .rmqueueSmallest 1, .freeOnePage ⟨4, 0⟩]

theorem smallZone_partition :
    let s := runFrom (step smallLayout) ⟨smallZone, []⟩ smallCalls
    s.outstanding = [⟨6, 1⟩] ∧ s.zone.blocks 3 = [⟨4, 1⟩] ∧
      Partition (smallLayout.freePages smallZone) (s.outstanding ++ s.zone.blocks 3) ∧
      ∀ order, (rmqueueSmallest smallLayout s.zone order).1 = none →
        ∀ b ∈ s.zone.blocks 3, b.order < order :=
  have h := buddy_partition smallLayout smallZone smallZone_coalesced smallCalls (by decide)
  ⟨by decide, by decide, h.1, h.2.2.2⟩

end Mini2440.PageAlloc
