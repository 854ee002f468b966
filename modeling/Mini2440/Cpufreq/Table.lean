import Mathlib.Algebra.Group.Nat.Defs
import Mathlib.Data.List.Induction
import Mathlib.Order.Bounds.Basic
import Mini2440.Errno

/-!
# Frequency tables

The search of `freq_table.c` for the entry of a frequency table that fits a request. Entries
and requests are 32-bit numbers, in kHz or in Hz as the table is.
-/

namespace Mini2440.Cpufreq

/-- `struct cpufreq_frequency_table`. A table is the list of the entries before the one with the
frequency `CPUFREQ_TABLE_END`. -/
structure Entry where
  index : Nat
  frequency : Nat
  deriving DecidableEq, Repr

/-- `CPUFREQ_ENTRY_INVALID`, and the greatest 32-bit number in general. -/
def allOnes : Nat := 2 ^ 32 - 1

/-- The limits of `struct cpufreq_policy`. -/
structure Policy where
  min : Nat
  max : Nat
  deriving DecidableEq, Repr

/-- The lowest frequency at or above the target. -/
def relationL : Nat := 0

/-- The highest frequency at or below the target. -/
def relationH : Nat := 1

/-- The best entries found so far, on the side of the target that the relation asks for and on
the other one. -/
structure Best where
  optimal : Entry
  suboptimal : Entry

def Best.init (relation : Nat) : Best where
  optimal := ⟨allOnes, if relation = relationL then allOnes else 0⟩
  suboptimal := ⟨allOnes, if relation = relationH then allOnes else 0⟩

/-- One round of the loop, for the entry at position `i`. -/
def Best.round (policy : Policy) (target relation : Nat) (b : Best) (freq i : Nat) : Best :=
  if freq = allOnes then b
  else if freq < policy.min ∨ freq > policy.max then b
  else if relation = relationH then
    if freq ≤ target then
      if freq ≥ b.optimal.frequency then { b with optimal := ⟨i, freq⟩ } else b
    else
      if freq ≤ b.suboptimal.frequency then { b with suboptimal := ⟨i, freq⟩ } else b
  else if relation = relationL then
    if freq ≥ target then
      if freq ≤ b.optimal.frequency then { b with optimal := ⟨i, freq⟩ } else b
    else
      if freq ≥ b.suboptimal.frequency then { b with suboptimal := ⟨i, freq⟩ } else b
  else b

/-- `cpufreq_frequency_table_target`: the position of the entry, or none for `-EINVAL`. -/
def frequencyTableTarget (policy : Policy) (table : List Entry) (target relation : Nat) :
    Option Nat :=
  let b : Best := table.zipIdx.foldl
    (fun b p => Best.round policy target relation b p.1.frequency p.2) (.init relation)
  if b.optimal.index > table.length then
    if b.suboptimal.index > table.length then none else some b.suboptimal.index
  else some b.optimal.index

/-! ## What the search finds -/

def Policy.Admits (policy : Policy) (f : Nat) : Prop :=
  f ≠ allOnes ∧ policy.min ≤ f ∧ f ≤ policy.max

def inRange (policy : Policy) (table : List Entry) : Set Nat :=
  {f | policy.Admits f ∧ ∃ e ∈ table, e.frequency = f}

/-- The order of a relation. The optimal entry is the first one that is not before the target, and
the suboptimal one is the last one before it. -/
def Before (relation f g : Nat) : Prop := if relation = relationH then g ≤ f else f ≤ g

instance (policy : Policy) : DecidablePred policy.Admits := fun f =>
  inferInstanceAs (Decidable (f ≠ allOnes ∧ policy.min ≤ f ∧ f ≤ policy.max))

instance (relation : Nat) : DecidableRel (Before relation) := fun f g =>
  inferInstanceAs (Decidable (if relation = relationH then g ≤ f else f ≤ g))

section Search

variable {policy : Policy} {target relation : Nat} {table l : List Entry} {b : Best} {e x : Entry}
  {r : Nat → Nat → Prop} {watched : Nat → Prop}

lemma Best.round_eq (hrel : relation = relationL ∨ relation = relationH) (f i : Nat) :
    b.round policy target relation f i =
      if policy.Admits f then
        if Before relation target f then
          if Before relation f b.optimal.frequency then { b with optimal := ⟨i, f⟩ } else b
        else
          if Before relation b.suboptimal.frequency f then { b with suboptimal := ⟨i, f⟩ } else b
      else b := by
  unfold Best.round
  by_cases hf : policy.Admits f
  · have hin : ¬ (f < policy.min ∨ f > policy.max) := by
      have := hf.2
      omega
    rw [if_neg hf.1, if_neg hin, if_pos hf]
    rcases hrel with rfl | rfl <;> simp [Before, relationL, relationH]
  · split_ifs with hvalid hin <;> first | rfl | exact absurd ⟨hvalid, by omega, by omega⟩ hf

/-- `x` is the entry of `l` that a variable of the loop stands for: the first one in the order `r`
of those that it watches, or the initial value if there is none. -/
def Keeps (r : Nat → Nat → Prop) (watched : Nat → Prop) (l : List Entry) (x : Entry) : Prop :=
  (x.index = allOnes ∧ (∀ f ≤ allOnes, r f x.frequency) ∧ ∀ e ∈ l, ¬ watched e.frequency) ∨
    (∃ e, l[x.index]? = some e ∧ e.frequency = x.frequency) ∧ watched x.frequency ∧
      ∀ e ∈ l, watched e.frequency → r x.frequency e.frequency

lemma Keeps.skip (h : Keeps r watched l x) (he : ¬ watched e.frequency) :
    Keeps r watched (l ++ [e]) x := by
  rcases h with ⟨hindex, hfreq, hnone⟩ | ⟨⟨d, hd, hfreq⟩, hwatched, hbest⟩
  · exact Or.inl ⟨hindex, hfreq, by simpa [or_imp, forall_and] using ⟨hnone, he⟩⟩
  · refine Or.inr ⟨⟨d, ?_, hfreq⟩, hwatched, ?_⟩
    · rw [List.getElem?_append_left (List.getElem?_eq_some_iff.mp hd).1, hd]
    · simpa [or_imp, forall_and] using ⟨hbest, fun hw => absurd hw he⟩

lemma Keeps.offer [DecidableRel r] (h : Keeps r watched l x)
    (htrans : ∀ f g h, r f g → r g h → r f h) (htotal : ∀ f g, r f g ∨ r g f)
    (he : watched e.frequency) (hle : e.frequency ≤ allOnes) :
    Keeps r watched (l ++ [e])
      (if r e.frequency x.frequency then ⟨l.length, e.frequency⟩ else x) := by
  split_ifs with hbetter
  · refine Or.inr ⟨⟨e, by simp, rfl⟩, he, ?_⟩
    intro d hd hw
    rcases List.mem_append.mp hd with hd | hd
    · rcases h with ⟨-, -, hnone⟩ | ⟨-, -, hbest⟩
      · exact absurd hw (hnone d hd)
      · exact htrans _ _ _ hbetter (hbest d hd hw)
    · obtain rfl := List.mem_singleton.mp hd
      exact (htotal _ _).elim id id
  · rcases h with ⟨-, hfreq, -⟩ | ⟨⟨d, hd, hfreq⟩, hwatched, hbest⟩
    · exact absurd (hfreq _ hle) hbetter
    · refine Or.inr ⟨⟨d, ?_, hfreq⟩, hwatched, ?_⟩
      · rw [List.getElem?_append_left (List.getElem?_eq_some_iff.mp hd).1, hd]
      · have hlast := (htotal e.frequency x.frequency).resolve_left hbetter
        simpa [or_imp, forall_and] using ⟨hbest, fun _ => hlast⟩

lemma Before.trans {f g h : Nat} (hfg : Before relation f g) (hgh : Before relation g h) :
    Before relation f h := by
  unfold Before at *
  split_ifs at * <;> omega

lemma Before.total (relation f g : Nat) : Before relation f g ∨ Before relation g f := by
  unfold Before
  split_ifs <;> omega

def Best.Sound (policy : Policy) (target relation : Nat) (l : List Entry) (b : Best) : Prop :=
  Keeps (Before relation) (fun f => policy.Admits f ∧ Before relation target f) l b.optimal ∧
    Keeps (fun f g => Before relation g f)
      (fun f => policy.Admits f ∧ ¬ Before relation target f) l b.suboptimal

lemma Best.sound_init (hrel : relation = relationL ∨ relation = relationH) :
    Best.Sound policy target relation [] (.init relation) := by
  rcases hrel with rfl | rfl <;> constructor <;> refine Or.inl ⟨rfl, fun f hf => ?_, by simp⟩ <;>
    simp_all [Before, Best.init, relationL, relationH]

lemma Best.Sound.round (hrel : relation = relationL ∨ relation = relationH)
    (h : b.Sound policy target relation l) (hle : e.frequency ≤ allOnes) :
    (b.round policy target relation e.frequency l.length).Sound policy target relation
      (l ++ [e]) := by
  obtain ⟨hopt, hsub⟩ := h
  rw [Best.round_eq hrel]
  by_cases hadmits : policy.Admits e.frequency
  · by_cases hside : Before relation target e.frequency
    · have hkept := hopt.offer (fun _ _ _ => Before.trans) (Before.total relation)
        ⟨hadmits, hside⟩ hle
      have hother := hsub.skip fun hw => hw.2 hside
      split_ifs at hkept ⊢ <;> exact ⟨hkept, hother⟩
    · have hkept := hsub.offer (fun _ _ _ hfg hgh => Before.trans hgh hfg)
        (fun f g => Before.total relation g f) ⟨hadmits, hside⟩ hle
      have hother := hopt.skip fun hw => hside hw.2
      split_ifs at hkept ⊢ <;> exact ⟨hother, hkept⟩
  · rw [if_neg hadmits]
    exact ⟨hopt.skip fun hw => hadmits hw.1, hsub.skip fun hw => hadmits hw.1⟩

lemma Best.sound_foldl (hrel : relation = relationL ∨ relation = relationH)
    (hle : ∀ e ∈ table, e.frequency ≤ allOnes) :
    Best.Sound policy target relation table (table.zipIdx.foldl
      (fun b p => Best.round policy target relation b p.1.frequency p.2) (.init relation)) := by
  induction table using List.reverseRecOn with
  | nil => exact Best.sound_init hrel
  | append_singleton l e ih =>
    have hsound := ih fun d hd => hle d (List.mem_append_left _ hd)
    rw [List.zipIdx_append]
    simpa using hsound.round hrel (hle e (by simp))

lemma Keeps.not_lt_index (h : ∃ e, l[x.index]? = some e ∧ e.frequency = x.frequency) :
    ¬ x.index > l.length := by
  obtain ⟨e, he, -⟩ := h
  exact (List.getElem?_eq_some_iff.mp he).1.asymm

lemma frequencyTableTarget_cases (policy : Policy) (target : Nat)
    (hrel : relation = relationL ∨ relation = relationH) (hsize : table.length < allOnes)
    (hle : ∀ e ∈ table, e.frequency ≤ allOnes) :
    frequencyTableTarget policy table target relation = none ∧ inRange policy table = ∅ ∨
      ∃ i e, frequencyTableTarget policy table target relation = some i ∧ table[i]? = some e ∧
        e.frequency ∈ inRange policy table ∧
        (Before relation target e.frequency ∧
            (∀ f ∈ inRange policy table, Before relation target f → Before relation e.frequency f) ∨
          ∀ f ∈ inRange policy table,
            ¬ Before relation target f ∧ Before relation f e.frequency) := by
  obtain ⟨hopt, hsub⟩ := Best.sound_foldl hrel hle
  unfold frequencyTableTarget
  rcases hopt with ⟨hindex, -, hnone⟩ | ⟨hat, ⟨hadmits, hside⟩, hbest⟩
  · have hpast : ∀ f ∈ inRange policy table, ¬ Before relation target f := by
      rintro f ⟨hf, e, he, rfl⟩ hside
      exact hnone e he ⟨hf, hside⟩
    simp only [hindex, hsize]
    rcases hsub with ⟨hindex, -, hnone⟩ | ⟨hat, ⟨hadmits, hside⟩, hbest⟩
    · refine Or.inl ⟨by simp [hindex, hsize], Set.eq_empty_iff_forall_notMem.mpr ?_⟩
      rintro f ⟨hf, e, he, rfl⟩
      exact hnone e he ⟨hf, hpast _ ⟨hf, e, he, rfl⟩⟩
    · have hlast := Keeps.not_lt_index hat
      obtain ⟨e, he, hfreq⟩ := hat
      refine Or.inr ⟨_, e, if_neg hlast, he, ⟨hfreq ▸ hadmits, e, List.mem_of_getElem? he, rfl⟩,
        Or.inr fun f hf => ⟨hpast f hf, ?_⟩⟩
      obtain ⟨hf', d, hd, rfl⟩ := hf
      exact hfreq ▸ hbest d hd ⟨hf', hpast _ ⟨hf', d, hd, rfl⟩⟩
  · have hlast := Keeps.not_lt_index hat
    obtain ⟨e, he, hfreq⟩ := hat
    refine Or.inr ⟨_, e, if_neg hlast, he, ⟨hfreq ▸ hadmits, e, List.mem_of_getElem? he, rfl⟩,
      Or.inl ⟨hfreq ▸ hside, ?_⟩⟩
    rintro f ⟨hf, d, hd, rfl⟩ hside
    exact hfreq ▸ hbest d hd ⟨hf, hside⟩

/-- The search fails only if no valid entry is within the limits, and otherwise finds the entry
that its relation asks for, in any table. -/
theorem frequencyTableTarget_spec (policy : Policy) (table : List Entry) (target : Nat)
    (hsize : table.length < allOnes) (hle : ∀ e ∈ table, e.frequency ≤ allOnes) :
    (∀ relation, relation = relationL ∨ relation = relationH →
      (frequencyTableTarget policy table target relation = none ↔ inRange policy table = ∅)) ∧
    (∀ i, frequencyTableTarget policy table target relationH = some i →
      ∃ e, table[i]? = some e ∧
        (IsGreatest (inRange policy table ∩ Set.Iic target) e.frequency ∨
          (∀ f ∈ inRange policy table, target < f) ∧
            IsLeast (inRange policy table) e.frequency)) ∧
    ∀ i, frequencyTableTarget policy table target relationL = some i →
      ∃ e, table[i]? = some e ∧
        (IsLeast (inRange policy table ∩ Set.Ici target) e.frequency ∨
          (∀ f ∈ inRange policy table, f < target) ∧
            IsGreatest (inRange policy table) e.frequency) := by
  have hcases {relation i : Nat} (_ : frequencyTableTarget policy table target relation = some i)
      (hrel : relation = relationL ∨ relation = relationH) :=
    frequencyTableTarget_cases policy target hrel hsize hle
  refine ⟨fun relation hrel => ?_, fun i hi => ?_, fun i hi => ?_⟩
  · obtain ⟨hnone, hempty⟩ | ⟨i, e, hsome, -, hmem, -⟩ :=
      frequencyTableTarget_cases policy target hrel hsize hle
    · exact iff_of_true hnone hempty
    · refine iff_of_false (by simp [hsome]) fun hempty => ?_
      rw [hempty] at hmem
      exact hmem
  all_goals
    obtain ⟨hnone, -⟩ | ⟨j, e, hsome, he, hmem, hbest⟩ := hcases hi (by simp)
    · cases hi.symm.trans hnone
    · cases hi.symm.trans hsome
      refine ⟨e, he, hbest.imp (fun h => ⟨⟨hmem, h.1⟩, fun f hf => h.2 f hf.1 hf.2⟩) fun h => ?_⟩
      exact ⟨fun f hf => Nat.lt_of_not_le (h f hf).1, hmem, fun f hf => (h f hf).2⟩

theorem unsorted_frequencyTableTarget_spec :
    let table : List Entry := [⟨0, 300⟩, ⟨1, allOnes⟩, ⟨2, 100⟩, ⟨3, 300⟩]
    ∃ e, table[3]? = some e ∧
      (IsGreatest (inRange ⟨50, 350⟩ table ∩ Set.Iic 320) e.frequency ∨
        (∀ f ∈ inRange ⟨50, 350⟩ table, 320 < f) ∧ IsLeast (inRange ⟨50, 350⟩ table) e.frequency) :=
  (frequencyTableTarget_spec ⟨50, 350⟩ _ 320 (by decide) (by decide)).2.1 3 (by decide)

end Search

end Mini2440.Cpufreq
