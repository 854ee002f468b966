import Mathlib.Data.Fintype.Card

/-!
# Singly linked lists in a heap

`Linked next start l` says that following the pointers `next` from `start` visits exactly
the cells of `l` and then ends. The heap is a total function, so a cell outside the list
may hold anything; the frame lemma `Linked.congr` is what makes updates local.
-/

namespace Mini2440.Library

open List Function

variable {α : Type*} {next next' : α → Option α} {start : Option α} {l : List α} {a b : α}

/-- Induction over a list that is walked with enough fuel. -/
lemma walk_induction {P : ∀ (l : List α) (n : Nat), l.length < n → Prop}
    (nil : ∀ n, P [] (n + 1) n.succ_pos)
    (cons : ∀ a l n h, P l n h → P (a :: l) (n + 1) (Nat.succ_lt_succ h)) : ∀ l n h, P l n h
  | _, 0, h => absurd h (Nat.not_lt_zero _)
  | [], n + 1, _ => nil n
  | a :: l, n + 1, h => cons a l n _ (walk_induction nil cons l n (Nat.lt_of_succ_lt_succ h))

/-- The cells reached from `start` through `next`, in order. -/
def Linked (next : α → Option α) : Option α → List α → Prop
  | start, [] => start = none
  | start, a :: l => start = some a ∧ Linked next (next a) l

@[simp] lemma linked_nil : Linked next start [] ↔ start = none := Iff.rfl

@[simp] lemma linked_cons :
    Linked next start (a :: l) ↔ start = some a ∧ Linked next (next a) l := Iff.rfl

instance decidableLinked [DecidableEq α] : ∀ start l, Decidable (Linked next start l)
  | start, [] => inferInstanceAs (Decidable (start = none))
  | _, a :: l => @instDecidableAnd _ _ _ (decidableLinked (next a) l)

lemma Linked.head (h : Linked next start l) : start = l.head? := by
  cases l with
  | nil => exact h
  | cons a l => exact h.1

lemma Linked.unique {l' : List α} (h : Linked next start l) (h' : Linked next start l') :
    l = l' := by
  induction l generalizing start l' with
  | nil =>
    cases l' with
    | nil => rfl
    | cons b l' => exact absurd (h.symm.trans h'.1) (by simp)
  | cons a l ih =>
    cases l' with
    | nil => exact absurd (h'.symm.trans h.1) (by simp)
    | cons b l' =>
      obtain rfl : a = b := Option.some.inj (h.1.symm.trans h'.1)
      rw [ih h.2 h'.2]

/-! ## Parts of a list -/

/-- The cells from `start` on, the last one of which points to `stop`. -/
def LinkedTo (next : α → Option α) : Option α → List α → Option α → Prop
  | start, [], stop => start = stop
  | start, a :: l, stop => start = some a ∧ LinkedTo next (next a) l stop

variable {stop stop' : Option α} {l₁ l₂ : List α}

@[simp] lemma linkedTo_nil : LinkedTo next start [] stop ↔ start = stop := Iff.rfl

@[simp] lemma linkedTo_cons :
    LinkedTo next start (a :: l) stop ↔ start = some a ∧ LinkedTo next (next a) l stop := Iff.rfl

lemma linkedTo_none : LinkedTo next start l none ↔ Linked next start l := by
  induction l generalizing start with
  | nil => rfl
  | cons a l ih => rw [linkedTo_cons, linked_cons, ih]

lemma linkedTo_append :
    LinkedTo next start (l₁ ++ l₂) stop ↔
      ∃ mid, LinkedTo next start l₁ mid ∧ LinkedTo next mid l₂ stop := by
  induction l₁ generalizing start with
  | nil => simp
  | cons a l₁ ih => simp [ih, and_assoc]

lemma linked_append :
    Linked next start (l₁ ++ l₂) ↔ ∃ mid, LinkedTo next start l₁ mid ∧ Linked next mid l₂ := by
  simp [← linkedTo_none, linkedTo_append]

lemma LinkedTo.head (h : LinkedTo next start (l ++ [a]) stop) : start = (l ++ [a]).head? := by
  cases l <;> exact h.1

/-- The frame rule: only the pointers of the cells on the list matter. -/
lemma LinkedTo.congr (h : LinkedTo next start l stop) (same : ∀ a ∈ l, next' a = next a) :
    LinkedTo next' start l stop := by
  induction l generalizing start with
  | nil => exact h
  | cons a l ih =>
    refine ⟨h.1, ?_⟩
    rw [same a (by simp)]
    exact ih h.2 fun b hb => same b (by simp [hb])

section

variable (h : Linked next start l)

include h

lemma Linked.congr (same : ∀ a ∈ l, next' a = next a) : Linked next' start l :=
  linkedTo_none.mp ((linkedTo_none.mpr h).congr same)

omit h in
lemma LinkedTo.update [DecidableEq α] (h : LinkedTo next start (l ++ [a]) stop) (ha : a ∉ l) :
    LinkedTo (update next a stop') start (l ++ [a]) stop' := by
  obtain ⟨_, hl, rfl, -⟩ := linkedTo_append.mp h
  refine linkedTo_append.mpr ⟨some a, hl.congr fun b hb => ?_, rfl, update_self ..⟩
  exact update_of_ne (by rintro rfl; exact ha hb) _ _

lemma Linked.snoc [DecidableEq α] (nodup : l.Nodup) (last : l.getLast? = some a) (fresh : b ∉ l)
    (stop : next b = none) : Linked (update next a (some b)) start (l ++ [b]) := by
  obtain ⟨l, rfl⟩ := getLast?_eq_some_iff.mp last
  refine linked_append.mpr ⟨some b, (linkedTo_none.mpr h).update (by grind), rfl, ?_⟩
  rwa [update_of_ne (by grind)]

/-! ## The cells of a list -/

lemma Linked.next_getElem (i : Nat) (hi : i < l.length) : next l[i] = l[i + 1]? := by
  induction l generalizing start i with
  | nil => simp at hi
  | cons a l ih =>
    cases i with
    | zero => simpa [head?_eq_getElem?] using h.2.head
    | succ i => simpa using ih h.2 i (by simpa using hi)

omit h in
lemma Linked.of_append (h : Linked next start (l₁ ++ a :: l₂)) :
    Linked next (some a) (a :: l₂) := by
  obtain ⟨_, -, rfl, hl₂⟩ := linked_append.mp h
  exact ⟨rfl, hl₂⟩

/-- A linked list does not meet a cell twice, or it would not end. -/
lemma Linked.nodup : l.Nodup := by
  induction l generalizing start with
  | nil => exact nodup_nil
  | cons a l ih =>
    refine nodup_cons.mpr ⟨fun hmem => ?_, ih h.2⟩
    obtain ⟨l₁, l₂, rfl⟩ := append_of_mem hmem
    have hlong : Linked next (some a) (a :: (l₁ ++ a :: l₂)) := ⟨rfl, h.2⟩
    have hsame := (Linked.of_append h.2).unique hlong
    have hlength := congrArg length hsame
    simp only [length_cons, length_append] at hlength
    omega

/-- A cell is on the list if it is the start or one cell of the list points to it. -/
lemma Linked.countP_next [DecidableEq α] (a : α) :
    l.countP (fun b => next b = some a) + (if start = some a then 1 else 0) = l.count a := by
  induction l generalizing start with
  | nil => simp [h.head]
  | cons b l ih =>
    have hrest := ih h.2
    rw [countP_cons, count_cons]
    simp only [h.1, Option.some.injEq, decide_eq_true_eq, beq_iff_eq] at hrest ⊢
    omega

/-! ## Following the pointers -/

/-- The first `n` cells from `start` on. -/
def follow (next : α → Option α) : Nat → Option α → List α
  | 0, _ => []
  | _ + 1, none => []
  | n + 1, some a => a :: follow next n (next a)

lemma Linked.follow_eq {n : Nat} (hn : l.length ≤ n) : follow next n start = l := by
  induction l generalizing start n with
  | nil =>
    rw [h.head]
    cases n <;> rfl
  | cons a l ih =>
    cases n with
    | zero => simp at hn
    | succ n => rw [h.1, follow, ih h.2 (Nat.le_of_succ_le_succ hn)]

lemma Linked.length_le_card [Fintype α] : l.length ≤ Fintype.card α :=
  h.nodup.length_le_card

end

/-! ## Forests -/

def Rooted (next : α → Option α) : Prop := ∀ a, ∃ l, Linked next (some a) l

/-- Pointers can be redirected to a place that still leads to an end. -/
lemma Rooted.redirect (h : Rooted next) (hlinked : Linked next' stop l)
    (hnext : ∀ a, next' a = next a ∨ next' a = stop) : Rooted next' := by
  -- a path is the old one up to the first cell that is redirected
  have hpath : ∀ start path, Linked next start path → ∃ path', Linked next' start path' := by
    intro start path hpath
    induction path generalizing start with
    | nil => exact ⟨[], hpath⟩
    | cons c path ih =>
      rcases hnext c with hc | hc
      · obtain ⟨path', hpath'⟩ := ih _ hpath.2
        exact ⟨c :: path', hpath.1, by rwa [hc]⟩
      · exact ⟨c :: l, hpath.1, by rwa [hc]⟩
  intro c
  obtain ⟨path, hc⟩ := h c
  exact hpath _ path hc

lemma Rooted.update [DecidableEq α] (h : Rooted next) (hlinked : Linked next stop l)
    (hmem : a ∉ l) : Rooted (update next a stop) := by
  refine h.redirect (hlinked.congr fun d hd => update_of_ne ?_ _ _) fun c => ?_
  · rintro rfl
    exact hmem hd
  · rw [update_apply]
    split
    · exact .inr rfl
    · exact .inl rfl

/-- What leads to a place is not on the way from there. -/
lemma Linked.not_mem_of_next (h : Linked next (some b) l) (ha : next a = some b) : a ∉ l := by
  have hlong : Linked next (some a) (a :: l) := ⟨rfl, ha ▸ h⟩
  exact (nodup_cons.mp hlong.nodup).1

end Mini2440.Library
