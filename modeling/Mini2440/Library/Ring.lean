import Mathlib.Data.List.Nodup

/-!
# Circular lists in a heap

Doubly linked lists with a node of their own at the head: the last item points to the head
again. `IsRing h head l` says that `l` are the items, in both directions. The heap is total, and a
node that is on no list may point anywhere.

Both directions are paths, so what an operation does to a list is proved for one path and used
for both.
-/

namespace Mini2440.Library

open List Function

variable {α : Type*} {next next' : α → α} {a b c e : α} {l l₁ l₂ : List α}

/-- Following the pointers from `a` leads through `l` to `b`. -/
def Path (next : α → α) : α → List α → α → Prop
  | a, [], b => next a = b
  | a, c :: l, b => next a = c ∧ Path next c l b

lemma path_append : Path next a (l₁ ++ c :: l₂) b ↔ Path next a l₁ c ∧ Path next c l₂ b := by
  induction l₁ generalizing a with
  | nil => rfl
  | cons d l₁ ih => simp only [cons_append, Path, ih, and_assoc]

lemma Path.congr (h : Path next a l b) (same : ∀ c ∈ a :: l, next' c = next c) :
    Path next' a l b := by
  induction l generalizing a with
  | nil => exact (same a (by simp)).trans h
  | cons c l ih =>
    exact ⟨(same a (by simp)).trans h.1, ih h.2 fun d hd => same d (mem_cons_of_mem _ hd)⟩

lemma Path.first (h : Path next a l b) : next a = (b :: l.reverse).getLast (by simp) := by
  cases l with
  | nil => exact h
  | cons c l => simpa using h.1

lemma Path.start (h : Path next a l b) (hc : next' c = next a)
    (same : ∀ d ∈ l, next' d = next d) : Path next' c l b := by
  cases l with
  | nil => exact hc.trans h
  | cons d l => exact ⟨hc.trans h.1, h.2.congr same⟩

variable [DecidableEq α]

lemma Path.redirect (h : Path next a l b) (nodup : (a :: l).Nodup) (c : α) :
    Path (update next ((a :: l).getLast (by simp)) c) a l c := by
  induction l generalizing a with
  | nil => simp [Path]
  | cons d l ih =>
    obtain ⟨ha, nodup⟩ := nodup_cons.mp nodup
    have hne : a ≠ (d :: l).getLast (by simp) := by
      rintro heq
      exact ha (heq ▸ getLast_mem _)
    rw [getLast_cons (by simp)]
    exact ⟨by rw [update_of_ne hne]; exact h.1, ih h.2 nodup⟩

lemma Path.skip (h : Path next a (l₁ ++ e :: l₂) b) (nodup : (a :: (l₁ ++ e :: l₂)).Nodup) (p : α) :
    Path (update (update next ((a :: l₁).getLast (by simp)) (next e)) e p) a (l₁ ++ l₂) b := by
  obtain ⟨hl₁, hl₂⟩ := path_append.mp h
  rw [← cons_append, nodup_append'] at nodup
  obtain ⟨nodup₁, nodup₂, hdisj⟩ := nodup
  have hlast : ∀ c ∈ e :: l₂, c ≠ (a :: l₁).getLast (by simp) := by
    rintro c hc rfl
    exact hdisj (getLast_mem _) hc
  have he : ∀ c ∈ (a :: l₁) ++ l₂, c ≠ e := by
    rintro c hc rfl
    rcases mem_append.mp hc with hc | hc
    · exact hdisj hc (by simp)
    · exact (nodup_cons.mp nodup₂).1 hc
  have hskip : Path (update next ((a :: l₁).getLast (by simp)) (next e)) a (l₁ ++ l₂) b := by
    cases l₂ with
    | nil =>
      rw [append_nil, show next e = b from hl₂]
      exact hl₁.redirect nodup₁ b
    | cons c l₂ =>
      rw [path_append, hl₂.1]
      refine ⟨hl₁.redirect nodup₁ c, hl₂.2.congr fun d hd => update_of_ne ?_ _ _⟩
      exact hlast d (mem_cons_of_mem _ hd)
  exact hskip.congr fun c hc => update_of_ne (he c hc) _ _

/-! ## Rings -/

structure Heap (α : Type*) where
  next : α → α
  prev : α → α

namespace Heap

def addTail (h : Heap α) (new head : α) : Heap α :=
  let last := h.prev head
  { next := update (update h.next new head) last new
    prev := update (update h.prev head new) new last }

/-- A node is taken off its list, and left with pointers that lead nowhere. -/
def del (h : Heap α) (e poison₁ poison₂ : α) : Heap α :=
  { next := update (update h.next (h.prev e) (h.next e)) e poison₁
    prev := update (update h.prev (h.next e) (h.prev e)) e poison₂ }

end Heap

structure IsRing (h : Heap α) (head : α) (l : List α) : Prop where
  nodup : (head :: l).Nodup
  forward : Path h.next head l head
  backward : Path h.prev head l.reverse head

variable {h : Heap α} {head new : α}

omit [DecidableEq α] in
lemma isRing_nil (hnext : h.next head = head) (hprev : h.prev head = head) : IsRing h head [] :=
  ⟨by simp, hnext, hprev⟩

lemma IsRing.addTail (hr : IsRing h head l) (hnew : new ∉ head :: l) :
    IsRing (h.addTail new head) head (l ++ [new]) := by
  have hlast : h.prev head = (head :: l).getLast (by simp) := by
    simpa using hr.backward.first
  have hne : new ≠ h.prev head := by
    rw [hlast]
    rintro rfl
    exact hnew (getLast_mem _)
  refine ⟨?_, path_append.mpr ⟨?_, ?_⟩, ?_⟩
  · rw [← cons_append, nodup_append']
    exact ⟨hr.nodup, by simp, by simpa using hnew⟩
  · have hforward : Path (update h.next new head) head l head :=
      hr.forward.congr fun c hc => update_of_ne (by rintro rfl; exact hnew hc) _ _
    have hend := hforward.redirect hr.nodup new
    rwa [← hlast] at hend
  · simp [Path, Heap.addTail, hne]
  · have hhead : head ≠ new := fun heq => hnew (by simp [heq])
    rw [reverse_append, reverse_singleton]
    refine ⟨by simp [Heap.addTail, hhead], hr.backward.start (by simp [Heap.addTail]) ?_⟩
    intro d hd
    have hd' : d ≠ new := by
      rintro rfl
      exact hnew (by simp_all)
    have hd'' : d ≠ head := by
      rintro rfl
      exact (nodup_cons.mp hr.nodup).1 (by simpa using hd)
    simp [Heap.addTail, hd', hd'']

lemma IsRing.del (hr : IsRing h head (l₁ ++ e :: l₂)) (poison₁ poison₂ : α) :
    IsRing (h.del e poison₁ poison₂) head (l₁ ++ l₂) := by
  have hbackward : Path h.prev head (l₂.reverse ++ e :: l₁.reverse) head := by
    simpa using hr.backward
  have hreverse : (head :: (l₂.reverse ++ e :: l₁.reverse)).Nodup := by
    have hnodup : (head :: (l₁ ++ e :: l₂).reverse).Nodup := by
      rw [nodup_cons, mem_reverse, nodup_reverse]
      exact nodup_cons.mp hr.nodup
    simpa only [reverse_append, reverse_cons, append_assoc, singleton_append] using hnodup
  have hnext := (path_append.mp hr.forward).2.first
  have hprev : h.prev e = (head :: l₁).getLast (by simp) := by
    simpa using (path_append.mp hbackward).2.first
  refine ⟨?_, ?_, ?_⟩
  · have hsub : (head :: (l₁ ++ l₂)).Sublist (head :: (l₁ ++ e :: l₂)) := by simp
    exact hr.nodup.sublist hsub
  · have hskip := hr.forward.skip hr.nodup poison₁
    rwa [← hprev] at hskip
  · have hskip := hbackward.skip hreverse poison₂
    rw [← hnext] at hskip
    rw [reverse_append]
    exact hskip

end Mini2440.Library
