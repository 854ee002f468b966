import Mathlib.Data.List.Basic
import Mathlib.Order.Basic
import Mathlib.Data.Nat.Init

/-!
# Lists of half-open ranges

A list of ranges stands for the set of numbers in one of them. `Ascending gap b l` says that the
ranges are in order, that the first one does not begin before `b`, and that at least `gap`
numbers lie between two of them: `0` for ranges that may touch, `1` for ranges that do not.

The functions walk the list once, as a program does that keeps such a list in an array: `weave`
puts in what is missing of a range, `mergeWith` joins the ranges that touch, `cut` takes a range
out, `between` lists the holes, and `meets` the common parts of two lists.
-/

namespace Mini2440.Library

open List

/-- The numbers from `lo` on and below `hi`. -/
@[ext, grind ext] structure Span where
  lo : Nat
  hi : Nat
  deriving DecidableEq, Repr

variable {gap b b' a lo hi top : Nat} {s t : Span} {l l₁ l₂ : List Span}

@[grind] def Ascending (gap : Nat) : Nat → List Span → Prop
  | _, [] => True
  | b, s :: l => b ≤ s.lo ∧ s.lo ≤ s.hi ∧ Ascending gap (s.hi + gap) l

def Covers (l : List Span) (a : Nat) : Prop := ∃ s ∈ l, s.lo ≤ a ∧ a < s.hi

def Solid (l : List Span) : Prop := ∀ s ∈ l, s.lo < s.hi

instance : Decidable (Solid l) := inferInstanceAs (Decidable (∀ s ∈ l, s.lo < s.hi))

@[simp, grind =] lemma covers_nil : Covers [] a ↔ False := by simp [Covers]

@[simp, grind =] lemma covers_cons : Covers (s :: l) a ↔ s.lo ≤ a ∧ a < s.hi ∨ Covers l a := by
  simp [Covers]

@[simp, grind =] lemma covers_append : Covers (l₁ ++ l₂) a ↔ Covers l₁ a ∨ Covers l₂ a := by
  simp [Covers, or_and_right, exists_or]

@[simp, grind =] lemma solid_nil : Solid [] ↔ True := by simp [Solid]

@[simp, grind =] lemma solid_cons : Solid (s :: l) ↔ s.lo < s.hi ∧ Solid l := by
  simp [Solid]

@[simp, grind =] lemma solid_append : Solid (l₁ ++ l₂) ↔ Solid l₁ ∧ Solid l₂ := by
  simp [Solid, or_imp, forall_and]

section

variable (h : Ascending gap b l)

include h

@[grind →] lemma Ascending.mono (hb : b' ≤ b) : Ascending gap b' l := by
  cases l <;> grind

omit h in
@[grind →] lemma Ascending.tail (h : Ascending gap b (s :: l)) : Ascending gap s.hi l :=
  h.2.2.mono (Nat.le_add_right _ _)

lemma Ascending.relax {gap' : Nat} (hgap : gap' ≤ gap) : Ascending gap' b l := by
  induction l generalizing b with
  | nil => trivial
  | cons s l ih => exact ⟨h.1, h.2.1, (ih h.2.2).mono (by omega)⟩

@[grind →] lemma Ascending.le_of_covers (ha : Covers l a) : b ≤ a := by
  induction l generalizing b <;> grind

omit h in
lemma ascending_iff_pairwise :
    Ascending gap b l ↔
      (∀ s ∈ l, b ≤ s.lo ∧ s.lo ≤ s.hi) ∧ l.Pairwise fun s t => s.hi + gap ≤ t.lo := by
  induction l generalizing b with
  | nil => simp [Ascending]
  | cons s l ih =>
    rw [Ascending, ih, forall_mem_cons, pairwise_cons]
    constructor
    · rintro ⟨hb, hs, hl, hpair⟩
      exact ⟨⟨⟨hb, hs⟩, fun t ht => ⟨by have := hl t ht; omega, (hl t ht).2⟩⟩,
        fun t ht => (hl t ht).1, hpair⟩
    · rintro ⟨⟨⟨hb, hs⟩, hl⟩, hfirst, hpair⟩
      exact ⟨hb, hs, fun t ht => ⟨hfirst t ht, (hl t ht).2⟩, hpair⟩

lemma Ascending.drop (n : Nat) : Ascending gap b (l.drop n) := by
  rw [ascending_iff_pairwise] at h ⊢
  exact ⟨fun s hs => h.1 s (mem_of_mem_drop hs), h.2.drop⟩

lemma Ascending.take (n : Nat) : Ascending gap b (l.take n) := by
  rw [ascending_iff_pairwise] at h ⊢
  exact ⟨fun s hs => h.1 s (mem_of_mem_take hs), h.2.take⟩

end

/-- Where ranges do not touch, an interval that they cover lies in one of them. -/
lemma Ascending.exists_span (h : Ascending 1 b l) (hlt : lo < hi)
    (hcov : ∀ a, lo ≤ a → a < hi → Covers l a) : ∃ s ∈ l, s.lo ≤ lo ∧ hi ≤ s.hi := by
  induction l generalizing b with
  | nil => exact absurd (hcov lo (Nat.le_refl _) hlt) (by simp)
  | cons s l ih =>
    by_cases hs : s.lo ≤ lo ∧ lo < s.hi
    · refine ⟨s, mem_cons_self, hs.1, Nat.le_of_not_lt fun hshort => ?_⟩
      -- the number after the range is not in a later one
      grind
    · have hlater : Covers l lo := (covers_cons.mp (hcov lo (Nat.le_refl _) hlt)).resolve_left hs
      have hbound : s.hi < lo := h.2.2.le_of_covers hlater
      obtain ⟨t, ht, hspan⟩ := ih h.2.2 fun a hlo hhi =>
        (covers_cons.mp (hcov a hlo hhi)).resolve_left (by omega)
      exact ⟨t, mem_cons_of_mem _ ht, hspan⟩

/-! ## Putting a range in -/

@[grind] def piece (lo hi : Nat) : List Span := if lo < hi then [⟨lo, hi⟩] else []

@[simp, grind =] lemma covers_piece : Covers (piece lo hi) a ↔ lo ≤ a ∧ a < hi := by
  grind

@[simp, grind .] lemma solid_piece : Solid (piece lo hi) := by
  grind

lemma ascending_piece_append (hlo : b ≤ lo) (hl : Ascending gap b l)
    (hhi : lo < hi → Ascending gap (hi + gap) l) : Ascending gap b (piece lo hi ++ l) := by
  grind

/-- The list with those parts of the range from `lo` to `hi` put in that it does not have. -/
@[grind] def weave (hi : Nat) : Nat → List Span → List Span
  | lo, [] => piece lo hi
  | lo, s :: l =>
    if hi ≤ s.lo then piece lo hi ++ s :: l
    else if s.hi ≤ lo then s :: weave hi lo l
    else piece lo s.lo ++ s :: weave hi (min s.hi hi) l

lemma weave_of_le (h : hi ≤ lo) : weave hi lo l = l := by
  fun_induction weave hi lo l <;> grind

lemma covers_weave : Covers (weave hi lo l) a ↔ Covers l a ∨ lo ≤ a ∧ a < hi := by
  fun_induction weave hi lo l <;> grind

lemma solid_weave (h : Solid l) : Solid (weave hi lo l) := by
  fun_induction weave hi lo l <;> grind

lemma ascending_weave (h : Ascending 0 b l) (hlo : b ≤ lo) : Ascending 0 b (weave hi lo l) := by
  fun_induction weave hi lo l generalizing b with
  | case1 lo => grind
  | case2 lo s l hs => grind
  | case3 lo s l hs hlo' ih => grind
  | case4 lo s l hs hlo' ih =>
    -- a range that goes on beyond `hi` is the last one to be looked at
    rcases Nat.le_total s.hi hi with hle | hle
    · grind
    · rw [Nat.min_eq_right hle, weave_of_le (by omega)]
      grind

/-! ## Joining the ranges that touch -/

lemma Ascending.join (h : Ascending gap b (s :: t :: l)) : Ascending gap b (⟨s.lo, t.hi⟩ :: l) := by
  grind

/-- The list that begins with `s`, with every range joined to the one before that it touches. -/
@[grind] def mergeWith : Span → List Span → List Span
  | s, [] => [s]
  | s, t :: l => if s.hi = t.lo then mergeWith ⟨s.lo, t.hi⟩ l else s :: mergeWith t l

lemma mergeWith_ne_nil : mergeWith s l ≠ [] := by
  fun_induction mergeWith s l <;> grind

lemma covers_mergeWith (h : Ascending 0 b (s :: l)) :
    Covers (mergeWith s l) a ↔ Covers (s :: l) a := by
  fun_induction mergeWith s l generalizing b with
  | case1 s => rfl
  | case2 s t l htouch ih =>
    rw [ih h.join]
    grind
  | case3 s t l htouch ih => grind

lemma solid_mergeWith (h : Solid (s :: l)) : Solid (mergeWith s l) := by
  fun_induction mergeWith s l <;> grind

lemma ascending_mergeWith (h : Ascending 0 b (s :: l)) : Ascending 1 b (mergeWith s l) := by
  fun_induction mergeWith s l generalizing b with
  | case1 s => grind
  | case2 s t l htouch ih => exact ih h.join
  | case3 s t l htouch ih => grind

/-! ## Taking a range out -/

/-- The list without the numbers from `lo` to `hi`. -/
@[grind] def cut (lo hi : Nat) : List Span → List Span
  | [] => []
  | s :: l =>
    if hi ≤ s.lo then s :: l
    else if s.hi ≤ lo then s :: cut lo hi l
    else piece s.lo lo ++ piece hi s.hi ++ cut lo hi l

lemma cut_of_le (h : Ascending gap b l) (hb : hi ≤ b) : cut lo hi l = l := by
  cases l <;> grind

lemma covers_cut (h : Ascending gap b l) :
    Covers (cut lo hi l) a ↔ Covers l a ∧ ¬ (lo ≤ a ∧ a < hi) := by
  fun_induction cut lo hi l generalizing b <;> grind

lemma solid_cut (h : Solid l) : Solid (cut lo hi l) := by
  fun_induction cut lo hi l <;> grind

lemma ascending_cut (h : Ascending gap b l) (hgap : lo + gap ≤ hi) :
    Ascending gap b (cut lo hi l) := by
  fun_induction cut lo hi l generalizing b with
  | case1 => trivial
  | case2 s l hhi => exact h
  | case3 s l hhi hlo ih => grind
  | case4 s l hhi hlo ih =>
    obtain ⟨hb, hs, hl⟩ := h
    rw [append_assoc]
    have habove {c : Nat} (hc : c ≤ hi) (hc' : c ≤ s.hi + gap) :
        Ascending gap c (piece hi s.hi ++ cut lo hi l) :=
      ascending_piece_append hc ((ih hl).mono hc') fun _ => ih hl
    apply ascending_piece_append hb (habove (by omega) (by omega))
    exact fun _ => habove hgap (by omega)

/-! ## The holes -/

/-- What the ranges leave free from `b` to `top`, one hole before each range and one after the
last. A hole may be empty. -/
@[grind] def between (top : Nat) : Nat → List Span → List Span
  | b, [] => [⟨b, top⟩]
  | b, s :: l => ⟨b, s.lo⟩ :: between top s.hi l

@[simp] lemma length_between : (between top b l).length = l.length + 1 := by
  induction l generalizing b <;> grind

lemma ascending_between (h : Ascending gap b l) (hb : b ≤ top) (htop : ∀ s ∈ l, s.hi ≤ top) :
    Ascending 0 b (between top b l) := by
  induction l generalizing b <;> grind

lemma covers_between (h : Ascending gap b l) (htop : ∀ s ∈ l, s.hi ≤ top) :
    Covers (between top b l) a ↔ b ≤ a ∧ a < top ∧ ¬ Covers l a := by
  induction l generalizing b <;> grind

lemma getElem_between {i : Nat} (hi : i < (between top b l).length) :
    (between top b l)[i] = ⟨if i = 0 then b else (l.getD (i - 1) ⟨0, 0⟩).hi,
      if i < l.length then (l.getD i ⟨0, 0⟩).lo else top⟩ := by
  induction l generalizing b i with
  | nil =>
    obtain rfl : i = 0 := by simpa using hi
    rfl
  | cons s l ih => cases i <;> grind

/-- Between ranges that do not touch, only the first hole and the last one can be empty. -/
lemma between_open (h : Ascending 1 b l) (hb : b ≤ top) (htop : ∀ s ∈ l, s.hi ≤ top)
    (ht : t ∈ between top b l) : t.lo < t.hi ∨ t.hi = b ∨ top ≤ t.lo := by
  have hrest : ∀ {b : Nat} {l : List Span}, Ascending 1 (b + 1) l → (∀ s ∈ l, s.hi ≤ top) →
      b ≤ top → t ∈ between top b l → t.lo < t.hi ∨ top ≤ t.lo := by
    intro b l
    induction l generalizing b <;> grind
  cases l <;> grind

/-- An interval that no range meets lies in one hole. -/
lemma exists_between (hsolid : ∀ s ∈ l, s.lo < s.hi ∨ s.hi ≤ lo) (hb : b ≤ lo) (htop : hi ≤ top)
    (hlt : lo < hi) (hfree : ∀ a, lo ≤ a → a < hi → ¬ Covers l a) :
    ∃ t ∈ between top b l, t.lo ≤ lo ∧ hi ≤ t.hi := by
  induction l generalizing b with
  | nil => exact ⟨⟨b, top⟩, by simp [between], hb, htop⟩
  | cons s l ih =>
    by_cases hs : hi ≤ s.lo
    · exact ⟨⟨b, s.lo⟩, by simp [between], hb, hs⟩
    · have hafter : s.hi ≤ lo := by
        by_contra hmeet
        grind
      obtain ⟨t, ht, hspan⟩ := ih (fun t ht => hsolid t (mem_cons_of_mem _ ht)) hafter
        fun a hlo hhi hc => hfree a hlo hhi (covers_cons.mpr (.inr hc))
      exact ⟨t, mem_cons_of_mem _ ht, hspan⟩

/-! ## The common parts of two lists -/

@[grind] def common (s t : Span) : List Span := piece (max s.lo t.lo) (min s.hi t.hi)

def meets (l₁ l₂ : List Span) : List Span := l₁.flatMap fun s => l₂.flatMap (common s)

lemma common_eq_nil (h : s.hi ≤ t.lo ∨ t.hi ≤ s.lo) : common s t = [] := by
  grind

@[simp] lemma meets_nil : meets [] l = [] := rfl

@[simp] lemma meets_nil_right : meets l [] = [] := by simp [meets]

lemma covers_flatMap {α : Type} {f : α → List Span} {xs : List α} :
    Covers (xs.flatMap f) a ↔ ∃ x ∈ xs, Covers (f x) a := by
  induction xs <;> simp_all

lemma covers_meets : Covers (meets l₁ l₂) a ↔ Covers l₁ a ∧ Covers l₂ a := by
  simp only [meets, covers_flatMap, common, covers_piece]
  constructor
  · rintro ⟨s, hs, t, ht, hlo, hhi⟩
    exact ⟨⟨s, hs, by omega⟩, t, ht, by omega⟩
  · rintro ⟨⟨s, hs, hs'⟩, t, ht, ht'⟩
    exact ⟨s, hs, t, ht, by omega⟩

lemma solid_meets : Solid (meets l₁ l₂) := by
  simp only [Solid, meets]
  grind

lemma mem_common {x : Span} (h : x ∈ common s t) :
    s.lo ≤ x.lo ∧ t.lo ≤ x.lo ∧ x.lo ≤ x.hi ∧ x.hi ≤ s.hi ∧ x.hi ≤ t.hi := by
  grind

lemma Ascending.le_of_mem (h : Ascending gap b l) (hs : s ∈ l) : b ≤ s.lo ∧ s.lo ≤ s.hi :=
  (ascending_iff_pairwise.mp h).1 s hs

lemma Ascending.le_of_concat (h : Ascending gap b (l ++ [t])) (hs : s ∈ l) : s.hi ≤ t.lo := by
  have hpair := (pairwise_append.mp (ascending_iff_pairwise.mp h).2).2.2 s hs t (by simp)
  omega

lemma ascending_flatMap {f : Span → List Span} (h : Ascending gap b l)
    (hf : ∀ s ∈ l, Ascending gap s.lo (f s)) (hhi : ∀ s ∈ l, ∀ x ∈ f s, x.hi ≤ s.hi)
    (hlo : ∀ s ∈ l, ∀ x ∈ f s, b' ≤ x.lo) : Ascending gap b' (l.flatMap f) := by
  rw [ascending_iff_pairwise]
  constructor
  · intro x hx
    obtain ⟨s, hs, hxs⟩ := mem_flatMap.mp hx
    exact ⟨hlo s hs x hxs, ((hf s hs).le_of_mem hxs).2⟩
  · rw [pairwise_flatMap]
    refine ⟨fun s hs => (ascending_iff_pairwise.mp (hf s hs)).2, ?_⟩
    refine (ascending_iff_pairwise.mp h).2.imp_of_mem ?_
    intro s t hs ht hst x hx y hy
    have hxs := hhi s hs x hx
    have hyt := ((hf t ht).le_of_mem hy).1
    omega

lemma ascending_meets (h₁ : Ascending gap b l₁) (h₂ : Ascending gap b' l₂) :
    Ascending gap b (meets l₁ l₂) := by
  have hcommon (s : Span) : Ascending gap s.lo (l₂.flatMap (common s)) := by
    apply ascending_flatMap h₂
    · grind
    · exact fun t _ x hx => (mem_common hx).2.2.2.2
    · exact fun t _ x hx => (mem_common hx).1
  apply ascending_flatMap h₁ fun s _ => hcommon s
  · intro s hs x hx
    obtain ⟨t, -, hxt⟩ := mem_flatMap.mp hx
    exact (mem_common hxt).2.2.2.1
  · intro s hs x hx
    exact Nat.le_trans (h₁.le_of_mem hs).1 ((hcommon s).le_of_mem hx).1

lemma exists_meets (hs : s ∈ l₁) (ht : t ∈ l₂) (hlt : lo < hi) (hs' : s.lo ≤ lo ∧ hi ≤ s.hi)
    (ht' : t.lo ≤ lo ∧ hi ≤ t.hi) : ∃ x ∈ meets l₁ l₂, x.lo ≤ lo ∧ hi ≤ x.hi := by
  refine ⟨⟨max s.lo t.lo, min s.hi t.hi⟩, ?_, ?_⟩
  · refine mem_flatMap.mpr ⟨s, hs, mem_flatMap.mpr ⟨t, ht, ?_⟩⟩
    grind
  · simp only
    omega

/-! The lists can be walked from either end: of the two first (or last) ranges the one that ends
first (or begins last) meets nothing more. -/

lemma meets_skip_right (l₁ : List Span) (h : ∀ s ∈ l, common s t = []) :
    meets l (l₁ ++ t :: l₂) = meets l (l₁ ++ l₂) := by
  induction l with
  | nil => rfl
  | cons s l ih => grind [meets]

lemma meets_cons_of_left (h : Ascending gap b (t :: l₂)) (hst : s.hi ≤ t.hi) :
    meets (s :: l₁) (t :: l₂) = common s t ++ meets l₁ (t :: l₂) := by
  have hrest : l₂.flatMap (common s) = [] := flatMap_eq_nil_iff.mpr fun t' ht' =>
    common_eq_nil (.inl (Nat.le_trans hst (h.tail.le_of_mem ht').1))
  simp [meets, hrest]

lemma meets_cons_of_right (h : Ascending gap b (s :: l₁)) (hst : t.hi ≤ s.hi) :
    meets (s :: l₁) (t :: l₂) = common s t ++ meets (s :: l₁) l₂ := by
  have hrest : meets l₁ (t :: l₂) = meets l₁ l₂ := meets_skip_right [] fun s' hs' =>
    common_eq_nil (.inr (Nat.le_trans hst (h.tail.le_of_mem hs').1))
  simpa [meets] using hrest

lemma meets_concat_of_left (h : Ascending gap b (l₂ ++ [t])) (hst : t.lo ≤ s.lo) :
    meets (l₁ ++ [s]) (l₂ ++ [t]) = meets l₁ (l₂ ++ [t]) ++ common s t := by
  have hrest : l₂.flatMap (common s) = [] := flatMap_eq_nil_iff.mpr fun t' ht' =>
    common_eq_nil (.inr (Nat.le_trans (h.le_of_concat ht') hst))
  simp [meets, hrest]

lemma meets_concat_of_right (h : Ascending gap b (l₁ ++ [s])) (hst : s.lo ≤ t.lo) :
    meets (l₁ ++ [s]) (l₂ ++ [t]) = meets (l₁ ++ [s]) l₂ ++ common s t := by
  have hrest : meets l₁ (l₂ ++ [t]) = meets l₁ (l₂ ++ []) := meets_skip_right l₂ fun s' hs' =>
    common_eq_nil (.inl (Nat.le_trans (h.le_of_concat hs') hst))
  rw [meets, flatMap_append, ← meets, hrest]
  simp [meets]

end Mini2440.Library
