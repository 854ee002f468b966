import Mathlib.Algebra.Group.Nat.Defs
import Mathlib.Data.List.Basic

/-!
# Red-black trees and their contexts

The trees of node names that a pointer structure stands for. A context is what is left of a tree
when a subtree is taken out: the frames from the hole up to the root. An algorithm that climbs from
a leaf to the root works on a context and the tree in its hole. Everything is symmetric in the two
sides: `make` builds a node from the subtree on a given side and the other one.
-/

namespace Mini2440.Library

open List

inductive Color where
  | red
  | black
  deriving DecidableEq, Repr

inductive Side where
  | left
  | right
  deriving DecidableEq, Repr

namespace Side

def other : Side → Side
  | left => right
  | right => left

@[simp] lemma other_other (s : Side) : s.other.other = s := by cases s <;> rfl

@[simp] lemma other_ne (s : Side) : s.other ≠ s := by cases s <;> decide

@[simp] lemma ne_other (s : Side) : s ≠ s.other := s.other_ne.symm

lemma eq_or_eq_other (s t : Side) : t = s ∨ t = s.other := by
  cases s <;> cases t <;> decide

end Side

inductive ColorTree (ι : Type*) where
  | nil
  | node (c : Color) (l : ColorTree ι) (i : ι) (r : ColorTree ι)
  deriving DecidableEq, Repr

variable {ι : Type*}

namespace ColorTree

/-- A node with the tree `a` on the side `s` and `b` on the other one. -/
def make (c : Color) (s : Side) (a : ColorTree ι) (i : ι) (b : ColorTree ι) : ColorTree ι :=
  match s with
  | .left => node c a i b
  | .right => node c b i a

def inorder : ColorTree ι → List ι
  | nil => []
  | node _ l i r => l.inorder ++ i :: r.inorder

def root : ColorTree ι → Option ι
  | nil => none
  | node _ _ i _ => some i

def paint (c : Color) : ColorTree ι → ColorTree ι
  | nil => nil
  | node _ l i r => node c l i r

variable {c c' : Color} {s : Side} {a b d t : ColorTree ι} {i j n : ι}

@[simp] lemma root_make : (make c s a i b).root = some i := by cases s <;> rfl

@[simp] lemma root_paint : (t.paint c).root = t.root := by cases t <;> rfl

@[simp] lemma inorder_paint : (t.paint c).inorder = t.inorder := by cases t <;> rfl

@[simp] lemma paint_make : (make c s a i b).paint c' = make c' s a i b := by cases s <;> rfl

lemma root_eq_none : t.root = none ↔ t = nil := by cases t <;> simp [root]

lemma root_mem (h : t.root = some i) : i ∈ t.inorder := by
  cases t with
  | nil => simp [root] at h
  | node c l j r =>
    obtain rfl : j = i := by simpa [root] using h
    simp [inorder]

lemma make_other : make c s.other a i b = make c s b i a := by cases s <;> rfl

lemma node_eq_make (s : Side) (c : Color) (l : ColorTree ι) (i : ι) (r : ColorTree ι) :
    ∃ a b, node c l i r = make c s a i b := by
  cases s
  · exact ⟨l, r, rfl⟩
  · exact ⟨r, l, rfl⟩

lemma inorder_make_perm : (make c s a i b).inorder.Perm (i :: (a.inorder ++ b.inorder)) := by
  cases s
  · exact perm_middle
  · exact perm_middle.trans (perm_append_comm.cons i)

lemma mem_make : j ∈ (make c s a i b).inorder ↔ j = i ∨ j ∈ a.inorder ∨ j ∈ b.inorder := by
  rw [inorder_make_perm.mem_iff]
  simp

lemma inorder_make_congr {a' b' : ColorTree ι} (ha : a'.inorder = a.inorder)
    (hb : b'.inorder = b.inorder) : (make c' s a' i b').inorder = (make c s a i b).inorder := by
  cases s <;> simp [make, inorder, ha, hb]

lemma inorder_rotate (c₁ c₂ c₃ c₄ : Color) :
    (make c₁ s a n (make c₂ s b i d)).inorder = (make c₃ s (make c₄ s a n b) i d).inorder := by
  cases s <;> simp [make, inorder]

lemma inorder_rotate_twice {e : ColorTree ι} (c₁ c₂ c₃ c₄ c₅ c₆ : Color) :
    (make c₁ s (make c₂ s.other d j b) n (make c₃ s a i e)).inorder =
      (make c₄ s (make c₅ s.other (make c₆ s.other a n d) j b) i e).inorder := by
  cases s <;> simp [make, inorder, Side.other]

/-! ## The invariant -/

/-- A tree with the colour and the black height given, in which no red node has a red child and
the black heights of the two subtrees of every node are equal. -/
inductive Balanced : Color → Nat → ColorTree ι → Prop
  | nil : Balanced .black 0 .nil
  | red {n : Nat} {l : ColorTree ι} {i : ι} {r : ColorTree ι} :
    Balanced .black n l → Balanced .black n r → Balanced .red n (.node .red l i r)
  | black {c c' : Color} {n : Nat} {l : ColorTree ι} {i : ι} {r : ColorTree ι} :
    Balanced c n l → Balanced c' n r → Balanced .black (n + 1) (.node .black l i r)

variable {k : Nat}

def height : ColorTree ι → Nat
  | nil => 0
  | node _ l _ r => max l.height r.height + 1

/-- On a path every other node is black. -/
lemma Balanced.height_le (h : Balanced c k t) : t.height ≤ 2 * k + 1 ∧
    (c = .black → t.height ≤ 2 * k) ∧ 2 ^ k ≤ t.inorder.length + 1 := by
  induction h with
  | nil => simp [height]
  | red _ _ ihl ihr => grind [height, inorder]
  | black _ _ ihl ihr => grind [height, inorder]

lemma Balanced.make_red (ha : Balanced .black k a) (hb : Balanced .black k b) :
    Balanced .red k (make .red s a i b) := by
  cases s
  · exact .red ha hb
  · exact .red hb ha

lemma Balanced.make_black (ha : Balanced c k a) (hb : Balanced c' k b) :
    Balanced .black (k + 1) (make .black s a i b) := by
  cases s
  · exact .black ha hb
  · exact .black hb ha

/-- A red tree, seen from the side `s`. -/
lemma Balanced.red_parts (s : Side) (h : Balanced .red k t) :
    ∃ a i b, t = make .red s a i b ∧ Balanced .black k a ∧ Balanced .black k b := by
  cases h with
  | red hl hr =>
    cases s
    · exact ⟨_, _, _, rfl, hl, hr⟩
    · exact ⟨_, _, _, rfl, hr, hl⟩

lemma Balanced.black_parts (s : Side) (h : Balanced .black (k + 1) t) :
    ∃ a i b c c', t = make .black s a i b ∧ Balanced c k a ∧ Balanced c' k b := by
  cases h with
  | black hl hr =>
    cases s
    · exact ⟨_, _, _, _, _, rfl, hl, hr⟩
    · exact ⟨_, _, _, _, _, rfl, hr, hl⟩

lemma Balanced.make_parts (h : Balanced c k (make c' s a i b)) :
    (c' = .red ∧ c = .red ∧ Balanced .black k a ∧ Balanced .black k b) ∨
      (c' = .black ∧ c = .black ∧
        ∃ m ca cb, k = m + 1 ∧ Balanced ca m a ∧ Balanced cb m b) := by
  cases s <;> cases h with
  | red hl hr => exact .inl ⟨rfl, rfl, by assumption, by assumption⟩
  | black hl hr => exact .inr ⟨rfl, rfl, _, _, _, rfl, by assumption, by assumption⟩

lemma Balanced.eq_nil (h : Balanced .black 0 t) : t = .nil := by
  cases h
  rfl

lemma Balanced.paint_black (h : Balanced .red k t) : Balanced .black (k + 1) (t.paint .black) := by
  cases h with
  | red hl hr => exact .black hl hr

end ColorTree

/-! ## Contexts -/

/-- A node with a hole on one side. -/
structure Frame (ι : Type*) where
  side : Side
  color : Color
  id : ι
  /-- The subtree on the other side. -/
  sib : ColorTree ι

namespace ColorTree

def fill : List (Frame ι) → ColorTree ι → ColorTree ι
  | [], t => t
  | f :: fs, t => fill fs (make f.color f.side t f.id f.sib)

def above : List (Frame ι) → Option ι
  | [] => none
  | f :: _ => some f.id

def names : List (Frame ι) → List ι
  | [] => []
  | f :: fs => f.id :: (f.sib.inorder ++ names fs)

variable {c c' : Color} {s : Side} {a b t t' : ColorTree ι} {i : ι} {f : Frame ι}
  {fs ctx : List (Frame ι)} {k : Nat}

lemma fill_append (fs gs : List (Frame ι)) (t : ColorTree ι) :
    fill (fs ++ gs) t = fill gs (fill fs t) := by
  induction fs generalizing t with
  | nil => rfl
  | cons f fs ih => exact ih _

lemma names_append (fs gs : List (Frame ι)) : names (fs ++ gs) = names fs ++ names gs := by
  induction fs with
  | nil => rfl
  | cons f fs ih => simp [names, ih]

lemma inorder_fill_perm (ctx : List (Frame ι)) (t : ColorTree ι) :
    (fill ctx t).inorder.Perm (names ctx ++ t.inorder) := by
  induction ctx generalizing t with
  | nil => exact .refl _
  | cons f fs ih =>
    refine (ih _).trans ((inorder_make_perm.append_left _).trans ?_)
    refine perm_middle.trans (.cons _ ?_)
    refine perm_append_comm.trans ?_
    rw [append_assoc]
    exact perm_append_comm

lemma length_le_names : ctx.length ≤ (names ctx).length := by
  induction ctx with
  | nil => exact Nat.le_refl _
  | cons f fs ih =>
    simp only [names, length_cons, length_append]
    omega

lemma inorder_fill_congr (h : t'.inorder = t.inorder) :
    (fill ctx t').inorder = (fill ctx t).inorder := by
  induction ctx generalizing t t' with
  | nil => exact h
  | cons f fs ih => exact ih (inorder_make_congr h rfl)

lemma inorder_fill (ctx : List (Frame ι)) :
    ∃ pre post, ∀ t : ColorTree ι, (fill ctx t).inorder = pre ++ t.inorder ++ post := by
  induction ctx with
  | nil => exact ⟨[], [], fun t => by simp [fill]⟩
  | cons f fs ih =>
    obtain ⟨pre, post, hfill⟩ := ih
    cases hs : f.side with
    | left => exact ⟨pre, f.id :: f.sib.inorder ++ post, fun t => by
        simp [fill, hfill, hs, make, inorder]⟩
    | right => exact ⟨pre ++ f.sib.inorder ++ [f.id], post, fun t => by
        simp [fill, hfill, hs, make, inorder]⟩

lemma inorder_fill_right {pre post : List ι}
    (hfill : ∀ t : ColorTree ι, (fill ctx t).inorder = pre ++ t.inorder ++ post) (c : Color) (i : ι)
    (a t : ColorTree ι) : (fill (⟨.right, c, i, a⟩ :: ctx) t).inorder =
      pre ++ a.inorder ++ [i] ++ t.inorder ++ post := by
  rw [fill, hfill]
  simp [make, inorder]

lemma inorder_fill_left {pre post : List ι}
    (hfill : ∀ t : ColorTree ι, (fill ctx t).inorder = pre ++ t.inorder ++ post) (c : Color) (i : ι)
    (a t : ColorTree ι) : (fill (⟨.left, c, i, a⟩ :: ctx) t).inorder =
      pre ++ t.inorder ++ i :: (a.inorder ++ post) := by
  rw [fill, hfill]
  simp [make, inorder]

/-- A context that a tree of the colour and the black height completes to a red-black tree. -/
inductive Accepts : List (Frame ι) → Color → Nat → Prop
  | root {k : Nat} : Accepts [] .black k
  | red {s : Side} {i : ι} {b : ColorTree ι} {fs : List (Frame ι)} {k : Nat} :
    Balanced .black k b → Accepts fs .red k → Accepts (⟨s, .red, i, b⟩ :: fs) .black k
  | black {s : Side} {i : ι} {b : ColorTree ι} {fs : List (Frame ι)} {c c' : Color} {k : Nat} :
    Balanced c k b → Accepts fs .black (k + 1) → Accepts (⟨s, .black, i, b⟩ :: fs) c' k

lemma Accepts.fill (h : Accepts ctx c k) (ht : Balanced c k t) :
    ∃ n, Balanced .black n (fill ctx t) := by
  induction h generalizing t with
  | root => exact ⟨_, ht⟩
  | red hb _ ih => exact ih (ht.make_red hb)
  | black hb _ ih => exact ih (ht.make_black hb)

lemma Accepts.of_red (h : Accepts ctx .red k) : Accepts ctx c k := by
  cases h with
  | black hb h => exact .black hb h

lemma accepts_of_fill {n : Nat} (h : Balanced .black n (fill ctx t)) :
    ∃ c k, Balanced c k t ∧ Accepts ctx c k := by
  induction ctx generalizing t with
  | nil => exact ⟨_, _, h, .root⟩
  | cons f fs ih =>
    obtain ⟨c, k, hmake, hacc⟩ := ih h
    obtain ⟨s, color, i, b⟩ := f
    cases color with
    | red =>
      cases s <;> cases hmake with
      | red hl hr => exact ⟨_, _, by assumption, .red (by assumption) hacc⟩
    | black =>
      cases s <;> cases hmake with
      | black hl hr => exact ⟨_, _, by assumption, .black (by assumption) hacc⟩

lemma Accepts.rename {gs : List (Frame ι)} {j : ι}
    (h : Accepts (fs ++ ⟨s, c', i, b⟩ :: gs) c k) : Accepts (fs ++ ⟨s, c', j, b⟩ :: gs) c k := by
  induction fs generalizing c k with
  | nil =>
    cases h with
    | red hb h => exact .red hb h
    | black hb h => exact .black hb h
  | cons f fs ih =>
    cases h with
    | red hb h => exact .red hb (ih h)
    | black hb h => exact .black hb (ih h)

/-- Taking out the root of a tree with one subtree: the subtree, painted black, has the right height
unless it is empty and the root was black. -/
lemma Accepts.splice (h : Accepts ctx c k) (hb : Balanced c k (make c' s a i .nil)) :
    a.paint c' = a.paint .black ∧
      if a.root = none ∧ c' = .black then a = .nil ∧ Accepts ctx .black 1
      else ∃ c k, Balanced c k (a.paint .black) ∧ Accepts ctx c k := by
  rcases hb.make_parts with ⟨rfl, rfl, ha, hnil⟩ | ⟨rfl, rfl, m, ca, cb, rfl, ha, hnil⟩
  · cases hnil
    obtain rfl := ha.eq_nil
    exact ⟨rfl, _, _, .nil, h.of_red⟩
  · cases hnil
    refine ⟨rfl, ?_⟩
    cases ha with
    | nil =>
      exact ⟨rfl, h⟩
    | red hl hr =>
      exact ⟨_, _, .black hl hr, h⟩

/-- Every node of a tree is at the hole of a context. -/
lemma exists_context (h : i ∈ t.inorder) : ∃ ctx c l r, t = fill ctx (node c l i r) := by
  induction t with
  | nil => simp [inorder] at h
  | node c l j r ihl ihr =>
    rcases mem_make (s := .left).mp h with rfl | hl | hr
    · exact ⟨[], c, l, r, rfl⟩
    · obtain ⟨ctx, c', l', r', rfl⟩ := ihl hl
      exact ⟨ctx ++ [⟨.left, c, j, r⟩], c', l', r', by rw [fill_append]; rfl⟩
    · obtain ⟨ctx, c', l', r', rfl⟩ := ihr hr
      exact ⟨ctx ++ [⟨.right, c, j, l⟩], c', l', r', by rw [fill_append]; rfl⟩

/-! ## Walking to one side -/

/-- The nodes in the order in which a walk to the side `s` meets them. -/
def toward (s : Side) (t : ColorTree ι) : List ι :=
  match s with
  | .left => t.inorder.reverse
  | .right => t.inorder

/-- The nodes of a context that such a walk meets behind the hole. -/
def beyond (s : Side) : List (Frame ι) → List ι
  | [] => []
  | f :: fs => if f.side = s then beyond s fs else f.id :: (toward s f.sib ++ beyond s fs)

lemma toward_make : toward s (make c s a i b) = toward s b ++ i :: toward s a := by
  cases s <;> simp [toward, make, inorder]

lemma nodup_toward : (toward s t).Nodup ↔ t.inorder.Nodup := by
  cases s
  · exact (reverse_perm _).nodup_iff
  · rfl

lemma mem_toward : i ∈ toward s t ↔ i ∈ t.inorder := by
  cases s
  · exact mem_reverse
  · rfl

/-- A context puts nodes before the subtree, and those beyond the hole behind it. -/
lemma toward_fill (s : Side) (ctx : List (Frame ι)) :
    ∃ pre, ∀ t : ColorTree ι, toward s (fill ctx t) = pre ++ toward s t ++ beyond s ctx := by
  induction ctx with
  | nil => exact ⟨[], fun t => by simp [fill, beyond]⟩
  | cons f fs ih =>
    obtain ⟨pre, hfill⟩ := ih
    by_cases hs : f.side = s
    · refine ⟨pre ++ toward s f.sib ++ [f.id], fun t => ?_⟩
      rw [fill, hfill, hs, toward_make, beyond, if_pos hs]
      simp
    · have hother : f.side = s.other := (s.eq_or_eq_other f.side).resolve_left hs
      refine ⟨pre, fun t => ?_⟩
      rw [fill, hfill, hother, make_other, toward_make, beyond, if_neg hs]
      simp

/-- A walk that leaves the hole goes on at a node with the hole on the other side of it. -/
lemma beyond_cases (s : Side) (ctx : List (Frame ι)) : beyond s ctx = [] ∨
    ∃ gs c i b fs, ctx = gs ++ ⟨s.other, c, i, b⟩ :: fs ∧
      beyond s ctx = i :: (toward s b ++ beyond s fs) := by
  induction ctx with
  | nil => exact .inl rfl
  | cons f fs ih =>
    by_cases hs : f.side = s
    · rw [beyond, if_pos hs]
      obtain hnil | ⟨gs, c, i, b, fs', rfl, hbeyond⟩ := ih
      · exact .inl hnil
      · exact .inr ⟨f :: gs, c, i, b, fs', rfl, hbeyond⟩
    · rw [beyond, if_neg hs]
      obtain ⟨side, c, i, b⟩ := f
      obtain rfl : side = s.other := (s.eq_or_eq_other side).resolve_left hs
      exact .inr ⟨[], c, i, b, fs, rfl, rfl⟩

lemma exists_context_toward {pre post : List ι} (hnd : t.inorder.Nodup)
    (hseq : toward s t = pre ++ i :: post) :
    ∃ ctx c a b, t = fill ctx (make c s a i b) ∧ post = toward s a ++ beyond s ctx := by
  have hmem : i ∈ t.inorder := by
    rw [← mem_toward, hseq]
    simp
  obtain ⟨ctx, c, l, r, rfl⟩ := exists_context hmem
  obtain ⟨a, b, hmake⟩ := node_eq_make s c l i r
  rw [hmake] at hseq hnd ⊢
  refine ⟨ctx, c, a, b, rfl, ?_⟩
  obtain ⟨pre', hfill⟩ := toward_fill s ctx
  have hsplit : pre ++ i :: post = (pre' ++ toward s b) ++ i :: (toward s a ++ beyond s ctx) := by
    rw [← hseq, hfill, toward_make]
    simp
  have hnd' := hseq ▸ nodup_toward.mpr hnd
  obtain ⟨-, hout, hdisj⟩ := nodup_append.mp hnd'
  exact ((append_cons_inj_of_notMem (fun hin => hdisj i hin i (by simp) rfl)
    (nodup_cons.mp hout).1).mp hsplit).2.2

/-! ## Values of subtrees -/

variable {α : Type*} (compute : ι → Option α → Option α → α)

def value : ColorTree ι → Option α
  | nil => none
  | node _ l i r => some (compute i l.value r.value)

/-- The value of a tree is a function of its sequence of nodes. -/
def OfSequence : Prop :=
  ∀ t t' : ColorTree ι, t.inorder = t'.inorder → t.value compute = t'.value compute

end ColorTree

end Mini2440.Library
