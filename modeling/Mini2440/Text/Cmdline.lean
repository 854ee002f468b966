import Mini2440.Text.Kstrtox

/-!
# Lists of integers

`get_options` of `lib/cmdline.c` reads a list of integers and ranges into an array whose first
element becomes the number of the others. A range is expanded by `get_range`, which does not know
the size of the array: `items` says what the list is, and `FitsArray` when it stays within the
array. The index into the array is a plain number here; before it could overflow, the array would be
left.
-/

namespace Mini2440.Text

open List Function Library

/-! ## The functions -/

/-- `simple_strtoull`: the number and the rest of the string. -/
def simpleStrtoull (s : List Byte) (base : Nat) : BitVec 64 × List Byte :=
  let f := parseIntegerFixupRadix s base
  let r := parseInteger f.1 f.2
  (r.2, f.1.drop (r.1 &&& ~~~kstrtoxOverflow).toNat)

def simpleStrtol (s : List Byte) (base : Nat) : Word × List Byte :=
  if charAt s 0 = chr '-' then
    let r := simpleStrtoull (s.drop 1) base
    (-r.1.setWidth 32, r.2)
  else
    let r := simpleStrtoull s base
    (r.1.setWidth 32, r.2)

structure Options where
  str : List Byte
  i : Nat
  ints : Nat → Word

def readNumber (s : List Byte) : Option (Word × List Byte) :=
  if charAt s 0 = 0 ∨ (simpleStrtol s 0).2 = s then none else some (simpleStrtol s 0)

/-- The parts of a list. The upper end of a range begins the next part. A number with a hyphen after
it that no number follows is no part of the list; it is kept here together with what `get_range`
takes for the upper end. -/
inductive Item where
  | number (m : Int)
  | range (m n : Int)
  | dangling (m n : Int)
  deriving DecidableEq, Repr

def Item.expand : Item → List Int
  | number m => [m]
  | range m n => (List.range (n - m).toNat).map fun k : Nat => m + k
  | dangling _ _ => []

/-- The parts of a string, with a limit on their number. -/
def itemsUpTo : Nat → List Byte → List Item
  | 0, _ => []
  | limit + 1, s =>
    match readNumber s with
    | none => []
    | some (m, rest) =>
      if charAt rest 0 = chr ',' then .number m.toInt :: itemsUpTo limit (rest.drop 1)
      else if charAt rest 0 = chr '-' then
        match readNumber (rest.drop 1) with
        | none => [.dangling m.toInt (simpleStrtol (rest.drop 1) 0).1.toInt]
        | some (n, _) =>
          if m.toInt ≤ n.toInt then .range m.toInt n.toInt :: itemsUpTo limit (rest.drop 1) else []
      else [.number m.toInt]

def items (s : List Byte) : List Item := itemsUpTo (s.length + 1) s

def expansion (s : List Byte) : List Int := (items s).flatMap Item.expand

/-- The array holds the integers of the string as far as there is room, and nothing else of the
memory has changed. -/
structure Respects (s : List Byte) (nints : Nat) (before after : Nat → Word) : Prop where
  inside : ∀ k, nints ≤ k → after k = before k
  count : (after 0).toNat = min (expansion s).length (nints - 1)
  elements : ∀ k (h : k < (expansion s).length), k < (after 0).toNat →
    (after (k + 1)).toInt = (expansion s)[k]

variable {s rest s' : List Byte} {nints fuel i k : Nat} {m : Word} {ints before : Nat → Word}
  {xs : List Int} {st : Options}

/-- From the index `i` on, the array holds the integers as far as there is room. -/
structure Filled (nints i : Nat) (xs : List Int) (before : Nat → Word) (st : Options) : Prop where
  count : st.i = min (i + xs.length) nints
  frame : ∀ k, k < i ∨ nints ≤ k → st.ints k = before k
  elements : ∀ k (h : k < xs.length), i + k < nints → (st.ints (i + k)).toInt = xs[k]

lemma Filled.append (ys : List Int)
    (hframe : ∀ k, k < i ∨ nints ≤ k → ints k = before k)
    (helements : ∀ k (h : k < ys.length), (ints (i + k)).toInt = ys[k])
    (h : Filled nints (i + ys.length) xs ints st) : Filled nints i (ys ++ xs) before st where
  count := by rw [h.count, length_append, add_assoc]
  frame k hk := by rw [h.frame k (by omega), hframe k hk]
  elements k hk hlt := by
    by_cases hleft : k < ys.length
    · rw [h.frame (i + k) (by omega), helements k hleft, getElem_append_left hleft]
    · rw [length_append] at hk
      have hright := h.elements (k - ys.length) (by omega) (by omega)
      rw [show i + ys.length + (k - ys.length) = i + k by omega] at hright
      rw [hright, getElem_append_right (Nat.le_of_not_lt hleft)]

lemma Filled.number (hi : i < nints) (h : Filled nints (i + 1) xs (update ints i m) st) :
    Filled nints i (m.toInt :: xs) ints st := by
  refine Filled.append [m.toInt] (fun k hk => update_of_ne (by omega) _ _) (fun k hk => ?_) h
  obtain rfl : k = 0 := by simpa using hk
  rw [add_zero, update_self]
  rfl

end Mini2440.Text
