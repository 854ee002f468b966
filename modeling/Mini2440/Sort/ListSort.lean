import Mathlib.Data.List.Basic

/-!
# The merge sort for linked lists

`lib/list_sort.c`. A heap gives the two pointers of every `struct list_head`; a null pointer is
`none`. The elements are taken from the list one by one and merged into lists of about doubled
length, kept in an array: `part[lev]` is a sorted list of `2 ^ lev` elements or null. The last slot
is always null, so that the scan for a free slot ends; lists that would go there stay in the slot
before it. The number of rounds of each loop is limited by `fuel`; a run has no result if a loop
does not end within it, if a null pointer is followed or if the array is left.
-/

namespace Mini2440.Sort

variable {ι : Type} [DecidableEq ι]

@[ext] structure Heap (ι : Type) where
  next : ι → Option ι
  prev : ι → Option ι

def maxListLengthBits : Nat := 20

/-- `ARRAY_SIZE(part)`. -/
def partSize : Nat := maxListLengthBits + 1

namespace Heap

def setNext (h : Heap ι) (i : ι) (q : Option ι) : Heap ι :=
  { h with next := Function.update h.next i q }

def setPrev (h : Heap ι) (i : ι) (q : Option ι) : Heap ι :=
  { h with prev := Function.update h.prev i q }

section Merge

variable (cmp : ι → ι → Int)

/-- `tail->next = q` in `merge`: `tail` is the node on the stack if it is `none`, and `first` the
pointer in that node. -/
def linkTail (h : Heap ι) (first tail q : Option ι) : Heap ι × Option ι :=
  match tail with
  | none => (h, q)
  | some t => (h.setNext t q, first)

def mergeLoop : Nat → Heap ι → Option ι → Option ι → Option ι → Option ι →
    Option (Heap ι × Option ι)
  | 0, _, _, _, _, _ => none
  | fuel + 1, h, first, tail, some a, some b =>
    -- if equal, take `a`
    if cmp a b ≤ 0 then
      let (h, first) := h.linkTail first tail (some a)
      mergeLoop fuel h first (some a) (h.next a) (some b)
    else
      let (h, first) := h.linkTail first tail (some b)
      mergeLoop fuel h first (some b) (some a) (h.next b)
  | _ + 1, h, first, tail, a, b => some (h.linkTail first tail (a.or b))

/-- `merge`: the head of the merged list. -/
def merge (fuel : Nat) (h : Heap ι) (a b : Option ι) : Option (Heap ι × Option ι) :=
  h.mergeLoop cmp fuel none none a b

/-- The second loop of `merge_and_restore_back_links`, and what follows it. The calls of `cmp` in
it have no effect on the list. -/
def restoreLoop (head : ι) : Nat → Heap ι → ι → Option (Heap ι)
  | 0, _, _ => none
  | fuel + 1, h, tail => do
    let s ← h.next tail
    let h := h.setPrev s (some tail)
    match h.next s with
    | some _ => restoreLoop head fuel h s
    | none => some ((h.setNext s (some head)).setPrev head (some s))

def mergeAndRestoreBackLinks (head : ι) (fuel : Nat) : Nat → Heap ι → ι → Option ι → Option ι →
    Option (Heap ι)
  | 0, _, _, _, _ => none
  | n + 1, h, tail, some a, some b =>
    if cmp a b ≤ 0 then
      let h := (h.setNext tail (some a)).setPrev a (some tail)
      mergeAndRestoreBackLinks head fuel n h a (h.next a) (some b)
    else
      let h := (h.setNext tail (some b)).setPrev b (some tail)
      mergeAndRestoreBackLinks head fuel n h b (some a) (h.next b)
  | _ + 1, h, tail, a, b => restoreLoop head fuel (h.setNext tail (a.or b)) tail

/-! ## The sort -/

/-- The scan for a free slot, which merges the lists on its way into `cur`. The first argument is
the number of slots from `lev` on. -/
def climb (fuel : Nat) : Nat → Heap ι → (Nat → Option ι) → Option ι → Nat →
    Option (Heap ι × (Nat → Option ι) × Option ι × Nat)
  | 0, _, _, _, _ => none
  | n + 1, h, part, cur, lev =>
    match part lev with
    | none => some (h, part, cur, lev)
    | some p => do
      let (h, cur) ← h.merge cmp fuel (some p) cur
      climb fuel n h (Function.update part lev none) cur (lev + 1)

/-- The slot to use and the new `max_lev`. -/
def chooseLevel (lev maxLev : Nat) : Nat × Nat :=
  if lev > maxLev then
    if lev ≥ partSize - 1 then (lev - 1, lev - 1) else (lev, lev)
  else (lev, maxLev)

/-- The loop over the elements. -/
def distribute (fuel : Nat) : Nat → Heap ι → (Nat → Option ι) → Nat → Option ι →
    Option (Heap ι × (Nat → Option ι) × Nat)
  | 0, _, _, _, _ => none
  | _ + 1, h, part, maxLev, none => some (h, part, maxLev)
  | n + 1, h, part, maxLev, some cur => do
    let list := h.next cur
    let h := h.setNext cur none
    let (h, part, cur, lev) ← h.climb cmp fuel partSize part (some cur) 0
    let (lev, maxLev) := chooseLevel lev maxLev
    distribute fuel n h (Function.update part lev cur) maxLev list

/-- The loop over the slots below `max_lev`; the arguments are the number of slots and the first
one. -/
def collect (fuel : Nat) (part : Nat → Option ι) : Nat → Nat → Heap ι → Option ι →
    Option (Heap ι × Option ι)
  | 0, _, h, list => some (h, list)
  | n + 1, lev, h, list =>
    match part lev with
    | none => collect fuel part n (lev + 1) h list
    | some p => do
      let (h, list) ← h.merge cmp fuel (some p) list
      collect fuel part n (lev + 1) h list

def listSort (fuel : Nat) (h : Heap ι) (head : ι) : Option (Heap ι) :=
  if h.next head = some head then some h
  else do
    let last ← h.prev head
    let h := h.setNext last none
    let (h, part, maxLev) ← h.distribute cmp fuel fuel (fun _ => none) 0 (h.next head)
    let (h, list) ← h.collect cmp fuel part maxLev 0 none
    h.mergeAndRestoreBackLinks cmp head fuel fuel head (part maxLev) list

end Merge

end Heap

end Mini2440.Sort
