import Mini2440.Rbtree.Walk

/-!
# Interval trees

The functions that `INTERVAL_TREE_DEFINE` of `include/linux/interval_tree_generic.h` defines. An
interval tree is a red-black tree of nodes with two end points, ordered by the first one. The
augmented value of a node, `ITSUBTREE`, is the greatest last point in its subtree. The type of the
end points is any linear order. A result `none` stands for a loop that does not end, `some none` for
the null pointer.
-/

namespace Mini2440.IntervalTree

open Library Rbtree Heap

/-- The nodes: `ITSUBTREE` is in the heap. -/
structure Tree (ι α : Type) where
  heap : Heap ι α
  /-- `ITSTART`. -/
  start : ι → α
  /-- `ITLAST`. -/
  last : ι → α

variable {ι α : Type} [LinearOrder α]

/-- `if (max < subtree_last) max = subtree_last`, for a child that is not null. -/
def raise (max : α) : Option α → α
  | none => max
  | some subtreeLast => if max < subtreeLast then subtreeLast else max

/-- `ITPREFIX_compute_subtree_last`. -/
def computeSubtreeLast (last : ι → α) (node : ι) (left right : Option α) : α :=
  raise (raise (last node) left) right

namespace Tree

variable [DecidableEq ι]

/-! ## Insertion and removal -/

/-- The callbacks of `RB_DECLARE_CALLBACKS`. -/
def augment [Fintype ι] (T : Tree ι α) : Callbacks ι α :=
  declareCallbacks (computeSubtreeLast T.last)

/-- The loop of `ITPREFIX_insert`: the heap, `rb_parent` and `link`. -/
def descend (startOf : ι → α) (start last : α) :
    Nat → Heap ι α → Option ι → Link ι → Option (Heap ι α × Option ι × Link ι)
  | 0, _, _, _ => none
  | fuel + 1, h, rbParent, link =>
    match h.load link with
    | none => some (h, rbParent, link)
    | some parent =>
      let h := if h.aug parent < last then h.setAug parent last else h
      let side : Side := if start < startOf parent then .left else .right
      descend startOf start last fuel h (some parent) (.child parent side)

/-- `ITPREFIX_insert`. -/
def insert [Fintype ι] (T : Tree ι α) (node : ι) : Option (Tree ι α) := do
  let (h, rbParent, link) ←
    descend T.start (T.start node) (T.last node) (Fintype.card ι + 1) T.heap none .root
  let h := h.setAug node (T.last node)
  let h := h.rbLinkNode node rbParent link
  let h ← h.rbInsertAugmented T.augment node
  some { T with heap := h }

/-- `ITPREFIX_remove`. -/
def remove [Fintype ι] (T : Tree ι α) (node : ι) : Option (Tree ι α) := do
  let h ← T.heap.rbEraseAugmented T.augment node
  some { T with heap := h }

/-! ## Iteration -/

section Iterate

variable (T : Tree ι α) (start last : α)

/-- A child whose subtree reaches `start`. -/
def reaching (child : Option ι) : Option ι := child.filter fun i => start ≤ T.heap.aug i

/-- The loop of `ITPREFIX_subtree_search`. -/
def subtreeSearch : Nat → ι → Option (Option ι)
  | 0, _ => none
  | fuel + 1, node =>
    match T.reaching start (T.heap.child node .left) with
    | some left => subtreeSearch fuel left
    | none =>
      if T.start node ≤ last then
        if start ≤ T.last node then some (some node)
        else
          match T.reaching start (T.heap.child node .right) with
          | some right => subtreeSearch fuel right
          | none => some none
      else some none

/-- `ITPREFIX_iter_first`. -/
def iterFirst [Fintype ι] : Option (Option ι) :=
  match T.heap.root with
  | none => some none
  | some node =>
    if T.heap.aug node < start then some none
    else T.subtreeSearch start last (Fintype.card ι) node

/-- The loop of `ITPREFIX_iter_next`. The inner loop is the climb of `rb_next`. -/
def nextLoop [Fintype ι] : Nat → ι → Option ι → Option (Option ι)
  | 0, _, _ => none
  | fuel + 1, node, rb =>
    match T.reaching start rb with
    | some right => T.subtreeSearch start last (Fintype.card ι) right
    | none => do
      match ← T.heap.climb .right (Fintype.card ι + 1) node with
      | none => some none
      | some node =>
        if last < T.start node then some none
        else if start ≤ T.last node then some (some node)
        else nextLoop fuel node (T.heap.child node .right)

/-- `ITPREFIX_iter_next`. -/
def iterNext [Fintype ι] (node : ι) : Option (Option ι) :=
  T.nextLoop start last (Fintype.card ι + 1) node (T.heap.child node .right)

/-- The nodes that `iter_next` returns one after the other, up to the null pointer. -/
def collect [Fintype ι] : Nat → Option ι → Option (List ι)
  | 0, _ => none
  | _ + 1, none => some []
  | fuel + 1, some node => do
    let next ← T.iterNext start last node
    let rest ← collect fuel next
    some (node :: rest)

/-- The loop of `vma_interval_tree_foreach`, for any interval tree. -/
def query [Fintype ι] : Option (List ι) := do
  let first ← T.iterFirst start last
  T.collect start last (Fintype.card ι + 1) first

end Iterate

end Tree

end Mini2440.IntervalTree
