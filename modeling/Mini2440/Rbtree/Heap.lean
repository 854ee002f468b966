import Mathlib.Data.Fintype.Card
import Mini2440.Library.RedBlack

/-!
# Red-black trees in memory

The functions of `lib/rbtree.c` and `include/linux/rbtree_augmented.h`. A node is named by its
address. The word `__rb_parent_color` is the pair `pc` of the address in its upper bits and the
colour in its lowest one; `rb_red_parent`, which reads the word as an address, is defined for a red
node only. The two mirrored halves of the loops in the source are one definition with the side as
a parameter. Following a null pointer is `none`.

The augmented values belong to the user of the tree. The callbacks get at them; the functions here
only call the callbacks.
-/

namespace Mini2440.Rbtree

open Library

/-- The nodes, and the pointer of `struct rb_root`. -/
@[ext] structure Heap (ι α : Type) where
  root : Option ι
  child : ι → Side → Option ι
  pc : ι → Option ι × Color
  /-- The augmented values. -/
  aug : ι → α

structure Callbacks (ι α : Type) where
  propagate : Heap ι α → Option ι → Option ι → Option (Heap ι α)
  copy : Heap ι α → ι → ι → Heap ι α
  rotate : Heap ι α → ι → ι → Heap ι α

variable {ι α : Type} [DecidableEq ι]

namespace Heap

/-! ## Fields -/

def parent (h : Heap ι α) (i : ι) : Option ι := (h.pc i).1

def color (h : Heap ι α) (i : ι) : Color := (h.pc i).2

def redParent (h : Heap ι α) (i : ι) : Option (Option ι) :=
  if h.color i = .red then some (h.parent i) else none

def redChild (h : Heap ι α) (i : ι) (s : Side) : Option ι :=
  (h.child i s).filter fun j => h.color j = .red

def setChild (h : Heap ι α) (i : ι) (s : Side) (q : Option ι) : Heap ι α :=
  { h with child := Function.update h.child i (Function.update (h.child i) s q) }

def setPc (h : Heap ι α) (i : ι) (pc : Option ι × Color) : Heap ι α :=
  { h with pc := Function.update h.pc i pc }

def setParentColor (h : Heap ι α) (i : ι) (p : Option ι) (c : Color) : Heap ι α := h.setPc i (p, c)

def setParent (h : Heap ι α) (i : ι) (p : Option ι) : Heap ι α := h.setPc i (p, h.color i)

def setBlack (h : Heap ι α) (i : ι) : Heap ι α := h.setPc i (h.parent i, .black)

/-- `if (tmp) rb_set_parent_color(tmp, p, c)`. -/
def setParentColorOf (h : Heap ι α) (tmp : Option ι) (p : ι) (c : Color) : Heap ι α :=
  match tmp with
  | none => h
  | some i => h.setParentColor i (some p) c

/-- `if (tmp) rb_set_parent(tmp, p)`. -/
def setParentOf (h : Heap ι α) (tmp : Option ι) (p : ι) : Heap ι α :=
  match tmp with
  | none => h
  | some i => h.setParent i (some p)

def changeChild (h : Heap ι α) (old : ι) (new parent : Option ι) : Heap ι α :=
  match parent with
  | some p =>
    if h.child p .left = some old then h.setChild p .left new else h.setChild p .right new
  | none => { h with root := new }

def rotateSetParents (h : Heap ι α) (old new : ι) (c : Color) : Heap ι α :=
  let parent := h.parent old
  let h := h.setPc new (h.pc old)
  let h := h.setParentColor old (some new) c
  h.changeChild old (some new) parent

/-! ## Insertion -/

/-- The place of a pointer to a node: the root or a field of a node. -/
inductive Link (ι : Type) where
  | root
  | child (i : ι) (s : Side)
  deriving DecidableEq, Repr

def load (h : Heap ι α) : Link ι → Option ι
  | .root => h.root
  | .child i s => h.child i s

def store (h : Heap ι α) (link : Link ι) (q : Option ι) : Heap ι α :=
  match link with
  | .root => { h with root := q }
  | .child i s => h.setChild i s q

def rbLinkNode (h : Heap ι α) (node : ι) (parent : Option ι) (link : Link ι) : Heap ι α :=
  let h := h.setPc node (parent, .red)
  let h := (h.setChild node .left none).setChild node .right none
  h.store link (some node)

section Insert

variable (rotate : Heap ι α → ι → ι → Heap ι α)

/-- Case 2: rotate at the parent, away from the side `s` that the parent is on. -/
def rotateParent (h : Heap ι α) (s : Side) (parent node : ι) : Heap ι α :=
  let tmp := h.child node s
  let h := h.setChild parent s.other tmp
  let h := h.setChild node s (some parent)
  let h := h.setParentColorOf tmp parent .black
  let h := h.setParentColor parent (some node) .red
  rotate h parent node

/-- Case 3: rotate at the grandparent. -/
def rotateGrandparent (h : Heap ι α) (s : Side) (gparent parent : ι) : Heap ι α :=
  let tmp := h.child parent s.other
  let h := h.setChild gparent s tmp
  let h := h.setChild parent s.other (some gparent)
  let h := h.setParentColorOf tmp gparent .black
  let h := h.rotateSetParents gparent parent .red
  rotate h gparent parent

/-- The loop of `__rb_insert`. -/
def insertLoop : Nat → Heap ι α → ι → Option ι → Option (Heap ι α)
  | 0, _, _, _ => none
  | _ + 1, h, node, none => some (h.setParentColor node none .black)
  | fuel + 1, h, node, some parent =>
    if h.color parent = .black then some h
    else do
      let gparent ← h.parent parent
      let s : Side := if some parent ≠ h.child gparent .right then .left else .right
      match h.redChild gparent s.other with
      | some tmp =>
        -- Case 1: flip the colours and go on at the grandparent.
        let h := h.setParentColor tmp (some gparent) .black
        let h := h.setParentColor parent (some gparent) .black
        let p := h.parent gparent
        insertLoop fuel (h.setParentColor gparent p .red) gparent p
      | none =>
        if h.child parent s.other = some node then
          some ((h.rotateParent rotate s parent node).rotateGrandparent rotate s gparent node)
        else some (h.rotateGrandparent rotate s gparent parent)

def rbInsert [Fintype ι] (h : Heap ι α) (node : ι) : Option (Heap ι α) := do
  let parent ← h.redParent node
  h.insertLoop rotate (Fintype.card ι + 1) node parent

end Insert

/-! ## Deletion -/

section EraseColor

variable (rotate : Heap ι α → ι → ι → Heap ι α)

/-- Case 1: rotate at the parent of a red sibling. The result has the new sibling. -/
def raiseSibling (h : Heap ι α) (s : Side) (parent sibling : ι) : Option (Heap ι α × ι) := do
  let tmp1 ← h.child sibling s
  let h := h.setChild parent s.other (some tmp1)
  let h := h.setChild sibling s (some parent)
  let h := h.setParentColor tmp1 (some parent) .black
  let h := h.rotateSetParents parent sibling .red
  some (rotate h parent sibling, tmp1)

/-- Case 3: rotate at the sibling. -/
def rotateSibling (h : Heap ι α) (s : Side) (parent sibling tmp2 : ι) : Heap ι α :=
  let tmp1 := h.child tmp2 s.other
  let h := h.setChild sibling s tmp1
  let h := h.setChild tmp2 s.other (some sibling)
  let h := h.setChild parent s.other (some tmp2)
  let h := h.setParentColorOf tmp1 sibling .black
  rotate h sibling tmp2

/-- Case 4: rotate at the parent and flip the colours. -/
def rotateFlip (h : Heap ι α) (s : Side) (parent sibling tmp1 : ι) : Heap ι α :=
  let tmp2 := h.child sibling s
  let h := h.setChild parent s.other tmp2
  let h := h.setChild sibling s (some parent)
  let h := h.setParentColor tmp1 (some sibling) .black
  let h := h.setParentOf tmp2 parent
  let h := h.rotateSetParents parent sibling .black
  rotate h parent sibling

/-- The rest of a round, with a black sibling. The next round, if there is one, is `again`. -/
def settle (again : Heap ι α → ι → ι → Option (Heap ι α)) (h : Heap ι α) (s : Side)
    (parent sibling : ι) : Option (Heap ι α) :=
  match h.redChild sibling s.other with
  | some tmp1 => some (h.rotateFlip rotate s parent sibling tmp1)
  | none =>
    match h.redChild sibling s with
    | some tmp2 =>
      some ((h.rotateSibling rotate s parent sibling tmp2).rotateFlip rotate s parent tmp2 sibling)
    | none =>
      -- Case 2: the sibling becomes red.
      let h := h.setParentColor sibling (some parent) .red
      if h.color parent = .red then some (h.setBlack parent)
      else
        match h.parent parent with
        | some p => again h parent p
        | none => some h

/-- The loop of `____rb_erase_color`. -/
def eraseLoop : Nat → Heap ι α → Option ι → ι → Option (Heap ι α)
  | 0, _, _, _ => none
  | fuel + 1, h, node, parent => do
    let s : Side := if node ≠ h.child parent .right then .left else .right
    let sibling ← h.child parent s.other
    let r ←
      if h.color sibling = .red then h.raiseSibling rotate s parent sibling
      else some (h, sibling)
    r.1.settle rotate (fun h node parent => eraseLoop fuel h (some node) parent) s parent r.2

def rbEraseColor [Fintype ι] (h : Heap ι α) (parent : ι) : Option (Heap ι α) :=
  h.eraseLoop rotate (Fintype.card ι + 1) none parent

end EraseColor

section Erase

variable (augment : Callbacks ι α)

/-- The walk to the leftmost node: the last two values of `parent` and `successor`. -/
def leftmost (h : Heap ι α) : Nat → ι → ι → Option (ι × ι)
  | 0, _, _ => none
  | fuel + 1, successor, tmp =>
    match h.child tmp .left with
    | some tmp' => leftmost h fuel tmp tmp'
    | none => some (successor, tmp)

structure Unhooked (ι α : Type) where
  heap : Heap ι α
  successor : ι
  parent : ι
  child2 : Option ι

/-- The successor of `node` is taken out of its place under `child`, the right child. -/
def unhook [Fintype ι] (h : Heap ι α) (node child : ι) : Option (Unhooked ι α) :=
  match h.child child .left with
  | none => some ⟨augment.copy h node child, child, child, h.child child .right⟩
  | some tmp => do
    let (parent, successor) ← h.leftmost (Fintype.card ι) child tmp
    let child2 := h.child successor .right
    let h := h.setChild parent .left child2
    let h := h.setChild successor .right (some child)
    let h := h.setParent child (some successor)
    let h := augment.copy h node successor
    let h ← augment.propagate h (some parent) (some successor)
    some ⟨h, successor, parent, child2⟩

/-- The successor is put into the place of `node`. -/
def install (h : Heap ι α) (node left successor parent : ι) (child2 : Option ι) :
    Heap ι α × Option ι :=
  let h := h.setChild successor .left (some left)
  let h := h.setParent left (some successor)
  let pc := h.pc node
  let h := h.changeChild node (some successor) pc.1
  match child2 with
  | some c => ((h.setPc successor pc).setParentColor c (some parent) .black, none)
  | none => (h.setPc successor pc, if h.color successor = .black then some parent else none)

/-- `__rb_erase_augmented`: the heap, and the node to rebalance at. -/
def eraseAugmented [Fintype ι] (h : Heap ι α) (node : ι) : Option (Heap ι α × Option ι) :=
  match h.child node .left, h.child node .right with
  | none, some child => do
    let pc := h.pc node
    let h := (h.changeChild node (some child) pc.1).setPc child pc
    let h ← augment.propagate h pc.1 none
    some (h, none)
  | none, none => do
    let pc := h.pc node
    let h := h.changeChild node none pc.1
    let h ← augment.propagate h pc.1 none
    some (h, if pc.2 = .black then pc.1 else none)
  | some tmp, none => do
    let pc := h.pc node
    let h := (h.setPc tmp pc).changeChild node (some tmp) pc.1
    let h ← augment.propagate h pc.1 none
    some (h, none)
  | some left, some child => do
    let u ← h.unhook augment node child
    let r := u.heap.install node left u.successor u.parent u.child2
    let h ← augment.propagate r.1 (some u.successor) none
    some (h, r.2)

def rbEraseAugmented [Fintype ι] (h : Heap ι α) (node : ι) : Option (Heap ι α) := do
  let (h, rebalance) ← h.eraseAugmented augment node
  match rebalance with
  | some parent => h.rbEraseColor augment.rotate parent
  | none => some h

def rbInsertAugmented [Fintype ι] (h : Heap ι α) (node : ι) : Option (Heap ι α) :=
  h.rbInsert augment.rotate node

end Erase

/-! ## Trees without augmented values -/

def dummyCallbacks : Callbacks ι Unit where
  propagate h _ _ := some h
  copy h _ _ := h
  rotate h _ _ := h

def rbInsertColor [Fintype ι] (h : Heap ι Unit) (node : ι) : Option (Heap ι Unit) :=
  h.rbInsert dummyCallbacks.rotate node

def rbErase [Fintype ι] (h : Heap ι Unit) (node : ι) : Option (Heap ι Unit) :=
  h.rbEraseAugmented dummyCallbacks node

/-! ## The callbacks of a value -/

section Declare

variable [DecidableEq α] (compute : ι → Option α → Option α → α)

/-- `rbcompute(node)`: the value from the node and the values stored in its children. -/
def recompute (h : Heap ι α) (i : ι) : α :=
  compute i ((h.child i .left).map h.aug) ((h.child i .right).map h.aug)

def setAug (h : Heap ι α) (i : ι) (v : α) : Heap ι α :=
  { h with aug := Function.update h.aug i v }

def propagateLoop : Nat → Heap ι α → Option ι → Option ι → Option (Heap ι α)
  | 0, _, _, _ => none
  | fuel + 1, h, rb, stop =>
    if rb = stop then some h
    else do
      let i ← rb
      let augmented := h.recompute compute i
      if h.aug i = augmented then some h
      else propagateLoop fuel (h.setAug i augmented) (h.parent i) stop

/-- `RB_DECLARE_CALLBACKS`. -/
def declareCallbacks [Fintype ι] : Callbacks ι α where
  propagate h rb stop := h.propagateLoop compute (Fintype.card ι + 1) rb stop
  copy h old new := h.setAug new (h.aug old)
  rotate h old new :=
    let h := h.setAug new (h.aug old)
    h.setAug old (h.recompute compute old)

end Declare

end Heap

end Mini2440.Rbtree
