import Mini2440.Errno
import Mini2440.Rbtree.Walk

/-!
# The fragment tree of an inode

`jffs2_add_full_dnode_to_inode` of `fs/jffs2/nodelist.c` and the functions below it. A fragment is
a range of a file and the data node that it comes from; the fragments of an inode are in a red-black
tree. The offsets are plain numbers: all sums are ends of fragments, which stay below `2 ^ 32`. What
`jffs2_alloc_node_frag` returns is a parameter. Following a null pointer is `none`, and so is
`BUG()`.
-/

namespace Mini2440.Jffs2

open Function Library Rbtree

/-! ## Objects -/

/-- `struct jffs2_node_frag` without its place in the tree. A fragment without a node is a hole. -/
structure NodeFrag (ν : Type) where
  ofs : Nat
  size : Nat
  node : Option ν
  deriving DecidableEq, Repr

def NodeFrag.stop {ν : Type} (f : NodeFrag ν) : Nat := f.ofs + f.size

/-- The lowest bits of the word `flash_offset`. -/
inductive RefFlags where
  | unchecked
  | obsolete
  | pristine
  | normal
  deriving DecidableEq, Repr

/-- `struct jffs2_full_dnode`, with the flags of its node reference `raw`. -/
structure FullDnode where
  ofs : Nat
  size : Nat
  /-- The number of fragments that refer to the node. -/
  frags : Nat
  flags : RefFlags
  deriving DecidableEq, Repr

structure Inode (ι ν : Type) where
  fragtree : Heap ι Unit
  frag : ι → NodeFrag ν
  /-- The fragment objects that are allocated. -/
  live : ι → Bool
  dnode : ν → FullDnode

def pageCacheShift : Nat := 12

def pageCacheSize : Nat := 4096

section Functions

variable {ι ν : Type} [DecidableEq ι] [DecidableEq ν]

namespace Inode

/-! ## Writing fields -/

def setTree (s : Inode ι ν) (h : Heap ι Unit) : Inode ι ν := { s with fragtree := h }

def setFrag (s : Inode ι ν) (i : ι) (f : NodeFrag ν) : Inode ι ν :=
  { s with frag := update s.frag i f }

def setFrags (s : Inode ι ν) (fn : ν) (frags : Nat) : Inode ι ν :=
  { s with dnode := update s.dnode fn { s.dnode fn with frags := frags } }

def setFlags (s : Inode ι ν) (fn : ν) (flags : RefFlags) : Inode ι ν :=
  { s with dnode := update s.dnode fn { s.dnode fn with flags := flags } }

def markRefNormal (s : Inode ι ν) (fn : ν) : Inode ι ν := s.setFlags fn .normal

/-- `jffs2_mark_node_obsolete`. -/
def markNodeObsolete (s : Inode ι ν) (fn : ν) : Inode ι ν := s.setFlags fn .obsolete

/-- `if (frag->node) mark_ref_normal(frag->node->raw)`. -/
def markNodeOf (s : Inode ι ν) (i : ι) : Inode ι ν :=
  match (s.frag i).node with
  | none => s
  | some fn => s.markRefNormal fn

def freeNodeFrag (s : Inode ι ν) (i : ι) : Inode ι ν :=
  { s with live := update s.live i false }

def initFrag (s : Inode ι ν) (i : ι) (f : NodeFrag ν) : Inode ι ν :=
  { s.setFrag i f with live := update s.live i true }

/-- `new_fragment`, with the object that the allocation gives. -/
def newFragment (s : Inode ι ν) (mem : Option ι) (fn : Option ν) (ofs size : Nat) :
    Inode ι ν × Option ι :=
  match mem with
  | none => (s, none)
  | some i => (s.initFrag i ⟨ofs, size, fn⟩, some i)

/-- `if (frag->node) frag->node->frags++`. -/
def shareNode (s : Inode ι ν) (node : Option ν) : Inode ι ν :=
  match node with
  | none => s
  | some fn => s.setFrags fn ((s.dnode fn).frags + 1)

/-- `jffs2_obsolete_node_frag`. -/
def obsoleteNodeFrag (s : Inode ι ν) (this : ι) : Inode ι ν :=
  let s :=
    match (s.frag this).node with
    | none => s
    | some fn =>
      let s := s.setFrags fn ((s.dnode fn).frags - 1)
      if (s.dnode fn).frags = 0 then s.markNodeObsolete fn else s.markRefNormal fn
  s.freeNodeFrag this

/-! ## The tree -/

/-- The comparison in the loop of `jffs2_fragtree_insert`. Two fragments at one offset are a
`BUG()`. -/
def insertSide (s : Inode ι ν) (newfrag base : ι) : Option Side :=
  if (s.frag base).ofs < (s.frag newfrag).ofs then some .right
  else if (s.frag newfrag).ofs < (s.frag base).ofs then some .left
  else none

/-- `if (!prev || frag->ofs > prev->ofs) prev = frag`. -/
def closer (s : Inode ι ν) (prev : Option ι) (frag : ι) : Option ι :=
  match prev with
  | none => some frag
  | some j => if (s.frag j).ofs < (s.frag frag).ofs then some frag else some j

/-- The loop of `jffs2_lookup_node_frag`. -/
def lookupLoop (s : Inode ι ν) (offset : Nat) : Nat → Option ι → Option ι → Option (Option ι)
  | 0, _, _ => none
  | _ + 1, none, prev => some prev
  | fuel + 1, some i, prev =>
    if (s.frag i).stop ≤ offset then
      s.lookupLoop offset fuel (s.fragtree.child i .right) (s.closer prev i)
    else if offset < (s.frag i).ofs then
      s.lookupLoop offset fuel (s.fragtree.child i .left) prev
    else some (some i)

variable [Fintype ι]

/-- `jffs2_lookup_node_frag`. -/
def lookupNodeFrag (s : Inode ι ν) (offset : Nat) : Option (Option ι) :=
  s.lookupLoop offset (Fintype.card ι + 1) s.fragtree.root none

def insertColor (s : Inode ι ν) (i : ι) : Option (Inode ι ν) :=
  (s.fragtree.rbInsertColor i).map s.setTree

/-- `jffs2_fragtree_insert` and `rb_insert_color`. -/
def fragtreeInsert (s : Inode ι ν) (newfrag base : ι) : Option (Inode ι ν) := do
  let place ← s.fragtree.seek (s.insertSide newfrag) (Fintype.card ι) base
  let h := s.fragtree.rbLinkNode newfrag (some place.1) (.child place.1 place.2)
  (s.setTree h).insertColor newfrag

/-- `rb_link_node` to the right of `this`, or at the root of an empty tree, and
`rb_insert_color`. -/
def linkRight (s : Inode ι ν) (i : ι) (this : Option ι) : Option (Inode ι ν) :=
  let h :=
    match this with
    | some j => s.fragtree.rbLinkNode i (some j) (.child j .right)
    | none => s.fragtree.rbLinkNode i none .root
  (s.setTree h).insertColor i

def noOverlappingNode (s : Inode ι ν) (newfrag : ι) (this : Option ι) (lastend : Nat)
    (mem : Option ι) : Option (Int × Inode ι ν) := do
  let fn ← (s.frag newfrag).node
  if lastend < (s.dnode fn).ofs then
    match s.newFragment mem none lastend ((s.dnode fn).ofs - lastend) with
    | (s, none) => some (-ENOMEM, s.freeNodeFrag newfrag)
    | (s, some holefrag) =>
      let s ← s.linkRight holefrag this
      let s ← s.linkRight newfrag (some holefrag)
      some (0, s)
  else
    let s ← s.linkRight newfrag this
    some (0, s)

/-- The loop of `jffs2_add_frag_to_fragtree`, which takes out the fragments that are covered. It
ends with the next fragment. -/
def sweepLoop (newfrag : ι) : Nat → Inode ι ν → Option (Inode ι ν × Option ι)
  | 0, _ => none
  | fuel + 1, s => do
    match ← s.fragtree.rbNext newfrag with
    | none => some (s, none)
    | some this =>
      if (s.frag this).stop ≤ (s.frag newfrag).stop then
        let h ← s.fragtree.rbErase this
        sweepLoop newfrag fuel ((s.setTree h).obsoleteNodeFrag this)
      else some (s, some this)

/-- What follows the new fragment in `jffs2_add_frag_to_fragtree`. -/
def sweep (s : Inode ι ν) (newfrag : ι) : Option (Int × Inode ι ν) := do
  let (s, this) ← sweepLoop newfrag (Fintype.card ι + 1) s
  match this with
  | none => some (0, s)
  | some this =>
    let stop := (s.frag newfrag).stop
    if stop = (s.frag this).ofs then some (0, s)
    else
      let fn ← (s.frag newfrag).node
      let s := s.setFrag this ⟨stop, (s.frag this).stop - stop, (s.frag this).node⟩
      some (0, (s.markNodeOf this).markRefNormal fn)

def lastend (s : Inode ι ν) : Option ι → Nat
  | some this => (s.frag this).stop
  | none => 0

/-- `jffs2_add_frag_to_fragtree`. -/
def addFragToFragtree (s : Inode ι ν) (newfrag : ι) (mem : Option ι) :
    Option (Int × Inode ι ν) := do
  let fn ← (s.frag newfrag).node
  let new := s.frag newfrag
  let this ← s.lookupNodeFrag (s.dnode fn).ofs
  let lastend := s.lastend this
  if lastend ≤ new.ofs then
    -- The end of the tree is before the new fragment. The two may share a page.
    let shared := lastend ≠ 0 ∧ (lastend - 1) >>> pageCacheShift = new.ofs >>> pageCacheShift
    let s := if shared then (this.elim s s.markNodeOf).markRefNormal fn else s
    s.noOverlappingNode newfrag this lastend mem
  else
    let this ← this
    let old := s.frag this
    if old.ofs < new.ofs then
      let s := (s.markRefNormal fn).markNodeOf this
      if new.stop < old.stop then
        -- The new fragment splits the old one.
        match s.newFragment mem old.node new.stop (old.stop - new.ofs - new.size) with
        | (s, none) => some (-ENOMEM, s)
        | (s, some newfrag2) =>
          let s := s.shareNode old.node
          let s := s.setFrag this ⟨old.ofs, new.ofs - old.ofs, old.node⟩
          let s ← s.fragtreeInsert newfrag this
          let s ← s.fragtreeInsert newfrag2 newfrag
          some (0, s)
      else
        let s := s.setFrag this ⟨old.ofs, new.ofs - old.ofs, old.node⟩
        let s ← s.fragtreeInsert newfrag this
        s.sweep newfrag
    else
      let s := s.setTree (s.fragtree.rbReplaceNode this newfrag)
      if old.stop ≤ new.stop then (s.obsoleteNodeFrag this).sweep newfrag
      else
        let s := s.setFrag this ⟨old.ofs + new.size, old.size - new.size, old.node⟩
        let s ← s.fragtreeInsert this newfrag
        some (0, s)

/-- The flags of a node that shares its first page with the fragment before it. There always is one
unless the node starts at zero. -/
def markPrev (s : Inode ι ν) (newfrag : ι) (fn : ν) : Option (Inode ι ν) :=
  if (s.frag newfrag).ofs &&& (pageCacheSize - 1) = 0 then some s
  else do
    let prev ← s.fragtree.rbPrev newfrag
    some ((s.markRefNormal fn).markNodeOf (← prev))

/-- The flags of a node that shares its last page with the fragment behind it. -/
def markNext (s : Inode ι ν) (newfrag : ι) (fn : ν) : Option (Inode ι ν) :=
  if (s.frag newfrag).stop &&& (pageCacheSize - 1) = 0 then some s
  else do
    match ← s.fragtree.rbNext newfrag with
    | none => some s
    | some next => some ((s.markRefNormal fn).markNodeOf next)

/-- `jffs2_add_full_dnode_to_inode`, with the objects that its two allocations give. -/
def addFullDnodeToInode (s : Inode ι ν) (fn : ν) (mem mem' : Option ι) :
    Option (Int × Inode ι ν) := do
  if (s.dnode fn).size = 0 then some (0, s)
  else
    match s.newFragment mem (some fn) (s.dnode fn).ofs (s.dnode fn).size with
    | (s, none) => some (-ENOMEM, s)
    | (s, some newfrag) =>
      let (ret, s) ← (s.setFrags fn 1).addFragToFragtree newfrag mem'
      if ret ≠ 0 then some (ret, s)
      else
        let s ← s.markPrev newfrag fn
        let s ← s.markNext newfrag fn
        some (0, s)

end Inode

end Functions

/-! ## Fields after an operation -/

section Fields

variable {ι ν : Type} (s : Inode ι ν) {i j : ι} {f : NodeFrag ν} {seq : List ι}

@[simp] lemma fragtree_setTree (h : Heap ι Unit) :
    (s.setTree h).fragtree = h := rfl

@[simp] lemma frag_setTree (h : Heap ι Unit) : (s.setTree h).frag = s.frag := rfl

@[simp] lemma live_setTree (h : Heap ι Unit) : (s.setTree h).live = s.live := rfl

@[simp] lemma setTree_setTree (h h' : Heap ι Unit) :
    (s.setTree h).setTree h' = s.setTree h' := rfl

section Fragments

variable [DecidableEq ι]

@[simp] lemma fragtree_setFrag :
    (s.setFrag i f).fragtree = s.fragtree := rfl

@[simp] lemma live_setFrag :
    (s.setFrag i f).live = s.live := rfl

variable {s}

lemma frag_setFrag_self : (s.setFrag i f).frag i = f := update_self ..

lemma frag_setFrag_of_ne (hj : j ≠ i) : (s.setFrag i f).frag j = s.frag j :=
  update_of_ne hj _ _

lemma map_setFrag (hi : i ∉ seq) : seq.map (s.setFrag i f).frag = seq.map s.frag :=
  List.map_congr_left fun _ hj => frag_setFrag_of_ne (ne_of_mem_of_not_mem hj hi)

lemma frag_initFrag_self : (s.initFrag i f).frag i = f := frag_setFrag_self

lemma frag_initFrag_of_ne (hj : j ≠ i) : (s.initFrag i f).frag j = s.frag j :=
  frag_setFrag_of_ne hj

lemma live_initFrag (hj : s.live j) : (s.initFrag i f).live j := by
  by_cases hji : j = i
  · rw [hji]
    exact update_self ..
  · exact (update_of_ne hji _ _).trans hj

lemma live_initFrag_self : (s.initFrag i f).live i :=
  update_self ..

lemma map_initFrag (hi : i ∉ seq) : seq.map (s.initFrag i f).frag = seq.map s.frag :=
  map_setFrag hi

end Fragments

variable [DecidableEq ν]

lemma frag_setFrags (fn : ν) (k : Nat) :
    (s.setFrags fn k).frag = s.frag := rfl

@[simp] lemma markRefNormal_frame (fn : ν) :
    (s.markRefNormal fn).fragtree = s.fragtree ∧ (s.markRefNormal fn).frag = s.frag ∧
      (s.markRefNormal fn).live = s.live := ⟨rfl, rfl, rfl⟩

@[simp] lemma markNodeOf_frame (i : ι) :
    (s.markNodeOf i).fragtree = s.fragtree ∧ (s.markNodeOf i).frag = s.frag ∧
      (s.markNodeOf i).live = s.live := by
  unfold Inode.markNodeOf
  split <;> exact ⟨rfl, rfl, rfl⟩

lemma fragtree_shareNode (o : Option ν) : (s.shareNode o).fragtree = s.fragtree := by
  cases o <;> rfl

lemma frag_shareNode (o : Option ν) : (s.shareNode o).frag = s.frag := by
  cases o <;> rfl

lemma live_shareNode (o : Option ν) : (s.shareNode o).live = s.live := by
  cases o <;> rfl

variable [DecidableEq ι]

@[simp] lemma obsoleteNodeFrag_frame :
    (s.obsoleteNodeFrag i).fragtree = s.fragtree ∧ (s.obsoleteNodeFrag i).frag = s.frag ∧
      (s.obsoleteNodeFrag i).live = update s.live i false := by
  unfold Inode.obsoleteNodeFrag
  split
  · exact ⟨rfl, rfl, rfl⟩
  · dsimp only
    split <;> exact ⟨rfl, rfl, rfl⟩

end Fields

end Mini2440.Jffs2
