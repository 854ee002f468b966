import Mini2440.Errno
import Mini2440.Library.Align
import Mini2440.Library.Linked
import Mini2440.Library.Words

/-!
# The resource tree

`kernel/resource.c` keeps the ranges of addresses that are in use in a tree. The children of a
resource are a singly linked list in the order of their addresses, and both ends of a range
belong to it. The functions of the file are translated here pointer by pointer: the memory maps
an address to each field of `struct resource`, and a pointer to a pointer is the place of a
field. `none` as the result of a function stands for a null pointer that is followed, for
`BUG_ON`, or for a walk that does not end.
-/

namespace Mini2440.Resource

open Function Library

/-- The fields of `struct resource` by address; `stop` is `end`. The name is only printed. -/
structure Heap (ι : Type) where
  start : ι → Word
  stop : ι → Word
  flags : ι → Word
  parent : ι → Option ι
  sibling : ι → Option ι
  child : ι → Option ι

/-- The field that a `struct resource **` points to. -/
inductive Place (ι : Type) where
  | child (x : ι)
  | sibling (x : ι)

/-- `start` and `end` of the resources that the functions keep on the stack. -/
@[ext] structure Range where
  start : Word
  stop : Word
  deriving DecidableEq, Repr

def ioresourceBusy : Word := 0x80000000

def ioresourceMuxed : Word := 0x00400000

variable {ι : Type} [DecidableEq ι]

namespace Heap

def load (h : Heap ι) : Place ι → Option ι
  | .child x => h.child x
  | .sibling x => h.sibling x

def store (h : Heap ι) (p : Place ι) (v : Option ι) : Heap ι :=
  match p with
  | .child x => { h with child := update h.child x v }
  | .sibling x => { h with sibling := update h.sibling x v }

def range (h : Heap ι) (x : ι) : Range := ⟨h.start x, h.stop x⟩

def setRange (h : Heap ι) (x : ι) (r : Range) : Heap ι :=
  { h with
    start := update h.start x r.start
    stop := update h.stop x r.stop }

/-- `new` is put in front of what `p` points to. -/
def link (h : Heap ι) (root new : ι) (p : Place ι) : Heap ι :=
  let h := { h with sibling := update h.sibling new (h.load p) }
  let h := h.store p (some new)
  { h with parent := update h.parent new (some root) }

end Heap

/-! ## Requesting and releasing -/

/-- The loop of `__request_resource`. -/
def requestLoop (h : Heap ι) (root new : ι) : Nat → Place ι → Option (Heap ι × Option ι)
  | 0, _ => none
  | fuel + 1, p =>
    match h.load p with
    | none => some (h.link root new p, none)
    | some tmp =>
      if h.start tmp > h.stop new then some (h.link root new p, none)
      else if h.stop tmp < h.start new then requestLoop h root new fuel (.sibling tmp)
      else some (h, some tmp)

/-- The loop of `__release_resource`. -/
def releaseLoop (h : Heap ι) (old : ι) : Nat → Place ι → Option (Heap ι × Int)
  | 0, _ => none
  | fuel + 1, p =>
    match h.load p with
    | none => some (h, -EINVAL)
    | some tmp =>
      if tmp = old then
        let h := h.store p (h.sibling tmp)
        some ({ h with parent := update h.parent old none }, 0)
      else releaseLoop h old fuel (.sibling tmp)

section Calls

variable [Fintype ι]

/-- `__request_resource`: the second value is the conflict, if there is one. -/
def requestResourceConflict (h : Heap ι) (root new : ι) : Option (Heap ι × Option ι) :=
  if h.stop new < h.start new then some (h, some root)
  else if h.start new < h.start root then some (h, some root)
  else if h.stop new > h.stop root then some (h, some root)
  else requestLoop h root new (Fintype.card ι + 1) (.child root)

/-- `conflict ? -EBUSY : 0`. -/
def verdict (r : Heap ι × Option ι) : Heap ι × Int := (r.1, if r.2.isSome then -EBUSY else 0)

def requestResource (h : Heap ι) (root new : ι) : Option (Heap ι × Int) :=
  (requestResourceConflict h root new).map verdict

def releaseResource (h : Heap ι) (old : ι) : Option (Heap ι × Int) := do
  let parent ← h.parent old
  releaseLoop h old (Fintype.card ι + 1) (.child parent)

end Calls

/-! ## Searching for room -/

/-- `struct resource_constraint`; the data of `alignf` are part of the function. -/
structure Constraint where
  min : Word
  max : Word
  align : Word
  alignf : Range → Word → Word → Word

def simpleAlignResource (avail : Range) (_size _align : Word) : Word := avail.start

def resourceClip (res : Range) (min max : Word) : Range where
  start := if res.start < min then min else res.start
  stop := if res.stop > max then max else res.stop

def resourceContains (res1 res2 : Range) : Bool :=
  res1.start ≤ res2.start && res2.stop ≤ res1.stop

def slot (c : Constraint) (size : Word) (tmp : Range) : Option Range :=
  let avail : Range := ⟨alignUp tmp.start c.align, tmp.stop⟩
  if avail.start ≥ tmp.start then
    let start := c.alignf avail size c.align
    let alloc : Range := ⟨start, start + size - 1⟩
    if resourceContains avail alloc then some alloc else none
  else none

/-- `tmp` after a round: it is clipped, unless it is empty. -/
def clipped (c : Constraint) (tmp : Range) : Range :=
  if tmp.stop < tmp.start then tmp else resourceClip tmp c.min c.max

/-- What a round of the loop of `__find_resource` returns, if it does. -/
def tryGap (c : Constraint) (size : Word) (tmp : Range) : Option Range :=
  if tmp.stop < tmp.start then none else slot c size (clipped c tmp)

/-- The loop of `__find_resource`; the second value is `tmp.start`. The pointer `old` is to a
resource that may be moved. -/
def findLoop (h : Heap ι) (root : ι) (old : Option ι) (c : Constraint) (size : Word) :
    Nat → Option ι → Word → Option (Option Range)
  | 0, _, _ => none
  | _ + 1, none, start => some (tryGap c size ⟨start, h.stop root⟩)
  | fuel + 1, some t, start =>
    let tmp : Range := ⟨start, if some t = old then h.stop t else h.start t - 1⟩
    match tryGap c size tmp with
    | some alloc => some (some alloc)
    | none =>
      if h.stop t = h.stop root then some none
      else findLoop h root old c size fuel (h.sibling t)
        (if some t = old then (clipped c tmp).start else h.stop t + 1)

section Calls

variable [Fintype ι]

/-- `__find_resource`: the range that was found, or `none` inside for `-EBUSY`. -/
def findResource (h : Heap ι) (root : ι) (old : Option ι) (c : Constraint) (size : Word) :
    Option (Option Range) :=
  let find := findLoop h root old c size (Fintype.card ι + 1)
  match h.child root with
  | some t =>
    if h.start t = h.start root then
      find (h.sibling t) (if some t = old then h.start t else h.stop t + 1)
    else find (some t) (h.start root)
  | none => find none (h.start root)

/-- The part of `reallocate_resource` behind the search. -/
def moveFound (h : Heap ι) (root old : ι) : Option Range → Option (Heap ι × Int)
  | none => some (h, -EBUSY)
  | some new =>
    if resourceContains new (h.range old) then some (h.setRange old new, 0)
    else if (h.child old).isSome then some (h, -EBUSY)
    else if resourceContains (h.range old) new then some (h.setRange old new, 0)
    else do
      let (h', _) ← releaseResource h old
      -- `*old = new` writes back the copy that was made before the release
      let h' := { h'.setRange old new with
        flags := update h'.flags old (h.flags old)
        parent := update h'.parent old (h.parent old)
        sibling := update h'.sibling old (h.sibling old)
        child := update h'.child old (h.child old) }
      let (h', conflict) ← requestResourceConflict h' root old
      if conflict.isSome then none else some (h', 0)

def reallocateResource (h : Heap ι) (root old : ι) (newsize : Word) (c : Constraint) :
    Option (Heap ι × Int) := do
  let found ← findResource h root (some old) c newsize
  moveFound h root old found

/-- The part of `allocate_resource` behind the search. -/
def putFound (h : Heap ι) (root new : ι) : Option Range → Option (Heap ι × Int)
  | none => some (h, -EBUSY)
  | some r => (requestResourceConflict (h.setRange new r) root new).map verdict

def allocateResource (h : Heap ι) (root new : ι) (size min max align : Word)
    (alignf : Option (Range → Word → Word → Word)) : Option (Heap ι × Int) :=
  let c : Constraint := ⟨min, max, align, alignf.getD simpleAlignResource⟩
  if (h.parent new).isSome then reallocateResource h root new size c
  else do
    let found ← findResource h root none c size
    putFound h root new found

end Calls

/-! ## Inserting above others -/

/-- How the first loop of `__insert_resource` ends: with a result, or at the first child of
`parent` that has to go below the new resource. -/
inductive Descent (ι : Type) where
  | done (h : Heap ι) (conflict : Option ι)
  | split (parent first : ι)

/-- The second loop of `__insert_resource`: the last child to go below `new`, or the one that is
only partly inside. -/
def lastInside (h : Heap ι) (new : ι) : Nat → ι → Option (Except ι ι)
  | 0, _ => none
  | fuel + 1, next =>
    if h.start next < h.start new ∨ h.stop next > h.stop new then some (.error next)
    else
      match h.sibling next with
      | none => some (.ok next)
      | some t => if h.start t > h.stop new then some (.ok next) else lastInside h new fuel t

/-- The third loop of `__insert_resource`. -/
def reparent (h : Heap ι) (new : ι) : Nat → Option ι → Option (Heap ι)
  | 0, _ => none
  | _ + 1, none => some h
  | fuel + 1, some next =>
    reparent { h with parent := update h.parent next (some new) } new fuel
      (h.sibling next)

/-- `while (tmp->sibling != x) tmp = tmp->sibling`. -/
def predecessor (h : Heap ι) (x : ι) : Nat → Option ι → Option ι
  | 0, _ => none
  | _ + 1, none => none
  | fuel + 1, some tmp =>
    if h.sibling tmp = some x then some tmp else predecessor h x fuel (h.sibling tmp)

section Calls

variable [Fintype ι]

/-- The first loop of `__insert_resource`. -/
def descend (h : Heap ι) (new : ι) : Nat → ι → Option (Descent ι)
  | 0, _ => none
  | fuel + 1, parent =>
    match requestResourceConflict h parent new with
    | none => none
    | some (h', none) => some (.done h' none)
    | some (h', some first) =>
      if first = parent then some (.done h' (some first))
      else if first = new then some (.done h' (some first))
      else if h.start first > h.start new ∨ h.stop first < h.stop new then
        some (.split parent first)
      else if h.start first = h.start new ∧ h.stop first = h.stop new then
        some (.split parent first)
      else descend h new fuel first

/-- The rest of `__insert_resource`: the children from `first` to `next` go below `new`. -/
def adopt (h : Heap ι) (parent new first next : ι) : Option (Heap ι) := do
  let h := { h with
    parent := update h.parent new (some parent)
    sibling := update h.sibling new (h.sibling next)
    child := update h.child new (some first) }
  let h := { h with sibling := update h.sibling next none }
  let h ← reparent h new (Fintype.card ι + 1) (some first)
  if h.child parent = some first then
    some { h with child := update h.child parent (some new) }
  else do
    let next ← predecessor h first (Fintype.card ι + 1) (h.child parent)
    some { h with sibling := update h.sibling next (some new) }

/-- `__insert_resource`: the second value is the conflict, if there is one. -/
def insertResourceConflict (h : Heap ι) (parent new : ι) : Option (Heap ι × Option ι) := do
  match ← descend h new (Fintype.card ι + 1) parent with
  | .done h conflict => some (h, conflict)
  | .split parent first =>
    match ← lastInside h new (Fintype.card ι + 1) first with
    | .error next => some (h, some next)
    | .ok next =>
      let h ← adopt h parent new first next
      some (h, none)

def insertResource (h : Heap ι) (parent new : ι) : Option (Heap ι × Int) :=
  (insertResourceConflict h parent new).map verdict

end Calls

/-! ## Adjusting -/

/-- The last loop of `adjust_resource`: no child from `tmp` on is outside the range. -/
def childrenInside (h : Heap ι) (r : Range) : Nat → Option ι → Option Bool
  | 0, _ => none
  | _ + 1, none => some true
  | fuel + 1, some tmp =>
    if h.start tmp < r.start ∨ h.stop tmp > r.stop then some false
    else childrenInside h r fuel (h.sibling tmp)

section Calls

variable [Fintype ι]

/-- The tests of `adjust_resource` against the parent and the neighbours. -/
def fitsBetween (h : Heap ι) (res parent : ι) (r : Range) : Option Bool :=
  if r.start < h.start parent ∨ r.stop > h.stop parent then some false
  else if (h.sibling res).any fun t => h.start t ≤ r.stop then some false
  else if h.child parent = some res then some true
  else do
    let tmp ← predecessor h res (Fintype.card ι + 1) (h.child parent)
    some (!decide (r.start ≤ h.stop tmp))

/-- The part of `adjust_resource` before `skip`. -/
def fitsTree (h : Heap ι) (res : ι) (r : Range) : Option Bool :=
  match h.parent res with
  | none => some true
  | some parent => fitsBetween h res parent r

def adjustResource (h : Heap ι) (res : ι) (start size : Word) : Option (Heap ι × Int) := do
  let r : Range := ⟨start, start + size - 1⟩
  let fits ← fitsTree h res r
  if !fits then some (h, -EBUSY)
  else
    let inside ← childrenInside h r (Fintype.card ι + 1) (h.child res)
    if inside then some (h.setRange res r, 0) else some (h, -EBUSY)

end Calls

/-! ## Busy regions -/

/-- How the loop of `__request_region` ends; a caller that waits keeps the resource that it
conflicts with as its parent. -/
inductive Outcome (ι : Type) where
  | granted (h : Heap ι)
  | waits (parent : ι)
  | refused

/-- The loop of `__release_region`: the memory without the region, and the region. -/
def releaseRegionLoop (h : Heap ι) (r : Range) : Nat → Place ι → Option (Option (Heap ι × ι))
  | 0, _ => none
  | fuel + 1, p =>
    match h.load p with
    | none => some none
    | some res =>
      if h.start res ≤ r.start ∧ h.stop res ≥ r.stop then
        if h.flags res &&& ioresourceBusy = 0 then releaseRegionLoop h r fuel (.child res)
        else if h.start res ≠ r.start ∨ h.stop res ≠ r.stop then some none
        else some (some (h.store p (h.sibling res), res))
      else releaseRegionLoop h r fuel (.sibling res)

section Calls

variable [Fintype ι]

/-- The loop of `__request_region`. -/
def regionLoop (h : Heap ι) (res : ι) (flags : Word) : Nat → ι → Option (Outcome ι)
  | 0, _ => none
  | fuel + 1, parent =>
    match requestResourceConflict h parent res with
    | none => none
    | some (h', none) => some (.granted h')
    | some (_, some conflict) =>
      if conflict ≠ parent ∧ h.flags conflict &&& ioresourceBusy = 0 then
        regionLoop h res flags fuel conflict
      else if h.flags conflict &&& flags &&& ioresourceMuxed ≠ 0 then some (.waits conflict)
      else some .refused

/-- The resource that `__request_region` has got from `kzalloc` and filled in. -/
def regionResource (h : Heap ι) (res : ι) (start n flags : Word) : Heap ι where
  start := update h.start res start
  stop := update h.stop res (start + n - 1)
  flags := update h.flags res (ioresourceBusy ||| flags)
  parent := update h.parent res none
  sibling := update h.sibling res none
  child := update h.child res none

end Calls

end Mini2440.Resource
