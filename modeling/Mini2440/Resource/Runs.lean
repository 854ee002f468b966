import Mini2440.Library.Run
import Mini2440.Resource.Allocate

/-!
# Runs of calls on the resource tree

The state is the memory of the resources together with the callers of `__request_region` that
sleep until a muxed region is released. A run is any sequence of calls. The tree stays well
formed in every run whose calls meet `Admitted` (`tree_wellFormed`). What `Admitted` excludes is
misuse, such as the request of a resource that is in the tree already, and three slips of the
code: `adjust_resource` and `reallocate_resource` take a range whose end has wrapped around, and
a caller that has slept goes on with the resource that it waited for, which has been freed.
-/

namespace Mini2440.Resource

open Function Library

variable {ι : Type} [DecidableEq ι] [Fintype ι]

/-- A caller of `__request_region` that sleeps: its resource, the parent that it goes on with, and
its flags. -/
structure Waiter (ι : Type) where
  res : ι
  parent : ι
  flags : Word
  woken : Bool

/-- `freed` marks the resources that have been given back with `kfree`. -/
structure State (ι : Type) where
  heap : Heap ι
  waiting : List (Waiter ι)
  freed : ι → Bool

inductive Reply (ι : Type) where
  | done
  | ret (value : Int)
  | region (res : Option ι)
  | asleep

/-! ## Busy regions -/

/-- `__request_region` from its loop on. -/
def enterRegion (s : State ι) (res parent : ι) (flags : Word) : Option (State ι × Reply ι) := do
  match ← regionLoop s.heap res flags (Fintype.card ι + 1) parent with
  | .granted h => some ({ s with heap := h }, .region (some res))
  | .waits parent =>
    some ({ s with waiting := s.waiting ++ [⟨res, parent, flags, false⟩] }, .asleep)
  | .refused => some ({ s with freed := update s.freed res true }, .region none)

/-- `__request_region`; `res` is what `kzalloc` returns. -/
def requestRegion (s : State ι) (parent : ι) (start n flags : Word) (res : Option ι) :
    Option (State ι × Reply ι) :=
  match res with
  | none => some (s, .region none)
  | some res =>
    enterRegion { s with
      heap := regionResource s.heap res start n flags
      freed := update s.freed res false } res parent flags

/-- The `k`-th caller that sleeps goes on, if it has been woken. -/
def resume (s : State ι) (k : Nat) : Option (State ι × Reply ι) :=
  match s.waiting[k]? with
  | none => some (s, .done)
  | some w =>
    if w.woken then
      enterRegion { s with waiting := s.waiting.eraseIdx k } w.res w.parent w.flags
    else some (s, .asleep)

def releaseRegion (s : State ι) (parent : ι) (start n : Word) : Option (State ι × Reply ι) := do
  let r : Range := ⟨start, start + n - 1⟩
  let fuel := (Fintype.card ι + 1) * (Fintype.card ι + 1)
  match ← releaseRegionLoop s.heap r fuel (.child parent) with
  | none => some (s, .done)
  | some (h, res) =>
    let wake (w : Waiter ι) : Waiter ι := { w with woken := true }
    let waiting :=
      if s.heap.flags res &&& ioresourceMuxed ≠ 0 then s.waiting.map wake else s.waiting
    some (⟨h, waiting, update s.freed res true⟩, .done)

/-! ## Calls -/

/-- The calls; `fill` is a caller that writes the descriptor of its resource. -/
inductive Op (ι : Type) where
  | fill (res : ι) (r : Range) (flags : Word)
  | request (root new : ι)
  | insert (root new : ι)
  | allocate (root new : ι) (size min max align : Word)
      (alignf : Option (Range → Word → Word → Word))
  | reallocate (root old : ι) (newsize : Word) (c : Constraint)
  | adjust (res : ι) (start size : Word)
  | release (old : ι)
  | requestRegion (parent : ι) (start n flags : Word) (res : Option ι)
  | resume (k : Nat)
  | releaseRegion (parent : ι) (start n : Word)

def State.onHeap (s : State ι) (res : Option (Heap ι × Int)) : Option (State ι × Reply ι) :=
  res.map fun r => ({ s with heap := r.1 }, .ret r.2)

def call (s : State ι) : Op ι → Option (State ι × Reply ι)
  | .fill res r flags =>
    some ({ s with heap := { s.heap.setRange res r with
      flags := update s.heap.flags res flags } }, .done)
  | .request root new => s.onHeap (requestResource s.heap root new)
  | .insert root new => s.onHeap (insertResource s.heap root new)
  | .allocate root new size min max align alignf =>
    s.onHeap (allocateResource s.heap root new size min max align alignf)
  | .reallocate root old newsize c => s.onHeap (reallocateResource s.heap root old newsize c)
  | .adjust res start size => s.onHeap (adjustResource s.heap res start size)
  | .release old => s.onHeap (releaseResource s.heap old)
  | .requestRegion parent start n flags res => requestRegion s parent start n flags res
  | .resume k => resume s k
  | .releaseRegion parent start n => releaseRegion s parent start n

def step (s : Option (State ι)) (op : Op ι) : Option (State ι) :=
  s.bind fun s => (call s op).map Prod.fst

/-! ## The calls that are admitted -/

/-- The way up from `x`. -/
def Heap.ancestors (h : Heap ι) (x : ι) : List ι :=
  follow h.parent (Fintype.card ι) (some x)

/-- No gap that is tried before one with room passes the test with an end that has wrapped
around. -/
def Sure (h : Heap ι) (root old : ι) (size : Word) (c : Constraint) : Prop :=
  ∀ g ∈ (gaps h root (some old) c).takeWhile fun g => !roomy c size g, misled c size g = false

/-- The memory may hold a new resource that is to go below `root`. -/
def Loose (h : Heap ι) (new root : ι) : Prop :=
  (∀ x, new ∉ h.children x) ∧ new ∉ h.ancestors root

def Op.names : Op ι → List ι
  | .fill res _ _ => [res]
  | .request root new => [root, new]
  | .insert root new => [root, new]
  | .allocate root new _ _ _ _ _ => [root, new]
  | .reallocate root old _ _ => [root, old]
  | .adjust res _ _ => [res]
  | .release old => [old]
  | .requestRegion parent _ _ _ _ => [parent]
  | .resume _ => []
  | .releaseRegion parent _ _ => [parent]

def Expects (s : State ι) : Op ι → Prop
  | .fill res r _ =>
    s.heap.parent res = none ∧ ∀ c ∈ s.heap.children res, (s.heap.range c).Inside r
  | .request root new => s.heap.parent new = none ∧ new ∉ s.heap.ancestors root
  | .insert root new => s.heap.parent new = none ∧ new ∉ s.heap.ancestors root
  | .allocate root new size min max align alignf =>
    (s.heap.parent new = none → s.heap.children new = [] ∧ new ∉ s.heap.ancestors root) ∧
      (s.heap.parent new ≠ none → new ∈ s.heap.children root ∧
        Sure s.heap root new size ⟨min, max, align, alignf.getD simpleAlignResource⟩)
  | .reallocate root old newsize c => old ∈ s.heap.children root ∧ Sure s.heap root old newsize c
  | .adjust res start size =>
    ∀ p, s.heap.parent res = some p →
      s.freed p = false ∧ res ∈ s.heap.children p ∧ start ≤ start + size - 1
  | .release old => ∃ p, s.heap.parent old = some p ∧ s.freed p = false
  | .requestRegion parent _ _ _ res => ∀ a, res = some a → Loose s.heap a parent
  | .resume k =>
    ∀ w ∈ s.waiting[k]?, s.freed w.parent = false ∧ Loose s.heap w.res w.parent
  | .releaseRegion _ _ _ => True

/-- No call is given memory that has been freed, and each may rely on what it expects. -/
def Admitted (s : State ι) (op : Op ι) : Prop :=
  (∀ x ∈ op.names, s.freed x = false) ∧ Expects s op

instance (h : Heap ι) (root old : ι) (size : Word) (c : Constraint) :
    Decidable (Sure h root old size c) :=
  inferInstanceAs (Decidable (∀ g ∈ _, _))

instance (h : Heap ι) (new root : ι) : Decidable (Loose h new root) :=
  inferInstanceAs (Decidable (_ ∧ _))

instance (s : State ι) : ∀ op, Decidable (Expects s op)
  | .fill .. => inferInstanceAs (Decidable (_ ∧ _))
  | .request .. => inferInstanceAs (Decidable (_ ∧ _))
  | .insert .. => inferInstanceAs (Decidable (_ ∧ _))
  | .allocate .. => inferInstanceAs (Decidable (_ ∧ _))
  | .reallocate .. => inferInstanceAs (Decidable (_ ∧ _))
  | .adjust .. => inferInstanceAs (Decidable (∀ _, _))
  | .release .. => inferInstanceAs (Decidable (∃ _, _))
  | .requestRegion .. => inferInstanceAs (Decidable (∀ _, _))
  | .resume _ => inferInstanceAs (Decidable (∀ w ∈ _, _))
  | .releaseRegion .. => .isTrue trivial

instance (s : State ι) (op : Op ι) : Decidable (Admitted s op) :=
  inferInstanceAs (Decidable (_ ∧ _))

/-! ## Every admitted call keeps the forest -/

variable {s : State ι} {h : Heap ι} {kids : ι → List ι} {x new root res : ι} {flags : Word}
  {l₁ l₂ path : List ι} {r : Range} {fuel : Nat}

omit [DecidableEq ι] in
lemma outside_of_ancestors (hnew : new ∉ h.ancestors root) : h.Outside new root := by
  intro l hl
  rwa [Heap.ancestors, hl.follow_eq hl.length_le_card] at hnew

omit [DecidableEq ι] in
lemma Heap.Forest.free_of_loose (hf : h.Forest kids) (hloose : Loose h new root) :
    ∀ x, new ∉ kids x := by
  intro x hx
  rw [← (hf.family x).children_eq] at hx
  exact hloose.1 x hx

lemma regionLoop_spec (hf : h.Forest kids) (hfree : ∀ x, res ∉ kids x)
    (hpath : Linked h.parent (some x) path) (hout : h.Outside res x)
    (hfuel : Fintype.card ι < fuel + path.length) :
    ∃ o, regionLoop h res flags fuel x = some o ∧
      ∀ h', o = .granted h' → ∃ kids', h'.Forest kids' := by
  induction fuel generalizing x path with
  | zero =>
    have hcard := hpath.length_le_card
    omega
  | succ fuel ih =>
    by_cases hin : (h.range res).Inside (h.range x)
    · obtain ⟨ret, hret, hreq⟩ := requestResourceConflict_of_inside (hf.family x) hin
      simp only [regionLoop, hret]
      cases hreq with
      | linked l₁ l₂ split before behind =>
        refine ⟨_, rfl, fun h' hh => ?_⟩
        obtain rfl := Outcome.granted.inj hh
        exact ⟨_, hf.link split hfree hout hin before behind⟩
      | conflict l₁ l₂ t split before start_le le_stop =>
        have hmem : t ∈ kids x := by rw [split]; simp
        have hparent := (hf.family x).parent t hmem
        dsimp only
        split_ifs
        · have hpath' : Linked h.parent (some t) (t :: path) := ⟨rfl, hparent ▸ hpath⟩
          have hne : res ≠ t := by
            rintro rfl
            exact hfree x hmem
          exact ih hpath' (hout.step hparent hne) (by simp only [List.length_cons]; omega)
        · exact ⟨_, rfl, fun h' hh => by simp at hh⟩
        · exact ⟨_, rfl, fun h' hh => by simp at hh⟩
    · rw [regionLoop, requestResourceConflict_of_not_inside hin]
      dsimp only
      split_ifs with hcond
      · exact absurd rfl hcond.1
      · exact ⟨_, rfl, fun h' hh => by simp at hh⟩
      · exact ⟨_, rfl, fun h' hh => by simp at hh⟩

lemma releaseRegionLoop_spec (hf : h.Forest kids) (hkids : kids x = l₁ ++ l₂)
    (hpath : Linked h.parent (some x) path)
    (hfuel : (Fintype.card ι - path.length) * (Fintype.card ι + 1) + l₂.length < fuel) :
    ∃ o, releaseRegionLoop h r fuel ((Place.child x).after l₁) = some o ∧
      ∀ h' a, o = some (h', a) → ∃ kids', h'.Forest kids' := by
  induction fuel generalizing x path l₁ l₂ with
  | zero => omega
  | succ fuel ih =>
    have hlinked := (hf.family x).linked
    rw [hkids] at hlinked
    obtain ⟨mid, hl₁, hl₂⟩ := linked_append.mp hlinked
    rw [releaseRegionLoop, Heap.load_after hl₁, hl₂.head]
    cases l₂ with
    | nil => exact ⟨none, rfl, by simp⟩
    | cons a l₂ =>
      rw [List.length_cons] at hfuel
      dsimp only [List.head?_cons]
      split_ifs
      · -- down to the children of `a`
        have hmem : a ∈ kids x := by rw [hkids]; simp
        have hpath' : Linked h.parent (some a) (a :: path) :=
          ⟨rfl, (hf.family x).parent a hmem ▸ hpath⟩
        have hdepth := hpath'.length_le_card
        have hwidth := (hf.family a).linked.length_le_card
        rw [List.length_cons] at hdepth
        have hless : Fintype.card ι - path.length = Fintype.card ι - (path.length + 1) + 1 := by
          omega
        rw [hless, Nat.succ_mul] at hfuel
        have hall : kids a = [] ++ kids a := rfl
        exact ih hall hpath' (by rw [List.length_cons]; omega)
      · exact ⟨none, rfl, by simp⟩
      · refine ⟨_, rfl, fun h' b hb => ?_⟩
        obtain ⟨rfl, rfl⟩ := Prod.mk.inj (Option.some.inj hb)
        exact ⟨_, hf.unlink hkids⟩
      · have hnext : kids x = (l₁ ++ [a]) ++ l₂ := by rw [hkids, List.append_cons]
        have hplace := ih hnext hpath (by omega)
        rwa [Place.after_concat] at hplace

section

variable (hf : s.heap.Forest kids)

include hf

lemma enterRegion_spec (hfree : ∀ x, res ∉ kids x) (hout : s.heap.Outside res root) :
    ∃ ret, enterRegion s res root flags = some ret ∧ ∃ kids', ret.1.heap.Forest kids' := by
  obtain ⟨path, hpath⟩ := hf.rooted root
  have hfuel : Fintype.card ι < Fintype.card ι + 1 + path.length := by omega
  obtain ⟨o, ho, hgranted⟩ := regionLoop_spec hf hfree hpath hout hfuel
  rw [enterRegion, ho]
  cases o with
  | granted h' => exact ⟨_, rfl, hgranted h' rfl⟩
  | waits parent => exact ⟨_, rfl, kids, hf⟩
  | refused => exact ⟨_, rfl, kids, hf⟩

lemma requestRegion_spec {start n : Word} {res : Option ι}
    (hloose : ∀ a, res = some a → Loose s.heap a root) :
    ∃ ret, requestRegion s root start n flags res = some ret ∧
      ∃ kids', ret.1.heap.Forest kids' := by
  cases res with
  | none => exact ⟨_, rfl, kids, hf⟩
  | some res =>
    have hfree := hf.free_of_loose (hloose res rfl)
    have hout := outside_of_ancestors (hloose res rfl).2
    have hnone : Linked s.heap.parent none [] := rfl
    have hforest : (regionResource s.heap res start n flags).Forest (update kids res []) := by
      refine hf.rewrite hfree ⟨?_, by simp, by simp, by simp⟩ ?_ fun x hx => ?_
      · exact update_self ..
      · exact hf.rooted.update hnone (by simp)
      · simp [regionResource, Heap.range, hx]
    refine enterRegion_spec (s := ⟨_, _, _⟩) hforest (fun x hx => ?_) fun l hl => ?_
    · rw [update_apply] at hx
      split at hx
      · simp at hx
      · exact hfree x hx
    · -- the way up from the parent does not meet the new resource
      obtain ⟨path, hpath⟩ := hf.rooted root
      have hsame : Linked (update s.heap.parent res none) (some root) path :=
        hpath.congr fun c hc => update_of_ne (by rintro rfl; exact hout path hpath hc) _ _
      rw [hl.unique hsame]
      exact hout path hpath

lemma resume_spec {k : Nat} (hloose : ∀ w ∈ s.waiting[k]?, Loose s.heap w.res w.parent) :
    ∃ ret, resume s k = some ret ∧ ∃ kids', ret.1.heap.Forest kids' := by
  rw [resume]
  cases hk : s.waiting[k]? with
  | none => exact ⟨_, rfl, kids, hf⟩
  | some w =>
    have hw := hloose w hk
    dsimp only
    split_ifs
    · exact enterRegion_spec (s := ⟨_, _, _⟩) hf (hf.free_of_loose hw) (outside_of_ancestors hw.2)
    · exact ⟨_, rfl, kids, hf⟩

lemma releaseRegion_spec (start n : Word) :
    ∃ ret, releaseRegion s root start n = some ret ∧ ∃ kids', ret.1.heap.Forest kids' := by
  obtain ⟨path, hpath⟩ := hf.rooted root
  have hwidth := (hf.family root).linked.length_le_card
  have hall : kids root = [] ++ kids root := rfl
  have hfuel : (Fintype.card ι - path.length) * (Fintype.card ι + 1) + (kids root).length <
      (Fintype.card ι + 1) * (Fintype.card ι + 1) := by
    have hle : (Fintype.card ι - path.length) * (Fintype.card ι + 1) ≤
        Fintype.card ι * (Fintype.card ι + 1) := Nat.mul_le_mul_right _ (by omega)
    rw [Nat.succ_mul]
    omega
  obtain ⟨o, ho, hfound⟩ := releaseRegionLoop_spec (r := ⟨start, start + n - 1⟩) hf hall hpath hfuel
  rw [Place.after_nil] at ho
  simp only [releaseRegion, ho]
  cases o with
  | none => exact ⟨_, rfl, kids, hf⟩
  | some p => exact ⟨_, rfl, hfound p.1 p.2 rfl⟩

/-- An admitted call returns, and leaves a forest behind. -/
lemma call_spec {op : Op ι} (hok : Expects s op) :
    ∃ ret, call s op = some ret ∧ ∃ kids', ret.1.heap.Forest kids' := by
  have hheap : ∀ {res : Option (Heap ι × Int)},
      (∃ ret, res = some ret ∧ ∃ kids', ret.1.Forest kids') →
      ∃ ret, s.onHeap res = some ret ∧ ∃ kids', ret.1.heap.Forest kids' := by
    rintro _ ⟨ret, rfl, hkids⟩
    exact ⟨_, rfl, hkids⟩
  have hverdict : ∀ {res : Option (Heap ι × Option ι)},
      (∃ ret, res = some ret ∧ ∃ kids', ret.1.Forest kids') →
      ∃ ret, res.map verdict = some ret ∧ ∃ kids', ret.1.Forest kids' := by
    rintro _ ⟨ret, rfl, hkids⟩
    exact ⟨_, rfl, hkids⟩
  have hchildren : ∀ x, s.heap.children x = kids x := fun x => (hf.family x).children_eq
  have hfree : ∀ {new : ι}, s.heap.parent new = none → ∀ x, new ∉ kids x := fun hparent x =>
    (hf.family x).notMem_of_parent hparent
  cases op with
  | fill res r flags =>
    obtain ⟨hparent, hin⟩ := hok
    have hforest : (s.heap.setRange res r).Forest kids :=
      hf.setRange (hchildren res ▸ hin) fun y l₁ l₂ hy => absurd (hy ▸ by simp) (hfree hparent y)
    refine ⟨_, rfl, kids, fun x => ?_, hforest.rooted⟩
    exact (hforest.family x).congr rfl rfl fun c _ => ⟨rfl, rfl, rfl⟩
  | request root new =>
    exact hheap (hverdict (requestResourceConflict_spec hf (hfree hok.1)
      (outside_of_ancestors hok.2)))
  | insert root new =>
    exact hheap (hverdict (insertResourceConflict_spec hf (hfree hok.1)
      (outside_of_ancestors hok.2)))
  | allocate root new size min max align alignf =>
    simp only [Expects, hchildren] at hok
    refine hheap (allocateResource_forest hf (fun hparent => ?_) fun x hparent => ?_)
    · obtain ⟨hnone, hout⟩ := hok.1 hparent
      exact ⟨hnone, outside_of_ancestors hout⟩
    · exact hok.2 (by simp [hparent])
  | reallocate root old newsize c =>
    exact hheap (reallocateResource_spec hf (hchildren root ▸ hok.1) hok.2)
  | adjust res start size =>
    refine hheap (adjustResource_spec hf fun x hx => ?_)
    obtain ⟨-, hmem, hle⟩ := hok x hx
    exact ⟨hchildren x ▸ hmem, hle⟩
  | release old =>
    obtain ⟨p, hp, -⟩ := hok
    exact hheap (releaseResource_spec hf hp)
  | requestRegion parent start n flags res => exact requestRegion_spec hf hok
  | resume k => exact resume_spec hf fun w hw => (hok w hw).2
  | releaseRegion parent start n => exact releaseRegion_spec hf start n

end

/-! ## Runs -/

def State.Empty (s : State ι) : Prop :=
  (∀ x, s.heap.child x = none ∧ s.heap.parent x = none) ∧ s.waiting = []

omit [DecidableEq ι] [Fintype ι] in
lemma State.Empty.forest (hempty : s.Empty) : s.heap.Forest fun _ => [] where
  family x := ⟨(hempty.1 x).1, by simp, by simp, by simp⟩
  rooted x := ⟨[x], rfl, (hempty.1 x).2⟩

/-- From an empty tree every run of admitted calls returns from each of them, and the tree is well
formed then: the children of every resource are in the order of their addresses, not empty,
disjoint and inside it, and they know their parent. -/
theorem tree_wellFormed (s : State ι) (hempty : s.Empty) (ops : List (Op ι))
    (hok : Along step (fun o op => ∀ s ∈ o, Admitted s op) (some s) ops) :
    ∃ s', runFrom step (some s) ops = some s' ∧ s'.heap.WellFormed := by
  have hrun : ∃ s' kids, runFrom step (some s) ops = some s' ∧ s'.heap.Forest kids := by
    refine hok.invariant (P := fun o => ∃ s' kids, o = some s' ∧ s'.heap.Forest kids) ?_
      ⟨s, _, rfl, hempty.forest⟩
    rintro _ op ⟨s', kids, rfl, hf⟩ hop
    obtain ⟨ret, hret, kids', hf'⟩ := call_spec hf (hop s' rfl).2
    exact ⟨ret.1, kids', by rw [step, Option.bind_some, hret]; rfl, hf'⟩
  obtain ⟨s', kids, hs', hf⟩ := hrun
  exact ⟨s', hs', hf.wellFormed⟩

def vacant : State (Fin 5) where
  heap :=
    { start := fun _ => 0
      stop := ![0xffffffff, 0, 0, 0, 0]
      flags := fun _ => 0
      parent := fun _ => none
      sibling := fun _ => none
      child := fun _ => none }
  waiting := []
  freed := fun _ => false

def busyDay : List (Op (Fin 5)) :=
  [.fill 1 ⟨0x1000, 0x1fff⟩ 0, .request 0 1,
    .allocate 0 2 0x800 0x1800 0xffffffff 0x800 none,
    .fill 3 ⟨0, 0xffff⟩ 0, .insert 0 3,
    .adjust 1 0x1000 0x800,
    .requestRegion 0 0x8000 0x100 ioresourceMuxed (some 4),
    .reallocate 3 2 0x1000 ⟨0, 0xffff, 0x1000, simpleAlignResource⟩,
    .releaseRegion 0 0x8000 0x100,
    .release 3]

theorem busyDay_wellFormed :
    vacant.Empty ∧ ∃ s', runFrom step (some vacant) busyDay = some s' ∧ s'.heap.WellFormed := by
  have hempty : vacant.Empty := ⟨fun _ => ⟨rfl, rfl⟩, rfl⟩
  exact ⟨hempty, tree_wellFormed vacant hempty busyDay (by decide +kernel)⟩

/-- `adjust_resource` to a size that does not fit below the last address: the range of the child
ends before it starts. -/
theorem adjust_wraps :
    vacant.Empty ∧ ∃ s', runFrom step (some vacant)
      [.fill 1 ⟨0x1000, 0x1fff⟩ 0, .request 0 1, .adjust 1 0x2000 0xfffff000] = some s' ∧
      ¬ s'.heap.WellFormed := by
  refine ⟨⟨fun _ => ⟨rfl, rfl⟩, rfl⟩, _, rfl, ?_⟩
  decide +kernel

end Mini2440.Resource
