import Mathlib.Algebra.BigOperators.Ring.Finset
import Mathlib.Algebra.Order.BigOperators.Group.Finset
import Mathlib.Data.Fin.VecNotation
import Mathlib.Tactic.Ring
import Mini2440.Clock.Tree
import Mini2440.Library.Run

/-!
# Usage counts of the clocks

`clk_enable` and `clk_disable` count on the clock and on all clocks above it, whether the clock
is running already or not. So the count of a clock is the number of enables that its clients
have not taken back, together with the counts of all its children.

`clk_set_parent` moves a clock with its count left where it was. If the clock is in use, then the
count of its old parent stays too high and that of its new one too low. So the counts stay right
only if the clock that is moved is not in use.
-/

namespace Mini2440.Clock

open List Library

variable {ι κ : Type*} {f : Clk ι → Clk ι} {δ : Int}

lemma Clk.count_acquire {clk : Clk ι} (h : clk.count < 2 ^ 31 - 1) :
    clk.acquire.count = clk.count + 1 := by
  have hle := clk.usage.le_toInt
  change clk.usage.toInt < 2 ^ 31 - 1 at h
  exact (BitVec.toInt_add _ _).trans (Int.bmod_eq_of_le (by simp; omega) (by simp; omega))

lemma Clk.count_drop {clk : Clk ι} (h : 0 < clk.count) : clk.drop.count = clk.count - 1 := by
  have hlt := clk.usage.toInt_lt
  change 0 < clk.usage.toInt at h
  exact BitVec.toInt_sub.trans (Int.bmod_eq_of_le (by simp; omega) (by simp; omega))

variable [DecidableEq ι]

namespace Clocks

variable {t : Clocks ι} {start : Option ι} {l : List ι} {n : Nat}

def parents (t : Clocks ι) (c : ι) : Option ι := (t c).parent

def modifyAll (t : Clocks ι) (l : List ι) (f : Clk ι → Clk ι) : Clocks ι :=
  fun c => if c ∈ l then f (t c) else t c

@[simp] lemma modifyAll_nil : t.modifyAll [] f = t := by
  funext c
  simp [modifyAll]

lemma modify_modifyAll {a : ι} (ha : a ∉ l) :
    (t.modify a f).modifyAll l f = (t.modifyAll l f).modify a f ∧
      (t.modifyAll l f).modify a f = t.modifyAll (a :: l) f := by
  constructor <;> funext c <;> obtain rfl | hc := eq_or_ne c a
  all_goals simp [modifyAll, modify_apply, *]

lemma parents_modifyAll (hparent : ∀ clk, (f clk).parent = clk.parent) :
    (t.modifyAll l f).parents = t.parents := by
  funext c
  simp only [parents, modifyAll]
  split_ifs
  · exact hparent _
  · rfl

lemma count_modifyAll (hcount : ∀ c ∈ l, (f (t c)).count = (t c).count + δ) (c : ι) :
    (t.modifyAll l f c).count = (t c).count + if c ∈ l then δ else 0 := by
  simp only [modifyAll]
  split_ifs with hc
  · exact hcount c hc
  · exact (add_zero _).symm

lemma enableUp_eq (h : Linked t.parents start l) (hn : l.length ≤ n) :
    enableUp n t start = t.modifyAll l Clk.acquire := by
  have hnodup := h.nodup
  induction l generalizing start n with
  | nil =>
    obtain rfl : start = none := h
    cases n <;> simp [enableUp]
  | cons a l ih =>
    obtain ⟨rfl, hl⟩ := h
    cases n with
    | zero => simp at hn
    | succ n =>
      obtain ⟨ha, hnodup⟩ := nodup_cons.mp hnodup
      have hrest : enableUp n t (t a).parent = t.modifyAll l Clk.acquire :=
        ih hl (by simpa using hn) hnodup
      rw [enableUp, hrest, (modify_modifyAll ha).2]

lemma disableUp_eq (h : Linked t.parents start l) (hn : l.length ≤ n) :
    disableUp n t start = t.modifyAll l Clk.drop := by
  have hnodup := h.nodup
  induction l generalizing t start n with
  | nil =>
    obtain rfl : start = none := h
    cases n <;> simp [disableUp]
  | cons a l ih =>
    obtain ⟨rfl, hl⟩ := h
    cases n with
    | zero => simp at hn
    | succ n =>
      obtain ⟨ha, hnodup⟩ := nodup_cons.mp hnodup
      have hparents : (t.modify a Clk.drop).parents = t.parents := by
        funext c
        by_cases hc : c = a
        · subst hc
          simp [parents, modify_apply, Clk.drop]
        · simp [parents, modify_apply, hc]
      have hstart : (t.modify a Clk.drop a).parent = t.parents a := congrFun hparents a
      have hrest : disableUp n (t.modify a Clk.drop) (t.parents a) =
          (t.modify a Clk.drop).modifyAll l Clk.drop :=
        ih (hparents.symm ▸ hl) (by simpa using hn) hnodup
      rw [disableUp, hstart, hrest, (modify_modifyAll ha).1, (modify_modifyAll ha).2]

end Clocks

/-! ## Clients -/

structure System (κ ι : Type*) where
  clocks : Clocks ι
  held : List (κ × ι)

inductive Call (κ ι : Type*) where
  | enable (client : κ) (clk : Option ι)
  | disable (client : κ) (clk : Option ι)
  | setParent (clk parent : Option ι)

namespace System

variable [Fintype ι] {ops : ι → ClkOps ι} {s : System κ ι} {c p : ι} {t : Clocks ι} {l : List ι}
  {start : Option ι} {client : κ}

def step [DecidableEq κ] (ops : ι → ClkOps ι) (s : System κ ι) : Call κ ι → System κ ι
  | .enable client clk =>
    { clocks := (s.clocks.clkEnable clk).1
      held := match clk with
        | some c => (client, c) :: s.held
        | none => s.held }
  | .disable client clk =>
    { clocks := s.clocks.clkDisable clk
      held := match clk with
        | some c => s.held.erase (client, c)
        | none => s.held }
  | .setParent clk parent => { s with clocks := (s.clocks.clkSetParent ops clk parent).1 }

def outstanding (s : System κ ι) (c : ι) : Nat := s.held.countP fun e => e.2 = c

def childUsage (t : Clocks ι) (c : ι) : Int :=
  ∑ c' with t.parents c' = some c, (t c').count

/-- A client disables only what it has enabled, and enables nothing while a count is the largest
`int`. A clock that gets another parent is not in use and does not become its own ancestor. -/
def Fair (ops : ι → ClkOps ι) (s : System κ ι) : Call κ ι → Prop
  | .enable _ _ => ∀ c, (s.clocks c).count < 2 ^ 31 - 1
  | .disable client clk => ∀ c ∈ clk, (client, c) ∈ s.held
  | .setParent clk parent => ∀ c ∈ clk, ∀ p ∈ parent, ∀ setParent ∈ (ops c).setParent,
      (setParent s.clocks p).1 ≠ s.clocks →
        (s.clocks c).count = 0 ∧ ∀ l, Linked s.clocks.parents (some p) l → c ∉ l

/-- What holds between two calls. -/
structure Counted (s : System κ ι) : Prop where
  rooted : Rooted s.clocks.parents
  usage : ∀ c, (s.clocks c).count = s.outstanding c + childUsage s.clocks c
  nonneg : ∀ c, 0 ≤ (s.clocks c).count
  running : ∀ c, (s.clocks c).running = true ↔ 0 < (s.clocks c).count

/-- The calls of a chain of clocks add to the children of each clock what they add to the clock
itself, except for the first one. -/
lemma childUsage_modifyAll
    (hl : Linked t.parents start l) (hparent : ∀ clk, (f clk).parent = clk.parent)
    (hcount : ∀ c ∈ l, (f (t c)).count = (t c).count + δ) (c : ι) :
    childUsage (t.modifyAll l f) c + (if start = some c then δ else 0) =
      childUsage t c + if c ∈ l then δ else 0 := by
  have hsum : (∑ c' with t.parents c' = some c, if c' ∈ l then δ else 0) =
      l.countP (fun c' => t.parents c' = some c) * δ := by
    rw [← Finset.sum_filter, Finset.sum_const, countP_eq_length_filter,
      ← toFinset_card_of_nodup (hl.nodup.filter _)]
    congr 3
    ext c'
    simp [and_comm]
  have hnext := hl.countP_next c
  rw [hl.nodup.count] at hnext
  have hcast : ∀ (p : Prop) [Decidable p],
      (if p then δ else 0) = ((if p then 1 else 0 : Nat) : Int) * δ := by
    intro p _
    split_ifs <;> simp
  simp only [childUsage, Clocks.parents_modifyAll hparent, Clocks.count_modifyAll hcount,
    Finset.sum_add_distrib, hsum]
  rw [hcast (c ∈ l), hcast (start = some c), ← hnext]
  push_cast
  ring

lemma childUsage_nonneg (h : ∀ c, 0 ≤ (t c).count) (c : ι) : 0 ≤ childUsage t c :=
  Finset.sum_nonneg fun c' _ => h c'

lemma usage_le_childUsage (h : ∀ c, 0 ≤ (t c).count)
    (hp : t.parents c = some p) : (t c).count ≤ childUsage t p :=
  Finset.single_le_sum (f := fun c => (t c).count) (fun c' _ => h c') (by simpa using hp)

/-- A clock that is in use keeps the clocks above it in use. -/
lemma Counted.pos_of_linked (h : Counted s) (hl : Linked s.clocks.parents start l)
    (hstart : ∀ c ∈ start, 0 < (s.clocks c).count) : ∀ c ∈ l, 0 < (s.clocks c).count := by
  induction l generalizing start with
  | nil => simp
  | cons a l ih =>
    obtain ⟨rfl, hl⟩ := hl
    have ha : 0 < (s.clocks a).count := hstart a rfl
    refine forall_mem_cons.mpr ⟨ha, ih hl fun p hp => ?_⟩
    have hle := usage_le_childUsage h.nonneg hp
    have hcount := h.usage p
    omega

lemma Counted.pos_of_held (h : Counted s) (hheld : (client, c) ∈ s.held) :
    0 < (s.clocks c).count := by
  have hpos : 0 < s.outstanding c := countP_pos_iff.mpr ⟨_, hheld, by simp⟩
  have hchild := childUsage_nonneg h.nonneg c
  have hcount := h.usage c
  omega

lemma Counted.modifyAll (h : Counted s) {held : List (κ × ι)}
    (hl : Linked s.clocks.parents (some c) l)
    (hparent : ∀ clk, (f clk).parent = clk.parent)
    (hcount : ∀ c ∈ l, (f (s.clocks c)).count = (s.clocks c).count + δ)
    (hheld : ∀ c', (outstanding ⟨s.clocks, held⟩ c' : Int) =
      s.outstanding c' + if c = c' then δ else 0)
    (hgood : ∀ c' ∈ l, 0 ≤ (f (s.clocks c')).count ∧
      ((f (s.clocks c')).running ↔ 0 < (f (s.clocks c')).count)) :
    Counted ⟨s.clocks.modifyAll l f, held⟩ := by
  refine ⟨?_, fun c' => ?_, fun c' => ?_, fun c' => ?_⟩
  · have hparents : (s.clocks.modifyAll l f).parents = s.clocks.parents :=
      Clocks.parents_modifyAll hparent
    rw [hparents]
    exact h.rooted
  · have hchild := childUsage_modifyAll hl hparent hcount c'
    have husage := h.usage c'
    have hout := hheld c'
    simp only [Option.some.injEq] at hchild
    change (s.clocks.modifyAll l f c').count =
      outstanding ⟨s.clocks, held⟩ c' + childUsage (s.clocks.modifyAll l f) c'
    rw [Clocks.count_modifyAll hcount]
    omega
  · by_cases hc : c' ∈ l
    · simpa [Clocks.modifyAll, hc] using (hgood c' hc).1
    · simpa [Clocks.modifyAll, hc] using h.nonneg c'
  · by_cases hc : c' ∈ l
    · simpa [Clocks.modifyAll, hc] using (hgood c' hc).2
    · simpa [Clocks.modifyAll, hc] using h.running c'

/-- The contract of `set_parent` in `struct clk_ops`: it fails, or it stores the new parent. -/
def Reparents (ops : ι → ClkOps ι) : Prop :=
  ∀ c setParent, (ops c).setParent = some setParent → ∀ t p,
    (setParent t p).1 = t ∨
      (setParent t p).1 = t.modify c fun clk => { clk with parent := some p }

/-- What `clk_set_parent` does to the counts: the clock counts for its new parent from then on. -/
lemma childUsage_moved (t : Clocks ι) (c p c' : ι) :
    childUsage (t.modify c fun clk => { clk with parent := some p }) c' +
        (if t.parents c = some c' then (t c).count else 0) =
      childUsage t c' + if p = c' then (t c).count else 0 := by
  simp only [childUsage, Finset.sum_filter]
  rw [← Finset.add_sum_erase _ _ (Finset.mem_univ c),
    ← Finset.add_sum_erase _ (fun d => if t.parents d = some c' then (t d).count else 0)
      (Finset.mem_univ c)]
  have hrest : ∀ d ∈ Finset.univ.erase c,
      (if (t.modify c fun clk => { clk with parent := some p }).parents d = some c' then
        (t.modify c (fun clk => { clk with parent := some p }) d).count else 0) =
      if t.parents d = some c' then (t d).count else 0 := by
    intro d hd
    simp only [Clocks.parents, Clocks.modify_apply, if_neg (Finset.ne_of_mem_erase hd)]
    congr
  rw [Finset.sum_congr rfl hrest]
  simp only [Clocks.parents, Clocks.modify_apply, if_true, Option.some.injEq, Clk.count]
  ring

/-- A clock that is in use when it gets another parent leaves its count with the old parent, and
the new parent is short of it. -/
lemma Counted.usage_moved (h : Counted s) (c p c' : ι) :
    let t := s.clocks.modify c fun clk => { clk with parent := some p }
    (t c').count = s.outstanding c' + childUsage t c' +
      (if s.clocks.parents c = some c' then (s.clocks c).count else 0) -
      if p = c' then (s.clocks c).count else 0 := by
  intro t
  have hcount : (t c').count = (s.clocks c').count := by
    simp only [t, Clocks.modify_apply]
    split_ifs with hc
    · subst hc; rfl
    · rfl
  have hmoved : childUsage t c' + _ = _ := childUsage_moved s.clocks c p c'
  have husage := h.usage c'
  omega

lemma Counted.moved (h : Counted s) (hidle : (s.clocks c).count = 0)
    (hnot : ∀ l, Linked s.clocks.parents (some p) l → c ∉ l) :
    Counted { s with clocks := s.clocks.modify c fun clk => { clk with parent := some p } } := by
  let t := s.clocks.modify c fun clk => { clk with parent := some p }
  have hparents : t.parents = Function.update s.clocks.parents c (some p) := by
    funext c'
    simp only [t, Clocks.parents, Clocks.modify_apply, Function.update_apply]
    split_ifs <;> rfl
  have hrest : ∀ c', (t c').count = (s.clocks c').count ∧
      (t c').running = (s.clocks c').running := by
    simp only [t, Clocks.modify_apply]
    grind [Clk.count]
  obtain ⟨l, hl⟩ := h.rooted p
  refine ⟨?_, fun c' => ?_, fun c' => (hrest c').1 ▸ h.nonneg c', fun c' => ?_⟩
  · rw [hparents]
    exact h.rooted.update hl (hnot l hl)
  · -- the clock counts for nothing, under either parent
    have husage := h.usage_moved c p c'
    simp only [hidle, ite_self, add_zero, sub_zero] at husage
    exact husage
  · rw [(hrest c').1, (hrest c').2]
    exact h.running c'

def Idle (t : Clocks ι) : Prop := ∀ c, (t c).count = 0 ∧ (t c).running = false

lemma counted_start (hidle : Idle t) (hrooted : Rooted t.parents) :
    Counted (⟨t, []⟩ : System κ ι) := by
  refine ⟨hrooted, fun c => ?_, fun c => (hidle c).1.ge, fun c => ?_⟩
  · simp [outstanding, childUsage, (hidle _).1]
  · simp [(hidle c).1, (hidle c).2]

section Steps

variable [DecidableEq κ]

lemma Counted.enable (h : Counted s) {clk : Option ι}
    (hfair : Fair ops s (.enable client clk)) : Counted (step ops s (.enable client clk)) := by
  cases clk with
  | none => exact h
  | some c =>
    obtain ⟨l, hl⟩ := h.rooted c
    have hclocks : (s.clocks.clkEnable (some c)).1 = s.clocks.modifyAll l Clk.acquire :=
      Clocks.enableUp_eq hl hl.nodup.length_le_card
    rw [step, hclocks]
    have hcount (c' : ι) (_ : c' ∈ l) := Clk.count_acquire (hfair c')
    refine h.modifyAll hl (fun _ => rfl) hcount (fun c' => ?_) (fun c' hc' => ?_)
    · simp only [outstanding, countP_cons, decide_eq_true_eq]
      split_ifs <;> simp
    · have hnonneg := h.nonneg c'
      have hrun := h.running c'
      have hzero : (s.clocks c').usage = 0 ↔ (s.clocks c').count = 0 := BitVec.toInt_inj.symm
      rw [hcount c' hc']
      simp only [Clk.acquire, hzero]
      grind

lemma Counted.disable (h : Counted s) {clk : Option ι}
    (hfair : Fair ops s (.disable client clk)) : Counted (step ops s (.disable client clk)) := by
  cases clk with
  | none =>
    have hclocks : s.clocks.clkDisable none = s.clocks :=
      Clocks.disableUp_eq (l := []) rfl (Nat.zero_le _)
    rw [step, hclocks]
    exact h
  | some c =>
    obtain ⟨l, hl⟩ := h.rooted c
    have hheld : (client, c) ∈ s.held := hfair c rfl
    have hclocks : s.clocks.clkDisable (some c) = s.clocks.modifyAll l Clk.drop :=
      Clocks.disableUp_eq hl hl.nodup.length_le_card
    have hpos := h.pos_of_linked hl (by rintro _ ⟨⟩; exact h.pos_of_held hheld)
    rw [step, hclocks]
    have hcount (c' : ι) (hc' : c' ∈ l) := Clk.count_drop (hpos c' hc')
    refine h.modifyAll hl (fun _ => rfl) hcount (fun c' => ?_) (fun c' hc' => ?_)
    · have hperm := (perm_cons_erase hheld).countP_eq fun e => decide (e.2 = c')
      simp only [countP_cons, decide_eq_true_eq] at hperm
      simp only [outstanding]
      split_ifs at hperm ⊢ <;> omega
    · have hc := hpos c' hc'
      have hrun := h.running c'
      have hzero : (s.clocks c').usage - 1 = 0 ↔ (s.clocks c').drop.count = 0 :=
        BitVec.toInt_inj.symm
      rw [hcount c' hc'] at hzero ⊢
      simp only [Clk.drop, hzero]
      grind

lemma Counted.setParent (hops : Reparents ops) (h : Counted s) {clk parent : Option ι}
    (hfair : Fair ops s (.setParent clk parent)) :
    Counted (step ops s (.setParent clk parent)) := by
  match clk, parent with
  | none, _ => exact h
  | some _, none => exact h
  | some c, some p =>
    cases hset : (ops c).setParent with
    | none => simpa [step, Clocks.clkSetParent, hset] using h
    | some setParent =>
      have hclocks : (s.clocks.clkSetParent ops (some c) (some p)).1 =
          (setParent s.clocks p).1 := by
        simp [Clocks.clkSetParent, hset]
      rw [step, hclocks]
      by_cases hsame : (setParent s.clocks p).1 = s.clocks
      · rw [hsame]
        exact h
      · obtain ⟨hidle, hnot⟩ := hfair c rfl p rfl setParent hset hsame
        rw [(hops c setParent hset s.clocks p).resolve_left hsame]
        exact h.moved hidle hnot

lemma Counted.step (hops : Reparents ops) (h : Counted s) {call : Call κ ι}
    (hfair : Fair ops s call) : Counted (step ops s call) := by
  cases call with
  | enable client clk => exact h.enable hfair
  | disable client clk => exact h.disable hfair
  | setParent clk parent => exact h.setParent hops hfair

/-- In every fair run the count of a clock is the number of its outstanding enables and of the
counts of its children. A clock runs exactly if its count is positive, and then so does its
parent. -/
theorem usage_counts (ops : ι → ClkOps ι) (hops : Reparents ops) (t : Clocks ι) (hidle : Idle t)
    (hrooted : Rooted t.parents) (calls : List (Call κ ι))
    (hfair : Along (System.step ops) (Fair ops) ⟨t, []⟩ calls) :
    let s := runFrom (System.step ops) ⟨t, []⟩ calls
    (∀ c, (s.clocks c).count = s.outstanding c + childUsage s.clocks c) ∧
      (∀ c, 0 ≤ (s.clocks c).count) ∧
      (∀ c, (s.clocks c).running = true ↔ 0 < (s.clocks c).count) ∧
      ∀ c p, (s.clocks c).parent = some p → (s.clocks c).running = true →
        (s.clocks p).running = true := by
  intro s
  have h : Counted s := hfair.invariant (fun _ _ h hfair => h.step hops hfair)
    (counted_start hidle hrooted)
  refine ⟨h.usage, h.nonneg, h.running, fun c p hp hrun => ?_⟩
  have hle := usage_le_childUsage h.nonneg hp
  have hpos := (h.running c).mp hrun
  have hcount := h.usage p
  exact (h.running p).mpr (by omega)

end Steps

def anyParent (c : ι) : ClkOps ι where
  setRate := none
  getRate := none
  setParent := some fun t p => (t.modify c fun clk => { clk with parent := some p }, 0)

/-- Two clocks without a parent, and the clock `2` below the clock `0`. -/
def threeClocks : Clocks (Fin 3) :=
  ![⟨none, 0, 0, false⟩, ⟨none, 0, 0, false⟩, ⟨some ⟨0, by decide⟩, 0, 0, false⟩]

lemma rooted_threeClocks : Rooted threeClocks.parents
  | 0 => ⟨[0], rfl, rfl⟩
  | 1 => ⟨[1], rfl, rfl⟩
  | 2 => ⟨[2, 0], rfl, rfl, rfl⟩

/-- The clock gets another parent before it is enabled, and the same one again while it is in
use. -/
theorem threeClocks_moves :
    let s := runFrom (System.step anyParent) ⟨threeClocks, []⟩
      [.setParent (some 2) (some 1), .enable () (some 2), .setParent (some 2) (some 1)]
    (fun c => (s.clocks c).count) = ![0, 1, 1] ∧
      ∀ c, (s.clocks c).count = s.outstanding c + childUsage s.clocks c := by
  refine ⟨by decide, (usage_counts anyParent (fun _ _ h _ _ => by cases h; exact .inr rfl)
    threeClocks (by unfold Idle; decide) rooted_threeClocks _ ?_).1⟩
  refine ⟨?_, ?_, ?_, trivial⟩
  · rintro _ ⟨⟩ _ ⟨⟩ _ ⟨⟩ -
    refine ⟨rfl, fun l hl => ?_⟩
    obtain rfl : l = [1] := hl.unique ⟨rfl, rfl⟩
    decide
  · unfold Fair; decide
  · rintro _ ⟨⟩ _ ⟨⟩ _ ⟨⟩ hmoved
    exact absurd (funext (by decide)) hmoved

def childrenInUse (t : Clocks ι) (c : ι) : Nat :=
  (Finset.univ.filter fun c' => t.parents c' = some c ∧ 0 < (t c').count).card

/-- Two enables of a clock count twice on its parent, whose only child it is. A clock that gets
another parent while it is in use takes its count off the new parent when it is disabled. -/
theorem threeClocks_miscounted :
    (let s := runFrom (System.step anyParent) ⟨threeClocks, []⟩
      [.enable () (some 2), .enable () (some 2)]
    (s.clocks 0).count ≠ s.outstanding 0 + childrenInUse s.clocks 0) ∧
    let s := runFrom (System.step anyParent) ⟨threeClocks, []⟩
      [.enable () (some 2), .setParent (some 2) (some 1), .disable () (some 2)]
    (fun c => (s.clocks c).count) = ![1, -1, 0] := by
  decide

end System

end Mini2440.Clock
