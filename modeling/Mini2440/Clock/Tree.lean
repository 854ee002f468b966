import Mini2440.Errno
import Mini2440.Library.Linked

/-!
# The clocks of `plat-samsung/clock.c`

A system has a finite set of clocks, each with a parent, a usage count, a rate and a gate. The
functions that follow the parents call themselves for the parent; here they do so for at most
as many clocks as there are, which is enough as long as the parents form a forest.

The operations of a clock that `struct clk_ops` holds are functions on the clocks. A clock
without operations is one whose operations are all missing.
-/

namespace Mini2440.Clock

open Library

/-- What changes in `struct clk`. `running` is what the last call of `enable` asked for. -/
structure Clk (ι : Type*) where
  parent : Option ι
  usage : BitVec 32
  rate : Nat
  running : Bool
  deriving DecidableEq

/-- The usage as the `int` that it is. -/
def Clk.count {ι : Type*} (clk : Clk ι) : Int := clk.usage.toInt

/-- `if ((clk->usage++) == 0) (clk->enable)(clk, 1);` -/
def Clk.acquire {ι : Type*} (clk : Clk ι) : Clk ι :=
  { clk with usage := clk.usage + 1, running := if clk.usage = 0 then true else clk.running }

/-- `if ((--clk->usage) == 0) (clk->enable)(clk, 0);` -/
def Clk.drop {ι : Type*} (clk : Clk ι) : Clk ι :=
  { clk with usage := clk.usage - 1, running := if clk.usage - 1 = 0 then false else clk.running }

abbrev Clocks (ι : Type*) := ι → Clk ι

/-- `struct clk_ops`, for one clock. -/
structure ClkOps (ι : Type*) where
  setRate : Option (Clocks ι → Nat → Clocks ι × Int)
  getRate : Option (Clocks ι → Nat)
  setParent : Option (Clocks ι → ι → Clocks ι × Int)

variable {ι : Type*} [DecidableEq ι]

namespace Clocks

def modify (t : Clocks ι) (c : ι) (f : Clk ι → Clk ι) : Clocks ι := Function.update t c (f (t c))

lemma modify_apply (t : Clocks ι) (c c' : ι) (f : Clk ι → Clk ι) :
    t.modify c f c' = if c' = c then f (t c) else t c' := by
  rw [modify, Function.update_apply]

/-! ## Gating -/

def enableUp : Nat → Clocks ι → Option ι → Clocks ι
  | _, t, none => t
  | 0, t, some _ => t
  | depth + 1, t, some c => (enableUp depth t (t c).parent).modify c Clk.acquire

def disableUp : Nat → Clocks ι → Option ι → Clocks ι
  | _, t, none => t
  | 0, t, some _ => t
  | depth + 1, t, some c =>
    let t := t.modify c Clk.drop
    disableUp depth t (t c).parent

variable [Fintype ι]

def clkEnable (t : Clocks ι) (clk : Option ι) : Clocks ι × Int :=
  match clk with
  | none => (t, -EINVAL)
  | some c => (enableUp (Fintype.card ι) t (some c), 0)

def clkDisable (t : Clocks ι) (clk : Option ι) : Clocks ι := disableUp (Fintype.card ι) t clk

def clkSetParent (ops : ι → ClkOps ι) (t : Clocks ι) (clk parent : Option ι) : Clocks ι × Int :=
  match clk, parent with
  | some c, some p =>
    match (ops c).setParent with
    | none => (t, 0)
    | some setParent => setParent t p
  | _, _ => (t, -EINVAL)

/-! ## Rates -/

def rateUp (ops : ι → ClkOps ι) (t : Clocks ι) : Nat → Option ι → Nat
  | _, none => 0
  | 0, some _ => 0
  | depth + 1, some c =>
    if (t c).rate ≠ 0 then (t c).rate
    else
      match (ops c).getRate with
      | some getRate => getRate t
      | none =>
        match (t c).parent with
        | some p => rateUp ops t depth (some p)
        | none => (t c).rate

def clkGetRate (ops : ι → ClkOps ι) (t : Clocks ι) (clk : Option ι) : Nat :=
  rateUp ops t (Fintype.card ι) clk

def clkSetRate (ops : ι → ClkOps ι) (t : Clocks ι) (clk : Option ι) (rate : Nat) :
    Clocks ι × Int :=
  match clk with
  | none => (t, -EINVAL)
  | some c =>
    match (ops c).setRate with
    | none => (t, -EINVAL)
    | some setRate => setRate t rate

def clkDefaultSetrate (c : ι) (t : Clocks ι) (rate : Nat) : Clocks ι × Int :=
  (t.modify c fun clk => { clk with rate := rate }, 0)

end Clocks

end Mini2440.Clock
