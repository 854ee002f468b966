import Mathlib.Logic.Function.Basic
import Mini2440.Library.Words

/-!
# The timer wheel

`kernel/timer.c` keeps the timers of a processor in five arrays of lists. The first array has a
list for each of the next 256 ticks; a list of the other four stands for a whole block of ticks
and is spread over the arrays below, *cascaded*, when the first tick of the block is processed.
This is the file for a machine with 32-bit words, one processor and `CONFIG_BASE_SMALL` off.

`__run_timers` releases its lock only while it calls the function of a timer. What happens in
between is a sequence of events: a tick is begun, the next timer of the tick is called, or
somebody, a timer function for instance, arms or deletes a timer. The counters `now` and `tick`
and the log of the calls are not in the code; they say which tick is meant when `timer_jiffies`
has wrapped around.
-/

namespace Mini2440.Timer

open Function Library

/-- The lists of timers: those of `tv1`, those of `tv2` to `tv5` as the levels 0 to 3, and the
work list of `__run_timers`. -/
inductive Slot where
  | tv1 (i : Nat)
  | tvn (n i : Nat)
  | work
  deriving DecidableEq, Repr

/-- `struct tvec_base`, the fields of the timers that it holds, and `jiffies`. -/
structure State (τ : Type) where
  lists : Slot → List τ
  /-- `entry.next` is not null. -/
  pending : τ → Bool
  expires : τ → Word
  slack : τ → Word
  deferrable : τ → Bool
  runningTimer : Option τ
  timerJiffies : Word
  nextTimer : Word
  activeTimers : Word
  jiffies : Word
  /-- The number of the tick that `timerJiffies` stands for. -/
  now : Nat
  /-- The number of the tick that is being processed. -/
  tick : Nat
  /-- The calls of timer functions, with the number of the tick. -/
  log : List (τ × Nat)

def timeBefore (a b : Word) : Bool := (a - b).slt 0

def timeAfterEq (a b : Word) : Bool := !(a - b).slt 0

def maxTval : Word := 0xffffffff

/-- The list that `__internal_add_timer` chooses while `timer_jiffies` is `t`. -/
def slotOf (t expires : Word) : Slot :=
  let idx := expires - t
  if idx < 256 then .tv1 (expires &&& 255).toNat
  else if idx < (1 : Word) <<< 14 then .tvn 0 (expires >>> 8 &&& 63).toNat
  else if idx < (1 : Word) <<< 20 then .tvn 1 (expires >>> 14 &&& 63).toNat
  else if idx < (1 : Word) <<< 26 then .tvn 2 (expires >>> 20 &&& 63).toNat
  else if idx.slt 0 then .tv1 (t &&& 255).toNat
  else
    let expires := if idx > maxTval then maxTval + t else expires
    .tvn 3 (expires >>> 26 &&& 63).toNat

variable {τ : Type} [DecidableEq τ]

namespace State

/-! ## Arming and deleting -/

/-- `__internal_add_timer`. -/
def addToList (s : State τ) (x : τ) : State τ :=
  let b := slotOf s.timerJiffies (s.expires x)
  { s with
    lists := update s.lists b (s.lists b ++ [x])
    pending := update s.pending x true }

def internalAddTimer (s : State τ) (x : τ) : State τ :=
  let s := s.addToList x
  { s with
    nextTimer :=
      if !s.deferrable x ∧ timeBefore (s.expires x) s.nextTimer then s.expires x else s.nextTimer
    activeTimers := if s.deferrable x then s.activeTimers else s.activeTimers + 1 }

/-- `detach_timer`: the timer leaves the list that it is in. -/
def detachTimer (s : State τ) (x : τ) (clearPending : Bool) : State τ :=
  { s with
    lists := fun b => (s.lists b).filter (· ≠ x)
    pending := if clearPending then update s.pending x false else s.pending }

def detachIfPending (s : State τ) (x : τ) (clearPending : Bool) : State τ × Int :=
  if s.pending x then
    let s := s.detachTimer x clearPending
    ({ s with
      activeTimers := if s.deferrable x then s.activeTimers else s.activeTimers - 1
      nextTimer :=
        if !s.deferrable x ∧ s.expires x = s.nextTimer then s.timerJiffies else s.nextTimer }, 1)
  else (s, 0)

/-- `__mod_timer`. -/
def modTimerCore (s : State τ) (x : τ) (expires : Word) (pendingOnly : Bool) : State τ × Int :=
  let r := s.detachIfPending x false
  if r.2 = 0 ∧ pendingOnly then r
  else ({ r.1 with expires := update r.1.expires x expires }.internalAddTimer x, r.2)

def modTimerPending (s : State τ) (x : τ) (expires : Word) : State τ × Int :=
  s.modTimerCore x expires true

/-- `find_last_bit` of a mask that is not zero. -/
def lastBit (mask : Word) : Nat := Nat.log2 mask.toNat

/-- The end of `apply_slack`: the limit with all bits below the first difference cleared. -/
def roundLimit (expires limit : Word) : Word :=
  let mask := expires ^^^ limit
  if mask = 0 then expires else limit &&& ~~~(((1 : Word) <<< lastBit mask) - 1)

def applySlack (s : State τ) (x : τ) (expires : Word) : Word :=
  if (s.slack x).slt 0 then
    let delta := expires - s.jiffies
    if delta.slt 256 then expires else roundLimit expires (expires + delta.sdiv 256)
  else roundLimit expires (expires + s.slack x)

def modTimer (s : State τ) (x : τ) (expires : Word) : State τ × Int :=
  let expires := s.applySlack x expires
  if s.pending x ∧ s.expires x = expires then (s, 1) else s.modTimerCore x expires false

def modTimerPinned (s : State τ) (x : τ) (expires : Word) : State τ × Int :=
  if s.expires x = expires ∧ s.pending x then (s, 1) else s.modTimerCore x expires false

/-- `add_timer` of a timer that the caller has filled in. A timer that is pending is a bug of the
caller, which `BUG_ON` stops. -/
def addTimer (s : State τ) (x : τ) (expires : Word) : State τ :=
  if s.pending x then s
  else ({ s with expires := update s.expires x expires }.modTimer x expires).1

/-- `add_timer_on`, which does not apply the slack. -/
def addTimerOn (s : State τ) (x : τ) (expires : Word) : State τ :=
  if s.pending x then s
  else { s with expires := update s.expires x expires }.internalAddTimer x

def delTimer (s : State τ) (x : τ) : State τ × Int :=
  if s.pending x then s.detachIfPending x true else (s, 0)

def tryToDelTimerSync (s : State τ) (x : τ) : State τ × Int :=
  if s.runningTimer = some x then (s, -1) else s.detachIfPending x true

/-! ## Ticks -/

def index (s : State τ) (n : Nat) : Nat := (s.timerJiffies >>> (8 + 6 * n) &&& 63).toNat

def cascade (s : State τ) (n i : Nat) : State τ :=
  (s.lists (.tvn n i)).foldl addToList
    { s with lists := update s.lists (.tvn n i) [] }

/-- The chain of `cascade` calls: a level is followed by the next one if its index is zero. -/
def cascadeFrom (s : State τ) : List Nat → State τ
  | [] => s
  | n :: levels =>
    if s.index n = 0 then (s.cascade n (s.index n)).cascadeFrom levels
    else s.cascade n (s.index n)

/-- The beginning of a round of `__run_timers`. -/
def beginTick (s : State τ) : State τ :=
  let i := (s.timerJiffies &&& 255).toNat
  let s := if i = 0 then s.cascadeFrom [0, 1, 2, 3] else s
  { s with
    timerJiffies := s.timerJiffies + 1
    lists := update (update s.lists .work (s.lists (.tv1 i))) (.tv1 i) []
    now := s.now + 1
    tick := s.now }

/-- `__run_timers` with an empty work list: the next tick, or the end. -/
def nextTick (s : State τ) : State τ :=
  if timeAfterEq s.jiffies s.timerJiffies then s.beginTick else { s with runningTimer := none }

/-- The call of the function of `x`, the first one of the work list. -/
def expire (s : State τ) (x : τ) : State τ :=
  let s := { s with runningTimer := some x }.detachTimer x true
  { s with
    activeTimers := if s.deferrable x then s.activeTimers else s.activeTimers - 1
    log := s.log ++ [(x, s.tick)] }

end State

/-! ## Events -/

inductive Event (τ : Type) where
  /-- `jiffies` is advanced. -/
  | pass (ticks : Word)
  | setSlack (x : τ) (slack : Word)
  | add (x : τ) (expires : Word)
  | addOn (x : τ) (expires : Word)
  | mod (x : τ) (expires : Word)
  | modPending (x : τ) (expires : Word)
  | modPinned (x : τ) (expires : Word)
  | del (x : τ)
  | tryDel (x : τ)
  /-- `__run_timers` goes on, with the next timer or the next tick. -/
  | run

def step (s : State τ) : Event τ → State τ
  | .pass ticks => { s with jiffies := s.jiffies + ticks }
  | .setSlack x slack => { s with slack := update s.slack x slack }
  | .add x expires => s.addTimer x expires
  | .addOn x expires => s.addTimerOn x expires
  | .mod x expires => (s.modTimer x expires).1
  | .modPending x expires => (s.modTimerPending x expires).1
  | .modPinned x expires => (s.modTimerPinned x expires).1
  | .del x => (s.delTimer x).1
  | .tryDel x => (s.tryToDelTimerSync x).1
  | .run =>
    match s.lists .work with
    | [] => s.nextTick
    | x :: _ => s.expire x

/-! ## What an event does to a timer -/

/-- The value that the event arms the timer with, if it puts it into the wheel. -/
def armsWith (s : State τ) (x : τ) : Event τ → Option Word
  | .add y e => if y = x ∧ ¬ s.pending x then some (s.applySlack x e) else none
  | .addOn y e => if y = x ∧ ¬ s.pending x then some e else none
  | .mod y e =>
    if y = x ∧ ¬ (s.pending x ∧ s.expires x = s.applySlack x e) then some (s.applySlack x e)
    else none
  | .modPending y e => if y = x ∧ s.pending x then some e else none
  | .modPinned y e => if y = x ∧ ¬ (s.expires x = e ∧ s.pending x) then some e else none
  | _ => none

def deletes (s : State τ) (x : τ) : Event τ → Bool
  | .del y => y = x ∧ s.pending x
  | .tryDel y => y = x ∧ s.pending x ∧ s.runningTimer ≠ some x
  | _ => false

end Mini2440.Timer
