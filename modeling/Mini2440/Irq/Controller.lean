import Mini2440.Library.Bits
import Mini2440.Library.Run

/-!
# The S3C24xx interrupt controllers

The main controller and the two controllers below it, for the sub-interrupts and for the
external interrupts, as `mach-s3c24xx/irq.c` drives them. Each has a mask and a pending
register; writing a one to a pending register clears the bit. An interrupt of a lower
controller may have a parent in the main one, whose handler is then `s3c_irq_demux`.

What the handlers of the sub-interrupts do to the controllers is an input of a run of the
demultiplexer: for each interrupt handled, a list of calls that mask and unmask sub-interrupts.
-/

namespace Mini2440.Irq

open Function Library

inductive IrqType where
  | none | eint | edge | level
  deriving DecidableEq, Repr

/-- The controllers that `s3c24xx_init_irq` sets up. -/
inductive Intc where
  | main | sub | eint
  deriving DecidableEq, Repr

/-- The static part of `struct s3c_irq_data`. A `parentIrq` of zero stands for no parent. -/
structure IrqData where
  type : IrqType := .none
  parentIrq : Fin 32 := 0
  deriving DecidableEq, Repr

/-- The hardware interrupts that `s3c24xx_init_intc` gives the controller's domain. -/
def Intc.inDomain : Intc → Fin 32 → Bool
  | .main, _ => true
  | .sub, hw => hw.val < 29
  | .eint, hw => 4 ≤ hw.val && hw.val < 24

/-- An interrupt of a lower controller that `s3c24xx_irq_map` attaches to a parent. -/
def attached (irqs : Intc → Fin 32 → IrqData) (intc : Intc) (hw : Fin 32) : Bool :=
  intc ≠ .main && intc.inDomain hw && (irqs intc hw).type ≠ .none && (irqs intc hw).parentIrq ≠ 0

/-- The tables of a processor. The interrupts of one parent belong to one controller, because
the parent's data has a single `sub_intc`. -/
structure Tables where
  irqs : Intc → Fin 32 → IrqData
  one_intc : ∀ i j hw hw', attached irqs i hw → attached irqs j hw' →
    (irqs i hw).parentIrq = (irqs j hw').parentIrq → i = j

/-- A mapped sub-interrupt, that is, one with a parent. -/
structure SubIrq (t : Tables) where
  intc : Intc
  hw : Fin 32
  attached : Irq.attached t.irqs intc hw = true
  deriving DecidableEq

/-- The part of `struct s3c_irq_data` that is filled in for a parent. -/
structure ParentData where
  subBits : BitVec 32 := 0
  subIntc : Option Intc := none

structure Regs where
  mask : Intc → BitVec 32
  pending : Intc → BitVec 32
  intpnd : BitVec 32

namespace Tables

variable (t : Tables)

/-- `s3c24xx_irq_map`, as far as it concerns the parents. -/
def irqMap (intc : Intc) (data : Fin 32 → ParentData) (hw : Fin 32) : Fin 32 → ParentData :=
  if attached t.irqs intc hw then
    let parent := (t.irqs intc hw).parentIrq
    update data parent
      { subIntc := some intc, subBits := (data parent).subBits ||| (1#32 <<< hw.val) }
  else data

/-- The parents' data after `s3c24xx_init_irq` has added the domains of all controllers. -/
def parentData : Fin 32 → ParentData :=
  (List.finRange 32).foldl (t.irqMap .eint)
    ((List.finRange 32).foldl (t.irqMap .sub) fun _ => {})

def subBits (parent : Fin 32) : BitVec 32 := (t.parentData parent).subBits

def parent (i : SubIrq t) : Fin 32 := (t.irqs i.intc i.hw).parentIrq

end Tables

namespace Regs

def setMask (s : Regs) (intc : Intc) (hw : Fin 32) : Regs :=
  { s with mask := update s.mask intc (setBit (s.mask intc) hw) }

def clearMask (s : Regs) (intc : Intc) (hw : Fin 32) : Regs :=
  { s with mask := update s.mask intc (clearBit (s.mask intc) hw) }

end Regs

section

variable (t : Tables)

/-- `s3c_irq_mask` of an interrupt of the main controller, which has no parent. -/
def irqMaskMain (s : Regs) (hw : Fin 32) : Regs := s.setMask .main hw

def irqUnmaskMain (s : Regs) (hw : Fin 32) : Regs := s.clearMask .main hw

/-- `s3c_irq_mask` of a sub-interrupt: mask the parent with the last of its sub-interrupts. -/
def irqMask (s : Regs) (i : SubIrq t) : Regs :=
  let s := s.setMask i.intc i.hw
  if s.mask i.intc &&& t.subBits (t.parent i) = t.subBits (t.parent i) then
    irqMaskMain s (t.parent i)
  else s

/-- `s3c_irq_unmask` of a sub-interrupt. -/
def irqUnmask (s : Regs) (i : SubIrq t) : Regs :=
  irqUnmaskMain (s.clearMask i.intc i.hw) (t.parent i)

/-- `s3c_irq_ack` on the main controller. -/
def irqAckMain (s : Regs) (hw : Fin 32) : Regs :=
  { s with
    pending := update s.pending .main (clearBit (s.pending .main) hw)
    intpnd := clearBit s.intpnd hw }

/-- The chips of the main controller have no `irq_eoi` and no `irq_mask_ack`. -/
def chainedIrqEnter (s : Regs) (parent : Fin 32) : Regs := irqAckMain (irqMaskMain s parent) parent

def chainedIrqExit (s : Regs) (parent : Fin 32) : Regs := irqUnmaskMain s parent

inductive SubCall where
  | mask (i : SubIrq t)
  | unmask (i : SubIrq t)

variable {t}

def SubCall.irq : SubCall t → SubIrq t
  | .mask i | .unmask i => i

def call (s : Regs) : SubCall t → Regs
  | .mask i => irqMask t s i
  | .unmask i => irqUnmask t s i

/-- The sub-interrupts of the parent that the demultiplexer finds pending and not masked. -/
def source (t : Tables) (s : Regs) (parent : Fin 32) : BitVec 32 :=
  match (t.parentData parent).subIntc with
  | none => 0
  | some intc => s.pending intc &&& ~~~s.mask intc &&& t.subBits parent

/-- `s3c_irq_demux`; `handlers n` are the calls made while sub-interrupt `n` is handled. -/
def irqDemux (s : Regs) (parent : Fin 32) (handlers : Fin 32 → List (SubCall t)) : Regs :=
  let s := chainedIrqEnter s parent
  let s := forBits (fun s n => runFrom call s (handlers n)) 32 (source t s parent) s
  chainedIrqExit s parent

variable (t) in
/-- The calls of the core, a run of the demultiplexer, and a change of the pending bits by the
devices. -/
inductive Event where
  | call (c : SubCall t)
  | demux (parent : Fin 32) (handlers : Fin 32 → List (SubCall t))
  | raise (intc : Intc) (bits : BitVec 32)

def step (s : Regs) : Event t → Regs
  | .call c => call s c
  | .demux parent handlers => irqDemux s parent handlers
  | .raise intc bits => { s with pending := update s.pending intc bits }

end

/-- `init_base`, `init_subint` and `init_eint`. Only a lower controller's entries have parents. -/
def initIrqs : Intc → Fin 32 → IrqData
  | .main, hw =>
    { type :=
        if hw.val < 4 then .eint
        else if hw.val ∈ [4, 5, 15, 23, 28, 31] then .level
        else if hw.val ∈ [6, 24] then .none
        else .edge }
  | .sub, hw =>
    if hw.val < 3 then { type := .level, parentIrq := 28 } -- UART0
    else if hw.val < 6 then { type := .level, parentIrq := 23 } -- UART1
    else if hw.val < 9 then { type := .level, parentIrq := 15 } -- UART2
    else if hw.val < 11 then { type := .edge, parentIrq := 31 } -- TC, ADC
    else {}
  | .eint, hw =>
    if hw.val < 4 then {}
    else if hw.val < 8 then { type := .eint, parentIrq := 4 }
    else if hw.val < 24 then { type := .eint, parentIrq := 5 }
    else {}

def s3c24xx : Tables where
  irqs := initIrqs
  one_intc := by
    intro i j
    cases i <;> cases j <;> decide +kernel

end Mini2440.Irq
