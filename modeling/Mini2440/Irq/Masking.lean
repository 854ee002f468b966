import Mini2440.Irq.Controller

/-!
# Parent masks and sub-interrupt masks

A parent should be masked exactly when all its sub-interrupts are. `s3c_irq_mask` and
`s3c_irq_unmask` keep this for every parent. `s3c_irq_demux` masks the parent on entry and
unmasks it on exit whatever its handlers have done, so a run of it keeps the rule only if it
leaves one of the parent's sub-interrupts unmasked.
-/

namespace Mini2440.Irq

open Library

variable {t : Tables} {s : Regs} {intc intc' : Intc} {hw hw' : Fin 32} {P Q : Fin 32} {i : SubIrq t}
  {c : SubCall t} {cs : List (SubCall t)} {handlers : Fin 32 → List (SubCall t)}

/-! ## The bits of a parent -/

lemma getLsbD_foldl_irqMap (l : List (Fin 32)) (data : Fin 32 → ParentData) :
    (l.foldl (t.irqMap intc) data P).subBits.getLsbD hw ↔
      (data P).subBits.getLsbD hw ∨
        hw ∈ l ∧ attached t.irqs intc hw ∧ (t.irqs intc hw).parentIrq = P := by
  induction l generalizing data with
  | nil => simp
  | cons a l ih =>
    have hstep : (t.irqMap intc data a P).subBits.getLsbD hw ↔ (data P).subBits.getLsbD hw ∨
          hw = a ∧ attached t.irqs intc hw ∧ (t.irqs intc hw).parentIrq = P := by
      unfold Tables.irqMap
      split_ifs with hatt
      · by_cases hP : P = (t.irqs intc a).parentIrq
        · subst hP
          have hbit : (1#32 <<< a.val).getLsbD hw = decide (hw.val = a.val) :=
            getLsbD_one_shiftLeft hw.isLt
          simp only [Function.update_self, BitVec.getLsbD_or, hbit, Bool.or_eq_true,
            decide_eq_true_eq, Fin.val_inj]
          constructor
          · rintro (h | rfl)
            · exact .inl h
            · exact .inr ⟨rfl, hatt, rfl⟩
          · rintro (h | ⟨h, -⟩)
            · exact .inl h
            · exact .inr h
        · simp only [Function.update_of_ne hP]
          constructor
          · exact .inl
          · rintro (h | ⟨rfl, -, h⟩)
            · exact h
            · exact absurd h.symm hP
      · constructor
        · exact .inl
        · rintro (h | ⟨rfl, h, -⟩)
          · exact h
          · exact absurd h hatt
    rw [List.foldl_cons, ih, List.mem_cons]
    tauto

/-- The sub-interrupt bits of a parent are those of the interrupts attached to it. -/
lemma getLsbD_subBits :
    (t.subBits P).getLsbD hw ↔
      ∃ intc, attached t.irqs intc hw ∧ (t.irqs intc hw).parentIrq = P := by
  simp only [Tables.subBits, Tables.parentData, getLsbD_foldl_irqMap, List.mem_finRange, true_and]
  constructor
  · rintro ((h | h) | h)
    · simp at h
    · exact ⟨.sub, h⟩
    · exact ⟨.eint, h⟩
  · rintro ⟨intc, hatt, hP⟩
    cases intc with
    | main => simp [attached] at hatt
    | sub => exact .inl (.inr ⟨hatt, hP⟩)
    | eint => exact .inr ⟨hatt, hP⟩

lemma SubIrq.intc_ne_main (i : SubIrq t) : i.intc ≠ .main := by
  have := i.attached
  intro h
  simp [Irq.attached, h] at this

/-! ## What the calls do to the mask registers -/

def Regs.masked (s : Regs) (intc : Intc) (hw : Fin 32) : Bool := (s.mask intc).getLsbD hw

def AllMasked (t : Tables) (s : Regs) (P : Fin 32) : Prop :=
  ∀ i : SubIrq t, t.parent i = P → s.masked i.intc i.hw = true

lemma masked_setMask :
    (s.setMask intc hw).masked intc' hw' =
      if intc' = intc ∧ hw' = hw then true else s.masked intc' hw' := by
  by_cases hintc : intc' = intc
  · subst hintc
    simp only [Regs.masked, Regs.setMask, Function.update_self, getLsbD_setBit hw'.isLt,
      Fin.val_inj, true_and]
    split_ifs with h <;> simp [h]
  · simp [Regs.masked, Regs.setMask, hintc]

lemma masked_clearMask :
    (s.clearMask intc hw).masked intc' hw' =
      if intc' = intc ∧ hw' = hw then false else s.masked intc' hw' := by
  by_cases hintc : intc' = intc
  · subst hintc
    simp only [Regs.masked, Regs.clearMask, Function.update_self, getLsbD_clearBit hw'.isLt,
      Fin.val_inj, true_and]
    split_ifs with h <;> simp [h]
  · simp [Regs.masked, Regs.clearMask, hintc]

/-- The test of `s3c_irq_mask` asks whether all sub-interrupts of the parent are masked. -/
lemma mask_and_subBits_iff :
    s.mask i.intc &&& t.subBits (t.parent i) = t.subBits (t.parent i) ↔
      AllMasked t s (t.parent i) := by
  rw [and_eq_right_iff]
  constructor
  · intro h j hj
    have hintc : j.intc = i.intc := t.one_intc _ _ _ _ j.attached i.attached hj
    rw [hintc]
    exact h j.hw j.hw.isLt (getLsbD_subBits.mpr ⟨j.intc, j.attached, hj⟩)
  · intro h n hn hbit
    obtain ⟨intc, hatt, hP⟩ := (@getLsbD_subBits t ⟨n, hn⟩ _).mp hbit
    have hintc : intc = i.intc := t.one_intc _ _ _ _ hatt i.attached hP
    have hm := h ⟨intc, ⟨n, hn⟩, hatt⟩ hP
    rw [← hintc]
    exact hm

def SubCall.isMask : SubCall t → Bool
  | .mask _ => true
  | .unmask _ => false

lemma irqMask_cases (s : Regs) (i : SubIrq t) :
    AllMasked t (s.setMask i.intc i.hw) (t.parent i) ∧
        irqMask t s i = irqMaskMain (s.setMask i.intc i.hw) (t.parent i) ∨
      ¬ AllMasked t (s.setMask i.intc i.hw) (t.parent i) ∧
        irqMask t s i = s.setMask i.intc i.hw := by
  rw [← mask_and_subBits_iff (i := i)]
  by_cases h : (s.setMask i.intc i.hw).mask i.intc &&& t.subBits (t.parent i) =
      t.subBits (t.parent i)
  · exact .inl ⟨h, if_pos h⟩
  · exact .inr ⟨h, if_neg h⟩

lemma masked_call (hmain : intc ≠ .main) :
    (call s c).masked intc hw =
      if intc = c.irq.intc ∧ hw = c.irq.hw then c.isMask else s.masked intc hw := by
  have hne (parent : Fin 32) : ¬ (intc = .main ∧ hw = parent) := fun h => hmain h.1
  cases c with
  | mask i =>
    obtain ⟨-, h⟩ | ⟨-, h⟩ := irqMask_cases s i
    · rw [call, h, irqMaskMain, masked_setMask, if_neg (hne _)]
      exact masked_setMask
    · rw [call, h]
      exact masked_setMask
  | unmask i =>
    rw [call, irqUnmask, irqUnmaskMain, masked_clearMask, if_neg (hne _)]
    exact masked_clearMask

lemma AllMasked.setMask (h : AllMasked t s P) (intc : Intc) (hw : Fin 32) :
    AllMasked t (s.setMask intc hw) P := by
  intro j hj
  rw [masked_setMask]
  split_ifs
  · rfl
  · exact h j hj

lemma masked_main_setMask (i : SubIrq t) (P : Fin 32) :
    (s.setMask i.intc i.hw).masked .main P = s.masked .main P := by
  rw [masked_setMask, if_neg fun hm => i.intc_ne_main hm.1.symm]

lemma masked_main_call (h : t.parent c.irq ≠ P) : (call s c).masked .main P = s.masked .main P := by
  cases c with
  | mask i =>
    have hset := masked_main_setMask (s := s) i P
    obtain ⟨-, hm⟩ | ⟨-, hm⟩ := irqMask_cases s i
    · rw [call, hm, irqMaskMain, masked_setMask, if_neg fun hm => h hm.2.symm, hset]
    · rw [call, hm, hset]
  | unmask i =>
    rw [call, irqUnmask, irqUnmaskMain, masked_clearMask, if_neg fun hm => h hm.2.symm,
      masked_clearMask, if_neg fun hm => i.intc_ne_main hm.1.symm]

/-! ## The rule for one parent -/

def Consistent (t : Tables) (s : Regs) (P : Fin 32) : Prop :=
  s.masked .main P = true ↔ AllMasked t s P

lemma allMasked_call_of_ne (h : t.parent c.irq ≠ P) :
    AllMasked t (call s c) P ↔ AllMasked t s P := by
  refine forall_congr' fun j => forall_congr' fun hj => ?_
  rw [masked_call j.intc_ne_main, if_neg]
  rintro ⟨hintc, hhw⟩
  apply h
  rw [← hj, Tables.parent, Tables.parent, hintc, hhw]

lemma Consistent.call (h : Consistent t s P) : Consistent t (call s c) P := by
  by_cases hP : t.parent c.irq = P
  swap
  · rw [Consistent, masked_main_call hP, allMasked_call_of_ne hP]
    exact h
  subst hP
  cases c with
  | mask i =>
    obtain ⟨hall, hm⟩ | ⟨hall, hm⟩ := irqMask_cases s i
    · rw [Irq.call, hm]
      refine iff_of_true ?_ (hall.setMask _ _)
      simp [irqMaskMain, masked_setMask, SubCall.irq]
    · rw [Irq.call, hm]
      refine iff_of_false ?_ hall
      -- the parent was not masked before, or masking one more would have masked all
      rw [SubCall.irq, masked_main_setMask]
      exact fun hold => hall ((h.mp hold).setMask _ _)
  | unmask i =>
    refine iff_of_false ?_ fun hall => ?_
    · simp [Irq.call, irqUnmask, irqUnmaskMain, masked_clearMask, SubCall.irq]
    · have hi := hall i rfl
      rw [masked_call i.intc_ne_main, if_pos ⟨rfl, rfl⟩] at hi
      cases hi

/-! ## The demultiplexer -/

/-- The calls that the handlers make during a run of the demultiplexer, in order. -/
def demuxCalls (s : Regs) (P : Fin 32) (handlers : Fin 32 → List (SubCall t)) :
    List (SubCall t) :=
  (bits (source t (chainedIrqEnter s P) P)).flatMap handlers

lemma irqDemux_eq :
    irqDemux s P handlers =
      chainedIrqExit (runFrom call (chainedIrqEnter s P) (demuxCalls s P handlers)) P := by
  have hfold (l : List (Fin 32)) (s : Regs) :
      l.foldl (fun s n => runFrom Irq.call s (handlers n)) s =
        runFrom Irq.call s (l.flatMap handlers) := by
    induction l generalizing s with
    | nil => rfl
    | cons n l ih => simp [ih]
  simp only [irqDemux, forBits_width, hfold]
  rfl

/-- Whether an interrupt is masked after the calls: the last call on it decides. -/
def maskedAfter (i : SubIrq t) (before : Bool) (cs : List (SubCall t)) : Bool :=
  cs.foldl (fun b c => if c.irq = i then c.isMask else b) before

lemma masked_runFrom_call :
    (runFrom call s cs).masked i.intc i.hw = maskedAfter i (s.masked i.intc i.hw) cs := by
  induction cs generalizing s with
  | nil => rfl
  | cons c cs ih =>
    have hirq : (i.intc = c.irq.intc ∧ i.hw = c.irq.hw) ↔ c.irq = i := by
      constructor
      · rintro ⟨h₁, h₂⟩
        obtain ⟨intc, hw, hatt⟩ := i
        generalize c.irq = j at h₁ h₂
        obtain ⟨intc', hw', hatt'⟩ := j
        obtain rfl : intc = intc' := h₁
        obtain rfl : hw = hw' := h₂
        rfl
      · rintro rfl
        exact ⟨rfl, rfl⟩
    rw [runFrom_cons, ih, masked_call i.intc_ne_main]
    simp [hirq, maskedAfter]

/-- The event leaves a sub-interrupt of the parent it handles unmasked: its last call by the
handlers unmasks it, or it is not masked before and no handler masks it. -/
def LeavesOpen (s : Regs) : Event t → Prop
  | .demux P handlers => ∃ i : SubIrq t, t.parent i = P ∧
      maskedAfter i (s.masked i.intc i.hw) (demuxCalls s P handlers) = false
  | _ => True

lemma masked_enter :
    (chainedIrqEnter s P).masked intc hw =
      if intc = .main ∧ hw = P then true else s.masked intc hw :=
  masked_setMask

lemma masked_exit :
    (chainedIrqExit s P).masked intc hw =
      if intc = .main ∧ hw = P then false else s.masked intc hw :=
  masked_clearMask

section

variable (h : Consistent t s Q)

include h

/-- Entering and leaving the handler of `P` does not concern another parent. -/
lemma Consistent.congr {s' : Regs}
    (hsub : ∀ j : SubIrq t, s'.masked j.intc j.hw = s.masked j.intc j.hw)
    (hmain : s'.masked .main Q = s.masked .main Q) : Consistent t s' Q := by
  have hall : AllMasked t s' Q ↔ AllMasked t s Q :=
    forall_congr' fun j => forall_congr' fun _ => by rw [hsub]
  rw [Consistent, hall, hmain]
  exact h

lemma Consistent.enter (hne : Q ≠ P) : Consistent t (chainedIrqEnter s P) Q :=
  h.congr (fun j => by rw [masked_enter, if_neg fun hm => j.intc_ne_main hm.1])
    (by rw [masked_enter, if_neg fun hm => hne hm.2])

lemma Consistent.exit (hne : Q ≠ P) : Consistent t (chainedIrqExit s P) Q :=
  h.congr (fun j => by rw [masked_exit, if_neg fun hm => j.intc_ne_main hm.1])
    (by rw [masked_exit, if_neg fun hm => hne hm.2])

/-- A run of the demultiplexer that leaves a sub-interrupt of its parent unmasked keeps the rule
for every parent, its own included. -/
lemma Consistent.demux (open_ : LeavesOpen s (.demux P handlers)) :
    Consistent t (irqDemux s P handlers) Q := by
  rw [irqDemux_eq]
  by_cases hne : Q = P
  · subst hne
    obtain ⟨i, hi, hclear⟩ := open_
    refine iff_of_false (by simp [masked_exit]) fun hall => ?_
    have hbit := hall i hi
    rw [masked_exit, if_neg fun hm => i.intc_ne_main hm.1, masked_runFrom_call, masked_enter,
      if_neg fun hm => i.intc_ne_main hm.1, hclear] at hbit
    cases hbit
  · have hcalls :
        Consistent t (runFrom Irq.call (chainedIrqEnter s P) (demuxCalls s P handlers)) Q :=
      runFrom_invariant (P := fun s => Consistent t s Q) (fun _ _ hs => hs.call) (h.enter hne) _
    exact hcalls.exit hne

lemma Consistent.step {e : Event t} (open_ : LeavesOpen s e) : Consistent t (step s e) Q := by
  cases e with
  | call c => exact h.call
  | demux P handlers => exact h.demux open_
  | raise intc bits => exact h

end

/-! ## Bits that an event leaves alone -/

def Event.calls (s : Regs) : Event t → List (SubCall t)
  | .call c => [c]
  | .demux P handlers => demuxCalls s P handlers
  | .raise _ _ => []

def Event.handles : Event t → Option (Fin 32)
  | .demux P _ => some P
  | _ => none

/-- The event changes no mask bit of a sub-interrupt that it makes no call on, and none of a
parent that it neither handles nor makes a call below. -/
structure OthersKept (s : Regs) (e : Event t) : Prop where
  sub : ∀ intc hw, intc ≠ .main → (∀ c ∈ e.calls s, ¬ (intc = c.irq.intc ∧ hw = c.irq.hw)) →
    (step s e).masked intc hw = s.masked intc hw
  main : ∀ Q, e.handles ≠ some Q → (∀ c ∈ e.calls s, t.parent c.irq ≠ Q) →
    (step s e).masked .main Q = s.masked .main Q

lemma masked_runFrom_of_not_mem (hmain : intc ≠ .main)
    (h : ∀ c ∈ cs, ¬ (intc = c.irq.intc ∧ hw = c.irq.hw)) :
    (runFrom call s cs).masked intc hw = s.masked intc hw := by
  refine forall_visits (P := fun t => t.masked intc hw = s.masked intc hw)
    (fun t c hc ht => ?_) rfl _ (last_mem_visits call s cs)
  rw [masked_call hmain, if_neg (h c hc), ht]

lemma masked_main_runFrom_of_not_mem (h : ∀ c ∈ cs, t.parent c.irq ≠ Q) :
    (runFrom call s cs).masked .main Q = s.masked .main Q := by
  refine forall_visits (P := fun t => t.masked .main Q = s.masked .main Q)
    (fun t c hc ht => ?_) rfl _ (last_mem_visits call s cs)
  rw [masked_main_call (h c hc), ht]

lemma othersKept (e : Event t) : OthersKept s e := by
  cases e with
  | call c =>
    constructor
    · intro intc hw hmain h
      exact @masked_runFrom_of_not_mem t _ _ _ [c] hmain h
    · intro Q _ h
      exact @masked_main_runFrom_of_not_mem t _ _ [c] h
  | raise intc bits => exact ⟨fun _ _ _ _ => rfl, fun _ _ _ => rfl⟩
  | demux P handlers =>
    constructor
    · intro intc hw hmain h
      rw [step, irqDemux_eq, masked_exit, if_neg fun hm => hmain hm.1,
        @masked_runFrom_of_not_mem t _ _ _ (demuxCalls s P handlers) hmain h, masked_enter,
        if_neg fun hm => hmain hm.1]
    · intro Q hne h
      have hQ : Q ≠ P := fun hQ => hne (by rw [hQ]; rfl)
      rw [step, irqDemux_eq, masked_exit, if_neg fun hm => hQ hm.2,
        @masked_main_runFrom_of_not_mem t _ _ (demuxCalls s P handlers) h, masked_enter,
        if_neg fun hm => hQ hm.2]

/-- In every run in which the demultiplexer leaves a sub-interrupt of its parent unmasked, each
parent is masked exactly when all its sub-interrupts are, and no event changes other bits. -/
theorem parent_masked_iff_all_subs_masked (t : Tables) (s : Regs)
    (consistent : ∀ P, (∃ i, t.parent i = P) → Consistent t s P) (es : List (Event t))
    (h : Along step LeavesOpen s es) :
    (∀ P, (∃ i, t.parent i = P) → Consistent t (runFrom step s es) P) ∧
      ∀ e : Event t, OthersKept (runFrom step s es) e := by
  refine ⟨fun P hP => ?_, othersKept⟩
  exact h.invariant (P := fun s => Consistent t s P) (fun _ _ hs open_ => hs.step open_)
    (consistent P hP)

/-- The receive interrupt of UART0, a sub-interrupt of interrupt 28. -/
def uart0Rx : SubIrq s3c24xx := ⟨.sub, ⟨0, by decide⟩, by decide⟩

/-- Receive is pending; it is the one sub-interrupt of any parent that is not masked. -/
def receiving : Regs where
  mask
    | .main => ~~~(1 <<< 28)
    | .sub => ~~~1
    | .eint => ~~~0
  pending
    | .main => 1 <<< 28
    | .sub => 1
    | .eint => 0
  intpnd := 1 <<< 28

lemma receiving_consistent (i : SubIrq s3c24xx) :
    Consistent s3c24xx receiving (s3c24xx.parent i) := by
  have hall : ∀ intc hw, attached initIrqs intc hw →
      (receiving.masked .main (initIrqs intc hw).parentIrq ↔
        receiving.mask intc &&& s3c24xx.subBits (initIrqs intc hw).parentIrq =
          s3c24xx.subBits (initIrqs intc hw).parentIrq) := by
    intro intc
    cases intc <;> decide +kernel
  exact (hall i.intc i.hw i.attached).trans mask_and_subBits_iff

/-- The flow of a level interrupt: masked while it is handled, and unmasked afterwards. -/
def levelFlow : Fin 32 → List (SubCall s3c24xx)
  | 0 => [.mask uart0Rx, .unmask uart0Rx]
  | _ => []

theorem receiving_levelFlow :
    Consistent s3c24xx
      (runFrom step receiving [.demux 28 levelFlow, .call (.mask uart0Rx)]) 28 := by
  refine (parent_masked_iff_all_subs_masked s3c24xx receiving ?_ _ ?_).1 28 ⟨uart0Rx, rfl⟩
  · rintro _ ⟨i, rfl⟩
    exact receiving_consistent i
  · exact ⟨⟨uart0Rx, rfl, by decide +kernel⟩, trivial, trivial⟩

/-- A handler that leaves its interrupt masked, as `disable_irq` in a level handler does. -/
def disablingFlow : Fin 32 → List (SubCall s3c24xx)
  | 0 => [.mask uart0Rx]
  | _ => []

/-- With receive the last unmasked sub-interrupt, its handler masks the parent and the exit of
the demultiplexer unmasks it again. -/
theorem receiving_disablingFlow :
    Consistent s3c24xx receiving 28 ∧
      (irqDemux receiving 28 disablingFlow).masked .main 28 = false ∧
      AllMasked s3c24xx (irqDemux receiving 28 disablingFlow) 28 ∧
      ¬ Consistent s3c24xx (runFrom step receiving [.demux 28 disablingFlow]) 28 := by
  have hmain : (irqDemux receiving 28 disablingFlow).masked .main 28 = false := by decide +kernel
  have hall : AllMasked s3c24xx (irqDemux receiving 28 disablingFlow) 28 :=
    (mask_and_subBits_iff (i := uart0Rx)).mp (by decide +kernel)
  refine ⟨receiving_consistent uart0Rx, hmain, hall, fun h => ?_⟩
  have := h.mpr hall
  cases this

end Mini2440.Irq
