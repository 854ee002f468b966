import Mini2440.Library.Run
import Mini2440.Mmc.Host

/-!
# The end of a request

A request with data is done when its response has come, its data have been transferred and, with
DMA, all buffers are done. `s3cmci_irq` waits for the first two. The callback of the last DMA
buffer and the last pass of `do_pio_read` do not look at what `s3cmci_irq` waits for, and declare
the request complete whatever has been seen. `mmc_request_done` comes too early unless they come
late.
-/

namespace Mini2440.Mmc

open Library

/-- The host, and what `s3cmci_irq` has seen: the response and the end of the transfer of the
command with data, and the end of the command that stops it. -/
structure Session where
  host : Host
  rsp : Bool
  xfer : Bool
  answered : Bool

inductive Event where
  | irq (st : Status)
  | dmaDone
  | tasklet (levels : List Nat)

def Status.ErrorFree (st : Status) : Prop :=
  st.cmdTimeout = false ∧ st.fifoFail = false ∧ st.rxCrcFail = false ∧ st.crcFail = false ∧
    st.dataTimeout = false

namespace Session

def start (dma : Bool) (mrq : Mrq) (buffers : Nat) (ptr : Ptr) (levels : List Nat) : Session :=
  ⟨Host.request dma mrq buffers ptr levels, false, false, false⟩

def endsStop (h : Host) (st : Status) : Bool :=
  match h.mrq.bind Mrq.stop with
  | some rspPresent => if rspPresent then st.rspFin else st.cmdSent
  | none => false

def step (s : Session) : Event → Session
  | .irq st =>
    let seen := !st.sdioIrq
    { host := s.host.irq st
      rsp := s.rsp || seen && !s.host.cmdIsStop && st.rspFin
      xfer := s.xfer || seen && !s.host.cmdIsStop && st.xferFinish
      answered := s.answered || seen && s.host.cmdIsStop && endsStop s.host st }
  | .dmaDone => { s with host := s.host.dmaDoneCallback true }
  | .tasklet levels => { s with host := s.host.pioTasklet levels }

/-- The events that can come: interrupts without errors, as many DMA callbacks as there are
buffers, and the tasklet when it has been scheduled. -/
def Possible (s : Session) : Event → Prop
  | .irq st => st.ErrorFree
  | .dmaDone => s.host.dma = true ∧ s.host.dmatogo ≠ 0
  | .tasklet _ => s.host.scheduled = true

/-- The callback of the last buffer and the tasklet that reads the last bytes come after the
response and the end of the transfer have been seen. -/
def Late (s : Session) : Event → Prop
  | .irq _ => True
  | .dmaDone => s.host.dmatogo = 1 → s.rsp = true ∧ s.xfer = true
  | .tasklet levels => s.host.pio.active = .read → (s.host.pio.readLoop levels).active = .none →
      s.rsp = true ∧ s.xfer = true

def Over (s : Session) : Prop :=
  s.host.scheduled = false ∧ s.rsp = true ∧ s.xfer = true ∧
    (s.host.dma = true → s.host.dmatogo = 0) ∧ (s.host.cmdIsStop = true → s.answered = true)

/-- How far a request is, and what has been seen by then. -/
inductive Phase (s : Session) : Prop
  | both (what : s.host.completeWhat = .xferFinishRspFin) (command : s.host.cmdIsStop = false)
      (rsp : s.rsp = false) (xfer : s.xfer = false)
  | xferFinish (what : s.host.completeWhat = .xferFinish) (command : s.host.cmdIsStop = false)
      (rsp : s.rsp = true) (xfer : s.xfer = false)
  | rspFin (what : s.host.completeWhat = .rspFin) (command : s.host.cmdIsStop = false)
      (rsp : s.rsp = false) (xfer : s.xfer = true)
  | finalize (what : s.host.completeWhat = .finalize) (rsp : s.rsp = true) (xfer : s.xfer = true)
      (wake : s.host.scheduled = true ∨ s.host.dma = true ∧ s.host.dmatogo ≠ 0)
  | stop (rspPresent : Bool) (command : s.host.cmdIsStop = true)
      (what : s.host.completeWhat = if rspPresent then .rspFin else .cmdSent)
      (mrq : s.host.mrq.bind Mrq.stop = some rspPresent) (answered : s.answered = false)
      (rsp : s.rsp = true) (xfer : s.xfer = true)
  | done (what : s.host.completeWhat = .none) (asleep : s.host.scheduled = false)
      (count : s.host.requestDone = 1) (rsp : s.rsp = true) (xfer : s.xfer = true)
      (dma : s.host.dma = true → s.host.dmatogo = 0)

structure Steady (s : Session) : Prop where
  fresh : s.host.completeWhat ≠ .none → s.host.mrq ≠ none ∧ s.host.requestDone = 0
  dma_count : s.host.dma = true → (s.host.dmaComplete = true ↔ s.host.dmatogo = 0)
  dma_quiet : s.host.dma = true → s.host.dataError = 0 ∧ s.host.pio.active = .none
  cmd_error : s.host.cmdError = 0
  stop_dma : s.host.cmdIsStop = true → s.host.dma = true → s.host.dmatogo = 0
  answered : s.host.cmdIsStop = false → s.answered = false

structure Sound (s : Session) : Prop extends Steady s where
  phase : Phase s

end Session

/-! ## Interrupts -/

/-- What the host waits for after an interrupt without errors. -/
def Host.waitfor (h : Host) (st : Status) : Waitfor :=
  match h.completeWhat with
  | .none => .none
  | .finalize => .finalize
  | .cmdSent => if st.cmdSent then .finalize else .cmdSent
  | .rspFin => if st.rspFin then .finalize else .rspFin
  | .xferFinish => if !h.cmdIsStop && st.xferFinish then .finalize else .xferFinish
  | .xferFinishRspFin =>
    match st.rspFin, !h.cmdIsStop && st.xferFinish with
    | true, true => .finalize
    | true, false => .xferFinish
    | false, true => .rspFin
    | false, false => .xferFinishRspFin

lemma Host.schedulePio_eq (h : Host) (st : Status) :
    ∃ scheduled, h.schedulePio st = { h with scheduled := scheduled } ∧
      (h.scheduled → scheduled) := by
  unfold Host.schedulePio
  split_ifs
  · exact ⟨true, rfl, fun _ => rfl⟩
  · exact ⟨h.scheduled, rfl, id⟩

variable {st : Status} {h : Host}

/-- An interrupt without errors changes what the host waits for, and wakes up the tasklet when
there is nothing left to wait for. -/
lemma Host.irq_eq (hok : st.ErrorFree) (hsdio : st.sdioIrq = false) (hcmd : h.hasCommand) :
    ∃ scheduled, h.irq st = { h with completeWhat := h.waitfor st, scheduled := scheduled } ∧
      (h.scheduled → scheduled) ∧
      (h.waitfor st = .finalize → h.completeWhat ≠ .finalize → scheduled) := by
  obtain ⟨htimeout, hfifo, hrx, hcrc, hdata⟩ := hok
  obtain ⟨b, hpio, hb⟩ := h.schedulePio_eq st
  obtain ⟨dma, mrq, isStop, what, pio, togo, complete, cmdErr, dataErr, stopErr, sched, done⟩ := h
  simp only [Host.irq, Host.waitfor, hsdio, hcmd, hpio, htimeout, Host.irqData, hfifo, hrx, hcrc,
    hdata, Host.closeTransfer]
  cases what with
  | none => exact ⟨sched, by simp, id, by simp⟩
  | finalize => exact ⟨sched, by simp, id, by simp⟩
  | cmdSent =>
    cases hsent : st.cmdSent with
    | true => exact ⟨true, by simp, by simp, by simp⟩
    | false => exact ⟨b, by cases isStop <;> simp, hb, by simp⟩
  | rspFin =>
    cases hrsp : st.rspFin with
    | true => exact ⟨true, by simp, by simp, by simp⟩
    | false => exact ⟨b, by cases isStop <;> simp, hb, by simp⟩
  | xferFinish =>
    cases isStop with
    | true => exact ⟨b, by simp, hb, by simp⟩
    | false =>
      cases hxfer : st.xferFinish with
      | true => exact ⟨true, by simp, by simp, by simp⟩
      | false => exact ⟨b, by simp, hb, by simp⟩
  | xferFinishRspFin =>
    cases isStop with
    | true => exact ⟨b, by cases st.rspFin <;> simp, hb, by cases st.rspFin <;> simp⟩
    | false =>
      cases hrsp : st.rspFin <;> cases hxfer : st.xferFinish
      · exact ⟨b, by simp, hb, by simp⟩
      · exact ⟨b, by simp, hb, by simp⟩
      · exact ⟨b, by simp, hb, by simp⟩
      · exact ⟨true, by simp, by simp, by simp⟩

lemma Host.irq_idle
    (hwhat : h.completeWhat = .none ∨ h.completeWhat = .finalize) : h.irq st = h := by
  unfold Host.irq
  split_ifs <;> rfl

namespace Session

variable {s : Session}

lemma Sound.hasCommand (h : Sound s) (hwhat : s.host.completeWhat ≠ .none)
    (hstop : s.host.cmdIsStop = false) : s.host.hasCommand := by
  obtain ⟨mrq, hmrq⟩ := Option.ne_none_iff_exists'.mp (h.fresh hwhat).1
  simp [Host.hasCommand, hmrq, hstop]

/-- What is left to wait for when the response or the end of the transfer has been seen. -/
def awaited (rsp xfer : Bool) : Waitfor :=
  match rsp, xfer with
  | false, false => .xferFinishRspFin
  | true, false => .xferFinish
  | false, true => .rspFin
  | true, true => .finalize

lemma waitfor_awaited {rsp xfer : Bool}
    (hwhat : h.completeWhat = awaited rsp xfer) (hstop : h.cmdIsStop = false) :
    h.waitfor st = awaited (rsp || st.rspFin) (xfer || st.xferFinish) := by
  cases rsp <;> cases xfer <;> cases hrsp : st.rspFin <;> cases hxfer : st.xferFinish <;>
    simp_all [Host.waitfor, awaited]

lemma Phase.of_awaited (hwhat : s.host.completeWhat = awaited s.rsp s.xfer)
    (hstop : s.host.cmdIsStop = false)
    (hwake : s.host.completeWhat = .finalize → s.host.scheduled) : Phase s := by
  cases hrsp : s.rsp <;> cases hxfer : s.xfer <;> rw [hrsp, hxfer] at hwhat
  · exact .both hwhat hstop hrsp hxfer
  · exact .rspFin hwhat hstop hrsp hxfer
  · exact .xferFinish hwhat hstop hrsp hxfer
  · exact .finalize hwhat hrsp hxfer (.inl (hwake hwhat))

lemma Sound.phase_irq_command (h : Sound s) (hok : st.ErrorFree)
    (hsdio : st.sdioIrq = false) (hwhat : s.host.completeWhat = awaited s.rsp s.xfer)
    (hstop : s.host.cmdIsStop = false) (hbusy : s.host.completeWhat ≠ .none)
    (hopen : s.host.completeWhat ≠ .finalize) : Phase (s.step (.irq st)) := by
  obtain ⟨b, hirq, -, hwake⟩ := Host.irq_eq hok hsdio (h.hasCommand hbusy hstop)
  have hhost : (s.step (.irq st)).host =
      { s.host with completeWhat := s.host.waitfor st, scheduled := b } := hirq
  have hrsp : (s.step (.irq st)).rsp = (s.rsp || st.rspFin) := by simp [step, hsdio, hstop]
  have hxfer : (s.step (.irq st)).xfer = (s.xfer || st.xferFinish) := by simp [step, hsdio, hstop]
  refine Phase.of_awaited ?_ (hhost ▸ hstop) (hhost ▸ fun hfinal => hwake hfinal hopen)
  rw [hhost, hrsp, hxfer]
  exact waitfor_awaited hwhat hstop

lemma phase_irq_stop (hok : st.ErrorFree) (hsdio : st.sdioIrq = false)
    {rspPresent : Bool} (command : s.host.cmdIsStop)
    (what : s.host.completeWhat = if rspPresent then .rspFin else .cmdSent)
    (mrq : s.host.mrq.bind Mrq.stop = some rspPresent) (answered : s.answered = false)
    (hrsp : (s.step (.irq st)).rsp) (hxfer : (s.step (.irq st)).xfer) :
    Phase (s.step (.irq st)) := by
  obtain ⟨m, hmrq, hstop⟩ := Option.bind_eq_some_iff.mp mrq
  have hcmd : s.host.hasCommand := by simp [Host.hasCommand, hmrq, hstop]
  obtain ⟨b, hirq, -, hwake⟩ := Host.irq_eq hok hsdio hcmd
  -- the bit that the host waits for
  cases hends : endsStop s.host st with
  | false =>
    have hwait : s.host.waitfor st = s.host.completeWhat := by
      cases rspPresent <;> simp_all [Host.waitfor, endsStop]
    rw [hwait] at hirq
    exact .stop rspPresent (by simp [step, hirq, command]) (by simp [step, hirq, what])
      (by simp [step, hirq, hmrq, hstop]) (by simp [step, answered, hends]) hrsp hxfer
  | true =>
    have hwait : s.host.waitfor st = .finalize := by
      cases rspPresent <;> simp_all [Host.waitfor, endsStop]
    have hopen : s.host.completeWhat ≠ .finalize := by cases rspPresent <;> simp [what]
    have hsched : b := hwake hwait hopen
    rw [hwait] at hirq
    exact .finalize (by simp [step, hirq]) hrsp hxfer (.inl (by simp [step, hirq, hsched]))

/-- An interrupt leads from each phase to one of the phases after it. -/
lemma Sound.phase_irq (h : Sound s) (hok : st.ErrorFree)
    (hsdio : st.sdioIrq = false) : Phase (s.step (.irq st)) := by
  have hrspTrue : s.rsp → (s.step (.irq st)).rsp := by
    intro hrsp
    simp [step, hrsp]
  have hxferTrue : s.xfer → (s.step (.irq st)).xfer := by
    intro hxfer
    simp [step, hxfer]
  cases h.phase with
  | both what command rsp xfer
  | xferFinish what command rsp xfer
  | rspFin what command rsp xfer =>
    exact h.phase_irq_command hok hsdio (by rw [rsp, xfer, what]; rfl) command (by simp [what])
      (by simp [what])
  | finalize what rsp xfer wake =>
    have hirq : s.host.irq st = s.host := Host.irq_idle (.inr what)
    exact .finalize (by simp [step, hirq, what]) (hrspTrue rsp) (hxferTrue xfer)
      (by simpa [step, hirq] using wake)
  | stop rspPresent command what mrq answered rsp xfer =>
    exact phase_irq_stop hok hsdio command what mrq answered (hrspTrue rsp) (hxferTrue xfer)
  | done what asleep count rsp xfer dma =>
    have hirq : s.host.irq st = s.host := Host.irq_idle (.inl what)
    exact .done (by simp [step, hirq, what]) (by simp [step, hirq, asleep])
      (by simp [step, hirq, count]) (hrspTrue rsp) (hxferTrue xfer)
      (by simpa [step, hirq] using dma)

lemma irq_frame (hok : st.ErrorFree) :
    ∃ what scheduled, h.irq st = { h with completeWhat := what, scheduled := scheduled } ∧
      (what ≠ .none → h.completeWhat ≠ .none) := by
  cases hsdio : st.sdioIrq with
  | true => exact ⟨h.completeWhat, h.scheduled, by simp [Host.irq, hsdio], id⟩
  | false =>
    cases hcmd : h.hasCommand with
    | false =>
      refine ⟨h.completeWhat, h.scheduled, ?_, id⟩
      simp [Host.irq, hcmd]
    | true =>
      obtain ⟨b, hirq, -⟩ := Host.irq_eq hok hsdio hcmd
      exact ⟨_, b, hirq, fun hne hwhat => hne (by simp [Host.waitfor, hwhat])⟩

lemma Sound.irq (h : Sound s) (hok : st.ErrorFree) : Sound (s.step (.irq st)) := by
  cases hsdio : st.sdioIrq with
  | true =>
    have hsame : s.step (.irq st) = s := by simp [step, Host.irq, hsdio]
    rw [hsame]
    exact h
  | false =>
    obtain ⟨what, b, hirq, hnone⟩ := irq_frame (h := s.host) hok
    have hphase := h.phase_irq hok hsdio
    rw [step, hirq] at hphase ⊢
    refine { h with
      fresh := fun hwhat => h.fresh (hnone hwhat), answered := fun hstop => ?_, phase := hphase }
    have hstop' : s.host.cmdIsStop = false := hstop
    simp [h.answered hstop', hstop']

lemma Phase.still (h : Phase s) {host : Host} (hbusy : s.host.completeWhat ≠ .none)
    (hwhat : host.completeWhat = s.host.completeWhat) (hstop : host.cmdIsStop = s.host.cmdIsStop)
    (hmrq : host.mrq = s.host.mrq) (hwake : s.host.completeWhat = .finalize → host.scheduled) :
    Phase { s with host := host } := by
  cases h with
  | both what command rsp xfer => exact .both (hwhat.trans what) (hstop.trans command) rsp xfer
  | xferFinish what command rsp xfer =>
    exact .xferFinish (hwhat.trans what) (hstop.trans command) rsp xfer
  | rspFin what command rsp xfer =>
    exact .rspFin (hwhat.trans what) (hstop.trans command) rsp xfer
  | finalize what rsp xfer wake => exact .finalize (hwhat.trans what) rsp xfer (.inl (hwake what))
  | stop rspPresent command what mrq answered rsp xfer =>
    exact .stop rspPresent (hstop.trans command) (hwhat.trans what)
      ((congrArg (Option.bind · Mrq.stop) hmrq).trans mrq) answered rsp xfer
  | done what asleep count rsp xfer dma => exact absurd what hbusy

/-! ## The callback of the DMA -/

lemma Sound.dmaDone (h : Sound s) (hpossible : Possible s .dmaDone) (hlate : Late s .dmaDone) :
    Sound (s.step .dmaDone) := by
  obtain ⟨hdma, htogo⟩ := hpossible
  have hcomplete : s.host.dmaComplete = false := by
    simpa [htogo] using h.dma_count hdma
  have hstop : s.host.cmdIsStop = false := by
    by_contra hstop
    exact htogo (h.stop_dma (by simpa using hstop) hdma)
  have hwhat : s.host.completeWhat ≠ .none := by
    intro hwhat
    cases h.phase with
    | done what asleep count rsp xfer dma => exact htogo (dma hdma)
    | stop rspPresent command what mrq answered rsp xfer => simp [hstop] at command
    | _ => simp_all
  by_cases hlast : s.host.dmatogo - 1 = 0
  · -- the last buffer
    obtain ⟨hrsp, hxfer⟩ := hlate (by omega)
    have hstep : s.step .dmaDone = { s with host := { s.host with
          dmatogo := 0, dmaComplete := true, completeWhat := .finalize, scheduled := true } } := by
      simp [step, Host.dmaDoneCallback, hlast]
    rw [hstep]
    exact { h with
      fresh := fun _ => h.fresh hwhat, dma_count := by simp, stop_dma := by simp
      phase := .finalize rfl hrsp hxfer (.inl rfl) }
  · have hstep : s.step .dmaDone = { s with host := { s.host with
          dmatogo := s.host.dmatogo - 1, scheduled := true } } := by
      simp [step, Host.dmaDoneCallback, hlast]
    rw [hstep]
    exact { h with
      dma_count := by simp [hcomplete, hlast], stop_dma := by simp [hstop]
      phase := h.phase.still hwhat rfl rfl rfl fun _ => rfl }

/-! ## The tasklet -/

/-- `finalize_request` waits for the DMA, sends the command that stops the transfer, or is done. -/
lemma Steady.finalizeRequest (h : Steady s) (hwhat : s.host.completeWhat = .finalize)
    (hrsp : s.rsp) (hxfer : s.xfer) (hsched : s.host.scheduled = false) :
    Sound { s with host := s.host.finalizeRequest } := by
  obtain ⟨hmrq, hcount⟩ := h.fresh (by simp [hwhat])
  obtain ⟨mrq, hmrq⟩ := Option.ne_none_iff_exists'.mp hmrq
  by_cases hmissing : s.host.cmdIsStop = false ∧ s.host.cmdError = 0 ∧ s.host.dataError = 0 ∧
      s.host.dma ∧ s.host.dmaComplete = false
  · have hsame : s.host.finalizeRequest = s.host := by
      simp only [Host.finalizeRequest, hmrq, if_pos hmissing]
      simp
    rw [hsame]
    refine ⟨h, .finalize hwhat hrsp hxfer (.inr ⟨hmissing.2.2.2.1, ?_⟩)⟩
    intro htogo
    simpa [hmissing.2.2.2.2] using (h.dma_count hmissing.2.2.2.1).mpr htogo
  · have hdma : s.host.dma → s.host.dmatogo = 0 := by
      intro hdma
      cases hstop : s.host.cmdIsStop with
      | true => exact h.stop_dma hstop hdma
      | false =>
        refine (h.dma_count hdma).mp ?_
        by_contra hcomplete
        exact hmissing ⟨hstop, h.cmd_error, (h.dma_quiet hdma).1, hdma, by simpa using hcomplete⟩
    cases hnext : (if s.host.cmdIsStop then none else mrq.stop) with
    | none =>
      have hhost : s.host.finalizeRequest = { s.host with
            completeWhat := .none
            mrq := none
            pio := { s.host.pio with data := none }
            requestDone := s.host.requestDone + 1 } := by
        cases hstop : s.host.cmdIsStop <;> simp_all [Host.finalizeRequest, h.cmd_error]
      rw [hhost]
      refine ⟨{ h with fresh := fun hne => absurd rfl hne }, .done rfl hsched ?_ hrsp hxfer hdma⟩
      exact congrArg (· + 1) hcount
    | some rspPresent =>
      obtain ⟨hstop, hrspPresent⟩ : s.host.cmdIsStop = false ∧ mrq.stop = some rspPresent := by
        cases hstop : s.host.cmdIsStop <;> simp_all
      have hhost : s.host.finalizeRequest = { s.host with
            cmdIsStop := true
            completeWhat := if rspPresent then .rspFin else .cmdSent } := by
        simp_all [Host.finalizeRequest, h.cmd_error, Host.sendCommand]
      rw [hhost]
      refine ⟨{ h with
        fresh := fun _ => ⟨by simp [hmrq], hcount⟩, stop_dma := fun _ => hdma
        answered := by simp },
        .stop rspPresent rfl rfl ?_ (h.answered hstop) hrsp hxfer⟩
      simp [hmrq, hrspPresent]

end Session

lemma Pio.nextBuffer_active {p p' : Pio} (h : p.nextBuffer = .ok p') : p'.active = p.active := by
  unfold nextBuffer getDataBuffer at h
  grind

lemma Pio.writeRound_active {p : Pio} {level : Nat} :
    (∀ p', p.writeRound level = .error p' → p'.active = p.active ∨ p'.active = .none) ∧
      ∀ n p', p.writeRound level = .ok (n, p') → p'.active = p.active := by
  unfold writeRound
  cases hnext : p.nextBuffer with
  | error err => grind
  | ok p' =>
    have hactive := nextBuffer_active hnext
    grind [Pio.take]

lemma Pio.writeLoop_active (p : Pio) (levels : List Nat) :
    (p.writeLoop levels).active = p.active ∨ (p.writeLoop levels).active = .none := by
  induction levels generalizing p with
  | nil => exact .inl rfl
  | cons level levels ih =>
    simp only [writeLoop]
    cases hround : p.writeRound level with
    | error p' => exact writeRound_active.1 p' hround
    | ok r =>
      obtain ⟨n, p'⟩ := r
      rw [← writeRound_active.2 n p' hround]
      exact ih { p' with ptr := _ }

/-- The tasklet moves data, which may end the transfer, and then looks for a request that is
complete. -/
lemma Host.pioTasklet_eq (h : Host) (levels : List Nat) :
    ∃ (pio : Pio) (what : Waitfor), (h.pio.active = .none → pio = h.pio) ∧
      (what = h.completeWhat ∨
        what = .finalize ∧ h.pio.active = .read ∧ (h.pio.readLoop levels).active = .none) ∧
      h.pioTasklet levels =
        let h' := { h with scheduled := false, pio := pio, completeWhat := what }
        if what = .finalize then
          { h' with
            dataError := if pio.active = Xfer.none then h.dataError else -EINVAL }.finalizeRequest
        else h' := by
  cases hactive : h.pio.active with
  | none =>
    refine ⟨h.pio, h.completeWhat, by simp, .inl rfl, ?_⟩
    simp [Host.pioTasklet, hactive]
  | write =>
    have hne : (h.pio.writeLoop levels).active ≠ .read := by
      rcases h.pio.writeLoop_active levels with heq | heq <;> simp [heq, hactive]
    refine ⟨h.pio.writeLoop levels, h.completeWhat, by simp, .inl rfl, ?_⟩
    simp only [Host.pioTasklet, Host.doPioWrite]
    grind
  | read =>
    refine ⟨h.pio.readLoop levels,
      if (h.pio.readLoop levels).active = .none then .finalize else h.completeWhat, by simp, ?_, ?_⟩
    · split_ifs with hend
      · exact .inr ⟨rfl, rfl, hend⟩
      · exact .inl rfl
    · simp only [Host.pioTasklet, Host.doPioRead]
      grind

namespace Session

variable {s : Session}

lemma Sound.seen (h : Sound s) (hwhat : s.host.completeWhat = .finalize) : s.rsp ∧ s.xfer := by
  cases h.phase with
  | finalize what rsp xfer wake => exact ⟨rsp, xfer⟩
  | stop rspPresent command what mrq answered rsp xfer => exact ⟨rsp, xfer⟩
  | _ => simp_all

lemma Sound.busy (h : Sound s) (hsched : s.host.scheduled) : s.host.completeWhat ≠ .none := by
  cases h.phase with
  | done what asleep count rsp xfer dma => simp [hsched] at asleep
  | stop rspPresent command what mrq answered rsp xfer => cases rspPresent <;> simp_all
  | _ => simp_all

lemma Sound.tasklet (h : Sound s) {levels : List Nat} (hpossible : Possible s (.tasklet levels))
    (hlate : Late s (.tasklet levels)) : Sound (s.step (.tasklet levels)) := by
  have hbusy := h.busy hpossible
  obtain ⟨pio, what, hpio, hwhat, hhost⟩ := s.host.pioTasklet_eq levels
  have hquiet : s.host.dma → pio.active = .none := by
    intro hdma
    have hnone := (h.dma_quiet hdma).2
    rw [hpio hnone, hnone]
  rw [step, hhost]
  dsimp only
  by_cases hfinal : what = .finalize
  · rw [if_pos hfinal]
    have hseen : s.rsp ∧ s.xfer := by
      rcases hwhat with hsame | ⟨-, hread, hend⟩
      · exact h.seen (hsame.symm.trans hfinal)
      · exact hlate hread hend
    refine Steady.finalizeRequest (s := { s with host := _ })
      { h with fresh := fun _ => h.fresh hbusy, dma_quiet := fun hdma => ⟨?_, hquiet hdma⟩ }
      hfinal hseen.1 hseen.2 rfl
    simpa [hquiet hdma] using (h.dma_quiet hdma).1
  · -- nothing is complete, and the host still waits for the same
    rw [if_neg hfinal]
    have hsame : what = s.host.completeWhat := by
      rcases hwhat with hsame | ⟨hend, -⟩
      · exact hsame
      · exact absurd hend hfinal
    refine { h with
      fresh := fun _ => h.fresh hbusy
      dma_quiet := fun hdma => ⟨(h.dma_quiet hdma).1, hquiet hdma⟩, phase := ?_ }
    exact h.phase.still hbusy hsame rfl rfl fun hend => absurd (hsame.trans hend) hfinal

/-! ## Runs -/

lemma Sound.step (h : Sound s) {event : Event} (hpossible : Possible s event)
    (hlate : Late s event) : Sound (s.step event) := by
  cases event with
  | irq st => exact h.irq hpossible
  | dmaDone => exact h.dmaDone hpossible hlate
  | tasklet levels => exact h.tasklet hpossible hlate

lemma sound_start (dma : Bool) (mrq : Mrq) {buffers : Nat} (hbuffers : buffers ≠ 0) (ptr : Ptr)
    (levels : List Nat) : Sound (start dma mrq buffers ptr levels) := by
  obtain ⟨pio, hpio, hhost⟩ : ∃ pio : Pio, (dma → pio.active = .none) ∧
      Host.request dma mrq buffers ptr levels =
        ⟨dma, some mrq, false, .xferFinishRspFin, pio, buffers, false, 0, 0, 0, false, 0⟩ := by
    cases dma with
    | true => exact ⟨_, fun _ => rfl, rfl⟩
    | false => cases hwrite : mrq.write <;> exact ⟨_, by simp, by simp [Host.request, hwrite]; rfl⟩
  rw [start, hhost]
  exact ⟨⟨by simp, by simp [hbuffers], fun hdma => ⟨rfl, hpio hdma⟩, rfl, by simp, by simp⟩,
    .both rfl rfl rfl rfl⟩

lemma Sound.requestDone_cases (h : Sound s) :
    s.host.requestDone = 0 ∨ s.host.requestDone = 1 ∧ s.rsp ∧ s.xfer ∧
      (s.host.dma → s.host.dmatogo = 0) := by
  by_cases hwhat : s.host.completeWhat = .none
  · cases h.phase with
    | done what asleep count rsp xfer dma => exact .inr ⟨count, rsp, xfer, dma⟩
    | stop rspPresent command what mrq answered rsp xfer => cases rspPresent <;> simp_all
    | _ => simp_all
  · exact .inl (h.fresh hwhat).2

lemma Sound.done_of_over (h : Sound s) (hover : Over s) : s.host.requestDone = 1 := by
  obtain ⟨hsched, hrsp, hxfer, hdma, hstop⟩ := hover
  cases h.phase with
  | done what asleep count rsp xfer dma => exact count
  | finalize what rsp xfer wake =>
    rcases wake with hwake | ⟨hmode, htogo⟩
    · simp [hsched] at hwake
    · exact absurd (hdma hmode) htogo
  | stop rspPresent command what mrq answered rsp xfer =>
    simp [hstop command] at answered
  | _ => simp_all

/-- In every run in which the callback of the last DMA buffer and the tasklet that reads the
last bytes come late, `mmc_request_done` is called exactly once, and not before the response and
the end of the transfer have been seen and all DMA buffers are done. -/
theorem request_done_once (dma : Bool) (mrq : Mrq) (buffers : Nat) (hbuffers : buffers ≠ 0)
    (ptr : Ptr) (levels : List Nat) (events : List Event)
    (h : Along step (fun s event => Possible s event ∧ Late s event)
      (start dma mrq buffers ptr levels) events) :
    let s := runFrom step (start dma mrq buffers ptr levels) events
    s.host.requestDone ≤ 1 ∧
      (s.host.requestDone ≠ 0 → s.rsp = true ∧ s.xfer = true ∧
        (s.host.dma = true → s.host.dmatogo = 0)) ∧
      (Over s → s.host.requestDone = 1) := by
  intro s
  have hsound : Sound s := h.invariant (fun _ _ h hevent => h.step hevent.1 hevent.2)
    (sound_start dma mrq hbuffers ptr levels)
  refine ⟨?_, fun hne => ?_, hsound.done_of_over⟩
  · rcases hsound.requestDone_cases with hzero | ⟨hone, -⟩ <;> omega
  · rcases hsound.requestDone_cases with hzero | ⟨-, hseen⟩
    · exact absurd hzero hne
    · exact hseen

def readBlock : Mrq := ⟨[512], false, none⟩

def bothFinished : Status :=
  ⟨false, false, false, true, false, false, false, false, true, false, false⟩

theorem readBlock_done_once :
    (runFrom step (start true readBlock 1 ⟨0, 0⟩ [])
      [.irq bothFinished, .tasklet [], .dmaDone, .tasklet []]).host.requestDone = 1 :=
  (request_done_once true readBlock 1 (by decide) ⟨0, 0⟩ []
    [.irq bothFinished, .tasklet [], .dmaDone, .tasklet []]
    ⟨⟨⟨rfl, rfl, rfl, rfl, rfl⟩, trivial⟩, ⟨rfl, fun h => by cases h⟩,
      ⟨⟨rfl, by decide⟩, fun _ => ⟨rfl, rfl⟩⟩, ⟨rfl, fun h => by cases h⟩, trivial⟩).2.2
    ⟨rfl, rfl, rfl, fun _ => rfl, fun h => by cases h⟩

/-- If the DMA is done first, the request is reported before anything has been seen. -/
theorem readBlock_done_early :
    let events : List Event := [.dmaDone, .tasklet []]
    let s := runFrom step (start true readBlock 1 ⟨0, 0⟩ []) events
    Along step Possible (start true readBlock 1 ⟨0, 0⟩ []) events ∧
      s.host.requestDone = 1 ∧ s.rsp = false ∧ s.xfer = false := by
  refine ⟨⟨?_, ?_, trivial⟩, ?_⟩
  · exact ⟨rfl, by decide⟩
  · exact rfl
  · decide

end Session

end Mini2440.Mmc
