import Mini2440.Errno
import Mini2440.Mmc.Pio

/-!
# The MMC host

`s3cmci_irq`, `s3cmci_dma_done_callback`, `pio_tasklet` and `finalize_request`, which share
`complete_what`, for a request with data. The status registers are what an interrupt finds in
them. The interrupt masks are left out: an interrupt may come at any time.
-/

namespace Mini2440.Mmc

/-- `enum s3cmci_waitfor`. -/
inductive Waitfor where
  | none | finalize | cmdSent | rspFin | xferFinish | xferFinishRspFin
  deriving DecidableEq, Repr

/-- A request with data: the lengths of its segments, and whether the command that stops the
transfer, if there is one, has a response. -/
structure Mrq where
  sg : List Nat
  write : Bool
  stop : Option Bool
  deriving DecidableEq, Repr

/-- `struct s3cmci_host`, with the errors of the request, the state of the tasklet and the number
of calls of `mmc_request_done`. -/
structure Host where
  dma : Bool
  mrq : Option Mrq
  cmdIsStop : Bool
  completeWhat : Waitfor
  pio : Pio
  dmatogo : Nat
  dmaComplete : Bool
  cmdError : Int
  dataError : Int
  stopError : Int
  scheduled : Bool
  requestDone : Nat
  deriving DecidableEq, Repr

/-- What an interrupt finds: the bits of `SDIDSTA`, `SDICMDSTAT` and `SDIFSTA`. `sdioIrq` is set
if the interrupt of a card is detected and enabled. -/
structure Status where
  sdioIrq : Bool
  cmdTimeout : Bool
  cmdSent : Bool
  rspFin : Bool
  fifoFail : Bool
  rxCrcFail : Bool
  crcFail : Bool
  dataTimeout : Bool
  xferFinish : Bool
  tfdet : Bool
  rfdet : Bool
  deriving DecidableEq, Repr

/-- The passes of `do_pio_read` for what it finds in `SDIFSTA`. At the end the FIFO is empty. -/
def Pio.readLoop : Pio → List Nat → Pio
  | p, [] =>
    match p.readRound 0 with
    | .error p => p
    | .ok (_, p) => p
  | p, fifo :: fifos =>
    match p.readRound fifo with
    | .error p => p
    | .ok (n, p) => readLoop { p with ptr := ⟨p.ptr.seg, p.ptr.off + 4 * (n / 4)⟩ } fifos

/-- The passes of `do_pio_write`. At the end the FIFO is full. -/
def Pio.writeLoop : Pio → List Nat → Pio
  | p, [] => p
  | p, level :: levels =>
    match p.writeRound level with
    | .error p => p
    | .ok (n, p) => writeLoop { p with ptr := ⟨p.ptr.seg, p.ptr.off + 4 * ((n + 3) / 4)⟩ } levels

namespace Host

variable (h : Host)

def doPioRead (levels : List Nat) : Host :=
  let pio := h.pio.readLoop levels
  { h with
    pio := pio
    completeWhat := if pio.active = .none then .finalize else h.completeWhat }

def doPioWrite (levels : List Nat) : Host := { h with pio := h.pio.writeLoop levels }

/-- `s3cmci_send_command`, for the command of the request or the one that stops it. -/
def sendCommand (rspPresent : Bool) : Host :=
  { h with
    completeWhat :=
      if h.cmdIsStop = false then .xferFinishRspFin
      else if rspPresent then .rspFin
      else .cmdSent }

def finalizeRequest : Host :=
  if h.completeWhat ≠ .finalize then h
  else
    match h.mrq with
    | none => h
    | some mrq =>
      if h.cmdIsStop = false ∧ h.cmdError = 0 ∧ h.dataError = 0 ∧ h.dma = true ∧
          h.dmaComplete = false then h
      else
        let dataError :=
          if h.cmdIsStop = false ∧ h.cmdError ≠ 0 then h.cmdError else h.dataError
        let h := { h with dataError := dataError }
        match h.cmdIsStop, mrq.stop with
        | false, some rspPresent => { h with cmdIsStop := true }.sendCommand rspPresent
        | _, _ =>
          { h with
            completeWhat := .none
            mrq := none
            pio := { h.pio with data := none }
            requestDone := h.requestDone + 1 }

def pioTasklet (levels : List Nat) : Host :=
  let h := { h with scheduled := false }
  let h := if h.pio.active = .write then h.doPioWrite levels else h
  let h := if h.pio.active = .read then h.doPioRead levels else h
  if h.completeWhat = .finalize then
    let h := if h.pio.active ≠ .none then { h with dataError := -EINVAL } else h
    h.finalizeRequest
  else h

def closeTransfer : Host := { h with completeWhat := .finalize, scheduled := true }

def failTransfer : Host := { h with pio := { h.pio with active := .none } }.closeTransfer

/-- The first part of `s3cmci_irq`, which wakes up the tasklet. -/
def schedulePio (st : Status) : Host :=
  if h.dma = false ∧ (h.pio.active = .write ∧ st.tfdet = true ∨
      h.pio.active = .read ∧ st.rfdet = true) then { h with scheduled := true }
  else h

def setCmdError (err : Int) : Host :=
  if h.cmdIsStop then { h with stopError := err } else { h with cmdError := err }

def hasCommand : Bool :=
  match h.mrq with
  | none => false
  | some mrq => !h.cmdIsStop || mrq.stop.isSome

/-- The last part of `s3cmci_irq`, for a command with data. -/
def irqData (st : Status) : Host :=
  if st.fifoFail then { h with dataError := -EILSEQ }.failTransfer
  else if st.rxCrcFail then { h with dataError := -EILSEQ }.failTransfer
  else if st.crcFail then { h with dataError := -EILSEQ }.failTransfer
  else if st.dataTimeout then { h with dataError := -ETIMEDOUT }.failTransfer
  else if st.xferFinish then
    if h.completeWhat = .xferFinish then h.closeTransfer
    else if h.completeWhat = .xferFinishRspFin then { h with completeWhat := .rspFin }
    else h
  else h

/-- `s3cmci_irq`. -/
def irq (st : Status) : Host :=
  if st.sdioIrq then h
  else if h.completeWhat = .none ∨ h.completeWhat = .finalize then h
  else if h.hasCommand = false then h
  else
    let h := h.schedulePio st
    if st.cmdTimeout then (h.setCmdError (-ETIMEDOUT)).failTransfer
    else if st.cmdSent = true ∧ h.completeWhat = .cmdSent then h.closeTransfer
    else if st.rspFin = true ∧ h.completeWhat = .rspFin then h.closeTransfer
    else
      let h :=
        if st.rspFin = true ∧ h.completeWhat = .xferFinishRspFin then
          { h with completeWhat := .xferFinish }
        else h
      -- `if (!cmd->data) goto clear_status_bits;`
      if h.cmdIsStop then h else h.irqData st

/-- `s3cmci_dma_done_callback`. Without a request or a buffer to wait for it is a `BUG()`. -/
def dmaDoneCallback (ok : Bool) : Host :=
  if ok = false then
    { h with dataError := -EINVAL, completeWhat := .finalize, scheduled := true }
  else
    let h := { h with dmatogo := h.dmatogo - 1 }
    if h.dmatogo ≠ 0 then { h with scheduled := true }
    else { h with dmaComplete := true, completeWhat := .finalize, scheduled := true }

/-- `s3cmci_request` up to where the command has been sent: with DMA for a number of buffers, or
without it, when a transfer to the card starts with what fits into the FIFO. -/
def request (dma : Bool) (mrq : Mrq) (buffers : Nat) (ptr : Ptr) (levels : List Nat) : Host :=
  let active : Xfer := if dma then .none else if mrq.write then .write else .read
  let h : Host :=
    { dma := dma
      mrq := some mrq
      cmdIsStop := false
      completeWhat := .none
      pio := .prepare (some mrq.sg) active ptr
      dmatogo := buffers
      dmaComplete := false
      cmdError := 0
      dataError := 0
      stopError := 0
      scheduled := false
      requestDone := 0 }
  let h := if active = .write then h.doPioWrite levels else h
  h.sendCommand false

end Host

end Mini2440.Mmc
