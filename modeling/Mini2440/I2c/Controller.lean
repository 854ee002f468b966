import Mini2440.Errno
import Mini2440.Library.Bits
import Mini2440.Library.Run

/-!
# The S3C2410 I2C controller and its driver

The interrupt-driven transfer of `i2c-s3c2410.c`, from `s3c24xx_i2c_doxfer` to the completion
of the messages. A use of the message pointer after completion, of a message past the end of
the list or of a buffer past the end of a message is a `Fault`.

The controller is modelled by what the driver can observe of it. It performs one operation at
a time and then sets the pending bit. While that bit is set it waits; clearing it releases the
next operation: a stop if the start bit of `IICSTAT` is clear, a start with the address in
`IICDS` if the start bit was written since the last operation, and otherwise a byte sent
from or received into `IICDS`, as the mode says. With nothing pending, writing the start bit
releases the start at once. A controller whose output is disabled does nothing.
-/

namespace Mini2440.I2c

open Library

/-! ## Registers -/

/-- Bit numbers in `IICCON`. -/
def conAcken : Nat := 7
def conTxdiv512 : Nat := 6
def conIrqen : Nat := 5
def conIrqpend : Nat := 4

/-- Bit numbers in `IICSTAT`; the transmit mode differs from the receive mode in one bit. -/
def statTransmit : Nat := 6
def statStart : Nat := 5
def statTxrxen : Nat := 4
def statLastbit : Nat := 0

def statMasterRx : BitVec 32 := 2 <<< 6
def statMasterTx : BitVec 32 := 3 <<< 6

/-- `QUIRK_S3C2440` and `QUIRK_HDMIPHY`. -/
def quirkS3c2440 : BitVec 32 := 1 <<< 0
def quirkHdmiphy : BitVec 32 := 1 <<< 1

/-- What happens on the two wires. A received byte is acknowledged or not. -/
inductive BusEvent where
  | start (addr : BitVec 7) (read : Bool)
  | write (byte : BitVec 8)
  | read (byte : BitVec 8) (ack : Bool)
  | stop
  deriving DecidableEq, Repr

structure Bus where
  iiccon : BitVec 32
  iicstat : BitVec 32
  iicds : BitVec 8
  startReq : Bool
  slave : Nat → BitVec 8
  received : Nat
  trace : List BusEvent

namespace Bus

def idle : Bus :=
  { iiccon := 0, iicstat := 0, iicds := 0, startReq := false, slave := fun _ => 0, received := 0
    trace := [] }

/-- The operation that the controller performs when it is released. -/
def perform (b : Bus) : Bus :=
  if b.iicstat.getLsbD statTxrxen = false then b
  else if b.iicstat.getLsbD statStart = false then { b with trace := b.trace ++ [.stop] }
  else if b.startReq then
    { b with
      startReq := false
      trace := b.trace ++ [.start (b.iicds.extractLsb 7 1) (b.iicds.getLsbD 0)] }
  else if b.iicstat.getLsbD statTransmit then { b with trace := b.trace ++ [.write b.iicds] }
  else
    { b with
      iicds := b.slave b.received
      received := b.received + 1
      trace := b.trace ++ [.read (b.slave b.received) (b.iiccon.getLsbD conAcken)] }

def writeStat (b : Bus) (v : BitVec 32) : Bus :=
  let b := { b with iicstat := v, startReq := v.getLsbD statStart }
  if v.getLsbD statStart && !b.iiccon.getLsbD conIrqpend then b.perform else b

def writeCon (b : Bus) (v : BitVec 32) : Bus :=
  let pending := b.iiccon.getLsbD conIrqpend
  let b := { b with iiccon := v }
  if pending && !v.getLsbD conIrqpend then b.perform else b

def writeDs (b : Bus) (v : BitVec 8) : Bus := { b with iicds := v }

def disableAck (b : Bus) : Bus := b.writeCon (clearBit b.iiccon conAcken)
def enableAck (b : Bus) : Bus := b.writeCon (setBit b.iiccon conAcken)
def disableIrq (b : Bus) : Bus := b.writeCon (clearBit b.iiccon conIrqen)
def enableIrq (b : Bus) : Bus := b.writeCon (setBit b.iiccon conIrqen)

/-- `out_ack`: acknowledge the interrupt and let the controller go on. -/
def ack (b : Bus) : Bus := b.writeCon (clearBit b.iiccon conIrqpend)

def pend (b : Bus) : Bus := { b with iiccon := setBit b.iiccon conIrqpend }

end Bus

/-! ## Messages -/

def mRd : BitVec 16 := 0x0001
def mIgnoreNak : BitVec 16 := 0x1000
def mRevDirAddr : BitVec 16 := 0x2000
def mNostart : BitVec 16 := 0x4000

/-- `struct i2c_msg`, with a sixteen-bit length. -/
structure Msg where
  addr : BitVec 16
  flags : BitVec 16
  buf : List (BitVec 8)
  len_lt : buf.length < 2 ^ 16

namespace Msg

def len (m : Msg) : Nat := m.buf.length

def has (m : Msg) (flag : BitVec 16) : Bool := m.flags &&& flag ≠ 0

def store (m : Msg) (k : Nat) (byte : BitVec 8) : Msg :=
  { m with buf := m.buf.set k byte, len_lt := by simpa using m.len_lt }

@[simp] lemma len_store (m : Msg) (k : Nat) (byte : BitVec 8) : (m.store k byte).len = m.len := by
  simp [len, store]

end Msg

/-- The messages of a transfer; their number is a C `int`. -/
structure Msgs where
  list : List Msg
  num_lt : list.length < 2 ^ 31

inductive State where
  | idle | start | read | write | stop
  deriving DecidableEq, Repr

inductive Fault where
  | nullMsg | msgIndex | bufIndex
  deriving DecidableEq, Repr

/-- `struct s3c24xx_i2c`. `msg` is the message pointer, as an index into the caller's list
`msgs`, or none for `NULL`. -/
structure Driver where
  quirks : BitVec 32
  msgs : List Msg
  msg : Option Nat
  msgNum : Nat
  msgIdx : Nat
  msgPtr : Nat
  state : State
  bus : Bus

namespace Driver

/-! ## The driver -/

/-- `s3c24xx_i2c_master_complete`. -/
def masterComplete (i : Driver) (ret : Int) : Driver :=
  { i with
    msgPtr := 0
    msg := none
    msgNum := 0
    msgIdx := if ret = 0 then i.msgIdx + 1 else (ret % 2 ^ 32).toNat }

def addrByte (m : Msg) : BitVec 8 :=
  let addr := ((m.addr &&& 0x7f) <<< 1).setWidth 8
  let addr := if m.has mRd then addr ||| 1 else addr
  if m.has mRevDirAddr then addr ^^^ 1 else addr

def startStat (m : Msg) : BitVec 32 :=
  setBit 0 statTxrxen ||| (if m.has mRd then statMasterRx else statMasterTx)

/-- `s3c24xx_i2c_message_start`. -/
def messageStart (i : Driver) (m : Msg) : Driver :=
  let b := i.bus.enableAck
  let iiccon := b.iiccon
  let b := ((b.writeStat (startStat m)).writeDs (addrByte m)).writeCon iiccon
  { i with bus := b.writeStat (setBit (startStat m) statStart) }

/-- `s3c24xx_i2c_stop`. -/
def stop (i : Driver) (ret : Int) : Driver :=
  let iicstat := i.bus.iicstat
  let iicstat :=
    if i.quirks &&& quirkHdmiphy ≠ 0 then clearBit iicstat statTxrxen
    else clearBit iicstat statStart
  let i := { i with bus := i.bus.writeStat iicstat, state := .stop }
  let i := i.masterComplete ret
  { i with bus := i.bus.disableIrq }

/-- The comparisons are of unsigned numbers, so the last index of no message is the greatest. -/
def isLastmsg (i : Driver) : Bool := i.msgIdx ≥ (i.msgNum + (2 ^ 32 - 1)) % 2 ^ 32

def isMsglast (i : Driver) (m : Msg) : Bool := i.msgPtr = (m.len + (2 ^ 32 - 1)) % 2 ^ 32

def isMsgend (i : Driver) (m : Msg) : Bool := i.msgPtr ≥ m.len

def curMsg (i : Driver) : Except Fault Msg :=
  match i.msg with
  | none => .error .nullMsg
  | some k =>
    match i.msgs[k]? with
    | none => .error .msgIndex
    | some m => .ok m

def nextMsg (i : Driver) : Driver :=
  { i with msgPtr := 0, msgIdx := i.msgIdx + 1, msg := i.msg.map (· + 1) }

def sendByte (i : Driver) (m : Msg) : Except Fault Driver :=
  match m.buf[i.msgPtr]? with
  | none => .error .bufIndex
  | some byte => .ok { i with msgPtr := i.msgPtr + 1, bus := i.bus.writeDs byte }

/-- From the label `retry_write` on. Each round goes to a later message, so that the number of
messages bounds the rounds. -/
def retryWrite : Nat → Driver → Except Fault Driver
  | 0, i => .ok i
  | fuel + 1, i => do
    let m ← i.curMsg
    if !i.isMsgend m then i.sendByte m
    else if !i.isLastmsg then
      let i := i.nextMsg
      let m ← i.curMsg
      if m.has mNostart then
        -- a change of direction stops the transfer and still goes on at the label
        if m.has mRd then retryWrite fuel (i.stop (-EINVAL)) else retryWrite fuel i
      else .ok { i.messageStart m with state := .start }
    else .ok (i.stop 0)

/-- The case `STATE_WRITE`. -/
def writeCase (i : Driver) (iicstat : BitVec 32) : Except Fault Driver := do
  let m ← i.curMsg
  if !m.has mIgnoreNak && iicstat.getLsbD statLastbit then .ok (i.stop (-ECONNREFUSED))
  else i.retryWrite (i.msgs.length + 1)

/-- From the label `prepare_read` on. -/
def prepareRead (i : Driver) : Except Fault Driver := do
  let m ← i.curMsg
  if i.isMsglast m then
    if i.isLastmsg then .ok { i with bus := i.bus.disableAck } else .ok i
  else if i.isMsgend m then
    if i.isLastmsg then .ok (i.stop 0) else .ok i.nextMsg
  else .ok i

def storeByte (i : Driver) : Except Fault Driver :=
  match i.msg with
  | none => .error .nullMsg
  | some k =>
    match i.msgs[k]? with
    | none => .error .msgIndex
    | some m =>
      if i.msgPtr < m.len then
        .ok { i with
          msgs := i.msgs.set k (m.store i.msgPtr i.bus.iicds)
          msgPtr := i.msgPtr + 1 }
      else .error .bufIndex

/-- The case `STATE_READ`. -/
def readCase (i : Driver) : Except Fault Driver := do
  let i ← i.storeByte
  i.prepareRead

/-- The case `STATE_START`, which goes on in one of the other two. -/
def startCase (i : Driver) (iicstat : BitVec 32) : Except Fault Driver := do
  let m ← i.curMsg
  if iicstat.getLsbD statLastbit && !m.has mIgnoreNak then .ok (i.stop (- ENXIO))
  else
    let i := { i with state := if m.has mRd then .read else .write }
    if i.isLastmsg && m.len == 0 then .ok (i.stop 0)
    else if m.has mRd then i.prepareRead
    else i.writeCase iicstat

def outAck (i : Driver) : Driver := { i with bus := i.bus.ack }

/-- `i2c_s3c_irq_nextbyte`. -/
def nextbyte (i : Driver) (iicstat : BitVec 32) : Except Fault Driver :=
  match i.state with
  | .idle => .ok i
  | .stop => .ok { i with bus := i.bus.disableIrq }.outAck
  | .start => (i.startCase iicstat).map outAck
  | .write => (i.writeCase iicstat).map outAck
  | .read => i.readCase.map outAck

/-- `s3c24xx_i2c_irq`. The loss of the arbitration is only reported. -/
def irq (i : Driver) : Except Fault Driver :=
  if i.state = .idle then .ok i.outAck else i.nextbyte i.bus.iicstat

/-- `s3c24xx_i2c_doxfer` up to the wait for completion. -/
def begin (quirks : BitVec 32) (bus : Bus) (x : Msgs) : Driver :=
  let i : Driver :=
    { quirks, msgs := x.list, msg := some 0, msgNum := x.list.length, msgIdx := 0, msgPtr := 0
      state := .start, bus := bus.enableIrq }
  match x.list.head? with
  | none => i
  | some m => i.messageStart m

/-- What `s3c24xx_i2c_doxfer` returns: `msg_idx` read as an `int`. -/
def result (i : Driver) : Int := (BitVec.ofNat 32 i.msgIdx).toInt

/-- An interrupt that finds any status and any byte in the registers. -/
def interrupt (i : Driver) (ev : BitVec 32 × BitVec 8) : Except Fault Driver :=
  irq { i with bus := { i.bus.pend with iicstat := ev.1, iicds := ev.2 } }

/-- The interrupt of an operation that the slave has acknowledged. No more interrupts are
waited for once the transfer is complete. -/
def serve (i : Driver) : Except Fault Driver :=
  if i.msgNum = 0 then .ok i else irq { i with bus := i.bus.pend }

end Driver

end Mini2440.I2c
