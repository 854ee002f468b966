import Mathlib.Tactic.IntervalCases
import Mini2440.I2c.Controller

/-!
# What the controller does when the driver releases it

Each way in which the handler acknowledges an interrupt, as an equation between the bus before
the interrupt and the bus after the operation that the acknowledgement released.
-/

namespace Mini2440.I2c

open Library

/-- A plain message: at least one byte, and no flag but the direction. -/
structure Msg.Plain (m : Msg) : Prop where
  len_pos : 0 < m.len
  flags : m.flags = 0 ∨ m.flags = mRd

namespace Msg.Plain

variable {m : Msg}

lemma revDirAddr (h : m.Plain) : m.has mRevDirAddr = false := by
  obtain hf | hf := h.flags <;> rw [Msg.has, hf] <;> decide

lemma nostart (h : m.Plain) : m.has mNostart = false := by
  obtain hf | hf := h.flags <;> rw [Msg.has, hf] <;> decide

end Msg.Plain

def Msg.startEvent (m : Msg) : BusEvent := .start (m.addr.setWidth 7) (m.has mRd)

def Msg.busyStat (m : Msg) : BitVec 32 := setBit (Driver.startStat m) statStart

lemma addrByte_event {m : Msg} (h : m.Plain) :
    BusEvent.start ((Driver.addrByte m).extractLsb 7 1) ((Driver.addrByte m).getLsbD 0) =
      m.startEvent := by
  have haddr : (Driver.addrByte m).extractLsb 7 1 = m.addr.setWidth 7 := by
    apply BitVec.eq_of_getLsbD_eq
    intro j hj
    cases hread : m.has mRd <;> simp only [Driver.addrByte, h.revDirAddr, hread] <;>
      interval_cases j <;> simp
  have hdir : (Driver.addrByte m).getLsbD 0 = m.has mRd := by
    cases hread : m.has mRd <;> simp [Driver.addrByte, h.revDirAddr, hread]
  rw [haddr, hdir]
  rfl

namespace Bus

variable {b : Bus} {tx : Bool}

/-- The controller has finished an operation of a transfer in the given mode, the slave has
acknowledged it, and the interrupt is about to come. -/
structure Ready (b : Bus) (tx : Bool) : Prop where
  pending : b.iiccon.getLsbD conIrqpend = false
  enabled : b.iicstat.getLsbD statTxrxen = true
  started : b.iicstat.getLsbD statStart = true
  mode : b.iicstat.getLsbD statTransmit = tx
  acked : b.iicstat.getLsbD statLastbit = false
  startReq : b.startReq = false

lemma writeCon_hold {v : BitVec 32}
    (h : b.iiccon.getLsbD conIrqpend = false ∨ v.getLsbD conIrqpend) :
    b.writeCon v = { b with iiccon := v } := by
  obtain h | h := h <;> simp [writeCon, h]

@[simp] lemma getLsbD_pend : b.pend.iiccon.getLsbD conIrqpend := by
  rw [pend, getLsbD_setBit (by decide)]
  rfl

/-- Acknowledging an interrupt releases the next operation. -/
lemma ack_pend (h : b.iiccon.getLsbD conIrqpend = false) : b.pend.ack = b.perform := by
  have hcon : clearBit b.pend.iiccon conIrqpend = b.iiccon := clearBit_setBit h
  rw [ack, writeCon, getLsbD_pend, hcon, h]
  rfl

lemma writeCon_pend (b : Bus) (v : BitVec 32) :
    b.pend.writeCon (setBit v conIrqpend) = { b with iiccon := v }.pend := by
  rw [writeCon_hold (.inr (by rw [getLsbD_setBit (by decide)]; rfl))]
  rfl

lemma disableAck_pend (b : Bus) :
    b.pend.disableAck = { b with iiccon := clearBit b.iiccon conAcken }.pend := by
  rw [← writeCon_pend b (clearBit b.iiccon conAcken), ← clearBit_setBit_comm (by decide)]
  rfl

lemma disableIrq_pend (b : Bus) :
    b.pend.disableIrq = { b with iiccon := clearBit b.iiccon conIrqen }.pend := by
  rw [← writeCon_pend b (clearBit b.iiccon conIrqen), ← clearBit_setBit_comm (by decide)]
  rfl

lemma enableAck_pend (b : Bus) :
    b.pend.enableAck = { b with iiccon := setBit b.iiccon conAcken }.pend := by
  rw [← writeCon_pend b (setBit b.iiccon conAcken), setBit_setBit_comm]
  rfl

def sent (b : Bus) (byte : BitVec 8) : Bus :=
  { b with iicds := byte, trace := b.trace ++ [.write byte] }

def fetched (b : Bus) (nack : Bool) : Bus :=
  { b with
    iiccon := if nack then clearBit b.iiccon conAcken else b.iiccon
    iicds := b.slave b.received
    received := b.received + 1
    trace := b.trace ++ [.read (b.slave b.received) (!nack)] }

def stopped (b : Bus) : Bus :=
  { b with
    iiccon := clearBit b.iiccon conIrqen
    iicstat := clearBit b.iicstat statStart
    trace := b.trace ++ [.stop] }

lemma pending_clearBit {k : Nat} (h : b.iiccon.getLsbD conIrqpend = false) :
    (clearBit b.iiccon k).getLsbD conIrqpend = false := by
  rw [getLsbD_clearBit (by decide), h, Bool.and_false]

/-- Releasing with a byte in the data register sends it. -/
lemma Ready.ack_write (h : b.Ready true) (byte : BitVec 8) :
    (b.pend.writeDs byte).ack = b.sent byte := by
  have hpend : b.pend.writeDs byte = (b.writeDs byte).pend := rfl
  rw [hpend, ack_pend (b := b.writeDs byte) h.pending]
  simp [perform, writeDs, sent, h.enabled, h.started, h.mode, h.startReq]

lemma Ready.ack_read (h : b.Ready false) (hack : b.iiccon.getLsbD conAcken)
    (nack : Bool) : (if nack then b.pend.disableAck else b.pend).ack = b.fetched nack := by
  cases nack with
  | false =>
    rw [if_neg Bool.false_ne_true, ack_pend h.pending]
    simp [perform, fetched, h.enabled, h.started, h.mode, h.startReq, hack]
  | true =>
    have hnack : (clearBit b.iiccon conAcken).getLsbD conAcken = false := by
      rw [getLsbD_clearBit (by decide)]
      rfl
    let b₁ : Bus := { b with iiccon := clearBit b.iiccon conAcken }
    rw [if_pos rfl, disableAck_pend, ack_pend (b := b₁) (pending_clearBit h.pending)]
    simp [b₁, perform, fetched, h.enabled, h.started, h.mode, h.startReq, hnack]

lemma Ready.ack_stop (h : b.Ready tx) :
    (b.pend.writeStat (clearBit b.pend.iicstat statStart)).disableIrq.ack = b.stopped := by
  have hstart : (clearBit b.iicstat statStart).getLsbD statStart = false := by
    rw [getLsbD_clearBit (by decide)]
    rfl
  have hen : (clearBit b.iicstat statStart).getLsbD statTxrxen := by
    rw [getLsbD_clearBit (by decide), h.enabled]
    rfl
  let b₁ : Bus := { b with iicstat := clearBit b.iicstat statStart }
  have hstat : b.pend.writeStat (clearBit b.pend.iicstat statStart) = b₁.pend := by
    simp [writeStat, pend, hstart, b₁, ← h.startReq]
  let b₂ : Bus := { b₁ with iiccon := clearBit b.iiccon conIrqen }
  rw [hstat, disableIrq_pend, ack_pend (b := b₂) (pending_clearBit h.pending)]
  simp [b₂, b₁, perform, stopped, hen, hstart]

lemma Ready.sent (h : b.Ready tx) (byte : BitVec 8) : (b.sent byte).Ready tx :=
  { h with }

lemma Ready.fetched (h : b.Ready tx) (nack : Bool) : (b.fetched nack).Ready tx := by
  refine { h with pending := ?_ }
  cases nack with
  | false => exact h.pending
  | true => exact pending_clearBit h.pending

def addressed (b : Bus) (m : Msg) : Bus :=
  { b with
    iiccon := setBit b.iiccon conAcken
    iicstat := m.busyStat
    iicds := Driver.addrByte m
    startReq := false
    trace := b.trace ++ [m.startEvent] }

variable {m : Msg}

lemma pending_setBit_acken (h : b.iiccon.getLsbD conIrqpend = false) :
    (setBit b.iiccon conAcken).getLsbD conIrqpend = false := by
  rw [getLsbD_setBit (by decide), h]
  rfl

lemma busyStat_bits (m : Msg) :
    m.busyStat.getLsbD statTxrxen ∧ m.busyStat.getLsbD statStart ∧
      m.busyStat.getLsbD statTransmit = !m.has mRd ∧ m.busyStat.getLsbD statLastbit = false := by
  rw [Msg.busyStat, Driver.startStat]
  cases m.has mRd <;> decide

lemma ready_addressed (h : b.iiccon.getLsbD conIrqpend = false) :
    (b.addressed m).Ready (!m.has mRd) := by
  obtain ⟨hen, hstart, hmode, hlast⟩ := busyStat_bits m
  exact ⟨pending_setBit_acken h, hen, hstart, hmode, hlast, rfl⟩

lemma acken_addressed : (b.addressed m).iiccon.getLsbD conAcken := by
  rw [addressed, getLsbD_setBit (by decide)]
  rfl

lemma startStat_start : (Driver.startStat m).getLsbD statStart = false := by
  rw [Driver.startStat]
  cases m.has mRd <;> decide

lemma perform_start (h : m.Plain) :
    ({ b with
        iiccon := setBit b.iiccon conAcken
        iicstat := m.busyStat
        iicds := Driver.addrByte m
        startReq := true } : Bus).perform = b.addressed m := by
  obtain ⟨hen, hstart, -, -⟩ := busyStat_bits m
  have hevent := addrByte_event h
  simp only [perform, hen, hstart]
  rw [hevent]
  rfl

end Bus

namespace Driver

variable {i : Driver} {b : Bus} {m : Msg}

lemma messageStart_idle (hm : m.Plain) (h : i.bus.iiccon.getLsbD conIrqpend = false) :
    i.messageStart m = { i with bus := i.bus.addressed m } := by
  have hcon := Bus.pending_setBit_acken h
  obtain ⟨-, hstart, -, -⟩ := Bus.busyStat_bits m
  rw [← Bus.perform_start hm, messageStart, Bus.enableAck, Bus.writeCon_hold (.inl h)]
  change ({ i with bus := Bus.writeStat _ m.busyStat } : Driver) = _
  simp [Bus.writeStat, Bus.startStat_start, Bus.writeDs, Bus.writeCon, hcon, hstart]

/-- A start in the handler happens when the interrupt is acknowledged. -/
lemma messageStart_pend (hm : m.Plain) (hb : i.bus = b.pend)
    (h : b.iiccon.getLsbD conIrqpend = false) :
    (i.messageStart m).outAck = { i with bus := b.addressed m } := by
  have hcon := Bus.pending_setBit_acken h
  obtain ⟨-, hstart, -, -⟩ := Bus.busyStat_bits m
  let b₁ : Bus := { b with
      iiccon := setBit b.iiccon conAcken
      iicstat := m.busyStat
      iicds := addrByte m
      startReq := true }
  have hbus : i.messageStart m = { i with bus := b₁.pend } := by
    have hpend : (setBit (setBit b.iiccon conAcken) conIrqpend).getLsbD conIrqpend :=
      Bus.getLsbD_pend (b := b₁)
    rw [messageStart, hb, Bus.enableAck_pend]
    change ({ i with bus := Bus.writeStat _ m.busyStat } : Driver) = _
    simp [Bus.writeStat, Bus.writeDs, Bus.writeCon, Bus.pend, hpend, hstart, b₁]
  rw [hbus, outAck, Bus.ack_pend (b := b₁) hcon, Bus.perform_start hm]

end Driver

end Mini2440.I2c
