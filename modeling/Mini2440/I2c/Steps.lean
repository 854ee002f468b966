import Mini2440.I2c.Controller

/-!
# What the interrupt handler does at a position

`At i k ptr m` says that the driver works on byte `ptr` of message `k`, which is `m`. The
lemmas compute each part of the handler at such a position, so that the results about whole
transfers need not unfold it.
-/

namespace Mini2440.I2c

open Library

namespace Driver

variable {i : Driver} {k ptr fuel : Nat} {m m' : Msg} {iicstat : BitVec 32}

lemma irq_of_start (h : i.state = .start) : i.irq = (i.startCase i.bus.iicstat).map outAck := by
  simp [irq, nextbyte, h]

lemma irq_of_write (h : i.state = .write) : i.irq = (i.writeCase i.bus.iicstat).map outAck := by
  simp [irq, nextbyte, h]

lemma irq_of_read (h : i.state = .read) : i.irq = i.readCase.map outAck := by
  simp [irq, nextbyte, h]

lemma irq_of_stop (h : i.state = .stop) :
    i.irq = .ok { i with bus := i.bus.disableIrq }.outAck := by
  simp [irq, nextbyte, h]

structure At (i : Driver) (k ptr : Nat) (m : Msg) : Prop where
  msg : i.msg = some k
  idx : i.msgIdx = k
  num : i.msgNum = i.msgs.length
  num_lt : i.msgs.length < 2 ^ 31
  get : i.msgs[k]? = some m
  ptr : i.msgPtr = ptr

namespace At

variable (h : i.At k ptr m)

include h

lemma lt : k < i.msgs.length := (List.getElem?_eq_some_iff.mp h.get).1

lemma curMsg : i.curMsg = .ok m := by
  simp [Driver.curMsg, h.msg, h.get]

lemma isLastmsg : i.isLastmsg = decide (k + 1 = i.msgs.length) := by
  have hlt := h.lt
  have hnum := h.num_lt
  simp only [Driver.isLastmsg, h.idx, h.num, decide_eq_decide]
  omega

lemma isMsgend : i.isMsgend m = decide (m.len ≤ ptr) := by
  simp [Driver.isMsgend, h.ptr]

lemma isMsglast (hle : ptr ≤ m.len) : i.isMsglast m = decide (ptr + 1 = m.len) := by
  have hlen : m.len < 2 ^ 16 := m.len_lt
  simp only [Driver.isMsglast, h.ptr, decide_eq_decide]
  omega

lemma congr {i' : Driver} (hmsg : i'.msg = i.msg) (hidx : i'.msgIdx = i.msgIdx)
    (hnum : i'.msgNum = i.msgNum) (hmsgs : i'.msgs = i.msgs) (hptr : i'.msgPtr = i.msgPtr) :
    i'.At k ptr m := by
  refine ⟨hmsg.trans h.msg, hidx.trans h.idx, ?_, ?_, ?_, hptr.trans h.ptr⟩
  · rw [hnum, hmsgs, h.num]
  · rw [hmsgs]; exact h.num_lt
  · rw [hmsgs]; exact h.get

lemma nextMsg (hm' : i.msgs[k + 1]? = some m') : i.nextMsg.At (k + 1) 0 m' :=
  ⟨by simp [Driver.nextMsg, h.msg], by simp [Driver.nextMsg, h.idx], h.num, h.num_lt, hm', rfl⟩

/-! ## Writing -/

lemma sent (bus : Bus) : ({ i with msgPtr := ptr + 1, bus := bus } : Driver).At k (ptr + 1) m :=
  { h with ptr := rfl }

lemma sendByte (hlt : ptr < m.len) :
    i.sendByte m =
      .ok { i with msgPtr := ptr + 1, bus := i.bus.writeDs (m.buf.get ⟨ptr, hlt⟩) } := by
  have hget : m.buf[ptr]? = some (m.buf.get ⟨ptr, hlt⟩) := List.getElem?_eq_getElem hlt
  simp [Driver.sendByte, h.ptr, hget]

lemma retryWrite_send (hlt : ptr < m.len) :
    i.retryWrite (fuel + 1) =
      .ok { i with msgPtr := ptr + 1, bus := i.bus.writeDs (m.buf.get ⟨ptr, hlt⟩) } := by
  have hend : ¬ m.len ≤ ptr := by omega
  rw [Driver.retryWrite, h.curMsg]
  simp only [bind, Except.bind, h.isMsgend, hend]
  exact h.sendByte hlt

lemma retryWrite_last (hend : m.len ≤ ptr) (hlast : k + 1 = i.msgs.length) :
    i.retryWrite (fuel + 1) = .ok (i.stop 0) := by
  rw [Driver.retryWrite, h.curMsg]
  simp [bind, Except.bind, h.isMsgend, hend, h.isLastmsg, hlast]

lemma retryWrite_next (hend : m.len ≤ ptr) (hm' : i.msgs[k + 1]? = some m') :
    i.retryWrite (fuel + 1) =
      if m'.has mNostart then
        if m'.has mRd then (i.nextMsg.stop (-EINVAL)).retryWrite fuel
        else i.nextMsg.retryWrite fuel
      else .ok { i.nextMsg.messageStart m' with state := .start } := by
  have hlt : k + 1 < i.msgs.length := (List.getElem?_eq_some_iff.mp hm').1
  have hlast : ¬ k + 1 = i.msgs.length := by omega
  rw [Driver.retryWrite, h.curMsg]
  simp [bind, Except.bind, h.isMsgend, hend, h.isLastmsg, hlast, (h.nextMsg hm').curMsg]

lemma writeCase :
    i.writeCase iicstat =
      if !m.has mIgnoreNak && iicstat.getLsbD statLastbit then .ok (i.stop (-ECONNREFUSED))
      else i.retryWrite (i.msgs.length + 1) := by
  rw [Driver.writeCase, h.curMsg]
  rfl

/-! ## Reading -/

lemma prepareRead_last (hend : ptr + 1 = m.len) :
    i.prepareRead =
      .ok (if k + 1 = i.msgs.length then { i with bus := i.bus.disableAck } else i) := by
  rw [Driver.prepareRead, h.curMsg]
  simp only [bind, Except.bind, h.isMsglast (by omega), h.isLastmsg, decide_eq_true_eq]
  split_ifs <;> rfl

lemma prepareRead_end (hend : ptr = m.len) :
    i.prepareRead = .ok (if k + 1 = i.msgs.length then i.stop 0 else i.nextMsg) := by
  have hlast : i.isMsglast m = false := by
    rw [h.isMsglast hend.le, decide_eq_false_iff_not]
    omega
  have hmsgend : i.isMsgend m := by
    rw [h.isMsgend, decide_eq_true_eq]
    exact hend.ge
  rw [Driver.prepareRead, h.curMsg]
  simp only [bind, Except.bind, hlast, Bool.false_eq_true, if_false, h.isLastmsg, decide_eq_true_eq]
  split_ifs <;> rfl

lemma prepareRead_more (hmore : ptr + 1 < m.len) : i.prepareRead = .ok i := by
  have hne : ¬ ptr + 1 = m.len := by omega
  have hend : ¬ m.len ≤ ptr := by omega
  rw [Driver.prepareRead, h.curMsg]
  simp [bind, Except.bind, h.isMsglast (by omega), hne, h.isMsgend, hend]

lemma storeByte (hlt : ptr < m.len) :
    i.storeByte =
      .ok { i with msgs := i.msgs.set k (m.store ptr i.bus.iicds), msgPtr := ptr + 1 } := by
  simp [Driver.storeByte, h.msg, h.get, h.ptr, hlt]

lemma storeByte_error (hend : m.len ≤ ptr) : i.storeByte = .error .bufIndex := by
  have hlt : ¬ ptr < m.len := by omega
  simp [Driver.storeByte, h.msg, h.get, h.ptr, hlt]

lemma stored (byte : BitVec 8) :
    ({ i with msgs := i.msgs.set k (m.store ptr byte), msgPtr := ptr + 1 } : Driver).At k (ptr + 1)
      (m.store ptr byte) := by
  refine ⟨h.msg, h.idx, by simpa using h.num, by simpa using h.num_lt, ?_, rfl⟩
  simp [h.lt]

/-! ## Starting -/

lemma startCase :
    i.startCase iicstat =
      if iicstat.getLsbD statLastbit && !m.has mIgnoreNak then .ok (i.stop (- ENXIO))
      else if k + 1 = i.msgs.length ∧ m.len = 0 then
        .ok ({ i with state := if m.has mRd then .read else .write }.stop 0)
      else if m.has mRd then { i with state := .read }.prepareRead
      else { i with state := .write }.writeCase iicstat := by
  have hat : ({ i with state := if m.has mRd then .read else .write } : Driver).At k ptr m :=
    h.congr rfl rfl rfl rfl rfl
  rw [Driver.startCase, h.curMsg]
  simp only [bind, Except.bind, hat.isLastmsg]
  cases m.has mRd <;> simp

end At

end Driver

end Mini2440.I2c
