import Mini2440.I2c.Release
import Mini2440.I2c.Steps

/-!
# The trace of a transfer

What a transfer of plain messages puts on the bus and into the buffers, when the slave
acknowledges every byte. `expectedTrace` says what the messages ask for, and `driverTrace` what
the driver does with them. They differ when a read message is not the last one: the driver then
never starts another message and reads the bytes of all the messages that follow.
-/

namespace Mini2440.I2c

open List Library

/-! ## What the messages ask for -/

/-- The bytes that the slave sends from the `n`-th one on. -/
def received (slave : Nat → BitVec 8) (n len : Nat) : List (BitVec 8) :=
  (range len).map fun j => slave (n + j)

/-- The events of a message. The last byte of the last message is not acknowledged. -/
def Msg.events (slave : Nat → BitVec 8) (n : Nat) (last : Bool) (m : Msg) : List BusEvent :=
  m.startEvent ::
    if m.has mRd then
      (range m.len).map fun j => .read (slave (n + j)) (!(last && j + 1 == m.len))
    else m.buf.map .write

def expectedTrace (slave : Nat → BitVec 8) : Nat → List Msg → List BusEvent
  | _, [] => [.stop]
  | n, m :: ms =>
    m.events slave n ms.isEmpty ++ expectedTrace slave (if m.has mRd then n + m.len else n) ms

def expectedBufs (slave : Nat → BitVec 8) : Nat → List Msg → List (List (BitVec 8))
  | _, [] => []
  | n, m :: ms =>
    (if m.has mRd then received slave n m.len else m.buf) ::
      expectedBufs slave (if m.has mRd then n + m.len else n) ms

/-! ## What the driver does -/

/-- The next `r` bytes of a message. The driver does not acknowledge the last one of the last
message, if it has checked for it, which it does not for the first byte of a message that it
enters from another one. -/
def readBytes (slave : Nat → BitVec 8) (last : Bool) : Nat → Bool → Nat → List BusEvent
  | _, _, 0 => []
  | n, checked, r + 1 =>
    .read (slave n) (!(last && checked && r == 0)) :: readBytes slave last (n + 1) true r

def readTail (slave : Nat → BitVec 8) : Nat → List Msg → List BusEvent
  | _, [] => [.stop]
  | n, m :: ms => readBytes slave ms.isEmpty n false m.len ++ readTail slave (n + m.len) ms

def readTailBufs (slave : Nat → BitVec 8) : Nat → List Msg → List (List (BitVec 8))
  | _, [] => []
  | n, m :: ms => received slave n m.len :: readTailBufs slave (n + m.len) ms

def driverTrace (slave : Nat → BitVec 8) : Nat → List Msg → List BusEvent
  | _, [] => [.stop]
  | n, m :: ms =>
    m.startEvent ::
      if m.has mRd then readBytes slave ms.isEmpty n true m.len ++ readTail slave (n + m.len) ms
      else m.buf.map .write ++ driverTrace slave n ms

def driverBufs (slave : Nat → BitVec 8) : Nat → List Msg → List (List (BitVec 8))
  | _, [] => []
  | n, m :: ms =>
    if m.has mRd then received slave n m.len :: readTailBufs slave (n + m.len) ms
    else m.buf :: driverBufs slave n ms

variable {slave : Nat → BitVec 8} {n : Nat} {l : List Msg}

lemma received_succ (len : Nat) :
    received slave n (len + 1) = slave n :: received slave (n + 1) len := by
  simp [received, range_succ_eq_map, add_assoc, add_comm 1]

def ReadsLast (l : List Msg) : Prop :=
  ∀ k m, l[k]? = some m → m.has mRd = true → k + 1 = l.length

lemma readsLast_cons {m : Msg} {ms : List Msg} :
    ReadsLast (m :: ms) ↔ (m.has mRd → ms = []) ∧ ReadsLast ms := by
  constructor
  · intro h
    refine ⟨fun hr => ?_, fun k m' hk hr => ?_⟩
    · simpa using h 0 m rfl hr
    · simpa using h (k + 1) m' hk hr
  · rintro ⟨hhead, htail⟩ k m' hk hr
    cases k with
    | zero =>
      obtain rfl : m = m' := by simpa using hk
      simp [hhead hr]
    | succ k => simpa using htail k m' hk hr

lemma readBytes_eq (last : Bool) (len : Nat) :
    readBytes slave last n true len =
      (range len).map fun j => .read (slave (n + j)) (!(last && j + 1 == len)) := by
  induction len generalizing n with
  | zero => rfl
  | succ len ih =>
    have hzero : (0 + 1 == len + 1) = (len == 0) := beq_eq_beq.mpr (by omega)
    rw [readBytes, ih, range_succ_eq_map, map_cons, map_map, hzero, Bool.and_true]
    refine congrArg _ (map_congr_left fun j _ => ?_)
    have hstep : (j + 1 == len) = (Nat.succ j + 1 == len + 1) := beq_eq_beq.mpr (by omega)
    simp only [Function.comp_apply, ← hstep, Nat.succ_eq_add_one, Nat.add_assoc, Nat.add_comm 1]

/-- For such lists the driver does what the messages ask for. -/
lemma driver_eq_expected (h : ReadsLast l) :
    driverTrace slave n l = expectedTrace slave n l ∧
      driverBufs slave n l = expectedBufs slave n l := by
  induction l with
  | nil => exact ⟨rfl, rfl⟩
  | cons m ms ih =>
    rw [readsLast_cons] at h
    rw [driverTrace, expectedTrace, Msg.events, driverBufs, expectedBufs]
    cases hr : m.has mRd with
    | true => simp [h.1 hr, readTail, readTailBufs, readBytes_eq, expectedTrace, expectedBufs]
    | false => simp [ih h.2]

def BusEvent.isStart : BusEvent → Bool
  | .start .. => true
  | _ => false

def starts (trace : List BusEvent) : Nat := trace.countP BusEvent.isStart

lemma starts_append (a b : List BusEvent) : starts (a ++ b) = starts a + starts b := countP_append

lemma starts_events (last : Bool) (m : Msg) : starts (m.events slave n last) = 1 := by
  rw [starts, Msg.events, countP_cons_of_pos rfl, add_eq_right]
  split_ifs <;> simp [BusEvent.isStart]

lemma starts_expectedTrace : starts (expectedTrace slave n l) = l.length := by
  induction l generalizing n with
  | nil => rfl
  | cons m ms ih =>
    rw [expectedTrace, starts_append, starts_events, ih, length_cons, add_comm]

lemma starts_readBytes (last checked : Bool) (r : Nat) :
    starts (readBytes slave last n checked r) = 0 := by
  induction r generalizing n checked with
  | zero => rfl
  | succ r ih =>
    exact ih true

lemma starts_readTail : starts (readTail slave n l) = 0 := by
  induction l generalizing n with
  | nil => rfl
  | cons m ms ih =>
    rw [readTail, starts_append, starts_readBytes, ih]

/-- A read message that is not the last one costs the starts of the messages after it. -/
lemma readsLast_of_starts (h : starts (driverTrace slave n l) = l.length) : ReadsLast l := by
  induction l with
  | nil =>
    intro k m hk
    cases hk
  | cons m ms ih =>
    have hwrites : starts (m.buf.map .write) = 0 := by
      rw [starts]
      simp [BusEvent.isStart]
    rw [driverTrace, starts, countP_cons_of_pos rfl, ← starts, length_cons] at h
    rw [readsLast_cons]
    cases hr : m.has mRd with
    | true =>
      rw [hr, if_pos rfl, starts_append, starts_readBytes, starts_readTail] at h
      have hnil : ms = [] := length_eq_zero_iff.mp (by omega)
      subst hnil
      exact ⟨fun _ => rfl, fun k m' hk => by cases hk⟩
    | false =>
      rw [hr, if_neg Bool.false_ne_true, starts_append] at h
      exact ⟨fun hr' => absurd hr' Bool.false_ne_true, ih (by omega)⟩

namespace Driver

variable {i s : Driver} {done todo : List Msg} {m m' : Msg} {ptr r : Nat} {tx : Bool}
  {trace : List BusEvent}

/-- The driver works on byte `ptr` of `m`, between the messages `done` and `todo`, and the
controller has finished an operation. -/
structure Going (i : Driver) (done : List Msg) (m : Msg) (todo : List Msg) (ptr : Nat)
    (tx : Bool) : Prop where
  quirks : i.quirks &&& quirkHdmiphy = 0
  msg : i.msg = some done.length
  idx : i.msgIdx = done.length
  num : i.msgNum = i.msgs.length
  num_lt : i.msgs.length < 2 ^ 31
  msgs : i.msgs = done ++ m :: todo
  ptr : i.msgPtr = ptr
  ready : i.bus.Ready tx

structure Finished (s : Driver) (num : Nat) (trace : List BusEvent)
    (bufs : List (List (BitVec 8))) : Prop where
  complete : s.msgNum = 0
  idx : s.msgIdx = num
  trace : s.bus.trace = trace
  bufs : s.msgs.map Msg.buf = bufs
  rest : s.bus.iiccon.getLsbD conIrqpend = false

lemma Finished.congr {num num' : Nat} {trace' : List BusEvent}
    {bufs bufs' : List (List (BitVec 8))} (h : s.Finished num trace bufs) (hnum : num = num')
    (htrace : trace = trace') (hbufs : bufs = bufs') : s.Finished num' trace' bufs' := by
  subst hnum htrace hbufs
  exact h

def completed (i : Driver) : Driver :=
  { i with
    state := .stop
    msgPtr := 0
    msg := none
    msgNum := 0
    msgIdx := i.msgIdx + 1
    bus := i.bus.stopped }

def stored (i : Driver) (k ptr : Nat) (m : Msg) : Driver :=
  { i with msgs := i.msgs.set k (m.store ptr i.bus.iicds), msgPtr := ptr + 1 }

@[simp] lemma bus_stored (k : Nat) : (stored i k ptr m).bus = i.bus := rfl

@[simp] lemma bus_nextMsg : i.nextMsg.bus = i.bus := rfl

namespace Going

section

variable (h : i.Going done m todo ptr tx)

include h

lemma pos (state : State) (bus : Bus) :
    ({ i with state := state, bus := bus } : Driver).At done.length ptr m :=
  ⟨h.msg, h.idx, h.num, h.num_lt, by simp [h.msgs], h.ptr⟩

lemma serve_eq : i.serve = irq { i with bus := i.bus.pend } := by
  have hne : i.msgNum ≠ 0 := by simp [h.num, h.msgs]
  rw [serve, if_neg hne]

lemma last_iff : done.length + 1 = i.msgs.length ↔ todo = [] := by
  rw [h.msgs, ← length_eq_zero_iff]
  simp only [length_append, length_cons]
  omega

omit h in
lemma next (h : i.Going done m (m' :: todo) ptr tx) : i.msgs[done.length + 1]? = some m' := by
  simp [h.msgs]

lemma stop (state : State) :
    ({ i with state := state, bus := i.bus.pend }.stop 0).outAck = i.completed := by
  rw [completed, ← h.ready.ack_stop]
  simp [Driver.stop, masterComplete, outAck, h.quirks]

omit h in
lemma finished (h : i.Going done m [] ptr tx) :
    i.completed.Finished (done.length + 1) (i.bus.trace ++ [.stop]) (i.msgs.map Msg.buf) :=
  ⟨rfl, congrArg (· + 1) h.idx, rfl, rfl, Bus.pending_clearBit h.ready.pending⟩

/-! ### Writing -/

lemma sent (byte : BitVec 8) :
    ({ i with state := .write, msgPtr := ptr + 1, bus := i.bus.sent byte } : Driver).Going done m
      todo (ptr + 1) tx :=
  { h with ptr := rfl, ready := h.ready.sent byte }

end

section

variable (hm : m.Plain) (hw : m.has mRd = false)

include hm hw

lemma serve_write (h : i.Going done m todo ptr true) (hs : i.state = .start ∨ i.state = .write) :
    i.serve =
      ({ i with state := .write, bus := i.bus.pend }.retryWrite (i.msgs.length + 1)).map
        outAck := by
  have hlen : m.len ≠ 0 := hm.len_pos.ne'
  have hack : i.bus.pend.iicstat.getLsbD statLastbit = false := h.ready.acked
  have hcase : ({ i with state := .write, bus := i.bus.pend } : Driver).writeCase
      i.bus.pend.iicstat =
        { i with state := .write, bus := i.bus.pend }.retryWrite (i.msgs.length + 1) := by
    rw [(h.pos .write i.bus.pend).writeCase, hack, Bool.and_false, if_neg Bool.false_ne_true]
  rw [h.serve_eq]
  obtain hs | hs := hs
  · rw [irq_of_start (i := { i with bus := i.bus.pend }) hs, (h.pos i.state i.bus.pend).startCase,
      hack, Bool.false_and, if_neg Bool.false_ne_true, if_neg (fun hzero => hlen hzero.2), hw,
      if_neg Bool.false_ne_true, hcase]
  · rw [irq_of_write (i := { i with bus := i.bus.pend }) hs, ← hcase, ← hs]

lemma serve_byte (h : i.Going done m todo ptr true)
    (hs : i.state = .start ∨ i.state = .write) (hlt : ptr < m.len) :
    i.serve =
      .ok { i with
        state := .write
        msgPtr := ptr + 1
        bus := i.bus.sent (m.buf.get ⟨ptr, hlt⟩) } := by
  rw [h.serve_write hm hw hs, (h.pos .write i.bus.pend).retryWrite_send hlt]
  simp [Except.map, outAck, h.ready.ack_write]

lemma writes (h : i.Going done m todo ptr true)
    (hs : i.state = .write ∨ i.state = .start ∧ ptr < m.len) (hle : ptr ≤ m.len) :
    ∃ s, Leads serve i s ∧ s.Going done m todo m.len true ∧ s.state = .write ∧
      s.bus.trace = i.bus.trace ++ (m.buf.drop ptr).map .write ∧ s.bus.slave = i.bus.slave ∧
      s.bus.received = i.bus.received := by
  induction hr : m.len - ptr generalizing i ptr with
  | zero =>
    obtain rfl : ptr = m.len := by omega
    have hstate : i.state = .write := hs.resolve_right fun hlt => absurd hlt.2 (lt_irrefl _)
    exact ⟨i, .refl i, h, hstate, by simp [Msg.len], rfl, rfl⟩
  | succ r ih =>
    have hlt : ptr < m.len := by omega
    have hstep := h.serve_byte hm hw (hs.symm.imp_left And.left) hlt
    have hgoing := h.sent (m.buf.get ⟨ptr, hlt⟩)
    obtain ⟨s, hlead, hs', hstate, htrace, hslave, hrecv⟩ := ih hgoing (.inl rfl) hlt (by omega)
    refine ⟨s, .step hstep hlead, hs', hstate, ?_, hslave, hrecv⟩
    rw [htrace, drop_eq_getElem_cons hlt]
    simp only [Bus.sent, append_assoc]
    rfl

lemma serve_next (h : i.Going done m (m' :: todo) m.len true) (hs : i.state = .write)
    (hm' : m'.Plain) :
    i.serve = .ok { i.nextMsg with state := .start, bus := i.bus.addressed m' } := by
  have hpos := h.pos .write i.bus.pend
  rw [h.serve_write hm hw (.inr hs), hpos.retryWrite_next (le_refl _) h.next, hm'.nostart]
  have hstart := messageStart_pend (i := { i.nextMsg with state := .write, bus := i.bus.pend })
    hm' rfl h.ready.pending
  exact congrArg (fun j : Driver => Except.ok { j with state := .start }) hstart

lemma serve_last (h : i.Going done m [] m.len true) (hs : i.state = .write) :
    i.serve = .ok i.completed := by
  have hpos := h.pos .write i.bus.pend
  rw [h.serve_write hm hw (.inr hs), hpos.retryWrite_last (le_refl _) (h.last_iff.mpr rfl)]
  exact congrArg Except.ok (h.stop .write)

end

/-! ### Reading -/

lemma nextMsg (h : i.Going done m (m' :: todo) ptr tx) :
    i.nextMsg.Going (done ++ [m]) m' todo 0 tx := by
  refine ⟨h.quirks, ?_, ?_, h.num, h.num_lt, ?_, rfl, h.ready⟩
  · simp [Driver.nextMsg, h.msg]
  · simp [Driver.nextMsg, h.idx]
  · simp [Driver.nextMsg, h.msgs]

lemma fetched (h : i.Going done m todo ptr tx) (state : State) (nack : Bool) :
    ({ i with state := state, bus := i.bus.fetched nack } : Driver).Going done m todo ptr tx :=
  { h with ready := h.ready.fetched nack }

/-- From the label `prepare_read` on, with room for another byte: the last byte of the last
message is not acknowledged. -/
lemma prepareRead (h : i.Going done m todo ptr false) (state : State) (hlt : ptr < m.len)
    (hack : i.bus.iiccon.getLsbD conAcken) :
    ({ i with state := state, bus := i.bus.pend }.prepareRead).map outAck =
      .ok { i with
        state := state, bus := i.bus.fetched (todo.isEmpty && ptr + 1 == m.len) } := by
  have hpos := h.pos state i.bus.pend
  rw [← h.ready.ack_read hack]
  by_cases hend : ptr + 1 = m.len
  · rw [hpos.prepareRead_last hend]
    by_cases hlast : todo = []
    · rw [if_pos (h.last_iff.mpr hlast)]
      simp [Except.map, outAck, hlast, hend]
    · rw [if_neg (fun heq => hlast (h.last_iff.mp heq))]
      simp [Except.map, outAck, hlast]
  · rw [hpos.prepareRead_more (by omega)]
    simp [Except.map, outAck, hend]

lemma serve_read_start (h : i.Going done m todo 0 false) (hm : m.Plain) (hr : m.has mRd)
    (hs : i.state = .start) (hack : i.bus.iiccon.getLsbD conAcken) :
    i.serve =
      .ok { i with
        state := .read, bus := i.bus.fetched (todo.isEmpty && 0 + 1 == m.len) } := by
  have hlen : m.len ≠ 0 := hm.len_pos.ne'
  have hlast : i.bus.pend.iicstat.getLsbD statLastbit = false := h.ready.acked
  rw [← h.prepareRead .read hm.len_pos hack, h.serve_eq,
    irq_of_start (i := { i with bus := i.bus.pend }) hs, (h.pos i.state i.bus.pend).startCase,
    hlast, Bool.false_and, if_neg Bool.false_ne_true, if_neg (fun hzero => hlen hzero.2), hr,
    if_pos rfl]

lemma store (h : i.Going done m todo ptr tx) :
    (stored i done.length ptr m).Going done (m.store ptr i.bus.iicds) todo (ptr + 1) tx := by
  refine ⟨h.quirks, h.msg, h.idx, ?_, ?_, ?_, rfl, h.ready⟩
  · simpa [stored] using h.num
  · simpa [stored] using h.num_lt
  · simp [stored, h.msgs]

lemma serve_read (h : i.Going done m todo ptr false) (hs : i.state = .read) (hlt : ptr < m.len) :
    i.serve = ({ stored i done.length ptr m with bus := i.bus.pend }.prepareRead).map outAck := by
  have hstore := (h.pos i.state i.bus.pend).storeByte hlt
  rw [h.serve_eq, irq_of_read (i := { i with bus := i.bus.pend }) hs, readCase, hstore]
  rfl

lemma serve_read_more (h : i.Going done m todo ptr false) (hs : i.state = .read)
    (hlt : ptr + 1 < m.len) (hack : i.bus.iiccon.getLsbD conAcken) :
    i.serve =
      .ok { stored i done.length ptr m with
        bus := i.bus.fetched (todo.isEmpty && ptr + 1 + 1 == m.len) } := by
  have hroom : ptr + 1 < (m.store ptr i.bus.iicds).len := by
    rw [Msg.len_store]
    exact hlt
  have hprep := h.store.prepareRead i.state hroom hack
  rw [Msg.len_store] at hprep
  rw [h.serve_read hs (by omega)]
  exact hprep

lemma serve_read_next (h : i.Going done m (m' :: todo) ptr false) (hs : i.state = .read)
    (hend : ptr + 1 = m.len) (hack : i.bus.iiccon.getLsbD conAcken) :
    i.serve = .ok { (stored i done.length ptr m).nextMsg with bus := i.bus.fetched false } := by
  have hpos := h.store.pos i.state i.bus.pend
  have hlast : ¬ done.length + 1 = (stored i done.length ptr m).msgs.length := by
    rw [h.store.last_iff]
    exact cons_ne_nil _ _
  rw [h.serve_read hs (by omega), ← h.ready.ack_read hack]
  exact congrArg (Except.map outAck)
    ((hpos.prepareRead_end (by rw [Msg.len_store]; exact hend)).trans
      (congrArg Except.ok (if_neg hlast)))

lemma serve_read_last (h : i.Going done m [] ptr false) (hs : i.state = .read)
    (hend : ptr + 1 = m.len) : i.serve = .ok (stored i done.length ptr m).completed := by
  have hpos := h.store.pos i.state i.bus.pend
  have hlast := h.store.last_iff.mpr rfl
  rw [h.serve_read hs (by omega), ← h.store.stop i.state]
  exact congrArg (Except.map outAck)
    ((hpos.prepareRead_end (by rw [Msg.len_store]; exact hend)).trans
      (congrArg Except.ok (if_pos hlast)))

lemma take_store (hlt : ptr < m.len) (byte : BitVec 8) :
    (m.store ptr byte).buf.take (ptr + 1) = m.buf.take ptr ++ [byte] := by
  have hget : (m.store ptr byte).buf[ptr]? = some byte := getElem?_set_self hlt
  rw [take_add_one, hget, Msg.store, take_set_of_le (le_refl ptr)]
  rfl

lemma buf_store (hend : ptr + 1 = m.len) (byte : BitVec 8) :
    (m.store ptr byte).buf = m.buf.take ptr ++ [byte] := by
  rw [← take_store (by omega), hend, ← Msg.len_store m ptr byte]
  exact take_length.symm

/-- The bytes of a message are received and stored in order, up to the last one. -/
lemma reads_message (h : i.Going done m todo ptr false) (hs : i.state = .read)
    (hlen : ptr + 1 + r = m.len) (hack : i.bus.iiccon.getLsbD conAcken ∨ todo = [] ∧ r = 0) :
    ∃ s m' k, Leads serve i s ∧ s.Going done m' todo k false ∧ s.state = .read ∧
      k + 1 = m'.len ∧ (s.bus.iiccon.getLsbD conAcken ∨ todo = []) ∧
      s.bus.trace = i.bus.trace ++ readBytes i.bus.slave todo.isEmpty i.bus.received true r ∧
      s.bus.slave = i.bus.slave ∧ s.bus.received = i.bus.received + r ∧
      m'.buf.take k ++ [s.bus.iicds] =
        m.buf.take ptr ++ i.bus.iicds :: received i.bus.slave i.bus.received r := by
  induction r generalizing i m ptr with
  | zero =>
    refine ⟨i, m, ptr, .refl i, h, hs, hlen, hack.imp_right And.left, ?_, rfl, rfl, rfl⟩
    rw [readBytes, append_nil]
  | succ r ih =>
    have hack' : i.bus.iiccon.getLsbD conAcken := by
      obtain hack | ⟨-, hzero⟩ := hack
      · exact hack
      · cases hzero
    have hlt : ptr + 1 < m.len := by omega
    have hstep := h.serve_read_more hs hlt hack'
    generalize hnack : (todo.isEmpty && ptr + 1 + 1 == m.len) = nack at hstep
    have hgoing := h.store.fetched i.state nack
    have hlen' : ptr + 1 + 1 + r = (m.store ptr i.bus.iicds).len := by
      rw [Msg.len_store]
      omega
    obtain ⟨s, m', k, hlead, hs', hstate, hk, hacks, htrace, hslave, hrecv, hbuf⟩ :=
      ih hgoing hs hlen' (by
        cases nack with
        | false => exact .inl hack'
        | true =>
          simp only [Bool.and_eq_true, List.isEmpty_iff, beq_iff_eq] at hnack
          exact .inr ⟨hnack.1, by omega⟩)
    refine ⟨s, m', k, .step hstep hlead, hs', hstate, hk, hacks, ?_, hslave, ?_, ?_⟩
    · have hlast : (todo.isEmpty && true && r == 0) = nack := by
        rw [← hnack, Bool.and_true, beq_eq_beq.mpr (show r = 0 ↔ ptr + 1 + 1 = m.len by omega)]
      rw [htrace, readBytes, hlast]
      simp [Bus.fetched]
    · rw [hrecv]
      simp only [Bus.fetched, stored]
      omega
    · rw [hbuf, take_store (by omega), received_succ]
      simp [Bus.fetched]

/-- Once reading, the driver reads to the end of the list. -/
lemma reads (h : i.Going done m todo ptr false) (hs : i.state = .read) (hlen : ptr + 1 + r = m.len)
    (hack : i.bus.iiccon.getLsbD conAcken ∨ todo = [] ∧ r = 0) (hplain : ∀ m' ∈ todo, m'.Plain) :
    ∃ s, Leads serve i s ∧ s.Finished (done.length + 1 + todo.length)
      (i.bus.trace ++ (readBytes i.bus.slave todo.isEmpty i.bus.received true r ++
        readTail i.bus.slave (i.bus.received + r) todo))
      (done.map Msg.buf ++
        (m.buf.take ptr ++ i.bus.iicds :: received i.bus.slave i.bus.received r) ::
          readTailBufs i.bus.slave (i.bus.received + r) todo) := by
  induction todo generalizing i done m ptr r with
  | nil =>
    obtain ⟨s, m', k, hlead, hgoing, hstate, hk, -, htrace, -, -, hbuf⟩ :=
      h.reads_message hs hlen hack
    refine ⟨_, hlead.trans (.single (hgoing.serve_read_last hstate hk)), ?_⟩
    have hfin := hgoing.store.finished
    rw [hgoing.store.msgs, map_append, map_cons, buf_store hk, hbuf] at hfin
    rw [← append_assoc, ← htrace]
    exact hfin
  | cons m₁ todo ih =>
    obtain ⟨s, m', k, hlead, hgoing, hstate, hk, hacks, htrace, hslave, hrecv, hbuf⟩ :=
      h.reads_message hs hlen hack
    have hacks := hacks.resolve_right (cons_ne_nil _ _)
    have hstep := hgoing.serve_read_next hstate hk hacks
    have hnext := hgoing.store.nextMsg.fetched s.state false
    obtain ⟨r₁, hr₁⟩ : ∃ r₁, m₁.len = r₁ + 1 :=
      ⟨m₁.len - 1, by have := (hplain m₁ mem_cons_self).len_pos; omega⟩
    obtain ⟨s', hlead', hfin⟩ := ih hnext hstate (r := r₁) (by omega) (.inl hacks)
      fun m' hm' => hplain m' (mem_cons_of_mem _ hm')
    refine ⟨s', hlead.trans (.step hstep hlead'), ?_⟩
    refine hfin.congr ?_ ?_ ?_
    · simp only [length_append, length_cons, length_nil]
      omega
    · simp [Bus.fetched, htrace, hslave, hrecv, readTail, hr₁, readBytes, add_assoc, add_comm 1]
    · simp [Bus.fetched, buf_store hk, hbuf, hslave, hrecv, readTailBufs, hr₁, received_succ,
        add_assoc, add_comm 1]

end Going

/-! ## The whole transfer -/

lemma Going.finish_read (h : i.Going done m todo 0 false) (hr : m.has mRd) (hs : i.state = .start)
    (hack : i.bus.iiccon.getLsbD conAcken) (hplain : ∀ m' ∈ m :: todo, m'.Plain)
    (htrace : i.bus.trace = trace ++ [m.startEvent]) :
    ∃ s, Leads serve i s ∧ s.Finished (done.length + 1 + todo.length)
      (trace ++ driverTrace i.bus.slave i.bus.received (m :: todo))
      (done.map Msg.buf ++ driverBufs i.bus.slave i.bus.received (m :: todo)) := by
  have hm : m.Plain := hplain m mem_cons_self
  obtain ⟨r, hlen⟩ : ∃ r, m.len = r + 1 := ⟨m.len - 1, by have := hm.len_pos; omega⟩
  have hstep := h.serve_read_start hm hr hs hack
  have hlast : (todo.isEmpty && 0 + 1 == m.len) = (todo.isEmpty && true && r == 0) := by
    rw [hlen, Bool.and_true, beq_eq_beq.mpr (show r = 0 ↔ 0 + 1 = r + 1 by omega)]
  rw [hlast] at hstep
  generalize hnack : (todo.isEmpty && true && r == 0) = nack at hstep
  have hacks : (i.bus.fetched nack).iiccon.getLsbD conAcken ∨ todo = [] ∧ r = 0 := by
    cases nack with
    | false => exact .inl hack
    | true => exact .inr (by simpa using hnack)
  obtain ⟨s, hlead, hfin⟩ := (h.fetched .read nack).reads rfl (r := r) (by omega) hacks
    fun m' hm' => hplain m' (mem_cons_of_mem _ hm')
  refine ⟨s, .step hstep hlead, hfin.congr rfl ?_ ?_⟩
  · simp [Bus.fetched, htrace, driverTrace, hr, hlen, readBytes, ← hnack, add_assoc, add_comm 1]
  · simp [Bus.fetched, driverBufs, hr, hlen, received_succ, add_assoc, add_comm 1]

lemma Going.finish (h : i.Going done m todo 0 (!m.has mRd))
    (hs : i.state = .start) (hack : i.bus.iiccon.getLsbD conAcken)
    (hplain : ∀ m' ∈ m :: todo, m'.Plain) (htrace : i.bus.trace = trace ++ [m.startEvent]) :
    ∃ s, Leads serve i s ∧ s.Finished (done.length + 1 + todo.length)
      (trace ++ driverTrace i.bus.slave i.bus.received (m :: todo))
      (done.map Msg.buf ++ driverBufs i.bus.slave i.bus.received (m :: todo)) := by
  induction todo generalizing i done m trace <;> cases hr : m.has mRd <;> rw [hr] at h
  case nil.true | cons.true => exact h.finish_read hr hs hack hplain htrace
  all_goals
    have hm : m.Plain := hplain m mem_cons_self
    obtain ⟨s, hlead, hs', hstate, htrace', hslave, hrecv⟩ :=
      h.writes hm hr (.inr ⟨hs, hm.len_pos⟩) (Nat.zero_le _)
  case nil.false =>
    refine ⟨_, hlead.trans (.single (hs'.serve_last hm hr hstate)), hs'.finished.congr rfl ?_ ?_⟩
    · simp [htrace', htrace, driverTrace, hr]
    · simp [hs'.msgs, driverBufs, hr]
  case cons.false m₁ todo ih =>
    have hm₁ : m₁.Plain := hplain m₁ (by simp)
    have hnext := hs'.nextMsg
    have hgoing : ({ s.nextMsg with state := .start, bus := s.bus.addressed m₁ } : Driver).Going
        (done ++ [m]) m₁ todo 0 (!m₁.has mRd) :=
      { hnext with ready := Bus.ready_addressed hs'.ready.pending }
    obtain ⟨s', hlead', hfin⟩ := ih hgoing rfl Bus.acken_addressed
      (fun m' hm' => hplain m' (mem_cons_of_mem _ hm')) rfl
    refine ⟨s', hlead.trans (.step (hs'.serve_next hm hr hstate hm₁) hlead'), hfin.congr ?_ ?_ ?_⟩
    · simp only [length_append, length_cons, length_nil]
      omega
    · simp [htrace', htrace, hslave, hrecv, Bus.addressed, driverTrace, hr]
    · simp [hslave, hrecv, Bus.addressed, driverBufs, hr]

/-- The transfer of the messages is complete: the bus shows the events that they ask for, their
buffers hold the received bytes, and the result is their number. -/
structure Transferred (bus : Bus) (l : List Msg) (s : Driver) : Prop where
  complete : s.msgNum = 0
  trace : s.bus.trace = bus.trace ++ expectedTrace bus.slave bus.received l
  bufs : s.msgs.map Msg.buf = expectedBufs bus.slave bus.received l
  result : s.result = l.length

lemma serve_of_complete (h : s.msgNum = 0) : s.serve = .ok s := by
  rw [serve, if_pos h]

section

variable {quirks : BitVec 32} {bus : Bus} {x : Msgs} (hq : quirks &&& quirkHdmiphy = 0)
  (hbus : bus.iiccon.getLsbD conIrqpend = false) (hne : x.list ≠ [])
  (hplain : ∀ m ∈ x.list, m.Plain)

include hq hbus hne hplain

/-- What the driver does with any list of plain messages. -/
lemma begin_finish :
    ∃ s, Leads serve (begin quirks bus x) s ∧ s.Finished x.list.length
      (bus.trace ++ driverTrace bus.slave bus.received x.list)
      (driverBufs bus.slave bus.received x.list) := by
  obtain ⟨m, ms, hx⟩ := exists_cons_of_ne_nil hne
  have hnum := x.num_lt
  rw [hx] at hplain hnum ⊢
  have hpend : (setBit bus.iiccon conIrqen).getLsbD conIrqpend = false := by
    rw [getLsbD_setBit (by decide), hbus]
    rfl
  have hirq : bus.enableIrq = { bus with iiccon := setBit bus.iiccon conIrqen } :=
    Bus.writeCon_hold (.inl hbus)
  have hbegin : begin quirks bus x =
      { quirks, msgs := m :: ms, msg := some 0, msgNum := (m :: ms).length, msgIdx := 0, msgPtr := 0
        state := .start, bus := bus.enableIrq.addressed m } := by
    rw [begin, hx]
    exact messageStart_idle (hplain m mem_cons_self) (by rw [hirq]; exact hpend)
  have hgoing : (begin quirks bus x).Going [] m ms 0 (!m.has mRd) := by
    rw [hbegin, hirq]
    exact ⟨hq, rfl, rfl, rfl, hnum, rfl, rfl, Bus.ready_addressed hpend⟩
  have htrace : (begin quirks bus x).bus.trace = bus.trace ++ [m.startEvent] := by
    rw [hbegin, hirq]
    rfl
  obtain ⟨s, hlead, hfin⟩ := hgoing.finish (by rw [hbegin])
    (by rw [hbegin]; exact Bus.acken_addressed) hplain htrace
  refine ⟨s, hlead, hfin.congr ?_ ?_ ?_⟩
  · simp only [length_nil, length_cons]
    omega
  · rw [hbegin, hirq]
    rfl
  · rw [hbegin, hirq]
    rfl

lemma readsLast_of_transferred (hlead : Leads serve (begin quirks bus x) s)
    (htrans : Transferred bus x.list s) : ReadsLast x.list := by
  obtain ⟨s', hlead', hfin⟩ := begin_finish hq hbus hne hplain
  -- the transfer ends in one state only, so its trace is the one the driver makes
  obtain rfl := hlead.halts_unique hlead' (serve_of_complete htrans.complete)
    (serve_of_complete hfin.complete)
  have htrace := append_cancel_left (hfin.trace.symm.trans htrans.trace)
  exact readsLast_of_starts (htrace ▸ starts_expectedTrace)

end

/-- On a controller at rest, plain messages are transferred as they ask exactly if no read
message is followed by another one. -/
theorem transferred_iff (quirks : BitVec 32) (bus : Bus) (x : Msgs)
    (hq : quirks &&& quirkHdmiphy = 0) (hbus : bus.iiccon.getLsbD conIrqpend = false)
    (hne : x.list ≠ []) (hplain : ∀ m ∈ x.list, m.Plain) :
    (∃ s, Leads serve (begin quirks bus x) s ∧ Transferred bus x.list s) ↔ ReadsLast x.list := by
  constructor
  · rintro ⟨s, hlead, htrans⟩
    exact readsLast_of_transferred hq hbus hne hplain hlead htrans
  · intro h
    obtain ⟨s, hlead, hfin⟩ := begin_finish hq hbus hne hplain
    refine ⟨s, hlead, hfin.complete, ?_, ?_, ?_⟩
    · rw [hfin.trace, (driver_eq_expected h).1]
    · rw [hfin.bufs, (driver_eq_expected h).2]
    · have hnum := x.num_lt
      have hmod : (BitVec.ofNat 32 x.list.length).toNat = x.list.length := by bv_omega
      rw [result, hfin.idx, BitVec.toInt_eq_toNat_of_lt (by omega), hmod]

def registerRead : Msgs :=
  { list :=
      [{ addr := 0x50, flags := 0, buf := [7], len_lt := by decide },
        { addr := 0x50, flags := mRd, buf := [0, 0], len_lt := by decide }]
    num_lt := by decide }

theorem registerRead_transferred :
    ∃ s, Leads serve (begin 0 .idle registerRead) s ∧ Transferred .idle registerRead.list s := by
  refine (transferred_iff 0 .idle registerRead (by decide) (by decide) (by decide) ?_).mpr ?_
  · exact forall_mem_cons.mpr
      ⟨⟨by decide, .inl rfl⟩, forall_mem_singleton.mpr ⟨by decide, .inr rfl⟩⟩
  · intro k m hk hr
    match k with
    | 0 =>
      cases hk
      cases hr
    | 1 => rfl
    | k + 2 => cases hk

def readThenWrite : Msgs :=
  { list :=
      [{ addr := 0x50, flags := mRd, buf := [0, 0], len_lt := by decide },
        { addr := 0x50, flags := 0, buf := [7], len_lt := by decide }]
    num_lt := by decide }

/-- The driver never starts the second message; it reads a third byte over the one to write. -/
theorem readThenWrite_not_transferred :
    ¬ ∃ s, Leads serve (begin 0 .idle readThenWrite) s ∧
      Transferred .idle readThenWrite.list s := by
  rintro ⟨s, hlead, htrans⟩
  have hplain : ∀ m ∈ readThenWrite.list, m.Plain := forall_mem_cons.mpr
      ⟨⟨by decide, .inr rfl⟩, forall_mem_singleton.mpr ⟨by decide, .inl rfl⟩⟩
  have hlast := readsLast_of_transferred (by decide) (by decide) (by decide) hplain hlead htrans
  exact absurd (hlast 0 _ rfl rfl) (by decide)

end Driver

end Mini2440.I2c
