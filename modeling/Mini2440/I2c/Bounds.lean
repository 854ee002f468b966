import Mini2440.I2c.Steps

/-!
# The interrupt handler stays in bounds

For which message lists no sequence of interrupts, whatever status and bytes they find, can
make the handler use a message or a buffer out of bounds. The handler never leaves the read
state for a later message, so it stores a byte into every message after the first read one; and
when a read message without a start follows a write it stops the transfer and still goes on.
-/

namespace Mini2440.I2c

open List Library

/-- What the handler tests of a message. -/
def Msg.shape (m : Msg) : BitVec 16 × Nat := (m.flags, m.len)

variable {m' m : Msg}

lemma Msg.has_eq_of_shape (h : m.shape = m'.shape) (flag : BitVec 16) :
    m.has flag = m'.has flag := by
  simp [Msg.has, (Prod.mk.inj h).1]

lemma Msg.len_eq_of_shape (h : m.shape = m'.shape) : m.len = m'.len :=
  (Prod.mk.inj h).2

@[simp] lemma Msg.shape_store (m : Msg) (k : Nat) (byte : BitVec 8) :
    (m.store k byte).shape = m.shape := by
  rw [Msg.shape, Msg.len_store]
  rfl

/-- No message before the `k`-th one is a read. -/
def NoRead (l : List Msg) (k : Nat) : Prop :=
  ∀ j < k, ∀ m, l[j]? = some m → m.has mRd = false

/-- The lists that the handler is safe for: there is a message, the first read message asks
for a start unless it is the first message, and every message after a read one has room. -/
structure InBounds (l : List Msg) : Prop where
  nonempty : l ≠ []
  started : ∀ r m, NoRead l (r + 1) → l[r + 1]? = some m → m.has mRd = true →
    m.has mNostart = false
  room : ∀ (r j : Nat) (m m' : Msg), r < j → l[r]? = some m → m.has mRd = true →
    l[j]? = some m' → 0 < m'.len

variable {l l' : List Msg} {k : Nat} {m : Msg}

lemma getElem?_of_shape (h : l'.map Msg.shape = l.map Msg.shape) (hk : l'[k]? = some m) :
    ∃ m₀, l[k]? = some m₀ ∧ m.shape = m₀.shape := by
  have hget : (l.map Msg.shape)[k]? = some m.shape := by
    rw [← h, getElem?_map, hk]
    rfl
  rw [getElem?_map, Option.map_eq_some_iff] at hget
  obtain ⟨m₀, hm₀, hshape⟩ := hget
  exact ⟨m₀, hm₀, hshape.symm⟩

lemma map_shape_set (hk : l[k]? = some m) (ptr : Nat) (byte : BitVec 8) :
    (l.set k (m.store ptr byte)).map Msg.shape = l.map Msg.shape := by
  obtain ⟨hlt, rfl⟩ := List.getElem?_eq_some_iff.mp hk
  conv_rhs => rw [← @set_getElem_self _ (l.map Msg.shape) k (by simpa using hlt)]
  simp

namespace Driver

variable {i i' : Driver} {ptr fuel t r : Nat} {e : Except Fault Driver} {iicstat : BitVec 32}
  {m₀ : Msg}

/-- The driver works on byte `ptr` of message `k` of a list shaped like `l`. -/
structure On (l : List Msg) (i : Driver) (k ptr : Nat) (m : Msg) : Prop where
  pos : i.At k ptr m
  shape : i.msgs.map Msg.shape = l.map Msg.shape

namespace On

variable (h : On l i k ptr m)

include h

lemma congr (hmsg : i'.msg = i.msg) (hidx : i'.msgIdx = i.msgIdx) (hnum : i'.msgNum = i.msgNum)
    (hmsgs : i'.msgs = i.msgs) (hptr : i'.msgPtr = i.msgPtr) : On l i' k ptr m :=
  ⟨h.pos.congr hmsg hidx hnum hmsgs hptr, by rw [hmsgs]; exact h.shape⟩

lemma original : ∃ m₀, l[k]? = some m₀ ∧ m.shape = m₀.shape :=
  getElem?_of_shape h.shape h.pos.get

lemma length : i.msgs.length = l.length := by
  simpa using congrArg List.length h.shape

lemma next (hm₀ : l[k + 1]? = some m₀) :
    ∃ m', i.msgs[k + 1]? = some m' ∧ m'.shape = m₀.shape ∧ On l i.nextMsg (k + 1) 0 m' := by
  obtain ⟨m', hm', hshape⟩ := getElem?_of_shape h.shape.symm hm₀
  exact ⟨m', hm', hshape.symm, h.pos.nextMsg hm', h.shape⟩

lemma stored (byte : BitVec 8) :
    On l { i with msgs := i.msgs.set k (m.store ptr byte), msgPtr := ptr + 1 } k (ptr + 1)
      (m.store ptr byte) :=
  ⟨h.pos.stored byte, (map_shape_set h.pos.get ptr byte).trans h.shape⟩

end On

/-! ## Safety -/

inductive Inv (l : List Msg) (i : Driver) : Prop where
  | stopped (state : i.state = .stop)
  | start {k : Nat} {m : Msg} (state : i.state = .start) (pos : On l i k 0 m)
      (noRead : NoRead l k)
  | write {k ptr : Nat} {m : Msg} (state : i.state = .write) (pos : On l i k ptr m)
      (noRead : NoRead l (k + 1))
  | read {k ptr r : Nat} {m m₀ : Msg} (state : i.state = .read) (pos : On l i k ptr m)
      (more : ptr < m.len) (le : r ≤ k) (get : l[r]? = some m₀) (isRead : m₀.has mRd = true)

lemma Inv.setBus (h : Inv l i) (bus : Bus) : Inv l { i with bus := bus } := by
  cases h with
  | stopped state => exact .stopped state
  | start state pos noRead => exact .start state (pos.congr rfl rfl rfl rfl rfl) noRead
  | write state pos noRead => exact .write state (pos.congr rfl rfl rfl rfl rfl) noRead
  | read state pos more le get isRead =>
    exact .read state (pos.congr rfl rfl rfl rfl rfl) more le get isRead

lemma inv_stop (ret : Int) : Inv l (i.stop ret) := .stopped rfl

lemma NoRead.succ (h : NoRead l k) (hk : l[k]? = some m) (hm : m.has mRd = false) :
    NoRead l (k + 1) := by
  intro j hj m' hm'
  obtain hlt | rfl := Nat.lt_succ_iff_lt_or_eq.mp hj
  · exact h j hlt m' hm'
  · obtain rfl : m = m' := Option.some.inj (hk.symm.trans hm')
    exact hm

/-- Writing goes on with the next byte or a later message, and never meets a read message that
has no start. -/
lemma inv_retryWrite (hl : InBounds l) (hstate : i.state = .write) (h : On l i k ptr m)
    (hno : NoRead l (k + 1)) (hfuel : l.length < k + fuel) :
    ∃ i', i.retryWrite fuel = .ok i' ∧ Inv l i' := by
  induction fuel generalizing i k ptr m with
  | zero => exact absurd h.pos.lt (by rw [h.length]; omega)
  | succ fuel ih =>
    by_cases hlt : ptr < m.len
    · exact ⟨_, h.pos.retryWrite_send hlt, .write hstate ⟨h.pos.sent _, h.shape⟩ hno⟩
    have hend : m.len ≤ ptr := by bv_omega
    by_cases hlast : k + 1 = i.msgs.length
    · exact ⟨_, h.pos.retryWrite_last hend hlast, inv_stop 0⟩
    have hk : k + 1 < l.length := by
      have := h.pos.lt
      rw [← h.length]
      omega
    obtain ⟨m', hm', hshape, hnext⟩ := h.next (getElem?_eq_getElem hk)
    rw [h.pos.retryWrite_next hend hm']
    split_ifs with hnostart hread
    · have hstart := hl.started k _ hno (getElem?_eq_getElem hk)
        (by rw [← Msg.has_eq_of_shape hshape]; exact hread)
      rw [← Msg.has_eq_of_shape hshape, hnostart] at hstart
      cases hstart
    · refine ih hstate hnext ?_ (by omega)
      refine NoRead.succ hno (getElem?_eq_getElem hk) ?_
      rw [← Msg.has_eq_of_shape hshape]
      simpa using hread
    · exact ⟨_, rfl, .start rfl (hnext.congr rfl rfl rfl rfl rfl) hno⟩

lemma inv_writeCase (hl : InBounds l) (hstate : i.state = .write) (h : On l i k ptr m)
    (hno : NoRead l (k + 1)) : ∃ i', i.writeCase iicstat = .ok i' ∧ Inv l i' := by
  rw [h.pos.writeCase]
  split_ifs
  · exact ⟨_, rfl, inv_stop _⟩
  · exact inv_retryWrite hl hstate h hno (by rw [h.length]; omega)

/-- After the byte or the start the read state has room for another byte, in this message or in
the next one. -/
lemma inv_prepareRead (hl : InBounds l) (hstate : i.state = .read)
    (h : On l i k ptr m) (hle : ptr ≤ m.len) (hr : r ≤ k) (hget : l[r]? = some m₀)
    (hread : m₀.has mRd) : ∃ i', i.prepareRead = .ok i' ∧ Inv l i' := by
  obtain hlast | hend | hmore : ptr + 1 = m.len ∨ ptr = m.len ∨ ptr + 1 < m.len := by omega
  · rw [h.pos.prepareRead_last hlast]
    refine ⟨_, rfl, ?_⟩
    split_ifs
    · exact .read hstate (h.congr rfl rfl rfl rfl rfl) (by omega) hr hget hread
    · exact .read hstate h (by omega) hr hget hread
  · rw [h.pos.prepareRead_end hend]
    refine ⟨_, rfl, ?_⟩
    split_ifs with hnum
    · exact inv_stop 0
    · have hk : k + 1 < l.length := by
        have := h.pos.lt
        rw [← h.length]
        omega
      obtain ⟨m', -, hshape, hnext⟩ := h.next (getElem?_eq_getElem hk)
      have hroom := hl.room r (k + 1) _ _ (by omega) hget hread (getElem?_eq_getElem hk)
      rw [← Msg.len_eq_of_shape hshape] at hroom
      exact .read hstate hnext hroom (by omega) hget hread
  · rw [h.pos.prepareRead_more hmore]
    exact ⟨_, rfl, .read hstate h (by omega) hr hget hread⟩

lemma inv_startCase (hl : InBounds l) (h : On l i k 0 m)
    (hno : NoRead l k) : ∃ i', i.startCase iicstat = .ok i' ∧ Inv l i' := by
  obtain ⟨m₀, hm₀, hshape⟩ := h.original
  rw [h.pos.startCase]
  by_cases hnak : (iicstat.getLsbD statLastbit && !m.has mIgnoreNak)
  · rw [if_pos hnak]
    exact ⟨_, rfl, inv_stop _⟩
  by_cases hzero : k + 1 = i.msgs.length ∧ m.len = 0
  · rw [if_neg hnak, if_pos hzero]
    exact ⟨_, rfl, inv_stop _⟩
  split_ifs with hread
  · exact inv_prepareRead hl rfl (h.congr rfl rfl rfl rfl rfl) (Nat.zero_le _) (le_refl k) hm₀
      (by rw [← Msg.has_eq_of_shape hshape]; exact hread)
  · refine inv_writeCase hl rfl (h.congr rfl rfl rfl rfl rfl) (NoRead.succ hno hm₀ ?_)
    rw [← Msg.has_eq_of_shape hshape]
    simpa using hread

lemma inv_map_outAck (h : ∃ i', e = .ok i' ∧ Inv l i') :
    ∃ i', e.map outAck = .ok i' ∧ Inv l i' := by
  obtain ⟨i', rfl, hinv⟩ := h
  exact ⟨_, rfl, hinv.setBus _⟩

lemma inv_interrupt (hl : InBounds l) (i : Driver) (ev : BitVec 32 × BitVec 8) (h : Inv l i) :
    ∃ i', i.interrupt ev = .ok i' ∧ Inv l i' := by
  have h' := h.setBus { i.bus.pend with iicstat := ev.1, iicds := ev.2 }
  unfold interrupt
  cases h' with
  | stopped state =>
    rw [irq_of_stop state]
    exact ⟨_, rfl, .stopped state⟩
  | start state pos noRead =>
    rw [irq_of_start state]
    exact inv_map_outAck (inv_startCase hl pos noRead)
  | write state pos noRead =>
    rw [irq_of_write state]
    exact inv_map_outAck (inv_writeCase hl state pos noRead)
  | read state pos more le get isRead =>
    rw [irq_of_read state, readCase, pos.pos.storeByte more]
    refine inv_map_outAck (inv_prepareRead hl state (pos.stored _) ?_ le get isRead)
    rw [Msg.len_store]
    exact more

/-! ## Faults -/

/-- What is left of the list from message `k` on, counting the end of each message. -/
def rest (l : List Msg) (k : Nat) : Nat := ((l.drop k).map fun m => m.len + 1).sum

lemma rest_eq (hk : l[k]? = some m) : rest l k = m.len + 1 + rest l (k + 1) := by
  obtain ⟨hlt, rfl⟩ := List.getElem?_eq_some_iff.mp hk
  rw [rest, List.drop_eq_getElem_cons hlt, List.map_cons]
  rfl

lemma rest_of_shape (h : l'.map Msg.shape = l.map Msg.shape) : rest l' k = rest l k := by
  have hlen := congrArg (fun s => ((s.drop k).map fun p => p.2 + 1).sum) h
  simpa [rest, Msg.shape, Function.comp_def] using hlen

/-- A number that gets smaller with each byte, each message and the end of each start. -/
def left (i : Driver) : Nat :=
  2 * (rest i.msgs i.msgIdx - i.msgPtr) + if i.state = .start then 1 else 0

section

variable (h : On l i k ptr m)

include h

lemma On.left : i.left = 2 * (rest l k - ptr) + if i.state = .start then 1 else 0 := by
  rw [Driver.left, h.pos.idx, h.pos.ptr, rest_of_shape h.shape]

lemma On.rest_eq : rest l k = m.len + 1 + rest l (k + 1) := by
  obtain ⟨m₀, hm₀, hshape⟩ := h.original
  rw [Driver.rest_eq hm₀, Msg.len_eq_of_shape hshape]

lemma On.left_next (hle : ptr ≤ m.len) (h' : On l i' (k + 1) 0 m') : i'.left < i.left := by
  rw [h.left, h'.left, h.rest_eq]
  split_ifs <;> omega

lemma On.left_byte (hlt : ptr < m.len) (h' : On l i' k (ptr + 1) m') : i'.left < i.left := by
  rw [h.left, h'.left, h.rest_eq]
  split_ifs <;> omega

lemma On.left_started (hs : i.state = .start)
    (h' : On l i' k ptr m') (hs' : i'.state ≠ .start) : i'.left < i.left := by
  rw [h.left, h'.left, if_pos hs, if_neg hs']
  omega

end

/-- Some message after the `t`-th has no room. -/
def Short (l : List Msg) (t : Nat) : Prop := ∃ j m, t < j ∧ l[j]? = some m ∧ m.len = 0

/-- States before a fault, when message `t` is the first read one. -/
inductive Doomed (l : List Msg) (t : Nat) (i : Driver) : Prop where
  | start {k : Nat} {m : Msg} (state : i.state = .start) (pos : On l i k 0 m) (le : k ≤ t)
      (short : k = t → Short l t)
  | write {k ptr : Nat} {m : Msg} (state : i.state = .write) (pos : On l i k ptr m)
      (le : ptr ≤ m.len) (lt : k < t)
  | read {k ptr j : Nat} {m m' : Msg} (state : i.state = .read) (pos : On l i k ptr m)
      (le : ptr ≤ m.len) (before : k ≤ j) (get : l[j]? = some m') (zero : m'.len = 0)

lemma Doomed.setBus (h : Doomed l t i) (bus : Bus) : Doomed l t { i with bus := bus } := by
  cases h with
  | start state pos le short => exact .start state (pos.congr rfl rfl rfl rfl rfl) le short
  | write state pos le lt => exact .write state (pos.congr rfl rfl rfl rfl rfl) le lt
  | read state pos le before get zero =>
    exact .read state (pos.congr rfl rfl rfl rfl rfl) le before get zero

def Worse (l : List Msg) (t : Nat) (i : Driver) (e : Except Fault Driver) : Prop :=
  (∃ f, e = .error f) ∨ ∃ i', e = .ok i' ∧ Doomed l t i' ∧ i'.left < i.left

lemma Worse.of_left (h : Worse l t i' e) (hle : i'.left ≤ i.left) : Worse l t i e := by
  obtain herr | ⟨j, hj, hdoom, hlt⟩ := h
  · exact .inl herr
  · exact .inr ⟨j, hj, hdoom, hlt.trans_le hle⟩

lemma Worse.map_outAck (h : Worse l t i e) : Worse l t i (e.map outAck) := by
  obtain ⟨f, rfl⟩ | ⟨i', rfl, hdoom, hlt⟩ := h
  · exact .inl ⟨f, rfl⟩
  · exact .inr ⟨_, rfl, hdoom.setBus _, hlt⟩

section

variable {t j : Nat} {mt mj : Msg}

lemma doomed_prepareRead (hstate : i.state = .read) (h : On l i k ptr m)
    (hle : ptr ≤ m.len) (hlt : k < j) (hget : l[j]? = some mj) (hzero : mj.len = 0) :
    ∃ i', i.prepareRead = .ok i' ∧ Doomed l t i' ∧ i'.left ≤ i.left := by
  have hj := (List.getElem?_eq_some_iff.mp hget).1
  have hlast : ¬ k + 1 = i.msgs.length := by rw [h.length]; omega
  have here : Doomed l t i := .read hstate h hle hlt.le hget hzero
  obtain hend | hend | hmore : ptr + 1 = m.len ∨ ptr = m.len ∨ ptr + 1 < m.len := by omega
  · rw [h.pos.prepareRead_last hend, if_neg hlast]
    exact ⟨i, rfl, here, le_refl _⟩
  · rw [h.pos.prepareRead_end hend, if_neg hlast]
    have hk : k + 1 < l.length := by omega
    obtain ⟨m', -, -, hnext⟩ := h.next (getElem?_eq_getElem hk)
    exact ⟨_, rfl, .read hstate hnext (Nat.zero_le _) hlt hget hzero, (h.left_next hle hnext).le⟩
  · rw [h.pos.prepareRead_more hmore]
    exact ⟨i, rfl, here, le_refl _⟩

/-- A byte has been received: there is no room for it, or the handler stores it and goes on. -/
lemma worse_irq_read (hstate : i.state = .read) (h : On l i k ptr m) (hle : ptr ≤ m.len)
    (hbefore : k ≤ j) (hget : l[j]? = some mj) (hzero : mj.len = 0) : Worse l t i i.irq := by
  rw [irq_of_read hstate, readCase]
  apply Worse.map_outAck
  obtain hlt | rfl := lt_or_eq_of_le hle
  · have hne : k ≠ j := by
      rintro rfl
      obtain ⟨m₀, hm₀, hshape⟩ := h.original
      obtain rfl := Option.some.inj (hm₀.symm.trans hget)
      rw [Msg.len_eq_of_shape hshape] at hlt
      omega
    let i₁ : Driver := { i with msgs := i.msgs.set k (m.store ptr i.bus.iicds), msgPtr := ptr + 1 }
    have hstored : On l i₁ k (ptr + 1) (m.store ptr i.bus.iicds) := h.stored _
    have hroom : ptr + 1 ≤ (m.store ptr i.bus.iicds).len := by
      rw [Msg.len_store]
      exact hlt
    obtain ⟨i', hi', hdoom, hleft⟩ := doomed_prepareRead (i := i₁) (t := t) hstate hstored hroom
        (by omega) hget hzero
    rw [h.pos.storeByte hlt]
    exact .inr ⟨i', hi', hdoom, hleft.trans_lt (h.left_byte hlt hstored)⟩
  · rw [h.pos.storeByte_error (le_refl _)]
    exact .inl ⟨_, rfl⟩

variable (hget : l[t]? = some mt) (hread : mt.has mRd)
  (hbad : mt.has mNostart ∨ Short l t)

include hget hread hbad

/-- Before the first read message the handler writes, and comes to a read without start or
starts it. -/
lemma worse_retryWrite (hstate : i.state = .write) (h : On l i k ptr m) (hle : ptr ≤ m.len)
    (hlt : k < t) (hfuel : t < k + fuel) : Worse l t i (i.retryWrite fuel) := by
  induction fuel generalizing i k ptr m with
  | zero => omega
  | succ fuel ih =>
    by_cases hptr : ptr < m.len
    · have hsent := h.pos.sent (i.bus.writeDs (m.buf.get ⟨ptr, hptr⟩))
      refine .inr ⟨_, h.pos.retryWrite_send hptr, .write hstate ⟨hsent, h.shape⟩ hptr hlt, ?_⟩
      exact h.left_byte hptr ⟨hsent, h.shape⟩
    have hk : k + 1 < l.length := by
      have := (List.getElem?_eq_some_iff.mp hget).1
      omega
    obtain ⟨m', hm', hshape, hnext⟩ := h.next (getElem?_eq_getElem hk)
    have hleft := h.left_next hle hnext
    -- the message after this one is the read one if it has the place of that
    have hmt : k + 1 = t → m'.shape = mt.shape := by
      rintro rfl
      rw [hshape, Option.some.inj ((getElem?_eq_getElem hk).symm.trans hget)]
    rw [h.pos.retryWrite_next (by omega) hm']
    split_ifs with hnostart hrd
    · obtain ⟨f, rfl⟩ : ∃ f, fuel = f + 1 := ⟨fuel - 1, by omega⟩
      exact .inl ⟨_, rfl⟩
    · have hne : k + 1 ≠ t := fun heq => hrd (by rw [Msg.has_eq_of_shape (hmt heq), hread])
      have hlt' : k + 1 < t := by omega
      exact (ih (i := i.nextMsg) hstate hnext (Nat.zero_le _) hlt' (by omega)).of_left hleft.le
    · have hstarted : On l { i.nextMsg.messageStart m' with state := .start } (k + 1) 0 m' :=
        hnext.congr rfl rfl rfl rfl rfl
      refine .inr ⟨_, rfl, .start rfl hstarted hlt fun heq => ?_, h.left_next hle hstarted⟩
      rw [← Msg.has_eq_of_shape (hmt heq)] at hbad
      exact hbad.resolve_left hnostart

lemma worse_irq_start (hno : NoRead l t) (hack : i.bus.iicstat.getLsbD statLastbit = false)
    (hstate : i.state = .start) (h : On l i k 0 m) (hle : k ≤ t) (hshort : k = t → Short l t) :
    Worse l t i i.irq := by
  have ht := (List.getElem?_eq_some_iff.mp hget).1
  rw [irq_of_start hstate, h.pos.startCase]
  apply Worse.map_outAck
  obtain ⟨m₀, hm₀, hshape⟩ := h.original
  have hzero : ¬ (k + 1 = i.msgs.length ∧ m.len = 0) := by
    rintro ⟨hlast, -⟩
    rw [h.length] at hlast
    obtain ⟨j, mj, hj, hgetj, -⟩ := hshort (by omega)
    have := (List.getElem?_eq_some_iff.mp hgetj).1
    omega
  rw [hack, if_neg hzero]
  obtain hlt | rfl := lt_or_eq_of_le hle
  · have hwrite : m.has mRd = false := by
      rw [Msg.has_eq_of_shape hshape]
      exact hno k hlt m₀ hm₀
    have h' : On l { i with state := .write } k 0 m := h.congr rfl rfl rfl rfl rfl
    rw [hwrite, h'.pos.writeCase, hack, Bool.and_false]
    refine (worse_retryWrite hget hread hbad rfl h' (Nat.zero_le _) hlt ?_).of_left
      (h.left_started hstate h' (by simp)).le
    rw [h'.length]
    omega
  · have hrd : m.has mRd := by
      rw [Msg.has_eq_of_shape hshape, Option.some.inj (hm₀.symm.trans hget)]
      exact hread
    have h' : On l { i with state := .read } k 0 m := h.congr rfl rfl rfl rfl rfl
    obtain ⟨j, mj, hj, hgetj, hlen⟩ := hshort rfl
    obtain ⟨i', hi', hdoom, hleft⟩ :=
      doomed_prepareRead (t := k) rfl h' (Nat.zero_le _) hj hgetj hlen
    rw [if_pos hrd]
    exact .inr ⟨i', hi', hdoom, hleft.trans_lt (h.left_started hstate h' (by simp))⟩

lemma worse_irq (hno : NoRead l t) (hack : i.bus.iicstat.getLsbD statLastbit = false)
    (h : Doomed l t i) : Worse l t i i.irq := by
  cases h with
  | start state pos le short =>
    exact worse_irq_start hget hread hbad hno hack state pos le short
  | write state pos le lt =>
    have ht := (List.getElem?_eq_some_iff.mp hget).1
    rw [irq_of_write state, pos.pos.writeCase, hack]
    simp only [Bool.and_false]
    exact (worse_retryWrite hget hread hbad state pos le lt (by rw [pos.length]; omega)).map_outAck
  | read state pos le before get zero => exact worse_irq_read state pos le before get zero

end

/-! ## The lists that are safe -/

variable {quirks : BitVec 32} {bus : Bus} {x : Msgs}

lemma begin_on (h : x.list[0]? = some m) :
    (begin quirks bus x).state = .start ∧ On x.list (begin quirks bus x) 0 0 m := by
  have hhead : x.list.head? = some m := by rw [head?_eq_getElem?, h]
  rw [begin, hhead]
  exact ⟨rfl, ⟨rfl, rfl, rfl, x.num_lt, h, rfl⟩, rfl⟩

lemma exists_first_read (hget : l[r]? = some m) (hread : m.has mRd) :
    ∃ t mt, t ≤ r ∧ NoRead l t ∧ l[t]? = some mt ∧ mt.has mRd := by
  induction r using Nat.strongRecOn generalizing m with
  | ind r ih =>
    by_cases hno : NoRead l r
    · exact ⟨r, m, le_refl r, hno, hget, hread⟩
    · simp only [NoRead, not_forall, Bool.not_eq_false] at hno
      obtain ⟨j, hj, m', hget', hread'⟩ := hno
      obtain ⟨t, mt, hle, ht⟩ := ih j hj hget' hread'
      exact ⟨t, mt, hle.trans hj.le, ht⟩

/-- When every byte is acknowledged, a list that is not safe leads to a fault. -/
lemma begin_fails {mt : Msg} (hno : NoRead x.list t) (hget : x.list[t]? = some mt)
    (hread : mt.has mRd) (hbad : 0 < t ∧ mt.has mNostart ∨ Short x.list t) :
    Fails interrupt (begin quirks bus x) := by
  have ht := (List.getElem?_eq_some_iff.mp hget).1
  have hpos : 0 < x.list.length := by omega
  obtain ⟨hstate, hon⟩ := begin_on (getElem?_eq_getElem hpos)
  have hdoom : Doomed x.list t (begin quirks bus x) := by
    refine .start hstate hon (Nat.zero_le _) fun heq => hbad.resolve_left ?_
    rintro ⟨hlt, -⟩
    omega
  refine Fails.of_rank left (fun i hi => ⟨(0, 0), ?_⟩) hdoom
  have hbad' := hbad.imp And.right id
  exact worse_irq hget hread hbad' hno (by simp) (hi.setBus _)

/-- No sequence of interrupts, whatever they find in the registers, makes the handler use a
message after the completion, a message outside the list or a byte outside a message. -/
def StaysInBounds (quirks : BitVec 32) (bus : Bus) (x : Msgs) : Prop :=
  ∀ es : List (BitVec 32 × BitVec 8), ∃ i', es.foldlM interrupt (begin quirks bus x) = .ok i'

lemma StaysInBounds.not_fails (h : StaysInBounds quirks bus x) :
    ¬ Fails interrupt (begin quirks bus x) := by
  rintro ⟨es, e, he⟩
  obtain ⟨i', hi'⟩ := h es
  rw [he] at hi'
  cases hi'

/-- The handler stays in bounds exactly for the lists of `InBounds`. -/
theorem staysInBounds_iff (quirks : BitVec 32) (bus : Bus) (x : Msgs) :
    StaysInBounds quirks bus x ↔ InBounds x.list := by
  constructor
  · intro h
    refine ⟨?_, ?_, ?_⟩
    · intro hnil
      have herr : (begin quirks bus x).interrupt (0, 0) = .error .msgIndex := by
        simp [begin, hnil]
        rfl
      exact h.not_fails (.of_error herr)
    · intro r m hno hget hread
      by_contra hnostart
      rw [Bool.not_eq_false] at hnostart
      exact h.not_fails (begin_fails hno hget hread (.inl ⟨Nat.succ_pos r, hnostart⟩))
    · intro r j m m' hlt hget hread hget'
      by_contra hlen
      obtain ⟨t, mt, hle, hno, hgett, hreadt⟩ := exists_first_read hget hread
      have hshort : Short x.list t := ⟨j, m', by omega, hget', by omega⟩
      exact h.not_fails (begin_fails hno hgett hreadt (.inr hshort))
  · intro hl es
    have hpos : 0 < x.list.length := length_pos_iff.mpr hl.nonempty
    obtain ⟨hstate, hon⟩ := begin_on (getElem?_eq_getElem hpos)
    have hinv : Inv x.list (begin quirks bus x) :=
      .start hstate hon fun j hj => absurd hj (by omega)
    obtain ⟨i', hi', -⟩ := foldlM_invariant (fun i ev => inv_interrupt hl i ev) hinv es
    exact ⟨i', hi'⟩

def writeThenRead : Msgs :=
  { list :=
      [{ addr := 0x50, flags := 0, buf := [1], len_lt := by decide },
        { addr := 0x50, flags := mNostart ||| mRd, buf := [0], len_lt := by decide }]
    num_lt := by decide }

/-- The second interrupt stops the transfer and uses the message pointer that this cleared. -/
theorem writeThenRead_leaves_bounds : ¬ StaysInBounds 0 Bus.idle writeThenRead := by
  intro h
  have herr : [(0, 0), (0, 0)].foldlM interrupt (begin 0 Bus.idle writeThenRead) =
      .error .nullMsg := rfl
  exact h.not_fails ⟨_, _, herr⟩

end Driver

end Mini2440.I2c
