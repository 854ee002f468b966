import Mathlib.Data.Fintype.Card
import Mini2440.Errno
import Mini2440.Library.Ring
import Mini2440.Library.Run

/-!
# The ADC and its clients

`plat-samsung/adc.c` gives the converter to one client at a time. The client of the touchscreen
waits in a place of its own and goes first; the others wait on the list `adc_pending`, in the
order of their starts. The list goes through the clients themselves, and `s3c_adc_start` puts a
client on it without a look at whether it is there already. A client that is started while it
waits turns the list into a loop that the head is not on.

The channel of a client and the registers of the converter are left out.
-/

namespace Mini2440.Adc

open List Function Library

/-- The list heads: `adc_pending`, the ones of the clients, and the addresses that `list_del`
leaves behind. -/
inductive Node (ι : Type*) where
  | pending
  | client (c : ι)
  | poison1
  | poison2
  deriving DecidableEq, Repr

/-- `struct adc_device` with `adc_pending` and the number of samples of each client. `live` are the
clients that have not been released, and `startedAt` is the time of the last start of a client. -/
structure Device (ι : Type*) where
  cur : Option ι
  tsPend : Option ι
  list : Heap (Node ι)
  nrSamples : ι → Nat
  live : ι → Bool
  time : Nat
  startedAt : ι → Nat

/-- The calls. The callback of a conversion may set the number of samples that are left. -/
inductive Op (ι : Type*) where
  | start (c : ι) (nrSamples : Nat)
  | release (c : ι)
  | irq (left : Option Nat)
  deriving DecidableEq, Repr

namespace Device

variable {ι : Type*} [DecidableEq ι]

def listDel (list : Heap (Node ι)) (c : ι) : Heap (Node ι) := list.del (.client c) .poison1 .poison2

def listFirst (list : Heap (Node ι)) : Option ι :=
  match list.next .pending with
  | .client c => some c
  | _ => none

/-- `s3c_adc_try`. -/
def adcTry (s : Device ι) : Device ι :=
  match s.tsPend, listFirst s.list with
  | none, some c => { s with list := listDel s.list c, cur := some c }
  | none, none => { s with tsPend := none }
  | some c, _ => { s with tsPend := none, cur := some c }

def enqueue (isTs : ι → Bool) (s : Device ι) (c : ι) (nrSamples : Nat) : Device ι :=
  let s :=
    { s with
      nrSamples := update s.nrSamples c nrSamples
      time := s.time + 1
      startedAt := update s.startedAt c s.time }
  if isTs c then { s with tsPend := some c }
  else { s with list := s.list.addTail (.client c) .pending }

/-- `s3c_adc_start`, which `s3c_adc_read` calls for one sample. -/
def adcStart (isTs : ι → Bool) (s : Device ι) (c : ι) (nrSamples : Nat) : Int × Device ι :=
  if isTs c = true ∧ s.tsPend ≠ none then (-EAGAIN, s)
  else
    let s := s.enqueue isTs c nrSamples
    (0, if s.cur = none then s.adcTry else s)

/-- The loop of `s3c_adc_release`, from a node on. -/
def sweep (c : ι) : Nat → Heap (Node ι) → Node ι → Heap (Node ι)
  | 0, list, _ => list
  | n + 1, list, p =>
    if p = .pending then list
    else
      let next := list.next p
      sweep c n (if p = .client c then listDel list c else list) next

variable [Fintype ι]

def withdraw (s : Device ι) (c : ι) : Device ι :=
  let s := if s.cur = some c then { s with cur := none } else s
  if s.tsPend = some c then { s with tsPend := none }
  else { s with list := sweep c (Fintype.card ι + 1) s.list (s.list.next .pending) }

/-- `s3c_adc_release`. -/
def adcRelease (s : Device ι) (c : ι) : Device ι :=
  let s := s.withdraw c
  let s := if s.cur = none then s.adcTry else s
  { s with live := update s.live c false }

omit [Fintype ι] in
/-- `s3c_adc_irq`. -/
def adcIrq (s : Device ι) (left : Option Nat) : Device ι :=
  match s.cur with
  | none => s
  | some c =>
    let nrSamples := left.getD (s.nrSamples c - 1)
    let s := { s with nrSamples := update s.nrSamples c nrSamples }
    if nrSamples > 0 then s else { s with cur := none }.adcTry

def step (isTs : ι → Bool) (s : Device ι) : Op ι → Device ι
  | .start c nrSamples => (s.adcStart isTs c nrSamples).2
  | .release c => s.adcRelease c
  | .irq left => s.adcIrq left

def init : Device ι where
  cur := none
  tsPend := none
  list := ⟨fun _ => .pending, fun _ => .pending⟩
  nrSamples := fun _ => 0
  live := fun _ => true
  time := 0
  startedAt := fun _ => 0

/-- The list `adc_pending` is well formed and holds these clients. -/
def Waiting (s : Device ι) (q : List ι) : Prop := IsRing s.list .pending (q.map .client)

def Allowed (isTs : ι → Bool) (s : Device ι) : Op ι → Prop
  | .start c _ => s.live c = true ∧ (isTs c = false → ∀ q, s.Waiting q → c ∉ q)
  | .release c => s.live c = true
  | .irq _ => True

/-! ## The list -/

section List

omit [Fintype ι]

variable {list : Heap (Node ι)} {q q₁ q₂ : List ι} {c d : ι} {n : Nat}

/-- The node that a walk of the list finds before these clients. -/
def firstNode : List ι → Node ι
  | [] => .pending
  | c :: _ => .client c

omit [DecidableEq ι] in
lemma path_firstNode {next : Node ι → Node ι} {a : Node ι}
    (h : Path next a (q.map .client) .pending) : next a = firstNode q := by
  cases q with
  | nil => exact h
  | cons c q => exact h.1

omit [DecidableEq ι] in
lemma listFirst_eq (h : IsRing list .pending (q.map .client)) : listFirst list = q.head? := by
  rw [listFirst, path_firstNode h.forward]
  cases q <;> rfl

lemma isRing_addTail (h : IsRing list .pending (q.map .client)) (hc : c ∉ q) :
    IsRing (list.addTail (.client c) .pending) .pending ((q ++ [c]).map .client) := by
  have hnew : Node.client c ∉ Node.pending :: q.map .client := by simpa using hc
  simpa using h.addTail hnew

lemma isRing_listDel (h : IsRing list .pending ((q₁ ++ c :: q₂).map .client)) :
    IsRing (listDel list c) .pending ((q₁ ++ q₂).map .client) := by
  rw [map_append] at h
  rw [map_append]
  exact h.del .poison1 .poison2

lemma isRing_sweep (h : IsRing list .pending ((q₁ ++ q₂).map .client)) (hn : q₂.length < n) :
    IsRing (sweep c n list (firstNode q₂)) .pending
      ((q₁ ++ q₂.filter fun d => d ≠ c).map .client) := by
  induction q₂ generalizing q₁ list n with
  | nil =>
    cases n with
    | zero => simp at hn
    | succ n => simpa [sweep, firstNode] using h
  | cons d q₂ ih =>
    cases n with
    | zero => simp at hn
    | succ n =>
      have hlen : q₂.length < n := by simpa using hn
      have hnext : list.next (.client d) = firstNode q₂ := by
        have hforward := h.forward
        rw [map_append, map_cons, path_append] at hforward
        exact path_firstNode hforward.2
      rw [show firstNode (d :: q₂) = Node.client d from rfl]
      simp only [sweep, hnext, Node.client.injEq]
      by_cases hd : d = c
      · subst hd
        rw [if_pos rfl, filter_cons_of_neg (by simp)]
        exact ih (isRing_listDel h) hlen
      · have hsplit : q₁ ++ d :: q₂ = (q₁ ++ [d]) ++ q₂ := by simp
        rw [hsplit] at h
        rw [if_neg hd, filter_cons_of_pos (by simpa using hd)]
        simpa using ih h hlen

end List

/-! ## What the operations keep -/

section Invariant

variable {isTs : ι → Bool} {s : Device ι} {q : List ι} {c : ι}

/-- The clients on the list are live, are not the touch screen and stand in the order of their
last start; the other two slots hold live clients. -/
structure Tidy (isTs : ι → Bool) (q : List ι) (s : Device ι) : Prop where
  waiting : s.Waiting q
  queued : ∀ c ∈ q, s.live c = true ∧ isTs c = false
  sorted : q.Pairwise fun c d => s.startedAt c < s.startedAt d
  past : ∀ c ∈ q, s.startedAt c < s.time
  current : ∀ c, s.cur = some c → s.live c = true
  touch : ∀ c, s.tsPend = some c → s.live c = true ∧ isTs c = true

/-- Between two operations the device converts as long as a client waits. -/
structure Scheduled (isTs : ι → Bool) (q : List ι) (s : Device ι) : Prop
    extends Tidy isTs q s where
  busy : s.cur = none → q = [] ∧ s.tsPend = none

omit [Fintype ι]

omit [DecidableEq ι] in
lemma Waiting.nodup (h : s.Waiting q) : q.Nodup :=
  (nodup_cons.mp (IsRing.nodup h)).2.of_map _

omit [DecidableEq ι] in
lemma scheduled_init : Scheduled isTs [] (init : Device ι) where
  waiting := isRing_nil rfl rfl
  queued := by simp
  sorted := List.Pairwise.nil
  past := by simp
  current := by simp [init]
  touch := by simp [init]
  busy := fun _ => ⟨rfl, rfl⟩

/-- The touch screen is served first, and otherwise the client that was started first. -/
lemma Tidy.cur_adcTry (h : Tidy isTs q s) (hcur : s.cur = none) :
    s.adcTry.cur = (s.tsPend <|> q.head?) := by
  rw [adcTry, listFirst_eq h.waiting]
  cases hts : s.tsPend with
  | some c => rfl
  | none =>
    cases q with
    | nil => exact hcur
    | cons c q => rfl

/-- `s3c_adc_try` leaves the device idle only if nothing waits. -/
lemma Tidy.adcTry (h : Tidy isTs q s) : ∃ q, Scheduled isTs q s.adcTry := by
  rw [Device.adcTry, listFirst_eq h.waiting]
  cases hts : s.tsPend with
  | some c =>
    refine ⟨q, { h with current := ?_, touch := by simp, busy := by simp }⟩
    rintro d ⟨⟩
    exact (h.touch c hts).1
  | none =>
    cases q with
    | nil => exact ⟨[], { h with touch := by simp, busy := fun _ => ⟨rfl, rfl⟩ }⟩
    | cons c q =>
      refine ⟨q, ?_⟩
      constructor
      · constructor
        · have hrest : IsRing (listDel s.list c) .pending (([] ++ q).map .client) :=
            isRing_listDel h.waiting
          exact hrest
        · exact fun d hd => h.queued d (mem_cons_of_mem _ hd)
        · exact h.sorted.of_cons
        · exact fun d hd => h.past d (mem_cons_of_mem _ hd)
        · rintro d ⟨⟩
          exact (h.queued c mem_cons_self).1
        · simp
      · simp

lemma Tidy.resume (h : Tidy isTs q s) :
    ∃ q, Scheduled isTs q (if s.cur = none then s.adcTry else s) := by
  by_cases hcur : s.cur = none
  · rw [if_pos hcur]
    exact h.adcTry
  · rw [if_neg hcur]
    exact ⟨q, { h with busy := fun hn => absurd hn hcur }⟩

lemma Tidy.enqueue (h : Tidy isTs q s) (n : Nat) (hlive : s.live c) (hc : c ∉ q) :
    ∃ q, Tidy isTs q (s.enqueue isTs c n) := by
  have hold : ∀ d ∈ q, update s.startedAt c s.time d = s.startedAt d := by
    intro d hd
    apply update_of_ne
    rintro rfl
    exact hc hd
  have hsorted : q.Pairwise fun d e =>
      update s.startedAt c s.time d < update s.startedAt c s.time e := by
    refine h.sorted.imp_of_mem ?_
    intro d e hd he hlt
    rwa [hold d hd, hold e he]
  have hpast : ∀ d ∈ q, update s.startedAt c s.time d < s.time := by
    intro d hd
    rw [hold d hd]
    exact h.past d hd
  unfold Device.enqueue
  by_cases hts : isTs c
  · rw [if_pos hts]
    refine ⟨q, { h with sorted := hsorted, past := ?_, touch := ?_ }⟩
    · exact fun d hd => Nat.lt_succ_of_lt (hpast d hd)
    · rintro d ⟨⟩
      exact ⟨hlive, hts⟩
  · rw [if_neg hts]
    refine ⟨q ++ [c],
      { h with waiting := isRing_addTail h.waiting hc, queued := ?_, sorted := ?_, past := ?_ }⟩
    · intro d hd
      rcases mem_append.mp hd with hd | hd
      · exact h.queued d hd
      · rw [mem_singleton.mp hd]
        exact ⟨hlive, by simpa using hts⟩
    · refine pairwise_append.mpr ⟨hsorted, pairwise_singleton _ _, ?_⟩
      intro d hd e he
      rw [mem_singleton.mp he]
      simpa using hpast d hd
    · intro d hd
      rcases mem_append.mp hd with hd | hd
      · exact Nat.lt_succ_of_lt (hpast d hd)
      · simp [mem_singleton.mp hd]

lemma Scheduled.adcStart (h : Scheduled isTs q s) (n : Nat) (hlive : s.live c)
    (hfresh : isTs c = false → c ∉ q) : ∃ q, Scheduled isTs q (s.adcStart isTs c n).2 := by
  have hc : c ∉ q := by
    cases hts : isTs c with
    | false => exact hfresh hts
    | true =>
      intro hmem
      simp [(h.queued c hmem).2] at hts
  unfold Device.adcStart
  split_ifs with hagain
  · exact ⟨q, h⟩
  · obtain ⟨q', h'⟩ := h.toTidy.enqueue n hlive hc
    exact h'.resume

lemma Scheduled.adcIrq (h : Scheduled isTs q s) (left : Option Nat) :
    ∃ q, Scheduled isTs q (s.adcIrq left) := by
  unfold Device.adcIrq
  cases hcur : s.cur with
  | none => exact ⟨q, h⟩
  | some c =>
    dsimp only
    by_cases hleft : left.getD (s.nrSamples c - 1) > 0
    · rw [if_pos hleft]
      exact ⟨q, { h with current := hcur ▸ h.current, busy := by simp }⟩
    · rw [if_neg hleft]
      exact Tidy.adcTry (q := q) { h with current := by simp }

lemma live_adcTry : s.adcTry.live = s.live := by
  unfold Device.adcTry
  split <;> rfl

lemma adcTry_free (f : ι → Bool) : { s with live := f }.adcTry = { s.adcTry with live := f } := by
  unfold Device.adcTry
  cases s.tsPend with
  | some c => rfl
  | none => cases listFirst s.list <;> rfl

lemma Tidy.free (h : Tidy isTs q s) (hq : c ∉ q) (hcur : s.cur ≠ some c) (hts : s.tsPend ≠ some c) :
    Tidy isTs q { s with live := update s.live c false } := by
  have hlive : ∀ d, d ≠ c → s.live d → update s.live c false d := by
    intro d hd hl
    rwa [update_of_ne hd]
  refine { h with queued := ?_, current := ?_, touch := ?_ }
  · intro d hd
    have hne : d ≠ c := by rintro rfl; exact hq hd
    exact ⟨hlive d hne (h.queued d hd).1, (h.queued d hd).2⟩
  · intro d hd
    have hne : d ≠ c := by rintro rfl; exact hcur hd
    exact hlive d hne (h.current d hd)
  · intro d hd
    have hne : d ≠ c := by rintro rfl; exact hts hd
    exact ⟨hlive d hne (h.touch d hd).1, (h.touch d hd).2⟩

variable [Fintype ι]

lemma cur_withdraw : (s.withdraw c).cur = s.cur.filter fun d => d ≠ c := by
  unfold withdraw
  cases hcur : s.cur <;> grind

lemma tsPend_withdraw : (s.withdraw c).tsPend = s.tsPend.filter fun d => d ≠ c := by
  unfold withdraw
  cases hts : s.tsPend <;> grind

lemma list_withdraw :
    (s.withdraw c).list =
      if s.tsPend = some c then s.list
      else sweep c (Fintype.card ι + 1) s.list (s.list.next .pending) := by
  unfold withdraw
  grind

lemma withdraw_frame :
    (s.withdraw c).live = s.live ∧ (s.withdraw c).time = s.time ∧
      (s.withdraw c).startedAt = s.startedAt := by
  unfold withdraw
  grind

lemma Tidy.waiting_withdraw (h : Tidy isTs q s) :
    (s.withdraw c).Waiting (q.filter fun d => d ≠ c) := by
  unfold Waiting
  rw [list_withdraw]
  split_ifs with hts
  · -- the touch screen is not on the list
    have hkept : (q.filter fun d => d ≠ c) = q := by
      refine filter_eq_self.mpr fun d hd => ?_
      have hne : d ≠ c := by
        rintro rfl
        simpa [(h.queued d hd).2] using (h.touch d hts).2
      simpa using hne
    rw [hkept]
    exact h.waiting
  · have hlen : q.length < Fintype.card ι + 1 :=
      Nat.lt_succ_of_le (Waiting.nodup h.waiting).length_le_card
    rw [path_firstNode h.waiting.forward]
    rw [← nil_append (q.filter fun d => d ≠ c)]
    exact isRing_sweep h.waiting hlen

lemma Tidy.withdraw (h : Tidy isTs q s) (c : ι) :
    Tidy isTs (q.filter fun d => d ≠ c) (s.withdraw c) := by
  obtain ⟨hlive, htime, hstart⟩ := withdraw_frame (s := s) (c := c)
  refine ⟨h.waiting_withdraw, ?_, ?_, ?_, ?_, ?_⟩
  · intro d hd
    rw [hlive]
    exact h.queued d (mem_of_mem_filter hd)
  · rw [hstart]
    exact h.sorted.filter _
  · intro d hd
    rw [hstart, htime]
    exact h.past d (mem_of_mem_filter hd)
  · intro d hd
    rw [cur_withdraw, Option.filter_eq_some_iff] at hd
    rw [hlive]
    exact h.current d hd.1
  · intro d hd
    rw [tsPend_withdraw, Option.filter_eq_some_iff] at hd
    rw [hlive]
    exact h.touch d hd.1

lemma Tidy.adcRelease (h : Tidy isTs q s) (c : ι) : ∃ q, Scheduled isTs q (s.adcRelease c) := by
  have hq : c ∉ q.filter fun d => d ≠ c := by simp
  have hcur : (s.withdraw c).cur ≠ some c := by simp [cur_withdraw]
  have hts : (s.withdraw c).tsPend ≠ some c := by
    simp [tsPend_withdraw]
  have hfree := ((h.withdraw c).free hq hcur hts).resume
  unfold Device.adcRelease
  by_cases hidle : (s.withdraw c).cur = none
  · rw [if_pos hidle, adcTry_free] at hfree
    dsimp only
    rw [if_pos hidle, live_adcTry]
    exact hfree
  · simpa only [hidle, if_false] using hfree

lemma Scheduled.step (h : Scheduled isTs q s) (op : Op ι) (hop : Allowed isTs s op) :
    ∃ q, Scheduled isTs q (s.step isTs op) := by
  cases op with
  | start c n => exact h.adcStart n hop.1 fun hts => hop.2 hts q h.waiting
  | release c => exact h.toTidy.adcRelease c
  | irq left => exact h.adcIrq left

lemma scheduled_run (ops : List (Op ι)) (hops : Along (step isTs) (Allowed isTs) init ops) :
    ∃ q, Scheduled isTs q (runFrom (step isTs) init ops) := by
  refine Along.invariant (P := fun s => ∃ q, Scheduled isTs q s) ?_ ⟨[], scheduled_init⟩ hops
  rintro s op ⟨q, h⟩ hop
  exact h.step op hop

omit [Fintype ι] in
lemma Tidy.cur_adcIrq (h : Tidy isTs q s) {left : Option Nat} (hcur : s.cur = some c)
    (hlast : left.getD (s.nrSamples c - 1) = 0) : (s.adcIrq left).cur = (s.tsPend <|> q.head?) := by
  have hidle : Tidy isTs q { s with nrSamples := update s.nrSamples c 0, cur := none } :=
    { h with current := by simp }
  have htry := hidle.cur_adcTry rfl
  simpa only [adcIrq, hcur, hlast, lt_irrefl, if_false] using htry

lemma Tidy.cur_adcRelease (h : Tidy isTs q s) (hcur : s.cur = some c) :
    (s.adcRelease c).cur =
      ((s.tsPend.filter fun d => d ≠ c) <|> (q.filter fun d => d ≠ c).head?) := by
  have hidle : (s.withdraw c).cur = none := by simp [cur_withdraw, hcur]
  have htry := (h.withdraw c).cur_adcTry hidle
  rw [tsPend_withdraw] at htry
  simpa only [Device.adcRelease, hidle, if_true] using htry

/-- After every sequence of operations that starts no waiting client again, the list is well
formed and holds each client at most once and in the order of the starts, no released client
is in a slot, the device is idle only if nothing waits, and it goes to the touch screen first
and then to the head of the list. -/
theorem scheduler_sound (isTs : ι → Bool) (ops : List (Op ι))
    (hops : Along (Device.step isTs) (Allowed isTs) init ops) :
    let s := runFrom (Device.step isTs) init ops
    ∃ q, s.Waiting q ∧ q.Nodup ∧
      (∀ c ∈ q, s.live c = true) ∧ (∀ c, s.cur = some c → s.live c = true) ∧
      (∀ c, s.tsPend = some c → s.live c = true ∧ isTs c = true) ∧
      (s.cur = none → q = [] ∧ s.tsPend = none) ∧
      (q.Pairwise fun c d => s.startedAt c < s.startedAt d) ∧
      (∀ c left, s.cur = some c → left.getD (s.nrSamples c - 1) = 0 →
        (s.adcIrq left).cur = (s.tsPend <|> q.head?)) ∧
      ∀ c, s.cur = some c →
        (s.adcRelease c).cur =
          ((s.tsPend.filter fun d => d ≠ c) <|> (q.filter fun d => d ≠ c).head?) := by
  obtain ⟨q, h⟩ := scheduled_run ops hops
  refine ⟨q, h.waiting, Waiting.nodup h.waiting, fun c hc => (h.queued c hc).1, h.current,
    h.touch, h.busy, h.sorted, ?_, ?_⟩
  · exact fun c left hcur hlast => h.cur_adcIrq hcur hlast
  · exact fun c hcur => h.cur_adcRelease hcur

end Invariant

/-! ## Two clients -/

omit [DecidableEq ι] [Fintype ι] in
lemma Waiting.not_mem {s : Device ι} {q : List ι} {c : ι} (h : s.Waiting q)
    (hfirst : listFirst s.list = none) : c ∉ q := by
  rw [listFirst_eq h] at hfirst
  rw [head?_eq_none_iff.mp hfirst]
  exact not_mem_nil

def twoReads : List (Op Bool) :=
  [.start true 1, .start false 1, .irq none, .start true 1, .release true]

lemma twoReads_allowed :
    Along (Device.step fun _ => false) (Allowed fun _ => false) init twoReads := by
  refine ⟨⟨rfl, ?_⟩, ⟨rfl, ?_⟩, trivial, ⟨rfl, ?_⟩, rfl, trivial⟩
  · exact fun _ q hq => hq.not_mem rfl
  · exact fun _ q hq => hq.not_mem rfl
  · exact fun _ q hq => hq.not_mem rfl

theorem twoReads_scheduled :
    let s := runFrom (Device.step fun _ => false) init twoReads
    s.cur = some false ∧ s.live true = false ∧ ∃ q, s.Waiting q ∧ q.Nodup := by
  obtain ⟨q, hq, hnodup, -⟩ := scheduler_sound (fun _ => false) twoReads twoReads_allowed
  exact ⟨rfl, rfl, q, hq, hnodup⟩

/-- A client that reads again while its first read waits links its node to itself. -/
theorem startAgain_not_waiting :
    ¬ ∃ q, (runFrom (Device.step fun _ => false) init
      [Op.start false 1, .start true 1, .start true 1]).Waiting q := by
  rintro ⟨q, hq⟩
  have hfirst := (listFirst_eq hq).symm
  obtain ⟨q, rfl⟩ : ∃ q', q = true :: q' := head?_eq_some_iff.mp hfirst
  have hnext : Node.client true = firstNode q := path_firstNode hq.forward.2
  cases q with
  | nil => simp [firstNode] at hnext
  | cons d q =>
    obtain rfl : true = d := Node.client.inj hnext
    simpa using Waiting.nodup hq

end Device

end Mini2440.Adc
