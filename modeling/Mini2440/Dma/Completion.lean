import Mini2440.Dma.Sound

/-!
# Every accepted buffer is completed once

A channel whose accounts are in order and whose queue is empty has nothing left but the callbacks
that are running. A flush that stops its channel leaves it in this state, and so does the release
of a channel whose queue is empty. If the channel is given no further buffers, then its accounts
are settled when the last callback has returned.

Four things break this. An `enqueue` that times out reports an error and leaves its buffer
queued. A flush of a busy channel stops whatever channel the map gives for its number, and may
leave the engine with buffers that it has freed. A callback of the closing flush may enqueue
again. `s3c2410_dma_free` stops the channel and does not touch its queue.
-/

namespace Mini2440.Dma

open List Library

namespace Chan

variable {c c' : Chan} {dstat : Nat → BitVec 32}

/-- Nothing is left to do: each accepted buffer was reported once and freed once, the completed
ones in enqueue order, nothing else was, and the channel is empty and idle. -/
structure Settled (c : Chan) : Prop where
  nodup : c.accepted.Nodup
  reported : (c.done.map Prod.fst).Perm c.accepted
  order : c.okDone.Sublist c.accepted
  freed : c.freed.Perm c.accepted
  result : ∀ r ∈ c.done, r.2 = .ok ∨ r.2 = .abort
  curr : c.curr = none
  next : c.next = none
  last : c.last = none
  idle : c.state = .idle

def AcceptsAll (c : Chan) : Prop := c.accepted = range c.allocs

lemma AcceptsAll.keeps (h : c.AcceptsAll) (k : Keeps c c') : c'.AcceptsAll := by
  rw [AcceptsAll, k.accepted, k.allocs]
  exact h

lemma AcceptsAll.rebook (h : c.AcceptsAll) (hb : c.Rebook c') : c'.AcceptsAll := by
  obtain ⟨_, _, _, _, _, _, _, _, rfl⟩ := hb
  exact h

lemma AcceptsAll.enqueue (h : c.AcceptsAll) (hstall : ¬ c.Stalls dstat) (id : Nat)
    (data : BitVec 32) (size : Int) : (c.enqueue id data size dstat).1.AcceptsAll := by
  obtain ⟨-, -, -, hallocs, haccepted⟩ := c.enqueue_observed id data size dstat
  rw [AcceptsAll, hallocs, haccepted hstall, h, range_succ]

lemma AcceptsAll.freebuf (h : c.AcceptsAll) (b : BufId) : (c.freebuf b).AcceptsAll := by
  obtain ⟨_, hf⟩ := freebuf_frame c b
  rw [hf]
  exact h

/-- The channel is empty, and neither runs nor has a buffer loaded. -/
structure Rests (c : Chan) : Prop where
  curr : c.curr = none
  next : c.next = none
  last : c.last = none
  idle : c.state = .idle
  loadState : c.loadState = .none

lemma Rests.dostop (h : c.Rests) : c.dostop.Rests := { h with idle := rfl, loadState := rfl }

lemma Rests.rebook (h : c.Rests) (hb : c.Rebook c') : c'.Rests := by
  obtain ⟨_, _, _, _, _, _, _, _, rfl⟩ := hb
  exact { h with }

lemma Rests.freebuf (h : c.Rests) (b : BufId) : (c.freebuf b).Rests := by
  obtain ⟨_, hf⟩ := freebuf_frame c b
  rw [hf]
  exact { h with }

lemma Rests.start (h : c.Rests) : (c.start dstat).1.Rests := by
  unfold Chan.start
  dsimp only
  split_ifs with hrunning hnone hnext
  · exact h
  · exact { h with idle := rfl }
  · exact absurd h.next hnext
  · exact absurd h.loadState hnone

lemma Rests.loadSecond (h : c.Rests) : (c.loadSecond dstat).Rests := by
  simpa [Chan.loadSecond, h.next] using h

lemma Rests.irqReload (h : c.Rests) : (c.irqReload dstat).Rests := by
  have hlast : (c.lastxfer dstat).Rests := by
    unfold lastxfer
    split
    · exact { h with }
    all_goals simp_all [h.loadState]
  simpa [Chan.irqReload, h.next, hlast.loadState] using hlast.dostop

lemma rests_detach (idle : c.state = .idle) (hs : c.loadState = .none) : c.detach.Rests :=
  ⟨rfl, rfl, rfl, idle, hs⟩

end Chan

namespace Driver

variable {p : Platform} {d : Driver} {c : Nat} {a : Call} {ev : Event} {v : View}

/-- No `enqueue` on channel `c` times out. -/
def InTime (c : Nat) (d : Driver) : Event → Prop
  | .call (.enqueue channel _ _ _ mem dstat) =>
    d.lookupChannel channel = some c → mem = true → ¬ (d.chans c).Stalls dstat
  | _ => True

/-- The events that keep the accounts of channel `c`. -/
def Accountable (c : Nat) (d : Driver) (ev : Event) : Prop := InTime c d ev ∧ FlushStops c d ev

/-- The calls that end the use of channel `c`: a flush that finds the channel idle or stops
it, or a release that finds its three pointers cleared. -/
def Closes (c : Nat) (d : Driver) : Call → Prop
  | .ctrl channel .flush _ => d.lookupChannel channel = some c ∧
    ((d.chans c).state = .idle ∨ d.chanMap c = some c)
  | .free channel _ => d.lookupChannel channel = some c ∧
    (d.chans c).curr = none ∧ (d.chans c).next = none ∧ (d.chans c).last = none
  | _ => False

/-- The events that give channel `c` no buffer. -/
def Quiet (c : Nat) (d : Driver) : Event → Prop
  | .call (.enqueue channel _ _ _ _ _) => d.lookupChannel channel ≠ some c
  | _ => True

lemma View.acceptsAll_abort (h : v.chan.AcceptsAll) (c : Nat) (buf : Option BufId) :
    (v.abort c buf).chan.AcceptsAll := by
  cases buf <;> exact h

lemma View.rests_abort (h : v.chan.Rests) (c : Nat) (buf : Option BufId) :
    (v.abort c buf).chan.Rests := by
  cases buf with
  | none => exact h
  | some b => exact { h with }

lemma Acts.acceptsAll (h : d.Acts c ev v) (ok : InTime c d ev)
    (ha : (d.chans c).AcceptsAll) : v.chan.AcceptsAll := by
  cases h with
  | same => exact ha
  | enqueue h => exact ha.enqueue (ok h rfl) _ _ _
  | start => exact ha.keeps Chan.loads_start.keeps
  | started => exact ha.keeps Chan.loads_loadSecond.keeps
  | stop | strayStop => exact ha.keeps Chan.keeps_dostop
  | set book | request book => exact ha.rebook book
  | free h book =>
    split_ifs at book
    · exact ha.rebook book
    · exact (ha.keeps Chan.keeps_dostop).rebook book
  | flush h meets =>
    refine View.acceptsAll_abort ?_ c _
    obtain rfl | ⟨rfl, -⟩ := meets <;> exact ha
  | deliver | dead => exact ha
  | @empty _ _ e =>
    have hretire : ({ d.chans c with engine := e }.retire).AcceptsAll := ha
    exact hretire.keeps Chan.loads_irqReload.keeps
  | reload => exact (ha.freebuf _).keeps Chan.loads_irqReload.keeps
  | release => exact View.acceptsAll_abort (ha.freebuf _) c _

lemma Acts.rests (h : d.Acts c ev v) (quiet : Quiet c d ev) (hr : (d.chans c).Rests) :
    v.chan.Rests := by
  cases h with
  | same => exact hr
  | enqueue h => exact absurd h quiet
  | start => exact hr.start
  | started => exact hr.loadSecond
  | stop | strayStop => exact hr.dostop
  | set book | request book => exact hr.rebook book
  | free h book =>
    split_ifs at book
    · exact hr.rebook book
    · exact hr.dostop.rebook book
  | flush h meets =>
    refine View.rests_abort ?_ c _
    obtain rfl | ⟨rfl, -⟩ := meets
    · exact Chan.rests_detach rfl rfl
    · exact Chan.rests_detach hr.idle hr.loadState
  | deliver he hb => simp [hr.curr] at hb
  | dead he hb => simp [hr.curr] at hb
  | @empty _ _ e =>
    have hretire : ({ d.chans c with engine := e }.retire).Rests :=
      { hr with loadState := by simp [Chan.retire, LoadState.retire, hr.loadState] }
    exact hretire.irqReload
  | reload => exact (hr.freebuf _).irqReload
  | release => exact View.rests_abort (hr.freebuf _) c _

lemma step_accounts (ok : Accountable c d ev) (hs : d.IsSound c) (ha : (d.chans c).AcceptsAll) :
    (d.step p ev).IsSound c ∧ ((d.step p ev).chans c).AcceptsAll :=
  ⟨(step_acts d ev).isSound ok.2 hs, (step_acts d ev).acceptsAll ok.1 ha⟩

/-- The accounts of channel `c` are in order and its queue is empty. -/
def Closed (c : Nat) (d : Driver) : Prop :=
  d.IsSound c ∧ (d.chans c).AcceptsAll ∧ (d.chans c).Rests

lemma step_closed (quiet : Quiet c d ev) (h : Closed c d) : Closed c (d.step p ev) := by
  obtain ⟨hs, ha, hr⟩ := h
  have hin : InTime c d ev := by
    unfold InTime
    split
    · exact fun hlook => absurd hlook quiet
    · trivial
  have hflush : FlushStops c d ev := by
    unfold FlushStops
    split
    · exact fun _ => .inl hr.loadState
    · trivial
  obtain ⟨hs', ha'⟩ := step_accounts (p := p) ⟨hin, hflush⟩ hs ha
  exact ⟨hs', ha', (step_acts d ev).rests quiet hr⟩

/-! ## The closing call -/

/-- The loop of a flush ends when each callback returns. -/
lemma abort_ends {l : List BufId} (p : Platform) (d : Driver) (c : Nat) {buf : Option BufId}
    (h : Linked (fun b => ((d.chans c).bufs b).next) buf l) :
    ∃ n, (runFrom (step p) (d.abort c buf) (replicate n .ret)).stack = d.stack := by
  induction l generalizing d buf with
  | nil =>
    obtain rfl := linked_nil.mp h
    exact ⟨0, rfl⟩
  | cons b l ih =>
    obtain ⟨rfl, hrest⟩ := linked_cons.mp h
    have hlinked : Linked (fun a => (((d.modify c fun chan =>
        (chan.buffdone b .abort).freebuf b).chans c).bufs a).next) ((d.chans c).bufs b).next l := by
      refine hrest.congr fun a _ => ?_
      rw [chans_modify_self]
      exact Chan.next_freebuf _ a b
    have hret : (d.abort c (some b)).ret =
        (d.modify c fun chan => (chan.buffdone b .abort).freebuf b).abort c
          ((d.chans c).bufs b).next := by
      simp [abort, ret, modify]
    obtain ⟨n, hn⟩ := ih _ hlinked
    exact ⟨n + 1, by simpa [replicate_succ, step, hret] using hn⟩

lemma closes_rests (hc : Closes c d a) (hs : d.IsSound c) : ((d.exec p a).chans c).Rests := by
  obtain ⟨w, r, ws, hs⟩ := hs
  match a, hc with
  | .ctrl channel .flush dstat, ⟨hlook, hstop⟩ =>
    obtain ⟨chan, hmeets, hview⟩ := d.view_flush c
    have hchan : ((d.exec p (.ctrl channel .flush dstat)).chans c) =
        (View.abort ⟨chan.detach, d.frames c⟩ c (chan.curr.or chan.next)).chan := by
      rw [← hview]
      simp [exec, ctrl, hlook, view]
    rw [hchan]
    refine View.rests_abort ?_ c _
    obtain rfl | ⟨rfl, hmiss⟩ := hmeets
    · exact Chan.rests_detach rfl rfl
    · have hidle : (d.chans c).state = .idle :=
        hmiss.elim id fun hmap => hstop.resolve_right hmap
      exact Chan.rests_detach hidle (hs.shows.idle hidle)
  | .free channel client, ⟨hlook, hcurr, hnext, hlast⟩ =>
    simp only [exec]
    rw [chans_free client hlook]
    split_ifs with hidle
    · exact ⟨hcurr, hnext, hlast, hidle, hs.shows.idle hidle⟩
    · exact ⟨hcurr, hnext, hlast, rfl, rfl⟩

lemma closes_closed (hc : Closes c d a) (hs : d.IsSound c) (ha : (d.chans c).AcceptsAll) :
    Closed c (d.exec p a) := by
  have hok : Accountable c d (.call a) := by
    match a, hc with
    | .ctrl channel .flush dstat, ⟨_, hstop⟩ =>
      obtain ⟨w, r, ws, hs⟩ := hs
      exact ⟨trivial, fun _ => hstop.imp_left hs.shows.idle⟩
    | .free channel client, _ => exact ⟨trivial, trivial⟩
  obtain ⟨hs', ha'⟩ := step_accounts (p := p) hok hs ha
  exact ⟨hs', ha', closes_rests hc hs⟩

/-- The closing call ends when its callbacks return. -/
lemma closes_ends (hc : Closes c d a) (hs : d.IsSound c) :
    ∃ n, (runFrom (step p) (d.exec p a) (replicate n .ret)).stack = d.stack := by
  obtain ⟨w, r, ws, hs⟩ := hs
  match a, hc with
  | .ctrl channel .flush dstat, ⟨hlook, _⟩ =>
    have hlinked := hs.shows.queue.linked
    rw [← hs.shows.curr_or_next] at hlinked
    simp only [exec, ctrl, hlook, flush]
    split_ifs with hidle
    · have hstop := chans_ctrlStop d (.virt c) c
      refine (abort_ends p _ c (l := w.items) ?_).imp fun n hn => hn.trans (by simp)
      rw [chans_modify_self, hstop]
      split_ifs <;> exact hlinked
    · refine abort_ends p (d.modify c Chan.detach) c (l := w.items) ?_
      rw [chans_modify_self]
      exact hlinked
  | .free channel client, _ => exact ⟨0, by simp [exec]⟩

/-- The accounts of a channel that rests, and where each buffer was accepted, are settled when
no callback is left. -/
lemma settled_of_rests (hs : d.IsSound c) (ha : (d.chans c).AcceptsAll)
    (hr : (d.chans c).Rests) (hstack : d.stack = []) : (d.chans c).Settled := by
  obtain ⟨w, r, ws, hs⟩ := hs
  have hframes := hs.frames
  rw [view, frames, hstack] at hframes
  cases hframes
  have hitems : w.items = [] := hs.shows.queue.linked.unique hr.curr
  have haccount := hs.account
  have hfreed := hs.freed
  have horder := hs.order
  rw [hitems] at haccount horder
  simp only [append_nil] at haccount hfreed horder
  rw [view, ← ha] at haccount horder
  refine ⟨ha ▸ nodup_range, haccount, horder, hfreed.trans haccount, hs.result, hr.curr, hr.next,
    hr.last, hr.idle⟩

/-- In every run that keeps the accounts of channel `c` and then closes it, the closing call ends
if its callbacks return. Once no callback is left, each buffer accepted on the channel was
reported exactly once and freed exactly once, the completed ones in order, no other buffer was
reported, and the channel is empty and idle, provided that the callbacks gave it no buffer. -/
theorem accepted_buffers_completed_once (p : Platform) (es : List Event) (c : Nat) (a : Call)
    (h : Along (step p) (Accountable c) init es) (hc : Closes c (run p es) a) :
    (∃ n, (run p (es ++ .call a :: replicate n .ret)).stack = (run p es).stack) ∧
      ∀ es', Along (step p) (Quiet c) (run p (es ++ [.call a])) es' →
        (run p (es ++ .call a :: es')).stack = [] →
          ((run p (es ++ .call a :: es')).chans c).Settled := by
  obtain ⟨hs, ha⟩ := h.invariant (P := fun d => d.IsSound c ∧ (d.chans c).AcceptsAll)
    (fun d ev hd ok => step_accounts ok hd.1 hd.2) ⟨isSound_init c, rfl⟩
  have hrun (es' : List Event) : run p (es ++ .call a :: es') =
      runFrom (step p) ((run p es).exec p a) es' := by
    simp [run, step]
  rw [hrun [], runFrom_nil]
  simp only [hrun]
  refine ⟨closes_ends hc hs, fun es' hquiet hstack => ?_⟩
  obtain ⟨hs, ha, hr⟩ := hquiet.invariant (fun _ _ hd ok => step_closed ok hd)
    (closes_closed hc hs ha)
  exact settled_of_rests hs ha hr hstack

/-- A client of the I2S input (virtual channel 9, hardware channel 1): one buffer completes, a
second one is loaded and a third one waits when the client flushes the channel it has stopped. -/
def capture : List Event :=
  [.call (.request (.virt 9) 1 0),
   .call (.config (.virt 9) 4),
   .call (.enqueue (.virt 9) 0 0x30000000 64 true fun _ => 1),
   .call (.ctrl (.virt 9) .start fun _ => 1),
   .call (.enqueue (.virt 9) 1 0x30000040 64 true fun _ => 1),
   .irq 1 fun _ => 1,
   .call (.enqueue (.virt 9) 2 0x30000080 64 true fun _ => 1),
   .ret,
   .call (.ctrl (.virt 9) .stop fun _ => 1)]

/-- The client closes the channel with a flush; the callbacks for the two buffers return. -/
theorem capture_completed_once :
    ((run s3c2440 capture).chans 1).accepted = [0, 1, 2] ∧
      ((run s3c2440 (capture ++ [.call (.ctrl (.virt 9) .flush fun _ => 1), .ret, .ret])).chans
        1).Settled := by
  have hmeets : Along (step s3c2440) (Accountable 1) init capture := by
    refine ⟨⟨trivial, trivial⟩, ⟨trivial, trivial⟩, ⟨?_, trivial⟩, ⟨trivial, trivial⟩,
      ⟨?_, trivial⟩, ⟨trivial, trivial⟩, ⟨?_, trivial⟩, ⟨trivial, trivial⟩, ⟨trivial, trivial⟩,
      trivial⟩
    all_goals exact fun _ _ hs => absurd (hs.2.2 0 (by decide +kernel)) (by decide)
  have hcloses : Closes 1 (run s3c2440 capture) (.ctrl (.virt 9) .flush fun _ => 1) :=
    ⟨by decide +kernel, .inl (by decide +kernel)⟩
  exact ⟨by decide +kernel,
    (accepted_buffers_completed_once s3c2440 capture 1 _ hmeets hcloses).2 [.ret, .ret]
      ⟨trivial, trivial, trivial⟩ (isEmpty_iff.mp (by decide +kernel))⟩

def freeQueued : List Event :=
  [.call (.request (.virt 9) 1 0),
   .call (.config (.virt 9) 4),
   .call (.enqueue (.virt 9) 0 0x30000000 64 true fun _ => 0)]

/-- The release neither reports nor frees the buffer, and leaves it queued for the next client. -/
theorem freeQueued_not_settled :
    let c := (run s3c2440 (freeQueued ++ [.call (.free (.virt 9) 1)])).chans 1
    c.accepted = [0] ∧ c.done = [] ∧ c.freed = [] ∧ c.curr = some 0 ∧ ¬ c.Settled := by
  refine ⟨by decide, by decide, by decide, by decide, fun h => ?_⟩
  have hreported := h.reported
  exact absurd hreported (by decide)

end Driver

end Mini2440.Dma
