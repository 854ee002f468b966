import Mini2440.Dma.Sound

/-!
# The queue of a channel agrees with its engine

The engine holds the first buffers of the queue, as many as the load state says, and `next`
is the one after them. Loading, starting and completing keep this. `dostop` does not: it
empties the engine and sets the load state to none, but leaves `next` past the buffers that
were loaded. The agreement is therefore proved for the runs in which a stop finds no buffer
loaded, whether it comes from a client, from `s3c2410_dma_free` or from a flush that reaches
another channel, and in which the flush of a loaded channel stops that channel.
-/

namespace Mini2440.Dma

open Library

namespace Chan

variable {c c' : Chan} {w : Window BufId} {dstat : Nat → BitVec 32}

/-- The engine holds exactly the first `k` buffers of the list from `curr`, where `k` is
given by the load state, and `next` is the buffer after them. -/
def Agrees (c : Chan) : Prop :=
  ∃ l, Linked (fun b => (c.bufs b).next) c.curr l ∧
    c.loadState.count ≤ l.length ∧
    c.engine.pending = l.take c.loadState.count ∧
    c.next = l[c.loadState.count]?

/-- The channel shows a window in step with its queue, and each completion was reported for
the buffer that the engine had finished. -/
structure Tracks (c : Chan) (w : Window BufId) : Prop where
  shows : c.Shows w
  inStep : w.InStep
  told : c.okDone = c.engine.finished

def Tracked (c : Chan) : Prop := ∃ w, c.Tracks w

section

variable (h : c.Tracks w)

include h

lemma Tracks.agrees : c.Agrees := by
  have hcount : w.cursor = c.loadState.count := by
    rw [h.inStep.cursor_eq, ← h.shows.flight, h.shows.holds.length]
  refine ⟨w.items, h.shows.queue.linked, ?_, ?_, ?_⟩
  · rw [← hcount]; exact w.cursor_le
  · rw [h.shows.flight, ← hcount]; exact h.inStep
  · rw [h.shows.upcoming, ← hcount]; rfl

lemma Tracks.loads (hl : Loads c c') : c'.Tracked := by
  obtain ⟨n, hs⟩ := hl.shows h.shows
  refine ⟨w.ahead n, hs, h.inStep.ahead, ?_⟩
  rw [okDone, hl.keeps.done, hl.keeps.finished]
  exact h.told

lemma Tracks.enqueue (id : Nat) (data : BitVec 32) (size : Int) :
    (c.enqueue id data size dstat).1.Tracked := by
  obtain ⟨n, hs⟩ := h.shows.enqueue id data size dstat
  obtain ⟨hdone, -, hfin, -, -⟩ := c.enqueue_observed id data size dstat
  refine ⟨_, hs, h.inStep.push.ahead, ?_⟩
  rw [okDone, hdone, hfin]
  exact h.told

lemma Tracks.rebook (hb : c.Rebook c') : c'.Tracks w := by
  have hs := hb.shows h.shows
  obtain ⟨_, _, _, _, _, _, _, _, rfl⟩ := hb
  exact { h with shows := hs }

lemma Tracks.freebuf (b : BufId) : (c.freebuf b).Tracks w := by
  have hs := h.shows.freebuf b
  obtain ⟨_, hf⟩ := freebuf_frame c b
  rw [hf] at hs ⊢
  exact { h with shows := hs }

lemma Tracks.deliver {x b : BufId} {e : Engine} (he : c.engine.complete = some (x, e))
    (hb : c.curr = some b) :
    (({ c with engine := e }.retire.unlinkCurr b).buffdone b .ok).Tracks w.finish := by
  obtain ⟨hpend, hfin, -⟩ := Engine.complete_some he
  have hflight : w.flight = x :: e.pending := h.shows.flight.symm.trans hpend
  have hhead : w.items.head? = some x := by
    rw [← h.inStep.head (by simp [hflight]), hflight]
    rfl
  obtain rfl : b = x := Option.some.inj (hb.symm.trans (h.shows.queue.curr_eq.trans hhead))
  refine ⟨(h.shows.finish hb he).buffdone b .ok, h.inStep.finish, ?_⟩
  have hok : okDone ((({ c with engine := e }.retire.unlinkCurr b)).buffdone b .ok) =
      c.okDone ++ [b] := by
    simp [okDone, buffdone, Chan.unlinkCurr, setNext, retire]
  rw [hok, h.told]
  exact hfin.symm

end

/-- A flush reports no completion, so only what the engine holds matters. -/
lemma Shows.tracks_detach (h : c.Shows w) (hs : c.loadState = .none)
    (told : c.okDone = c.engine.finished) : c.detach.Tracks .empty :=
  ⟨h.detach hs, Window.inStep_empty, told⟩

end Chan

namespace Driver

variable {p : Platform} {d : Driver} {c : Nat} {ev : Event} {v : View} {w : Window BufId}

/-- The calls that keep queue and engine in step: no stop of a channel finds a buffer loaded,
and the flush of a channel with a buffer loaded stops the channel itself. -/
def Orderly (d : Driver) : Event → Prop
  | .call (.ctrl channel .stop _) | .call (.free channel _) =>
    ∀ c, d.lookupChannel channel = some c → (d.chans c).loadState = .none
  | .call (.ctrl channel .flush _) => ∀ c, d.lookupChannel channel = some c →
    ((d.chans c).loadState = .none ∨ d.chanMap c = some c) ∧
    ∀ c', c' ≠ c → (d.chans c).state ≠ .idle → d.chanMap c = some c' →
      (d.chans c').loadState = .none
  | _ => True

lemma Orderly.flushStops (h : d.Orderly ev) (c : Nat) : FlushStops c d ev := by
  unfold FlushStops
  split
  · exact fun hlook => (h c hlook).1
  · trivial

/-- The loop of a flush reports no completion. -/
lemma View.tracked_abort (h : v.chan.Tracks w) (c : Nat) (buf : Option BufId) :
    (v.abort c buf).chan.Tracked := by
  cases buf with
  | none => exact ⟨w, h⟩
  | some b =>
    refine ⟨w, h.shows.buffdone b .abort, h.inStep, ?_⟩
    simpa [View.abort, Chan.okDone, Chan.buffdone] using h.told

/-- One event, seen from one channel. -/
lemma Acts.tracked (h : d.Acts c ev v) (ok : d.Orderly ev) (hs : d.IsSound c)
    (ht : (d.chans c).Tracked) : v.chan.Tracked := by
  obtain ⟨w, ht⟩ := ht
  cases h with
  | same => exact ⟨w, ht⟩
  | enqueue => exact ht.enqueue _ _ _
  | start => exact ht.loads Chan.loads_start
  | started => exact ht.loads Chan.loads_loadSecond
  | stop h => exact ht.loads (.single (.stop (ok c h)))
  | strayStop h busy map ne => exact ht.loads (.single (.stop ((ok _ h).2 c ne busy map)))
  | set book | request book => exact ⟨w, ht.rebook book⟩
  | free h book =>
    split_ifs at book
    · exact ⟨w, ht.rebook book⟩
    · obtain ⟨w', ht'⟩ := ht.loads (.single (.stop (ok c h)))
      exact ⟨w', ht'.rebook book⟩
  | flush h stop =>
    obtain rfl | ⟨rfl, hmiss⟩ := stop
    · exact View.tracked_abort (ht.shows.dostop.tracks_detach rfl ht.told) c _
    · have hnone : (d.chans c).loadState = .none :=
        hmiss.elim ht.shows.idle fun hmap => (ok c h).1.resolve_right hmap
      exact View.tracked_abort (ht.shows.tracks_detach hnone ht.told) c _
  | deliver he hb => exact ⟨_, ht.deliver he hb⟩
  | dead he hb dead => exact absurd (hs.live hb) dead
  | empty he hb =>
    obtain ⟨w', r, ws, hs⟩ := hs
    obtain ⟨b, hb', -⟩ := hs.deliver c (fun _ => 0) he
    simp [hb] at hb'
  | reload => exact (ht.freebuf _).loads Chan.loads_irqReload
  | release => exact View.tracked_abort (ht.freebuf _) c _

lemma step_tracked (ok : d.Orderly ev) (h : ∀ c, d.IsSound c ∧ (d.chans c).Tracked) (c : Nat) :
    (d.step p ev).IsSound c ∧ ((d.step p ev).chans c).Tracked :=
  ⟨(step_acts d ev).isSound (ok.flushStops c) (h c).1,
    (step_acts d ev).tracked ok (h c).1 (h c).2⟩

lemma tracked_init (c : Nat) : (init.chans c).Tracked :=
  ⟨.empty, ⟨⟨rfl, List.nodup_nil, by simp, by simp⟩, rfl, rfl, ⟨rfl, rfl⟩, fun _ => rfl⟩,
    Window.inStep_empty, rfl⟩

/-- In every orderly run the engine of each channel holds the first buffers of its queue, and
the buffers reported as complete are those that the engine finished, in its order. -/
theorem queue_agrees_with_engine (p : Platform) (es : List Event)
    (h : Along (step p) Orderly init es) (c : Nat) :
    ((run p es).chans c).Agrees ∧
      ((run p es).chans c).okDone = ((run p es).chans c).engine.finished := by
  have ht := h.invariant (P := fun d => ∀ c, d.IsSound c ∧ (d.chans c).Tracked)
    (fun _ _ hd ok => step_tracked ok hd) fun c => ⟨isSound_init c, tracked_init c⟩
  obtain ⟨-, w, hw⟩ := ht c
  exact ⟨hw.agrees, hw.told⟩

/-- A client of the I2S output (virtual channel 10): the callback of the first buffer queues a
second one, and the client stops the channel after the end of both. -/
def playback : List Event :=
  [.call (.request (.virt 10) 1 0),
   .call (.config (.virt 10) 4),
   .call (.enqueue (.virt 10) 0 0x30000000 64 true fun _ => 0),
   .call (.ctrl (.virt 10) .start fun _ => 0),
   .irq 2 fun _ => 1,
   .call (.enqueue (.virt 10) 1 0x30000040 64 true fun _ => 1),
   .ret,
   .irq 2 fun _ => 0,
   .ret,
   .call (.ctrl (.virt 10) .stop fun _ => 0)]

theorem playback_agrees :
    ((run s3c2440 playback).chans 2).engine.finished = [0, 1] ∧
      ((run s3c2440 playback).chans 2).okDone =
        ((run s3c2440 playback).chans 2).engine.finished := by
  have hstop : (run s3c2440 (playback.take 9)).lookupChannel (.virt 10) = some 2 := by
    decide +kernel
  have hmeets : Along (step s3c2440) Orderly init playback := by
    refine ⟨trivial, trivial, trivial, trivial, trivial, trivial, trivial, trivial, trivial, ?_,
      trivial⟩
    intro c hc
    obtain rfl : 2 = c := Option.some.inj (hstop.symm.trans hc)
    decide +kernel
  exact ⟨by decide +kernel, (queue_agrees_with_engine s3c2440 playback hmeets 2).2⟩

/-- The client stops the channel with a buffer loaded, queues another one and starts again. -/
def stopRestart : List Event :=
  [.call (.request (.virt 10) 1 0),
   .call (.config (.virt 10) 4),
   .call (.enqueue (.virt 10) 0 0x30000000 64 true fun _ => 0),
   .call (.ctrl (.virt 10) .start fun _ => 0),
   .call (.ctrl (.virt 10) .stop fun _ => 0),
   .call (.enqueue (.virt 10) 1 0x30000040 64 true fun _ => 0),
   .call (.ctrl (.virt 10) .start fun _ => 0),
   .irq 2 fun _ => 0]

/-- The restart skips the buffer that was loaded at the stop: the engine transfers the second
buffer, and the handler reports the first one as complete. -/
theorem stopRestart_disagrees :
    ((run s3c2440 stopRestart).chans 2).okDone = [0] ∧
      ((run s3c2440 stopRestart).chans 2).engine.finished = [1] ∧
      ¬ ∀ es c, ((run s3c2440 es).chans c).Agrees ∧
        ((run s3c2440 es).chans c).okDone = ((run s3c2440 es).chans c).engine.finished := by
  refine ⟨by decide, by decide, fun h => ?_⟩
  have heq := (h stopRestart 2).2
  exact absurd heq (by decide)

end Driver

end Mini2440.Dma
