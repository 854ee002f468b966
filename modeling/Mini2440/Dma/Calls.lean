import Mini2440.Dma.Driver
import Mini2440.Dma.Queue

/-!
# What an event does to each channel

`Acts d c ev v` lists every way in which an event in state `d` can leave channel `c` and its
callbacks. It is proved once, from the definitions of the entry points, and every invariant of
the channels is then a case analysis over it. A flush is the one call that reaches a channel
other than the one it names: the stop of a busy channel goes wherever the map sends the
channel's number.
-/

namespace Mini2440.Dma

open Function Library

/-- The two channels differ in the fields written by requests, releases and settings. -/
def Chan.Rebook (c c' : Chan) : Prop :=
  ∃ inUse irqClaimed irqEnabled client reqCh flags dcon xferUnit, c' =
    { c with
      inUse := inUse
      irqClaimed := irqClaimed
      irqEnabled := irqEnabled
      client := client
      reqCh := reqCh
      flags := flags
      dcon := dcon
      xferUnit := xferUnit }

lemma Chan.Rebook.refl (c : Chan) : c.Rebook c := ⟨_, _, _, _, _, _, _, _, rfl⟩

lemma Chan.Rebook.queue {c c' : Chan} {l : List BufId} (h : c.Rebook c') (hq : c.Queue l) :
    c'.Queue l := by
  obtain ⟨_, _, _, _, _, _, _, _, rfl⟩ := h
  exact hq.congr rfl rfl rfl rfl

lemma Chan.Rebook.shows {c c' : Chan} {w : Window BufId} (h : c.Rebook c') (hs : c.Shows w) :
    c'.Shows w := by
  have hq := h.queue hs.queue
  obtain ⟨_, _, _, _, _, _, _, _, rfl⟩ := h
  exact { hs with queue := hq }

lemma Chan.rebook_config (c : Chan) (dconMask : BitVec 32) (xferunit : Int) :
    c.Rebook (c.config dconMask xferunit).1 ∧ (c.config dconMask xferunit).1.owner = c.owner := by
  unfold Chan.config
  cases Chan.unitDcon xferunit with
  | none => exact ⟨.refl c, rfl⟩
  | some unit => exact ⟨⟨_, _, _, _, _, _, _, _, rfl⟩, rfl⟩

namespace Driver

variable {d : Driver} {c c' irqErr : Nat} {f : Chan → Chan} {p : Platform} {channel : Channel}

@[simp] lemma chanMap_modify : (d.modify c f).chanMap = d.chanMap := rfl

@[simp] lemma stack_modify : (d.modify c f).stack = d.stack := rfl

@[simp] lemma chans_modify_self : (d.modify c f).chans c = f (d.chans c) := by
  simp [modify]

@[simp] lemma chans_modify_ne (h : c' ≠ c) : (d.modify c f).chans c' = d.chans c' := by
  simp [modify, h]

/-- What concerns channel `c`: its state, and the callbacks for its buffers. -/
structure View where
  chan : Chan
  frames : List Frame

def frames (d : Driver) (c : Nat) : List Frame := d.stack.filter (·.chan = c)

def view (d : Driver) (c : Nat) : View := ⟨d.chans c, d.frames c⟩

/-- The loop of `flush` on the channel itself. -/
def View.abort (v : View) (c : Nat) : Option BufId → View
  | none => v
  | some b => ⟨v.chan.buffdone b .abort, .flush c b (v.chan.bufs b).next :: v.frames⟩

lemma view_modify (d : Driver) (c' : Nat) (f : Chan → Chan) (c : Nat) :
    (d.modify c' f).view c =
      if c = c' then ⟨f (d.chans c), d.frames c⟩ else d.view c := by
  by_cases hc : c = c'
  · subst hc; simp [view, frames]
  · simp [view, frames, hc]

lemma view_abort (d : Driver) (c' : Nat) (buf : Option BufId) (c : Nat) :
    (d.abort c' buf).view c = if c = c' then (d.view c).abort c buf else d.view c := by
  cases buf with
  | none => simp [abort, View.abort]
  | some b =>
    by_cases hc : c = c'
    · subst hc; simp [abort, View.abort, view, frames, Frame.chan]
    · simp [abort, view, frames, hc, Ne.symm hc, Frame.chan]

lemma chans_ctrlStop (d : Driver) (channel : Channel) (c : Nat) :
    (d.ctrlStop channel).1.chans c =
      if d.lookupChannel channel = some c then (d.chans c).dostop else d.chans c := by
  unfold ctrlStop
  cases h : d.lookupChannel channel with
  | none => simp
  | some c' =>
    by_cases hc : c' = c
    · subst hc; simp
    · simp [hc, Ne.symm hc]

@[simp] lemma ctrlStop_frame (d : Driver) (channel : Channel) :
    (d.ctrlStop channel).1.stack = d.stack ∧ (d.ctrlStop channel).1.chanMap = d.chanMap := by
  unfold ctrlStop
  split <;> exact ⟨rfl, rfl⟩

/-- A flush of channel `c` finds the channel `chan`: the stop of a busy channel has reached it or
has missed it. -/
def FlushMeets (d : Driver) (c : Nat) (chan : Chan) : Prop :=
  chan = (d.chans c).dostop ∨
    chan = d.chans c ∧ ((d.chans c).state = .idle ∨ d.chanMap c ≠ some c)

inductive Acts (d : Driver) (c : Nat) : Event → View → Prop where
  | same (ev : Event) : Acts d c ev (d.view c)
  | enqueue {channel id data size dstat} (h : d.lookupChannel channel = some c) :
      Acts d c (.call (.enqueue channel id data size true dstat))
        ⟨((d.chans c).enqueue id data size dstat).1, d.frames c⟩
  | start {channel dstat} (h : d.lookupChannel channel = some c) :
      Acts d c (.call (.ctrl channel .start dstat))
        ⟨((d.chans c).start dstat).1, d.frames c⟩
  | started {channel dstat} (h : d.lookupChannel channel = some c) :
      Acts d c (.call (.ctrl channel .started dstat))
        ⟨(d.chans c).loadSecond dstat, d.frames c⟩
  | stop {channel dstat} (h : d.lookupChannel channel = some c) :
      Acts d c (.call (.ctrl channel .stop dstat)) ⟨(d.chans c).dostop, d.frames c⟩
  | flush {channel dstat} {chan : Chan} (h : d.lookupChannel channel = some c)
      (stop : d.FlushMeets c chan) :
      Acts d c (.call (.ctrl channel .flush dstat))
        (View.abort ⟨chan.detach, d.frames c⟩ c (chan.curr.or chan.next))
  | strayStop {channel dstat} {c' : Nat} (h : d.lookupChannel channel = some c')
      (busy : (d.chans c').state ≠ .idle) (map : d.chanMap c' = some c) (ne : c ≠ c') :
      Acts d c (.call (.ctrl channel .flush dstat)) ⟨(d.chans c).dostop, d.frames c⟩
  | set {a : Call} {chan : Chan} (h : (d.chans c).Rebook chan)
      (owner : chan.owner = (d.chans c).owner) : Acts d c (.call a) ⟨chan, d.frames c⟩
  | request {channel client irqErr} {chan : Chan} (h : (d.chans c).Rebook chan) :
      Acts d c (.call (.request channel client irqErr)) ⟨chan, d.frames c⟩
  | free {channel client} {chan : Chan} (h : d.lookupChannel channel = some c)
      (book : (if (d.chans c).state = .idle then d.chans c else (d.chans c).dostop).Rebook chan) :
      Acts d c (.call (.free channel client)) ⟨chan, d.frames c⟩
  | deliver {dstat x b} {e : Engine} (he : (d.chans c).engine.complete = some (x, e))
      (hb : (d.chans c).curr = some b) (live : ((d.chans c).bufs b).magic = bufMagic) :
      Acts d c (.irq c dstat)
        ⟨({ d.chans c with engine := e }.retire.unlinkCurr b).buffdone b .ok,
          .irq c b dstat :: d.frames c⟩
  /-- A buffer that was freed already is taken off the queue and nothing else is done. -/
  | dead {dstat x b} {e : Engine} (he : (d.chans c).engine.complete = some (x, e))
      (hb : (d.chans c).curr = some b) (dead : ((d.chans c).bufs b).magic ≠ bufMagic) :
      Acts d c (.irq c dstat)
        ⟨{ d.chans c with engine := e }.retire.unlinkCurr b, d.frames c⟩
  | empty {dstat x} {e : Engine} (he : (d.chans c).engine.complete = some (x, e))
      (hb : (d.chans c).curr = none) :
      Acts d c (.irq c dstat)
        ⟨{ d.chans c with engine := e }.retire.irqReload dstat, d.frames c⟩
  | reload {b dstat} {fs : List Frame} (h : d.frames c = .irq c b dstat :: fs) :
      Acts d c .ret ⟨((d.chans c).freebuf b).irqReload dstat, fs⟩
  | release {b next} {fs : List Frame} (h : d.frames c = .flush c b next :: fs) :
      Acts d c .ret (View.abort ⟨(d.chans c).freebuf b, fs⟩ c next)

/-- An event that acts on one channel and on nothing else. -/
lemma Acts.of_modify {ev : Event} {c' : Nat} (h : d.Acts c' ev ⟨f (d.chans c'), d.frames c'⟩) :
    d.Acts c ev ((d.modify c' f).view c) := by
  rw [view_modify]
  split_ifs with hc
  · exact hc ▸ h
  · exact .same _

lemma acts_enqueue (d : Driver) (id : Nat) (data : BitVec 32)
    (size : Int) (mem : Bool) (dstat : Nat → BitVec 32) :
    d.Acts c (.call (.enqueue channel id data size mem dstat))
      ((d.enqueue channel id data size mem dstat).1.view c) := by
  unfold enqueue
  cases h : d.lookupChannel channel with
  | none => exact .same _
  | some c' =>
    cases mem with
    | false => exact .same _
    | true =>
      simp only [if_true]
      refine .of_modify ?_
      exact .enqueue h

lemma acts_stop (d : Driver) {ev : Event}
    (h : d.lookupChannel channel = some c → d.Acts c ev ⟨(d.chans c).dostop, d.frames c⟩) :
    d.Acts c ev ((d.ctrlStop channel).1.view c) := by
  rw [view, frames, (d.ctrlStop_frame channel).1, chans_ctrlStop]
  split_ifs with hc
  · exact h hc
  · exact .same _

lemma view_flush (d : Driver) (c : Nat) : ∃ chan, d.FlushMeets c chan ∧
    (d.flush c).1.view c = View.abort ⟨chan.detach, d.frames c⟩ c (chan.curr.or chan.next) := by
  unfold flush
  dsimp only
  rw [view_abort, view_modify, if_pos rfl, if_pos rfl]
  split_ifs with hidle
  · rw [frames, (ctrlStop_frame d _).1]
    refine ⟨_, ?_, rfl⟩
    rw [chans_ctrlStop]
    split_ifs with hmap
    · exact .inl rfl
    · exact .inr ⟨rfl, .inr hmap⟩
  · exact ⟨_, .inr ⟨rfl, .inl (not_not.mp hidle)⟩, rfl⟩

lemma acts_flush (d : Driver) {c' : Nat}
    (dstat : Nat → BitVec 32) (h : d.lookupChannel channel = some c') :
    d.Acts c (.call (.ctrl channel .flush dstat)) ((d.flush c').1.view c) := by
  by_cases hc : c = c'
  · subst hc
    obtain ⟨chan, hmeets, hview⟩ := d.view_flush c
    rw [hview]
    exact .flush h hmeets
  · unfold flush
    dsimp only
    rw [view_abort, view_modify, if_neg hc, if_neg hc]
    split_ifs with hidle
    · exact acts_stop d fun hmap => .strayStop h hidle hmap hc
    · exact .same _

lemma acts_ctrl (d : Driver) (op : ChanOp) (dstat : Nat → BitVec 32) :
    d.Acts c (.call (.ctrl channel op dstat)) ((d.ctrl channel op dstat).1.view c) := by
  unfold ctrl
  cases h : d.lookupChannel channel with
  | none => exact .same _
  | some c' =>
    cases op with
    | pause | resume | timeout => exact .same _
    | flush => exact acts_flush d dstat h
    | stop => exact acts_stop d fun hc => .stop hc
    | start =>
      dsimp only
      refine .of_modify ?_
      exact .start h
    | started =>
      dsimp only
      refine .of_modify ?_
      exact .started h

def booked (p : Platform) (v client irqErr c : Nat) (chan : Chan) : Chan :=
  { chan with
    reqCh := v
    dcon := p.channels v c &&& ~~~dmaChValid
    client := some client
    inUse := chan.irqClaimed || irqErr == 0
    irqClaimed := chan.irqClaimed || irqErr == 0
    irqEnabled := chan.irqEnabled || (!chan.irqClaimed && irqErr == 0) }

lemma request_of_none {client : Nat} (h : d.findChannel p channel = none) :
    d.request p channel client irqErr = (d, .error (-EBUSY)) := by
  cases channel with
  | lowLevel _ => rfl
  | virt v => simp [request, mapChannel, h]

lemma request_of_some {v client : Nat} (h : d.findChannel p (.virt v) = some c) :
    d.request p (.virt v) client irqErr =
      ({ d with
          chans := update d.chans c (booked p v client irqErr c (d.chans c))
          chanMap := update d.chanMap v (some c) },
        if (d.chans c).irqClaimed || irqErr == 0 then .ok (.lowLevel c)
        else .error (-(irqErr : Int))) := by
  simp only [request, mapChannel, h, Option.map_some, modify, Platform.select, booked]
  cases (d.chans c).irqClaimed with
  | true => simp
  | false =>
    by_cases herr : irqErr = 0
    · simp [herr]
    · have hbeq : (irqErr == 0) = false := by simpa using herr
      simp [herr, hbeq]

@[simp] lemma stack_request (d : Driver) (client : Nat) :
    (d.request p channel client irqErr).1.stack = d.stack := by
  cases hfind : d.findChannel p channel with
  | none => rw [request_of_none hfind]
  | some c' =>
    cases channel with
    | lowLevel _ => simp [findChannel] at hfind
    | virt v => rw [request_of_some hfind]

lemma rebook_request (d : Driver) (client : Nat) :
    (d.chans c).Rebook ((d.request p channel client irqErr).1.chans c) := by
  cases hfind : d.findChannel p channel with
  | none => rw [request_of_none hfind]; exact .refl _
  | some c' =>
    cases channel with
    | lowLevel _ => simp [findChannel] at hfind
    | virt v =>
      rw [request_of_some hfind]
      dsimp only
      by_cases hc : c = c'
      · subst hc
        rw [update_self]
        exact ⟨_, _, _, _, _, _, _, _, rfl⟩
      · rw [update_of_ne hc]
        exact .refl _

lemma chans_free (client : Nat) (h : d.lookupChannel channel = some c) :
    (d.free channel client).1.chans c =
      { (if (d.chans c).state = .idle then d.chans c else (d.chans c).dostop) with
        client := none, inUse := false, irqClaimed := false } := by
  have hstop := chans_ctrlStop d channel c
  rw [h] at hstop
  unfold free
  rw [h]
  split_ifs with hidle <;> cases channel <;> simp [hidle, hstop]

lemma chans_free_ne (client : Nat) (h : d.lookupChannel channel ≠ some c) :
    (d.free channel client).1.chans c = d.chans c := by
  have hstop := chans_ctrlStop d channel c
  rw [if_neg h] at hstop
  unfold free
  cases h' : d.lookupChannel channel with
  | none => rfl
  | some c' =>
    have hc : c ≠ c' := fun hc => h (hc ▸ h')
    dsimp only
    split_ifs <;> cases channel <;> simp [hc, hstop]

@[simp] lemma stack_free (d : Driver) (channel : Channel) (client : Nat) :
    (d.free channel client).1.stack = d.stack := by
  unfold free
  cases d.lookupChannel channel with
  | none => rfl
  | some c' =>
    dsimp only
    split_ifs <;> cases channel <;> simp

lemma acts_free (d : Driver) (client : Nat) :
    d.Acts c (.call (.free channel client)) ((d.free channel client).1.view c) := by
  rw [view, frames, stack_free]
  by_cases h : d.lookupChannel channel = some c
  · refine .free h ?_
    rw [chans_free client h]
    exact ⟨_, _, _, _, _, _, _, _, rfl⟩
  · rw [chans_free_ne client h]
    exact .same _

lemma acts_call (d : Driver) (a : Call) : d.Acts c (.call a) ((d.exec p a).view c) := by
  cases a with
  | enqueue channel id data size mem dstat => exact acts_enqueue d id data size mem dstat
  | ctrl channel op dstat => exact acts_ctrl d op dstat
  | setflags channel flags =>
    simp only [exec, setflags]
    cases d.lookupChannel channel with
    | none => exact .same _
    | some c' =>
      dsimp only
      refine .of_modify ?_
      exact .set ⟨_, _, _, _, _, _, _, _, rfl⟩ rfl
  | config channel xferunit =>
    simp only [exec, config]
    cases d.lookupChannel channel with
    | none => exact .same _
    | some c' =>
      dsimp only
      refine .of_modify ?_
      exact .set (Chan.rebook_config _ _ _).1 (Chan.rebook_config _ _ _).2
  | request channel client irqErr =>
    rw [exec, view, frames, stack_request]
    exact .request (rebook_request d client)
  | free channel client => exact acts_free d client

/-! ## Interrupts and returns -/

lemma acts_interrupt (d : Driver) (c' : Nat) (dstat : Nat → BitVec 32) :
    d.Acts c (.irq c' dstat) ((d.interrupt c' dstat).view c) := by
  unfold interrupt
  split
  case h_2 => exact .same _
  case h_1 x e hstack he =>
    unfold irq
    by_cases hc : c = c'
    · subst hc
      cases hb : (d.chans c).curr with
      | none => simpa [hb, view, frames] using Acts.empty he hb
      | some b =>
        by_cases live : ((d.chans c).bufs b).magic = bufMagic
        · have hact : d.Acts c (.irq c dstat) _ := .deliver he hb live
          simpa [hb, live, view, frames, Frame.chan, Chan.unlinkCurr, Chan.retire, Chan.setNext]
            using hact
        · have hact : d.Acts c (.irq c dstat) _ := .dead he hb live
          simpa [hb, live, view, frames, Chan.unlinkCurr, Chan.retire, Chan.setNext] using hact
    · have hview : ((d.modify c' fun chan => { chan with engine := e }).irq c' dstat).view c =
          d.view c := by
        unfold irq
        dsimp only
        split
        · simp [view, frames, hc]
        · split_ifs <;> simp [view, frames, hc, Ne.symm hc, Frame.chan]
      exact hview ▸ .same _

lemma acts_ret (d : Driver) : d.Acts c .ret (d.ret.view c) := by
  unfold ret
  split
  case h_1 => exact .same _
  case h_2 c' b dstat s hstack =>
    by_cases hc : c' = c
    · subst hc
      have hframes : d.frames c' = .irq c' b dstat :: s.filter (·.chan = c') := by
        simp [frames, hstack, Frame.chan]
      simpa [view, frames] using Acts.reload hframes
    · have hact := Acts.same (d := d) (c := c) .ret
      simpa [view, frames, hstack, Frame.chan, hc, Ne.symm hc] using hact
  case h_3 c' b next s hstack =>
    rw [view_abort]
    by_cases hc : c' = c
    · subst hc
      have hframes : d.frames c' = .flush c' b next :: s.filter (·.chan = c') := by
        simp [frames, hstack, Frame.chan]
      simpa [view, frames] using Acts.release hframes
    · have hact := Acts.same (d := d) (c := c) .ret
      simpa [view, frames, hstack, Frame.chan, hc, Ne.symm hc] using hact

/-- Every effect of an event on a channel is one of the listed ones. -/
lemma step_acts (d : Driver) (ev : Event) : d.Acts c ev ((d.step p ev).view c) := by
  cases ev with
  | call a => exact acts_call d a
  | irq c' dstat => exact acts_interrupt d c' dstat
  | ret => exact acts_ret d

end Driver

end Mini2440.Dma
