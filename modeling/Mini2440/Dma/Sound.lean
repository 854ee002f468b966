import Mini2440.Dma.Calls

/-!
# The accounts of a channel

Each buffer that was ever linked has been reported to the client, is queued, or was taken off
the queue by a flush that has not come to it yet. A reported buffer has been freed, or is freed
when its callback returns. These accounts hold in every run in which the flush of a channel with
a buffer loaded stops that channel: any other flush leaves the engine with buffers that are no
longer queued, and the interrupts for them report whatever comes first on the queue.
-/

namespace Mini2440.Dma

open List Function Library

def Chan.okDone (c : Chan) : List BufId := (c.done.filter (·.2 = .ok)).map (·.1)

/-- The buffer that is freed when the callback returns. -/
def Frame.buf : Frame → BufId
  | .irq _ b _ => b
  | .flush _ b _ => b

/-- The buffer that is aborted next when the callback has returned. -/
def Frame.rest : Frame → Option BufId
  | .irq _ _ _ => none
  | .flush _ _ next => next

/-- The callbacks on the stack are those of the buffers `r`, and the flushes among them, with
the one that is about to abort `buf`, have the buffers `ws` left to abort. -/
inductive Frames (next : BufId → Option BufId) :
    Option BufId → List Frame → List BufId → List BufId → Prop where
  | nil : Frames next none [] [] []
  | enter {f : Frame} {s r ws} (h : Frames next f.rest s r ws) :
      Frames next none (f :: s) (f.buf :: r) ws
  | loop {b : BufId} {s r ws} (h : Frames next (next b) s r ws) : Frames next (some b) s r (b :: ws)

lemma Frames.congr {next next' : BufId → Option BufId} {buf : Option BufId} {s : List Frame}
    {r ws : List BufId} (h : Frames next buf s r ws) (hnext : ∀ b ∈ ws, next' b = next b) :
    Frames next' buf s r ws := by
  induction h with
  | nil => exact .nil
  | enter h ih => exact .enter (ih hnext)
  | loop h ih =>
    obtain ⟨hb, hws⟩ := forall_mem_cons.mp hnext
    have htail := ih hws
    rw [← hb] at htail
    exact .loop htail

/-- A flush takes over the whole queue. -/
lemma Frames.detach {next : BufId → Option BufId} {s : List Frame} {r ws l : List BufId}
    {start : Option BufId} (h : Frames next none s r ws) (hl : Linked next start l) :
    Frames next start s r (l ++ ws) := by
  induction l generalizing start with
  | nil => obtain rfl := linked_nil.mp hl; exact h
  | cons b l ih =>
    obtain ⟨rfl, hrest⟩ := linked_cons.mp hl
    exact .loop (ih hrest)

namespace Driver

/-- The accounts of a channel in the middle of a flush that is about to abort `buf`. -/
structure View.Sound (v : View) (buf : Option BufId) (w : Window BufId) (r ws : List BufId) :
    Prop where
  shows : v.chan.Shows w
  frames : Frames (fun b => (v.chan.bufs b).next) buf v.frames r ws
  account : (v.chan.done.map Prod.fst ++ (w.items ++ ws)).Perm (range v.chan.allocs)
  freed : (v.chan.freed ++ r).Perm (v.chan.done.map Prod.fst)
  order : (v.chan.okDone ++ w.items).Sublist (range v.chan.allocs)
  result : ∀ r ∈ v.chan.done, r.2 = .ok ∨ r.2 = .abort
  live : ∀ b ∈ r ++ (w.items ++ ws), (v.chan.bufs b).magic = bufMagic

namespace View.Sound

variable {chan chan' : Chan} {fs : List Frame} {buf : Option BufId} {w w' : Window BufId}
  {r ws : List BufId} {b : BufId} {dstat : Nat → BitVec 32}

section

variable (h : Sound ⟨chan, fs⟩ buf w r ws)

include h

lemma nodup : (r ++ (w.items ++ ws)).Nodup := by
  have hall := h.account.nodup_iff.mpr nodup_range
  have hfreed := h.freed.nodup_iff.mpr hall.of_append_left
  refine hfreed.of_append_right.append hall.of_append_right fun b hb => ?_
  exact disjoint_of_nodup_append hall (h.freed.subset (mem_append_right _ hb))

lemma lt_allocs (hb : b ∈ w.items ++ ws) : b < chan.allocs :=
  mem_range.mp (h.account.subset (mem_append_right _ hb))

lemma keeps (k : Chan.Keeps chan chan') (hs : chan'.Shows w') (items : w'.items = w.items) :
    Sound ⟨chan', fs⟩ buf w' r ws where
  shows := hs
  frames := by rw [k.bufs]; exact h.frames
  account := by rw [k.done, k.allocs, items]; exact h.account
  freed := by rw [k.freed, k.done]; exact h.freed
  order := by rw [Chan.okDone, k.done, k.allocs, items]; exact h.order
  result := by rw [k.done]; exact h.result
  live := by rw [items, k.bufs]; exact h.live

lemma loads (hl : chan.Loads chan') : ∃ w' r ws, Sound ⟨chan', fs⟩ buf w' r ws := by
  obtain ⟨n, hs⟩ := hl.shows h.shows
  exact ⟨_, r, ws, h.keeps hl.keeps hs rfl⟩

lemma dostop : Sound ⟨chan.dostop, fs⟩ buf w.halt r ws :=
  h.keeps Chan.keeps_dostop h.shows.dostop rfl

lemma rebook (hb : chan.Rebook chan') : Sound ⟨chan', fs⟩ buf w r ws := by
  have hs := hb.shows h.shows
  obtain ⟨_, _, _, _, _, _, _, _, rfl⟩ := hb
  exact { h with shows := hs }

lemma enqueue (id : Nat) (data : BitVec 32) (size : Int) (dstat : Nat → BitVec 32) :
    ∃ w', Sound ⟨(chan.enqueue id data size dstat).1, fs⟩ buf w' r ws := by
  obtain ⟨n, hs⟩ := h.shows.enqueue id data size dstat
  obtain ⟨hdone, hfreed, -, hallocs, -⟩ := chan.enqueue_observed id data size dstat
  refine ⟨_, hs, h.frames.congr fun b hb => ?_, ?_, ?_, ?_, ?_, ?_⟩
  · have hlt := h.lt_allocs (mem_append_right _ hb)
    have hout : b ∉ w.items :=
      fun hitem => disjoint_of_nodup_append h.nodup.of_append_right hitem hb
    exact congrArg Buf.next (h.shows.queue.bufs_enqueue id data size hlt.ne hout)
  · rw [hdone, hallocs, range_succ]
    have hmid : (w.items ++ [chan.allocs] ++ ws).Perm (w.items ++ ws ++ [chan.allocs]) := by
      rw [append_assoc, append_assoc]
      exact perm_append_comm.append_left _
    refine (hmid.append_left _).trans ?_
    rw [← append_assoc]
    exact h.account.append_right _
  · rw [hfreed, hdone]; exact h.freed
  · rw [Chan.okDone, hdone, hallocs, range_succ]
    simpa [Chan.okDone] using h.order.append_right [chan.allocs]
  · rw [hdone]; exact h.result
  · intro b hb
    rw [Chan.magic_enqueue]
    split_ifs with hne
    · rfl
    · refine h.live b ?_
      simpa [hne] using hb

end

/-- The queue is taken off the channel. -/
lemma detach (h : Sound ⟨chan, fs⟩ none w r ws) (hs : chan.loadState = .none) :
    Sound ⟨chan.detach, fs⟩ (chan.curr.or chan.next) .empty r (w.items ++ ws) where
  shows := h.shows.detach hs
  frames := by
    rw [h.shows.curr_or_next]
    exact h.frames.detach h.shows.queue.linked
  account := h.account
  freed := h.freed
  order := by
    rw [Window.empty_items, append_nil]
    exact (sublist_append_left _ _).trans h.order
  result := h.result
  live := h.live

lemma freed_report {freed l : List BufId} (b : BufId) (h : (freed ++ r).Perm l) :
    (freed ++ b :: r).Perm (l ++ [b]) :=
  perm_middle.trans ((h.cons b).trans (perm_append_singleton b l).symm)

lemma abort (c : Nat) (h : Sound ⟨chan, fs⟩ buf w r ws) :
    ∃ r ws, Sound (abort ⟨chan, fs⟩ c buf) none w r ws := by
  cases buf with
  | none => exact ⟨r, ws, h⟩
  | some b =>
    obtain ⟨hshows, hframes, haccount, hfreed, horder, hresult, hlive⟩ := h
    cases hframes with
    | loop hrest =>
      rename_i ws
      refine ⟨b :: r, ws, hshows.buffdone b .abort, .enter hrest, ?_, ?_, ?_, ?_, ?_⟩
      · have hmid : (w.items ++ b :: ws).Perm (b :: (w.items ++ ws)) := perm_middle
        simpa [View.abort, Chan.buffdone] using (hmid.append_left _).symm.trans haccount
      · simpa [View.abort, Chan.buffdone] using freed_report b hfreed
      · simpa [View.abort, Chan.okDone, Chan.buffdone] using horder
      · simpa [View.abort, Chan.buffdone, or_imp, forall_and] using hresult
      · intro a ha
        refine hlive a ?_
        simp only [mem_append, mem_cons] at ha ⊢
        tauto

/-- A completion reports the buffer at the front of the queue, whichever buffer the engine
has finished. -/
lemma deliver {x : BufId} {e : Engine} (c : Nat) (dstat : Nat → BitVec 32)
    (h : Sound ⟨chan, fs⟩ none w r ws) (he : chan.engine.complete = some (x, e)) :
    ∃ b, chan.curr = some b ∧ (chan.bufs b).magic = bufMagic ∧
      Sound ⟨({ chan with engine := e }.retire.unlinkCurr b).buffdone b .ok, .irq c b dstat :: fs⟩
        none w.finish (b :: r) ws := by
  obtain ⟨hpend, -, -⟩ := Engine.complete_some he
  have hflight : w.flight ≠ [] := by
    rw [← h.shows.flight, hpend]
    exact cons_ne_nil _ _
  obtain ⟨b, l, hl⟩ := exists_cons_of_ne_nil (w.items_ne_nil hflight)
  have hcurr : chan.curr = some b := by rw [h.shows.queue.curr_eq, hl]; rfl
  have hlive : (chan.bufs b).magic = bufMagic := h.live b (by simp [hl])
  refine ⟨b, hcurr, hlive, (h.shows.finish hcurr he).buffdone b .ok, ?_, ?_, ?_, ?_, ?_, ?_⟩
  · refine .enter (h.frames.congr fun a ha => ?_)
    have hne : a ≠ b := by
      rintro rfl
      exact disjoint_of_nodup_append h.nodup.of_append_right (by simp [hl]) ha
    simp [Chan.buffdone, Chan.unlinkCurr, Chan.setNext, Chan.retire, update_of_ne hne]
  · simpa [Chan.buffdone, Chan.unlinkCurr, Chan.setNext, Chan.retire, hl] using h.account
  · simpa [Chan.buffdone, Chan.unlinkCurr, Chan.setNext, Chan.retire] using freed_report b h.freed
  · simpa [Chan.okDone, Chan.buffdone, Chan.unlinkCurr, Chan.setNext, Chan.retire, hl]
      using h.order
  · simpa [Chan.buffdone, Chan.unlinkCurr, Chan.setNext, Chan.retire, or_imp, forall_and]
      using h.result
  · intro a ha
    refine (Chan.magic_setNext a b none).trans (h.live a ?_)
    simpa [hl, or_left_comm] using ha

/-- A callback returns, and its buffer is freed. -/
lemma freebuf {f : Frame} (h : Sound ⟨chan, f :: fs⟩ none w r ws) :
    ∃ r, Sound ⟨chan.freebuf f.buf, fs⟩ f.rest w r ws := by
  have hnodup := h.nodup
  obtain ⟨hshows, hframes, haccount, hfreed, horder, hresult, hlive⟩ := h
  cases hframes with
  | enter hrest =>
    rename_i r
    have hfree : chan.freebuf f.buf =
        { chan with
          bufs := update chan.bufs f.buf { chan.bufs f.buf with magic := badMagic }
          freed := chan.freed ++ [f.buf] } := by
      have hmagic : (chan.bufs f.buf).magic = bufMagic := hlive f.buf (by simp)
      simp [Chan.freebuf, hmagic]
    have hnext := hrest.congr fun a _ => Chan.next_freebuf chan a f.buf
    have hs := hshows.freebuf f.buf
    rw [hfree] at hs hnext ⊢
    refine ⟨r, hs, hnext, haccount, ?_, horder, hresult, fun a ha => ?_⟩
    · simpa using hfreed
    · have hne : a ≠ f.buf := by
        rintro rfl
        exact (nodup_cons.mp hnodup).1 ha
      simpa [update_of_ne hne] using hlive a (mem_cons_of_mem _ ha)

end View.Sound

variable {p : Platform} {d : Driver} {c : Nat} {ev : Event} {v : View}

/-- The flush of channel `c` stops it if a buffer is loaded. -/
def FlushStops (c : Nat) (d : Driver) : Event → Prop
  | .call (.ctrl channel .flush _) => d.lookupChannel channel = some c →
    (d.chans c).loadState = .none ∨ d.chanMap c = some c
  | _ => True

def IsSound (d : Driver) (c : Nat) : Prop := ∃ w r ws, (d.view c).Sound none w r ws

lemma IsSound.live {b : BufId} (h : d.IsSound c) (hb : (d.chans c).curr = some b) :
    ((d.chans c).bufs b).magic = bufMagic := by
  obtain ⟨w, r, ws, hs⟩ := h
  have hmem : b ∈ w.items := mem_of_mem_head? (hs.shows.queue.curr_eq.symm.trans hb)
  exact hs.live b (mem_append_right _ (mem_append_left _ hmem))

lemma Acts.isSound (h : d.Acts c ev v) (ok : FlushStops c d ev) (hs : d.IsSound c) :
    ∃ w r ws, v.Sound none w r ws := by
  obtain ⟨w, r, ws, hs⟩ := hs
  cases h with
  | same => exact ⟨w, r, ws, hs⟩
  | enqueue =>
    obtain ⟨w', hs'⟩ := hs.enqueue _ _ _ _
    exact ⟨w', r, ws, hs'⟩
  | start => exact hs.loads Chan.loads_start
  | started => exact hs.loads Chan.loads_loadSecond
  | stop | strayStop => exact ⟨_, r, ws, hs.dostop⟩
  | set book | request book => exact ⟨w, r, ws, hs.rebook book⟩
  | free h book =>
    split_ifs at book
    · exact ⟨_, r, ws, hs.rebook book⟩
    · exact ⟨_, r, ws, hs.dostop.rebook book⟩
  | flush h stop =>
    obtain rfl | ⟨rfl, hmiss⟩ := stop
    · exact ⟨_, (hs.dostop.detach rfl).abort c⟩
    · have hnone : (d.chans c).loadState = .none :=
        hmiss.elim hs.shows.idle fun hmap => (ok h).resolve_right hmap
      exact ⟨_, (hs.detach hnone).abort c⟩
  | deliver he hb live =>
    obtain ⟨b', hb', -, hs'⟩ := hs.deliver c _ he
    obtain rfl : _ = b' := Option.some.inj (hb.symm.trans hb')
    exact ⟨_, _, _, hs'⟩
  | dead he hb dead => exact absurd (IsSound.live ⟨w, r, ws, hs⟩ hb) dead
  | empty he hb =>
    obtain ⟨b, hb', -⟩ := hs.deliver c (fun _ => 0) he
    simp [hb] at hb'
  | reload hframes =>
    rw [view, hframes] at hs
    obtain ⟨r, hs⟩ := hs.freebuf
    exact hs.loads Chan.loads_irqReload
  | release hframes =>
    rw [view, hframes] at hs
    obtain ⟨r, hs⟩ := hs.freebuf
    exact ⟨w, hs.abort c⟩

lemma isSound_init (c : Nat) : init.IsSound c := by
  refine ⟨.empty, [], [], ?_, .nil, .refl _, .refl _, .refl _, by simp [view, init], by simp⟩
  exact ⟨⟨rfl, nodup_nil, by simp, by simp⟩, rfl, rfl, ⟨rfl, rfl⟩, fun _ => rfl⟩

end Driver

end Mini2440.Dma
