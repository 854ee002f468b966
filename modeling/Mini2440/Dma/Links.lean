import Mini2440.Dma.Calls

/-!
# The queues stay linked, and the error path of `enqueue`

Whatever clients call and in whatever state the engine is, the buffers from `curr` on form a
list of distinct cells that ends at `end`. An `enqueue` that fails because the channel is
unknown or no cell is left changes nothing. One that gives up waiting for the engine has
linked its buffer already and does not take it out again.
-/

namespace Mini2440.Dma

open Library

namespace Chan

variable {c c' : Chan} {l : List BufId}

def Lists (c : Chan) (l : List BufId) : Prop := Linked (fun b => (c.bufs b).next) c.curr l

def WellLinked (c : Chan) : Prop := ∃ l, c.Queue l

lemma WellLinked.keeps (h : c.WellLinked) (k : Keeps c c') : c'.WellLinked := by
  obtain ⟨l, hq⟩ := h
  exact ⟨l, hq.keeps k⟩

lemma WellLinked.rebook (h : c.WellLinked) (hb : c.Rebook c') : c'.WellLinked := by
  obtain ⟨l, hq⟩ := h
  exact ⟨l, hb.queue hq⟩

lemma WellLinked.freebuf (h : c.WellLinked) (b : BufId) : (c.freebuf b).WellLinked := by
  obtain ⟨l, hq⟩ := h
  exact ⟨l, hq.freebuf b⟩

lemma WellLinked.retire (h : c.WellLinked) (e : Engine) :
    ({ c with engine := e }.retire).WellLinked := by
  obtain ⟨l, hq⟩ := h
  exact ⟨l, { hq with }⟩

lemma WellLinked.unlinkCurr {b : BufId} (h : c.WellLinked) (hb : c.curr = some b) :
    (c.unlinkCurr b).WellLinked := by
  obtain ⟨l, hq⟩ := h
  obtain ⟨l, rfl⟩ : ∃ l', l = b :: l' := List.head?_eq_some_iff.mp (hq.curr_eq.symm.trans hb)
  exact ⟨l, hq.unlinkCurr⟩

/-- After `enqueue` the list has one more entry, whatever the call returns. -/
lemma Queue.enqueue (h : c.Queue l) (id : Nat) (data : BitVec 32) (size : Int)
    (dstat : Nat → BitVec 32) : (c.enqueue id data size dstat).1.Queue (l ++ [c.allocs]) := by
  obtain ⟨c', hloads, he⟩ := c.enqueue_cases id data size dstat
  have hq := (h.alloc_link id data size).keeps hloads.keeps
  obtain ⟨-, he⟩ | ⟨-, he⟩ := he
  · rw [he]
    exact { hq with }
  · rw [he]; exact hq

end Chan

namespace Driver

variable {p : Platform} {d : Driver} {c : Nat} {ev : Event} {v : View}

lemma View.wellLinked_abort (h : v.chan.WellLinked) (c : Nat) (buf : Option BufId) :
    (v.abort c buf).chan.WellLinked := by
  obtain ⟨l, hq⟩ := h
  cases buf with
  | none => exact ⟨l, hq⟩
  | some b => exact ⟨l, { hq with }⟩

lemma Acts.wellLinked (h : d.Acts c ev v) (hw : (d.chans c).WellLinked) :
    v.chan.WellLinked := by
  cases h with
  | same => exact hw
  | enqueue =>
    obtain ⟨l, hq⟩ := hw
    exact ⟨_, hq.enqueue _ _ _ _⟩
  | start => exact hw.keeps Chan.loads_start.keeps
  | started => exact hw.keeps Chan.loads_loadSecond.keeps
  | stop | strayStop => exact hw.keeps Chan.keeps_dostop
  | set book | request book => exact hw.rebook book
  | free h book =>
    split_ifs at book
    · exact hw.rebook book
    · exact (hw.keeps Chan.keeps_dostop).rebook book
  | flush => exact View.wellLinked_abort ⟨[], Chan.queue_detach _⟩ c _
  | deliver he hb =>
    obtain ⟨l, hq⟩ := (hw.retire _).unlinkCurr hb
    exact ⟨l, { hq with }⟩
  | dead he hb => exact (hw.retire _).unlinkCurr hb
  | empty => exact (hw.retire _).keeps Chan.loads_irqReload.keeps
  | reload => exact (hw.freebuf _).keeps Chan.loads_irqReload.keeps
  | release => exact View.wellLinked_abort (hw.freebuf _) c _

/-- In every state that the driver can reach each queue is well linked. -/
lemma run_wellLinked (p : Platform) (es : List Event) (c : Nat) :
    ((run p es).chans c).WellLinked := by
  refine runFrom_invariant (P := fun d : Driver => (d.chans c).WellLinked)
    (fun d ev hd => (step_acts d ev).wellLinked hd) ?_ es
  exact ⟨[], rfl, List.nodup_nil, by simp, by simp⟩

/-- An `enqueue` that gives up on the engine reports an error for a buffer that it has queued. -/
lemma enqueue_of_stalls {channel : Channel} {dstat : Nat → BitVec 32} {l : List BufId}
    (hlook : d.lookupChannel channel = some c) (hq : (d.chans c).Queue l)
    (hstall : (d.chans c).Stalls dstat) (id : Nat) (data : BitVec 32) (size : Int) :
    (d.enqueue channel id data size true dstat).2 = -EINVAL ∧
      ((d.enqueue channel id data size true dstat).1.chans c).Lists
        (l ++ [(d.chans c).allocs]) := by
  have hmore := (hq.enqueue id data size dstat).linked
  have hret : ((d.chans c).enqueue id data size dstat).2 = -EINVAL := by
    obtain ⟨c', -, ⟨hn, -⟩ | ⟨-, he⟩⟩ := (d.chans c).enqueue_cases id data size dstat
    · exact absurd hstall hn
    · rw [he]
  simp only [enqueue, hlook, if_true, chans_modify_self]
  exact ⟨hret, hmore⟩

/-- A failing `enqueue` keeps the list of every channel exactly when it does not fail by giving
up on the engine. -/
theorem enqueue_error_keeps_queue_iff (p : Platform) (es : List Event) (channel : Channel)
    (id : Nat) (data : BitVec 32) (size : Int) (mem : Bool) (dstat : Nat → BitVec 32) :
    (((run p es).enqueue channel id data size mem dstat).2 < 0 →
      ∀ c l, ((run p es).chans c).Lists l →
        (((run p es).enqueue channel id data size mem dstat).1.chans c).Lists l) ↔
    ¬ ∃ c, (run p es).lookupChannel channel = some c ∧ mem = true ∧
        ((run p es).chans c).Stalls dstat := by
  have hlinked := run_wellLinked p es
  generalize run p es = d at hlinked ⊢
  constructor
  · rintro hkeep ⟨c, hlook, rfl, hstall⟩
    obtain ⟨l, hq⟩ := hlinked c
    obtain ⟨hret, hmore⟩ := enqueue_of_stalls hlook hq hstall id data size
    have hsame := hkeep (by rw [hret]; decide) c l hq.linked
    simpa using hsame.unique hmore
  · intro hcond hneg c l hl
    cases hlook : d.lookupChannel channel with
    | none => simpa [enqueue, hlook] using hl
    | some c₀ =>
      cases mem with
      | false => simpa [enqueue, hlook] using hl
      | true =>
        have hn : ¬ (d.chans c₀).Stalls dstat := fun hs => hcond ⟨c₀, hlook, rfl, hs⟩
        have hret : ((d.chans c₀).enqueue id data size dstat).2 = 0 := by
          obtain ⟨c', -, ⟨-, he⟩ | ⟨hs, -⟩⟩ := (d.chans c₀).enqueue_cases id data size dstat
          · rw [he]
          · exact absurd hs hn
        simp [enqueue, hlook, hret] at hneg

/-- One buffer is loaded and the channel runs, but the engine has not taken the buffer. -/
def oneLoaded : List Event :=
  [.call (.request (.virt 9) 1 0),
   .call (.config (.virt 9) 4),
   .call (.enqueue (.virt 9) 0 0x30000000 64 true fun _ => 0),
   .call (.ctrl (.virt 9) .start fun _ => 0)]

/-- With `DSTAT` zero throughout, the second `enqueue` returns an error and leaves its buffer
at the end of the list. -/
theorem oneLoaded_enqueue_error :
    ((run s3c2440 oneLoaded).enqueue (.virt 9) 1 0x30000040 64 true fun _ => 0).2 = -EINVAL ∧
      ((run s3c2440 oneLoaded).chans 1).Lists [0] ∧
      (((run s3c2440 oneLoaded).enqueue (.virt 9) 1 0x30000040 64 true fun _ => 0).1.chans
        1).Lists [0, 1] ∧
      ¬ ∀ l, ((run s3c2440 oneLoaded).chans 1).Lists l →
        (((run s3c2440 oneLoaded).enqueue (.virt 9) 1 0x30000040 64 true fun _ => 0).1.chans
          1).Lists l := by
  have hlook : (run s3c2440 oneLoaded).lookupChannel (.virt 9) = some 1 := by decide
  have hstall : ((run s3c2440 oneLoaded).chans 1).Stalls fun _ => 0 :=
    ⟨by decide, by decide, fun _ _ => rfl⟩
  have hlists : ((run s3c2440 oneLoaded).chans 1).Lists [0] :=
    ⟨by decide, show (((run s3c2440 oneLoaded).chans 1).bufs 0).next = none by decide⟩
  have hallocs : ((run s3c2440 oneLoaded).chans 1).allocs = 1 := by decide
  obtain ⟨l, hq⟩ := run_wellLinked s3c2440 oneLoaded 1
  obtain rfl : l = [0] := hq.linked.unique hlists
  obtain ⟨hret, hmore⟩ := enqueue_of_stalls hlook hq hstall 1 0x30000040 64
  refine ⟨hret, hlists, hmore, fun hkeep => ?_⟩
  exact absurd ((hkeep [0] hlists).unique hmore) (by decide)

end Driver

end Mini2440.Dma
