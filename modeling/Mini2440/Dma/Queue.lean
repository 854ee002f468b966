import Mathlib.Logic.Relation
import Mini2440.Dma.Channel
import Mini2440.Library.Linked
import Mini2440.Library.Window

/-!
# The queue of a channel as a window

`Queue c l` reads the linked buffers of a channel as the list `l`; it says nothing about
what has been loaded, and every operation of the driver keeps it. `Shows c w` adds the
engine: the queued buffers, the transfers in flight and the next buffer to load form a
window. `Loads` lists what the functions that load buffers do: they move the window ahead, and
they change neither the queue nor anything that a client observes (`Keeps`). Linking a buffer
pushes it on the window, and stopping a channel halts it.
-/

namespace Mini2440.Dma

open List Function Library

def Engine.Holds (e : Engine) : LoadState → Prop
  | .none => e.active = none ∧ e.reload = none
  | .loaded => e.active = none ∧ e.reload.isSome
  | .running => e.active.isSome ∧ e.reload = none
  | .loadedRunning => e.active.isSome ∧ e.reload.isSome

lemma Engine.Holds.length {e : Engine} {s : LoadState} (h : e.Holds s) :
    e.pending.length = s.count := by
  cases hA : e.active <;> cases hR : e.reload <;> cases s <;>
    simp_all [Engine.pending, LoadState.count, Engine.Holds]

lemma Engine.complete_some {e e' : Engine} {b : BufId} (h : e.complete = some (b, e')) :
    e.pending = b :: e'.pending ∧ e'.finished = e.finished ++ [b] ∧
      ∀ s, e.Holds s → e'.Holds s.retire := by
  unfold Engine.complete at h
  split at h
  next b' hA =>
    obtain ⟨rfl, rfl⟩ := h
    refine ⟨by simp [Engine.pending, hA], rfl, ?_⟩
    intro s hs
    cases s <;> simp_all [Engine.Holds, LoadState.retire]
  next b' hA hR =>
    obtain ⟨rfl, rfl⟩ := h
    refine ⟨by simp [Engine.pending, hA, hR], rfl, ?_⟩
    intro s hs
    cases s <;> simp_all [Engine.Holds, LoadState.retire]
  next => simp at h

namespace Chan

/-- The buffers linked from `curr`, in order. -/
structure Queue (c : Chan) (l : List BufId) : Prop where
  linked : Linked (fun b => (c.bufs b).next) c.curr l
  nodup : l.Nodup
  old : ∀ b ∈ l, b < c.allocs
  last : l ≠ [] → c.last = l.getLast?

/-- The queue, the engine and the next buffer to load of a channel, as a window. -/
structure Shows (c : Chan) (w : Window BufId) : Prop where
  queue : c.Queue w.items
  upcoming : c.next = w.upcoming
  flight : c.engine.pending = w.flight
  holds : c.engine.Holds c.loadState
  idle : c.state = .idle → c.loadState = .none

/-- Neither the owner, the queue nor what the clients observe differs. -/
structure Keeps (c c' : Chan) : Prop where
  owner : c'.owner = c.owner
  curr : c'.curr = c.curr
  last : c'.last = c.last
  bufs : c'.bufs = c.bufs
  allocs : c'.allocs = c.allocs
  accepted : c'.accepted = c.accepted
  done : c'.done = c.done
  freed : c'.freed = c.freed
  finished : c'.engine.finished = c.engine.finished

variable {c c' c'' : Chan} {l : List BufId} {w : Window BufId} {b : BufId}
  {dstat : Nat → BitVec 32}

@[refl] lemma Keeps.refl (c : Chan) : Keeps c c := by constructor <;> rfl

lemma Keeps.trans (h : Keeps c c') (h' : Keeps c' c'') : Keeps c c'' where
  owner := h'.owner.trans h.owner
  curr := h'.curr.trans h.curr
  last := h'.last.trans h.last
  bufs := h'.bufs.trans h.bufs
  allocs := h'.allocs.trans h.allocs
  accepted := h'.accepted.trans h.accepted
  done := h'.done.trans h.done
  freed := h'.freed.trans h.freed
  finished := h'.finished.trans h.finished

lemma Queue.congr (h : c.Queue l) (curr : c'.curr = c.curr) (last : c'.last = c.last)
    (bufs : c'.bufs = c.bufs) (allocs : c'.allocs = c.allocs) : c'.Queue l where
  linked := by rw [bufs, curr]; exact h.linked
  nodup := h.nodup
  old := by rw [allocs]; exact h.old
  last := by rw [last]; exact h.last

lemma Queue.keeps (h : c.Queue l) (k : Keeps c c') : c'.Queue l :=
  h.congr k.curr k.last k.bufs k.allocs

lemma Queue.curr_eq (h : c.Queue l) : c.curr = l.head? := h.linked.head

/-! ## Waiting for the engine -/

/-- Waiting either changes nothing but the statistics, or confirms a loaded buffer. -/
lemma waitforload_cases (c : Chan) (dstat : Nat → BitVec 32) :
    (∃ s, c.waitforload dstat = ({ c with stats := s }, false)) ∨
    (c.loadState = .loaded ∧ ∃ s, c.waitforload dstat =
      ({ c with stats := s, loadState := .running, engine := c.engine.take }, true)) := by
  unfold waitforload
  split_ifs with h
  · exact .inl ⟨c.stats, rfl⟩
  · have hl : c.loadState = .loaded := not_not.mp h
    cases pollDstat dstat (c.loadTimeout - 1) 0 with
    | none => exact .inl ⟨_, rfl⟩
    | some t => exact .inr ⟨hl, _, rfl⟩

lemma pollDstat_eq_none {n i : Nat} :
    pollDstat dstat n i = none ↔ ∀ k < n, dstat (i + k) <<< 12 = 0 := by
  induction n generalizing i with
  | zero => simp [pollDstat]
  | succ n ih =>
    unfold pollDstat
    split_ifs with h
    · simp only [false_iff]
      exact fun hall => h (hall 0 (by omega))
    · rw [ih]
      constructor
      · intro hall k hk
        cases k with
        | zero => exact not_not.mp h
        | succ k => simpa [add_assoc, add_comm 1 k] using hall k (by omega)
      · intro hall k hk
        simpa [add_assoc, add_comm 1 k] using hall (k + 1) (by omega)

/-- The wait times out: no read within the time limit shows a transfer. -/
def TimesOut (c : Chan) (dstat : Nat → BitVec 32) : Prop :=
  ∀ k < c.loadTimeout - 1, dstat k <<< 12 = 0

lemma waitforload_snd (h : c.loadState = .loaded) :
    (c.waitforload dstat).2 = false ↔ c.TimesOut dstat := by
  have hpoll := @pollDstat_eq_none dstat (c.loadTimeout - 1) 0
  simp only [zero_add] at hpoll
  unfold waitforload TimesOut
  rw [if_neg (not_not.mpr h), ← hpoll]
  cases pollDstat dstat (c.loadTimeout - 1) 0 <;> simp

/-! ## Loading -/

section

variable (h : c.Shows w)

include h

lemma Shows.take (hl : c.loadState = .loaded) (s : Stats) :
    Shows { c with stats := s, loadState := .running, engine := c.engine.take } w := by
  obtain ⟨ha, hr⟩ : c.engine.active = none ∧ c.engine.reload.isSome := by
    simpa [hl, Engine.Holds] using h.holds
  have htake : c.engine.take = { c.engine with active := c.engine.reload, reload := none } := by
    simp [Engine.take, ha]
  refine ⟨h.queue.congr rfl rfl rfl rfl, h.upcoming, ?_, ?_, ?_⟩
  · simpa [htake, Engine.pending, ha] using h.flight
  · simpa [htake, Engine.Holds] using hr
  · intro hidle
    simpa [hl] using h.idle hidle

lemma Shows.loadbuffer (busy : c.state ≠ .idle) (can : c.canload)
    (hb : c.next = some b) : (c.loadbuffer (some b)).1.Shows (w.ahead 1) := by
  have hup : w.upcoming = some b := h.upcoming.symm.trans hb
  obtain ⟨hlt, hget⟩ := List.getElem?_eq_some_iff.mp hup
  have hnext : (c.bufs b).next = w.items[w.cursor + 1]? := by
    rw [← hget]
    exact h.queue.linked.next_getElem w.cursor hlt
  have hfree : c.engine.reload = none := by
    cases hs : c.loadState <;> simp_all [canload] <;> have := h.holds <;> simp_all [Engine.Holds]
  refine ⟨{ h.queue with }, ?_, ?_, ?_, ?_⟩
  · rw [Window.upcoming_ahead_one hup]
    exact hnext
  · rw [Window.flight_ahead_one hup, ← h.flight]
    simp [Chan.loadbuffer, Engine.load, Engine.pending, hfree]
  · cases hs : c.loadState <;> simp_all <;> have := h.holds <;>
      simp_all [Engine.Holds, Chan.loadbuffer, Engine.load]
  · exact fun hidle => absurd hidle busy

lemma Shows.dostop : c.dostop.Shows w.halt :=
  ⟨h.queue.congr rfl rfl rfl rfl, h.upcoming, rfl, ⟨rfl, rfl⟩, fun _ => rfl⟩

lemma Shows.flight_eq_nil (hs : c.loadState = .none) : w.flight = [] := by
  obtain ⟨ha, hr⟩ : c.engine.active = none ∧ c.engine.reload = none := by
    simpa [hs, Engine.Holds] using h.holds
  rw [← h.flight]
  simp [Engine.pending, ha, hr]

end

lemma keeps_dostop : Keeps c c.dostop := by constructor <;> rfl

inductive LoadStep : Chan → Chan → Prop where
  | stats {c : Chan} (s : Stats) : LoadStep c { c with stats := s }
  | take {c : Chan} (s : Stats) (hl : c.loadState = .loaded) :
      LoadStep c { c with stats := s, loadState := .running, engine := c.engine.take }
  | load {c : Chan} {b : BufId} (busy : c.state ≠ .idle ∨ c.loadState ≠ .none) (can : c.canload)
      (hb : c.next = some b) : LoadStep c (c.loadbuffer (some b)).1
  | setState {c : Chan} (s : State) (hs : s = .idle → c.loadState = .none) :
      LoadStep c (c.setState s)
  | turnOn {c : Chan} : LoadStep c c.turnOn
  | noreload {c : Chan} : LoadStep c c.noreload
  /-- A stop that finds nothing loaded. -/
  | stop {c : Chan} (hs : c.loadState = .none) : LoadStep c c.dostop

def Loads : Chan → Chan → Prop := Relation.ReflTransGen LoadStep

lemma LoadStep.keeps (h : LoadStep c c') : Keeps c c' := by
  cases h with
  | take s hl =>
    refine ⟨rfl, rfl, rfl, rfl, rfl, rfl, rfl, rfl, ?_⟩
    simp only [Engine.take]
    split <;> rfl
  | _ => constructor <;> rfl

lemma LoadStep.shows (h : LoadStep c c') (hs : c.Shows w) : ∃ n, c'.Shows (w.ahead n) := by
  have stay {c' : Chan} (hs' : c'.Shows w) : ∃ n, c'.Shows (w.ahead n) := ⟨0, by simpa using hs'⟩
  cases h with
  | stats | turnOn | noreload => exact stay { hs with queue := { hs.queue with } }
  | setState s hidle => exact stay { hs with queue := { hs.queue with }, idle := hidle }
  | take s hl => exact stay (hs.take hl s)
  | load busy can hb =>
    exact ⟨1, hs.loadbuffer (fun hidle => busy.elim (· hidle) (· (hs.idle hidle))) can hb⟩
  | stop hnone =>
    have hstop := hs.dostop
    rw [Window.halt_eq_self (hs.flight_eq_nil hnone)] at hstop
    exact stay hstop

lemma Loads.keeps (h : Loads c c') : Keeps c c' := by
  induction h with
  | refl => rfl
  | tail _ hstep ih => exact ih.trans hstep.keeps

lemma Loads.shows (h : Loads c c') (hs : c.Shows w) : ∃ n, c'.Shows (w.ahead n) := by
  induction h with
  | refl => exact ⟨0, by simpa using hs⟩
  | tail _ hstep ih =>
    obtain ⟨m, hm⟩ := ih
    obtain ⟨n, hn⟩ := hstep.shows hm
    exact ⟨m + n, by rwa [← Window.ahead_ahead]⟩

lemma loads_loadSecond : Loads c (c.loadSecond dstat) := by
  unfold loadSecond
  split_ifs with hnext hloaded hrunning
  · exact .refl
  · obtain ⟨b, hb⟩ := Option.ne_none_iff_exists'.mp hnext
    obtain ⟨s, hw⟩ | ⟨-, s, hw⟩ := c.waitforload_cases dstat
    · rw [hw]
      exact .single (.stats s)
    · rw [hw]
      simp only [hb]
      exact .tail (.single (.take s hloaded)) (.load (.inr (by simp)) rfl hb)
  · obtain ⟨b, hb⟩ := Option.ne_none_iff_exists'.mp hnext
    rw [hb]
    exact .single (.load (.inr (by simp [hrunning])) (by simp [canload, hrunning]) hb)
  · exact .refl

lemma loads_start : Loads c (c.start dstat).1 := by
  unfold start
  have hrun : LoadStep c (c.setState .running) := .setState _ (by simp)
  dsimp only
  split_ifs with hs hnone hnext
  · exact .refl
  · exact .tail (.single hrun) (.setState _ fun _ => hnone)
  · obtain ⟨b, hb⟩ := Option.ne_none_iff_exists'.mp hnext
    rw [hb]
    have hload : LoadStep (c.setState .running) _ :=
      .load (.inl (by simp [setState])) (by simp [canload, hnone]) hb
    exact (((Relation.ReflTransGen.single hrun).tail hload).tail .turnOn).trans loads_loadSecond
  · exact ((Relation.ReflTransGen.single hrun).tail .turnOn).trans loads_loadSecond

lemma loads_loadAll (busy : c.state ≠ .idle) (n : Nat) : Loads c (c.loadAll n) := by
  induction n generalizing c with
  | zero => exact .refl
  | succ n ih =>
    unfold loadAll
    split_ifs with hcan
    · obtain ⟨b, hb⟩ := Option.ne_none_iff_exists'.mp hcan.2
      rw [hb]
      exact .head (.load (.inl busy) hcan.1 hb) (ih busy)
    · exact .refl

lemma loads_lastxfer : Loads c (c.lastxfer dstat) := by
  unfold lastxfer
  split
  next => exact .single .noreload
  next hl =>
    obtain ⟨s, hw⟩ | ⟨-, s, hw⟩ := c.waitforload_cases dstat
    · rw [hw]
      exact .single (.stats s)
    · rw [hw]
      exact .tail (.single (.take s hl)) .noreload
  next => exact .refl
  next => exact .refl

/-- The end of the interrupt handler. -/
lemma loads_irqReload : Loads c (c.irqReload dstat) := by
  unfold irqReload
  dsimp only
  split_ifs with hmore hnone
  · obtain ⟨b, hb⟩ := Option.ne_none_iff_exists'.mp hmore.1
    split
    case h_1 hs | h_2 hs =>
      rw [hb]
      exact .single (.load (.inl hmore.2) (by simp [canload, hs]) hb)
    next hs =>
      obtain ⟨s, hw⟩ | ⟨-, s, hw⟩ := c.waitforload_cases dstat
      · rw [hw]
        exact .single (.stats s)
      · rw [hw]
        simp only [hb]
        exact .tail (.single (.take s hs)) (.load (.inl hmore.2) rfl hb)
    next => exact .refl
  · exact .tail loads_lastxfer (.stop hnone)
  · exact loads_lastxfer

/-! ## Linking a buffer -/

lemma link_of_empty (h : c.curr = none) :
    c.link b = { c with curr := some b, last := some b, next := some b } := by
  simp [link, h]

lemma link_of_last {e : BufId} (h : c.curr ≠ none) (hl : c.last = some e) :
    c.link b = { c.setNext e (some b) with last := some b, next := some (c.next.getD b) } := by
  obtain ⟨a, ha⟩ := Option.ne_none_iff_exists'.mp h
  cases hn : c.next <;> simp [link, ha, hl, setNext, hn]

lemma Queue.last_of_curr (h : c.Queue l) (hc : c.curr ≠ none) :
    ∃ e, l.getLast? = some e ∧ c.last = some e := by
  have hne : l ≠ [] := by
    rintro rfl
    exact hc h.linked
  exact ⟨l.getLast hne, getLast?_eq_some_getLast hne,
    (h.last hne).trans (getLast?_eq_some_getLast hne)⟩

lemma magic_setNext (a e : BufId) (next : Option BufId) :
    ((c.setNext e next).bufs a).magic = (c.bufs a).magic := by
  by_cases hae : a = e
  · subst hae; simp [setNext]
  · simp [setNext, update_of_ne hae]

lemma Queue.link (h : c.Queue l) (fresh : b ∉ l) (stop : (c.bufs b).next = none)
    (lt : b < c.allocs) : (c.link b).Queue (l ++ [b]) := by
  have hnodup : (l ++ [b]).Nodup := h.nodup.append (nodup_singleton b) (by simpa using fresh)
  have hold := forall_mem_append.mpr ⟨h.old, forall_mem_singleton.mpr lt⟩
  by_cases hc : c.curr = none
  · obtain rfl : l = [] := h.linked.unique (by simpa using hc)
    rw [link_of_empty hc]
    exact ⟨⟨rfl, stop⟩, hnodup, hold, fun _ => rfl⟩
  · obtain ⟨e, hlast, he⟩ := h.last_of_curr hc
    have hlinked := h.linked.snoc h.nodup hlast fresh stop
    have hnext : (fun a => ((c.setNext e (some b)).bufs a).next) =
        update (fun a => (c.bufs a).next) e (some b) :=
      funext fun a => apply_update (fun _ x => Buf.next x) c.bufs e _ a
    rw [← hnext] at hlinked
    rw [link_of_last hc he]
    exact ⟨hlinked, hnodup, hold, fun _ => by simp⟩

variable (id : Nat) (data : BitVec 32) (size : Int)

lemma Queue.alloc (h : c.Queue l) : (c.alloc id data size).Queue l := by
  have hne : ∀ a ∈ l, a ≠ c.allocs := fun a ha => ne_of_lt (h.old a ha)
  refine ⟨h.linked.congr ?_, h.nodup, ?_, h.last⟩
  · intro a ha
    simp [Chan.alloc, update_of_ne (hne a ha)]
  · intro a ha
    exact Nat.lt_succ_of_lt (h.old a ha)

lemma Queue.alloc_link (h : c.Queue l) :
    ((c.alloc id data size).link c.allocs).Queue (l ++ [c.allocs]) :=
  (h.alloc id data size).link (fun hm => absurd (h.old _ hm) (lt_irrefl _))
    (by simp [Chan.alloc]) (by simp [Chan.alloc])

lemma link_frame (c : Chan) (b : BufId) : ∃ curr next last bufs,
    c.link b = { c with curr := curr, next := next, last := last, bufs := bufs } := by
  cases hc : c.curr with
  | none => exact ⟨_, _, _, _, link_of_empty hc⟩
  | some a =>
    cases hl : c.last with
    | some e => exact ⟨_, _, _, _, link_of_last (by simp [hc]) hl⟩
    | none =>
      by_cases hn : c.next = none
      · exact ⟨c.curr, some b, c.last, c.bufs, by simp [link, hc, hl, hn]⟩
      · have hsame : c.link b = c := by simp [link, hc, hl, hn]
        exact ⟨c.curr, c.next, c.last, c.bufs, hsame⟩

lemma magic_link (c : Chan) (a b : BufId) : ((c.link b).bufs a).magic = (c.bufs a).magic := by
  cases hc : c.curr with
  | none => rw [link_of_empty hc]
  | some x =>
    cases hl : c.last with
    | some e => rw [link_of_last (by simp [hc]) hl]; exact magic_setNext a e _
    | none => by_cases hn : c.next = none <;> simp [link, hc, hl, hn]

lemma Shows.alloc_link (h : c.Shows w) :
    ((c.alloc id data size).link c.allocs).Shows (w.push c.allocs) := by
  have hq := h.queue.alloc_link id data size
  have hnext : ((c.alloc id data size).link c.allocs).next = (w.push c.allocs).upcoming := by
    rw [Window.upcoming_push, ← h.upcoming]
    by_cases hc : (c.alloc id data size).curr = none
    · have hitems : w.items = [] := h.queue.linked.unique hc
      have hup : w.upcoming = none := by simp [Window.upcoming, hitems]
      rw [link_of_empty hc, h.upcoming, hup]
      rfl
    · obtain ⟨e, -, he⟩ := (h.queue.alloc id data size).last_of_curr hc
      rw [link_of_last hc he]
      rfl
  obtain ⟨_, _, _, _, hlink⟩ := link_frame (c.alloc id data size) c.allocs
  refine ⟨hq, hnext, ?_, ?_, ?_⟩
  · rw [hlink]; exact h.flight
  · rw [hlink]; exact h.holds
  · rw [hlink]; exact h.idle

/-- `enqueue` gives up on a running channel whose loaded buffer is not taken in time. -/
def Stalls (c : Chan) (dstat : Nat → BitVec 32) : Prop :=
  c.state = .running ∧ c.loadState = .loaded ∧ c.TimesOut dstat

/-- A call of `enqueue` links its buffer, and reports an error exactly when it stalls. -/
lemma enqueue_cases (c : Chan) (dstat : Nat → BitVec 32) :
    ∃ c', Loads ((c.alloc id data size).link c.allocs) c' ∧
      (¬ c.Stalls dstat ∧ c.enqueue id data size dstat = (c'.accept c.allocs, 0) ∨
        c.Stalls dstat ∧ c.enqueue id data size dstat = (c', -EINVAL)) := by
  have hstalls : c.Stalls dstat ↔ ((c.alloc id data size).link c.allocs).Stalls dstat := by
    obtain ⟨_, _, _, _, h⟩ := link_frame (c.alloc id data size) c.allocs
    rw [h]
    rfl
  rw [hstalls]
  unfold Chan.enqueue
  dsimp only
  generalize (c.alloc id data size).link c.allocs = c₁
  split
  next hrun =>
    by_cases hload : c₁.loadState = .loaded
    · have hsnd := @waitforload_snd _ dstat hload
      rw [if_pos hload]
      obtain ⟨s, hw⟩ | ⟨-, s, hw⟩ := c₁.waitforload_cases dstat
      · rw [hw] at hsnd ⊢
        exact ⟨_, .single (.stats s), .inr ⟨⟨hrun, hload, hsnd.mp rfl⟩, rfl⟩⟩
      · rw [hw] at hsnd ⊢
        refine ⟨_, .head (.take s hload) (loads_loadAll (by simp [hrun]) 2), .inl ⟨?_, rfl⟩⟩
        rintro ⟨-, -, hout⟩
        simpa using hsnd.mpr hout
    · rw [if_neg hload]
      exact ⟨_, loads_loadAll (by simp [hrun]) 2, .inl ⟨fun h => hload h.2.1, rfl⟩⟩
  next hidle =>
    refine ⟨_, ?_, .inl ⟨fun h => by simp [h.1] at hidle, rfl⟩⟩
    split_ifs
    · exact loads_start
    · exact .refl
  next hpaused =>
    exact ⟨_, .refl, .inl ⟨fun h => by simp [h.1] at hpaused, rfl⟩⟩

lemma Shows.enqueue (h : c.Shows w) (dstat : Nat → BitVec 32) :
    ∃ n, (c.enqueue id data size dstat).1.Shows ((w.push c.allocs).ahead n) := by
  obtain ⟨c', hloads, he⟩ := c.enqueue_cases id data size dstat
  obtain ⟨n, hs⟩ := hloads.shows (h.alloc_link id data size)
  obtain ⟨-, he⟩ | ⟨-, he⟩ := he
  · rw [he]
    exact ⟨n, { hs with queue := { hs.queue with } }⟩
  · rw [he]
    exact ⟨n, hs⟩

lemma bufs_enqueue : (c.enqueue id data size dstat).1.bufs =
    ((c.alloc id data size).link c.allocs).bufs := by
  obtain ⟨c', hloads, ⟨-, h⟩ | ⟨-, h⟩⟩ := c.enqueue_cases id data size dstat
  · rw [h]; exact hloads.keeps.bufs
  · rw [h]; exact hloads.keeps.bufs

lemma magic_enqueue (b : BufId) : ((c.enqueue id data size dstat).1.bufs b).magic =
    if b = c.allocs then bufMagic else (c.bufs b).magic := by
  rw [bufs_enqueue, magic_link]
  simp only [alloc, update_apply]
  split_ifs <;> rfl

/-- Only the new buffer and the last one of the queue are written. -/
lemma Queue.bufs_enqueue (h : c.Queue l) (hb : b ≠ c.allocs) (hmem : b ∉ l) :
    (c.enqueue id data size dstat).1.bufs b = c.bufs b := by
  have halloc : (c.alloc id data size).bufs b = c.bufs b := update_of_ne hb _ _
  rw [Chan.bufs_enqueue]
  by_cases hc : (c.alloc id data size).curr = none
  · rw [link_of_empty hc]
    exact halloc
  · obtain ⟨e, hlast, he⟩ := (h.alloc id data size).last_of_curr hc
    rw [link_of_last hc he]
    refine (update_of_ne ?_ _ _).trans halloc
    rintro rfl
    exact hmem (mem_of_mem_getLast? hlast)

lemma enqueue_observed (c : Chan) (dstat : Nat → BitVec 32) :
    (c.enqueue id data size dstat).1.done = c.done ∧
      (c.enqueue id data size dstat).1.freed = c.freed ∧
      (c.enqueue id data size dstat).1.engine.finished = c.engine.finished ∧
      (c.enqueue id data size dstat).1.allocs = c.allocs + 1 ∧
      (¬ c.Stalls dstat →
        (c.enqueue id data size dstat).1.accepted = c.accepted ++ [c.allocs]) := by
  obtain ⟨c', hloads, h⟩ := c.enqueue_cases id data size dstat
  have hkeep := hloads.keeps
  obtain ⟨_, _, _, _, hlink⟩ := link_frame (c.alloc id data size) c.allocs
  rw [hlink] at hkeep
  obtain ⟨hn, h⟩ | ⟨hs, h⟩ := h
  · rw [h]
    refine ⟨hkeep.done, hkeep.freed, hkeep.finished, hkeep.allocs, fun _ => ?_⟩
    simp only [accept, hkeep.accepted]
    rfl
  · rw [h]
    exact ⟨hkeep.done, hkeep.freed, hkeep.finished, hkeep.allocs, fun hn => absurd hs hn⟩

/-! ## Completion -/

lemma Queue.unlinkCurr (h : c.Queue (b :: l)) : (c.unlinkCurr b).Queue l := by
  have hb : b ∉ l := (nodup_cons.mp h.nodup).1
  have hne : ∀ a ∈ l, a ≠ b := fun a ha hab => hb (hab ▸ ha)
  refine ⟨h.linked.2.congr ?_, h.nodup.of_cons, ?_, ?_⟩
  · intro a ha
    simp [Chan.unlinkCurr, setNext, update_of_ne (hne a ha)]
  · intro a ha
    exact h.old a (mem_cons_of_mem b ha)
  · intro hl
    obtain ⟨a, l, rfl⟩ := exists_cons_of_ne_nil hl
    exact h.last (cons_ne_nil _ _)

/-- The engine finishes a transfer and the handler takes the first buffer off the queue. -/
lemma Shows.finish {e : Engine} {x : BufId} (h : c.Shows w) (hc : c.curr = some b)
    (he : c.engine.complete = some (x, e)) :
    ({ c with engine := e }.retire.unlinkCurr b).Shows w.finish := by
  obtain ⟨hpend, -, hholds⟩ := Engine.complete_some he
  have hflight : w.flight = x :: e.pending := h.flight.symm.trans hpend
  obtain ⟨l, hl⟩ : ∃ l, w.items = b :: l := by
    have hhead := h.queue.curr_eq
    rw [hc] at hhead
    exact ⟨w.items.tail, eq_cons_of_mem_head? hhead.symm⟩
  have hq : c.Queue (b :: l) := hl ▸ h.queue
  have hq' : ({ c with engine := e }.retire).Queue (b :: l) := hq.congr rfl rfl rfl rfl
  refine ⟨?_, ?_, ?_, hholds _ h.holds, ?_⟩
  · simpa [hl] using hq'.unlinkCurr
  · rw [Window.upcoming_finish (by simp [hflight])]
    exact h.upcoming
  · simp only [Window.finish_flight, hflight]
    rfl
  · intro hidle
    have hnone := h.idle hidle
    simp [Chan.unlinkCurr, setNext, retire, hnone, LoadState.retire]

lemma freebuf_frame (c : Chan) (b : BufId) : ∃ freed, c.freebuf b =
    { c with bufs := update c.bufs b { c.bufs b with magic := badMagic }, freed := freed } := by
  unfold Chan.freebuf
  dsimp only
  split_ifs
  · exact ⟨_, rfl⟩
  · exact ⟨c.freed, rfl⟩

lemma next_freebuf (c : Chan) (a b : BufId) :
    ((c.freebuf b).bufs a).next = (c.bufs a).next := by
  obtain ⟨_, hf⟩ := freebuf_frame c b
  rw [hf]
  by_cases hab : a = b
  · subst hab; simp
  · simp [update_of_ne hab]

lemma Queue.freebuf (h : c.Queue l) (b : BufId) : (c.freebuf b).Queue l := by
  have hlinked : Linked (fun a => ((c.freebuf b).bufs a).next) c.curr l :=
    h.linked.congr fun a _ => next_freebuf c a b
  obtain ⟨_, hf⟩ := freebuf_frame c b
  rw [hf] at hlinked ⊢
  exact { h with linked := hlinked }

lemma Shows.freebuf (h : c.Shows w) (b : BufId) : (c.freebuf b).Shows w := by
  have hq := h.queue.freebuf b
  obtain ⟨_, hf⟩ := freebuf_frame c b
  rw [hf] at hq ⊢
  exact { h with queue := hq }

lemma Shows.buffdone (h : c.Shows w) (b : BufId) (r : BuffResult) : (c.buffdone b r).Shows w :=
  { h with queue := { h.queue with } }

lemma queue_detach (c : Chan) : c.detach.Queue [] := ⟨rfl, nodup_nil, by simp, by simp⟩

lemma Shows.detach (h : c.Shows w) (hs : c.loadState = .none) : c.detach.Shows .empty := by
  refine ⟨queue_detach c, rfl, ?_, h.holds, h.idle⟩
  exact h.flight.trans (h.flight_eq_nil hs)

/-- What a flush begins with: without a current buffer there is no next one. -/
lemma Shows.curr_or_next (h : c.Shows w) : c.curr.or c.next = c.curr := by
  cases hc : c.curr with
  | some b => rfl
  | none =>
    have hitems : w.items = [] := h.queue.linked.unique hc
    rw [h.upcoming]
    simp [Window.upcoming, hitems]

end Chan

end Mini2440.Dma
