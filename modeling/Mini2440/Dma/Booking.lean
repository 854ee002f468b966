import Mini2440.Dma.Calls

/-!
# Who has which channel

The map from virtual channels to hardware channels and the owners of the channels form the
booking of the driver. Only requests and releases change it. The booking is consistent when
the map and the owners say the same: a mapped channel is in use for the virtual channel that
maps to it, and a channel in use is mapped by the virtual channel that it was requested for.

Three calls can make it inconsistent. A request whose interrupt cannot be claimed gives the
channel back and leaves the map pointing at it; a release by hardware number leaves the map as
it is; and a second request for a mapped virtual channel drops the entry of the first.
-/

namespace Mini2440.Dma

open Function Library

structure Booking where
  owner : Nat → Owner
  chanMap : Nat → Option Nat

namespace Booking

variable {b : Booking} {v c : Nat} {o : Owner}

structure Consistent (b : Booking) : Prop where
  mapped : ∀ v c, b.chanMap v = some c → (b.owner c).inUse = true ∧ (b.owner c).reqCh = v
  covered : ∀ c, (b.owner c).inUse = true → b.chanMap (b.owner c).reqCh = some c

lemma Consistent.existsUnique (h : b.Consistent) (hc : (b.owner c).inUse) :
    ∃! v, b.chanMap v = some c :=
  ⟨(b.owner c).reqCh, h.covered c hc, fun v hv => ((h.mapped v c hv).2).symm⟩

/-- Give channel `c` to an owner who reaches it as `v`. -/
def book (b : Booking) (v c : Nat) (o : Owner) : Booking :=
  ⟨update b.owner c o, update b.chanMap v (some c)⟩

/-- Take channel `c` back, and forget that `v` maps to it. -/
def release (b : Booking) (v c : Nat) (o : Owner) : Booking :=
  ⟨update b.owner c o, update b.chanMap v none⟩

lemma Consistent.book (h : b.Consistent) (free : (b.owner c).inUse = false)
    (unmapped : b.chanMap v = none) (inUse : o.inUse) (reqCh : o.reqCh = v) :
    (b.book v c o).Consistent := by
  constructor
  · intro v' c' hv'
    by_cases hv : v' = v
    · obtain rfl : c = c' := by simpa [Booking.book, hv] using hv'
      simpa [Booking.book, hv] using ⟨inUse, reqCh⟩
    · have hold : b.chanMap v' = some c' := by simpa [Booking.book, hv] using hv'
      have hm := h.mapped v' c' hold
      have hc : c' ≠ c := fun hc => by simp [hc, free] at hm
      simpa [Booking.book, hc] using hm
  · intro c' hc'
    by_cases hc : c' = c
    · subst hc
      simp [Booking.book, reqCh]
    · have hold : (b.owner c').inUse := by simpa [Booking.book, hc] using hc'
      have hm := h.covered c' hold
      have hv : (b.owner c').reqCh ≠ v := fun hv => by simp [hv, unmapped] at hm
      simpa [Booking.book, hc, hv] using hm

lemma Consistent.release (h : b.Consistent) (hv : b.chanMap v = some c)
    (inUse : o.inUse = false) : (b.release v c o).Consistent := by
  obtain ⟨-, hreq⟩ := h.mapped v c hv
  constructor
  · intro v' c' hv'
    have hne : v' ≠ v := fun hne => by simp [Booking.release, hne] at hv'
    have hold : b.chanMap v' = some c' := by simpa [Booking.release, hne] using hv'
    have hm := h.mapped v' c' hold
    have hc : c' ≠ c := fun hc => hne (by rw [← hm.2, hc, hreq])
    simpa [Booking.release, hc] using hm
  · intro c' hc'
    have hc : c' ≠ c := fun hc => by simp [Booking.release, hc, inUse] at hc'
    have hold : (b.owner c').inUse := by simpa [Booking.release, hc] using hc'
    have hm := h.covered c' hold
    have hne : (b.owner c').reqCh ≠ v := fun hne => by
      rw [hne, hv] at hm
      exact hc (Option.some.inj hm).symm
    simpa [Booking.release, hc, hne] using hm

lemma Consistent.owner_update (h : b.Consistent) (free : (b.owner c).inUse = false)
    (inUse : o.inUse = false) : Consistent ⟨update b.owner c o, b.chanMap⟩ := by
  constructor
  · intro v' c' hv'
    have hm := h.mapped v' c' hv'
    have hc : c' ≠ c := fun hc => by simp [hc, free] at hm
    simpa [hc] using hm
  · intro c' hc'
    have hc : c' ≠ c := fun hc => by simp [hc, inUse] at hc'
    simpa [hc] using h.covered c' (by simpa [hc] using hc')

end Booking

namespace Driver

variable {p : Platform} {d : Driver} {c v : Nat} {channel : Channel}

def booking (d : Driver) : Booking := ⟨fun c => (d.chans c).owner, d.chanMap⟩

lemma inUse_of_findChannel (h : d.findChannel p channel = some c) : (d.chans c).inUse = false := by
  have hmap {v : Nat} (h : d.mapSearch p v = some c) : (d.chans c).inUse = false := by
    have := List.find?_some h
    simp_all
  have horder {ord : OrderCh} (h : d.orderSearch p ord = some c) : (d.chans c).inUse = false := by
    obtain ⟨ch, -, hch⟩ := List.exists_of_findSome?_eq_some h
    dsimp only at hch
    split_ifs at hch with hvalid huse
    obtain rfl := Option.some.inj hch
    simpa using huse
  cases channel with
  | lowLevel _ => simp [findChannel] at h
  | virt v =>
    simp only [findChannel] at h
    split_ifs at h
    cases hord : p.order with
    | none => rw [hord] at h; exact hmap h
    | some order =>
      rw [hord] at h
      dsimp only at h
      cases hs : d.orderSearch p (order v) with
      | some c₁ =>
        rw [hs] at h
        obtain rfl := Option.some.inj h
        exact horder hs
      | none =>
        rw [hs] at h
        split_ifs at h
        exact hmap h

/-! ## Transfers do not change the booking -/

def Transfers : Event → Prop
  | .call (.request _ _ _) | .call (.free _ _) => False
  | _ => True

lemma View.owner_abort (v : View) (c : Nat) (buf : Option BufId) :
    (v.abort c buf).chan.owner = v.chan.owner := by
  cases buf <;> rfl

lemma Acts.owner {ev : Event} {v : View} (h : d.Acts c ev v) (hev : Transfers ev) :
    v.chan.owner = (d.chans c).owner := by
  have hfree (b : BufId) : ((d.chans c).freebuf b).owner = (d.chans c).owner := by
    obtain ⟨_, hf⟩ := Chan.freebuf_frame (d.chans c) b
    rw [hf]
    rfl
  cases h with
  | same | stop | strayStop | deliver | dead => rfl
  | request | free => exact hev.elim
  | set book owner => exact owner
  | start => exact Chan.loads_start.keeps.owner
  | started => exact Chan.loads_loadSecond.keeps.owner
  | empty => exact Chan.loads_irqReload.keeps.owner
  | reload => exact Chan.loads_irqReload.keeps.owner.trans (hfree _)
  | release => exact (View.owner_abort _ c _).trans (hfree _)
  | flush h meets =>
    refine (View.owner_abort _ c _).trans ?_
    obtain rfl | ⟨rfl, -⟩ := meets <;> rfl
  | enqueue =>
    obtain ⟨_, _, _, _, hlink⟩ := Chan.link_frame ((d.chans c).alloc _ _ _) (d.chans c).allocs
    obtain ⟨c', hloads, h⟩ := (d.chans c).enqueue_cases _ _ _ _
    have howner := hloads.keeps.owner
    rw [hlink] at howner
    obtain ⟨-, h⟩ | ⟨-, h⟩ := h <;> (rw [h]; exact howner)

@[simp] lemma chanMap_abort (d : Driver) (c : Nat) (buf : Option BufId) :
    (d.abort c buf).chanMap = d.chanMap := by
  cases buf <;> rfl

lemma chanMap_step {ev : Event} (hev : Transfers ev) : (d.step p ev).chanMap = d.chanMap := by
  cases ev with
  | ret =>
    simp only [step, ret]
    split <;> simp
  | irq c dstat =>
    simp only [step, interrupt, irq]
    split
    · split
      · rfl
      · split_ifs <;> rfl
    · rfl
  | call a =>
    cases a with
    | request | free => exact hev.elim
    | enqueue channel id data size mem dstat =>
      simp only [step, exec, enqueue]
      split
      · rfl
      · split_ifs <;> rfl
    | setflags | config =>
      simp only [step, exec, setflags, config]
      split <;> rfl
    | ctrl channel op dstat =>
      simp only [step, exec, ctrl]
      split
      · rfl
      · cases op with
        | flush =>
          simp only [flush, chanMap_abort, chanMap_modify]
          split_ifs <;> simp
        | _ => simp

lemma booking_step {ev : Event} (hev : Transfers ev) : (d.step p ev).booking = d.booking := by
  have howner : (fun c => ((d.step p ev).chans c).owner) = fun c => (d.chans c).owner :=
    funext fun c => (step_acts d ev).owner hev
  rw [booking, howner, chanMap_step hev]
  rfl

/-! ## Requests and releases -/

lemma booking_request_of_some {client irqErr : Nat} (h : d.findChannel p (.virt v) = some c) :
    (d.request p (.virt v) client irqErr).1.booking =
      d.booking.book v c (booked p v client irqErr c (d.chans c)).owner := by
  rw [request_of_some h]
  simp only [booking]
  congr 1
  funext c'
  by_cases hc : c' = c
  · subst hc; simp
  · simp [hc]

lemma chanMap_free_virt (client : Nat) :
    (d.free (.virt v) client).1.chanMap = update d.chanMap v none := by
  unfold free
  cases h : d.lookupChannel (.virt v) with
  | none =>
    have hsame : update d.chanMap v none = d.chanMap := by
      rw [show none = d.chanMap v from h.symm, update_eq_self]
    rw [hsame]
  | some c =>
    dsimp only
    split_ifs <;> simp

lemma chanMap_free_lowLevel (client : Nat) :
    (d.free (.lowLevel c) client).1.chanMap = d.chanMap := by
  unfold free
  dsimp only [lookupChannel]
  split_ifs <;> simp

def vacated (reqCh : Nat) : Owner := ⟨false, false, none, reqCh⟩

lemma owner_free (client : Nat) (h : d.lookupChannel channel = some c) :
    (fun c' => ((d.free channel client).1.chans c').owner) =
      update (fun c' => (d.chans c').owner) c (vacated (d.chans c).reqCh) := by
  funext c'
  by_cases hc : c' = c
  · subst hc
    rw [chans_free client h, update_self]
    split_ifs <;> rfl
  · rw [chans_free_ne client (by rw [h]; simpa using Ne.symm hc), update_of_ne hc]

/-- The calls that keep the booking consistent: a request for a virtual channel that is not
mapped yet and whose interrupt can be claimed, unless it finds no channel at all, and a release
by hardware number of a channel that nobody has. -/
def Regular (p : Platform) (d : Driver) : Event → Prop
  | .call (.request (.virt v) _ irqErr) =>
    d.findChannel p (.virt v) = none ∨ d.chanMap v = none ∧ irqErr = 0
  | .call (.free (.lowLevel c) _) => (d.chans c).inUse = false
  | _ => True

lemma step_consistent {ev : Event} (ok : Regular p d ev) (h : d.booking.Consistent) :
    (d.step p ev).booking.Consistent := by
  have hsame {ev : Event} (hev : Transfers ev) : (d.step p ev).booking.Consistent := by
    rwa [booking_step hev]
  match ev, ok with
  | .call (.request (.lowLevel _) client irqErr), _ => exact h
  | .call (.request (.virt v) client irqErr), ok =>
    cases hfind : d.findChannel p (.virt v) with
    | none =>
      simp only [step, exec, request_of_none hfind]
      exact h
    | some c =>
      obtain ⟨hv, rfl⟩ : d.chanMap v = none ∧ irqErr = 0 := ok.resolve_left (by simp [hfind])
      simp only [step, exec, booking_request_of_some hfind]
      refine h.book (inUse_of_findChannel hfind) hv ?_ rfl
      simp [booked, Chan.owner]
  | .call (.free (.lowLevel c) client), ok =>
    have howner := @owner_free d c (.lowLevel c) client rfl
    simp only [step, exec, booking, howner, chanMap_free_lowLevel]
    exact h.owner_update ok rfl
  | .call (.free (.virt v) client), _ =>
    cases hv : d.chanMap v with
    | none =>
      have hsame : (d.free (.virt v) client).1 = d := by
        simp [free, lookupChannel, hv]
      simp only [step, exec, hsame]
      exact h
    | some c =>
      have howner := @owner_free d c (.virt v) client hv
      simp only [step, exec, booking, howner, chanMap_free_virt]
      exact h.release hv rfl
  | .call (.enqueue ..), _ | .call (.ctrl ..), _ | .call (.setflags ..), _
  | .call (.config ..), _ | .irq .., _ | .ret, _ => exact hsame trivial

lemma booking_request_error {client irqErr : Nat} {err : Int}
    (ok : Regular p d (.call (.request channel client irqErr)))
    (h : (d.request p channel client irqErr).2 = .error err) :
    (d.request p channel client irqErr).1 = d := by
  cases hfind : d.findChannel p channel with
  | none => rw [request_of_none hfind]
  | some c =>
    cases channel with
    | lowLevel _ => simp [findChannel] at hfind
    | virt v =>
      obtain ⟨-, rfl⟩ : d.chanMap v = none ∧ irqErr = 0 := ok.resolve_left (by simp [hfind])
      simp [request_of_some hfind] at h

/-- In every regular run the map and the channels in use agree, and a request that fails
changes neither. -/
theorem channel_map_consistent (p : Platform) (es : List Event)
    (h : Along (step p) (Regular p) init es) :
    (∀ v c, (run p es).chanMap v = some c →
      ((run p es).chans c).inUse = true ∧ ((run p es).chans c).reqCh = v) ∧
    (∀ c, ((run p es).chans c).inUse = true → ∃! v, (run p es).chanMap v = some c) ∧
    ∀ channel client irqErr err, Regular p (run p es) (.call (.request channel client irqErr)) →
      ((run p es).request p channel client irqErr).2 = .error err →
        ((run p es).request p channel client irqErr).1.chanMap = (run p es).chanMap ∧
        ∀ c, (((run p es).request p channel client irqErr).1.chans c).inUse =
          ((run p es).chans c).inUse := by
  have hcons : (run p es).booking.Consistent :=
    h.invariant (P := fun d => d.booking.Consistent) (fun _ _ hd ok => step_consistent ok hd)
      ⟨by simp [booking, init], by simp [booking, init, Chan.owner]⟩
  refine ⟨hcons.mapped, fun c hc => hcons.existsUnique hc, ?_⟩
  intro channel client irqErr err ok herr
  rw [booking_request_error ok herr]
  exact ⟨rfl, fun _ => rfl⟩

def twoClients : List Event :=
  [.call (.request (.virt 9) 1 0), .call (.request (.virt 10) 2 0), .call (.free (.virt 9) 1)]

theorem twoClients_consistent :
    (run s3c2440 twoClients).chanMap 10 = some 2 ∧
      ∃! v, (run s3c2440 twoClients).chanMap v = some 2 := by
  have hmeets : Along (step s3c2440) (Regular s3c2440) init twoClients :=
    ⟨.inr ⟨rfl, rfl⟩, .inr ⟨by decide, rfl⟩, trivial, trivial⟩
  exact ⟨by decide, (channel_map_consistent s3c2440 twoClients hmeets).2.1 2 (by decide)⟩

/-- A request for the I2S output whose interrupt cannot be claimed returns the error and leaves
the map pointing at a channel that nobody has. -/
theorem failedRequest_stays_mapped :
    (init.request s3c2440 (.virt 10) 1 16).2 = .error (-16) ∧
      (run s3c2440 [.call (.request (.virt 10) 1 16)]).chanMap 10 = some 2 ∧
      ((run s3c2440 [.call (.request (.virt 10) 1 16)]).chans 2).inUse = false ∧
      ¬ ∀ es v c, (run s3c2440 es).chanMap v = some c →
        ((run s3c2440 es).chans c).inUse = true := by
  refine ⟨rfl, rfl, rfl, fun h => ?_⟩
  exact absurd (h [.call (.request (.virt 10) 1 16)] 10 2 rfl) (by decide)

end Driver

end Mini2440.Dma
