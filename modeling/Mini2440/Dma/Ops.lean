import Mini2440.Dma.Booking

/-!
# The request operation of the S3C DMA ops

`s3c_dma_request` of `plat-samsung/s3c-dma-ops.c` asks the driver for a channel and, if that
fails, releases the virtual channel again. The release goes by the number only. When the
failed request has not mapped anything, the number may still map to the channel of another
client, which is then stopped and given up.
-/

namespace Mini2440.Dma

/-- The number that names a channel in the interface, with `DMACH_LOW_LEVEL` where it applies. -/
def Channel.number : Channel → Nat
  | .virt v => v
  | .lowLevel c => 2 ^ 28 + c

def dmafCircular : BitVec 32 := 1 <<< 2

/-- The driver, and the channel numbers of the records on `dma_list`. -/
structure Ops where
  driver : Driver
  dmaList : List Nat

namespace Ops

/-- `s3c_dma_request`; `cyclic` tells whether `DMA_CYCLIC` is asked for. -/
def s3cDmaRequest (p : Platform) (o : Ops) (dmaCh : Channel) (client : Nat) (cyclic : Bool)
    (irqErr : Nat) : Ops × Nat :=
  match o.driver.request p dmaCh client irqErr with
  | (d, .error _) => ({ o with driver := (d.free dmaCh client).1 }, 0)
  | (d, .ok _) =>
    let d := if cyclic then (d.setflags dmaCh dmafCircular).1 else d
    ({ driver := d, dmaList := o.dmaList ++ [dmaCh.number] }, dmaCh.number)

end Ops

namespace Driver

variable {p : Platform} {d : Driver} {c v client irqErr : Nat}

/-- A request for `v` fails: no channel is free, or the interrupt cannot be claimed. -/
def RequestFails (p : Platform) (d : Driver) (v irqErr : Nat) : Prop :=
  ∀ c, d.findChannel p (.virt v) = some c → (d.chans c).irqClaimed = false ∧ irqErr ≠ 0

lemma requestFails_iff :
    d.RequestFails p v irqErr ↔ ∃ err, (d.request p (.virt v) client irqErr).2 = .error err := by
  cases hfind : d.findChannel p (.virt v) with
  | none => simp [RequestFails, hfind, request_of_none hfind]
  | some c =>
    rw [request_of_some hfind]
    cases hclaim : (d.chans c).irqClaimed <;> by_cases herr : irqErr = 0 <;>
      simp [RequestFails, hfind, hclaim, herr]

/-- Channel `c` is in the hands of a client other than `client`. -/
def OwnedByOther (d : Driver) (client c : Nat) : Prop :=
  (d.chans c).inUse = true ∧ (d.chans c).client ≠ some client

/-- Channel `c` and its entries in the map are the same in both states. -/
def SameFor (d d' : Driver) (c : Nat) : Prop :=
  d'.chans c = d.chans c ∧ ∀ v, d'.chanMap v = some c ↔ d.chanMap v = some c

lemma sameFor_request_free (hfail : d.RequestFails p v irqErr) (huse : (d.chans c).inUse) :
    d.SameFor ((d.request p (.virt v) client irqErr).1.free (.virt v) client).1 c ↔
      d.chanMap v ≠ some c := by
  have hmap (d' : Driver) (hd' : ∀ v', v' ≠ v → d'.chanMap v' = d.chanMap v') :
      (∀ v', (d'.free (.virt v) client).1.chanMap v' = some c ↔ d.chanMap v' = some c) ↔
        d.chanMap v ≠ some c := by
    rw [chanMap_free_virt]
    constructor
    · intro h
      simpa using (h v).not.mp
    · intro hv v'
      by_cases hne : v' = v
      · subst hne; simpa using hv
      · simp [hne, hd' v' hne]
  cases hfind : d.findChannel p (.virt v) with
  | none =>
    rw [request_of_none hfind]
    constructor
    · exact fun h => (hmap d fun _ _ => rfl).mp h.2
    · exact fun hv => ⟨chans_free_ne client hv, (hmap d fun _ _ => rfl).mpr hv⟩
  | some c₁ =>
    have hne : c ≠ c₁ := by
      rintro rfl
      simp [inUse_of_findChannel hfind] at huse
    rw [request_of_some hfind]
    constructor
    · exact fun h => (hmap _ fun v' hv' => by simp [hv']).mp h.2
    · refine fun hv => ⟨?_, (hmap _ fun v' hv' => by simp [hv']).mpr hv⟩
      rw [chans_free_ne]
      · simp [hne]
      · simpa [lookupChannel] using Ne.symm hne

end Driver

namespace Ops

open Driver

variable {p : Platform} {o : Ops} {v client irqErr : Nat} {cyclic : Bool}

lemma driver_s3cDmaRequest (h : o.driver.RequestFails p v irqErr) :
    (o.s3cDmaRequest p (.virt v) client cyclic irqErr).1.driver =
      ((o.driver.request p (.virt v) client irqErr).1.free (.virt v) client).1 := by
  obtain ⟨err, herr⟩ := requestFails_iff.mp h
  unfold s3cDmaRequest
  generalize o.driver.request p (.virt v) client irqErr = r at herr ⊢
  obtain ⟨d, result⟩ := r
  obtain rfl : result = .error err := herr
  rfl

/-- A failing `s3c_dma_request` leaves every channel of the other clients alone exactly when
the virtual channel asked for is not mapped to one of them. -/
theorem s3cDmaRequest_isolated_iff (p : Platform) (o : Ops) (v client : Nat) (cyclic : Bool)
    (irqErr : Nat) :
    ((∃ err, (o.driver.request p (.virt v) client irqErr).2 = .error err) →
      ∀ c, o.driver.OwnedByOther client c →
        o.driver.SameFor (o.s3cDmaRequest p (.virt v) client cyclic irqErr).1.driver c) ↔
    ¬ (o.driver.RequestFails p v irqErr ∧
        ∃ c, o.driver.chanMap v = some c ∧ o.driver.OwnedByOther client c) := by
  rw [← requestFails_iff]
  constructor
  · rintro h ⟨hfail, c, hmap, hother⟩
    have hsame := h hfail c hother
    rw [driver_s3cDmaRequest hfail, sameFor_request_free hfail hother.1] at hsame
    exact hsame hmap
  · intro h hfail c hother
    rw [driver_s3cDmaRequest hfail, sameFor_request_free hfail hother.1]
    exact fun hmap => h ⟨hfail, c, hmap, hother⟩

/-- Client 1 has the I2S output, and three other clients have the other hardware channels. -/
def busy : Ops where
  driver := Driver.run s3c2440 [.call (.request (.virt 10) 1 0), .call (.request (.virt 2) 3 0),
    .call (.request (.virt 9) 4 0), .call (.request (.virt 0) 5 0)]
  dmaList := []

/-- Client 2 asks for the I2S output too; the request fails and client 1 loses the channel. -/
theorem busy_request_takes_channel :
    (busy.driver.request s3c2440 (.virt 10) 2 0).2 = .error (-16) ∧
      (busy.driver.chans 2).owner = ⟨true, true, some 1, 10⟩ ∧
      ((busy.s3cDmaRequest s3c2440 (.virt 10) 2 false 0).1.driver.chans 2).owner =
        ⟨false, false, none, 10⟩ ∧
      ¬ busy.driver.SameFor (busy.s3cDmaRequest s3c2440 (.virt 10) 2 false 0).1.driver 2 := by
  have hafter : ((busy.s3cDmaRequest s3c2440 (.virt 10) 2 false 0).1.driver.chans 2).owner =
      ⟨false, false, none, 10⟩ := by decide
  refine ⟨rfl, by decide, hafter, fun h => ?_⟩
  rw [h.1] at hafter
  exact absurd hafter (by decide)

end Ops

end Mini2440.Dma
