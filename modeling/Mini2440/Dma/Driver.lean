import Mini2440.Dma.Channel
import Mini2440.Library.Run

/-!
# The S3C24xx DMA driver

The table `s3c2410_chans` of hardware channels, the map `s3c_dma_chan_map` from virtual
channel numbers to them, and the entry points of the driver over both. A channel's
`number` is its index in the table: `s3c24xx_dma_init` sets it so and nothing else writes it.

What the driver does not decide is an input of each call: whether `kmem_cache_alloc` and
`request_irq` succeed, and the values that reading `DSTAT` returns.

The interrupt handler and the loop of `flush` call the client back. A callback is client code
that may call the driver again, also to flush, so the driver keeps a stack of the callbacks that
have been entered: what happens in one are the events until its return. Both callers run with
interrupts disabled.
-/

namespace Mini2440.Dma

open Library

/-- A channel argument: a virtual number, or a hardware number with `DMACH_LOW_LEVEL`. -/
inductive Channel where
  | virt (v : Nat)
  | lowLevel (c : Nat)
  deriving DecidableEq, Repr

inductive ChanOp where
  | start | stop | pause | resume | flush | timeout | started
  deriving DecidableEq, Repr

def dmaChValid : BitVec 32 := 1 <<< 31
def dmaChNever : BitVec 32 := 1 <<< 30

def isChannelValid (channel : BitVec 32) : Bool := channel &&& dmaChValid ≠ 0

/-- `struct s3c24xx_dma_order_ch`: hardware channels to try first, and `DMA_CH_NEVER`. -/
structure OrderCh where
  list : Nat → BitVec 32
  flags : BitVec 32

/-- What the processor and the board provide: `dma_channels`, `dma_sel` and `dma_order`. The
tables are total functions because an index is checked against `map_size` only. -/
structure Platform where
  dmaChannels : Nat
  mapSize : Nat
  dconMask : BitVec 32
  channels : Nat → Nat → BitVec 32
  order : Option (Nat → OrderCh)

/-- `s3c2440_dma_select`. -/
def Platform.select (p : Platform) (channel c : Nat) (chan : Chan) : Chan :=
  { chan with dcon := p.channels channel c &&& ~~~dmaChValid }

/-- `s3c2440_dma_mappings`: for each virtual channel, the hardware channels that can serve it
with the request source to select there. -/
def s3c2440Mappings : List (List (Nat × Nat)) :=
  [[(0, 0)], -- xdreq0
   [(1, 0)], -- xdreq1
   [(0, 2), (1, 6), (2, 2), (3, 1)], -- sdi
   [(1, 3)], -- spi0
   [(3, 2)], -- spi1
   [(0, 1)], -- uart0
   [(1, 1)], -- uart1
   [(3, 0)], -- uart2
   [(0, 3), (2, 3), (3, 3)], -- timer
   [(1, 2), (2, 1)], -- i2s-sdi
   [(0, 5), (2, 0)], -- i2s-sdo
   [(0, 6), (2, 5)], -- pcm-in
   [(1, 5), (3, 6)], -- pcm-out
   [(2, 6), (3, 5)], -- mic-in
   [(0, 4)], [(1, 4)], [(2, 4)], [(3, 4)]] -- usb-ep1 to usb-ep4

/-- `s3c2440_dma_order`: the hardware channels that a virtual channel tries first. -/
def s3c2440Order : Nat → List Nat
  | 2 => [3, 2, 1, 0]
  | 9 => [1, 2]
  | 10 => [2, 1]
  | 11 => [2, 1]
  | 12 => [1, 3]
  | 13 => [3, 2]
  | _ => []

def s3c2440 : Platform where
  dmaChannels := 4
  mapSize := s3c2440Mappings.length
  dconMask := 7 <<< 24
  channels v c :=
    match (s3c2440Mappings.getD v []).lookup c with
    | some source => BitVec.ofNat 32 (source <<< 24) ||| dmaChValid
    | none => 0
  order := some fun v =>
    { list := fun ch =>
        match (s3c2440Order v)[ch]? with
        | some c => BitVec.ofNat 32 c ||| dmaChValid
        | none => 0
      flags := 0 }

/-- A callback for buffer `b` of channel `c` that has not returned: the interrupt handler ends
after it, or the loop of `flush` goes on with the buffer `next`. -/
inductive Frame where
  | irq (c : Nat) (b : BufId) (dstat : Nat → BitVec 32)
  | flush (c : Nat) (b : BufId) (next : Option BufId)

def Frame.chan : Frame → Nat
  | .irq c _ _ => c
  | .flush c _ _ => c

structure Driver where
  chans : Nat → Chan
  chanMap : Nat → Option Nat
  /-- The innermost callback comes first. -/
  stack : List Frame

namespace Driver

/-- `s3c24xx_dma_init`: the channel structures are cleared and the map is empty. -/
def init : Driver := ⟨fun _ => {}, fun _ => none, []⟩

def modify (d : Driver) (c : Nat) (f : Chan → Chan) : Driver :=
  { d with chans := Function.update d.chans c (f (d.chans c)) }

/-- `s3c_dma_lookup_channel`. -/
def lookupChannel (d : Driver) : Channel → Option Nat
  | .lowLevel c => some c
  | .virt v => d.chanMap v

/-- `s3c2410_dma_ctrl` with `S3C2410_DMAOP_STOP`. -/
def ctrlStop (d : Driver) (channel : Channel) : Driver × Int :=
  match d.lookupChannel channel with
  | none => (d, -EINVAL)
  | some c => (d.modify c Chan.dostop, 0)

/-- The loop of `flush` at the buffer `buf`, up to the callback. The link to the next buffer is
read before. -/
def abort (d : Driver) (c : Nat) : Option BufId → Driver
  | none => d
  | some b =>
    { d.modify c (fun chan => chan.buffdone b .abort) with
      stack := .flush c b ((d.chans c).bufs b).next :: d.stack }

/-- `flush` stops a busy channel through its bare number, which `s3c2410_dma_ctrl` reads as
a virtual channel, and then aborts the buffers of the channel. It returns zero when the last
callback has returned. -/
def flush (d : Driver) (c : Nat) : Driver × Int :=
  let d := if (d.chans c).state ≠ .idle then (d.ctrlStop (.virt c)).1 else d
  let buf := (d.chans c).curr.or (d.chans c).next
  ((d.modify c Chan.detach).abort c buf, 0)

def ctrl (d : Driver) (channel : Channel) (op : ChanOp) (dstat : Nat → BitVec 32) : Driver × Int :=
  match d.lookupChannel channel with
  | none => (d, -EINVAL)
  | some c =>
    match op with
    | .start => (d.modify c (fun chan => (chan.start dstat).1), ((d.chans c).start dstat).2)
    | .stop => d.ctrlStop channel
    | .pause => (d, -ENOENT)
    | .resume => (d, -ENOENT)
    | .flush => d.flush c
    | .started =>
      (d.modify c (fun chan => (chan.started dstat).1), ((d.chans c).started dstat).2)
    | .timeout => (d, 0)

/-- `mem` tells whether `kmem_cache_alloc` returns a buffer. -/
def enqueue (d : Driver) (channel : Channel) (id : Nat) (data : BitVec 32) (size : Int)
    (mem : Bool) (dstat : Nat → BitVec 32) : Driver × Int :=
  match d.lookupChannel channel with
  | none => (d, -EINVAL)
  | some c =>
    if mem then
      (d.modify c (fun chan => (chan.enqueue id data size dstat).1),
        ((d.chans c).enqueue id data size dstat).2)
    else (d, -ENOMEM)

/-- `s3c2410_dma_setflags`. -/
def setflags (d : Driver) (channel : Channel) (flags : BitVec 32) : Driver × Int :=
  match d.lookupChannel channel with
  | none => (d, -EINVAL)
  | some c => (d.modify c (fun chan => { chan with flags := flags }), 0)

def config (p : Platform) (d : Driver) (channel : Channel) (xferunit : Int) : Driver × Int :=
  match d.lookupChannel channel with
  | none => (d, -EINVAL)
  | some c =>
    (d.modify c (fun chan => (chan.config p.dconMask xferunit).1),
      ((d.chans c).config p.dconMask xferunit).2)

/-- The search of `s3c2410_dma_map_channel` through the order that the board prefers. -/
def orderSearch (p : Platform) (d : Driver) (ord : OrderCh) : Option Nat :=
  (List.range p.dmaChannels).findSome? fun ch =>
    if isChannelValid (ord.list ch) then
      let tmp := (ord.list ch &&& ~~~dmaChValid).toNat
      if (d.chans tmp).inUse then none else some tmp
    else none

/-- The search for the first free channel that the virtual channel can be attached to. -/
def mapSearch (p : Platform) (d : Driver) (channel : Nat) : Option Nat :=
  (List.range p.dmaChannels).find? fun ch =>
    isChannelValid (p.channels channel ch) && !(d.chans ch).inUse

/-- The hardware channel that a request for `channel` would be given. A hardware number is
past the end of every map. -/
def findChannel (p : Platform) (d : Driver) : Channel → Option Nat
  | .lowLevel _ => none
  | .virt v =>
    if v > p.mapSize then none
    else
      match p.order with
      | none => d.mapSearch p v
      | some order =>
        match d.orderSearch p (order v) with
        | some c => some c
        | none => if (order v).flags &&& dmaChNever ≠ 0 then none else d.mapSearch p v

/-- `s3c2410_dma_map_channel`. -/
def mapChannel (p : Platform) (d : Driver) (v : Nat) : Option (Driver × Nat) :=
  (d.findChannel p (.virt v)).map fun c =>
    ({ d.modify c (fun chan => p.select v c { chan with reqCh := v }) with
        chanMap := Function.update d.chanMap v (some c) }, c)

/-- `irqErr` is the error number with which `request_irq` fails, zero if it succeeds. -/
def request (p : Platform) (d : Driver) (channel : Channel) (client : Nat) (irqErr : Nat) :
    Driver × Except Int Channel :=
  match channel with
  | .lowLevel _ => (d, .error (-EBUSY))
  | .virt v =>
    match d.mapChannel p v with
    | none => (d, .error (-EBUSY))
    | some (d, c) =>
      let d := d.modify c (fun chan => { chan with client := some client, inUse := true })
      if (d.chans c).irqClaimed then (d, .ok (.lowLevel c))
      else if irqErr ≠ 0 then
        (d.modify c (fun chan => { chan with inUse := false, irqClaimed := false }),
          .error (-(irqErr : Int)))
      else
        (d.modify c (fun chan => { chan with irqClaimed := true, irqEnabled := true }),
          .ok (.lowLevel c))

/-- `s3c2410_dma_free`. A different client is warned about and let through. -/
def free (d : Driver) (channel : Channel) (_client : Nat) : Driver × Int :=
  match d.lookupChannel channel with
  | none => (d, -EINVAL)
  | some c =>
    let d := if (d.chans c).state ≠ .idle then (d.ctrlStop channel).1 else d
    let d := d.modify c (fun chan =>
      { chan with client := none, inUse := false, irqClaimed := false })
    match channel with
    | .virt v => ({ d with chanMap := Function.update d.chanMap v none }, 0)
    | .lowLevel _ => (d, 0)

end Driver

inductive Call where
  | enqueue (channel : Channel) (id : Nat) (data : BitVec 32) (size : Int) (mem : Bool)
      (dstat : Nat → BitVec 32)
  | ctrl (channel : Channel) (op : ChanOp) (dstat : Nat → BitVec 32)
  | setflags (channel : Channel) (flags : BitVec 32)
  | config (channel : Channel) (xferunit : Int)
  | request (channel : Channel) (client : Nat) (irqErr : Nat)
  | free (channel : Channel) (client : Nat)

/-- A call by a client, a transfer completed by the engine of channel `c`, or the return of the
innermost callback. -/
inductive Event where
  | call (a : Call)
  | irq (c : Nat) (dstat : Nat → BitVec 32)
  | ret

namespace Driver

variable (p : Platform)

def exec (d : Driver) : Call → Driver
  | .enqueue channel id data size mem dstat => (d.enqueue channel id data size mem dstat).1
  | .ctrl channel op dstat => (d.ctrl channel op dstat).1
  | .setflags channel flags => (d.setflags channel flags).1
  | .config channel xferunit => (d.config p channel xferunit).1
  | .request channel client irqErr => (d.request p channel client irqErr).1
  | .free channel client => (d.free channel client).1

/-- `s3c2410_dma_irq`, up to the callback if there is one. -/
def irq (d : Driver) (c : Nat) (dstat : Nat → BitVec 32) : Driver :=
  let buf := (d.chans c).curr
  let d := d.modify c Chan.retire
  match buf with
  | none => d.modify c (fun chan => chan.irqReload dstat)
  | some b =>
    let d := d.modify c (fun chan => chan.unlinkCurr b)
    if ((d.chans c).bufs b).magic ≠ bufMagic then d
    else
      { d.modify c (fun chan => chan.buffdone b .ok) with stack := .irq c b dstat :: d.stack }

/-- The engine of channel `c` completes a transfer and raises its interrupt; an engine that
holds nothing completes nothing. No interrupt is taken in a callback. -/
def interrupt (d : Driver) (c : Nat) (dstat : Nat → BitVec 32) : Driver :=
  match d.stack, (d.chans c).engine.complete with
  | [], some (_, e) => (d.modify c (fun chan => { chan with engine := e })).irq c dstat
  | _, _ => d

/-- The innermost callback returns to the interrupt handler or to the loop of `flush`. -/
def ret (d : Driver) : Driver :=
  match d.stack with
  | [] => d
  | .irq c b dstat :: s =>
    { d.modify c (fun chan => (chan.freebuf b).irqReload dstat) with stack := s }
  | .flush c b next :: s =>
    { d.modify c (fun chan => chan.freebuf b) with stack := s }.abort c next

def step (d : Driver) : Event → Driver
  | .call a => d.exec p a
  | .irq c dstat => d.interrupt c dstat
  | .ret => d.ret

def run (es : List Event) : Driver := runFrom (step p) init es

end Driver

end Mini2440.Dma
