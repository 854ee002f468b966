import Mathlib.Data.BitVec
import Mini2440.Errno

/-!
# One S3C24xx DMA channel

The state of `struct s3c2410_dma_chan` and the functions of `mach-s3c24xx/dma.c` that act
on a single channel. Buffers live in a heap of `s3c2410_dma_buf` cells linked through their
`next` fields; a channel holds three pointers into it.

The cache `dma_kmem` gives out a cell that was never given out before, so a buffer is named
by the number of allocations that preceded it, and each channel keeps the cells queued on
it. A freed cell keeps its content with the magic number destroyed, as `freebuf` leaves it.

The engine is the register pair of a channel: a transfer being performed and a transfer
waiting in the initial registers. `accepted`, `done` and `freed` record what the clients
of the channel observe and are read by no function. The statistics are counters that
nothing reads back. `callback_fn` and `op_fn` are client code: `buffdone` records the call,
and the calls that a callback makes in turn are events of the driver model.
-/

namespace Mini2440.Dma

abbrev BufId := Nat

/-- `BUF_MAGIC`, and the value that `freebuf` overwrites it with. -/
def bufMagic : BitVec 32 := 0xcafebabe
def badMagic : BitVec 32 := 0xffffffff

def dconAutoreload : BitVec 32 := 0
def dconNoreload : BitVec 32 := 1 <<< 22
def dconHandshake : BitVec 32 := 1 <<< 31
def dconSyncPclk : BitVec 32 := 0 <<< 30
def dconSyncHclk : BitVec 32 := 1 <<< 30
def dconIntreq : BitVec 32 := 1 <<< 29
def dconHwtrig : BitVec 32 := 1 <<< 23
def dconByte : BitVec 32 := 0 <<< 20
def dconHalfword : BitVec 32 := 1 <<< 20
def dconWord : BitVec 32 := 2 <<< 20
def dmasktrigStop : BitVec 32 := 1 <<< 2
def dmasktrigOn : BitVec 32 := 1 <<< 1

def autostart : BitVec 32 := 1 <<< 1

inductive BuffResult where
  | ok | err | abort
  deriving DecidableEq, Repr

inductive State where
  | idle | running | paused
  deriving DecidableEq, Repr

/-- `S3C2410_DMALOAD_NONE`, `1LOADED`, `1RUNNING` and `1LOADED_1RUNNING`. -/
inductive LoadState where
  | none | loaded | running | loadedRunning
  deriving DecidableEq, Repr

def LoadState.count : LoadState → Nat
  | .none => 0
  | .loaded => 1
  | .running => 1
  | .loadedRunning => 2

/-- The load state that the interrupt handler moves to: one buffer less. -/
def LoadState.retire : LoadState → LoadState
  | .running => .none
  | .loaded => .none
  | .loadedRunning => .loaded
  | .none => .none

structure Buf where
  next : Option BufId := none
  magic : BitVec 32 := 0
  size : Int := 0
  data : BitVec 32 := 0
  ptr : BitVec 32 := 0
  id : Nat := 0
  deriving DecidableEq, Repr

structure Stats where
  loads : Nat := 0
  timeoutLongest : Nat := 0
  timeoutShortest : Nat := 2 ^ 31 - 1
  timeoutAvg : Nat := 0
  timeoutFailed : Nat := 0
  deriving DecidableEq, Repr

/-- `s3c2410_dma_stats_timeout`. -/
def Stats.timeout (s : Stats) (val : Nat) : Stats :=
  { s with
    timeoutLongest := if val > s.timeoutLongest then val else s.timeoutLongest
    timeoutShortest := if val < s.timeoutShortest then val else s.timeoutShortest
    timeoutAvg := s.timeoutAvg + val }

/-- The registers of a channel. `active` is the transfer in the current registers, `reload`
the one in the initial registers, `finished` the transfers completed so far. -/
structure Engine where
  active : Option BufId := none
  reload : Option BufId := none
  addr : BitVec 32 := 0
  dcon : BitVec 32 := 0
  dmasktrig : BitVec 32 := 0
  finished : List BufId := []
  deriving DecidableEq, Repr

namespace Engine

/-- The transfers handed to the engine and not completed, oldest first. -/
def pending (e : Engine) : List BufId := e.active.toList ++ e.reload.toList

/-- Writing the address and control registers replaces whatever was waiting in them. -/
def load (e : Engine) (b : BufId) (addr dcon : BitVec 32) : Engine :=
  { e with reload := some b, addr := addr, dcon := dcon }

/-- The engine moves the waiting transfer to the current registers. -/
def take (e : Engine) : Engine :=
  match e.active with
  | none => { e with active := e.reload, reload := none }
  | some _ => e

def complete (e : Engine) : Option (BufId × Engine) :=
  match e.active, e.reload with
  | some b, _ => some (b, { e with active := none, finished := e.finished ++ [b] })
  | none, some b => some (b, { e with reload := none, finished := e.finished ++ [b] })
  | none, none => none

def on (e : Engine) : Engine :=
  { e with dmasktrig := (e.dmasktrig &&& ~~~dmasktrigStop) ||| dmasktrigOn }

/-- Setting the stop bit ends the transfers in progress without completing them. -/
def stop (e : Engine) : Engine :=
  { e with dmasktrig := e.dmasktrig ||| dmasktrigStop, active := none, reload := none }

end Engine

structure Chan where
  inUse : Bool := false
  irqClaimed : Bool := false
  irqEnabled : Bool := false
  xferUnit : Int := 0
  state : State := .idle
  loadState : LoadState := .none
  client : Option Nat := none
  reqCh : Nat := 0
  loadTimeout : Nat := 2 ^ 18
  flags : BitVec 32 := 0
  dcon : BitVec 32 := 0
  stats : Stats := {}
  curr : Option BufId := none
  next : Option BufId := none
  /-- `end` in the source. -/
  last : Option BufId := none
  bufs : BufId → Buf := fun _ => {}
  allocs : Nat := 0
  engine : Engine := {}
  accepted : List BufId := []
  done : List (BufId × BuffResult) := []
  freed : List BufId := []

structure Owner where
  inUse : Bool
  irqClaimed : Bool
  client : Option Nat
  reqCh : Nat
  deriving DecidableEq, Repr

namespace Chan

def owner (c : Chan) : Owner := ⟨c.inUse, c.irqClaimed, c.client, c.reqCh⟩

/-- The polling loop of `waitforload`: the remaining count when `DSTAT` first shows a
transfer. `dstat i` is the value returned by the `i`-th read. -/
def pollDstat (dstat : Nat → BitVec 32) : Nat → Nat → Option Nat
  | 0, _ => none
  | timeout + 1, i =>
    if dstat i <<< 12 ≠ 0 then some (timeout + 1) else pollDstat dstat timeout (i + 1)

/-- Wait for the engine to take the loaded buffer. A transfer count seen in `DSTAT` is the
engine's confirmation that it has taken it. -/
def waitforload (c : Chan) (dstat : Nat → BitVec 32) : Chan × Bool :=
  if c.loadState ≠ .loaded then (c, false)
  else
    let stats := { c.stats with loads := c.stats.loads + 1 }
    match pollDstat dstat (c.loadTimeout - 1) 0 with
    | some timeout =>
      ({ c with
          stats := stats.timeout (c.loadTimeout - timeout)
          loadState := .running
          engine := c.engine.take }, true)
    | none => ({ c with stats := { stats with timeoutFailed := stats.timeoutFailed + 1 } }, false)

/-- The control word written for a buffer. Only the first buffer of a channel can turn the
automatic reload off, when no other buffer follows it. The division stands for the one of the
source on a channel whose transfer unit `config` has set. -/
def loadDcon (c : Chan) (buf : Buf) : BitVec 32 :=
  let reload :=
    if c.loadState = .none then
      if buf.next = none then dconNoreload else 0
    else dconAutoreload
  c.dcon ||| reload ||| BitVec.ofInt 32 (buf.size.tdiv c.xferUnit)

def loadbuffer (c : Chan) : Option BufId → Chan × Int
  | none => (c, -EINVAL)
  | some b =>
    ({ c with
        engine := c.engine.load b (c.bufs b).data (c.loadDcon (c.bufs b))
        next := (c.bufs b).next
        loadState :=
          match c.loadState with
          | .none => .loaded
          | .running => .loadedRunning
          | s => s }, 0)

/-- The common end of `start` and `started`: with one buffer loaded and another queued,
load the second one as soon as the engine has taken the first. -/
def loadSecond (c : Chan) (dstat : Nat → BitVec 32) : Chan :=
  if c.next = none then c
  else if c.loadState = .loaded then
    match c.waitforload dstat with
    | (c, false) => c
    | (c, true) => ({ c with loadState := .running }.loadbuffer c.next).1
  else if c.loadState = .running then (c.loadbuffer c.next).1
  else c

def setState (c : Chan) (state : State) : Chan := { c with state := state }

def turnOn (c : Chan) : Chan := { c with irqEnabled := true, engine := c.engine.on }

def start (c : Chan) (dstat : Nat → BitVec 32) : Chan × Int :=
  if c.state = .running then (c, 0)
  else
    let c := c.setState .running
    if c.loadState = .none then
      if c.next = none then (c.setState .idle, -EINVAL)
      else ((c.loadbuffer c.next).1.turnOn.loadSecond dstat, 0)
    else (c.turnOn.loadSecond dstat, 0)

def started (c : Chan) (dstat : Nat → BitVec 32) : Chan × Int := (c.loadSecond dstat, 0)

def canload (c : Chan) : Bool := c.loadState = .none || c.loadState = .running

/-- The loading loop of `enqueue`, with at most `fuel` iterations. -/
def loadAll : Nat → Chan → Chan
  | 0, c => c
  | fuel + 1, c =>
    if c.canload ∧ c.next ≠ none then loadAll fuel (c.loadbuffer c.next).1 else c

/-- `kmem_cache_alloc` and the initialisation of the buffer by `enqueue`. -/
def alloc (c : Chan) (id : Nat) (data : BitVec 32) (size : Int) : Chan :=
  { c with
    bufs := Function.update c.bufs c.allocs
      { next := none, magic := bufMagic, size := size, data := data, ptr := data, id := id }
    allocs := c.allocs + 1 }

def setNext (c : Chan) (b : BufId) (next : Option BufId) : Chan :=
  { c with bufs := Function.update c.bufs b { c.bufs b with next := next } }

/-- Link a new buffer at the end of the queue, and make it the next to load if every
earlier one has been loaded. -/
def link (c : Chan) (b : BufId) : Chan :=
  let c :=
    match c.curr, c.last with
    | none, _ => { c with curr := some b, last := some b, next := none }
    | some _, none => c
    | some _, some e => { c.setNext e (some b) with last := some b }
  if c.next = none then { c with next := some b } else c

def accept (c : Chan) (b : BufId) : Chan := { c with accepted := c.accepted ++ [b] }

/-- `enqueue` on the channel that was looked up, after a successful allocation. The start
of an idle channel goes through `s3c2410_dma_ctrl` with the channel's own hardware number. -/
def enqueue (c : Chan) (id : Nat) (data : BitVec 32) (size : Int) (dstat : Nat → BitVec 32) :
    Chan × Int :=
  let b := c.allocs
  let c := (c.alloc id data size).link b
  match c.state with
  | .running =>
    match if c.loadState = .loaded then c.waitforload dstat else (c, true) with
    | (c, false) => (c, -EINVAL)
    | (c, true) => ((c.loadAll 2).accept b, 0)
  | .idle => ((if c.flags &&& autostart ≠ 0 then (c.start dstat).1 else c).accept b, 0)
  | .paused => (c.accept b, 0)

def buffdone (c : Chan) (b : BufId) (result : BuffResult) : Chan :=
  { c with done := c.done ++ [(b, result)] }

def freebuf (c : Chan) (b : BufId) : Chan :=
  let magicok := (c.bufs b).magic = bufMagic
  let c := { c with bufs := Function.update c.bufs b { c.bufs b with magic := badMagic } }
  if magicok then { c with freed := c.freed ++ [b] } else c

def dostop (c : Chan) : Chan :=
  { c with engine := c.engine.stop, state := .idle, loadState := .none }

def noreload (c : Chan) : Chan :=
  { c with engine := { c.engine with dcon := c.dcon ||| dconNoreload } }

def lastxfer (c : Chan) (dstat : Nat → BitVec 32) : Chan :=
  match c.loadState with
  | .none => c.noreload
  | .loaded =>
    match c.waitforload dstat with
    | (c, false) => c
    | (c, true) => c.noreload
  | .loadedRunning => c
  | .running => c

/-- The first switch of the interrupt handler. -/
def retire (c : Chan) : Chan := { c with loadState := c.loadState.retire }

def unlinkCurr (c : Chan) (b : BufId) : Chan :=
  { c.setNext b none with curr := (c.bufs b).next }

/-- The part of the interrupt handler after the callback: load the next buffer, or prepare
the channel for the end of its transfers and stop it when nothing is loaded. -/
def irqReload (c : Chan) (dstat : Nat → BitVec 32) : Chan :=
  if c.next ≠ none ∧ c.state ≠ .idle then
    match c.loadState with
    | .running => (c.loadbuffer c.next).1
    | .none => (c.loadbuffer c.next).1
    | .loaded =>
      match c.waitforload dstat with
      | (c, false) => c
      | (c, true) => (c.loadbuffer c.next).1
    | .loadedRunning => c
  else
    let c := c.lastxfer dstat
    if c.loadState = .none then c.dostop else c

/-- `flush` takes the queue off the channel before it aborts the buffers. -/
def detach (c : Chan) : Chan := { c with curr := none, next := none, last := none }

/-- The part of the control word that depends on the virtual channel served. -/
def syncDcon : Nat → BitVec 32
  | 2 => dconSyncPclk -- DMACH_SDI
  | 0 | 1 => dconHandshake ||| dconSyncHclk -- DMACH_XD0, DMACH_XD1
  | _ => dconHandshake ||| dconSyncPclk

def unitDcon : Int → Option (BitVec 32)
  | 1 => some dconByte
  | 2 => some dconHalfword
  | 4 => some dconWord
  | _ => none

/-- `s3c2410_dma_config` on the channel that was looked up. -/
def config (c : Chan) (dconMask : BitVec 32) (xferunit : Int) : Chan × Int :=
  match unitDcon xferunit with
  | none => (c, -EINVAL)
  | some unit =>
    ({ c with
        dcon := (c.dcon &&& dconMask) ||| syncDcon c.reqCh ||| unit ||| dconHwtrig ||| dconIntreq
        xferUnit := xferunit }, 0)

end Chan

end Mini2440.Dma
