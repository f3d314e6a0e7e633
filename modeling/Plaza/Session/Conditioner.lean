import Mathlib.Data.Rat.Defs
import Plaza.Lib.Execution
import Plaza.Wire.Frame

namespace Plaza.Session

open Wire

-- What one retransmission costs, in nanoseconds.
def retransmitPenalty : Nat := 200000000

-- What a lost frame costs.
inductive Delivery
  | reliable
  | datagram
  deriving DecidableEq, Repr

-- Impairment of one direction of a link. A frame is delayed, and by something between zero and the jitter
-- on top of that. The loss is the probability that it is lost in transit.
structure DirectionProfile where
  delay    : Nat      := 0
  jitter   : Nat      := 0
  loss     : Rat      := 0
  delivery : Delivery := .reliable
  deriving DecidableEq, Repr

-- Whether this profile does nothing.
def DirectionProfile.isPassthrough (p : DirectionProfile) : Bool :=
  p.delay = 0 && p.jitter = 0 && p.loss ≤ 0

structure LinkProfile where
  up   : DirectionProfile := {}
  down : DirectionProfile := {}
  deriving DecidableEq, Repr

def LinkProfile.isPassthrough (p : LinkProfile) : Bool :=
  p.up.isPassthrough && p.down.isPassthrough

structure XorShift64 where
  state : UInt64
  deriving DecidableEq, Repr

namespace XorShift64

-- Seeded through splitmix64, never with zero.
def new (seed : UInt64) : XorShift64 :=
  let z := seed + 0x9E3779B97F4A7C15
  let z := (z ^^^ (z >>> 30)) * 0xBF58476D1CE4E5B9
  let z := (z ^^^ (z >>> 27)) * 0x94D049BB133111EB
  { state := (z ^^^ (z >>> 31)) ||| 1 }

def nextU64 (r : XorShift64) : UInt64 × XorShift64 :=
  let x := r.state
  let x := x ^^^ (x <<< 13)
  let x := x ^^^ (x >>> 7)
  let x := x ^^^ (x <<< 17)
  (x, { state := x })

-- The 24 bits of a draw. What is drawn is their part of `2 ^ 24`.
def nextF32 (r : XorShift64) : Nat × XorShift64 :=
  let (x, r) := r.nextU64
  ((x >>> 40).toNat, r)

end XorShift64

-- How a jitter is scaled by a draw. The rounding of the source's floating point is left open.
class JitterScale where
  mulF32 : Nat → Nat → Nat

-- One direction's delay queue.
structure Conditioner where
  queue       : List (Nat × Frame)
  lastRelease : Option Nat
  rng         : XorShift64
  capacity    : Nat
  deriving DecidableEq, Repr

namespace Conditioner

def new (seed : UInt64) (capacity : Nat) : Conditioner where
  queue       := []
  lastRelease := none
  rng         := .new seed
  capacity    := capacity

def isEmpty (c : Conditioner) : Bool :=
  c.queue.isEmpty

-- Whether the link loses the next frame. The draw is made only if it may.
def loses (c : Conditioner) (profile : DirectionProfile) : Bool × Conditioner :=
  if 0 < profile.loss then
    let (draw, rng) := c.rng.nextF32
    (draw / 2 ^ 24 < profile.loss, { c with rng })
  else
    (false, c)

-- Queues a frame behind the others, and not to be released before them.
def hold [JitterScale] (c : Conditioner) (frame : Frame) (profile : DirectionProfile) (retransmit now : Nat) :
    Conditioner :=
  let (draw, rng) := c.rng.nextF32
  let jitter      := JitterScale.mulF32 profile.jitter draw
  let earliest    := now + profile.delay + jitter + retransmit
  let release     := match c.lastRelease with
    | some previous => if previous > earliest then previous else earliest
    | none          => earliest
  { c with queue := c.queue ++ [(release, frame)], lastRelease := some release, rng }

-- Queues a frame. Returns whether it was queued, and not refused by a full buffer or lost by a datagram
-- link. Frames which do not carry ops are not refused.
def push [JitterScale] (c : Conditioner) (frame : Frame) (profile : DirectionProfile) (now : Nat) :
    Conditioner × Bool :=
  if c.queue.length ≥ c.capacity ∧ frame.head? = some Frame.Kind.ops.asByte then
    (c, false)
  else
    let (lost, c) := c.loses profile
    match lost, profile.delivery with
    | false, _         => (c.hold frame profile 0 now, true)
    | true,  .reliable => (c.hold frame profile retransmitPenalty now, true)
    | true,  .datagram => (c, false)

def nextRelease (c : Conditioner) : Option Nat :=
  c.queue.head?.map Prod.fst

-- The next frame that has come due.
def popReady (c : Conditioner) (now : Nat) : Option (Frame × Conditioner) :=
  match c.queue with
  | []                   => none
  | (at', frame) :: rest => if at' ≤ now then some (frame, { c with queue := rest }) else none

-- The frames at the front of a queue which have come due.
def ready (c : Conditioner) (now : Nat) : List Frame :=
  c.queue.takeWhile (·.fst ≤ now) |>.map Prod.snd

-- The loop over the frames that have come due.
def release (now : Nat) : Loop (Conditioner × List Frame) where
  body := fun (c, released) => (c.popReady now).map fun (frame, c) => (c, released ++ [frame])

def popAllReady (c : Conditioner) (now : Nat) : Conditioner × List Frame :=
  (release now).run c.queue.length (c, [])

-- Everything still held, in order, release times ignored.
def drain (c : Conditioner) : List Frame × Conditioner :=
  (c.queue.map Prod.snd, { c with queue := [], lastRelease := none })

end Conditioner

-- A connection's impairment, with a flag that says whether there is any, and how often it was set. The
-- three are not written together.
structure LinkHandle where
  impaired   : Bool        := false
  profile    : LinkProfile := {}
  generation : Nat         := 0
  deriving DecidableEq, Repr

def LinkHandle.set (link : LinkHandle) (profile : LinkProfile) : LinkHandle where
  impaired   := !profile.isPassthrough
  profile    := profile
  generation := link.generation + 1

-- One of the three writes.
inductive LinkStore
  | profile (profile : LinkProfile)
  | impaired (impaired : Bool)
  | generation
  deriving DecidableEq, Repr

def LinkHandle.store (link : LinkHandle) : LinkStore → LinkHandle
  | .profile profile   => { link with profile }
  | .impaired impaired => { link with impaired }
  | .generation        => { link with generation := link.generation + 1 }

example (link : LinkHandle) (profile : LinkProfile) :
    link.set profile =
      ((link.store (.profile profile)).store (.impaired !profile.isPassthrough)).store .generation :=
  rfl

-- What a connection's loop meets. Where its timers for held frames and for probes are two, it is left to the
-- schedule which is served first if both are due.
inductive LinkEvent
  | inbound (frame : Frame) (now : Nat)
  | outbound (frame : Frame) (now : Nat)
  | timer (now : Nat) (probeFirst : Bool)
  | store (store : LinkStore)

-- What becomes of a frame for the client: it is to be written now, the link holds it, or it is gone.
inductive Queued
  | direct
  | held
  | dropped
  deriving DecidableEq, Repr

-- A frame must not overtake those still waiting, whatever the profile reads.
def queueDown [JitterScale] (link : LinkHandle) (down : Conditioner) (frame : Frame) (now : Nat) :
    Conditioner × Queued :=
  if !link.impaired && down.isEmpty then
    (down, .direct)
  else
    let (down, kept) := down.push frame link.profile.down now
    (down, if kept then .held else .dropped)

end Plaza.Session
