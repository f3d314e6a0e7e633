import Mathlib.Algebra.Order.Field.Basic
import Plaza.Lib.TokenBucket
import Plaza.Wire.Frame

namespace Plaza.Session

-- What exceeding a rate means.
inductive Over
  | shed
  | close
  deriving DecidableEq, Repr

-- A ceiling on how fast one connection may send.
structure Rate (K : Type) where
  perSec : K
  burst  : Nat
  over'  : Over
  deriving DecidableEq, Repr

-- What is to be done with a frame.
inductive Verdict
  | admitted
  | shed
  | close
  deriving DecidableEq, Repr

-- One connection's tokens.
structure Bucket (K : Type) where
  tokens : K
  lastUs : Nat
  deriving DecidableEq, Repr

namespace Bucket

variable {K : Type} [Field K] [LinearOrder K]

def full (rate : Option (Rate K)) (nowUs : Nat) : Bucket K where
  tokens := (rate.map fun rate => (max rate.burst 1 : Nat)).getD (0 : Nat)
  lastUs := nowUs

-- Charges one frame, after filling the bucket for the time since the last one.
def take (b : Bucket K) (rate : Rate K) (nowUs : Nat) : Bucket K × Bool :=
  let elapsed := ((nowUs - b.lastUs : Nat) : K) / (1000000 : Nat)
  let tokens  := TokenBucket.fill rate.perSec (max rate.burst 1 : Nat) b.tokens elapsed
  if 1 ≤ tokens then
    ({ tokens := tokens - 1, lastUs := nowUs }, true)
  else
    ({ tokens, lastUs := nowUs }, false)

-- What the rate says about the next frame, if there is one. Without a rate everything is admitted.
def judge (b : Bucket K) (rate : Option (Rate K)) (nowUs : Nat) : Bucket K × Verdict :=
  match rate with
  | none      => (b, .admitted)
  | some rate =>
    let (b, admitted) := b.take rate nowUs
    (b, if admitted then .admitted else match rate.over' with
      | .shed  => .shed
      | .close => .close)

end Bucket

open Wire

-- What the seed of a connection's down direction differs in from that of its up direction.
def downSeedFlip : UInt64 := 0x5DEECE66A5A51234

def earliest : Option Nat → Option Nat → Option Nat
  | some a, some b => some (min a b)
  | a,      b      => a.or b

-- Whether and how often a session probes, and how many probes may be in flight.
structure Probes where
  enabled      : Bool
  slots        : Nat
  fastPings    : Nat
  fastInterval : Nat
  idleInterval : Nat
  deriving DecidableEq, Repr

-- The probes a connection has in flight, oldest first, with the times at which they were sent.
structure ProbeState where
  outstanding : List (Nat × Nat)
  seq         : Nat
  sent        : Nat
  schedule    : Probes
  deriving DecidableEq, Repr

namespace ProbeState

def new (schedule : Probes) : ProbeState where
  outstanding := []
  seq         := 0
  sent        := 0
  schedule    := schedule

def forgetInFlight (p : ProbeState) : ProbeState :=
  { p with outstanding := [] }

-- How long until the next probe, unless the session does not probe.
def interval (p : ProbeState) : Option Nat :=
  if !p.schedule.enabled then
    none
  else
    some <| if p.sent < p.schedule.fastPings then p.schedule.fastInterval else p.schedule.idleInterval

def firstDue (p : ProbeState) (now : Nat) : Option Nat :=
  p.interval.map (now + ·)

-- Puts the next probe in flight, in the place of the oldest if there are as many as there may be.
def launch (p : ProbeState) (now : Nat) : ProbeState :=
  let seq         := (p.seq + 1) % 2 ^ 64
  let outstanding := if p.outstanding.length ≥ p.schedule.slots then p.outstanding.tail else p.outstanding
  { p with outstanding := outstanding ++ [(seq, now)], seq, sent := min (p.sent + 1) (2 ^ 32 - 1) }

-- When the probe was sent which has the origin. Those before it are lost, and no longer in flight either.
def answered (p : ProbeState) (origin : Nat) : Option (Nat × ProbeState) :=
  match p.outstanding.dropWhile (·.fst ≠ origin) with
  | []                => none
  | (_, sent) :: rest => some (sent, { p with outstanding := rest })

-- The probes in flight ahead of those that another state has as well.
def ahead (p q : ProbeState) : List (Nat × Nat) :=
  p.outstanding.take (p.outstanding.length - q.outstanding.length)

end ProbeState

def makeProbe [ProbeCodec] (probe : ProbeState) (now : Nat) : Frame × ProbeState :=
  let probe := probe.launch now
  (Frame.Kind.ping.asByte :: ProbeCodec.encodePing { origin := probe.seq }, probe)

-- What is to be done with an inbound frame.
inductive Inbound
  | forward (frame : Frame)
  | reply (frame : Frame)
  | consumed
  | shed
  | eject
  deriving DecidableEq, Repr

-- What the gate said, if it was asked.
def Inbound.verdict : Inbound → Option Verdict
  | forward _ => some .admitted
  | shed      => some .shed
  | eject     => some .close
  | reply _   => none
  | consumed  => none

-- What a session records about one of its connections.
class ConnectionRecord (M : Type) where
  recordInboundActivity : M → Nat → Nat → M × Verdict
  recordLinkRtt         : M → Nat → M
  recordLinkDrop        : M → M

section

variable {M : Type} [ConnectionRecord M]

-- Counts a data frame. A probe never arrives here.
def gated (frame : Frame) (record : M) (now : Nat) : Inbound × M :=
  let (record, verdict) := ConnectionRecord.recordInboundActivity record frame.length now
  match verdict with
  | .admitted => (.forward frame, record)
  | .shed  => (.shed, record)
  | .close => (.eject, record)

-- Handles an inbound frame, and answers it if it is the session's business. An empty frame is malformed rather
-- than unknown, and so is forwarded.
def handleInbound [ProbeCodec] (frame : Frame) (clock : Option Nat) (probe : ProbeState) (record : M) (now : Nat) :
    Inbound × ProbeState × M :=
  match frame.split with
  | none             => let (inbound, record) := gated frame record now; (inbound, probe, record)
  | some (tag, body) =>
    match Frame.Kind.fromByte tag with
    | some .ping =>
      match Frame.answerPing body clock with
      | some reply => (.reply reply, probe, record)
      | none       => (.consumed, probe, record)
    | some .pong =>
      match (ProbeCodec.decodePong body).bind (probe.answered ·.origin) with
      | some (sent, probe) => (.consumed, probe, ConnectionRecord.recordLinkRtt record (now - sent))
      | none               => (.consumed, probe, record)
    | _          => let (inbound, record) := gated frame record now; (inbound, probe, record)

end

-- What a routed frame leaves to do.
inductive Routed
  | nothing
  | reply (frame : Frame)
  | eject
  deriving DecidableEq, Repr

-- What is left to do once a frame that is to be forwarded was.
def Inbound.routed : Inbound → Routed
  | forward _ | consumed | shed => .nothing
  | reply frame                 => .reply frame
  | eject                       => .eject

end Plaza.Session
