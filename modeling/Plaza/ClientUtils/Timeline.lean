import Mathlib.Algebra.Order.Floor.Defs
import Plaza.ClientUtils.ClockSync
import Plaza.Lib.Execution

namespace Plaza.ClientUtils

-- A latency measurement in flight. It carries the epoch it was started in.
structure Probe where
  epoch  : Nat
  sentAt : Nat
  deriving DecidableEq, Repr

-- The epoch that decides which probes still count, and what the two estimators were fed.
structure Timeline where
  epoch : Nat
  rtt   : List Nat
  clock : List (Nat × Nat × Nat)
  deriving DecidableEq, Repr

namespace Timeline

def new : Timeline where
  epoch := 0
  rtt   := []
  clock := []

def begin (t : Timeline) (now : Nat) : Probe where
  epoch  := t.epoch
  sentAt := now

-- Records a completed exchange, unless it outlived its epoch.
def complete (t : Timeline) (probe : Probe) (now : Nat) (responder : Option Nat) : Timeline × Bool :=
  if probe.epoch ≠ t.epoch then
    (t, false)
  else
    let exchange := responder.toList.map fun r => (probe.sentAt, r, now)
    ({ t with rtt := t.rtt ++ [now - probe.sentAt], clock := t.clock ++ exchange }, true)

end Timeline

-- The timeline with the clock fit itself, on whatever window it has, and the newest stamp of the server with the
-- local time it was seen at.
structure StampedTimeline (K : Type*) extends Timeline where
  fit   : ClockSyncEstimator K
  stamp : Option (Nat × Nat)
  deriving DecidableEq

namespace StampedTimeline

variable {K : Type*} [Field K]

def withEstimators (fit : ClockSyncEstimator K) : StampedTimeline K where
  toTimeline := .new
  fit        := fit
  stamp      := none

def complete (t : StampedTimeline K) (probe : Probe) (now : Nat) (responder : Option Nat) :
    StampedTimeline K × Bool :=
  let (timeline, counted) := t.toTimeline.complete probe now responder
  let fit :=
    match responder.filter fun _ => counted with
    | some responder => t.fit.observeExchange probe.sentAt responder now
    | none           => t.fit
  ({ t with toTimeline := timeline, fit }, counted)

def onReconnect (t : StampedTimeline K) : StampedTimeline K :=
  { t with epoch := (t.epoch + 1) % 4294967296 }

def onResume (t : StampedTimeline K) : StampedTimeline K :=
  { t with epoch := (t.epoch + 1) % 4294967296, rtt := [], clock := [], fit := t.fit.clear }

def noteStamp (t : StampedTimeline K) (stampMs nowMs : Nat) : StampedTimeline K :=
  if (t.stamp.map (·.fst)).getD 0 ≤ stampMs then { t with stamp := some (stampMs, nowMs) } else t

variable [LinearOrder K] [FloorSemiring K]

-- The local time as it is, until the first exchange is in. The cast saturates.
def fitted (t : StampedTimeline K) (nowMs : Nat) : Nat :=
  min ⌊max ((t.fit.serverTimeAt nowMs).getD nowMs) 0⌋₊ 18446744073709551615

-- What the newest stamp has come to, at the rate of the local clock.
def carried (t : StampedTimeline K) (nowMs : Nat) : Option Nat :=
  t.stamp.map fun (newest, atLocal) => newest + (nowMs - atLocal)

def serverTimeMs (t : StampedTimeline K) (nowMs : Nat) : Nat :=
  match t.carried nowMs with
  | some carried => max (t.fitted nowMs) carried
  | none         => t.fitted nowMs

inductive Call
  | noteStamp (stampMs : Nat)
  | complete (probe : Probe) (responder : Option Nat)
  | onReconnect
  | onResume
  deriving DecidableEq, Repr

def apply (t : StampedTimeline K) (now : Nat) : Call → StampedTimeline K
  | .noteStamp stampMs         => t.noteStamp stampMs now
  | .complete probe responder => t.complete probe now responder |>.fst
  | .onReconnect              => t.onReconnect
  | .onResume                 => t.onResume

-- A client with its local clock, and whether noting a stamp has ever set its estimate back.
structure Client (K : Type*) where
  timeline : StampedTimeline K
  now      : Nat
  setBack  : Bool
  deriving DecidableEq

def Client.start (fit : ClockSyncEstimator K) (now : Nat) : Client K where
  timeline := .withEstimators fit
  now      := now
  setBack  := false

-- The calls of a client, each with the local time of it. This does not go back.
def machine : Machine (Client K) (Nat × Call) where
  step c e :=
    if e.fst < c.now then
      none
    else
      let timeline := c.timeline.apply e.fst e.snd
      let lowered :=
        match e.snd with
        | .noteStamp _ => decide (timeline.serverTimeMs e.fst < c.timeline.serverTimeMs e.fst)
        | _            => false
      some { timeline, now := e.fst, setBack := c.setBack || lowered }

end StampedTimeline
end Plaza.ClientUtils
