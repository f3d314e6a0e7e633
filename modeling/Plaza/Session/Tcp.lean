import Plaza.Lib.Execution
import Plaza.Session.Conditioner
import Plaza.Session.Control
import Plaza.Session.Driver

namespace Plaza.Session

open Wire

-- A connection of the TCP transport, with what it wrote to the socket and when, and what it forwarded to the
-- controller.
structure TcpConnection (M : Type) where
  manager        : M
  clock          : Option (Nat → Nat)
  link           : LinkHandle
  up             : Conditioner
  down           : Conditioner
  probe          : ProbeState
  linkGeneration : Nat
  nextProbe      : Option Nat
  written        : List (Nat × Frame)
  forwarded      : List Frame
  ended          : Bool

namespace TcpConnection

variable {M : Type} [ConnectionRecord M] [ProbeCodec] [JitterScale]

def new (manager : M) (clock : Option (Nat → Nat)) (link : LinkHandle) (schedule : Probes) (connId : UInt64)
    (capacity now : Nat) : TcpConnection M where
  manager        := manager
  clock          := clock
  link           := link
  up             := .new connId capacity
  down           := .new (connId ^^^ downSeedFlip) capacity
  probe          := .new schedule
  linkGeneration := link.generation
  nextProbe      := (ProbeState.new schedule).firstDue now
  written        := []
  forwarded      := []
  ended          := false

-- The top of the loop. A probe that was launched under one profile, and whose pong arrives under another,
-- measured neither.
def top (c : TcpConnection M) : TcpConnection M :=
  if !c.ended && c.link.generation ≠ c.linkGeneration then
    { c with linkGeneration := c.link.generation, probe := c.probe.forgetInFlight }
  else
    c

-- Writes a frame, or queues it behind whatever the link is already holding.
def send (c : TcpConnection M) (frame : Frame) (now : Nat) : TcpConnection M :=
  let (down, queued) := queueDown c.link c.down frame now
  match queued with
  | .direct  => { c with down, written := c.written ++ [(now, frame)] }
  | .held    => { c with down }
  | .dropped => { c with down, manager := ConnectionRecord.recordLinkDrop c.manager }

-- Handles an inbound frame, and delivers it wherever it belongs.
def routeInbound (c : TcpConnection M) (frame : Frame) (now : Nat) : Routed × TcpConnection M :=
  let (inbound, probe, manager) := handleInbound frame (c.clock.map (· now)) c.probe c.manager now
  let c := { c with probe, manager }
  match inbound with
  | .forward frame => (.nothing, { c with forwarded := c.forwarded ++ [frame] })
  | inbound        => (inbound.routed, c)

def route (c : TcpConnection M) (frame : Frame) (now : Nat) : TcpConnection M :=
  let (routed, c) := c.routeInbound frame now
  match routed with
  | .reply reply => c.send reply now
  | .eject       => { c with ended := true }
  | .nothing     => c

-- The loop over the frames which the up direction releases. It is left if one of them ends the connection.
def releaseUp (now : Nat) : Loop (TcpConnection M) where
  body c := if c.ended then none else (c.up.popReady now).map fun (frame, up) => { c with up }.route frame now

def nextRelease (c : TcpConnection M) : Option Nat :=
  earliest c.up.nextRelease c.down.nextRelease

-- The arm for the frames that the link holds, if it is due.
def release (c : TcpConnection M) (now : Nat) : TcpConnection M :=
  if !c.ended && c.nextRelease.any (· ≤ now) then
    let (down, ready) := c.down.popAllReady now
    (releaseUp now).run c.up.queue.length { c with down, written := c.written ++ ready.map (now, ·) } |>.top
  else
    c

-- The arm for the next probe, if it is due.
def sendProbe (c : TcpConnection M) (now : Nat) : TcpConnection M :=
  if !c.ended && c.nextProbe.any (· ≤ now) then
    let (frame, probe) := makeProbe c.probe now
    { c with probe, nextProbe := probe.interval.map (now + ·) }.send frame now |>.top
  else
    c

def inbound (c : TcpConnection M) (frame : Frame) (now : Nat) : TcpConnection M :=
  let profile := if c.link.impaired then c.link.profile.up else {}
  if profile.isPassthrough && c.up.isEmpty then
    c.route frame now
  else
    let (up, kept) := c.up.push frame profile now
    let manager    := if kept then c.manager else ConnectionRecord.recordLinkDrop c.manager
    { c with up, manager }

-- The round of the loop that an event is met with, and on to the top of the next. A timer with both arms due is
-- two rounds.
def round (c : TcpConnection M) : LinkEvent → TcpConnection M
  | .inbound frame now  => (c.inbound frame now).top
  | .outbound frame now => (c.send frame now).top
  | .timer now false    => (c.release now).sendProbe now
  | .timer now true     => (c.sendProbe now).release now
  | .store store        => { c with link := c.link.store store }

def machine : Machine (TcpConnection M) LinkEvent where
  step c e := some <| if c.ended then c else c.round e

end TcpConnection

variable {M : Type} [ConnectionRecord M] [ProbeCodec] [JitterScale]

namespace Loops

-- The same was written, in the same order and at the same times, and the same was recorded, samples included.
structure Same (a : Adapter M) (c : TcpConnection M) : Prop where
  manager   : a.driver.manager = c.manager
  written   : a.written = c.written
  forwarded : a.forwarded = c.forwarded
  ended     : a.ended = c.ended

-- No frame answers a probe that only the adapter has still in flight, none is replied to unless the reply can be
-- written at once, and none but the last ends the connection, after which no probe is due.
def AlikeUp (direct probes : Bool) (clock : Option Nat) (now : Nat) :
    List Frame → ProbeState → ProbeState → M → Prop
  | [],              _,     _,      _       => True
  | frame :: frames, probe, probe', manager =>
    (∀ p ∈ probe.ahead probe', frame.pongOrigin ≠ some p.fst) ∧
    let (inbound, rest, record) := handleInbound frame clock probe manager now
    let (_, rest', _)           := handleInbound frame clock probe' manager now
    match inbound with
    | .reply _                       => direct ∧ AlikeUp direct probes clock now frames rest rest' record
    | .forward _ | .consumed | .shed => AlikeUp direct probes clock now frames rest rest' record
    | .eject                         => frames = [] ∧ probes = false

-- What the adapter and the TCP connection meet alike:
--  * a frame from the peer, if the up direction either takes part in the impairment of the link or holds frames,
--    or else the link is not impaired, and to route the frame is alike
--  * a timer, if what it releases is routed alike, the down direction holds back no probe that is due, and
--    the probe comes last
def Alike (s : Adapter M × TcpConnection M) : LinkEvent → Prop
  | .inbound frame now        =>
    let d := s.fst.driver
    s.fst.ended = false →
      if d.link.impaired then
        ¬(d.link.profile.up.isPassthrough ∧ d.up.isEmpty)
      else if d.up.isEmpty then
        AlikeUp d.down.isEmpty false (d.clock.map (· now)) now [frame] d.probe s.snd.probe d.manager
      else
        d.link.profile.up.isPassthrough
  | .timer now probeFirst     =>
    let d      := s.fst.driver
    let direct := !d.link.impaired && (d.down.popAllReady now).fst.isEmpty
    let probes := d.nextProbe.any (· ≤ now)
    s.fst.ended = false →
      (probes → direct) ∧
      (probeFirst → probes → (earliest d.up.nextRelease d.down.nextRelease).any (· ≤ now) = false) ∧
      AlikeUp direct probes (d.clock.map (· now)) now (d.up.ready now) d.probe s.snd.probe d.manager
  | .outbound ..  | .store .. => True

def decidableAlikeUp (direct probes : Bool) (clock : Option Nat) (now : Nat) :
    (frames : List Frame) → (probe probe' : ProbeState) → (manager : M) →
    Decidable (AlikeUp direct probes clock now frames probe probe' manager)
  | [],              _,     _,      _       => instDecidableTrue
  | frame :: frames, probe, probe', manager => by
    have := decidableAlikeUp direct probes clock now frames
    unfold AlikeUp
    refine @instDecidableAnd _ _ _ ?_
    split
    split
    split <;> infer_instance

instance {direct probes clock now frames probe probe'} {manager : M} :
    Decidable (AlikeUp direct probes clock now frames probe probe' manager) :=
  decidableAlikeUp direct probes clock now frames probe probe' manager

instance (s : Adapter M × TcpConnection M) : (e : LinkEvent) → Decidable (Alike s e)
  | .inbound ..             => inferInstanceAs <| Decidable (_ → ite _ _ (ite _ _ _))
  | .timer ..               => inferInstanceAs <| Decidable (_ → (_ → _) ∧ (_ → _ → _) ∧ _)
  | .outbound .. | .store _ => instDecidableTrue

end Loops
end Plaza.Session
