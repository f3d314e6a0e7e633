import Plaza.Lib.Execution
import Plaza.Session.Conditioner
import Plaza.Session.Control

namespace Plaza.Session

open Wire

-- The loop that every transport writes, less the socket.
structure LinkDriver (M : Type) where
  manager        : M
  clock          : Option (Nat → Nat)
  link           : LinkHandle
  up             : Conditioner
  down           : Conditioner
  probe          : ProbeState
  nextProbe      : Option Nat
  pendingInbound : List Frame
  ejected        : Bool

namespace LinkDriver

variable {M : Type} [ConnectionRecord M] [ProbeCodec] [JitterScale]

def new (manager : M) (clock : Option (Nat → Nat)) (link : LinkHandle) (schedule : Probes) (connId : UInt64)
    (capacity now : Nat) : LinkDriver M where
  manager        := manager
  clock          := clock
  link           := link
  up             := .new connId capacity
  down           := .new (connId ^^^ downSeedFlip) capacity
  probe          := .new schedule
  nextProbe      := (ProbeState.new schedule).firstDue now
  pendingInbound := []
  ejected        := false

def route (d : LinkDriver M) (frame : Frame) (now : Nat) : Inbound × LinkDriver M :=
  let (inbound, probe, manager) := handleInbound frame (d.clock.map (· now)) d.probe d.manager now
  (inbound, { d with probe, manager })

-- What to do with a frame that arrived from the peer.
def inbound (d : LinkDriver M) (frame : Frame) (now : Nat) : Inbound × LinkDriver M :=
  if !d.link.impaired && d.up.isEmpty then
    d.route frame now
  else
    let (up, kept) := d.up.push frame d.link.profile.up now
    let manager    := if kept then d.manager else ConnectionRecord.recordLinkDrop d.manager
    (.consumed, { d with up, manager })

-- A frame which the controller queued, unless the link holds it.
def outbound (d : LinkDriver M) (frame : Frame) (now : Nat) : Option Frame × LinkDriver M :=
  if !d.link.impaired && d.down.isEmpty then
    (some frame, d)
  else
    let (down, kept) := d.down.push frame d.link.profile.down now
    let manager      := if kept then d.manager else ConnectionRecord.recordLinkDrop d.manager
    (none, { d with down, manager })

def deadline (d : LinkDriver M) : Option Nat :=
  earliest d.nextProbe (earliest d.up.nextRelease d.down.nextRelease)

-- The loop over the frames which the up direction releases.
def releaseUp (now : Nat) : Loop (LinkDriver M × List Frame) where
  body := fun (d, owed) => (d.up.popReady now).map fun (frame, up) =>
    let (inbound, d) := { d with up }.route frame now
    match inbound with
    | .reply reply      => (d, owed ++ [reply])
    | .forward frame    => ({ d with pendingInbound := d.pendingInbound ++ [frame] }, owed)
    | .consumed | .shed => (d, owed)
    | .eject            => ({ d with ejected := true }, owed)

-- Everything that is owed to the socket: the frames that were released, and a probe if one is due.
def due (d : LinkDriver M) (now : Nat) : List Frame × LinkDriver M :=
  let (down, owed) := d.down.popAllReady now
  let (d, owed)    := (releaseUp now).run d.up.queue.length ({ d with down }, owed)
  if d.nextProbe.any (· ≤ now) then
    let (frame, probe) := makeProbe d.probe now
    (owed ++ [frame], { d with probe, nextProbe := probe.interval.map (now + ·) })
  else
    (owed, d)

def takeForwarded (d : LinkDriver M) : List Frame × LinkDriver M :=
  (d.pendingInbound, { d with pendingInbound := [] })

end LinkDriver

-- A connection of an adapter that is built on the driver, with what it wrote to the socket and when, and what it
-- forwarded to the controller.
structure Adapter (M : Type) where
  driver    : LinkDriver M
  written   : List (Nat × Frame)
  forwarded : List Frame
  ended     : Bool

namespace Adapter

variable {M : Type} [ConnectionRecord M] [ProbeCodec] [JitterScale]

def new (manager : M) (clock : Option (Nat → Nat)) (link : LinkHandle) (schedule : Probes) (connId : UInt64)
    (capacity now : Nat) : Adapter M where
  driver    := .new manager clock link schedule connId capacity now
  written   := []
  forwarded := []
  ended     := false

def inbound (a : Adapter M) (frame : Frame) (now : Nat) : Adapter M :=
  let (inbound, driver) := a.driver.inbound frame now
  match inbound with
  | .reply reply      => { a with driver, written := a.written ++ [(now, reply)] }
  | .forward frame    => { a with driver, forwarded := a.forwarded ++ [frame] }
  | .consumed | .shed => { a with driver }
  | .eject            => { a with driver, ended := true }

def outbound (a : Adapter M) (frame : Frame) (now : Nat) : Adapter M :=
  let (frame, driver) := a.driver.outbound frame now
  { a with driver, written := a.written ++ frame.toList.map (now, ·) }

def timer (a : Adapter M) (now : Nat) : Adapter M :=
  if a.driver.deadline.any (· ≤ now) then
    let (owed, driver)      := a.driver.due now
    let (forwarded, driver) := driver.takeForwarded
    { driver
      written   := a.written ++ owed.map (now, ·)
      forwarded := a.forwarded ++ forwarded
      ended     := driver.ejected }
  else
    a

-- The round of its loop that an event is met with.
def round (a : Adapter M) : LinkEvent → Adapter M
  | .inbound frame now  => a.inbound frame now
  | .outbound frame now => a.outbound frame now
  | .timer now _        => a.timer now
  | .store store        => { a with driver := { a.driver with link := a.driver.link.store store } }

def machine : Machine (Adapter M) LinkEvent where
  step a e := some <| if a.ended then a else a.round e

end Adapter
end Plaza.Session
