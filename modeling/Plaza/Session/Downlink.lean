import Plaza.Lib.Execution
import Plaza.Session.Conditioner

namespace Plaza.Session

open Wire

-- A frame as it was handed to the connection loop, with what the link's cells said then.
structure Handed where
  frame    : Frame
  impaired : Bool
  profile  : DirectionProfile
  at'      : Nat
  deriving DecidableEq, Repr

-- The profile is in force as far as the flag says so.
def Handed.inForce (h : Handed) : DirectionProfile :=
  if h.impaired then h.profile else {}

structure Written where
  index   : Nat
  at'     : Nat
  flushed : Bool
  deriving DecidableEq, Repr

structure Dropped where
  index : Nat
  held  : Nat
  deriving DecidableEq, Repr

-- An observer's account of the frames, which are told apart by their number in the order in which they were
-- handed over.
structure Ledger where
  handed  : List Handed
  held    : List Nat
  written : List Written
  dropped : List Dropped
  deriving DecidableEq, Repr

namespace Ledger

def empty : Ledger where
  handed  := []
  held    := []
  written := []
  dropped := []

def hand (l : Ledger) (link : LinkHandle) (frame : Frame) (now : Nat) (flushed : Bool) : Queued → Ledger
  | .direct  => { l with
      handed  := l.handed ++ [⟨frame, link.impaired, link.profile.down, now⟩]
      written := l.written ++ [⟨l.handed.length, now, flushed⟩] }
  | .held    => { l with
      handed  := l.handed ++ [⟨frame, link.impaired, link.profile.down, now⟩]
      held    := l.held ++ [l.handed.length] }
  | .dropped => { l with
      handed  := l.handed ++ [⟨frame, link.impaired, link.profile.down, now⟩]
      dropped := l.dropped ++ [⟨l.handed.length, l.held.length⟩] }

-- So many of the frames which were held are written.
def release (l : Ledger) (count now : Nat) (flushed : Bool) : Ledger :=
  { l with
    held    := l.held.drop count
    written := l.written ++ (l.held.take count).map (⟨·, now, flushed⟩) }

end Ledger

-- The side of a connection which writes: the cells of its link, the queue of frames for the client, the
-- frames which the link holds, and what was written.
structure Downlink where
  link    : LinkHandle
  queue   : List Frame
  down    : Conditioner
  socket  : List Frame
  goodbye : Option Frame
  ended   : Bool
  ledger  : Ledger

namespace Downlink

variable [JitterScale]

inductive Event
  | send (frame : Frame)
  | recv (now : Nat)
  | control (frame : Frame) (now : Nat)
  | writeProfile (profile : LinkProfile)
  | storeImpaired (impaired : Bool)
  | release (now : Nat)
  | close (farewell : Option Frame) (now : Nat)

def new (seed : UInt64) (capacity : Nat) : Downlink where
  link    := {}
  queue   := []
  down    := .new seed capacity
  socket  := []
  goodbye := none
  ended   := false
  ledger  := .empty

def handOver (s : Downlink) (frame : Frame) (now : Nat) : Downlink :=
  let (down, queued) := queueDown s.link s.down frame now
  { s with
    down
    socket := if queued = .direct then s.socket ++ [frame] else s.socket
    ledger := s.ledger.hand s.link frame now false queued }

-- Everything held is older than everything queued, and the goodbye goes last.
def close (s : Downlink) (farewell : Option Frame) (now : Nat) : Downlink :=
  let (held, down) := s.down.drain
  let ledger       := s.ledger.release held.length now true
  { s with
    queue   := []
    down
    socket  := s.socket ++ held ++ s.queue ++ farewell.toList
    goodbye := farewell
    ended   := true
    ledger  := s.queue.foldl (·.hand s.link · now true .direct) ledger }

-- An arm of the connection loop, or what another task does between two of them. The cells of the link are
-- written one by one.
def arm (s : Downlink) : Event → Option Downlink
  | .send frame             => some { s with queue := s.queue ++ [frame] }
  | .recv now               =>
    match s.queue with
    | []             => none
    | frame :: queue => some <| { s with queue }.handOver frame now
  | .control frame now      => some <| s.handOver frame now
  | .writeProfile profile   => some { s with link := { s.link with profile } }
  | .storeImpaired impaired => some { s with link := { s.link with impaired } }
  | .release now            =>
    let (down, released) := s.down.popAllReady now
    some { s with
      down
      socket := s.socket ++ released
      ledger := s.ledger.release released.length now false }
  | .close farewell now     => some <| s.close farewell now

def machine : Machine Downlink Event where
  step s e := if s.ended then none else s.arm e

end Downlink
end Plaza.Session
