import Mathlib.Data.Multiset.Filter
import Plaza.Lib.Trace
import Plaza.Session.Registry

open Plaza.Core
open Plaza.Session

-- Who announces arrivals and departures: the tasks which register a connection, those whose broadcasts
-- overflow a connection's queue and which therefore disconnect it, and the connections' own tasks. Any of
-- them may run between two steps of another.
namespace Plaza.Protocols.Presence

inductive PresenceOverflow
  | drop
  | backpressure
  deriving DecidableEq, Repr

structure Config where
  overflow : PresenceOverflow
  presence : Nat
  outbound : Nat
  hello    : Bool
  deriving DecidableEq, Repr

-- A removed connection whose departure is not announced yet.
structure Departure (ID : Type) where
  connId  : Nat
  agentId : ID
  mayWait : Bool
  deriving DecidableEq, Repr

-- `stream` lists every event that the presence channel took, of which the controller has read `read`.
-- `outbound` counts the frames in the connections' outbound queues. `joining` lists the connections which are
-- registered but not announced, `running` those whose tasks go on, and `reported` those which a broadcast
-- found full.
structure State (ID : Type) where
  config     : Config
  registry   : Registry ID Unit
  nextConnId : Nat
  outbound   : Nat → Nat
  stream     : List (PresenceEvent ID)
  read       : Nat
  dropped    : Nat
  joining    : List (Nat × Agent ID)
  running    : List Nat
  reported   : Multiset Nat
  leaving    : List (Departure ID)

inductive Event (ID : Type)
  | register (agent : Agent ID)
  | announceJoined (connId : Nat)
  | broadcast (target : MessageTarget ID)
  | recv (connId : Nat)
  | disconnect (connId : Nat)
  | deregister (connId : Nat)
  | announceLeft (connId : Nat)
  | read

namespace State

variable {ID : Type} [DecidableEq ID]

def start (config : Config) : State ID where
  config     := config
  registry   := .new
  nextConnId := 1
  outbound   := fun _ => 0
  stream     := []
  read       := 0
  dropped    := 0
  joining    := []
  running    := []
  reported   := 0
  leaving    := []

def hasRoom (s : State ID) : Bool :=
  s.stream.length - s.read < s.config.presence

-- Waits only if it may, and is dropped if it may not.
def announce (s : State ID) (event : PresenceEvent ID) (mayWait : Bool) : Option (State ID) :=
  if s.hasRoom then
    some { s with stream := s.stream ++ [event] }
  else if mayWait && s.config.overflow = .backpressure then
    none
  else
    some { s with dropped := s.dropped + 1 }

-- The first step of a registration. The connection is a target of broadcasts from here on.
def insert (s : State ID) (agent : Agent ID) : State ID :=
  let connId := s.nextConnId
  { s with
    registry   := s.registry.insert connId { agent, state := () }
    nextConnId := connId + 1
    outbound   := Function.update s.outbound connId (if s.config.hello then min 1 s.config.outbound else 0)
    joining    := s.joining ++ [(connId, agent)] }

-- The first step of a removal. Agents without an id leave without an event.
def remove (s : State ID) (connId : Nat) (mayWait : Bool) : State ID :=
  let (registry, handle) := s.registry.remove connId
  let departure          := (handle.bind (·.agent.id)).map ({ connId, agentId := ·, mayWait })
  { s with registry, leaving := s.leaving ++ departure.toList }

-- A frame is queued for every connection of the target which has room for it, and the others are reported.
def broadcast (s : State ID) (target : MessageTarget ID) : State ID :=
  let targets := (s.registry.forTarget target).map Prod.fst
  { s with
    outbound := fun connId =>
      if connId ∈ targets ∧ s.outbound connId < s.config.outbound then s.outbound connId + 1
      else s.outbound connId
    reported := s.reported + targets.filter (s.config.outbound ≤ s.outbound ·) }

end State

variable {ID : Type} [DecidableEq ID]

def machine : Machine (State ID) (Event ID) where
  step s
    | .register agent        => some <| s.insert agent
    | .announceJoined connId => do
      let (_, agent) ← s.joining.find? (·.fst = connId)
      let s          ← s.announce (.joined agent connId) true
      return { s with joining := s.joining.filter (·.fst ≠ connId), running := s.running ++ [connId] }
    | .broadcast target      => some <| s.broadcast target
    | .recv connId           =>
      if connId ∈ s.running then
        some { s with outbound := Function.update s.outbound connId (s.outbound connId - 1) }
      else
        none
    | .disconnect connId     =>
      if connId ∈ s.reported then
        some <| { s with reported := s.reported.erase connId }.remove connId false
      else
        none
    | .deregister connId     =>
      if connId ∈ s.running then
        some <| { s with running := s.running.erase connId }.remove connId true
      else
        none
    | .announceLeft connId   => do
      let departure ← s.leaving.find? (·.connId = connId)
      let s         ← s.announce (.left departure.agentId connId) departure.mayWait
      return { s with leaving := s.leaving.filter (·.connId ≠ connId) }
    | .read                  => if s.read < s.stream.length then some { s with read := s.read + 1 } else none

def joins (connId : Nat) : PresenceEvent ID → Bool
  | .joined _ connId' => connId' = connId
  | .left _ _         => false

def leaves (connId : Nat) : PresenceEvent ID → Bool
  | .joined _ _     => false
  | .left _ connId' => connId' = connId

namespace State

-- The ids that were given to connections.
def Given (s : State ID) (connId : Nat) : Prop :=
  1 ≤ connId ∧ connId < s.nextConnId

-- The connection is in the registry, or its departure is to be announced yet.
def Stays (s : State ID) (connId : Nat) : Prop :=
  (s.registry.get connId).isSome ∨ connId ∈ s.leaving.map Departure.connId

instance (s : State ID) (connId : Nat) : Decidable (s.Stays connId) :=
  inferInstanceAs <| Decidable (_ ∨ _)

-- Each connection has one arrival in the stream, unless that is to be announced yet, and one departure after
-- it was removed, unless that is to be announced yet. No departure comes before the arrival.
structure Ordered (s : State ID) : Prop where
  joined : ∀ connId, s.Given connId →
    s.stream.countP (joins connId) = if connId ∈ s.joining.map Prod.fst then 0 else 1
  left   : ∀ connId, s.Given connId →
    s.stream.countP (leaves connId) = if s.Stays connId then 0 else 1
  order  : ∀ connId, Trace.Preceded (leaves connId ·) (fun e _ => joins connId e) s.stream

-- As long as nothing was dropped for want of room.
def Announces (s : State ID) : Prop :=
  s.dropped = 0 → s.Ordered

-- A departure is announced after the arrival was, and who departs has an id.
def Timely (s : State ID) : Event ID → Prop
  | .announceLeft connId                      =>
    s.dropped = 0 → s.hasRoom → connId ∉ s.joining.map Prod.fst
  | .disconnect connId | .deregister connId   =>
    s.dropped = 0 → (s.registry.get connId).all (·.agent.id.isSome)
  | _                                         => True

instance (s : State ID) (e : Event ID) : Decidable (s.Timely e) := by
  cases e <;> unfold Timely <;> infer_instance

end State
end Plaza.Protocols.Presence
