import Plaza.ClientUtils.Timeline
import Plaza.Lib.Execution
import Plaza.Wire.Frame

namespace Plaza.WsClient

open ClientUtils Plaza.Wire

-- The part of the pump which measures the link.
structure FramePump where
  pingIntervalMs : Nat
  timeline       : Timeline
  probe          : Option Probe
  lastPingMs     : Nat
  lastPongRttMs  : Nat
  worstPongRttMs : Nat
  deriving DecidableEq, Repr

-- A message from the server, as far as it matters here: the answer to a probe, or anything else, among it all
-- that does not decode.
inductive Message
  | pong (pong : Pong)
  | other
  deriving DecidableEq, Repr

-- Whether a message leaves the probe of an origin to the answer it waits for, if it is not the answer itself.
def Message.spares (message : Message) (origin : Nat) : Bool :=
  match message with
  | pong p => p.origin = origin
  | other  => true

namespace FramePump

def new (pingIntervalMs : Nat) : FramePump where
  pingIntervalMs := pingIntervalMs
  timeline       := .new
  probe          := none
  lastPingMs     := 0
  lastPongRttMs  := 0
  worstPongRttMs := 0

-- The first half of a poll: sends a probe if one is due.
def drain (p : FramePump) (now : Nat) (isOpen : Bool) : FramePump × Option Ping :=
  if p.pingIntervalMs ≤ now - p.lastPingMs && isOpen then
    let probe := p.timeline.begin now
    ({ p with lastPingMs := now, probe := some probe }, some { origin := probe.sentAt })
  else
    (p, none)

-- One message of the second half.
def onMessage (p : FramePump) (message : Message) (now : Nat) : FramePump :=
  match message, p.probe with
  | .other,     _          => p
  | .pong _,    none       => p
  | .pong pong, some probe =>
    -- The probe is taken before it is compared.
    let p := { p with probe := none }
    if pong.origin ≠ probe.sentAt then
      p
    else
      let raw := now - probe.sentAt
      { p with
        lastPongRttMs  := raw
        worstPongRttMs := max p.worstPongRttMs raw
        timeline       := p.timeline.complete probe now pong.responder |>.fst }

end FramePump

-- The pump on a link of which the server answers each probe after a fixed time. Apart from the answers under way
-- and those that wait in the socket or in the buffer between the two halves of a poll, it has what was ever
-- probed, and what was answered.
structure Link where
  pump     : FramePump
  now      : Nat
  inFlight : List Nat
  inbound  : List Message
  events   : List Message
  sent     : List Nat
  answered : List Nat
  deriving DecidableEq, Repr

namespace Link

def new (pingIntervalMs : Nat) : Link where
  pump     := .new pingIntervalMs
  now      := 0
  inFlight := []
  inbound  := []
  events   := []
  sent     := []
  answered := []

-- What happens on the link. A poll is a `drain`, and a `digest` for each message that it has brought.
inductive Step
  | wait (ms : Nat)
  | arrive (responder : Option Nat)
  | stray (message : Message)
  | drain (isOpen : Bool)
  | digest
  deriving DecidableEq, Repr

-- Records an answer to a probe of this pump.
def answer (l : Link) : Message → List Nat
  | .pong pong => if pong.origin ∈ l.sent then l.answered ++ [pong.origin] else l.answered
  | .other     => l.answered

def machine (roundTrip : Nat) : Machine Link Step where
  step l
    -- No answer is late.
    | .wait ms => if l.inFlight.all (l.now + ms ≤ · + roundTrip) then some { l with now := l.now + ms } else none
    | .arrive responder => match l.inFlight with
      | []                 => none
      | origin :: inFlight =>
        if l.now = origin + roundTrip then
          some { l with inFlight, inbound := l.inbound ++ [.pong { origin, responder }] }
        else none
    | .stray message => some { l with inbound := l.inbound ++ [message] }
    | .drain isOpen =>
      let (pump, ping) := l.pump.drain l.now isOpen
      let origins := ping.toList.map (·.origin)
      some { l with
        pump, events := l.events ++ l.inbound, inbound := [], inFlight := l.inFlight ++ origins
        sent := l.sent ++ origins }
    | .digest => match l.events with
      | []                => none
      | message :: events =>
        some { l with pump := l.pump.onMessage message l.now, events, answered := l.answer message }

-- The probes for which no answer was handled yet.
def Unanswered (l : Link) (origin : Nat) : Prop :=
  origin ∈ l.sent ∧ origin ∉ l.answered

-- The answer to each of these would complete a sample of the length it took.
def Able (l : Link) : Prop :=
  ∀ origin, l.Unanswered origin → ∀ responder now,
    (l.pump.onMessage (.pong { origin, responder }) now).timeline.rtt = l.pump.timeline.rtt ++ [now - origin]

-- No probe goes out, and no other answer is handled, as long as a probe is unanswered.
def Timely (l : Link) : Step → Prop
  | .drain isOpen => (l.pump.drain l.now isOpen).snd.isSome → ∀ origin ∈ l.sent, origin ∉ l.answered → origin = l.now
  | .digest       => ∀ origin ∈ l.sent, origin ∉ l.answered → l.events.head?.all (·.spares origin)
  | _             => True

instance {l step} : Decidable (Timely l step) :=
  match step with
  | .wait _ | .arrive _ | .stray _ => inferInstanceAs (Decidable True)
  | .drain _                       => inferInstanceAs (Decidable (_ → _))
  | .digest                        => inferInstanceAs (Decidable (∀ origin ∈ l.sent, _))

end Link
end Plaza.WsClient
