import Plaza.Lib.Execution
import Plaza.Lib.Trace
import Plaza.Session.Conditioner
import Plaza.Session.Control

namespace Plaza.Session

open Wire

variable {K : Type} [Field K] [LinearOrder K]

-- What the registry has of a connection's inbound traffic.
structure Activity (K : Type) where
  gate           : Bucket K
  lastActivityUs : Nat
  inboundFrames  : Nat
  inboundBytes   : Nat
  inboundShed    : Nat
  deriving DecidableEq

-- A connection which is not in the registry has no activity.
structure Connection (K : Type) where
  inboundRate : Option (Rate K)
  handle      : Option (Activity K)
  deriving DecidableEq

namespace Connection

def register (rate : Option (Rate K)) (nowUs : Nat) : Connection K where
  inboundRate := rate
  handle      := some {
    gate           := .full rate nowUs
    lastActivityUs := nowUs
    inboundFrames  := 0
    inboundBytes   := 0
    inboundShed    := 0
  }

-- Times are in nanoseconds, of which the registry counts whole microseconds.
def recordInboundActivity (c : Connection K) (bytes now : Nat) : Connection K × Verdict :=
  match c.handle with
  | none        => (c, .admitted)
  | some handle =>
    let (gate, verdict) := handle.gate.judge c.inboundRate (now / 1000)
    ({ c with handle := some {
      gate
      lastActivityUs := now / 1000
      inboundFrames  := handle.inboundFrames + 1
      inboundBytes   := handle.inboundBytes + bytes
      inboundShed    := if verdict = .admitted then handle.inboundShed else handle.inboundShed + 1
    } }, verdict)

instance : ConnectionRecord (Connection K) where
  recordInboundActivity := recordInboundActivity
  recordLinkRtt c _     := c
  recordLinkDrop c      := c

end Connection

namespace Uplink

-- Where a connection's task is: parked, in its loop over the frames that have come due, or handing a frame
-- to the controller, after which that loop may go on.
inductive Task
  | select
  | releasing (now : Nat)
  | forwarding (frame : Frame) (next : Option Nat)
  | ended
  deriving DecidableEq, Repr

def Task.forwards : Task → Bool
  | forwarding _ _ => true
  | _              => false

-- What happened, as the client, the gate and the controller see it.
inductive Entry
  | read (frame : Frame)
  | judged (nowUs : Nat) (verdict : Verdict)
  | forwarded (frame : Frame)
  | left
  deriving DecidableEq, Repr

end Uplink

-- The side of a connection which reads. Its removal from the registry is made by another task, which announces
-- the departure thereafter.
structure Uplink (K : Type) where
  registeredUs : Nat
  connection   : Connection K
  departing    : Bool
  link         : LinkHandle
  up           : Conditioner
  probe        : ProbeState
  task         : Uplink.Task
  log          : List Uplink.Entry

namespace Uplink

variable [ProbeCodec] [JitterScale]

inductive Event
  | read (frame : Frame) (clock : Option Nat) (now : Nat)
  | release (now : Nat)
  | pop (clock : Option Nat)
  | forward (taken : Bool)
  | probe (now : Nat)
  | forgetInFlight
  | writeProfile (profile : LinkProfile)
  | storeImpaired (impaired : Bool)
  | disconnect
  | announce
  | stop

def register (rate : Option (Rate K)) (schedule : Probes) (seed : UInt64) (capacity nowUs : Nat) : Uplink K where
  registeredUs := nowUs
  connection   := .register rate nowUs
  departing    := false
  link         := {}
  up           := .new seed capacity
  probe        := .new schedule
  task         := .select
  log          := []

-- Handles a frame and goes on with `task`, as far as the frame is not to be forwarded first, and does not
-- end the connection.
def route (s : Uplink K) (frame : Frame) (clock : Option Nat) (now : Nat) (next : Option Nat) : Uplink K :=
  let (inbound, probe, connection) := handleInbound frame clock s.probe s.connection now
  { s with
    connection
    probe
    log  := s.log ++ (inbound.verdict.map (.judged (now / 1000))).toList
    task := match inbound with
      | .forward frame => .forwarding frame next
      | .eject         => .ended
      | _              => next.elim .select .releasing }

-- Reads a frame. One that is impaired, or behind others which are, is held.
def read (s : Uplink K) (frame : Frame) (clock : Option Nat) (now : Nat) : Uplink K :=
  let s       := { s with log := s.log ++ [Entry.read frame] }
  let profile := if s.link.impaired then s.link.profile.up else {}
  if profile.isPassthrough && s.up.isEmpty then
    s.route frame clock now none
  else
    let (up, kept)  := s.up.push frame profile now
    let connection := if kept then s.connection else ConnectionRecord.recordLinkDrop s.connection
    { s with up, connection }

def machine : Machine (Uplink K) Event where
  step s
    | .read frame clock now   => if s.task = .select then some <| s.read frame clock now else none
    | .release now            => if s.task = .select then some { s with task := .releasing now } else none
    | .pop clock              =>
      match s.task with
      | .releasing now =>
        match s.up.popReady now with
        | some (frame, up) => some <| { s with up }.route frame clock now (some now)
        | none             => some { s with task := .select }
      | _ => none
    | .forward taken          =>
      match s.task with
      | .forwarding frame next => some { s with
        log  := if taken then s.log ++ [.forwarded frame] else s.log
        task := next.elim .select .releasing }
      | _ => none
    | .probe now              =>
      if s.task = .select then some { s with probe := (makeProbe s.probe now).snd } else none
    | .forgetInFlight         =>
      if s.task = .select then some { s with probe := s.probe.forgetInFlight } else none
    | .writeProfile profile   => some { s with link := { s.link with profile } }
    | .storeImpaired impaired => some { s with link := { s.link with impaired } }
    | .disconnect             =>
      if s.connection.handle.isSome then
        some { s with connection := { s.connection with handle := none }, departing := true }
      else
        none
    | .announce               =>
      if s.departing then some { s with departing := false, log := s.log ++ [.left] } else none
    | .stop                   => if s.task = .select then some { s with task := .ended } else none

-- A connection's bucket, as if it was charged for every frame that was judged.
def meter (rate : Option (Rate K)) : Bucket K → List Entry → Bucket K
  | b, []                  => b
  | b, .judged nowUs _ :: l => meter rate (b.judge rate nowUs).fst l
  | b, _ :: l              => meter rate b l

-- Once the departure was announced, nothing is forwarded, and every frame is judged as its rate says.
structure Ends (s : Uplink K) : Prop where
  quiet   : Trace.Each (fun before e => ∀ frame, e = .forwarded frame → .left ∉ before) s.log
  metered : Trace.Each (fun before e => ∀ nowUs verdict, e = .judged nowUs verdict → .left ∈ before →
    verdict = ((meter s.connection.inboundRate (.full s.connection.inboundRate s.registeredUs) before).judge
      s.connection.inboundRate nowUs).snd) s.log

-- When the departure is announced, no data of the client's is on its way, and none comes in later.
def Silent (s : Uplink K) : Event → Prop
  | .announce       => s.task.forwards = false ∧ ∀ p ∈ s.up.queue, p.snd.isData = false
  | .read frame _ _ => .left ∈ s.log → frame.isData = false
  | _               => True

instance (s : Uplink K) : (e : Event) → Decidable (s.Silent e)
  | .announce => inferInstanceAs <| Decidable (_ ∧ _)
  | .read ..  => inferInstanceAs <| Decidable (_ → _)
  | .release _ | .pop _ | .forward _ | .probe _ | .forgetInFlight | .writeProfile _ | .storeImpaired _ | .disconnect
  | .stop     => instDecidableTrue

end Uplink
end Plaza.Session
