import Mathlib.Data.List.DropRight
import Plaza.Lib.Execution
import Plaza.Lib.Rust
import Plaza.Lib.Trace

open Rust (Overflow U64)

namespace Plaza.ServerUtils

-- How far from the current tick the tick that an input names may be.
structure InputWindow where
  maxLate  : U64
  maxEarly : U64
  deriving DecidableEq, Repr

inductive Submission
  | scheduled
  | late
  | tickClosed
  | tooFarAhead
  deriving DecidableEq, Repr

def Submission.accepted : Submission → Bool
  | scheduled | late         => true
  | tickClosed | tooFarAhead => false

-- One seat's inputs, each with the tick it is to be executed at. The margin of the last rejection is a signed
-- word.
structure InputSchedule (ι : Type) where
  queue            : List (U64 × ι)
  lastExecuted     : Option U64
  accepted         : U64
  late             : U64
  rejectedLate     : U64
  rejectedEarly    : U64
  lastRejectMargin : Option U64
  deriving DecidableEq, Repr

namespace InputSchedule

variable {ι : Type}

def new : InputSchedule ι where
  queue            := []
  lastExecuted     := none
  accepted         := 0
  late             := 0
  rejectedLate     := 0
  rejectedEarly    := 0
  lastRejectMargin := none

-- Never behind something that was executed already.
def executeAt (s : InputSchedule ι) (tick : U64) : U64 :=
  match s.lastExecuted with
  | none      => tick
  | some last => if tick < last then last else tick

-- There is no outcome if a sum or a difference panics.
def submit (s : InputSchedule ι) (o : Overflow) (tick : U64) (input : ι) (current : U64) (window : InputWindow) :
    Option (InputSchedule ι × Submission) := do
  let closes ← U64.add o tick window.maxLate
  if closes < current then
    let rejectedLate ← U64.add o s.rejectedLate 1
    let margin       ← U64.subSigned o tick current
    return ({ s with rejectedLate, lastRejectMargin := some margin }, .tickClosed)
  else
    let opens ← U64.add o current window.maxEarly
    if opens < tick then
      let rejectedEarly ← U64.add o s.rejectedEarly 1
      let margin        ← U64.subSigned o tick current
      return ({ s with rejectedEarly, lastRejectMargin := some margin }, .tooFarAhead)
    else
      let queue    := s.queue ++ [(s.executeAt tick, input)]
      let accepted ← U64.add o s.accepted 1
      if s.executeAt tick < current then
        let late ← U64.add o s.late 1
        return ({ s with queue, accepted, late }, .late)
      else
        return ({ s with queue, accepted }, .scheduled)

-- The queue in the order of execution.
def sorted (s : InputSchedule ι) : List (U64 × ι) :=
  s.queue.mergeSort (·.fst ≤ ·.fst)

def drainDue (s : InputSchedule ι) (current : U64) : InputSchedule ι × List ι :=
  let queue := s.sorted
  let due   := (queue.takeWhile (·.fst ≤ current)).length
  let s'    := if 0 < due then { s with lastExecuted := some current } else s
  ({ s' with queue := queue.drop due }, (queue.take due).map Prod.snd)

-- The newest input which is due, for inputs that each supersede the ones before.
def executeDue (s : InputSchedule ι) (current : U64) : InputSchedule ι × Option ι :=
  let (s, due) := s.drainDue current
  (s, due.getLast?)

def clear (s : InputSchedule ι) : InputSchedule ι :=
  { s with queue := [], lastExecuted := none }

-- What a submission is to be answered, as ticks without an end have it.
def TickClosed (tick current : U64) (window : InputWindow) : Prop :=
  tick.toNat + window.maxLate.toNat < current.toNat

def TooFarAhead (tick current : U64) (window : InputWindow) : Prop :=
  current.toNat + window.maxEarly.toNat < tick.toNat

-- The earliest tick that an input can still be executed at.
def earliestRunnable (s : InputSchedule ι) : Nat :=
  (s.lastExecuted.map BitVec.toNat).getD 0

structure Judged (s : InputSchedule ι) (tick : U64) (input : ι) (current : U64) (window : InputWindow)
    (r : InputSchedule ι × Submission) : Prop where
  ahead    : r.snd = .tooFarAhead ↔ TooFarAhead tick current window
  closed   : r.snd = .tickClosed ↔ TickClosed tick current window
  accepts  : r.snd.accepted ↔ ¬TooFarAhead tick current window ∧ ¬TickClosed tick current window
  queued   : r.snd.accepted → ∃ at', at'.toNat = max tick.toNat s.earliestRunnable ∧ r.fst.queue = s.queue ++ [(at', input)]
  rejected : ¬r.snd.accepted → r.fst.queue = s.queue

-- Every sum and difference that the submission takes fits its word.
structure Fits (s : InputSchedule ι) (tick current : U64) (window : InputWindow) : Prop where
  closes        : tick.toNat + window.maxLate.toNat < 2 ^ 64
  opens         : ¬TickClosed tick current window → current.toNat + window.maxEarly.toNat < 2 ^ 64
  margin        : TickClosed tick current window ∨ TooFarAhead tick current window →
    -2 ^ 63 ≤ tick.toInt - current.toInt ∧ tick.toInt - current.toInt < 2 ^ 63
  rejectedLate  : TickClosed tick current window → s.rejectedLate.toNat + 1 < 2 ^ 64
  rejectedEarly : TooFarAhead tick current window → s.rejectedEarly.toNat + 1 < 2 ^ 64
  accepted      : ¬TickClosed tick current window → ¬TooFarAhead tick current window → s.accepted.toNat + 1 < 2 ^ 64
  late          : ¬TickClosed tick current window → ¬TooFarAhead tick current window →
    s.executeAt tick < current → s.late.toNat + 1 < 2 ^ 64

-- An accepted input: how many were accepted before it, and the tick it was scheduled for.
structure Arrival (ι : Type) where
  nth       : Nat
  executeAt : U64
  input     : ι
  deriving DecidableEq, Repr

-- By the scheduled tick, and in the order of arrival on one tick.
def Arrival.Before {ι : Type} (x y : Arrival ι) : Prop :=
  x.executeAt < y.executeAt ∨ x.executeAt = y.executeAt ∧ x.nth < y.nth

-- What happened to a schedule's inputs.
inductive Event (ι : Type)
  | accepted (x : Arrival ι)
  | drained (current : U64) (due : List (Arrival ι))
  | cleared (dropped : List (Arrival ι))
  deriving DecidableEq, Repr

namespace Event

variable {ι : Type}

def isAccepted : Event ι → Bool
  | accepted _ => true
  | _          => false

def isCleared : Event ι → Bool
  | cleared _ => true
  | _         => false

def delivered : Event ι → List (Arrival ι)
  | drained _ due => due
  | _             => []

def dropped : Event ι → List (Arrival ι)
  | cleared dropped => dropped
  | _               => []

-- No arrival for this tick is left in the queue.
def Empties (tick : U64) : Event ι → Prop
  | accepted _        => False
  | drained current _ => tick ≤ current
  | cleared _         => True

end Event

-- The arrivals that have not been taken from the queue again.
def Waiting {ι : Type} (events : List (Event ι)) (x : Arrival ι) : Prop :=
  Trace.Open (· = .accepted x) (Event.Empties x.executeAt) events

-- A seat's schedule over time, with the tick it was last called on.
structure Seat (ι : Type) where
  schedule : InputSchedule (Arrival ι)
  now      : U64
  events   : List (Event ι)
  deriving DecidableEq, Repr

inductive Call (ι : Type)
  | submit (tick : U64) (input : ι) (current : U64) (window : InputWindow)
  | drain (current : U64)
  | clear
  deriving DecidableEq, Repr

namespace Seat

variable {ι : Type}

def start : Seat ι where
  schedule := .new
  now      := 0
  events   := []

-- The arrival that an input becomes if it is accepted.
def arrival (s : Seat ι) (tick : U64) (input : ι) : Arrival ι where
  nth       := s.events.countP (·.isAccepted)
  executeAt := s.schedule.executeAt tick
  input     := input

def submit (s : Seat ι) (o : Overflow) (tick : U64) (input : ι) (current : U64) (window : InputWindow) :
    Option (Seat ι) :=
  let x := s.arrival tick input
  (s.schedule.submit o tick x current window).map fun (schedule, verdict) =>
    { schedule, now := current, events := if verdict.accepted then s.events ++ [.accepted x] else s.events }

def drain (s : Seat ι) (current : U64) : Seat ι :=
  let (schedule, due) := s.schedule.drainDue current
  { schedule, now := current, events := s.events ++ [.drained current due] }

def clear (s : Seat ι) : Seat ι :=
  { s with
    schedule := s.schedule.clear
    events   := s.events ++ [.cleared (s.schedule.queue.map Prod.snd)] }

-- What was delivered since the seat was last vacated.
def delivered (s : Seat ι) : List (Arrival ι) :=
  (s.events.rtakeWhile (!·.isCleared)).flatMap Event.delivered

end Seat

-- Calls on a tick that has passed are none, and neither are submissions that panic.
def machine (ι : Type) (o : Overflow) : Machine (Seat ι) (Call ι) where
  step s
    | .submit tick input current window => if s.now ≤ current then s.submit o tick input current window else none
    | .drain current                    => if s.now ≤ current then some (s.drain current) else none
    | .clear                            => some s.clear

-- What may happen after the events before. No input is accepted twice, and a drain delivers exactly those which
-- wait for a tick that has come.
def Lawful {ι : Type} (before : List (Event ι)) : Event ι → Prop
  | .accepted x          => .accepted x ∉ before
  | .drained current due => due.Nodup ∧ ∀ x, x ∈ due ↔ Waiting before x ∧ x.executeAt ≤ current
  | .cleared dropped     => dropped.Nodup ∧ ∀ x, x ∈ dropped ↔ Waiting before x

structure Delivers {ι : Type} (s : Seat ι) : Prop where
  lawful    : Trace.Each Lawful s.events
  queued    : (s.schedule.queue.map Prod.snd).Nodup ∧
    ∀ x, x ∈ s.schedule.queue.map Prod.snd ↔ Waiting s.events x
  ordered   : s.delivered.Pairwise Arrival.Before
  conserved : s.events.countP (·.isAccepted) =
    (s.events.flatMap Event.delivered).length + s.schedule.queue.length + (s.events.flatMap Event.dropped).length
  counter   : s.schedule.accepted.toNat = s.events.countP (·.isAccepted) % 2 ^ 64

end InputSchedule
end Plaza.ServerUtils
