import Plaza.ClientUtils.HeldInput

open Plaza.ClientUtils

-- A client that sends its input when it changes, and now and then again, to a server that holds the last one which
-- arrived. The wire between them keeps the order, but may lose what it is given.
namespace Plaza.Protocols.HeldInput

-- An input which was sent, and the last frame so far at which it still was the one of the client.
structure Sending (ι : Type*) where
  input   : ι
  atMs    : Nat
  untilMs : Nat
  lost    : Bool
  deriving DecidableEq, Repr

-- `sent` lists the inputs which went on the wire, oldest first. Up to `arrived` they either reached the server or were
-- lost, and the last of these reached it. The frames of the client are listed with their inputs.
structure State (ι : Type*) where
  nowMs   : Nat
  policy  : InputCoalescer ι
  frames  : List (Nat × ι)
  sent    : List (Sending ι)
  arrived : Nat
  deriving DecidableEq

def State.start {ι : Type*} (keepaliveMs : Nat) : State ι where
  nowMs   := 0
  policy  := .new keepaliveMs
  frames  := []
  sent    := []
  arrived := 0

namespace State

variable {ι : Type*}

-- What the server holds.
def held (s : State ι) : Option ι :=
  (s.sent.take s.arrived).getLast?.map Sending.input

def underway (s : State ι) : List (Sending ι) :=
  s.sent.drop s.arrived

-- The last thing that was sent still is the input of the client.
def prolong (s : State ι) (nowMs : Nat) : State ι :=
  { s with sent := s.sent.dropLast ++ s.sent.getLast?.toList.map ({ · with untilMs := nowMs }) }

def LosesAtMost (s : State ι) (k : Nat) : Prop :=
  ∀ run : List (Sending ι), run <:+: s.sent → (∀ m ∈ run, m.lost) → run.length ≤ k

end State

inductive Event (ι : Type*)
  | frame (nowMs : Nat) (input : ι) (lost : Bool)
  | deliver (nowMs : Nat)
  | setEnabled (enabled : Bool)
  | reset

variable {ι : Type*} [DecidableEq ι]

-- The clock does not go back.
def machine : Machine (State ι) (Event ι) where
  step s
    | .frame nowMs input lost =>
      if s.nowMs ≤ nowMs then
        let (policy, sends) := s.policy.shouldSend input nowMs
        let s := { s with nowMs, policy, frames := s.frames ++ [(nowMs, input)] }
        if sends then
          some { s with sent := s.sent ++ [{ input, atMs := nowMs, untilMs := nowMs, lost }] }
        else
          some (s.prolong nowMs)
      else none
    | .deliver nowMs =>
      if s.nowMs ≤ nowMs then
        (s.underway.findIdx? (!·.lost)).map fun i => { s with nowMs, arrived := s.arrived + i + 1 }
      else none
    | .setEnabled enabled => some { s with policy := s.policy.setEnabled enabled }
    | .reset              => some { s with policy := s.policy.reset }

-- Frames come at least every `gap`, and what is not lost takes at most `latency`.
def State.OnTime (s : State ι) (gap latency nowMs : Nat) : Prop :=
  (∀ last ∈ s.frames.getLast?, nowMs ≤ last.fst + gap) ∧ ∀ m ∈ s.underway, m.lost = false → nowMs ≤ m.atMs + latency

instance {s : State ι} {gap latency nowMs : Nat} : Decidable (s.OnTime gap latency nowMs) :=
  inferInstanceAs <| Decidable (_ ∧ _)

def Event.isTimely (gap latency : Nat) (s : State ι) : Event ι → Bool
  | .frame nowMs _ _ => s.OnTime gap latency nowMs
  | .deliver nowMs   => s.OnTime gap latency nowMs
  | _                => true

def timely (gap latency : Nat) : Machine (State ι) (Event ι) :=
  machine.restrict fun s e => e.isTimely gap latency s

end Plaza.Protocols.HeldInput
