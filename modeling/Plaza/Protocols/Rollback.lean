import Plaza.ClientUtils.Rollback

open Plaza.ClientUtils

-- One peer of a lockstep game. It hands every input to its rollback session as it gets to know it:
-- the local one when the frame comes up, a remote one whenever it arrives.
namespace Plaza.Protocols.Rollback

-- `fed` lists the player and the frame of each input that the session was given.
structure Peer (σ ι : Type*) (n : Nat) where
  session : RollbackSession σ ι n
  fed     : List (Fin n × Nat)

-- No event carries an input, since there is but one true input for each player and frame.
inductive Event (n : Nat)
  | queueLocalInput (player : Fin n)
  | confirmRemoteInput (player : Fin n) (frame : Nat)
  | advanceFrame

variable {σ ι : Type*} {n : Nat}

namespace Peer

def start (init : σ) (neutral : Fin n → ι) (config : RollbackConfig)
    (advance : σ → (Fin n → ι) → σ) (predictor : ι → Nat → ι) : Peer σ ι n where
  session := .withPredictor (.new init neutral config advance) predictor
  fed     := []

def head (s : Peer σ ι n) : Nat :=
  s.session.headFrame

-- How many frames the session can go back.
def depth (s : Peer σ ι n) : Nat :=
  s.session.stateHistory.capacity

def advanceFrame (s : Peer σ ι n) : Peer σ ι n :=
  { s with session := s.session.advanceFrame }

end Peer

-- Each input is given once. A remote one arrives when its frame is simulated next at the earliest,
-- and while the state at the start of its frame is still retained.
def machine [DecidableEq ι] (truth : Nat → Fin n → ι) : Machine (Peer σ ι n) (Event n) where
  step s
    | .queueLocalInput p =>
      if (p, s.head) ∉ s.fed then
        some {
          session := s.session.queueLocalInput p (truth s.head p)
          fed     := (p, s.head) :: s.fed }
      else none
    | .confirmRemoteInput p f =>
      if (p, f) ∉ s.fed ∧ f ≤ s.head ∧ s.head ≤ f + s.depth then
        some {
          session := s.session.confirmRemoteInput p f (truth f p)
          fed     := (p, f) :: s.fed }
      else none
    | .advanceFrame => s.advanceFrame

namespace Event

-- The frame that a player's input is given for.
def feeds (s : Peer σ ι n) : Event n → Option (Fin n × Nat)
  | .queueLocalInput p      => some (p, s.head)
  | .confirmRemoteInput p f => some (p, f)
  | .advanceFrame           => none

-- The input is less than the session's depth behind the head.
def isTimely (s : Peer σ ι n) (e : Event n) : Bool :=
  (e.feeds s).all fun (_, f) => s.head < f + s.depth

-- The player's first input is the one for the first frame.
def startsAtFirst (s : Peer σ ι n) (e : Event n) : Bool :=
  (e.feeds s).all fun (p, f) => f = 0 || s.fed.any (·.fst = p)

-- The player's inputs for all earlier frames are given before.
def isInOrder (s : Peer σ ι n) (e : Event n) : Bool :=
  (e.feeds s).all fun (p, f) => (List.range f).all fun g => (p, g) ∈ s.fed

-- When the session rolls back, no input is known which is the depth or more ahead of the correction.
def isShallow (s : Peer σ ι n) : Event n → Bool
  | .advanceFrame => s.session.earliestIncorrect.all fun e =>
    s.fed.all fun (_, f) => f < e + s.depth
  | _             => true

end Event

variable [DecidableEq ι]

def timely (truth : Nat → Fin n → ι) : Machine (Peer σ ι n) (Event n) :=
  (machine truth).restrict fun s e => e.isTimely s

def fromFirst (truth : Nat → Fin n → ι) : Machine (Peer σ ι n) (Event n) :=
  (timely truth).restrict fun s e => e.startsAtFirst s

def inOrder (truth : Nat → Fin n → ι) : Machine (Peer σ ι n) (Event n) :=
  (machine truth).restrict fun s e => e.isInOrder s

def shallow (truth : Nat → Fin n → ι) : Machine (Peer σ ι n) (Event n) :=
  (inOrder truth).restrict fun s e => e.isShallow s

end Plaza.Protocols.Rollback
