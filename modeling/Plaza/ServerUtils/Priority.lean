import Mathlib.Algebra.Order.Group.Defs

namespace Plaza.ServerUtils

-- The priority of each entity, which it keeps over the ticks that it is not sent on. The numbers do not round.
structure PriorityAccumulator (K : Type) where
  scores : List K
  order  : List Nat
  deriving DecidableEq, Repr

namespace PriorityAccumulator

variable {K : Type} [AddCommGroup K] [LinearOrder K]

def new (entities : Nat) : PriorityAccumulator K where
  scores := .replicate entities 0
  order  := []

variable (p : PriorityAccumulator K)

def score (index : Nat) : K :=
  p.scores.getD index 0

-- An index that is out of range lets the space grow.
def bump (index : Nat) (priority : K) : PriorityAccumulator K :=
  let scores :=
    if p.scores.length ≤ index then
      p.scores ++ .replicate (index + 1 - p.scores.length) 0
    else
      p.scores
  { p with scores := scores.modify index (· + priority) }

-- Descending, and by index where scores tie.
def hottest : List Nat :=
  let candidates := (List.range p.scores.length).filter fun i => 0 < p.score i
  candidates.mergeSort fun a b => p.score b < p.score a ∨ (p.score a = p.score b ∧ a ≤ b)

def sent (indices : List Nat) : PriorityAccumulator K :=
  { p with scores := indices.foldl (fun scores index => scores.set index 0) p.scores }

-- One step of the loop over the order, on what is left, the scores and the chosen.
def pick (cost : Nat → Nat) (s : Nat × List K × List Nat) (index : Nat) : Nat × List K × List Nat :=
  let (left, scores, out) := s
  let price := cost index
  if left < price then s else (left - price, scores.set index 0, out ++ [index])

def fill (budget : Nat) (cost : Nat → Nat) : PriorityAccumulator K × List Nat :=
  let order := p.hottest
  let (_, scores, out) := order.foldl (pick cost) (budget, p.scores, [])
  ({ scores, order }, out)

end PriorityAccumulator
end Plaza.ServerUtils
