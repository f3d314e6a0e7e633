import Plaza.ClientUtils.Determinism

namespace Plaza.ClientUtils

open Rust

-- Whether a simulated wire may deliver packets out of the order in which they were sent.
inductive LatencyLink.Ordering
  | ordered
  | unordered
  deriving DecidableEq, Repr

-- One direction of a simulated wire. What is handed to it can be delivered once its latency has passed, and a draw
-- of its jitter.
structure LatencyLink (α : Type) where
  queue         : List (Nat × α)
  ordering      : LatencyLink.Ordering
  -- When the last packet that was queued is delivered.
  lastDeliverMs : Nat
  deriving DecidableEq, Repr

namespace LatencyLink

variable {α : Type}

def new : LatencyLink α where
  queue         := []
  ordering      := .ordered
  lastDeliverMs := 0

def withOrdering (l : LatencyLink α) (ordering : Ordering) : LatencyLink α :=
  { l with ordering }

-- Whether the wire loses the next packet. There is a draw only if it can.
def loses (lossPct : F32) (rng : Rng) : Rng × Bool :=
  if 0 < lossPct then
    let (rng, unit) := rng.unit
    (rng, .of unit * 100 < lossPct)
  else
    (rng, false)

-- An ordered wire holds a packet back behind its predecessor.
def send (l : LatencyLink α) (nowMs : Nat) (packet : α) (latencyMs : Nat) (jitterMs : UInt64) (lossPct : F32)
    (rng : Rng) : Option (LatencyLink α × Rng) :=
  let (rng, lost) := loses lossPct rng
  if lost then
    some (l, rng)
  else do
    let (rng, jitter) ← rng.upTo jitterMs
    let deliverAt := nowMs + latencyMs + jitter.toNat
    let deliverAt := if l.ordering = .ordered then max deliverAt l.lastDeliverMs else deliverAt
    some ({ l with queue := l.queue ++ [(deliverAt, packet)], lastDeliverMs := deliverAt }, rng)

-- What has come due, by the time of its delivery. The sort is stable.
def drainDue (l : LatencyLink α) (nowMs : Nat) : LatencyLink α × List α :=
  let due  := l.queue.filter (·.fst ≤ nowMs)
  let kept := l.queue.filter (¬·.fst ≤ nowMs)
  let due  := due.mergeSort (·.fst ≤ ·.fst)
  ({ l with queue := kept }, due.map Prod.snd)

-- What is done to a wire.
inductive Op (α : Type)
  | send (nowMs : Nat) (packet : α) (latencyMs : Nat) (jitterMs : UInt64) (lossPct : F32)
  | drain (nowMs : Nat)

-- The wire with its generator as its callers see it. A draw over all words panics.
def object : Object (LatencyLink α × Rng) (Op α) (Option (List α)) where
  call s
    | .send nowMs packet latencyMs jitterMs lossPct =>
      match s.fst.send nowMs packet latencyMs jitterMs lossPct s.snd with
      | some s => (s, some [])
      | none   => (s, none)
    | .drain nowMs =>
      let (l, due) := s.fst.drainDue nowMs
      ((l, s.snd), some due)

end LatencyLink
end Plaza.ClientUtils
