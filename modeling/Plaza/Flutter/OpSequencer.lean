import Mathlib.Algebra.Order.Field.Basic

namespace Plaza.Flutter

-- What an applier asks for once it has applied an op. A future shows only when it completes.
inductive Hold (K : Type)
  | none
  | seconds (seconds : K)
  | until
  deriving DecidableEq

-- Ops applied one at a time, with room for an animation between them.
structure OpSequencer (T K : Type) where
  maxQueued  : Nat
  queue      : List T
  hold       : K
  awaiting   : Bool
  generation : Nat
  dropped    : Nat
  deriving DecidableEq

namespace OpSequencer

variable {T K : Type}

def new [Zero K] (maxQueued : Nat) : OpSequencer T K where
  maxQueued  := maxQueued
  queue      := []
  hold       := 0
  awaiting   := false
  generation := 0
  dropped    := 0

def add (s : OpSequencer T K) (op : T) : OpSequencer T K :=
  if s.maxQueued ≤ s.queue.length then
    { s with dropped := s.dropped + 1 }
  else
    { s with queue := s.queue ++ [op] }

def addAll (s : OpSequencer T K) (ops : List T) : OpSequencer T K :=
  ops.foldl add s

-- A future completes, which an op of this generation holds on.
def release (s : OpSequencer T K) (generation : Nat) : OpSequencer T K :=
  if generation = s.generation then { s with awaiting := false } else s

def clear [Zero K] (s : OpSequencer T K) : OpSequencer T K :=
  { s with queue := [], hold := 0, awaiting := false, generation := s.generation + 1 }

variable [Field K] [LinearOrder K]

def holding (s : OpSequencer T K) : Bool :=
  0 < s.hold || s.awaiting

-- The loop of `pump`, with the ops that it applies.
def drain (apply : T → Hold K) (s : OpSequencer T K) : K → List T → OpSequencer T K × List T
  | _,  []          => ({ s with queue := [] }, [])
  | dt, op :: queue =>
    match apply op with
    | .none =>
      let (s, applied) := drain apply s dt queue
      (s, op :: applied)
    | .seconds seconds =>
      let hold := seconds - dt
      if hold ≤ 0 then
        let (s, applied) := drain apply { s with hold := 0 } 0 queue
        (s, op :: applied)
      else
        ({ s with queue, hold }, [op])
    | .until => ({ s with queue, awaiting := true }, [op])

def pump (s : OpSequencer T K) (dt : K) (apply : T → Hold K) : OpSequencer T K × List T :=
  if s.awaiting then
    (s, [])
  else if 0 < s.hold then
    let hold := s.hold - dt
    if 0 < hold then
      ({ s with hold }, [])
    else
      drain apply { s with hold := 0 } (-hold) s.queue
  else
    drain apply s dt s.queue

end OpSequencer
end Plaza.Flutter
