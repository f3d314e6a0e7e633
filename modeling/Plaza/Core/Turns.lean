import Mathlib.Algebra.Ring.Nat
import Plaza.Core.Session

namespace Plaza.Core

-- What one advance did to the order of turns.
inductive Advanced (α : Type)
  | next (actor : α)
  | passClosed (actor : α)
  deriving DecidableEq, Repr

namespace Advanced

def actor {α : Type} : Advanced α → α
  | next actor | passClosed actor => actor

def isPassClosed {α : Type} : Advanced α → Bool
  | next _       => false
  | passClosed _ => true

end Advanced

structure TurnChangedNoticePayload (α : Type) where
  newTurnActor      : Option α
  previousTurnActor : Option α
  turnNumber        : Nat
  timeLimitForTurn  : Option Nat
  deriving DecidableEq, Repr

-- `current` is the place in `actors` whose turn it is, if a turn has begun.
structure RoundRobinTurnManager (Op ID α : Type) where
  actors     : List α
  current    : Option Nat
  turnNumber : Nat
  timeLimit  : Option Nat
  notice     : TurnChangedNoticePayload α → Op

namespace RoundRobinTurnManager

variable {Op ID α : Type}

def new (actors : List α) (notice : TurnChangedNoticePayload α → Op) : RoundRobinTurnManager Op ID α where
  actors     := actors
  current    := none
  turnNumber := 0
  timeLimit  := none
  notice     := notice

def withTimeLimit (m : RoundRobinTurnManager Op ID α) (limit : Nat) : RoundRobinTurnManager Op ID α :=
  { m with timeLimit := limit }

def currentTurnActor (m : RoundRobinTurnManager Op ID α) : Option α :=
  m.current.bind (m.actors[·]?)

def emitNotice (m : RoundRobinTurnManager Op ID α) (previous : Option α) : List (TargetedOp Op ID) :=
  let payload := {
    newTurnActor      := m.currentTurnActor
    previousTurnActor := previous
    turnNumber        := m.turnNumber
    timeLimitForTurn  := m.timeLimit }
  [{ fromAgent := .system, target := .all, ops := [m.notice payload] }]

def begin (m : RoundRobinTurnManager Op ID α) : RoundRobinTurnManager Op ID α × List (TargetedOp Op ID) × Option α :=
  if m.current.isSome ∨ m.actors.isEmpty then
    (m, [], m.currentTurnActor)
  else
    let m := { m with current := some 0, turnNumber := 1 }
    (m, m.emitNotice none, m.currentTurnActor)

def restart (m : RoundRobinTurnManager Op ID α) : RoundRobinTurnManager Op ID α × List (TargetedOp Op ID) × Option α :=
  if m.actors.isEmpty then
    ({ m with current := none }, [], none)
  else
    let previous := m.currentTurnActor
    let m := { m with current := some 0, turnNumber := 1 }
    (m, m.emitNotice previous, m.currentTurnActor)

def addActor (m : RoundRobinTurnManager Op ID α) (actor : α) : RoundRobinTurnManager Op ID α :=
  { m with actors := m.actors ++ [actor] }

-- If the actor held the turn, its place now holds the next one, except at the end of the order, where it wraps.
def removeActor [BEq α] (m : RoundRobinTurnManager Op ID α) (actor : α) : RoundRobinTurnManager Op ID α × Bool :=
  match m.actors.findIdx? (· == actor) with
  | none       => (m, false)
  | some index =>
    let actors := m.actors.eraseIdx index
    let current :=
      if actors.isEmpty then
        none
      else
        m.current.map fun current =>
          if index < current then
            current - 1
          else if index = current ∧ actors.length ≤ current then
            0
          else
            current
    ({ m with actors, current }, true)

def endCurrentTurnAndAdvance (m : RoundRobinTurnManager Op ID α) :
    RoundRobinTurnManager Op ID α × List (TargetedOp Op ID) × Except String (Advanced α) :=
  if m.actors.isEmpty then
    (m, [], .error "no actors in the turn order")
  else
    match m.current with
    | none         => (m, [], .error "no turn is active; call begin() first")
    | some current =>
      let previous := m.actors[current]?
      let next := (current + 1) % m.actors.length
      let wrapped := next = 0
      let m := { m with current := some next, turnNumber := min (m.turnNumber + 1) (2 ^ 32 - 1) }
      let advanced :=
        match m.currentTurnActor with
        | none       => .error "the turn order lost its actor while advancing"
        | some actor => .ok (if wrapped then .passClosed actor else .next actor)
      (m, m.emitNotice previous, advanced)

end RoundRobinTurnManager
end Plaza.Core
