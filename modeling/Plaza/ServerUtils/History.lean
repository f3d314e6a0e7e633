import Mathlib.Algebra.Order.Field.Rat
import Mathlib.Data.Finmap

namespace Plaza.ServerUtils

structure TimedState (σ : Type*) where
  time  : Nat
  state : σ
  deriving DecidableEq, Repr

-- A rolling history of each entity's states, the oldest first.
structure HistoricalStateBuffer (ε σ : Type*) where
  history               : Finmap fun _ : ε => List (TimedState σ)
  maxSnapshotsPerEntity : Nat

namespace HistoricalStateBuffer

variable {ε σ : Type*}

-- For a size of zero the constructor panics.
def new (maxSnapshotsPerEntity : Nat) : Option (HistoricalStateBuffer ε σ) :=
  if maxSnapshotsPerEntity = 0 then none else some { history := ∅, maxSnapshotsPerEntity }

-- The state between two recorded ones. The conversion to a float is taken to be exact.
def between (interpolate : σ → σ → ℚ → Nat → Nat → σ) (before after : TimedState σ) (target : Nat) : σ :=
  let total : ℚ := (after.time - before.time : Nat)
  let elapsed : ℚ := (target - before.time : Nat)
  if 1 / 1000000 < total then
    interpolate before.state after.state (max 0 (min (elapsed / total) 1)) before.time after.time
  else
    before.state

variable [DecidableEq ε]

-- A state which is not newer than the last one is ignored.
def recordState (b : HistoricalStateBuffer ε σ) (entityId : ε) (serverTime : Nat) (stateSnapshot : σ) :
    HistoricalStateBuffer ε σ :=
  let entityHistory := (b.history.lookup entityId).getD []
  let recorded :=
    if entityHistory.getLast?.any (serverTime ≤ ·.time) then
      entityHistory
    else
      let pushed := entityHistory ++ [{ time := serverTime, state := stateSnapshot }]
      pushed.drop (pushed.length - b.maxSnapshotsPerEntity)
  { b with history := b.history.insert entityId recorded }

def getStateAtOrBefore (b : HistoricalStateBuffer ε σ) (interpolate : σ → σ → ℚ → Nat → Nat → σ) (entityId : ε)
    (targetServerTime : Nat) : Option σ := do
  let entityHistory ← b.history.lookup entityId
  let idx := entityHistory.findIdx (targetServerTime ≤ ·.time)
  if idx = 0 then
    entityHistory.head?.map (·.state)
  else if idx = entityHistory.length then
    entityHistory.getLast?.map (·.state)
  else
    let before ← entityHistory[idx - 1]?
    let after ← entityHistory[idx]?
    if after.time = targetServerTime then
      some after.state
    else
      some <| between interpolate before after targetServerTime

end HistoricalStateBuffer
end Plaza.ServerUtils
