import Plaza.Lib.Execution

-- Durations are in nanoseconds.
namespace Plaza.Core.TickDriver

-- The most steps that are spent in one wake.
def maxStepsPerWake : Nat := 8

-- A driver of fixed steps, with the steps that it has sent. The controller takes `takes` more of them before its
-- channel closes, or any number if that is never.
structure Fixed where
  step     : Nat
  maxSteps : Option Nat
  owed     : Nat
  sent     : List Nat
  takes    : Option Nat
  running  : Bool
  deriving DecidableEq, Repr

namespace Fixed

def start (step : Nat) (maxSteps takes : Option Nat) : Fixed where
  step     := step
  maxSteps := maxSteps
  owed     := 0
  sent     := []
  takes    := takes
  running  := true

def steps (d : Fixed) : Nat :=
  d.sent.length

def limited (d : Fixed) : Bool :=
  d.maxSteps.any (· ≤ d.steps)

-- A send fails once the channel is closed, and the driver stops.
def send (d : Fixed) : Fixed :=
  match d.takes with
  | some 0       => { d with running := false }
  | some (n + 1) => { d with sent := d.sent ++ [d.step], takes := some n }
  | none         => { d with sent := d.sent ++ [d.step] }

-- The rounds of the inner loop: what is owed pays for no more of them.
def spend : Nat → Fixed → Fixed
  | 0,          d => d
  | rounds + 1, d =>
    if d.step ≤ d.owed ∧ !d.limited ∧ d.running then
      spend rounds { d with owed := d.owed - d.step }.send
    else
      d

def ceiling (d : Fixed) : Nat :=
  d.step * maxStepsPerWake

-- What it cannot catch up on is dropped.
def wake (d : Fixed) (elapsed : Nat) : Fixed :=
  spend maxStepsPerWake { d with owed := min (d.owed + elapsed) d.ceiling }

-- The time between wakes is up to the host.
def machine : Machine Fixed Nat where
  step d elapsed := if d.running ∧ !d.limited then some (d.wake elapsed) else none

end Fixed
end Plaza.Core.TickDriver
