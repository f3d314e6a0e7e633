import Mathlib.Algebra.Order.Field.Basic
import Plaza.Lib.Execution

namespace Plaza.ClientUtils

-- What a confirmation said about the route that is being checked.
inductive Heard
  | onRoute
  | diverged
  | unchecked
  deriving DecidableEq, Repr

-- A body that walks its own route on the local clock. Squares are drawn at points of the plane.
structure RoutePredictor (P K : Type) where
  point         : P → K × K
  predicted     : P
  confirmed     : P
  plan          : List P
  expect        : List P
  checking      : Bool
  start         : K × K
  stepMs        : Nat
  stepMs_pos    : 0 < stepMs
  steppedMs     : Nat
  nextStepMs    : Nat
  seeded        : Bool
  confirmations : Nat
  diverged      : Nat

namespace RoutePredictor

variable {P K : Type}

theorem raised_pos (stepMs : Nat) : 0 < max stepMs 1 := by
  omega

def new (initial : P) (point : P → K × K) (stepMs : Nat) : RoutePredictor P K where
  point         := point
  predicted     := initial
  confirmed     := initial
  plan          := []
  expect        := []
  checking      := false
  start         := point initial
  stepMs        := max stepMs 1
  stepMs_pos    := raised_pos stepMs
  steppedMs     := 0
  nextStepMs    := 0
  seeded        := false
  confirmations := 0
  diverged      := 0

def setStepMs (r : RoutePredictor P K) (stepMs : Nat) : RoutePredictor P K :=
  { r with stepMs := max stepMs 1, stepMs_pos := raised_pos stepMs }

def jumpTo (r : RoutePredictor P K) (square : P) (now : Nat) : RoutePredictor P K := {
  r with
  predicted  := square
  confirmed  := square
  start      := r.point square
  plan       := []
  expect     := []
  checking   := false
  steppedMs  := now
  nextStepMs := now + r.stepMs
  seeded     := true
}

section

variable [DecidableEq P]

-- Spends the squares that one report may advance by.
def spend (square : P) : Nat → List P → List P × Heard
  | 0,         expect         => (expect, .diverged)
  | _ + 1,     []             => ([], .unchecked)
  | slack + 1, next :: expect => if next = square then (expect, .onRoute) else spend square slack expect

def confirm (r : RoutePredictor P K) (square : P) (slack : Nat) : RoutePredictor P K × Heard :=
  if square = r.confirmed then
    (r, .unchecked)
  else
    let r := { r with confirmed := square }
    if !r.checking then
      (r, .unchecked)
    else
      let r := { r with confirmations := r.confirmations + 1 }
      match spend square (max slack 1) r.expect with
      | (expect, .onRoute)   => ({ r with expect }, .onRoute)
      | (expect, .unchecked) => ({ r with expect, checking := false }, .unchecked)
      | (expect, .diverged)  => ({ r with expect, checking := false, diverged := r.diverged + 1 }, .diverged)

end

variable [Field K] [LinearOrder K]

-- How much of the crossing is behind the body.
def crossed (r : RoutePredictor P K) (now : Nat) : K :=
  max 0 (min ((now - r.steppedMs : Nat) / r.stepMs) 1)

def drawn (r : RoutePredictor P K) (now : Nat) : K × K :=
  let t := r.crossed now
  let target := r.point r.predicted
  (r.start.fst + (target.fst - r.start.fst) * t, r.start.snd + (target.snd - r.start.snd) * t)

def crossing (r : RoutePredictor P K) (now : Nat) : Bool :=
  let target := r.point r.predicted
  let dx := target.fst - r.start.fst
  let dy := target.snd - r.start.snd
  1 / 10000 < dx * dx + dy * dy && now - r.steppedMs < r.stepMs

def walking (r : RoutePredictor P K) (now : Nat) : Bool :=
  !r.plan.isEmpty || r.crossing now

-- Takes up to `steps` squares off the plan.
def take (r : RoutePredictor P K) (steps : Nat) : RoutePredictor P K :=
  { r with predicted := (r.plan.take steps).getLast?.getD r.predicted, plan := r.plan.drop steps }

-- The loop which takes the steps that are due.
def walk (now stepsPerTick : Nat) : Loop (RoutePredictor P K) where
  body r :=
    if r.nextStepMs ≤ now ∧ r.plan ≠ [] then
      some {
        { r with start := r.drawn now }.take (max stepsPerTick 1) with
        steppedMs  := now
        nextStepMs := now + r.stepMs
      }
    else
      none

-- Every round takes a square off the plan, so that there are no more rounds than squares.
def advance (r : RoutePredictor P K) (now stepsPerTick : Nat) : RoutePredictor P K :=
  if !r.seeded || r.plan.isEmpty then r else (walk now stepsPerTick).run r.plan.length r

variable [DecidableEq P]

def setOut (r : RoutePredictor P K) (route : List P) (checkable : Bool) (now : Nat) : RoutePredictor P K := {
  r with
  checking   := checkable && r.plan.isEmpty && r.expect.isEmpty && r.confirmed = r.predicted
  plan       := route
  expect     := route
  nextStepMs := if r.walking now then r.nextStepMs else now
}

def abandon (r : RoutePredictor P K) (square : P) (now : Nat) : RoutePredictor P K := {
  r with
  start      := r.drawn now
  predicted  := square
  plan       := []
  expect     := []
  checking   := false
  steppedMs  := now
  nextStepMs := now + r.stepMs
}

def settle (r : RoutePredictor P K) (now : Nat) : RoutePredictor P K × Bool :=
  if !r.seeded || r.walking now || r.confirmed = r.predicted then
    (r, false)
  else
    ({
      r with
      start      := r.drawn now
      predicted  := r.confirmed
      plan       := []
      expect     := []
      steppedMs  := now
      nextStepMs := now + r.stepMs
    }, true)

end RoutePredictor
end Plaza.ClientUtils
