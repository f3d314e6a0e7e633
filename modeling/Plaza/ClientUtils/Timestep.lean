import Plaza.Lib.Rust

open Rust

namespace Plaza.ClientUtils

-- A duration in nanoseconds. It may be longer than what a word holds.
abbrev Duration := Nat

def Duration.fromMillis (ms : U64) : Duration :=
  ms.toNat * 1000000

-- For a duration that does not fit the conversion panics.
def wholeNanos (duration : Duration) : Option U64 :=
  if duration < 2 ^ 64 then some (.ofNat 64 duration) else none

structure FixedTimestep where
  stepNanos        : U64
  stepNanos_pos    : 0 < stepNanos
  accumulatedNanos : U64
  maxFrameNanos    : U64
  maxSteps         : Option U32
  droppedNanos     : U64
  deriving DecidableEq

-- The steps which one advance pays for.
structure Steps where
  remaining : U32
  step      : Duration
  deriving DecidableEq, Repr

namespace Steps

def next (s : Steps) : Option (Duration × Steps) :=
  if s.remaining = 0 then none else some (s.step, { s with remaining := s.remaining - 1 })

-- What the iterator yields.
def items (s : Steps) : List Duration :=
  .replicate s.remaining.toNat s.step

end Steps

namespace FixedTimestep

def defaultMaxFrame : Duration := 250000000

-- For a step of zero the constructor panics.
def fromStep (step : Duration) : Option FixedTimestep := do
  let stepNanos ← wholeNanos step
  let maxFrameNanos ← wholeNanos defaultMaxFrame
  if h : 0 < stepNanos then
    some {
      stepNanos
      stepNanos_pos    := h
      accumulatedNanos := 0
      maxFrameNanos
      maxSteps         := none
      droppedNanos     := 0
    }
  else
    none

def fromStepMs (stepMs : U64) : Option FixedTimestep :=
  fromStep (.fromMillis stepMs)

def withMaxFrameMs (t : FixedTimestep) (maxFrameMs : U64) : Option FixedTimestep :=
  (wholeNanos (.fromMillis maxFrameMs)).map fun maxFrameNanos => { t with maxFrameNanos }

def withMaxSteps (t : FixedTimestep) (maxSteps : U32) : FixedTimestep :=
  { t with maxSteps := some maxSteps }

-- What is dropped once the time beyond the longest frame is.
def clamped (o : Overflow) (t : FixedTimestep) (elapsedNanos : U64) : Option U64 :=
  if t.maxFrameNanos < elapsedNanos then
    (U64.sub o elapsedNanos t.maxFrameNanos).bind (U64.add o t.droppedNanos ·)
  else
    some t.droppedNanos

-- Drops what is still owed beyond the steps that one advance may report.
def capped (o : Overflow) (t : FixedTimestep) (count : U64) : Option (FixedTimestep × U64) :=
  match t.maxSteps with
  | none     => some (t, count)
  | some cap =>
    let cap := cap.setWidth 64
    if cap < count then do
      let left ← U64.sub o count cap
      let owed ← U64.mul o left t.stepNanos
      let owed ← U64.add o owed t.accumulatedNanos
      let droppedNanos ← U64.add o t.droppedNanos owed
      some ({ t with droppedNanos, accumulatedNanos := 0 }, cap)
    else
      some (t, count)

def advance (o : Overflow) (t : FixedTimestep) (elapsedMs : U64) : Option (FixedTimestep × Steps) := do
  let elapsedNanos := U64.saturatingMul elapsedMs 1000000
  let droppedNanos ← clamped o t elapsedNanos
  let accumulatedNanos ← U64.add o t.accumulatedNanos (U64.lesser elapsedNanos t.maxFrameNanos)
  let count := accumulatedNanos / t.stepNanos
  let spent ← U64.mul o count t.stepNanos
  let accumulatedNanos ← U64.sub o accumulatedNanos spent
  let (t, count) ← capped o { t with droppedNanos, accumulatedNanos } count
  some (t, { remaining := count.setWidth 32, step := t.stepNanos.toNat })

-- For a step of zero the change panics.
def setStep (t : FixedTimestep) (step : Duration) : Option FixedTimestep := do
  let stepNanos ← wholeNanos step
  if h : 0 < stepNanos then some { t with stepNanos, stepNanos_pos := h } else none

def setStepMs (t : FixedTimestep) (stepMs : U64) : Option FixedTimestep :=
  t.setStep (.fromMillis stepMs)

end FixedTimestep
end Plaza.ClientUtils
