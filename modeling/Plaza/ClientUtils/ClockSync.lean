import Mathlib.Algebra.Order.Field.Basic

namespace Plaza.ClientUtils

-- What the other clock was ahead by, and when.
structure ClockSample (K : Type*) where
  localTime : K
  offset    : K
  deriving DecidableEq, Repr

-- The latest samples, the oldest first.
structure ClockSyncEstimator (K : Type*) where
  window   : List (ClockSample K)
  capacity : Nat
  deriving DecidableEq, Repr

namespace ClockSyncEstimator

variable {K : Type*} [Field K] [LinearOrder K]

-- It takes two samples to draw a line; for a smaller window the constructor panics.
def new (window : Nat) : Option (ClockSyncEstimator K) :=
  if window < 2 then none else some { window := [], capacity := window }

def observe (e : ClockSyncEstimator K) (localTime offset : K) : ClockSyncEstimator K :=
  let window := if e.window.length = e.capacity then e.window.tail else e.window
  { e with window := window ++ [{ localTime, offset }] }

-- The offset is that of the middle of the exchange, but it counts for its end.
def observeExchange (e : ClockSyncEstimator K) (localSend remoteRecv localRecv : K) : ClockSyncEstimator K :=
  let offset := remoteRecv - (localSend + localRecv) / (2 : Nat)
  e.observe localRecv offset

-- The least spread of times for which a slope is worked out.
def degenerate : K :=
  1 / (1000000000 : Nat)

def fit (e : ClockSyncEstimator K) : Option (K × K × K) :=
  let n := e.window.length
  if n < 2 then
    none
  else
    let meanX := (e.window.map (·.localTime)).sum / n
    let meanY := (e.window.map (·.offset)).sum / n
    let (sxy, sxx) := e.window.foldl (fun (sxy, sxx) s =>
      let dx := s.localTime - meanX
      (sxy + dx * (s.offset - meanY), sxx + dx * dx)) (0, 0)
    let skew := if degenerate < sxx then sxy / sxx else 0
    some (meanX, meanY, skew)

def offsetAt (e : ClockSyncEstimator K) (localTime : K) : Option K :=
  match e.fit with
  | some (meanX, meanY, skew) => some (meanY + skew * (localTime - meanX))
  | none                      => e.window.getLast?.map (·.offset)

def serverTimeAt (e : ClockSyncEstimator K) (localTime : K) : Option K :=
  (e.offsetAt localTime).map (localTime + ·)

def skew (e : ClockSyncEstimator K) : K :=
  (e.fit.map (·.snd.snd)).getD 0

def clear (e : ClockSyncEstimator K) : ClockSyncEstimator K :=
  { e with window := [] }

inductive Op (K : Type*)
  | observe (localTime offset : K)
  | observeExchange (localSend remoteRecv localRecv : K)
  | clear
  deriving DecidableEq, Repr

def apply (e : ClockSyncEstimator K) : Op K → ClockSyncEstimator K
  | .observe localTime offset                        => e.observe localTime offset
  | .observeExchange localSend remoteRecv localRecv => e.observeExchange localSend remoteRecv localRecv
  | .clear                                           => e.clear

def run (e : ClockSyncEstimator K) (ops : List (Op K)) : ClockSyncEstimator K :=
  ops.foldl apply e

end ClockSyncEstimator
end Plaza.ClientUtils
