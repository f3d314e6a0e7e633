import Mathlib.Algebra.Order.Field.Basic
import Mathlib.Order.Lattice
import Plaza.Lib.Execution

namespace Plaza.ClientUtils

-- A smoother for one noisy signal, which weights a measurement by how much it trusts what it has. Reals stand for the
-- floats.
structure ScalarKalman (K : Type*) where
  estimate         : K
  variance         : K
  processNoise     : K
  measurementNoise : K
  initialized      : Bool
  lastGain         : K
  deriving DecidableEq, Repr

namespace ScalarKalman

variable {K : Type*} [Field K] [LinearOrder K]

-- Keeps the gain finite.
def floorNoise (r : K) : K :=
  max r (1 / (1000000000 : Nat))

def new (processNoise measurementNoise : K) : ScalarKalman K where
  estimate         := 0
  variance         := 0
  processNoise     := max processNoise 0
  measurementNoise := floorNoise measurementNoise
  initialized      := false
  lastGain         := 0

def withInitial (f : ScalarKalman K) (estimate variance : K) : ScalarKalman K :=
  { f with estimate, variance := max variance 0, initialized := true }

-- The first measurement is taken as it is.
def observe (f : ScalarKalman K) (measurement : K) : ScalarKalman K :=
  if !f.initialized then
    { f with estimate := measurement, variance := f.measurementNoise, initialized := true, lastGain := 1 }
  else
    let variance := f.variance + f.processNoise
    let gain     := variance / (variance + f.measurementNoise)
    { f with
      estimate := f.estimate + gain * (measurement - f.estimate)
      variance := variance * (1 - gain)
      lastGain := gain }

def setProcessNoise (f : ScalarKalman K) (q : K) : ScalarKalman K :=
  { f with processNoise := max q 0 }

def setMeasurementNoise (f : ScalarKalman K) (r : K) : ScalarKalman K :=
  { f with measurementNoise := floorNoise r }

def reset (f : ScalarKalman K) : ScalarKalman K :=
  { f with initialized := false, variance := 0, lastGain := 0 }

-- What is done to a filter.
inductive Op (K : Type*)
  | withInitial (estimate variance : K)
  | observe (measurement : K)
  | setProcessNoise (q : K)
  | setMeasurementNoise (r : K)
  | reset

def machine : Machine (ScalarKalman K) (Op K) where
  step f
    | .withInitial estimate variance => some (f.withInitial estimate variance)
    | .observe measurement           => some (f.observe measurement)
    | .setProcessNoise q             => some (f.setProcessNoise q)
    | .setMeasurementNoise r         => some (f.setMeasurementNoise r)
    | .reset                         => some f.reset

end ScalarKalman
end Plaza.ClientUtils
