import Mathlib.Algebra.Order.Field.Basic
import Mathlib.Order.Lattice

namespace Plaza.ClientUtils

-- A running picture of prediction errors, and a test for which of them are abnormal. Numbers are exact, and stand
-- for the floats.
structure CorrectionMonitor (K : Type*) where
  mean     : K
  var      : K
  alpha    : K
  sigma    : K
  floor    : K
  warmup   : Nat
  samples  : Nat
  outliers : Nat
  peak     : K
  deriving DecidableEq, Repr

namespace CorrectionMonitor

variable {K : Type*} [Field K] [LinearOrder K]

def new : CorrectionMonitor K where
  mean     := 0
  var      := 0
  alpha    := 3 / 100
  sigma    := 4
  floor    := 0
  warmup   := 32
  samples  := 0
  outliers := 0
  peak     := 0

def withWarmup (m : CorrectionMonitor K) (samples : Nat) : CorrectionMonitor K :=
  { m with warmup := samples }

def isWarmingUp (m : CorrectionMonitor K) : Bool :=
  m.samples < m.warmup

def withSmoothing (m : CorrectionMonitor K) (alpha : K) : CorrectionMonitor K :=
  { m with alpha := max 0 (min alpha 1) }

def withSigma (m : CorrectionMonitor K) (sigma : K) : CorrectionMonitor K :=
  { m with sigma := max sigma 0 }

def withFloor (m : CorrectionMonitor K) (floor : K) : CorrectionMonitor K :=
  { m with floor := max floor 0 }

-- The square root comes from the library for floats.
variable (sqrt : K → K)

-- Never below the floor.
def band (m : CorrectionMonitor K) : K :=
  max (m.sigma * sqrt (max m.var 0)) m.floor

def threshold (m : CorrectionMonitor K) : K :=
  m.mean + m.band sqrt

-- Takes a sample into the baseline, and answers whether it is abnormal. It is cut off at the threshold once the
-- baseline is there, and until then it weighs as much as each one before it. No magnitude stands for one which is
-- not finite.
def record (m : CorrectionMonitor K) : Option K → CorrectionMonitor K × Bool
  | none           => (m, false)
  | some magnitude =>
    let magnitude := max magnitude 0
    let abnormal  := !m.isWarmingUp && m.threshold sqrt < magnitude
    let alpha     := if m.isWarmingUp then max m.alpha (1 / (m.samples + 1)) else m.alpha
    let sample    := if m.isWarmingUp then magnitude else min magnitude (m.threshold sqrt)
    let delta     := sample - m.mean
    ({ m with
      mean     := m.mean + alpha * delta
      var      := m.var + alpha * (delta * delta - m.var)
      samples  := m.samples + 1
      outliers := if abnormal then m.outliers + 1 else m.outliers
      peak     := max m.peak magnitude }, abnormal)

def isAbnormal (m : CorrectionMonitor K) (magnitude : K) : Bool :=
  !m.isWarmingUp && m.threshold sqrt < magnitude

def norm (m : CorrectionMonitor K) : K :=
  m.mean

def counts (m : CorrectionMonitor K) : Nat × Nat :=
  (m.samples, m.outliers)

def reset (m : CorrectionMonitor K) : CorrectionMonitor K :=
  { (new : CorrectionMonitor K) with
    alpha  := m.alpha
    sigma  := m.sigma
    floor  := m.floor
    warmup := m.warmup }

end CorrectionMonitor
end Plaza.ClientUtils
