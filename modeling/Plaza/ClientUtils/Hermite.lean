import Mathlib.Algebra.Field.Basic
import Plaza.Lib.Ordered

namespace Plaza.ClientUtils

variable {K : Type}

-- One axis of a cubic Hermite spline. The velocities are per second, and the segment lasts so many of them.
def hermiteScalar [Field K] (p0 v0 p1 v1 t seconds : K) : K :=
  let two : K := (2 : Nat)
  let three : K := (3 : Nat)
  let t2 := t * t
  let t3 := t2 * t
  let h00 := two * t3 - three * t2 + 1
  let h10 := t3 - two * t2 + t
  let h01 := -two * t3 + three * t2
  let h11 := t3 - t2
  h00 * p0 + h10 * seconds * v0 + h01 * p1 + h11 * seconds * v1

-- States with a spline between any two of them. It goes from the first at 0 to the other at 1.
class HermiteInterpolatable (σ ν : Type) (K : outParam Type) where
  hermite (a b : σ) (velocityA velocityB : ν) (t seconds : K) : σ

structure Vec2 (K : Type) where
  x : K
  y : K
  deriving DecidableEq, Repr

structure Vec3 (K : Type) where
  x : K
  y : K
  z : K
  deriving DecidableEq, Repr

instance hermiteScalarInterpolatable [Field K] : HermiteInterpolatable K K K where
  hermite a b va vb t seconds := hermiteScalar a va b vb t seconds

instance hermiteVec2Interpolatable [Field K] : HermiteInterpolatable (Vec2 K) (Vec2 K) K where
  hermite a b va vb t seconds := {
    x := hermiteScalar a.x va.x b.x vb.x t seconds
    y := hermiteScalar a.y va.y b.y vb.y t seconds }

instance hermiteVec3Interpolatable [Field K] : HermiteInterpolatable (Vec3 K) (Vec3 K) K where
  hermite a b va vb t seconds := {
    x := hermiteScalar a.x va.x b.x vb.x t seconds
    y := hermiteScalar a.y va.y b.y vb.y t seconds
    z := hermiteScalar a.z va.z b.z vb.z t seconds }

structure HermiteSample (σ ν : Type) where
  timeMs   : Nat
  state    : σ
  velocity : ν
  deriving DecidableEq, Repr

-- Samples in the order of time, which are rendered with a spline.
structure HermiteView (σ ν : Type) where
  samples  : List (HermiteSample σ ν)
  capacity : Nat
  deriving DecidableEq, Repr

namespace HermiteView

variable {σ ν : Type}

-- A spline needs two samples to sit between. For fewer the constructor panics.
def new (capacity : Nat) : Option (HermiteView σ ν) :=
  if capacity < 2 then none else some { samples := [], capacity }

-- What comes out of order is inserted where it belongs.
def push (v : HermiteView σ ν) (timeMs : Nat) (state : σ) (velocity : ν) : HermiteView σ ν :=
  let samples := v.samples.insertBefore (·.timeMs < ·.timeMs) { timeMs, state, velocity }
  { v with samples := samples.drop (samples.length - v.capacity) }

-- The first two samples in a row with the target between them.
def bracket (targetMs : Nat) : List (HermiteSample σ ν) → Option (HermiteSample σ ν × HermiteSample σ ν)
  | a :: b :: rest =>
    if a.timeMs ≤ targetMs ∧ targetMs ≤ b.timeMs then some (a, b) else bracket targetMs (b :: rest)
  | _ => none

-- Outside of the samples either end is held. The conversions to a float are taken to be exact.
def render [Field K] [HermiteInterpolatable σ ν K] (v : HermiteView σ ν) (targetMs : Nat) : Option σ :=
  if v.samples.length = 1 then
    v.samples.head?.map (·.state)
  else
    match bracket targetMs v.samples with
    | none =>
      v.samples.head?.bind fun first =>
        if targetMs < first.timeMs then some first.state else v.samples.getLast?.map (·.state)
    | some (a, b) =>
      let span := b.timeMs - a.timeMs
      if span = 0 then
        some b.state
      else
        let t : K := ((targetMs - a.timeMs : Nat) : K) / (span : K)
        some <| HermiteInterpolatable.hermite a.state b.state a.velocity b.velocity t ((span : K) / (1000 : Nat))

def latest (v : HermiteView σ ν) : Option σ :=
  v.samples.getLast?.map (·.state)

def oldestTime (v : HermiteView σ ν) : Option Nat :=
  v.samples.head?.map (·.timeMs)

def latestTime (v : HermiteView σ ν) : Option Nat :=
  v.samples.getLast?.map (·.timeMs)

def clear (v : HermiteView σ ν) : HermiteView σ ν :=
  { v with samples := [] }

end HermiteView
end Plaza.ClientUtils
