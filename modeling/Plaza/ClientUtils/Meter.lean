import Mathlib.Algebra.BigOperators.Fin
import Mathlib.Algebra.Order.Field.Basic

namespace Plaza.ClientUtils

-- A running total, its sample count, and the clock that it accrued over.
structure RateMeter where
  total         : Nat
  samples       : Nat
  elapsedMs     : Nat
  bucketTotal   : Fin 16 → Nat
  bucketSamples : Fin 16 → Nat
  head          : Nat
  startedMs     : Option Nat
  deriving DecidableEq

namespace RateMeter

abbrev buckets : Nat :=
  16

abbrev bucketMs : Nat :=
  500

def new : RateMeter where
  total         := 0
  samples       := 0
  elapsedMs     := 0
  bucketTotal   := fun _ => 0
  bucketSamples := fun _ => 0
  head          := 0
  startedMs     := none

def slot (bucket : Nat) : Fin buckets :=
  Fin.ofNat buckets bucket

def add (m : RateMeter) (amount : Nat) : RateMeter := {
  m with
  total         := m.total + amount
  samples       := m.samples + 1
  bucketTotal   := Function.update m.bucketTotal (slot m.head) (m.bucketTotal (slot m.head) + amount)
  bucketSamples := Function.update m.bucketSamples (slot m.head) (m.bucketSamples (slot m.head) + 1)
}

def addEmpty (m : RateMeter) : RateMeter :=
  m.add 0

-- Forgets a bucket that the ring is about to reuse.
def clear (m : RateMeter) (slot : Fin buckets) : RateMeter := {
  m with
  bucketTotal   := Function.update m.bucketTotal slot 0
  bucketSamples := Function.update m.bucketSamples slot 0
}

def elapsed (m : RateMeter) (elapsedMs : Nat) : RateMeter :=
  let m := { m with startedMs := some (m.startedMs.getD elapsedMs) }
  let want := elapsedMs / bucketMs
  let m :=
    if m.head < want then
      let advance := min (want - m.head) buckets
      let slots := (List.range' 1 advance).map fun step => slot (m.head + step)
      { slots.foldl clear m with head := want }
    else
      m
  { m with elapsedMs }

-- From the start of the oldest bucket that is still held to now.
def windowSpanMs (m : RateMeter) : Nat :=
  let oldestStart := (m.head + 1 - buckets) * bucketMs
  m.elapsedMs - oldestStart

def recent (m : RateMeter) : Nat :=
  ∑ i, m.bucketTotal i

def runningMs (m : RateMeter) : Nat :=
  m.elapsedMs - m.startedMs.getD 0

def reset (_ : RateMeter) : RateMeter :=
  new

variable {K : Type} [Field K]

-- An amount over so many milliseconds, in a second. Over none it is zero.
def rate (amount spanMs : Nat) : K :=
  if spanMs = 0 then 0 else amount / ((spanMs : K) / (1000 : Nat))

def perSec (m : RateMeter) : K :=
  rate m.recent m.windowSpanMs

def lifetimePerSec (m : RateMeter) : K :=
  rate m.total m.runningMs

def mean (m : RateMeter) : K :=
  let samples := ∑ i, m.bucketSamples i
  if samples = 0 then 0 else m.recent / samples

def shareOf (m whole : RateMeter) : K :=
  if whole.total = 0 then 0 else m.total / whole.total

end RateMeter
end Plaza.ClientUtils
