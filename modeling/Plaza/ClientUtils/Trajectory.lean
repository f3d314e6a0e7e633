import Mathlib.Algebra.Order.Field.Basic
import Plaza.Lib.Rust

open Rust

namespace Plaza.ClientUtils

-- The last samples of one scalar, three at most and the newest last.
structure TrajectoryPredictor (K : Type*) where
  samples      : List (U64 × K)
  damping      : K
  maxHorizonMs : U64
  deriving DecidableEq

namespace TrajectoryPredictor

variable {K : Type*} [Field K] [LinearOrder K]

def new (damping : K) (maxHorizonMs : U64) : TrajectoryPredictor K where
  samples      := []
  damping      := max 0 (min damping 1)
  maxHorizonMs := maxHorizonMs

-- A straggler is ignored.
def observe (p : TrajectoryPredictor K) (timeMs : U64) (value : K) : TrajectoryPredictor K :=
  if p.samples.getLast?.any (timeMs ≤ ·.fst) then
    p
  else if p.samples.length = 3 then
    { p with samples := p.samples.tail ++ [(timeMs, value)] }
  else
    { p with samples := p.samples ++ [(timeMs, value)] }

-- The time in seconds between two words, the first of which is not the later one.
def seconds (since upTo : U64) : K :=
  (upTo.toNat - since.toNat : Nat) / (1000 : Nat)

-- From the newest pair.
def velocity (p : TrajectoryPredictor K) : Option K :=
  match p.samples.reverse with
  | (tⱼ, vⱼ) :: (tᵢ, vᵢ) :: _ =>
    let dt : K := seconds tᵢ tⱼ
    if 0 < dt then some ((vⱼ - vᵢ) / dt) else none
  | _ => none

-- The change of the rate between the two intervals, the rates being those in the middle of these.
def acceleration (p : TrajectoryPredictor K) : Option K :=
  match p.samples with
  | [(t₀, v₀), (t₁, v₁), (t₂, v₂)] =>
    let dtOld : K := seconds t₀ t₁
    let dtNew : K := seconds t₁ t₂
    if dtOld ≤ 0 ∨ dtNew ≤ 0 then
      none
    else
      let vOld := (v₁ - v₀) / dtOld
      let vNew := (v₂ - v₁) / dtNew
      let span := (dtOld + dtNew) * (1 / (2 : Nat))
      some ((vNew - vOld) / span)
  | _ => none

-- Only forward the time is cut off.
def predict (p : TrajectoryPredictor K) (timeMs : U64) : Option K :=
  match p.samples.getLast? with
  | none => none
  | some (newest, base) =>
    let target := U64.lesser timeMs (U64.saturatingAdd newest p.maxHorizonMs)
    let dt : K := if newest ≤ target then seconds newest target else -seconds target newest
    let v := p.velocity.getD 0
    let a := p.acceleration.getD 0 * p.damping
    some (base + v * dt + 1 / (2 : Nat) * a * dt * dt)

def observeAll (p : TrajectoryPredictor K) (samples : List (U64 × K)) : TrajectoryPredictor K :=
  samples.foldl (fun p s => p.observe s.fst s.snd) p

end TrajectoryPredictor
end Plaza.ClientUtils
