import Mathlib.Algebra.Order.Field.Rat
import Mathlib.Data.List.InsertIdx
import Plaza.Lib.FloatGrid

open Rust

namespace Plaza.ClientUtils

structure ServerSnapshot (σ : Type*) where
  serverTimestamp : Nat
  state           : σ
  deriving DecidableEq, Repr

-- A short history of the snapshots received for a remote entity, the oldest first.
structure SnapshotBuffer (σ : Type*) where
  snapshots     : List (ServerSnapshot σ)
  maxBufferSize : Nat
  deriving DecidableEq, Repr

namespace SnapshotBuffer

variable {σ : Type*}

-- It takes two snapshots to interpolate between; for fewer the constructor panics.
def new (maxBufferSize : Nat) : Option (SnapshotBuffer σ) :=
  if maxBufferSize < 2 then none else some { snapshots := [], maxBufferSize }

-- The first index at which `p` ends to hold, for a list which starts with all the elements it holds for.
def partitionPoint (p : ServerSnapshot σ → Bool) (l : List (ServerSnapshot σ)) : Nat :=
  l.findIdx (!p ·)

def addSnapshot (b : SnapshotBuffer σ) (serverTimestamp : Nat) (state : σ) : SnapshotBuffer σ :=
  let new := { serverTimestamp, state }
  let inserted :=
    if b.snapshots.getLast?.all (·.serverTimestamp ≤ serverTimestamp) then
      b.snapshots ++ [new]
    else
      b.snapshots.insertIdx (partitionPoint (·.serverTimestamp < serverTimestamp) b.snapshots) new
  { b with snapshots := inserted.drop (inserted.length - b.maxBufferSize) }

-- The state between two snapshots. The conversion to a float is taken to be exact.
def blend (interpolate : σ → σ → ℚ → Nat → Nat → σ) (before after : ServerSnapshot σ) (target : Nat) : σ :=
  let timeBMinusA : ℚ := (after.serverTimestamp - before.serverTimestamp : Nat)
  let targetMinusA : ℚ := (target - before.serverTimestamp : Nat)
  if |timeBMinusA| < 1 / 1000000000 then
    before.state
  else
    let t := targetMinusA / timeBMinusA
    let tClamped := max 0 (min t 1)
    interpolate before.state after.state tClamped before.serverTimestamp after.serverTimestamp

def getInterpolatedState (b : SnapshotBuffer σ) (interpolate : σ → σ → ℚ → Nat → Nat → σ) (target : Nat) :
    Option σ :=
  match b.snapshots.head?, b.snapshots.getLast? with
  | some oldest, some newest =>
    if b.snapshots.length = 1 then
      some oldest.state
    else if target ≤ oldest.serverTimestamp then
      some oldest.state
    else if newest.serverTimestamp ≤ target then
      some newest.state
    else
      let idxAfter := partitionPoint (·.serverTimestamp < target) b.snapshots
      if idxAfter = 0 then
        some newest.state
      else
        match b.snapshots[idxAfter - 1]?, b.snapshots[idxAfter]? with
        | some before, some after => some <| blend interpolate before after target
        | _,           _          => some newest.state
  | _, _ => none

def latestTimestamp (b : SnapshotBuffer σ) : Option Nat :=
  b.snapshots.getLast?.map (·.serverTimestamp)

end SnapshotBuffer

-- What dead reckoning starts from.
structure ExtrapolationBase (σ ν : Type*) where
  state               : σ
  velocity            : ν
  serverTimestamp     : Nat
  clientReceiptTimeMs : Nat
  overExtrapolations  : Nat
  deriving DecidableEq, Repr

namespace ExtrapolationBase

variable {σ ν δ : Type*}

def new (state : σ) (velocity : ν) (serverTimestamp clientReceiptTimeMs : Nat) : ExtrapolationBase σ ν where
  state               := state
  velocity            := velocity
  serverTimestamp     := serverTimestamp
  clientReceiptTimeMs := clientReceiptTimeMs
  overExtrapolations  := 0

-- The duration is cut off at the limit, and counted if it is.
def getExtrapolatedState (b : ExtrapolationBase σ ν) (extrapolate : σ → ν → δ → σ) (target maxMs : Nat)
    (convert : Nat → δ) : Option σ × ExtrapolationBase σ ν :=
  if target < b.clientReceiptTimeMs then
    (some b.state, b)
  else
    let sinceReceipt := target - b.clientReceiptTimeMs
    let capped := min sinceReceipt maxMs
    let counted := if maxMs < sinceReceipt then { b with overExtrapolations := b.overExtrapolations + 1 } else b
    (some <| extrapolate b.state b.velocity (convert capped), counted)

end ExtrapolationBase

structure RenderOpts where
  interpolate : Bool
  extrapolate : Bool
  deriving DecidableEq, Repr

-- What is seen of a remote entity. The newest sample is held a second time, with its velocity.
structure RemoteView (σ ν : Type*) where
  buffer             : SnapshotBuffer σ
  latest             : Option (Nat × σ × ν)
  maxExtrapolationMs : Nat
  overExtrapolations : Nat
  deriving DecidableEq, Repr

namespace RemoteView

variable {σ ν : Type*}

def new (bufferSize maxExtrapolationMs : Nat) : Option (RemoteView σ ν) :=
  (SnapshotBuffer.new bufferSize).map fun buffer =>
    { buffer, latest := none, maxExtrapolationMs, overExtrapolations := 0 }

-- A straggler goes into the buffer, but does not become the newest.
def push (v : RemoteView σ ν) (timeMs : Nat) (state : σ) (velocity : ν) : RemoteView σ ν :=
  { v with
    buffer := v.buffer.addSnapshot timeMs state
    latest := if v.latest.all (·.fst ≤ timeMs) then some (timeMs, state, velocity) else v.latest }

-- Only the count of the capped renders changes. The conversion to seconds is taken to be exact.
def render (v : RemoteView σ ν) (interpolate : σ → σ → ℚ → Nat → Nat → σ) (extrapolate : σ → ν → ℚ → σ)
    (target : Option Nat) (opts : RenderOpts) : Option σ × RemoteView σ ν :=
  match v.latest with
  | none => (none, v)
  | some (_, latestState, latestVel) =>
    if !opts.interpolate then
      (some latestState, v)
    else
      match target with
      | none   => (some latestState, v)
      | some t =>
        match v.buffer.latestTimestamp.filter fun newest => opts.extrapolate && newest < t with
        | some newest =>
          let base := ExtrapolationBase.new latestState latestVel newest newest
          let (state, base) :=
            base.getExtrapolatedState extrapolate t v.maxExtrapolationMs fun ms => (ms : ℚ) / (1000 : Nat)
          (some <| state.getD latestState,
            { v with overExtrapolations := v.overExtrapolations + base.overExtrapolations })
        | none => (some <| (v.buffer.getInterpolatedState interpolate t).getD latestState, v)

end RemoteView

-- The clock that the snapshots are drawn at, an estimate of the server's less a delay. The times are words.
structure InterpolationClock where
  now   : Option U64
  delay : U64
  rate  : F32

namespace InterpolationClock

def new (delay : U64) : InterpolationClock where
  now   := none
  delay := delay
  rate  := 1

-- Only the first time counts.
def observe (c : InterpolationClock) (serverTime : U64) : InterpolationClock :=
  if c.now.isNone then { c with now := some serverTime } else c

def advance (o : Overflow) (c : InterpolationClock) (dt : U64) : Option InterpolationClock :=
  match c.now with
  | some now => (U64.add o now dt).map fun now => { c with now := some now }
  | none     => some c

-- Moves the estimate toward the newest time, by a part of the way.
def resync (c : InterpolationClock) (newest : U64) (strength : F32) : InterpolationClock :=
  let strength := strength.clamp 0 1
  match c.now with
  | some now =>
    let corrected := F32.ofU64 now + (F32.ofU64 newest - F32.ofU64 now) * strength
    { c with now := some (F32.toU64 (max corrected 0)) }
  | none => { c with now := some newest }

-- Changes the speed instead.
def observeRate (c : InterpolationClock) (newest : U64) (maxRateAdjust : F32) : InterpolationClock :=
  let maxRateAdjust := maxRateAdjust.clamp 0 1
  match c.now with
  | none     => { c with now := some newest, rate := 1 }
  | some now =>
    let scale := max (F32.ofU64 c.delay) 1
    let error := F32.ofU64 newest - F32.ofU64 now
    let normalized := (error / scale).clamp (-1) 1
    { c with rate := 1 + maxRateAdjust * normalized }

def advanceScaled (o : Overflow) (c : InterpolationClock) (dt : U64) : Option InterpolationClock :=
  match c.now with
  | some now =>
    let scaled := F32.toU64 (F32.ofU64 dt * c.rate).round
    (U64.add o now scaled).map fun now => { c with now := some now }
  | none => some c

end InterpolationClock
end Plaza.ClientUtils
