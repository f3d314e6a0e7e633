import Plaza.ClientUtils.Interpolation
import Plaza.Lib.Execution

namespace Plaza.Flutter

open ClientUtils (ServerSnapshot)

-- A snapshot is the same record as in the original.
structure SnapshotBuffer (σ : Type*) where
  snapshots : List (ServerSnapshot σ)
  maxSize   : Nat
  deriving DecidableEq, Repr

namespace SnapshotBuffer

variable {σ : Type*}

def new (maxSize : Nat) : Option (SnapshotBuffer σ) :=
  if maxSize < 2 then none else some { snapshots := [], maxSize }

-- The search for the place of a snapshot, which starts from the end.
def place (l : List (ServerSnapshot σ)) (timestampMs : Nat) : Nat → Nat
  | 0     => 0
  | i + 1 => if l[i]?.any (timestampMs < ·.serverTimestamp) then place l timestampMs i else i + 1

-- A duplicate timestamp replaces the earlier state.
def add (b : SnapshotBuffer σ) (timestampMs : Nat) (state : σ) : SnapshotBuffer σ :=
  let snap := { serverTimestamp := timestampMs, state }
  let i := place b.snapshots timestampMs b.snapshots.length
  let added :=
    if 0 < i && b.snapshots[i - 1]?.any (·.serverTimestamp = timestampMs) then
      b.snapshots.set (i - 1) snap
    else
      b.snapshots.insertIdx i snap
  { b with snapshots := added.drop (added.length - b.maxSize) }

def blend (lerp : σ → σ → ℚ → σ) (a b : ServerSnapshot σ) (targetMs : Nat) : σ :=
  let span := b.serverTimestamp - a.serverTimestamp
  if span = 0 then b.state else lerp a.state b.state ((targetMs - a.serverTimestamp : Nat) / span)

-- The loop of `at`, over the pairs of neighbours.
def bracket (lerp : σ → σ → ℚ → σ) (targetMs : Nat) : List (ServerSnapshot σ) → Option σ
  | a :: b :: l =>
    if a.serverTimestamp ≤ targetMs && targetMs ≤ b.serverTimestamp then
      some <| blend lerp a b targetMs
    else
      bracket lerp targetMs (b :: l)
  | _ => none

-- Outside the buffer the nearest end counts.
def «at» (b : SnapshotBuffer σ) (lerp : σ → σ → ℚ → σ) (targetMs : Nat) : Option σ :=
  match b.snapshots.head?, b.snapshots.getLast? with
  | some first, some last =>
    if b.snapshots.length = 1 then some first.state
    else if targetMs ≤ first.serverTimestamp then some first.state
    else if last.serverTimestamp ≤ targetMs then some last.state
    else bracket lerp targetMs b.snapshots |>.getD last.state
  | _, _ => none

end SnapshotBuffer
end Plaza.Flutter

namespace Plaza

-- The calls to a buffer.
inductive Snapshots.Call (σ : Type*)
  | add (timestamp : Nat) (state : σ)
  | «at» (target : Nat)

variable {σ : Type*}

-- What can be seen of a buffer after a call: the samples it holds, and the state it was asked for.
abbrev Snapshots.View (σ : Type*) := List (ClientUtils.ServerSnapshot σ) × Option σ

-- The blend does not look at the timestamps of the two states.
def ClientUtils.SnapshotBuffer.object (lerp : σ → σ → ℚ → σ) :
    Object (SnapshotBuffer σ) (Snapshots.Call σ) (Snapshots.View σ) where
  call b
    | .add t s => (b.addSnapshot t s, (b.addSnapshot t s).snapshots, none)
    | .at t    => (b, b.snapshots, b.getInterpolatedState (fun a b t _ _ => lerp a b t) t)

def Flutter.SnapshotBuffer.object (lerp : σ → σ → ℚ → σ) :
    Object (SnapshotBuffer σ) (Snapshots.Call σ) (Snapshots.View σ) where
  call b
    | .add t s => (b.add t s, (b.add t s).snapshots, none)
    | .at t    => (b, b.snapshots, b.at lerp t)

-- No sample is added for a timestamp which the buffer holds.
def ClientUtils.SnapshotBuffer.Distinct (b : SnapshotBuffer σ) : Snapshots.Call σ → Prop
  | .add t _ => ∀ s ∈ b.snapshots, s.serverTimestamp ≠ t
  | .at _    => True

end Plaza
