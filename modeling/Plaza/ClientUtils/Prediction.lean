import Mathlib.Algebra.Order.Field.Basic
import Mathlib.Order.Lattice
import Plaza.Lib.Execution

namespace Plaza.ClientUtils

-- An input that was sent, with the predicted state it was applied to.
structure BufferedInput (ι σ : Type*) where
  sequenceNumber         : Nat
  op                     : ι
  stateBeforeOpPredicted : σ
  deriving DecidableEq, Repr

-- The inputs which the server has not acknowledged, oldest first.
structure ClientInputBuffer (ι σ : Type*) where
  inputs           : List (BufferedInput ι σ)
  maxSize          : Nat
  maxSize_pos      : 0 < maxSize
  overflowed       : Nat
  predictedThrough : Nat

namespace ClientInputBuffer

variable {ι σ : Type*}

-- For a size of zero the constructor panics.
def new (maxSize : Nat) (h : 0 < maxSize) : ClientInputBuffer ι σ where
  inputs           := []
  maxSize          := maxSize
  maxSize_pos      := h
  overflowed       := 0
  predictedThrough := 0

-- A full buffer discards its oldest input.
def recordInput (b : ClientInputBuffer ι σ) (sequenceNumber : Nat) (op : ι) (stateBeforeOpPredicted : σ) :
    ClientInputBuffer ι σ :=
  let buffered := { sequenceNumber, op, stateBeforeOpPredicted }
  if b.inputs.length = b.maxSize then
    { b with inputs := b.inputs.tail ++ [buffered], overflowed := b.overflowed + 1 }
  else
    { b with inputs := b.inputs ++ [buffered] }

def acknowledgeInputsUpTo (b : ClientInputBuffer ι σ) (ack : Nat) : ClientInputBuffer ι σ :=
  { b with inputs := b.inputs.dropWhile (·.sequenceNumber ≤ ack) }

def getUnacknowledgedInputs (b : ClientInputBuffer ι σ) (lastAcknowledged : Nat) : List (BufferedInput ι σ) :=
  match b.inputs.findIdx? (lastAcknowledged < ·.sequenceNumber) with
  | some idx => b.inputs.drop idx
  | none     => []

-- The same inputs, each with whether it is handed out for the first time.
def unacknowledgedWithPass (b : ClientInputBuffer ι σ) (lastAcknowledged : Nat) :
    ClientInputBuffer ι σ × List (BufferedInput ι σ × Bool) :=
  let through := b.predictedThrough
  let b := { b with predictedThrough := b.inputs.getLast?.elim through (max through ·.sequenceNumber) }
  (b, (b.getUnacknowledgedInputs lastAcknowledged).map fun buffered => (buffered, through < buffered.sequenceNumber))

def getPredictedStateBeforeInput (b : ClientInputBuffer ι σ) (sequenceNumber : Nat) : Option σ :=
  (b.inputs.find? (·.sequenceNumber = sequenceNumber)).map (·.stateBeforeOpPredicted)

def clear (b : ClientInputBuffer ι σ) : ClientInputBuffer ι σ :=
  { b with inputs := [] }

end ClientInputBuffer

-- An entity whose state the client predicts.
structure PredictedEntity (σ : Type*) where
  currentPredictedState          : σ
  lastAuthoritativeState         : σ
  lastServerAcknowledgedInputSeq : Nat
  deriving DecidableEq, Repr

namespace PredictedEntity

variable {ι σ : Type*}

def new (initial : σ) : PredictedEntity σ where
  currentPredictedState          := initial
  lastAuthoritativeState         := initial
  lastServerAcknowledgedInputSeq := 0

def applyLocalInputAndPredict (e : PredictedEntity σ) (apply : σ → ι → σ) (op : ι) (sequenceNumber : Nat)
    (b : ClientInputBuffer ι σ) : PredictedEntity σ × ClientInputBuffer ι σ :=
  ({ e with currentPredictedState := apply e.currentPredictedState op },
   b.recordInput sequenceNumber op e.currentPredictedState)

-- What the server has not seen yet is replayed over its state.
def reconcileWithServerState (e : PredictedEntity σ) (apply : σ → ι → σ) (authoritative : σ) (ack : Nat)
    (b : ClientInputBuffer ι σ) : PredictedEntity σ × ClientInputBuffer ι σ :=
  let b := b.acknowledgeInputsUpTo ack
  let replayed := (b.getUnacknowledgedInputs ack).foldl (fun s buffered => apply s buffered.op) authoritative
  ({ e with
    currentPredictedState          := replayed
    lastAuthoritativeState         := authoritative
    lastServerAcknowledgedInputSeq := ack }, b)

end PredictedEntity

-- Eases what is drawn from the state before a correction to the one after. Reals stand for the floats.
structure ErrorSmoother (σ K : Type*) where
  start    : Option σ
  elapsed  : K
  duration : K
  easing   : K → K

namespace ErrorSmoother

variable {σ K : Type*} [Field K] [LinearOrder K]

def new (duration : K) (easing : K → K) : ErrorSmoother σ K where
  start    := none
  elapsed  := 0
  duration := max duration 0
  easing   := easing

def beginFrom (s : ErrorSmoother σ K) (rendered : σ) : ErrorSmoother σ K :=
  if s.duration ≤ 0 then { s with start := none } else { s with start := some rendered, elapsed := 0 }

def advance (s : ErrorSmoother σ K) (dt : K) : ErrorSmoother σ K :=
  match s.start with
  | none   => s
  | some _ =>
    let elapsed := s.elapsed + dt
    if s.duration ≤ elapsed then { s with elapsed, start := none } else { s with elapsed }

def sample (s : ErrorSmoother σ K) (logical : σ) (lerp : σ → σ → K → σ) : σ :=
  match s.start with
  | some start =>
    if 0 < s.duration then
      lerp start logical <| s.easing <| max 0 (min (s.elapsed / s.duration) 1)
    else
      logical
  | none => logical

def reset (s : ErrorSmoother σ K) : ErrorSmoother σ K :=
  { s with start := none, elapsed := 0 }

end ErrorSmoother

-- What was drawn before a correction, and the state settled on.
structure Correction (σ : Type*) where
  seen    : σ
  settled : σ
  deriving DecidableEq, Repr

-- The local player. The rule and the blend are fixed when it is made.
structure PredictedPlayer (σ ι κ K : Type*) where
  predicted : PredictedEntity σ
  inputs    : ClientInputBuffer ι σ
  smoother  : ErrorSmoother σ K
  nextSeq   : Nat
  apply     : σ → ι → κ → σ
  lerp      : σ → σ → K → σ
  ctx       : κ
  active    : Bool

namespace PredictedPlayer

variable {σ ι κ K : Type*} [Field K] [LinearOrder K]

def new (initial : σ) (inputBuffer : Nat) (h : 0 < inputBuffer) (smoothing : K) (easing : K → K)
    (apply : σ → ι → κ → σ) (lerp : σ → σ → K → σ) (ctx : κ) : PredictedPlayer σ ι κ K where
  predicted := .new initial
  inputs    := .new inputBuffer h
  smoother  := .new smoothing easing
  nextSeq   := 0
  apply     := apply
  lerp      := lerp
  ctx       := ctx
  active    := true

def setContext (p : PredictedPlayer σ ι κ K) (ctx : κ) : PredictedPlayer σ ι κ K :=
  { p with ctx }

def setActive (p : PredictedPlayer σ ι κ K) (active : Bool) : PredictedPlayer σ ι κ K :=
  { p with active }

def teleport (p : PredictedPlayer σ ι κ K) (state : σ) : PredictedPlayer σ ι κ K :=
  { p with
    predicted := { p.predicted with currentPredictedState := state, lastAuthoritativeState := state }
    inputs    := p.inputs.clear
    smoother  := p.smoother.reset }

-- While the player is frozen an input is numbered, but not predicted.
def input (p : PredictedPlayer σ ι κ K) (input : ι) : PredictedPlayer σ ι κ K × Nat :=
  let seq := p.nextSeq + 1
  if !p.active then
    ({ p with nextSeq := seq }, seq)
  else
    let (predicted, inputs) := p.predicted.applyLocalInputAndPredict (p.apply · · p.ctx) input seq p.inputs
    ({ p with nextSeq := seq, predicted, inputs }, seq)

def render (p : PredictedPlayer σ ι κ K) : σ :=
  p.smoother.sample p.predicted.currentPredictedState p.lerp

def reconcile (p : PredictedPlayer σ ι κ K) (authoritative : σ) (acked : Nat) :
    PredictedPlayer σ ι κ K × Correction σ :=
  let seen := p.render
  let (predicted, inputs) :=
    if p.active then
      p.predicted.reconcileWithServerState (p.apply · · p.ctx) authoritative acked p.inputs
    else
      ({ currentPredictedState          := authoritative
         lastAuthoritativeState         := authoritative
         lastServerAcknowledgedInputSeq := acked }, p.inputs.clear)
  ({ p with predicted, inputs, smoother := p.smoother.beginFrom seen },
   { seen, settled := predicted.currentPredictedState })

def advance (p : PredictedPlayer σ ι κ K) (dt : K) : PredictedPlayer σ ι κ K :=
  { p with smoother := p.smoother.advance dt }

def logical (p : PredictedPlayer σ ι κ K) : σ :=
  p.predicted.currentPredictedState

def authoritative (p : PredictedPlayer σ ι κ K) : σ :=
  p.predicted.lastAuthoritativeState

def ackedSeq (p : PredictedPlayer σ ι κ K) : Nat :=
  p.predicted.lastServerAcknowledgedInputSeq

def unackedCount (p : PredictedPlayer σ ι κ K) : Nat :=
  (p.inputs.getUnacknowledgedInputs p.ackedSeq).length

end PredictedPlayer
end Plaza.ClientUtils
