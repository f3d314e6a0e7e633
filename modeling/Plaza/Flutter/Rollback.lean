import Plaza.ClientUtils.Rollback
import Plaza.Lib.Execution
import Plaza.Lib.Window

namespace Plaza.Flutter

open ClientUtils (RollbackConfig repeatLastInput)

-- A slot holds null until it is written. As long as frames have less than 63 bits, none of the sums overflows.
structure StateHistory (σ : Type*) where
  ring   : RingBuffer (Option σ)
  resets : Nat

namespace StateHistory

variable {σ : Type*}

def new (capacity : Nat) (h : 0 < capacity) : StateHistory σ where
  ring   := .new capacity none h
  resets := 0

def save (h : StateHistory σ) (frame : Nat) (state : σ) : StateHistory σ :=
  if h.ring.len = 0 then
    { h with ring := h.ring.first frame state }
  else if frame = h.ring.base + h.ring.len then
    { h with ring := h.ring.push state }
  else if h.ring.base ≤ frame ∧ frame < h.ring.base + h.ring.len then
    { h with ring := h.ring.set frame state }
  else
    { ring := h.ring.restart frame state, resets := h.resets + 1 }

def restore (h : StateHistory σ) (frame : Nat) : Option σ :=
  (h.ring.get? frame).join

def oldestFrame (h : StateHistory σ) : Option Nat :=
  if h.ring.len = 0 then none else some h.ring.base

end StateHistory

-- Null in a slot inside the window is a gap.
structure InputTimeline (ι : Type*) where
  ring          : RingBuffer (Option ι)
  lastConfirmed : Option Nat

namespace InputTimeline

variable {ι : Type*}

def new (capacity : Nat) (h : 0 < capacity) : InputTimeline ι where
  ring          := .new capacity none h
  lastConfirmed := none

-- The slots after a confirmation. A jump that is wider than the window skips the gap.
def confirmed (t : InputTimeline ι) (frame : Nat) (input : ι) : RingBuffer (Option ι) :=
  let «end» := t.ring.base + t.ring.len
  if t.ring.len = 0 then
    t.ring.first frame input
  else if frame < «end» then
    t.ring.set frame input
  else
    let gap := frame - «end»
    if t.ring.slots.length ≤ gap + 1 then
      t.ring.jump frame input none
    else
      ((·.push none)^[gap] t.ring).push input

def confirm (t : InputTimeline ι) (frame : Nat) (input : ι) : InputTimeline ι :=
  if t.ring.len ≠ 0 ∧ frame < t.ring.base then
    t
  else
    let lastConfirmed := some <| t.lastConfirmed.elim frame fun last => if last < frame then frame else last
    { ring := t.confirmed frame input, lastConfirmed }

def confirmedAt (t : InputTimeline ι) (frame : Nat) : Option ι :=
  (t.ring.get? frame).join

-- The loop of `lastConfirmedAtOrBefore`, from `base + i` down.
def scan (t : InputTimeline ι) : Nat → Option ι
  | 0     => (t.ring.slots[t.ring.slot 0]?).join
  | i + 1 => (t.ring.slots[t.ring.slot (i + 1)]?).join <|> t.scan i

def lastConfirmedAtOrBefore (t : InputTimeline ι) (frame : Nat) : Option ι :=
  if t.ring.len = 0 ∨ frame < t.ring.base then none
  else
    let newest := t.ring.base + t.ring.len - 1
    t.scan ((if frame < newest then frame else newest) - t.ring.base)

end InputTimeline

structure RollbackSession (σ ι : Type*) (n : Nat) where
  stateHistory      : StateHistory σ
  used              : Fin n → StateHistory ι
  timelines         : Fin n → InputTimeline ι
  neutral           : Fin n → ι
  currentState      : σ
  headFrame         : Nat
  advance           : σ → (Fin n → ι) → σ
  predictor         : Option (ι → Nat → ι)
  rollbackEnabled   : Bool
  earliestIncorrect : Option Nat
  lastRollbackLen   : Nat
  maxRollbackLen    : Nat
  rollbackCount     : Nat

namespace RollbackSession

variable {σ ι : Type*} {n : Nat}

def capacityOf (config : RollbackConfig) : Nat :=
  if config.maxRollbackFrames < 1 then 1 else config.maxRollbackFrames

theorem capacityOf_pos (config : RollbackConfig) : 0 < capacityOf config := by
  unfold capacityOf
  split <;> omega

def new (initialState : σ) (neutralInputs : Fin n → ι) (config : RollbackConfig)
    (advance : σ → (Fin n → ι) → σ) (predictor : Option (ι → Nat → ι)) : RollbackSession σ ι n where
  stateHistory      := .new (capacityOf config) (capacityOf_pos config)
  used              := fun _ => .new (capacityOf config) (capacityOf_pos config)
  timelines         := fun _ => .new (capacityOf config) (capacityOf_pos config)
  neutral           := neutralInputs
  currentState      := initialState
  headFrame         := 0
  advance           := advance
  predictor         := predictor
  rollbackEnabled   := true
  earliestIncorrect := none
  lastRollbackLen   := 0
  maxRollbackLen    := 0
  rollbackCount     := 0

def stateAt (s : RollbackSession σ ι n) (frame : Nat) : Option σ :=
  if frame = s.headFrame then some s.currentState else s.stateHistory.restore frame

def setRollbackEnabled (s : RollbackSession σ ι n) (enabled : Bool) : RollbackSession σ ι n :=
  { s with rollbackEnabled := enabled }

def confirm (s : RollbackSession σ ι n) (player : Fin n) (frame : Nat) (input : ι) : RollbackSession σ ι n :=
  { s with timelines := Function.update s.timelines player <| (s.timelines player).confirm frame input }

def queueLocalInput (s : RollbackSession σ ι n) (player : Fin n) (input : ι) : RollbackSession σ ι n :=
  s.confirm player s.headFrame input

def confirmRemoteInput [DecidableEq ι] (s : RollbackSession σ ι n) (player : Fin n) (frame : Nat) (input : ι) :
    RollbackSession σ ι n :=
  let s := s.confirm player frame input
  if frame < s.headFrame then
    match (s.used player).restore frame with
    | none      => s
    | some used =>
      if used ≠ input then
        { s with
          earliestIncorrect := some <| s.earliestIncorrect.elim frame fun current =>
            if frame < current then frame else current }
      else
        s
  else
    s

def inputFor (s : RollbackSession σ ι n) (p : Fin n) (frame : Nat) : ι :=
  match (s.timelines p).confirmedAt frame with
  | some confirmed => confirmed
  | none           =>
    let basis := (s.timelines p).lastConfirmedAtOrBefore frame |>.getD (s.neutral p)
    match s.predictor with
    | none         => basis
    | some predict => predict basis frame

def simulateFrame (s : RollbackSession σ ι n) (frame : Nat) : RollbackSession σ ι n :=
  let inputs p := s.inputFor p frame
  { s with
    stateHistory := s.stateHistory.save frame s.currentState
    used         := fun p => (s.used p).save frame (inputs p)
    currentState := s.advance s.currentState inputs }

-- Simulates `count` frames, the first of which is `frame`.
def simulateFrames (s : RollbackSession σ ι n) (frame : Nat) : Nat → RollbackSession σ ι n
  | 0         => s
  | count + 1 => (s.simulateFrame frame).simulateFrames (frame + 1) count

-- The last part of a correction: simulates again what follows the frame whose state was restored.
def rollback (s : RollbackSession σ ι n) (earliest : Nat) (restored : σ) : RollbackSession σ ι n :=
  let length := s.headFrame - earliest
  let s := { s with currentState := restored }.simulateFrames earliest length
  { s with
    lastRollbackLen := length
    maxRollbackLen  := if s.maxRollbackLen < length then length else s.maxRollbackLen
    rollbackCount   := s.rollbackCount + 1 }

def resolvePendingRollback (s : RollbackSession σ ι n) : RollbackSession σ ι n :=
  let cleared := { s with lastRollbackLen := 0, earliestIncorrect := none }
  match s.earliestIncorrect with
  | none          => cleared
  | some earliest =>
    if !s.rollbackEnabled then cleared
    else if s.headFrame ≤ earliest then cleared
    else match s.stateHistory.oldestFrame with
      | none        => cleared
      | some oldest =>
        let earliest := if earliest < oldest then oldest else earliest
        match s.stateHistory.restore earliest with
        | none          => cleared
        | some restored => cleared.rollback earliest restored

def advanceFrame (s : RollbackSession σ ι n) : RollbackSession σ ι n :=
  let s := s.resolvePendingRollback
  let s := s.simulateFrame s.headFrame
  { s with headFrame := s.headFrame + 1 }

open ClientUtils.RollbackSession (Invocation Outcome)

def outcome (s : RollbackSession σ ι n) (inRange : Bool) : Outcome σ where
  inRange       := inRange
  currentFrame  := s.headFrame
  state         := s.currentState
  stateAt       := s.stateAt
  rollbackCount := s.rollbackCount

def invoke [DecidableEq ι] (s : RollbackSession σ ι n) : Invocation ι → Option (RollbackSession σ ι n)
  | .queueLocalInput player input =>
    if h : player < n then s.queueLocalInput ⟨player, h⟩ input else none
  | .confirmRemoteInput player frame input =>
    if h : player < n then s.confirmRemoteInput ⟨player, h⟩ frame input else none
  | .advanceFrame               => s.advanceFrame
  | .setRollbackEnabled enabled => s.setRollbackEnabled enabled

def object [DecidableEq ι] : Object (RollbackSession σ ι n) (Invocation ι) (Outcome σ) where
  call s invocation :=
    match s.invoke invocation with
    | some s' => (s', s'.outcome true)
    | none    => (s, s.outcome false)

end RollbackSession
end Plaza.Flutter
