import Mathlib.Logic.Function.Basic
import Plaza.Lib.Execution
import Plaza.Lib.Window

namespace Plaza.ClientUtils

-- A frame-indexed ring of snapshots. The ring's `base` is the oldest frame that is retained.
structure StateHistory (σ : Type*) where
  ring         : Window σ
  capacity     : Nat
  capacity_pos : 0 < capacity
  bounded      : ring.items.length ≤ capacity
  resets       : Nat

namespace StateHistory

variable {σ : Type*}

def new (capacity : Nat) (h : 0 < capacity) : StateHistory σ where
  ring         := { base := 0, items := [] }
  capacity     := capacity
  capacity_pos := h
  bounded      := Nat.zero_le _
  resets       := 0

-- Appends the next frame, or overwrites a frame inside the window. Any other frame resets it.
def save (h : StateHistory σ) (frame : Nat) (state : σ) : StateHistory σ :=
  if h.ring.items.isEmpty then
    { h with ring := .single frame state, bounded := h.capacity_pos }
  else if frame = h.ring.stop then
    { h with ring := (h.ring.push state).keep h.capacity, bounded := Window.length_keep }
  else if h.ring.base ≤ frame ∧ frame < h.ring.stop then
    { h with
      ring    := h.ring.set frame state
      bounded := by simpa [Window.set] using h.bounded }
  else
    { h with ring := .single frame state, bounded := h.capacity_pos, resets := h.resets + 1 }

def restore (h : StateHistory σ) (frame : Nat) : Option σ :=
  h.ring.get? frame

def oldestFrame (h : StateHistory σ) : Option Nat :=
  if h.ring.items.isEmpty then none else some h.ring.base

def latestFrame (h : StateHistory σ) : Option Nat :=
  if h.ring.items.isEmpty then none else some (h.ring.stop - 1)

end StateHistory

-- The inputs known for one player, with gaps where none is confirmed.
structure InputTimeline (ι : Type*) where
  slots         : Window (Option ι)
  lastConfirmed : Option Nat
  capacity      : Nat
  capacity_pos  : 0 < capacity
  bounded       : slots.items.length ≤ capacity

namespace InputTimeline

variable {ι : Type*}

def new (capacity : Nat) (h : 0 < capacity) : InputTimeline ι where
  slots         := { base := 0, items := [] }
  lastConfirmed := none
  capacity      := capacity
  capacity_pos  := h
  bounded       := Nat.zero_le _

-- The first input fixes where the window starts. An input for an older frame is dropped.
def confirm (t : InputTimeline ι) (frame : Nat) (input : ι) : InputTimeline ι :=
  let lastConfirmed := some <| t.lastConfirmed.elim frame (max · frame)
  if t.slots.items.isEmpty then
    { t with lastConfirmed, slots := .single frame (some input), bounded := t.capacity_pos }
  else if frame < t.slots.base then
    t
  else
    let slots :=
      if frame < t.slots.stop then t.slots.set frame (some input)
      else (t.slots.pad frame none).push (some input)
    { t with lastConfirmed, slots := slots.keep t.capacity, bounded := Window.length_keep }

def confirmedAt (t : InputTimeline ι) (frame : Nat) : Option ι :=
  (t.slots.get? frame).join

-- Scans backwards from `base + i` for a confirmed input.
def scan (t : InputTimeline ι) : Nat → Option ι
  | 0     => t.confirmedAt t.slots.base
  | i + 1 => t.confirmedAt (t.slots.base + (i + 1)) <|> t.scan i

def lastConfirmedAtOrBefore (t : InputTimeline ι) (frame : Nat) : Option ι :=
  if t.slots.items.isEmpty || frame < t.slots.base then none
  else t.scan (min frame (t.slots.stop - 1) - t.slots.base)

end InputTimeline

structure RollbackConfig where
  maxRollbackFrames : Nat := 240

-- The default predictor.
def repeatLastInput {ι : Type*} (last : ι) (_ : Nat) : ι :=
  last

-- The rollback loop of one peer in a game of `n` players. `used` records which input was fed to each
-- player in each simulated frame, and `neutral` is assumed of a player before it confirms anything.
structure RollbackSession (σ ι : Type*) (n : Nat) where
  stateHistory      : StateHistory σ
  used              : Fin n → StateHistory ι
  timelines         : Fin n → InputTimeline ι
  neutral           : Fin n → ι
  currentState      : σ
  headFrame         : Nat
  advance           : σ → (Fin n → ι) → σ
  predictor         : ι → Nat → ι
  rollbackEnabled   : Bool
  earliestIncorrect : Option Nat
  lastRollbackLen   : Nat
  maxRollbackLen    : Nat
  rollbackCount     : Nat

namespace RollbackSession

variable {σ ι : Type*} {n : Nat}

def new (initialState : σ) (neutralInputs : Fin n → ι) (config : RollbackConfig)
    (advance : σ → (Fin n → ι) → σ) : RollbackSession σ ι n :=
  let cap := max config.maxRollbackFrames 1
  have h : 0 < cap := by omega
  { stateHistory      := .new cap h
    used              := fun _ => .new cap h
    timelines         := fun _ => .new cap h
    neutral           := neutralInputs
    currentState      := initialState
    headFrame         := 0
    advance           := advance
    predictor         := repeatLastInput
    rollbackEnabled   := true
    earliestIncorrect := none
    lastRollbackLen   := 0
    maxRollbackLen    := 0
    rollbackCount     := 0 }

def withPredictor (s : RollbackSession σ ι n) (predictor : ι → Nat → ι) :
    RollbackSession σ ι n :=
  { s with predictor }

def setRollbackEnabled (s : RollbackSession σ ι n) (enabled : Bool) : RollbackSession σ ι n :=
  { s with rollbackEnabled := enabled }

-- The world at the start of `frame`, if it is still retained.
def stateAt (s : RollbackSession σ ι n) (frame : Nat) : Option σ :=
  if frame = s.headFrame then some s.currentState else s.stateHistory.restore frame

def confirm (s : RollbackSession σ ι n) (player : Fin n) (frame : Nat) (input : ι) :
    RollbackSession σ ι n :=
  { s with timelines := Function.update s.timelines player <| (s.timelines player).confirm frame input }

def queueLocalInput (s : RollbackSession σ ι n) (player : Fin n) (input : ι) :
    RollbackSession σ ι n :=
  s.confirm player s.headFrame input

-- An input which contradicts the one that was used for a simulated frame marks this frame.
def confirmRemoteInput [DecidableEq ι] (s : RollbackSession σ ι n) (player : Fin n) (frame : Nat)
    (input : ι) : RollbackSession σ ι n :=
  { s.confirm player frame input with
    earliestIncorrect :=
      if frame < s.headFrame && ((s.used player).restore frame).any (· ≠ input) then
        some <| s.earliestIncorrect.elim frame (min · frame)
      else
        s.earliestIncorrect }

-- The confirmed input, or else a prediction from the last one that was confirmed before.
def inputFor (s : RollbackSession σ ι n) (p : Fin n) (frame : Nat) : ι :=
  match (s.timelines p).confirmedAt frame with
  | some confirmed => confirmed
  | none           =>
    let basis := (s.timelines p).lastConfirmedAtOrBefore frame |>.getD (s.neutral p)
    s.predictor basis frame

def simulateFrame (s : RollbackSession σ ι n) (frame : Nat) : RollbackSession σ ι n :=
  let inputs p := s.inputFor p frame
  { s with
    stateHistory := s.stateHistory.save frame s.currentState
    used         := fun p => (s.used p).save frame (inputs p)
    currentState := s.advance s.currentState inputs }

-- Simulates `count` frames, the first of which is `frame`.
def simulateFrames (s : RollbackSession σ ι n) (frame : Nat) : Nat → RollbackSession σ ι n
  | 0         => s
  | count + 1 => (s.simulateFrame frame).simulateFrames (frame + 1) count

-- The frame from which a rollback starts: what is older than the history is beyond repair.
def rollbackStart (s : RollbackSession σ ι n) : Option Nat := do
  let earliest ← s.earliestIncorrect
  let oldest   ← s.stateHistory.oldestFrame
  if s.rollbackEnabled && earliest < s.headFrame then some (max earliest oldest) else none

def rollback (s : RollbackSession σ ι n) (earliest : Nat) (restored : σ) :
    RollbackSession σ ι n :=
  let len := s.headFrame - earliest
  let s := { s with currentState := restored }.simulateFrames earliest len
  { s with
    lastRollbackLen := len
    maxRollbackLen  := max s.maxRollbackLen len
    rollbackCount   := s.rollbackCount + 1 }

def resolveRollback (s : RollbackSession σ ι n) : RollbackSession σ ι n :=
  let cleared := { s with lastRollbackLen := 0, earliestIncorrect := none }
  match s.rollbackStart with
  | none          => cleared
  | some earliest => (s.stateHistory.restore earliest).elim cleared (cleared.rollback earliest)

def advanceFrame (s : RollbackSession σ ι n) : RollbackSession σ ι n :=
  let s := s.resolveRollback
  let s := s.simulateFrame s.headFrame
  { s with headFrame := s.headFrame + 1 }

def isFrameConfirmed (s : RollbackSession σ ι n) (frame : Nat) : Bool :=
  decide (∀ p, ((s.timelines p).confirmedAt frame).isSome)

-- What a program that embeds a session may call, in any order and with any arguments.
inductive Call (ι : Type*) (n : Nat)
  | queueLocalInput (player : Fin n) (input : ι)
  | confirmRemoteInput (player : Fin n) (frame : Nat) (input : ι)
  | advanceFrame

def machine [DecidableEq ι] : Machine (RollbackSession σ ι n) (Call ι n) where
  step s
    | .queueLocalInput player input          => s.queueLocalInput player input
    | .confirmRemoteInput player frame input => s.confirmRemoteInput player frame input
    | .advanceFrame                          => s.advanceFrame

-- The same calls as a program can write them: with any number for a player, and with rollback switched on or off.
inductive Invocation (ι : Type*)
  | queueLocalInput (player : Nat) (input : ι)
  | confirmRemoteInput (player frame : Nat) (input : ι)
  | advanceFrame
  | setRollbackEnabled (enabled : Bool)
  deriving DecidableEq, Repr

-- What a call does to the session and what can be seen of it afterwards. A player who does not exist is an index out
-- of range.
structure Outcome (σ : Type*) where
  inRange       : Bool
  currentFrame  : Nat
  state         : σ
  stateAt       : Nat → Option σ
  rollbackCount : Nat

def outcome (s : RollbackSession σ ι n) (inRange : Bool) : Outcome σ where
  inRange       := inRange
  currentFrame  := s.headFrame
  state         := s.currentState
  stateAt       := s.stateAt
  rollbackCount := s.rollbackCount

def invoke [DecidableEq ι] (s : RollbackSession σ ι n) : Invocation ι → Option (RollbackSession σ ι n)
  | .queueLocalInput player input =>
    if h : player < n then s.queueLocalInput ⟨player, h⟩ input else none
  | .confirmRemoteInput player frame input =>
    if h : player < n then s.confirmRemoteInput ⟨player, h⟩ frame input else none
  | .advanceFrame               => s.advanceFrame
  | .setRollbackEnabled enabled => s.setRollbackEnabled enabled

def object [DecidableEq ι] : Object (RollbackSession σ ι n) (Invocation ι) (Outcome σ) where
  call s invocation :=
    match s.invoke invocation with
    | some s' => (s', s'.outcome true)
    | none    => (s, s.outcome false)

end RollbackSession
end Plaza.ClientUtils
