import Plaza.Core.EventScheduler
import Plaza.Core.Session

namespace Plaza.Core

structure PhaseChangedNoticePayload (P : Type) where
  newPhase      : P
  previousPhase : Option P
  durationHint  : Option Nat
  reason        : Option String
  deriving DecidableEq, Repr

-- A phase and the number of the occupancy that it is in. No run comes to 2 ^ 64 occupancies.
structure Phased (P : Type) where
  current : P
  epoch   : Nat
  deriving DecidableEq, Repr

namespace Phased

variable {P Op ID : Type}

def new (initial : P) : Phased P where
  current := initial
  epoch   := 0

-- Whether a token still refers to the occupancy in effect.
def isCurrent (p : Phased P) (epoch : Nat) : Bool :=
  p.epoch = epoch

-- Going to the phase in effect changes nothing and announces nothing.
def transitionWith [DecidableEq P] (p : Phased P) (next : P) (opsQ : List (TargetedOp Op ID))
    (notice : PhaseChangedNoticePayload P → Op) (reason : Option String) (durationHint : Option Nat) :
    Phased P × List (TargetedOp Op ID) × Bool :=
  if p.current = next then
    (p, opsQ, false)
  else
    let payload := { newPhase := next, previousPhase := p.current, durationHint, reason }
    ({ current := next, epoch := p.epoch + 1 },
      opsQ ++ [{ fromAgent := .system, target := .all, ops := [notice payload] }], true)

def transitionTo [DecidableEq P] (p : Phased P) (next : P) (opsQ : List (TargetedOp Op ID))
    (notice : PhaseChangedNoticePayload P → Op) : Phased P × List (TargetedOp Op ID) × Bool :=
  p.transitionWith next opsQ notice none none

end Phased

-- A scheduler in which each event bears the token of the occupancy that it was scheduled in.
structure PhasedScheduler (T E : Type) where
  inner : EventScheduler T (Nat × E)
  deriving DecidableEq

namespace PhasedScheduler

variable {T E P : Type}

def new : PhasedScheduler T E where
  inner := .new

def anyPending (s : PhasedScheduler T E) (predicate : E → Bool) : Bool :=
  s.inner.anyPending (predicate ·.snd)

variable [RepeatingInstant T]

def scheduleAfter (s : PhasedScheduler T E) (now delay : T) (phase : Phased P) (event : E) : PhasedScheduler T E where
  inner := (s.inner.scheduleAfter now delay (phase.epoch, event)).fst

-- What has outlived its phase is consumed as well, but not handed out. There is no result for a queue that
-- picks otherwise than `choices` says, or picks more.
def due (s : PhasedScheduler T E) (now : T) (rounds : Nat) (choices : List Nat) (phase : Phased P) :
    Option (PhasedScheduler T E × List E) := do
  let (inner, items) ← s.inner.tick now rounds choices
  let inner ← inner
  some ({ inner }, items.filterMap fun (epoch, event) => if phase.isCurrent epoch then some event else none)

end PhasedScheduler
end Plaza.Core
