import Plaza.Core.Phases
import Plaza.Lib.Execution

open Plaza.Core

-- A phase, what was announced of it and the work that is deferred to later in it.
namespace Plaza.Protocols

structure Occupancy (P T E Op ID : Type) where
  phase     : Phased P
  opsQ      : List (TargetedOp Op ID)
  scheduler : PhasedScheduler T E

namespace Occupancy

inductive Event (P T E : Type)
  | transition (next : P) (reason : Option String) (durationHint : Option Nat)
  | scheduleAfter (now delay : T) (event : E)
  | due (now : T) (rounds : Nat) (choices : List Nat)

variable {P T E Op ID : Type}

def start (initial : P) : Occupancy P T E Op ID where
  phase     := .new initial
  opsQ      := []
  scheduler := .new

-- What follows on work for the time `triggerAt` neither leaves the phase `p` nor asks for what is due by then.
def Waits [LT T] (p : P) (triggerAt : T) : Event P T E → Prop
  | .transition next ..  => next = p
  | .scheduleAfter ..    => True
  | .due now ..          => now < triggerAt

instance [DecidableEq P] [LT T] [DecidableLT T] (p : P) (triggerAt : T) (e : Event P T E) :
    Decidable (Waits p triggerAt e) := by
  cases e <;> unfold Waits <;> infer_instance

variable [DecidableEq P] [RepeatingInstant T]

def machine (notice : PhaseChangedNoticePayload P → Op) : Machine (Occupancy P T E Op ID) (Event P T E) where
  step s
    | .transition next reason durationHint =>
      let (phase, opsQ, _) := s.phase.transitionWith next s.opsQ notice reason durationHint
      some { s with phase, opsQ }
    | .scheduleAfter now delay event =>
      some { s with scheduler := s.scheduler.scheduleAfter now delay s.phase event }
    | .due now rounds choices =>
      (s.scheduler.due now rounds choices s.phase).map fun (scheduler, _) => { s with scheduler }

-- What is to fire at `now` after a run: each event whose time has come and on which nothing has followed but what
-- leaves it waiting.
def expected (now : T) : P → List (Event P T E) → List E
  | _, []                                    => []
  | _, .transition next .. :: es             => expected now next es
  | p, .scheduleAfter now' delay event :: es =>
    let triggerAt := SchedulerInstant.addInterval now' delay
    if triggerAt ≤ now ∧ ∀ e ∈ es, Waits p triggerAt e then event :: expected now p es else expected now p es
  | p, .due .. :: es                         => expected now p es

end Occupancy
end Plaza.Protocols
