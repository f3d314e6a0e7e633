import Plaza.Lib.Execution
import Plaza.Lib.TokenBucket

namespace Plaza.Session

variable {K : Type} [Field K] [LinearOrder K]

-- How much one connection may be sent, sustained and ahead of that. A rate is not negative, and the burst is
-- in nanoseconds.
structure OutboundBudget (K : Type) [Field K] [LinearOrder K] where
  bytesPerSec  : Option K
  framesPerSec : Option K
  burst        : Nat
  bytes_nonneg  : ∀ rate, bytesPerSec = some rate → 0 ≤ rate
  frames_nonneg : ∀ rate, framesPerSec = some rate → 0 ≤ rate

def OutboundBudget.burstSecs (budget : OutboundBudget K) : K :=
  budget.burst / 1000000000

-- The allowance which is left. It runs negative, since what is sent is charged rather than refused.
structure Credit (K : Type) where
  bytes  : K
  frames : K
  lastUs : Nat
  deriving DecidableEq

namespace Credit

def full (budget : OutboundBudget K) (nowUs : Nat) : Credit K where
  bytes  := (budget.bytesPerSec.map (· * budget.burstSecs)).getD 0
  frames := (budget.framesPerSec.map (· * budget.burstSecs)).getD 0
  lastUs := nowUs

-- The seconds from the last clock reading to this one, none if this one is earlier.
def elapsed (c : Credit K) (nowUs : Nat) : K :=
  (nowUs - c.lastUs : Nat) / 1000000

def refill (c : Credit K) (budget : OutboundBudget K) (nowUs : Nat) : Credit K where
  bytes := match budget.bytesPerSec with
    | some rate => TokenBucket.fill rate (rate * budget.burstSecs) c.bytes (c.elapsed nowUs)
    | none      => c.bytes
  frames := match budget.framesPerSec with
    | some rate => TokenBucket.fill rate (rate * budget.burstSecs) c.frames (c.elapsed nowUs)
    | none      => c.frames
  lastUs := nowUs

-- Whether every bounded quantity has credit left.
def owed (c : Credit K) (budget : OutboundBudget K) (nowUs : Nat) : Credit K × Bool :=
  let c := c.refill budget nowUs
  (c, (budget.bytesPerSec.isNone || 0 < c.bytes) && (budget.framesPerSec.isNone || 0 < c.frames))

def charge (c : Credit K) (budget : OutboundBudget K) (nowUs bytes : Nat) : Credit K :=
  let c := c.refill budget nowUs
  { c with bytes := c.bytes - bytes, frames := c.frames - 1 }

end Credit

-- A connection's credit together with what it was charged for, the largest frame of it, and the latest of
-- the clock readings.
structure Spending (K : Type) [Field K] [LinearOrder K] where
  budget  : OutboundBudget K
  credit  : Credit K
  start   : Nat
  latest  : Nat
  bytes   : Nat
  frames  : Nat
  largest : Nat

namespace Spending

-- A task reads the clock for each of its calls before it has the credit, so that the readings come in any
-- order.
inductive Event
  | ask (nowUs : Nat)
  | send (askedUs chargedUs bytes : Nat)

def full (budget : OutboundBudget K) (nowUs : Nat) : Spending K where
  budget  := budget
  credit  := .full budget nowUs
  start   := nowUs
  latest  := nowUs
  bytes   := 0
  frames  := 0
  largest := 0

-- A frame is charged in the step in which it was found to be owed.
def machine : Machine (Spending K) Event where
  step s
    | .ask nowUs =>
      some { s with credit := (s.credit.owed s.budget nowUs).fst, latest := max s.latest nowUs }
    | .send askedUs chargedUs bytes =>
      let (credit, owed) := s.credit.owed s.budget askedUs
      if owed then
        some { s with
          credit  := credit.charge s.budget chargedUs bytes
          latest  := max (max s.latest askedUs) chargedUs
          bytes   := s.bytes + bytes
          frames  := s.frames + 1
          largest := max s.largest bytes }
      else
        none

-- The seconds from the start to the latest reading.
def lasted (s : Spending K) : K :=
  (s.latest - s.start : Nat) / 1000000

-- No more was charged than the burst, what the rate gives for the time, and one frame.
def Bounded (s : Spending K) : Prop :=
  (∀ rate, s.budget.bytesPerSec = some rate →
    (s.bytes : K) ≤ rate * s.budget.burstSecs + rate * s.lasted + s.largest) ∧
  (∀ rate, s.budget.framesPerSec = some rate →
    (s.frames : K) ≤ rate * s.budget.burstSecs + rate * s.lasted + 1)

-- No reading is earlier than the one before.
def Forward (s : Spending K) : Event → Prop
  | .ask nowUs                  => s.credit.lastUs ≤ nowUs
  | .send askedUs chargedUs _   => s.credit.lastUs ≤ askedUs ∧ askedUs ≤ chargedUs

instance (s : Spending K) (e : Event) : Decidable (s.Forward e) := by
  cases e <;> unfold Forward <;> infer_instance

end Spending
end Plaza.Session
