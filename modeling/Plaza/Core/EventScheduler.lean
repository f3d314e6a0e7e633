import Mathlib.Order.Fin.Basic
import Plaza.Lib.Ordered
import Plaza.Lib.Rust

open Rust

namespace Plaza.Core

-- A point on a scheduler's time axis. An interval is added with saturation, so that no sum wraps around
-- into the past.
class SchedulerInstant (T : Type) extends LinearOrder T where
  addInterval        : T → T → T
  addInterval_mono i : Monotone (addInterval · i)

namespace SchedulerInstant

-- Ticks and game times, of which there is a greatest.
instance {max : Nat} : SchedulerInstant (Fin (max + 1)) where
  addInterval t i      := Fin.ofNat (max + 1) (min (t + i) max)
  addInterval_mono i t t' h := by
    have : t.val ≤ t'.val := h
    simp only [Fin.ofNat, Fin.mk_le_mk]
    rw [Nat.mod_eq_of_lt (by omega), Nat.mod_eq_of_lt (by omega)]
    omega

end SchedulerInstant

-- A time axis on which there are intervals to repeat something by.
class RepeatingInstant (T : Type) extends SchedulerInstant T where
  intervalIsZero : T → Bool

instance {max : Nat} : RepeatingInstant (Fin (max + 1)) where
  intervalIsZero i := i = 0

-- Both schedulers keep such items. What is scheduled is an event of the one and an action of the other.
structure ScheduledItem (T α : Type) where
  id             : U64
  triggerAt      : T
  payload        : α
  repeatInterval : Option T
  deriving DecidableEq

-- A scheduler's queue hands out the greatest item.
instance {T α : Type} [Ord T] : Ord (ScheduledItem T α) where
  compare item other := (compare other.triggerAt item.triggerAt).then (compare item.id other.id)

structure Scheduler (T α : Type) where
  items              : List (ScheduledItem T α)
  nextEventIdCounter : U64
  deriving DecidableEq

namespace Scheduler

variable {T α ω : Type}

def new : Scheduler T α where
  items              := []
  nextEventIdCounter := 0

def push (s : Scheduler T α) (triggerAt : T) (payload : α) (repeatInterval : Option T) : Scheduler T α × U64 :=
  let id := s.nextEventIdCounter
  ({ items              := { id, triggerAt, payload, repeatInterval } :: s.items
     nextEventIdCounter := id + 1 }, id)

def scheduleAt (s : Scheduler T α) (target : T) (payload : α) : Scheduler T α × U64 :=
  s.push target payload none

def cancel (s : Scheduler T α) (id : U64) : Scheduler T α × Bool :=
  let items := s.items.filter (·.id ≠ id)
  ({ s with items }, items.length ≠ s.items.length)

def cancelMatching (s : Scheduler T α) (predicate : α → Bool) : Scheduler T α × Nat :=
  let items := s.items.filter (!predicate ·.payload)
  ({ s with items }, s.items.length - items.length)

def anyPending (s : Scheduler T α) (predicate : α → Bool) : Bool :=
  s.items.any (predicate ·.payload)

def clear (s : Scheduler T α) : Scheduler T α :=
  { s with items := [] }

section

variable [RepeatingInstant T]

def scheduleAfter (s : Scheduler T α) (now delay : T) (payload : α) : Scheduler T α × U64 :=
  s.scheduleAt (SchedulerInstant.addInterval now delay) payload

-- For an interval of zero the scheduler panics.
def scheduleRepeatingAt (s : Scheduler T α) (firstTrigger interval : T) (payload : α) :
    Option (Scheduler T α × U64) :=
  if RepeatingInstant.intervalIsZero interval then none else some (s.push firstTrigger payload interval)

def scheduleRepeatingAfter (s : Scheduler T α) (now initialDelay interval : T) (payload : α) :
    Option (Scheduler T α × U64) :=
  s.scheduleRepeatingAt (SchedulerInstant.addInterval now initialDelay) interval payload

-- The first time after `now` to which whole intervals lead from `t`. Where sums saturate there may be none,
-- and then no number of rounds is enough.
def nextTrigger (now interval : T) : Nat → T → Option T
  | 0,          _ => none
  | rounds + 1, t =>
    if t ≤ now then nextTrigger now interval rounds (SchedulerInstant.addInterval t interval) else some t

-- Each of `choices` picks one of the greatest items. The items are none while the loop is still running,
-- be it that the choices or that the rounds for a trigger have run out.
def fireDue (fire : ScheduledItem T α → ω → α × ω) (now : T) (rounds : Nat) :
    List Nat → List (ScheduledItem T α) → List (ScheduledItem T α) → ω →
    Option (Option (List (ScheduledItem T α)) × ω)
  | _,            [],    toReschedule, world => some (some toReschedule, world)
  | [],           _,     _,            world => some (none, world)
  | i :: choices, items, toReschedule, world => do
    let (item, rest) ← Heap.pop items i
    if now < item.triggerAt then
      some (some (items ++ toReschedule), world)
    else
      let (payload, world) := fire item world
      match item.repeatInterval with
      | none => fireDue fire now rounds choices rest toReschedule world
      | some interval =>
        match nextTrigger now interval rounds (SchedulerInstant.addInterval item.triggerAt interval) with
        | none           => some (none, world)
        | some triggerAt =>
          fireDue fire now rounds choices rest (toReschedule ++ [{ item with payload, triggerAt }]) world

-- Fires what is due. To fire something may change it and what it acts on.
def tick (fire : ScheduledItem T α → ω → α × ω) (s : Scheduler T α) (now : T) (rounds : Nat)
    (choices : List Nat) (world : ω) : Option (Option (Scheduler T α) × ω) :=
  (fireDue fire now rounds choices s.items [] world).map fun (items, world) =>
    (items.map ({ s with items := · }), world)

end
end Scheduler

-- Hands out the events that are due.
abbrev EventScheduler (T E : Type) :=
  Scheduler T E

namespace EventScheduler

variable {T E : Type}

def emit (event : E) (due : List E) : E × List E :=
  (event, due ++ [event])

def tick [RepeatingInstant T] (s : EventScheduler T E) (now : T) (rounds : Nat) (choices : List Nat) :
    Option (Option (EventScheduler T E) × List E) :=
  Scheduler.tick (emit ·.payload) s now rounds choices []

end EventScheduler

-- Runs the actions that are due. To run one changes the state, the outgoing operations and the action itself.
abbrev CallbackScheduler (T A : Type) :=
  Scheduler T A

namespace CallbackScheduler

variable {T A σ Op : Type}

def tick [RepeatingInstant T] (call : A → σ × List Op → A × σ × List Op) (s : CallbackScheduler T A) (now : T)
    (rounds : Nat) (choices : List Nat) (state : σ) (opsToBroadcast : List Op) :
    Option (Option (CallbackScheduler T A) × σ × List Op) :=
  Scheduler.tick (call ·.payload) s now rounds choices (state, opsToBroadcast)

end CallbackScheduler
end Plaza.Core
