import Plaza.Core.EventScheduler
import Plaza.Lib.Execution

open Rust
open Plaza.Core

-- A scheduler and its caller, who numbers what he schedules.
namespace Plaza.Protocols

structure Timetable (T α : Type) where
  scheduler : Scheduler T (Nat × α)
  scheduled : Nat

namespace Timetable

inductive Event (T α ω : Type)
  | scheduleAt (target : T) (payload : α)
  | scheduleRepeatingAt (firstTrigger interval : T) (payload : α)
  | cancel (id : U64)
  | cancelMatching (predicate : α → Bool)
  | clear
  | tick (now : T) (rounds : Nat) (choices : List Nat) (world : ω)

variable {T α ω : Type}

def start : Timetable T α where
  scheduler := .new
  scheduled := 0

-- Firing leaves the number as it is.
def numbered (fire : α → ω → α × ω) (item : ScheduledItem T (Nat × α)) (world : ω) : (Nat × α) × ω :=
  let (payload, world) := fire item.payload.snd world
  ((item.payload.fst, payload), world)

-- The same, with a list of what was fired.
def logged (fire : α → ω → α × ω) (item : ScheduledItem T (Nat × α)) (world : ω × List (ScheduledItem T (Nat × α))) :
    (Nat × α) × ω × List (ScheduledItem T (Nat × α)) :=
  let (payload, fired) := numbered fire item world.fst
  (payload, fired, world.snd ++ [item])

variable [RepeatingInstant T]

-- To fire an event of an `EventScheduler` is to emit it, and an action of a `CallbackScheduler` to call it.
def machine (fire : α → ω → α × ω) : Machine (Timetable T α) (Event T α ω) where
  step s
    | .scheduleAt target payload =>
      some {
        scheduler := (s.scheduler.scheduleAt target (s.scheduled, payload)).fst
        scheduled := s.scheduled + 1 }
    | .scheduleRepeatingAt firstTrigger interval payload =>
      (s.scheduler.scheduleRepeatingAt firstTrigger interval (s.scheduled, payload)).map fun (scheduler, _) =>
        { scheduler, scheduled := s.scheduled + 1 }
    | .cancel id                => some { s with scheduler := (s.scheduler.cancel id).fst }
    | .cancelMatching predicate => some { s with scheduler := (s.scheduler.cancelMatching (predicate ·.snd)).fst }
    | .clear                    => some { s with scheduler := s.scheduler.clear }
    | .tick now rounds choices world =>
      (s.scheduler.tick (numbered fire) now rounds choices world).bind fun (scheduler, _) =>
        scheduler.map ({ s with scheduler := · })

-- Of two items the one comes first that is due earlier, and of two that are due alike the one scheduled first.
def Before (a b : ScheduledItem T (Nat × α)) : Prop :=
  a.triggerAt < b.triggerAt ∨ a.triggerAt = b.triggerAt ∧ a.payload.fst < b.payload.fst

instance : DecidableRel (@Before T α _) :=
  fun _ _ => inferInstanceAs (Decidable (_ ∨ _))

-- Whichever of the greatest items the queue prefers, a tick fires in this order, as far as it gets.
def FiresInOrder (fire : α → ω → α × ω) (s : Timetable T α) (now : T) (world : ω) : Prop :=
  ∀ rounds choices scheduler world' fired,
    s.scheduler.tick (logged fire) now rounds choices (world, []) = some (scheduler, world', fired) →
    fired.Pairwise Before

-- Of two items that are due alike the one scheduled first has the greater id.
def Untied (s : Timetable T α) (now : T) : Prop :=
  ∀ a ∈ s.scheduler.items, ∀ b ∈ s.scheduler.items, a.triggerAt ≤ now → a.triggerAt = b.triggerAt →
    a.payload.fst < b.payload.fst → b.id < a.id

instance {s : Timetable T α} {now : T} : Decidable (s.Untied now) :=
  inferInstanceAs (Decidable (∀ a ∈ s.scheduler.items, ∀ b ∈ s.scheduler.items, _ → _ → _ → _))

-- No item that is due repeats without ever getting beyond `now`.
def Returns (s : Timetable T α) (now : T) : Prop :=
  ∀ item ∈ s.scheduler.items, item.triggerAt ≤ now → ∀ interval, item.repeatInterval = some interval →
    ∃ rounds, (Scheduler.nextTrigger now interval rounds
      (SchedulerInstant.addInterval item.triggerAt interval)).isSome

-- With enough rounds and choices the tick ends, whichever of the greatest items the queue prefers.
def Terminates (fire : α → ω → α × ω) (s : Timetable T α) (now : T) (world : ω) : Prop :=
  ∃ rounds,
    (∃ n, ∀ choices, n ≤ choices.length → ∀ r,
      s.scheduler.tick (numbered fire) now rounds choices world = some r → r.fst.isSome) ∧
    ∃ choices scheduler world',
      s.scheduler.tick (numbered fire) now rounds choices world = some (some scheduler, world')

-- A timetable with a list of the ticks at which it fired something.
structure Diary (T α : Type) where
  timetable : Timetable T α
  fired     : List (T × Nat)

namespace Diary

omit [RepeatingInstant T] in
def start : Diary T α where
  timetable := .start
  fired     := []

def machine (fire : α → ω → α × ω) : Machine (Diary T α) (Event T α ω) where
  step d
    | .tick now rounds choices world =>
      (d.timetable.scheduler.tick (logged fire) now rounds choices (world, [])).bind fun (scheduler, _, fired) =>
        scheduler.map fun scheduler => {
          timetable := { d.timetable with scheduler }
          fired     := d.fired ++ fired.map fun item => (now, item.payload.fst) }
    | e => ((Timetable.machine fire).step d.timetable e).map ({ d with timetable := · })

-- The ticks at which an item has fired.
omit [RepeatingInstant T] in
def firings (d : Diary T α) (number : Nat) : List T :=
  (d.fired.filter (·.snd = number)).map Prod.fst

end Diary

namespace Event

omit [RepeatingInstant T]

-- The item of this id is not to fire any more.
def cancels (id : U64) : Event T α ω → Bool
  | .cancel id' => id' = id
  | .clear      => true
  | _           => false

def time : Event T α ω → Option T
  | .tick now _ _ _ => some now
  | _               => none

-- A call to one of both schedulers. Only one of them cancels by what it fires.
def Plain : Event T α ω → Prop
  | .cancelMatching _ => False
  | _                 => True

end Event

end Timetable
end Plaza.Protocols
