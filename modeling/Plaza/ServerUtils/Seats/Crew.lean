import Mathlib.Tactic.Common
import Plaza.ServerUtils.Seats.Roster

namespace Plaza.ServerUtils

namespace Roster

variable {Key : Type} [DecidableEq Key]

-- Whether the key is seated, has a seat held for it, or waits.
def has (r : Roster Key) (key : Key) : Bool :=
  (r.slots.seatOf key).isSome || (r.queue.position key).isSome

-- Nobody who has no place gets one.
def turnsAway (r : Roster Key) : Bool :=
  (r.locked || r.slots.firstOpen.isNone) && !r.waitlistOn

-- A departure leaves the key the seat.
def keepsSeat (r : Roster Key) (key : Key) : Bool :=
  r.holdOn || r.slots.isHeld key

end Roster

-- The seats a fleet of bots holds, which nothing else remembers to be theirs.
structure Crew (Key : Type) where
  seats : Std.TreeMap Nat Key

namespace Crew

variable {Key : Type} [DecidableEq Key]

def new : Crew Key where
  seats := ∅

-- Asks for a seat for each of these keys in turn, and stops at the first admission that is not a seat.
def fillKeys (crew : Crew Key) (roster : Roster Key) (rank : Nat) :
    List Key → (Crew Key × Roster Key) × List Nat
  | []          => ((crew, roster), [])
  | key :: keys =>
    match roster.admitRanked key rank with
    | (roster, .seated seat _) =>
      let (s, taken) := fillKeys { seats := crew.seats.insert seat key } roster rank keys
      (s, seat :: taken)
    | (roster, _) => ((crew, roster), [])

def fill (crew : Crew Key) (roster : Roster Key) (count rank : Nat) (keyOf : Nat → Key) :
    (Crew Key × Roster Key) × List Nat :=
  crew.fillKeys roster rank <| (List.range count).map keyOf

-- Stands a bot down, freeing its seat for whoever asks next.
def vacate (crew : Crew Key) (roster : Roster Key) (seat : Nat) : (Crew Key × Roster Key) × Bool :=
  match crew.seats[seat]? with
  | none     => ((crew, roster), false)
  | some key =>
    let crew := { seats := crew.seats.erase seat }
    match roster.depart key with
    | (roster, .held _) => ((crew, (roster.expire key).fst), true)
    | (roster, _)       => ((crew, roster), true)

-- The bots which do not sit where the crew remembers them.
def gone (crew : Crew Key) (roster : Roster Key) : List (Nat × Key) :=
  crew.seats.toList.filter fun (seat, key) => roster.slots.seatOf key ≠ some seat

def withdraw : Crew Key × Roster Key → Nat × Key → Crew Key × Roster Key
  | (crew, roster), (seat, key) => ({ seats := crew.seats.erase seat }, (roster.depart key).fst)

-- Drops every bot the roster no longer seats, also from the roster, and says which seats went.
def prune (crew : Crew Key) (roster : Roster Key) : (Crew Key × Roster Key) × List Nat :=
  ((crew.gone roster).foldl withdraw (crew, roster), (crew.gone roster).map Prod.fst)

inductive Call (Key : Type)
  | roster (call : Roster.Call Key)
  | fill (count rank : Nat) (keyOf : Nat → Key)
  | vacate (seat : Nat)
  | prune

-- A crew and the roster it is on, where certain keys are those of bots, and a fill names bots only.
def machine (isBot : Key → Bool) : Machine (Crew Key × Roster Key) (Call Key) where
  step
    | (crew, roster), .roster call           => some (crew, roster.apply call)
    | (crew, roster), .fill count rank keyOf =>
      if (List.range count).all (isBot <| keyOf ·) then some (crew.fill roster count rank keyOf).fst else none
    | (crew, roster), .vacate seat           => some (crew.vacate roster seat).fst
    | (crew, roster), .prune                 => some (crew.prune roster).fst

def tracks (crew : Crew Key) (key : Key) : Bool :=
  crew.seats.toList.any (·.snd = key)

-- The bot which the crew remembers in the seat can be forgotten there.
def spares (crew : Crew Key) (roster : Roster Key) (seat : Nat) (key : Key) : Bool :=
  match crew.seats[seat]? with
  | none      => true
  | some key' => key' = key || !roster.has key' || tracks { seats := crew.seats.erase seat } key'

-- No bot is left waiting, or forgotten for another one's sake.
def keepsFilling (crew : Crew Key) (roster : Roster Key) (rank : Nat) : List Key → Bool
  | []          => true
  | key :: keys =>
    match roster.admitRanked key rank with
    | (roster', .seated seat _) =>
      crew.spares roster seat key && keepsFilling { seats := crew.seats.insert seat key } roster' rank keys
    | (_, _) => crew.tracks key || roster.turnsAway

-- A bot that sits elsewhere than remembered is remembered there too, exactly if its withdrawal leaves it
-- the seat.
def keepsPruning (crew : Crew Key) (roster : Roster Key) : Bool :=
  (crew.gone roster).all fun (_, key) =>
    match roster.slots.seatOf key with
    | none      => true
    | some seat => decide (crew.seats[seat]? = some key) == roster.keepsSeat key

def keeps (isBot : Key → Bool) : Crew Key × Roster Key → Call Key → Bool
  | (crew, roster), .roster (.admitRanked key _) => !isBot key || crew.tracks key || roster.turnsAway
  | (crew, roster), .fill count rank keyOf       =>
    crew.keepsFilling roster rank <| (List.range count).map keyOf
  | (crew, roster), .prune                       => crew.keepsPruning roster
  | _,              _                            => true

end Crew

end Plaza.ServerUtils
