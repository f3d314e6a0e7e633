import Mathlib.Algebra.Ring.Nat
import Plaza.Lib.Execution
import Plaza.ServerUtils.Seats.Slots

namespace Plaza.ServerUtils

inductive Turnaway
  | full
  | locked
  deriving DecidableEq, Repr

inductive Admission
  | seated (seat : Nat) (fresh : Bool)
  | resumed (seat : Nat)
  | waitlisted (position : Nat)
  | turned (why : Turnaway)
  deriving DecidableEq, Repr

inductive Departure
  | freed (seat : Nat)
  | held (seat : Nat)
  | unwaitlisted
  | notPresent
  deriving DecidableEq, Repr

inductive Shuffle (Key : Type)
  | promoted (key : Key) (seat : Nat)
  | displaced (key : Key) (seat : Nat)
  deriving DecidableEq, Repr

structure Roster (Key : Type) where
  slots      : SeatSlots Key
  queue      : RankedQueue Key
  ranks      : Key → Option Nat
  waitlistOn : Bool
  holdOn     : Bool
  locked     : Bool

namespace Roster

variable {Key : Type} [DecidableEq Key]

def new (capacity : Nat) : Roster Key where
  slots      := .new capacity
  queue      := .new
  ranks      := fun _ => none
  waitlistOn := false
  holdOn     := false
  locked     := false

-- Turned-away keys queue for the next open seat instead.
def withWaitlist (r : Roster Key) : Roster Key :=
  { r with waitlistOn := true }

-- A departing key's seat is held for them until `expire`.
def holdingSeats (r : Roster Key) : Roster Key :=
  { r with holdOn := true }

def lock (r : Roster Key) : Roster Key :=
  { r with locked := true }

def unlock (r : Roster Key) : Roster Key :=
  { r with locked := false }

-- A key which has a seat or waits for one keeps its place, as it keeps its rank. A new key is seated if
-- seating is open and a seat is, whoever else waits for it.
def admitRanked (r : Roster Key) (key : Key) (rank : Nat) : Roster Key × Admission :=
  match r.slots.seatOf key with
  | some seat =>
    if r.slots.isHeld key then
      ({ r with slots := r.slots.resume key }, .resumed seat)
    else
      (r, .seated seat false)
  | none =>
    match r.queue.position key with
    | some position => (r, .waitlisted position)
    | none          =>
      match if r.locked then none else r.slots.firstOpen with
      | some seat =>
        ({ r with slots := r.slots.seat key seat, ranks := Function.update r.ranks key (some rank) },
          .seated seat true)
      | none =>
        if r.waitlistOn then
          let (queue, position) := r.queue.push key rank
          ({ r with queue }, .waitlisted position)
        else
          (r, .turned <| if r.locked then .locked else .full)

def depart (r : Roster Key) (key : Key) : Roster Key × Departure :=
  match r.slots.seatOf key with
  | some seat =>
    if r.slots.isHeld key then
      (r, .held seat)
    else if r.holdOn then
      ({ r with slots := r.slots.hold key }, .held seat)
    else
      ({ r with slots := r.slots.open' key, ranks := Function.update r.ranks key none }, .freed seat)
  | none =>
    let (queue, removed) := r.queue.remove key
    if removed then ({ r with queue }, .unwaitlisted) else (r, .notPresent)

-- Releases a held seat whose grace ran out.
def expire (r : Roster Key) (key : Key) : Roster Key × Option Nat :=
  if !r.slots.isHeld key then
    (r, none)
  else
    ({ r with slots := r.slots.open' key, ranks := Function.update r.ranks key none }, r.slots.seatOf key)

-- One seat's turn in the search of `worstSeated`: later seats win ties, and only seats with somebody present
-- are candidates.
def worse (r : Roster Key) (worst : Option (Nat × Nat)) (seat : Nat) : Option (Nat × Nat) :=
  match r.slots.slots[seat]? with
  | some (.human key) =>
    let rank := (r.ranks key).getD 0
    if worst.all (·.snd ≤ rank) then some (seat, rank) else worst
  | _                 => worst

def worstSeated (r : Roster Key) : Option (Nat × Nat) :=
  List.range r.slots.capacity |>.foldl r.worse none

-- The best waiter takes the seat.
def promote (r : Roster Key) (seat : Nat) : Option (Roster Key × Shuffle Key) :=
  r.queue.popBest.map fun ((key, rank), queue) =>
    ({ r with queue, slots := r.slots.seat key seat, ranks := Function.update r.ranks key (some rank) },
      .promoted key seat)

-- The key gives its seat up and waits at the tail of its own band.
def displace (r : Roster Key) (key : Key) (rank : Nat) : Roster Key :=
  { r with
    slots := r.slots.open' key
    ranks := Function.update r.ranks key none
    queue := (r.queue.push key rank).fst }

-- A round of a loop of `resolve`: the roster after it, and what it did.
abbrev Round (Key : Type) :=
  Roster Key × List (Shuffle Key)

-- An open seat goes to the best waiter.
def fillSeat (r : Roster Key) : Option (Round Key) := do
  let seat ← r.slots.firstOpen
  let (r, shuffle) ← r.promote seat
  return (r, [shuffle])

-- The worst seated key makes room for a better waiter.
def settleRank (r : Roster Key) : Option (Round Key) := do
  let (_, bestRank) ← r.queue.best
  let (seat, worstRank) ← r.worstSeated
  if bestRank ≥ worstRank then
    none
  else
    match r.slots.slots[seat]? with
    | some (.human displaced) =>
      let (r, shuffle) ← (r.displace displaced worstRank).promote seat
      return (r, [.displaced displaced seat, shuffle])
    | _ => none

def rounds (round : Roster Key → Option (Round Key)) : Loop (Round Key) where
  body := fun (r, shuffles) => (round r).map fun (r, more) => (r, shuffles ++ more)

-- The ranks of all who are seated and present. Every round of the second loop makes their sum smaller.
def seatedRanks (r : Roster Key) : List Nat :=
  r.slots.slots.map fun
    | .human key => (r.ranks key).getD 0
    | _          => 0

-- Each loop is given as many rounds as it can need.
def resolve (r : Roster Key) : Round Key :=
  if r.locked then
    (r, [])
  else
    let (r, shuffles) := (rounds fillSeat).run r.queue.entries.length (r, [])
    (rounds settleRank).run r.seatedRanks.sum (r, shuffles)

inductive Call (Key : Type)
  | admitRanked (key : Key) (rank : Nat)
  | depart (key : Key)
  | expire (key : Key)
  | lock
  | unlock
  | resolve
  | withWaitlist
  | holdingSeats
  deriving DecidableEq, Repr

def apply (r : Roster Key) : Call Key → Roster Key
  | .admitRanked key rank => (r.admitRanked key rank).fst
  | .depart key           => (r.depart key).fst
  | .expire key           => (r.expire key).fst
  | .lock                 => r.lock
  | .unlock               => r.unlock
  | .resolve              => r.resolve.fst
  | .withWaitlist         => r.withWaitlist
  | .holdingSeats         => r.holdingSeats

def machine (Key : Type) [DecidableEq Key] : Machine (Roster Key) (Call Key) where
  step r call := some (r.apply call)

end Roster

-- A seat given to a key that had none, with those who wait on. The arrival is the number under which the key
-- was queued, or would have been.
structure Grant (Key : Type) where
  key     : Key
  rank    : Nat
  arrival : Nat
  waiting : List (Entry Key)
  deriving DecidableEq, Repr

-- Nobody who waits came before, unless with a worse rank.
def Grant.Fair {Key : Type} (g : Grant Key) : Prop :=
  ∀ e ∈ g.waiting, e.rank ≤ g.rank → g.arrival < e.seq

instance {Key : Type} {g : Grant Key} : Decidable g.Fair :=
  inferInstanceAs <| Decidable (∀ e ∈ g.waiting, _)

-- Who was promoted.
def Shuffle.promotedKey {Key : Type} : Shuffle Key → Option Key
  | .promoted key _ => some key
  | .displaced _ _  => none

namespace Roster

variable {Key : Type}

-- Each round of `resolve` gives a seat to the first waiter.
def roundGrant (round : Round Key × Round Key) : Option (Grant Key) :=
  round.fst.fst.queue.entries.head?.map fun e =>
    { key := e.key, rank := e.rank, arrival := e.seq, waiting := round.snd.fst.queue.entries }

variable [DecidableEq Key]

def resolveGrants (r : Roster Key) : List (Grant Key) :=
  if r.locked then
    []
  else
    let filled := (rounds fillSeat).run r.queue.entries.length (r, [])
    let filling := (rounds fillSeat).pairs r.queue.entries.length (r, [])
    let settling := (rounds settleRank).pairs filled.fst.seatedRanks.sum filled
    (filling ++ settling).filterMap roundGrant

def grants (r : Roster Key) : Call Key → List (Grant Key)
  | .admitRanked key rank =>
    match (r.admitRanked key rank).snd with
    | .seated _ true => [{ key, rank, arrival := r.queue.nextSeq, waiting := r.queue.entries }]
    | _              => []
  | .resolve => r.resolveGrants
  | _        => []

-- A roster with all the seats it has given.
structure Granting (Key : Type) where
  roster : Roster Key
  grants : List (Grant Key)

def granting (Key : Type) [DecidableEq Key] : Machine (Granting Key) (Call Key) where
  step g call := some { roster := g.roster.apply call, grants := g.grants ++ g.roster.grants call }

-- A newcomer is not admitted to an open seat past anybody who waits with a rank as good.
def Call.isInTurn (r : Roster Key) : Call Key → Bool
  | .admitRanked key rank =>
    (r.slots.seatOf key).isSome || (r.queue.position key).isSome || r.locked || r.slots.firstOpen.isNone ||
      r.queue.entries.all (rank < ·.rank)
  | _ => true

end Roster

end Plaza.ServerUtils
