import Plaza.Core.EventScheduler
import Plaza.Lib.Execution

namespace Plaza.Lobby

open Plaza.Core

-- A match the queue has decided to start.
structure Formed (ID : Type) where
  players  : List ID
  bots     : Nat
  timedOut : Bool
  deriving DecidableEq, Repr

structure Waiting (ID T : Type) where
  player   : ID
  since    : T
  deadline : T

structure MatchQueue (ID T : Type) where
  waiting  : List (Waiting ID T)
  size     : Nat
  patience : T
  size_pos : 0 < size

namespace MatchQueue

variable {ID T : Type} [DecidableEq ID] [SchedulerInstant T]

def new (size : Nat) (patience : T) (size_pos : 0 < size) : MatchQueue ID T :=
  { waiting := [], size, patience, size_pos }

def players (q : MatchQueue ID T) : List ID :=
  q.waiting.map Waiting.player

-- Who is queued already does not take a second place.
def enqueue (q : MatchQueue ID T) (player : ID) (now : T) : MatchQueue ID T × Bool :=
  if q.waiting.any (·.player = player) then
    (q, false)
  else
    let waiting := { player, since := now, deadline := SchedulerInstant.addInterval now q.patience }
    ({ q with waiting := q.waiting ++ [waiting] }, true)

def remove (q : MatchQueue ID T) (player : ID) : MatchQueue ID T × Bool :=
  let waiting := q.waiting.filter (·.player ≠ player)
  ({ q with waiting }, waiting.length ≠ q.waiting.length)

def clear (q : MatchQueue ID T) : MatchQueue ID T :=
  { q with waiting := [] }

-- The loop of `drainReady` over the matches that are full.
def fill : Loop (MatchQueue ID T × List (Formed ID)) where
  body := fun (q, formed) =>
    if q.waiting.length ≥ q.size then
      let players := (q.waiting.take q.size).map Waiting.player
      some ({ q with waiting := q.waiting.drop q.size }, formed ++ [{ players, bots := 0, timedOut := false }])
    else
      none

-- Full matches come first, then one with everybody left if the head of the queue is out of patience.
def drainReady (q : MatchQueue ID T) (now : T) : MatchQueue ID T × List (Formed ID) :=
  let (q, formed) := fill.run q.waiting.length (q, [])
  if q.waiting.head?.any (·.deadline ≤ now) then
    let bots := q.size - q.players.length
    (q.clear, formed ++ [{ players := q.players, bots, timedOut := true }])
  else
    (q, formed)

end MatchQueue

-- How an accepted player left the queue.
inductive Fate
  | matched (index : Nat)
  | removed
  | cleared
  deriving DecidableEq, Repr

def Fate.isMatched : Fate → Bool
  | matched _ => true
  | _         => false

-- An observer's account of a queue. It knows the calls and their results, but not the queue. The players which
-- were accepted are told apart by their number, since one may be accepted again later on.
structure Account (ID : Type) where
  accepted : List ID
  waiting  : List Nat
  gone     : List (Nat × Fate)
  formed   : List (Formed ID)
  deriving DecidableEq, Repr

namespace Account

variable {ID : Type}

def empty : Account ID where
  accepted := []
  waiting  := []
  gone     := []
  formed   := []

def accept (a : Account ID) (player : ID) : Account ID :=
  { a with accepted := a.accepted ++ [player], waiting := a.waiting ++ [a.accepted.length] }

def remove [DecidableEq ID] (a : Account ID) (player : ID) : Account ID :=
  { a with
    waiting := a.waiting.filter (a.accepted[·]? ≠ some player)
    gone    := a.gone ++ (a.waiting.filter (a.accepted[·]? = some player)).map (·, .removed) }

def clear (a : Account ID) : Account ID :=
  { a with waiting := [], gone := a.gone ++ a.waiting.map (·, .cleared) }

-- A match takes as many from the front of the queue as it has players.
def form (a : Account ID) (m : Formed ID) : Account ID :=
  { a with
    waiting := a.waiting.drop m.players.length
    gone    := a.gone ++ (a.waiting.take m.players.length).map (·, .matched a.formed.length)
    formed  := a.formed ++ [m] }

def matchedIn (a : Account ID) (index : Nat) : List Nat :=
  (a.gone.filter (·.snd = .matched index)).map Prod.fst

def matched (a : Account ID) : List Nat :=
  (a.gone.filter (·.snd.isMatched)).map Prod.fst

end Account

structure Matchmaking (ID T : Type) where
  queue   : MatchQueue ID T
  account : Account ID
  clock   : T

namespace Matchmaking

variable {ID T : Type} [DecidableEq ID] [SchedulerInstant T]

inductive Event (ID T : Type)
  | enqueue (player : ID) (now : T)
  | remove (player : ID)
  | clear
  | drainReady (now : T)

def new (size : Nat) (patience clock : T) (size_pos : 0 < size) : Matchmaking ID T :=
  { queue := .new size patience size_pos, account := .empty, clock }

-- The calls are in any order, with times which do not decrease.
def machine : Machine (Matchmaking ID T) (Event ID T) where
  step s
    | .enqueue player now =>
      let (queue, accepted) := s.queue.enqueue player now
      let account := if accepted then s.account.accept player else s.account
      if s.clock ≤ now then some { queue, account, clock := now } else none
    | .remove player =>
      let (queue, removed) := s.queue.remove player
      some { s with queue, account := if removed then s.account.remove player else s.account }
    | .clear =>
      some { s with queue := s.queue.clear, account := s.account.clear }
    | .drainReady now =>
      let (queue, formed) := s.queue.drainReady now
      if s.clock ≤ now then some { queue, account := formed.foldl .form s.account, clock := now } else none

end Matchmaking
end Plaza.Lobby
