import Mathlib.Algebra.Ring.Nat
import Mathlib.Logic.Function.Basic
import Plaza.Lib.Execution
import Plaza.Lib.Trace

namespace Plaza.Lobby

-- What one ticket entitles its bearer to.
structure Ticket (ID Room : Type) where
  player : ID
  room   : Room
  deriving DecidableEq, Repr

structure Held (ID Room : Type) where
  ticket   : Ticket ID Room
  issuedAt : Nat
  deriving DecidableEq, Repr

structure Inner (ID Room : Type) where
  held      : String → Option (Held ID Room)
  lastSwept : Nat

structure MapTicketRegistry (ID Room : Type) where
  inner  : Inner ID Room
  next   : Nat
  window : Option Nat

namespace MapTicketRegistry

variable {ID Room : Type} [DecidableEq Room]

def build (window : Option Nat) (now : Nat) : MapTicketRegistry ID Room where
  inner  := { held := fun _ => none, lastSwept := now }
  next   := 0
  window := window

def lapsed (r : MapTicketRegistry ID Room) (issuedAt now : Nat) : Bool :=
  r.window.any (now - issuedAt ≥ ·)

-- Sweeping happens at most once per window.
def sweep (r : MapTicketRegistry ID Room) (now : Nat) : Inner ID Room :=
  match r.window with
  | some window =>
    if now - r.inner.lastSwept ≥ window then
      { held := fun token => (r.inner.held token).filter (now - ·.issuedAt < window), lastSwept := now }
    else
      r.inner
  | none => r.inner

-- Replaces an entry which there is for the token.
def issueWithAt (r : MapTicketRegistry ID Room) (token : String) (player : ID) (room : Room) (now : Nat) :
    MapTicketRegistry ID Room :=
  let inner := r.sweep now
  let held  := { ticket := { player, room }, issuedAt := now }
  { r with inner := { inner with held := Function.update inner.held token (some held) } }

def remove (r : MapTicketRegistry ID Room) (token : String) : MapTicketRegistry ID Room :=
  { r with inner := { r.inner with held := Function.update r.inner.held token none } }

-- The room is checked before the ticket is spent.
def redeemAt (r : MapTicketRegistry ID Room) (token : String) (room : Room) (now : Nat) :
    MapTicketRegistry ID Room × Option (Ticket ID Room) :=
  match r.inner.held token with
  | none      => (r, none)
  | some held =>
    if held.ticket.room ≠ room then
      (r, none)
    else
      (r.remove token, if r.lapsed held.issuedAt now then none else held.ticket)

-- Mints a token from a counter.
def issue (r : MapTicketRegistry ID Room) (player : ID) (room : Room) (now : Nat) :
    MapTicketRegistry ID Room × String :=
  let token := "t" ++ toString r.next
  ({ r with next := (r.next + 1) % 2 ^ 64 }.issueWithAt token player room now, token)

def revoke (r : MapTicketRegistry ID Room) (token : String) : MapTicketRegistry ID Room × Bool :=
  (r.remove token, (r.inner.held token).isSome)

end MapTicketRegistry

-- What happened to the ticket of a token. A redemption is an entry if it had an answer.
inductive Placement.Entry (ID Room : Type)
  | issued (token : String) (ticket : Ticket ID Room) (at' : Nat)
  | redeemed (token : String) (ticket : Ticket ID Room)
  | revoked (token : String)
  deriving DecidableEq, Repr

def Placement.Entry.token {ID Room : Type} : Entry ID Room → String
  | issued token _ _ | redeemed token _ | revoked token => token

-- A registry together with its history, and the latest time at which it was used.
structure Placement (ID Room : Type) where
  registry : MapTicketRegistry ID Room
  log      : List (Placement.Entry ID Room)
  clock    : Nat

namespace Placement

variable {ID Room : Type} [DecidableEq Room]

def build (window : Option Nat) (now : Nat) : Placement ID Room where
  registry := .build window now
  log      := []
  clock    := now

inductive Event (ID Room : Type)
  | issue (player : ID) (room : Room) (now : Nat)
  | issueWith (token : String) (player : ID) (room : Room) (now : Nat)
  | redeem (token : String) (room : Room) (now : Nat)
  | revoke (token : String)

def Event.now? : Event ID Room → Option Nat
  | issue _ _ now | issueWith _ _ _ now | redeem _ _ now => now
  | revoke _                                             => none

def apply (s : Placement ID Room) : Event ID Room → Placement ID Room
  | .issue player room now =>
    let (registry, token) := s.registry.issue player room now
    { registry, log := s.log ++ [.issued token { player, room } now], clock := now }
  | .issueWith token player room now =>
    let registry := s.registry.issueWithAt token player room now
    { registry, log := s.log ++ [.issued token { player, room } now], clock := now }
  | .redeem token room now =>
    let (registry, answer) := s.registry.redeemAt token room now
    { registry, log := s.log ++ answer.toList.map (.redeemed token ·), clock := now }
  | .revoke token =>
    { s with registry := (s.registry.revoke token).fst, log := s.log ++ [.revoked token] }

-- The clock is monotone.
def machine : Machine (Placement ID Room) (Event ID Room) where
  step s e := if e.now?.all (s.clock ≤ ·) then some (s.apply e) else none

-- The latest entry about a token is that it was issued, so that it was neither redeemed nor revoked since.
def Outstanding (log : List (Entry ID Room)) (token : String) (held : Held ID Room) : Prop :=
  Trace.Latest (·.token = token) log (.issued token held.ticket held.issuedAt)

end Placement
end Plaza.Lobby
