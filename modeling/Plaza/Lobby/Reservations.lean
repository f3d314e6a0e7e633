import Mathlib.Algebra.Ring.Nat
import Mathlib.Data.Nat.Basic
import Plaza.Lib.Maps

namespace Plaza.Lobby

-- The longest time which a duration holds, in nanoseconds.
def durationMax : Nat := (2 ^ 64 - 1) * 1000000000 + 999999999

-- Seats promised but not yet taken, each with the time at which it was promised.
structure SeatReservations (ID : Type) where
  held    : AList fun _ : ID => Nat
  elapsed : Nat
  window  : Option Nat

namespace SeatReservations

variable {ID : Type} [DecidableEq ID]

-- Without a window, reservations are held until they are consumed or withdrawn.
def new (window : Option Nat) : SeatReservations ID where
  held    := ∅
  elapsed := 0
  window  := window

-- Advances the clock and drops whatever lapsed. The order of the answer is that of a hash map.
def tick (r : SeatReservations ID) (delta : Nat) : SeatReservations ID × List ID :=
  let elapsed := min (r.elapsed + delta) durationMax
  match r.window with
  | none        => ({ r with elapsed }, [])
  | some window =>
    let lapsed := (r.held.entries.filter fun e => elapsed - e.snd ≥ window).map Sigma.fst
    ({ r with elapsed, held := lapsed.foldl (fun held player => held.erase player) r.held }, lapsed)

-- Reserving again does not restart the window.
def reserve (r : SeatReservations ID) (player : ID) : SeatReservations ID × Bool :=
  match r.held.lookup player with
  | some _ => (r, false)
  | none   => ({ r with held := r.held.insert player r.elapsed }, true)

def consume (r : SeatReservations ID) (player : ID) : SeatReservations ID × Bool :=
  ({ r with held := r.held.erase player }, (r.held.lookup player).isSome)

def withdraw (r : SeatReservations ID) (player : ID) : SeatReservations ID × Bool :=
  ({ r with held := r.held.erase player }, (r.held.lookup player).isSome)

def holds (r : SeatReservations ID) (player : ID) : Bool :=
  (r.held.lookup player).isSome

def clear (r : SeatReservations ID) : SeatReservations ID :=
  { r with held := ∅ }

end SeatReservations
end Plaza.Lobby
