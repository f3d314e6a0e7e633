import Mathlib.Data.Finmap
import Mathlib.Data.Finset.Sort

namespace Plaza.ServerUtils

-- What each viewer was last told.
structure Told (ν K V : Type) where
  known : Finmap fun _ : ν => Finmap fun _ : K => V

namespace Told

variable {ν K V : Type} [DecidableEq ν] [LinearOrder K] [DecidableEq V]

def new : Told ν K V where
  known := ∅

-- Goes through what the viewer sees, and answers what is left of `known`, the next record, and what is said.
def compare (known next : Finmap fun _ : K => V) :
    List (K × V) → (Finmap fun _ : K => V) × (Finmap fun _ : K => V) × List (K × Option V)
  | []                      => (known, next, [])
  | (key, value) :: current =>
    let (left, record, said) := compare (known.erase key) (next.insert key value) current
    (left, record, if known.lookup key = some value then said else (key, some value) :: said)

-- The calls of `say` are answered in the order in which they are made.
def diff (t : Told ν K V) (viewer : ν) (current : List (K × V)) : Told ν K V × List (K × Option V) :=
  let known := (t.known.lookup viewer).getD ∅
  let (left, next, said) := compare known ∅ current
  let gone := left.keys.sort (· ≤ ·)
  ({ known := t.known.insert viewer next }, said ++ gone.map (·, none))

def forget (t : Told ν K V) (viewer : ν) : Told ν K V where
  known := t.known.erase viewer

def holdings (t : Told ν K V) (viewer : ν) : Nat :=
  (t.known.lookup viewer).elim 0 (·.keys.card)

def clear (_ : Told ν K V) : Told ν K V where
  known := ∅

end Told
end Plaza.ServerUtils
