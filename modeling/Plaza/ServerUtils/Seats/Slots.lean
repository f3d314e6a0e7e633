import Mathlib.Logic.Function.Basic
import Plaza.Lib.Ordered

namespace Plaza.ServerUtils

inductive Slot (Key : Type)
  | open'
  | human (key : Key)
  | held (key : Key)
  deriving DecidableEq, Repr

namespace Slot

variable {Key : Type}

-- Who the seat belongs to, present or not.
def key : Slot Key → Option Key
  | open'     => none
  | human key => some key
  | held key  => some key

def isOpen : Slot Key → Bool
  | open' => true
  | _     => false

end Slot

-- Which key holds which seat, counting seats kept for someone who left.
structure SeatSlots (Key : Type) where
  slots : List (Slot Key)
  index : Key → Option Nat

namespace SeatSlots

variable {Key : Type} [DecidableEq Key]

def new (capacity : Nat) : SeatSlots Key where
  slots := .replicate capacity .open'
  index := fun _ => none

-- The lowest open seat, if any.
def firstOpen (s : SeatSlots Key) : Option Nat :=
  s.slots.findIdx? (·.isOpen)

-- Puts `key` in `seat`, which must be open.
def seat (s : SeatSlots Key) (key : Key) (seat : Nat) : SeatSlots Key where
  slots := s.slots.set seat (.human key)
  index := Function.update s.index key (some seat)

def hold (s : SeatSlots Key) (key : Key) : SeatSlots Key :=
  match s.index key with
  | none      => s
  | some seat =>
    match s.slots[seat]? with
    | some (.human _) => { s with slots := s.slots.set seat (.held key) }
    | _               => s

def resume (s : SeatSlots Key) (key : Key) : SeatSlots Key :=
  match s.index key with
  | none      => s
  | some seat =>
    match s.slots[seat]? with
    | some (.held _) => { s with slots := s.slots.set seat (.human key) }
    | _              => s

-- Opens `key`'s seat whatever state it was in, forgetting the key.
def open' (s : SeatSlots Key) (key : Key) : SeatSlots Key :=
  match s.index key with
  | none      => s
  | some seat => { slots := s.slots.set seat .open', index := Function.update s.index key none }

def seatOf (s : SeatSlots Key) (key : Key) : Option Nat :=
  s.index key

def isHeld (s : SeatSlots Key) (key : Key) : Bool :=
  s.index key |>.any fun seat =>
    match s.slots[seat]? with
    | some (.held _) => true
    | _              => false

def capacity (s : SeatSlots Key) : Nat :=
  s.slots.length

end SeatSlots

end Plaza.ServerUtils

namespace Plaza.ServerUtils

structure Entry (Key : Type) where
  key  : Key
  rank : Nat
  seq  : Nat
  deriving DecidableEq, Repr

-- The order of the pairs of rank and arrival.
def Entry.Before {Key : Type} (e₁ e₂ : Entry Key) : Prop :=
  e₁.rank < e₂.rank ∨ e₁.rank = e₂.rank ∧ e₁.seq < e₂.seq

instance {Key : Type} : DecidableRel (@Entry.Before Key) :=
  fun _ _ => inferInstanceAs <| Decidable (_ ∨ _)

-- Better ranks first, arrival order within a band.
structure RankedQueue (Key : Type) where
  entries : List (Entry Key)
  nextSeq : Nat

namespace RankedQueue

variable {Key : Type} [DecidableEq Key]

def new : RankedQueue Key where
  entries := []
  nextSeq := 0

def push (q : RankedQueue Key) (key : Key) (rank : Nat) : RankedQueue Key × Nat :=
  let entry := { key, rank, seq := q.nextSeq }
  let at'   := q.entries.findIdx (entry.Before ·)
  ({ entries := q.entries.insertIdx at' entry, nextSeq := q.nextSeq + 1 }, at')

def remove (q : RankedQueue Key) (key : Key) : RankedQueue Key × Bool :=
  match q.entries.findIdx? (·.key = key) with
  | some at' => ({ q with entries := q.entries.eraseIdx at' }, true)
  | none     => (q, false)

def position (q : RankedQueue Key) (key : Key) : Option Nat :=
  q.entries.findIdx? (·.key = key)

-- The next key out and its rank, without taking it.
def best (q : RankedQueue Key) : Option (Key × Nat) :=
  q.entries.head?.map fun entry => (entry.key, entry.rank)

def popBest (q : RankedQueue Key) : Option ((Key × Nat) × RankedQueue Key) :=
  match q.entries with
  | []               => none
  | entry :: entries => some ((entry.key, entry.rank), { q with entries })

end RankedQueue

end Plaza.ServerUtils
