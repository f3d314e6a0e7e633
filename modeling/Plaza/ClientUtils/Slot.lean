import Mathlib.Algebra.Ring.Nat
import Plaza.Lib.Execution

namespace Plaza.ClientUtils

-- A storage slot and the generation of its current occupant.
structure SlotKey where
  index      : BitVec 32
  generation : BitVec 16
  deriving DecidableEq, Repr

-- The order freed slots are handed out again in.
inductive ReusePolicy
  | lifo
  | fifo
  deriving DecidableEq, Repr

-- Per index: the current generation, and whether it is occupied. The free list is front first.
structure SlotAllocator where
  slots    : List (BitVec 16 × Bool)
  freeList : List (BitVec 32)
  policy   : ReusePolicy
  live     : Nat
  deriving DecidableEq, Repr

namespace SlotAllocator

def new (policy : ReusePolicy) : SlotAllocator where
  slots    := []
  freeList := []
  policy   := policy
  live     := 0

-- The next free index and the ones which stay free.
def popFree (a : SlotAllocator) : Option (BitVec 32 × List (BitVec 32)) :=
  match a.policy with
  | .lifo => a.freeList.getLast?.map (·, a.freeList.dropLast)
  | .fifo => a.freeList.head?.map (·, a.freeList.tail)

-- There is no outcome if the free list names an index out of bounds.
def alloc (a : SlotAllocator) : Option (SlotAllocator × SlotKey) :=
  match a.popFree with
  | some (index, freeList) => a.slots[index.toNat]?.map fun (generation, _) =>
    ({ a with slots := a.slots.set index.toNat (generation, true), freeList, live := a.live + 1 },
      { index, generation })
  | none =>
    some ({ a with slots := a.slots ++ [(0, true)], live := a.live + 1 },
      { index := .ofNat 32 a.slots.length, generation := 0 })

def free (a : SlotAllocator) (key : SlotKey) : SlotAllocator × Bool :=
  match a.slots[key.index.toNat]? with
  | none                        => (a, false)
  | some (generation, occupied) =>
    if !occupied || generation ≠ key.generation then
      (a, false)
    else
      ({ a with
        slots    := a.slots.set key.index.toNat (generation + 1, false)
        freeList := a.freeList ++ [key.index]
        live     := a.live - 1 }, true)

def isLive (a : SlotAllocator) (key : SlotKey) : Bool :=
  a.slots[key.index.toNat]?.any fun (generation, occupied) => occupied && generation = key.generation

def isOccupied (a : SlotAllocator) (index : BitVec 32) : Bool :=
  a.slots[index.toNat]?.any (·.snd)

-- Every live key, in index order.
def iter (a : SlotAllocator) : List SlotKey :=
  a.slots.zipIdx.filter (·.fst.snd) |>.map fun (slot, index) =>
    { index := .ofNat 32 index, generation := slot.fst }

-- How many indices exist, live or free.
def indexSpace (a : SlotAllocator) : Nat :=
  a.slots.length

def clear (a : SlotAllocator) : SlotAllocator :=
  { a with
    slots    := a.slots.map fun (generation, occupied) =>
      (if occupied then generation + 1 else generation, false)
    freeList := List.range a.slots.length |>.map (.ofNat 32 ·)
    live     := 0 }

inductive Call
  | alloc
  | free (key : SlotKey)
  | clear
  deriving DecidableEq, Repr

-- An allocator with its history: how often each slot was freed, and the most slots that were occupied at
-- once.
structure Tracked where
  allocator : SlotAllocator
  frees     : Nat → Nat
  peak      : Nat

def occupied (a : SlotAllocator) : Nat :=
  a.slots.countP (·.snd)

namespace Tracked

def start (policy : ReusePolicy) : Tracked where
  allocator := .new policy
  frees     := fun _ => 0
  peak      := 0

def alloc (t : Tracked) : Option Tracked :=
  t.allocator.alloc.map fun (allocator, _) =>
    { t with allocator, peak := max t.peak allocator.occupied }

def free (t : Tracked) (key : SlotKey) : Tracked :=
  let (allocator, freed) := t.allocator.free key
  { t with
    allocator
    frees := fun index => if freed ∧ index = key.index.toNat then t.frees index + 1 else t.frees index }

def clear (t : Tracked) : Tracked :=
  { t with
    allocator := t.allocator.clear
    frees     := fun index =>
      if t.allocator.slots[index]?.any (·.snd) then t.frees index + 1 else t.frees index }

end Tracked

def machine : Machine Tracked Call where
  step t
    | .alloc    => t.alloc
    | .free key => some (t.free key)
    | .clear    => some t.clear

end SlotAllocator

end Plaza.ClientUtils
