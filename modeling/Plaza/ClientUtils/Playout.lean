import Plaza.Lib.Ordered

namespace Plaza.ClientUtils

-- A packet with the instant it describes and its sequence number, by which it is played out.
structure Packet (α : Type*) where
  stamp : Nat
  order : Nat
  item  : α
  deriving DecidableEq, Repr

inductive Admission
  | queued
  | timelineLost
  deriving DecidableEq, Repr

structure PlayoutBuffer (α : Type*) where
  queued        : List (Packet α)
  maxQueued     : Nat
  maxQueued_pos : 0 < maxQueued
  lostAhead     : Nat
  underruns     : Nat
  restarts      : Nat
  deriving DecidableEq

namespace PlayoutBuffer

variable {α : Type*}

theorem raised_pos (maxQueued : Nat) : 0 < max maxQueued 1 := by
  omega

def new (maxQueued lostAhead : Nat) : PlayoutBuffer α where
  queued        := []
  maxQueued     := max maxQueued 1
  maxQueued_pos := raised_pos maxQueued
  lostAhead     := lostAhead
  underruns     := 0
  restarts      := 0

-- Keeps only the newest packet.
def restart (b : PlayoutBuffer α) : PlayoutBuffer α :=
  { b with queued := b.queued.getLast?.toList, restarts := b.restarts + 1 }

def timelineLost (b : PlayoutBuffer α) : PlayoutBuffer α :=
  b.restart

-- A packet comes after those of its own order.
def insert (b : PlayoutBuffer α) (p : Packet α) : PlayoutBuffer α :=
  { b with queued := b.queued.insertBefore (·.order < ·.order) p }

-- Late by a margin which jitter produces.
def late (lostAhead stamp : Nat) (renderAt : Option Nat) : Bool :=
  renderAt.any fun at' => 0 < at' - stamp && at' - stamp < lostAhead

def ahead (stamp : Nat) (renderAt : Option Nat) : Nat :=
  renderAt.elim 0 (stamp - ·)

def push (b : PlayoutBuffer α) (p : Packet α) (renderAt : Option Nat) : PlayoutBuffer α × Admission :=
  let b := if late b.lostAhead p.stamp renderAt then { b with underruns := b.underruns + 1 } else b
  let b := b.insert p
  if b.lostAhead < ahead p.stamp renderAt ∨ b.maxQueued < b.queued.length then
    (b.restart, .timelineLost)
  else
    (b, .queued)

-- The packet at the front, once the clock has reached its instant.
def due (b : PlayoutBuffer α) (renderAt : Nat) : Option (Packet α) :=
  b.queued.head?.filter (·.stamp ≤ renderAt)

def popDue (b : PlayoutBuffer α) (renderAt : Nat) : PlayoutBuffer α × Option α :=
  match b.due renderAt with
  | some p => ({ b with queued := b.queued.tail }, some p.item)
  | none   => (b, none)

end PlayoutBuffer
end Plaza.ClientUtils
