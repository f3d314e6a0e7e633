import Mathlib.Order.Interval.Finset.Nat
import Plaza.ClientUtils.Mirror
import Plaza.Lib.Execution

open Rust
open Plaza.ClientUtils

-- A mirror and the packets which are applied to it.
namespace Plaza.Protocols.Mirror

-- What a delta says of an entity. Everything in it is absolute: an entry has the entity in full, a leave names it
-- outright, and a sample has what the entity is like from now on.
inductive Change (E : Type)
  | enter (key : SlotKey) (entity : E)
  | leave (key : SlotKey)
  | sample (key : SlotKey) (entity : E)

inductive Event (E : Type)
  | begin (seq : U64) (fullBaseline : Bool)
  | change (c : Change E)
  | write (key : SlotKey) (write : E → E)
  | settle (expected : U64)
  | setGenerations (generational : Bool)
  | clear

-- A packet with its changes in the order in which they are applied.
structure Delta (E : Type) where
  seq          : U64
  fullBaseline : Bool
  changes      : List (Change E)
  expected     : U64

variable {E : Type}

def Delta.events (d : Delta E) : List (Event E) :=
  .begin d.seq d.fullBaseline :: d.changes.map .change ++ [.settle d.expected]

def change (o : Overflow) (m : DeltaMirror E) : Change E → Option (DeltaMirror E)
  | .enter key entity  => some (m.insert key entity)
  | .leave key         => (m.remove o key).map (·.fst)
  | .sample key entity => (m.getMut o key fun _ => entity).map (·.fst)

def machine (o : Overflow) : Machine (DeltaMirror E) (Event E) where
  step m
    | .begin seq fullBaseline      => m.begin o seq fullBaseline
    | .change c                    => change o m c
    | .write key write             => (m.getMut o key write).map (·.fst)
    | .settle expected             => (m.settle o expected).map (·.fst)
    | .setGenerations generational => some (m.setGenerations generational)
    | .clear                       => some m.clear

def frames (es : List (Event E)) : List U64 :=
  es.filterMap fun
    | .begin seq _ => some seq
    | _            => none

-- The numbers between two frames which no frame bears.
def skipped (frames : List U64) : Finset Nat :=
  (Finset.range (2 ^ 64)).filter fun n =>
    frames.any (·.toNat < n) ∧ frames.any (n < ·.toNat) ∧ frames.all (·.toNat ≠ n)

-- None comes before a smaller number, and none after the greatest.
def Nondecreasing (frames : List U64) : Prop :=
  frames.Pairwise fun a b => a ≤ b ∧ a.toNat + 1 < 2 ^ 64

-- The mirrors hold the same and say the same, but for how often they were referred to in vain or diverged.
structure Same (m m' : DeltaMirror E) : Prop where
  iter         : m.iter = m'.iter
  acks         : m.acks = m'.acks
  appliedSeq   : m.appliedSeq = m'.appliedSeq
  generational : m.generational = m'.generational
  digest       : m.digest = m'.digest
  framesLost   : m.framesLost = m'.framesLost

end Plaza.Protocols.Mirror
