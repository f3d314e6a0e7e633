import Mathlib.Data.List.AList
import Plaza.ClientUtils.Ack
import Plaza.ClientUtils.Determinism
import Plaza.ClientUtils.Slot
import Plaza.Lib.Rust

namespace Plaza.ClientUtils

open Rust

namespace SlotKey

-- The index is shifted to leave the generation room.
def encode (key : SlotKey) : U64 :=
  key.index.setWidth 64 <<< 16 ||| key.generation.setWidth 64

def decode (key : U64) : SlotKey where
  index      := key >>> 16 |>.setWidth 32
  generation := key &&& 0xFFFF |>.setWidth 16

-- The same slot with its generation dropped.
def ungenerational (key : SlotKey) : SlotKey :=
  { key with generation := 0 }

end SlotKey

-- What one entity's slot holds, plus the generation the mirror believes it is.
structure Held (E : Type) where
  generation : BitVec 16
  entity     : E
  deriving DecidableEq, Repr

-- Whether the mirror matches what the server says it should be.
inductive Agreement
  | agreed
  | diverged (held expected : U64)
  deriving DecidableEq, Repr

-- Which way a mirror diverged, given the server's own key set.
structure Divergence where
  extra   : List SlotKey
  missing : List SlotKey
  deriving DecidableEq, Repr

-- The client's mirror of a streamed entity set.
structure DeltaMirror (E : Type) where
  held         : AList fun _ : BitVec 32 => Held E
  acks         : AckWindow
  appliedSeq   : Option U64
  generational : Bool
  digest       : U64
  framesLost   : U64
  staleRefs    : U64
  divergences  : U64

namespace DeltaMirror

variable {E : Type}

def new : DeltaMirror E where
  held         := ∅
  acks         := .new
  appliedSeq   := none
  generational := true
  digest       := 0
  framesLost   := 0
  staleRefs    := 0
  divergences  := 0

def withGenerations (m : DeltaMirror E) (generational : Bool) : DeltaMirror E :=
  { m with generational }

-- Changing it changes the key space, so the mirror is cleared.
def setGenerations (m : DeltaMirror E) (generational : Bool) : DeltaMirror E :=
  if m.generational ≠ generational then { m with generational, held := ∅ } else m

def normalise (m : DeltaMirror E) (key : SlotKey) : SlotKey :=
  if m.generational then key else key.ungenerational

-- What is counted as lost once `seq` is here: the gap to the newest sequence number applied before it.
def lostBefore (o : Overflow) (m : DeltaMirror E) (seq : U64) : Option U64 :=
  match m.appliedSeq with
  | none          => some m.framesLost
  | some previous => do
    let next ← U64.add o previous 1
    if next < seq then
      let jump ← U64.sub o seq previous
      let gap ← U64.sub o jump 1
      U64.add o m.framesLost gap
    else
      return m.framesLost

-- For a world being rebuilt under the mirror.
def clear (m : DeltaMirror E) : DeltaMirror E :=
  { m with held := ∅ }

-- Opens a packet. There is no outcome if the build panics on an overflow and there is one.
def begin (o : Overflow) (m : DeltaMirror E) (seq : U64) (fullBaseline : Bool) : Option (DeltaMirror E) :=
  m.lostBefore o seq |>.map fun framesLost =>
    { m with
      framesLost
      appliedSeq := if m.appliedSeq.all (· < seq) then some seq else m.appliedSeq
      acks       := m.acks.observe seq.toNat |>.fst
      held       := if fullBaseline then ∅ else m.held }

-- Files an entity under a key, replacing whatever was in the slot.
def insert (m : DeltaMirror E) (key : SlotKey) (entity : E) : DeltaMirror E :=
  let key := m.normalise key
  { m with held := m.held.insert key.index { generation := key.generation, entity } }

-- A generation mismatch is counted, and nothing else is done.
def stale (o : Overflow) (m : DeltaMirror E) : Option (DeltaMirror E × Option E) := do
  let staleRefs ← U64.add o m.staleRefs 1
  return ({ m with staleRefs }, none)

-- Removes an occupant, if this key names the one actually held.
def remove (o : Overflow) (m : DeltaMirror E) (key : SlotKey) : Option (DeltaMirror E × Option E) :=
  let key := m.normalise key
  match m.held.lookup key.index with
  | some held =>
    if held.generation ≠ key.generation then
      m.stale o
    else
      some ({ m with held := m.held.erase key.index }, some held.entity)
  | none => some (m, none)

def get (m : DeltaMirror E) (key : SlotKey) : Option E :=
  let key := m.normalise key
  m.held.lookup key.index |>.filter (·.generation = key.generation) |>.map (·.entity)

-- The caller does `write` to the occupant it is handed.
def getMut (o : Overflow) (m : DeltaMirror E) (key : SlotKey) (write : E → E) :
    Option (DeltaMirror E × Option E) :=
  let key := m.normalise key
  match m.held.lookup key.index with
  | some held =>
    if held.generation = key.generation then
      some ({ m with held := m.held.insert key.index { held with entity := write held.entity } },
        some held.entity)
    else
      m.stale o
  | none => some (m, none)

-- Every occupant, in slot order.
def iter (m : DeltaMirror E) : List (SlotKey × E) :=
  m.held.entries.mergeSort (·.fst ≤ ·.fst) |>.map fun ⟨index, held⟩ =>
    ({ index, generation := held.generation }, held.entity)

-- Every key held, in slot order.
def keys (m : DeltaMirror E) : List SlotKey :=
  m.iter.map (·.fst)

def computeDigest (m : DeltaMirror E) : U64 :=
  SetDigest.fromKeys (m.keys.map fun key => .ofBitVec key.encode : List UInt64) |>.digest.toBitVec

-- Closes a packet: recomputes the digest and compares it to the server's.
def settle (o : Overflow) (m : DeltaMirror E) (expected : U64) : Option (DeltaMirror E × Agreement) :=
  let m := { m with digest := m.computeDigest }
  if m.digest = expected then
    some (m, .agreed)
  else do
    let divergences ← U64.add o m.divergences 1
    return ({ m with divergences }, .diverged m.digest expected)

-- An ordered set has each of its keys once, the least first.
def ordered (keys : List U64) : List U64 :=
  keys.dedup.mergeSort (· ≤ ·)

-- How this mirror differs from the server's own key set.
def divergenceFrom (m : DeltaMirror E) (serverKeys : List U64) : Divergence :=
  let mine := m.keys.map (·.encode)
  { extra   := ordered (mine.filter (· ∉ serverKeys)) |>.map .decode
    missing := ordered (serverKeys.filter (· ∉ mine)) |>.map .decode }

end DeltaMirror
end Plaza.ClientUtils
