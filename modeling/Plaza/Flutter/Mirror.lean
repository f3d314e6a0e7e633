import Mathlib.Data.List.AList
import Plaza.Flutter.Ack
import Plaza.Flutter.Digest
import Plaza.ClientUtils.Mirror

namespace Plaza.Flutter

open Dart (Word)

structure SlotKey where
  index      : Word
  generation : Word
  deriving DecidableEq, Repr

namespace SlotKey

def encode (key : SlotKey) : Word :=
  key.index <<< 16 ||| key.generation

def decode (key : Word) : SlotKey where
  index      := key >>> 16
  generation := key &&& 0xFFFF

def ungenerational (key : SlotKey) : SlotKey :=
  { key with generation := 0 }

end SlotKey

inductive Agreement
  | agreed
  | diverged (held expected : Word)
  deriving DecidableEq, Repr

structure Divergence where
  extra   : List SlotKey
  missing : List SlotKey
  deriving DecidableEq, Repr

structure Held (E : Type) where
  generation : Word
  entity     : E
  deriving DecidableEq, Repr

structure DeltaMirror (E : Type) where
  generational : Bool
  held         : AList fun _ : Word => Held E
  acks         : AckWindow
  appliedSeq   : Option Word
  digest       : Word
  framesLost   : Word
  staleRefs    : Word
  divergences  : Word

namespace DeltaMirror

variable {E : Type}

def new (generational : Bool) : DeltaMirror E where
  generational := generational
  held         := ∅
  acks         := .new
  appliedSeq   := none
  digest       := 0
  framesLost   := 0
  staleRefs    := 0
  divergences  := 0

-- The field is public, and assigned to.
def setGenerational (d : DeltaMirror E) (generational : Bool) : DeltaMirror E :=
  { d with generational }

def normalise (d : DeltaMirror E) (key : SlotKey) : SlotKey :=
  if d.generational then key else key.ungenerational

def begin (d : DeltaMirror E) (seq : Word) (fullBaseline : Bool) : DeltaMirror E :=
  { d with
    framesLost := match d.appliedSeq with
      | none          => d.framesLost
      | some previous =>
        if (previous + 1).lt seq then d.framesLost + (seq - previous - 1) else d.framesLost
    appliedSeq := if d.appliedSeq.all (Word.lt · seq) then some seq else d.appliedSeq
    acks       := d.acks.observe seq |>.fst
    held       := if fullBaseline then ∅ else d.held }

def insert (d : DeltaMirror E) (key : SlotKey) (entity : E) : DeltaMirror E :=
  let k := d.normalise key
  { d with held := d.held.insert k.index { generation := k.generation, entity } }

def remove (d : DeltaMirror E) (key : SlotKey) : DeltaMirror E × Option E :=
  let k := d.normalise key
  match d.held.lookup k.index with
  | none      => (d, none)
  | some held =>
    if held.generation ≠ k.generation then
      ({ d with staleRefs := d.staleRefs + 1 }, none)
    else
      ({ d with held := d.held.erase k.index }, some held.entity)

-- The operator `[]`.
def get (d : DeltaMirror E) (key : SlotKey) : Option E :=
  let k := d.normalise key
  match d.held.lookup k.index with
  | none      => none
  | some held => if held.generation ≠ k.generation then none else some held.entity

-- The caller is handed the object which the mirror holds, and does `write` to it.
def forUpdate (d : DeltaMirror E) (key : SlotKey) (write : E → E) : DeltaMirror E × Option E :=
  let k := d.normalise key
  match d.held.lookup k.index with
  | none      => (d, none)
  | some held =>
    if held.generation ≠ k.generation then
      ({ d with staleRefs := d.staleRefs + 1 }, none)
    else
      ({ d with held := d.held.insert k.index { held with entity := write held.entity } }, some held.entity)

-- Replaces the entity under a key, if the key names the held occupant.
def update (d : DeltaMirror E) (key : SlotKey) (entity : E) : DeltaMirror E × Bool :=
  let k := d.normalise key
  match d.held.lookup k.index with
  | none      => (d, false)
  | some held =>
    if held.generation ≠ k.generation then
      ({ d with staleRefs := d.staleRefs + 1 }, false)
    else
      ({ d with held := d.held.insert k.index { held with entity } }, true)

-- Live keys, in index order.
def keys (d : DeltaMirror E) : List SlotKey :=
  d.held.keys.mergeSort Word.le |>.filterMap fun i =>
    d.held.lookup i |>.map fun held => { index := i, generation := held.generation }

def entries (d : DeltaMirror E) : List (SlotKey × E) :=
  d.keys.filterMap fun k => d.held.lookup k.index |>.map fun held => (k, held.entity)

def computeDigest (d : DeltaMirror E) : Word :=
  SetDigest.fromKeys (d.keys.map (·.encode)) |>.digest

def settle (d : DeltaMirror E) (expected : Word) : DeltaMirror E × Agreement :=
  let d := { d with digest := d.computeDigest }
  if d.digest = expected then
    (d, .agreed)
  else
    ({ d with divergences := d.divergences + 1 }, .diverged d.digest expected)

-- The keys of a set, sorted by what they encode to.
def sorted (keys : List Word) : List SlotKey :=
  keys.dedup.map SlotKey.decode |>.mergeSort fun a b => a.encode.le b.encode

def divergenceFrom (d : DeltaMirror E) (serverKeys : List Word) : Divergence :=
  let mine := d.keys.map (·.encode)
  { extra   := sorted <| mine.filter (· ∉ serverKeys)
    missing := sorted <| serverKeys.filter (· ∉ mine) }

end DeltaMirror
end Plaza.Flutter

namespace Plaza.Mirroring

open Dart (Word)

variable {E : Type}

-- What is asked of a mirror, with the keys which the server can name.
inductive Call (E : Type)
  | begin (seq : Word) (fullBaseline : Bool)
  | insert (key : ClientUtils.SlotKey) (entity : E)
  | remove (key : ClientUtils.SlotKey)
  | get (key : ClientUtils.SlotKey)
  | getMut (key : ClientUtils.SlotKey) (write : E → E)
  | replace (key : ClientUtils.SlotKey) (entity : E)
  | settle (expected : Word)
  | divergenceFrom (serverKeys : List Word)
  | setGenerations (generational : Bool)

inductive Answer (E : Type)
  | done
  | entity (e : Option E)
  | replaced (b : Bool)
  | agreement (a : Flutter.Agreement)
  | divergence (d : Flutter.Divergence)
  deriving DecidableEq, Repr

-- All that a mirror shows of itself.
structure View (E : Type) where
  entries     : List (Flutter.SlotKey × E)
  acks        : Option (Word × Word)
  appliedSeq  : Option Word
  digest      : Word
  framesLost  : Word
  staleRefs   : Word
  divergences : Word
  deriving DecidableEq, Repr

end Plaza.Mirroring

namespace Plaza

open Mirroring
open Dart (Word)

variable {E : Type}

-- The key as the words which represent it.
def ClientUtils.SlotKey.port (key : SlotKey) : Flutter.SlotKey where
  index      := key.index.setWidth 64
  generation := key.generation.setWidth 64

def ClientUtils.Agreement.port : Agreement → Flutter.Agreement
  | agreed                 => .agreed
  | diverged held expected => .diverged held expected

def ClientUtils.Divergence.port (d : Divergence) : Flutter.Divergence where
  extra   := d.extra.map (·.port)
  missing := d.missing.map (·.port)

namespace ClientUtils.DeltaMirror

def view (m : DeltaMirror E) : View E where
  entries     := m.iter.map fun (key, entity) => (key.port, entity)
  acks        := m.acks.encode.map fun (newest, mask) => (.ofNat 64 newest, mask)
  appliedSeq  := m.appliedSeq
  digest      := m.digest
  framesLost  := m.framesLost
  staleRefs   := m.staleRefs
  divergences := m.divergences

def call (o : Rust.Overflow) (m : DeltaMirror E) : Call E → Option (DeltaMirror E × Answer E)
  | .begin seq full      => m.begin o seq full |>.map (·, .done)
  | .insert key entity   => some (m.insert key entity, .done)
  | .remove key          => m.remove o key |>.map (.map id .entity)
  | .get key             => some (m, .entity <| m.get key)
  | .getMut key write    => m.getMut o key write |>.map (.map id .entity)
  | .replace key entity  => m.getMut o key (fun _ => entity) |>.map (.map id (.replaced ·.isSome))
  | .settle expected     => m.settle o expected |>.map (.map id (.agreement ·.port))
  | .divergenceFrom keys => some (m, .divergence (m.divergenceFrom keys).port)
  | .setGenerations b    => some (m.setGenerations b, .done)

-- After a panic there is no mirror left to answer.
def object (o : Rust.Overflow) : Object (Option (DeltaMirror E)) (Call E) (Option (Answer E × View E)) where
  call m c :=
    match m.bind (·.call o c) with
    | none        => (none, none)
    | some (m, a) => (some m, some (a, m.view))

-- The slot which the key names has another occupant.
def Stale (m : DeltaMirror E) (key : SlotKey) : Prop :=
  ∃ held ∈ m.held.lookup (m.normalise key).index, held.generation ≠ (m.normalise key).generation

end ClientUtils.DeltaMirror

namespace Flutter.DeltaMirror

def view (d : DeltaMirror E) : View E where
  entries     := d.entries
  acks        := d.acks.encode
  appliedSeq  := d.appliedSeq
  digest      := d.digest
  framesLost  := d.framesLost
  staleRefs   := d.staleRefs
  divergences := d.divergences

def call (d : DeltaMirror E) : Call E → DeltaMirror E × Answer E
  | .begin seq full      => (d.begin seq full, .done)
  | .insert key entity   => (d.insert key.port entity, .done)
  | .remove key          => d.remove key.port |>.map id .entity
  | .get key             => (d, .entity <| d.get key.port)
  | .getMut key write    => d.forUpdate key.port write |>.map id .entity
  | .replace key entity  => d.update key.port entity |>.map id .replaced
  | .settle expected     => d.settle expected |>.map id .agreement
  | .divergenceFrom keys => (d, .divergence <| d.divergenceFrom keys)
  | .setGenerations b    => (d.setGenerational b, .done)

def object : Object (DeltaMirror E) (Call E) (Option (Answer E × View E)) where
  call d c :=
    let (d, a) := d.call c
    (d, some (a, d.view))

end Flutter.DeltaMirror

namespace Mirroring

-- Counting once more does not panic.
def Counts (o : Rust.Overflow) (counter : Word) : Prop :=
  o = .wraps ∨ counter.toNat + 1 < 2 ^ 64

-- The calls to which both mirrors give the same answer, and which leave them in the same state.
def Call.Ported (o : Rust.Overflow) (m : ClientUtils.DeltaMirror E) : Call E → Prop
  | .begin seq _         => ∀ previous ∈ m.appliedSeq, previous.msb = seq.msb ∧ (previous + 1).msb = seq.msb
  | .remove key          => m.Stale key → Counts o m.staleRefs
  | .getMut key _        => m.Stale key → Counts o m.staleRefs
  | .replace key _       => m.Stale key → Counts o m.staleRefs
  | .settle expected     => m.held.entries.length < 2 ^ 32 ∧ (m.computeDigest ≠ expected → Counts o m.divergences)
  | .divergenceFrom keys => ∀ k ∈ keys, k.toNat < 2 ^ 48
  | .setGenerations b    => m.generational = b ∨ m.held = ∅
  | .insert ..           => True
  | .get _               => True

-- No call is allowed after a panic.
def Allowed (o : Rust.Overflow) (m : Option (ClientUtils.DeltaMirror E)) (c : Call E) : Prop :=
  ∃ m' ∈ m, c.Ported o m'

end Mirroring
end Plaza
