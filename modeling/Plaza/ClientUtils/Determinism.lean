import Mathlib.Data.Multiset.MapFold
import Mathlib.Data.Rat.Defs
import Plaza.Lib.Execution
import Plaza.Lib.FloatGrid

namespace Plaza.ClientUtils

-- An order-independent digest of a set of keys.
structure SetDigest where
  acc   : UInt64
  count : UInt32
  deriving DecidableEq, Repr

-- SplitMix64's finalizer.
def mix64 (x : UInt64) : UInt64 :=
  let x := x + 0x9E3779B97F4A7C15
  let x := (x ^^^ (x >>> 30)) * 0xBF58476D1CE4E5B9
  let x := (x ^^^ (x >>> 27)) * 0x94D049BB133111EB
  x ^^^ (x >>> 31)

namespace SetDigest

def new : SetDigest where
  acc   := 0
  count := 0

def insert (d : SetDigest) (key : UInt64) : SetDigest where
  acc   := d.acc + mix64 key
  count := d.count + 1

-- Undoes an insertion of the same key.
def remove (d : SetDigest) (key : UInt64) : SetDigest where
  acc   := d.acc - mix64 key
  count := d.count - 1

instance : RightCommutative insert where
  right_comm d k₁ k₂ := by simp [insert, UInt64.add_assoc, UInt64.add_comm (mix64 k₁)]

-- The keys come from an iterator, but their order does not matter.
def fromKeys (keys : Multiset UInt64) : SetDigest :=
  keys.foldl insert new

def digest (d : SetDigest) : UInt64 :=
  d.acc ^^^ mix64 d.count.toUInt64

end SetDigest
end Plaza.ClientUtils

open Rust

namespace Plaza.ClientUtils.Determinism

-- The finalizer of murmur3.
def mix64 (x : U64) : U64 :=
  let x := x ^^^ x >>> 33
  let x := x * 0xff51afd7ed558ccd#64
  let x := x ^^^ x >>> 29
  let x := x * 0xc4ceb9fe1a85ec53#64
  x ^^^ x >>> 32

-- The step of the generators.
def xorshift (x : U64) : U64 :=
  let x := x ^^^ x <<< 13
  let x := x ^^^ x >>> 7
  x ^^^ x <<< 17

-- The upper 24 bits of a draw, as a part of one.
def unitOf (x : U64) : F32 :=
  F32.ofU64 (x >>> 40) / F32.ofU64 (1 <<< 24)

-- A stream of draws.
structure XorShift where
  state : U64
  deriving DecidableEq, Repr

namespace XorShift

def new (seed : U64) : XorShift where
  state := seed ||| 1

def next (r : XorShift) : U64 × XorShift :=
  let x := xorshift r.state
  (x, { state := x })

def below (r : XorShift) (bound : U32) : U32 × XorShift :=
  if bound = 0 then
    (0, r)
  else
    let (x, r) := r.next
    ((x % bound.setWidth 64).setWidth 32, r)

def unit (r : XorShift) : F32 × XorShift :=
  let (x, r) := r.next
  (unitOf x, r)

inductive Draw
  | next
  | below (bound : U32)
  | unit
  deriving DecidableEq, Repr

def machine : Machine XorShift Draw where
  step r
    | .next        => some r.next.snd
    | .below bound => some (r.below bound).snd
    | .unit        => some r.unit.snd

end XorShift
end Plaza.ClientUtils.Determinism

namespace Plaza.ClientUtils

-- A tiny deterministic generator (xorshift64).
structure Rng where
  state : UInt64
  deriving DecidableEq, Repr

namespace Rng

-- Avoids the zero state, which xorshift cannot escape.
def new (seed : UInt64) : Rng where
  state := seed ||| 1

def nextU64 (r : Rng) : Rng × UInt64 :=
  let x := r.state
  let x := x ^^^ (x <<< 13)
  let x := x ^^^ (x >>> 7)
  let x := x ^^^ (x <<< 17)
  ({ state := x }, x)

-- A number in `[0, 1)`. It takes 24 bits, which is what an `f32` holds exactly.
def unit (r : Rng) : Rng × ℚ :=
  let (r, x) := r.nextU64
  (r, (x >>> 40).toNat / 16777216)

-- An integer in `[0, n]`. The bound of a draw over all words overflows.
def upTo (r : Rng) (n : UInt64) : Option (Rng × UInt64) :=
  if n = 0 then
    some (r, 0)
  else
    let (r, x) := r.nextU64
    if n + 1 = 0 then none else some (r, x % (n + 1))

end Rng
end Plaza.ClientUtils

namespace Plaza

-- What is drawn from a generator. Jitter is a bounded draw.
inductive Draw
  | word
  | unit
  | upTo (n : UInt64)
  deriving DecidableEq, Repr

inductive Drawn
  | word (x : UInt64)
  | unit (q : ℚ)
  deriving DecidableEq

-- The generator of the server, which does not answer a draw that panics.
def ClientUtils.Rng.object : Object Rng Draw (Option Drawn) where
  call r
    | .word   => r.nextU64.map id (some <| .word ·)
    | .unit   => r.unit.map id (some <| .unit ·)
    | .upTo n => match r.upTo n with
      | some (r, x) => (r, some <| .word x)
      | none        => (r, none)

end Plaza
