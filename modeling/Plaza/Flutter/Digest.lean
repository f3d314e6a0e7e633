import Mathlib.Data.UInt
import Mathlib.GroupTheory.FreeAbelianGroup
import Plaza.ClientUtils.Determinism
import Plaza.Lib.Dart

-- The ports of the client utilities to Dart, which has no unsigned integers.
namespace Plaza.Flutter

open Dart (Word)

-- SplitMix64's finalizer.
def mix64 (x : Word) : Word :=
  let x := x + 0x9E3779B97F4A7C15
  let x := (x ^^^ (x >>> 30)) * 0xBF58476D1CE4E5B9
  let x := (x ^^^ (x >>> 27)) * 0x94D049BB133111EB
  x ^^^ (x >>> 31)

structure SetDigest where
  acc   : Word
  count : Word
  deriving DecidableEq, Repr

namespace SetDigest

def new : SetDigest where
  acc   := 0
  count := 0

def insert (d : SetDigest) (key : Word) : SetDigest where
  acc   := d.acc + mix64 key
  count := d.count + 1

def remove (d : SetDigest) (key : Word) : SetDigest where
  acc   := d.acc - mix64 key
  count := d.count - 1

def fromKeys (keys : List Word) : SetDigest :=
  keys.foldl insert new

def digest (d : SetDigest) : Word :=
  d.acc ^^^ mix64 d.count

end SetDigest
end Plaza.Flutter

namespace Plaza

-- What may be done to a digest, on either side.
inductive Update
  | insert (key : UInt64)
  | remove (key : UInt64)
  deriving DecidableEq, Repr

namespace Update

-- How often each key is counted after the updates, which is all that the digest is to depend on.
def held (us : List Update) : FreeAbelianGroup UInt64 :=
  us.map (fun | insert key => .of key | remove key => -.of key) |>.sum

-- How many keys are counted.
def size (us : List Update) : ℤ :=
  FreeAbelianGroup.lift (fun _ => 1) (held us)

end Update

def ClientUtils.SetDigest.update (d : SetDigest) : Update → SetDigest
  | .insert key => d.insert key
  | .remove key => d.remove key

-- The digest which the server maintains.
def ClientUtils.SetDigest.after (us : List Update) : SetDigest :=
  us.foldl update new

def Flutter.SetDigest.update (d : SetDigest) : Update → SetDigest
  | .insert key => d.insert key.toBitVec
  | .remove key => d.remove key.toBitVec

-- The digest which the client maintains.
def Flutter.SetDigest.after (us : List Update) : SetDigest :=
  us.foldl update new

end Plaza
