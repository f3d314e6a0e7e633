import Plaza.ClientUtils.Determinism
import Plaza.Lib.Bits
import Plaza.Lib.Rust

namespace Plaza.ServerUtils

open Rust
open Plaza.ClientUtils (SetDigest)

-- Appends the set bits of a word to `out`, under the numbers which they stand for in the `w`-th block.
def emitBits (word : U64) (w : Nat) (out : List U32) : List U32 :=
  let base : U32 := .ofNat 32 (w * 64)
  (Ones.loop fun zeros : U64 => base + zeros.setWidth 32).run 64 (word, out) |>.snd

-- Iterates the set bits of a word.
structure BitIter where
  word : U64
  base : U32
  deriving DecidableEq, Repr

namespace BitIter

def next (it : BitIter) : Option (U32 × BitIter) :=
  if it.word = 0 then none
  else some (it.base + it.word.ctz.setWidth 32, { it with word := Ones.drop it.word })

-- The consumer asks for the next one until there is none.
def collect : Loop (BitIter × List U32) where
  body s := s.fst.next.map fun (index, it) => (it, s.snd ++ [index])

def toList (it : BitIter) : List U32 :=
  collect.run 64 (it, []) |>.snd

end BitIter

-- The set of entities which are visible to one client, as a bit for each. A set has no words beyond the one for
-- the greatest index that there is.
structure VisibilitySet where
  words     : List U64
  length_le : words.length ≤ 2 ^ 26

namespace VisibilitySet

def new : VisibilitySet where
  words     := []
  length_le := Nat.zero_le _

def withCapacity (maxIndex : U32) : VisibilitySet where
  words     := .replicate (maxIndex.toNat / 64 + 1) 0
  length_le := by
    rw [List.length_replicate]
    omega

-- The words stay, but for what is in them.
def clear (s : VisibilitySet) : VisibilitySet where
  words     := s.words.map fun _ => 0
  length_le := by rw [List.length_map]; exact s.length_le

def grow (words : List U64) (w : Nat) : List U64 :=
  if words.length ≤ w then words ++ .replicate (w + 1 - words.length) 0 else words

theorem length_grow {words : List U64} {w : Nat} : (grow words w).length = max words.length (w + 1) := by
  unfold grow
  split
  case isTrue  => rw [List.length_append, List.length_replicate]; omega
  case isFalse => omega

-- The bit for an index in its word.
def bit (index : U32) : U64 :=
  1#64 <<< (index.toNat % 64)

def insert (s : VisibilitySet) (index : U32) : VisibilitySet where
  words     := (grow s.words (index.toNat / 64)).modify (index.toNat / 64) (· ||| bit index)
  length_le := by
    rw [List.length_modify, length_grow]
    have := s.length_le
    omega

def remove (s : VisibilitySet) (index : U32) : VisibilitySet where
  words     := s.words.modify (index.toNat / 64) (· &&& ~~~bit index)
  length_le := by rw [List.length_modify]; exact s.length_le

def contains (s : VisibilitySet) (index : U32) : Bool :=
  s.words[index.toNat / 64]?.any fun word => word &&& bit index ≠ 0

-- The change from `previous` to `s`: what is new is appended to `entered`, and what is gone to `left`.
def diff (s previous : VisibilitySet) (entered left : List U32) : List U32 × List U32 :=
  let step := fun (out : List U32 × List U32) w =>
    let cur  := s.words[w]?.getD 0
    let prev := previous.words[w]?.getD 0
    (emitBits (cur &&& ~~~prev) w out.fst, emitBits (prev &&& ~~~cur) w out.snd)
  (List.range (max s.words.length previous.words.length)).foldl step (entered, left)

-- The visible indices.
def iter (s : VisibilitySet) : List U32 :=
  s.words.zipIdx.flatMap fun (word, w) => BitIter.toList { word, base := .ofNat 32 (w * 64) }

def digest (s : VisibilitySet) : UInt64 :=
  SetDigest.fromKeys (s.iter.map fun index => .ofBitVec (index.setWidth 64) : List UInt64) |>.digest

def count (s : VisibilitySet) : Nat :=
  (s.words.map (·.cpop.toNat)).sum

end VisibilitySet
end Plaza.ServerUtils
