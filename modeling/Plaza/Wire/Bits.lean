import Mathlib.Algebra.Ring.Nat
import Plaza.Lib.Bits

namespace Plaza.Wire

inductive BitError
  | underrun (wanted left : Nat)
  | width (bits : Nat)
  deriving DecidableEq, Repr

-- The largest number of bits that a single read or write may carry.
def maxBits : Nat := 64

def checkWidth (bits : Nat) : Except BitError Unit :=
  if bits = 0 ∨ maxBits < bits then .error (.width bits) else .ok ()

-- A signed integer is given by its two's complement.
def zigzag (value : BitVec 64) : BitVec 64 :=
  (value <<< 1) ^^^ value.sshiftRight 63

def unzigzag (value : BitVec 64) : BitVec 64 :=
  (value >>> 1) ^^^ -(value &&& 1)

-- Writes fields end to end. The byte being filled holds its bits in the low `pending` positions.
structure BitWriter where
  bytes       : List (BitVec 8)
  partialByte : BitVec 8
  pending     : Nat
  pending_lt  : pending < 8

namespace BitWriter

def new : BitWriter where
  bytes       := []
  partialByte := 0
  pending     := 0
  pending_lt  := by decide

def bitLen (w : BitWriter) : Nat :=
  w.bytes.length * 8 + w.pending

-- One round of `bits`: the low `take` bits of the value, which fit into the byte being filled. A full
-- byte is pushed.
def put (w : BitWriter) (value : BitVec 64) (take : Nat) : BitWriter :=
  let filled  := w.partialByte ||| ((value &&& Bits.mask 64 take).setWidth 8 <<< w.pending)
  let pending := w.pending + take
  if h : pending < 8 then
    { w with partialByte := filled, pending, pending_lt := h }
  else
    { bytes := w.bytes ++ [filled], partialByte := 0, pending := 0, pending_lt := by decide }

-- Each round writes at least one bit, so `left` rounds are enough.
def putAll : Nat → BitWriter → BitVec 64 → Nat → BitWriter
  | 0,          w, _,     _    => w
  | rounds + 1, w, value, left =>
    if left = 0 then w
    else
      let take := min left (8 - w.pending)
      putAll rounds (w.put value take) (value >>> take) (left - take)

-- A width outside `1..=64` is a panic.
def bits (w : BitWriter) (value : BitVec 64) (bits : Nat) : Except BitError BitWriter := do
  checkWidth bits
  let value := if bits = maxBits then value else value &&& Bits.mask 64 bits
  return putAll bits w value bits

def bool (w : BitWriter) (value : Bool) : Except BitError BitWriter :=
  w.bits (if value then 1 else 0) 1

-- The loop of `varint`. The value has sixteen groups of four bits.
def varintGroups : Nat → BitWriter → BitVec 64 → Except BitError BitWriter
  | 0,          w, _     => return w
  | rounds + 1, w, value => do
    let nibble := value &&& 0xf
    let value  := value >>> 4
    let w ← w.bits nibble 4
    let w ← w.bool (value ≠ 0)
    if value = 0 then return w else varintGroups rounds w value

def varint (w : BitWriter) (value : BitVec 64) : Except BitError BitWriter :=
  varintGroups 16 w value

def signedVarint (w : BitWriter) (value : BitVec 64) : Except BitError BitWriter :=
  w.varint (zigzag value)

-- Pads with zeros to a byte boundary.
def finish (w : BitWriter) : List (BitVec 8) :=
  if 0 < w.pending then w.bytes ++ [w.partialByte] else w.bytes

end BitWriter

-- Reads back what a writer wrote. The cursor counts the bits already consumed.
structure BitReader where
  bytes  : List (BitVec 8)
  cursor : Nat

namespace BitReader

def new (bytes : List (BitVec 8)) : BitReader where
  bytes  := bytes
  cursor := 0

-- The number of bits is cast to 32 bits.
def bitsLeft (r : BitReader) : Nat :=
  (r.bytes.length * 8 - r.cursor) % 2 ^ 32

def alignToByte (r : BitReader) : BitReader :=
  { r with cursor := min ((r.cursor + 7) / 8 * 8) (r.bytes.length * 8) }

def isAligned (r : BitReader) : Bool :=
  r.cursor % 8 = 0

-- The loop of `bits`. The cursor stays inside the bytes, since `bitsLeft` never reports too much.
def takeAll : Nat → BitReader → BitVec 64 → Nat → Nat → BitVec 64 × BitReader
  | 0,          r, out, _,     _    => (out, r)
  | rounds + 1, r, out, taken, bits =>
    if taken < bits then
      let byte   := r.bytes.getD (r.cursor / 8) 0
      let offset := r.cursor % 8
      let want   := min (bits - taken) (8 - offset)
      let mask   := if want = 8 then 0xff else (Bits.mask 16 want).setWidth 8
      let chunk  := ((byte >>> offset) &&& mask).setWidth 64
      takeAll rounds { r with cursor := r.cursor + want } (out ||| (chunk <<< taken)) (taken + want) bits
    else (out, r)

def bits (r : BitReader) (bits : Nat) : Except BitError (BitVec 64 × BitReader) := do
  checkWidth bits
  if r.bitsLeft < bits then .error (.underrun bits r.bitsLeft)
  else return takeAll bits r 0 0 bits

def bool (r : BitReader) : Except BitError (Bool × BitReader) := do
  let (value, r) ← r.bits 1
  return (value ≠ 0, r)

-- The loop of `varint`. Each round reads five bits, so it fails before the rounds run out.
def varintGroups : Nat → BitReader → BitVec 64 → Nat → Except BitError (BitVec 64 × BitReader)
  | 0,          r, _,     _     => .error (.underrun 4 r.bitsLeft)
  | rounds + 1, r, value, shift => do
    let (nibble, r) ← r.bits 4
    let value := if shift < maxBits then value ||| (nibble <<< shift) else value
    let (more, r) ← r.bool
    if more then varintGroups rounds r value (shift + 4) else return (value, r)

def varint (r : BitReader) : Except BitError (BitVec 64 × BitReader) :=
  varintGroups (r.bytes.length * 8 + 1) r 0 0

def signedVarint (r : BitReader) : Except BitError (BitVec 64 × BitReader) := do
  let (value, r) ← r.varint
  return (unzigzag value, r)

end BitReader

-- A layout is nothing but the sequence of calls: there are no tags to inspect.
inductive Kind
  | bits (width : { n : Nat // 0 < n ∧ n ≤ maxBits })
  | bool
  | varint
  | signedVarint

inductive Field
  | bits (value : BitVec 64) (width : { n : Nat // 0 < n ∧ n ≤ maxBits })
  | bool (value : Bool)
  | varint (value : BitVec 64)
  | signedVarint (value : BitVec 64)

namespace Field

def kind : Field → Kind
  | .bits _ width   => .bits width
  | .bool _         => .bool
  | .varint _       => .varint
  | .signedVarint _ => .signedVarint

-- The value that is left of a field at its width.
def masked : Field → Field
  | .bits value width => .bits (if width.val = maxBits then value else value &&& Bits.mask 64 width) width
  | field             => field

end Field

def BitWriter.field (w : BitWriter) : Field → Except BitError BitWriter
  | .bits value width   => w.bits value width
  | .bool value         => w.bool value
  | .varint value       => w.varint value
  | .signedVarint value => w.signedVarint value

def BitReader.field (r : BitReader) : Kind → Except BitError (Field × BitReader)
  | .bits width   => do let (value, r) ← r.bits width; return (.bits value width, r)
  | .bool         => do let (value, r) ← r.bool; return (.bool value, r)
  | .varint       => do let (value, r) ← r.varint; return (.varint value, r)
  | .signedVarint => do let (value, r) ← r.signedVarint; return (.signedVarint value, r)

def BitWriter.fields (w : BitWriter) (fields : List Field) : Except BitError BitWriter :=
  fields.foldlM BitWriter.field w

def BitReader.fields (r : BitReader) : List Kind → Except BitError (List Field × BitReader)
  | []            => return ([], r)
  | kind :: kinds => do
    let (field, r) ← r.field kind
    let (fields, r) ← r.fields kinds
    return (field :: fields, r)

-- The finished bytes of a payload.
def payload (fields : List Field) : Except BitError (List (BitVec 8)) :=
  (BitWriter.new.fields fields).map BitWriter.finish

end Plaza.Wire
