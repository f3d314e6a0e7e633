import Mathlib.Algebra.Ring.Nat
import Mathlib.Logic.Basic
import Plaza.Lib.Execution
import Plaza.Wire.BitCodec

namespace Plaza.Wire

-- A frame's bytes, the first of which is the tag.
abbrev Frame := List (BitVec 8)

namespace Frame

-- What a frame carries.
inductive Kind
  | ops
  | hello
  | ping
  | pong
  | credential
  | goodbye
  deriving DecidableEq, Repr

namespace Kind

-- The tag byte written ahead of the body.
def asByte : Kind → BitVec 8
  | ops        => 0
  | hello      => 1
  | ping       => 2
  | pong       => 3
  | credential => 4
  | goodbye    => 5

-- Reads a tag, unless this build does not know it.
def fromByte (byte : BitVec 8) : Option Kind :=
  if byte = 0 then some ops
  else if byte = 1 then some hello
  else if byte = 2 then some ping
  else if byte = 3 then some pong
  else if byte = 4 then some credential
  else if byte = 5 then some goodbye
  else none

theorem fromByte_asByte (kind : Kind) : fromByte kind.asByte = some kind := by
  cases kind <;> rfl

end Kind

-- The tag and the body of a frame which is not empty.
def split : Frame → Option (BitVec 8 × Frame)
  | []           => none
  | kind :: body => some (kind, body)

end Frame

-- A latency probe. Its origin comes back as it went out.
structure Ping where
  origin : Nat
  deriving DecidableEq, Repr

-- The answer to a probe, with the responder's clock if it has one.
structure Pong where
  origin    : Nat
  responder : Option Nat
  deriving DecidableEq, Repr

-- How a codec writes and reads the bodies of probes and their answers.
class ProbeCodec where
  encodePing : Ping → Frame
  decodePing : Frame → Option Ping
  encodePong : Pong → Option Frame
  decodePong : Frame → Option Pong

namespace Frame

-- The answer to a probe, unless this does not decode.
def answerPing [ProbeCodec] (pingBody : Frame) (responder : Option Nat) : Option Frame := do
  let ping ← ProbeCodec.decodePing pingBody
  let body ← ProbeCodec.encodePong { origin := ping.origin, responder }
  return Kind.pong.asByte :: body

-- Frames which are neither a probe nor the answer to one.
def isData (frame : Frame) : Bool :=
  match frame.split with
  | none          => true
  | some (tag, _) => Kind.fromByte tag ≠ some .ping && Kind.fromByte tag ≠ some .pong

-- The origin that a frame answers, if it is the answer to a probe.
def pongOrigin [ProbeCodec] (frame : Frame) : Option Nat :=
  match frame.split with
  | some (tag, body) =>
    match Kind.fromByte tag with
    | some .pong => (ProbeCodec.decodePong body).map (·.origin)
    | _          => none
  | none => none

end Frame

namespace BitCodec

def ofPing (ping : Ping) : Value :=
  .struct [.int .u64 (.ofNat 64 ping.origin)]

def ofPong (pong : Pong) : Value :=
  .struct [.int .u64 (.ofNat 64 pong.origin), match pong.responder with
    | some responder => .some (.int .u64 (.ofNat 64 responder))
    | none           => .none]

def toPing? : Value → Option Ping
  | .struct [.int .u64 origin] => some ⟨origin.toNat⟩
  | _                          => none

def toPong? : Value → Option Pong
  | .struct [.int .u64 origin, .some (.int .u64 responder)] => some ⟨origin.toNat, responder.toNat⟩
  | .struct [.int .u64 origin, .none]                       => some ⟨origin.toNat, none⟩
  | _                                                       => none

-- Probes as the bit codec writes them. Their types name no others.
abbrev probeCodec : ProbeCodec where
  encodePing ping := (encode (ofPing ping)).toOption.getD []
  decodePing body := (decode (fun _ => .any) 4 (.struct [.int .u64]) body).toOption.bind toPing?
  encodePong pong := (encode (ofPong pong)).toOption
  decodePong body := (decode (fun _ => .any) 4 (.struct [.int .u64, .option (.int .u64)]) body).toOption.bind toPong?

example : probeCodec.decodePing (probeCodec.encodePing ⟨300⟩) = some ⟨300⟩ := by decide +kernel

end BitCodec

-- The bytes ahead of every frame on a stream transport.
def lengthPrefixBytes : Nat := 4

-- The big-endian bytes of the length as a 32-bit integer.
def lengthPrefix (frameLen : Nat) : List (BitVec 8) :=
  let n := frameLen % 2 ^ 32
  [.ofNat 8 (n / 2 ^ 24), .ofNat 8 (n / 2 ^ 16), .ofNat 8 (n / 2 ^ 8), .ofNat 8 n]

def fromBeBytes (bytes : List (BitVec 8)) : Nat :=
  bytes.foldl (fun n byte => n * 2 ^ 8 + byte.toNat) 0

-- Appends `frame` behind its length prefix.
def delimit (frame : List (BitVec 8)) (out : List (BitVec 8)) : List (BitVec 8) :=
  out ++ lengthPrefix frame.length ++ frame

-- A declared length past the limit.
structure Oversize where
  frameBytes    : Nat
  maxFrameBytes : Nat
  deriving DecidableEq, Repr

structure LengthDelimited where
  buf           : List (BitVec 8)
  maxFrameBytes : Nat
  deriving DecidableEq, Repr

namespace LengthDelimited

def new (maxFrameBytes : Nat) : LengthDelimited where
  buf           := []
  maxFrameBytes := maxFrameBytes

def feed (l : LengthDelimited) (bytes : List (BitVec 8)) : LengthDelimited :=
  { l with buf := l.buf ++ bytes }

def nextFrame (l : LengthDelimited) : LengthDelimited × Except Oversize (Option (List (BitVec 8))) :=
  if l.buf.length < lengthPrefixBytes then
    (l, .ok none)
  else
    let declared := fromBeBytes (l.buf.take lengthPrefixBytes)
    if l.maxFrameBytes < declared then
      (l, .error { frameBytes := declared, maxFrameBytes := l.maxFrameBytes })
    else if l.buf.length < lengthPrefixBytes + declared then
      (l, .ok none)
    else
      let frame := l.buf.drop lengthPrefixBytes |>.take declared
      ({ l with buf := l.buf.drop (lengthPrefixBytes + declared) }, .ok (some frame))

-- The reading end of a stream, with all that it was fed and all that it returned so far.
structure Reading where
  framing : LengthDelimited
  fed     : List (BitVec 8)
  results : List (Except Oversize (Option (List (BitVec 8))))

namespace Reading

def start (maxFrameBytes : Nat) : Reading where
  framing := .new maxFrameBytes
  fed     := []
  results := []

-- The frames among the results.
def drained (r : Reading) : List (List (BitVec 8)) :=
  r.results.filterMap fun
    | .ok frame => frame
    | .error _  => none

def feed (r : Reading) (bytes : List (BitVec 8)) : Reading :=
  { r with framing := r.framing.feed bytes, fed := r.fed ++ bytes }

def next (r : Reading) : Reading :=
  { r with framing := r.framing.nextFrame.fst, results := r.results ++ [r.framing.nextFrame.snd] }

end Reading

inductive Call
  | feed (bytes : List (BitVec 8))
  | nextFrame
  deriving DecidableEq, Repr

def machine : Machine Reading Call where
  step r
    | .feed bytes => some (r.feed bytes)
    | .nextFrame  => some r.next

end LengthDelimited

end Plaza.Wire
