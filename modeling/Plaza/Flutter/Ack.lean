import Plaza.ClientUtils.Ack
import Plaza.Lib.Dart
import Plaza.Lib.Execution

namespace Plaza.Flutter

open Dart (Word)

-- How far back the mask reaches.
def ackWindow : Word := 64

structure AckWindow where
  newest  : Word
  mask    : Word
  started : Bool
  deriving DecidableEq, Repr

namespace AckWindow

def new : AckWindow where
  newest  := 0
  mask    := 0
  started := false

def fromEncoded (newest mask : Word) : AckWindow :=
  { newest, mask, started := true }

def encode (w : AckWindow) : Option (Word × Word) :=
  if w.started then some (w.newest, w.mask) else none

def observe (w : AckWindow) (seq : Word) : AckWindow × Bool :=
  if !w.started then
    ({ newest := seq, mask := 0, started := true }, true)
  else if w.newest.lt seq then
    let shift := seq - w.newest
    let shifted := if Word.le 64 shift then 0 else w.mask <<< shift
    let mask := if shift.le ackWindow then shifted ||| ((1 : Word) <<< (shift - 1)) else 0
    ({ w with newest := seq, mask }, true)
  else if seq = w.newest then
    (w, false)
  else
    let back := w.newest - seq
    if ackWindow.lt back then
      (w, false)
    else
      let bit := (1 : Word) <<< (back - 1)
      let wasSet := w.mask &&& bit ≠ 0
      ({ w with mask := w.mask ||| bit }, !wasSet)

def contains (w : AckWindow) (seq : Word) : Bool :=
  if !w.started || w.newest.lt seq then
    false
  else if seq = w.newest then
    true
  else
    let back := w.newest - seq
    back.le ackWindow && w.mask &&& ((1 : Word) <<< (back - 1)) ≠ 0

-- The loop of `missingSince`, with the rounds it has left.
def scan (w : AckWindow) : Nat → Word → List Word
  | 0,          _   => []
  | rounds + 1, seq =>
    if seq.lt w.newest then
      if !w.contains seq then seq :: w.scan rounds (seq + 1) else w.scan rounds (seq + 1)
    else
      []

-- The loop of `contiguousBase`, with the rounds it has left.
def walk (w : AckWindow) : Nat → Word → Word
  | 0,          base => base
  | rounds + 1, base =>
    if base.lt w.newest && w.contains (base + 1) then w.walk rounds (base + 1) else base

def contiguousBase (w : AckWindow) (first : Word) : Option Word :=
  if !w.contains first then none else some <| w.walk (w.newest - first).toNat first

-- The loop starts at most a window behind the newest.
def missingSince (w : AckWindow) (oldest : Word) : List Word :=
  if !w.started then
    []
  else
    let floor := w.newest - ackWindow
    let floor := if floor.lt oldest then oldest else floor
    w.scan 64 floor

end AckWindow
end Plaza.Flutter

namespace Plaza

-- What a window is asked.
inductive Query
  | observe (seq : Nat)
  | contains (seq : Nat)
  | missingSince (oldest : Nat)
  | contiguousBase (first : Nat)
  | encode
  deriving DecidableEq, Repr

namespace Query

-- The sequence numbers which a signed word represents.
def Supported : Query → Prop
  | observe s | contains s | missingSince s | contiguousBase s => s < 2 ^ 63
  | encode => True

inductive Answer
  | new (b : Bool)
  | contains (b : Bool)
  | missing (seqs : List Nat)
  | base (seq : Option Nat)
  | encoded (pair : Option (Nat × BitVec 64))
  deriving DecidableEq, Repr

end Query

open Query

def ClientUtils.AckWindow.object : Object AckWindow Query Answer where
  call w
    | .observe s        => w.observe s |>.map id .new
    | .contains s       => (w, .contains <| w.contains s)
    | .missingSince o   => (w, .missing <| w.missingSince o)
    | .contiguousBase f => (w, .base <| w.contiguousBase f)
    | .encode           => (w, .encoded w.encode)

def Flutter.AckWindow.object : Object AckWindow Query Answer where
  call w
    | .observe s        => w.observe (.ofNat 64 s) |>.map id .new
    | .contains s       => (w, .contains <| w.contains (.ofNat 64 s))
    | .missingSince o   => (w, .missing <| w.missingSince (.ofNat 64 o) |>.map BitVec.toNat)
    | .contiguousBase f => (w, .base <| w.contiguousBase (.ofNat 64 f) |>.map BitVec.toNat)
    | .encode           => (w, .encoded <| w.encode.map (.map BitVec.toNat id))

end Plaza
