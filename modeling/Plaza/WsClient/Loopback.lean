import Plaza.Lib.Execution
import Mathlib.Data.List.Basic

namespace Plaza.WsClient

-- Why a socket ended.
inductive CloseReason
  | remote (code : Nat) (reason : String)
  | loc
  | error (text : String)
  deriving DecidableEq, Repr

inductive Event
  | opened
  | message (bytes : List UInt8)
  | text (text : String)
  | closed (reason : CloseReason)
  deriving DecidableEq, Repr

inductive WsError
  | closed
  | badUrl (url : String)
  | connect (text : String)
  | send (text : String)
  deriving DecidableEq, Repr

inductive Wire
  | binary (bytes : List UInt8)
  | text (text : String)
  | close
  deriving DecidableEq, Repr

-- The event as which a message is polled.
def Wire.event : Wire → Event
  | binary bytes => .message bytes
  | text t       => .text t
  | close        => .closed (.remote 1000 "")

-- One end of an in-process pair, and what its callers have seen of it: the events polled, the messages
-- accepted, and whether they closed it, be it as the first of the two or not.
structure LoopbackSocket where
  inbound       : List Wire
  announcedOpen : Bool
  alive         : Bool
  polled        : List Event
  accepted      : List Wire
  closing       : Bool
  closedFirst   : Bool
  deriving DecidableEq, Repr

-- The two ends as one of them sees it. The flag is shared.
structure Pair where
  near   : LoopbackSocket
  far    : LoopbackSocket
  closed : Bool
  deriving DecidableEq, Repr

namespace Pair

def pair : Pair :=
  let socket : LoopbackSocket :=
    { inbound := [], announcedOpen := false, alive := true, polled := [], accepted := [],
      closing := false, closedFirst := false }
  { near := socket, far := socket, closed := false }

def swap (p : Pair) : Pair where
  near   := p.far
  far    := p.near
  closed := p.closed

-- The channel refuses a message if its receiver was dropped.
def deliver (p : Pair) (w : Wire) : Option Pair :=
  if p.far.alive then some { p with far.inbound := p.far.inbound ++ [w] } else none

-- Both `send` and `send_text`.
def send (p : Pair) (w : Wire) : Except WsError Pair :=
  if p.closed then .error .closed
  else match p.deliver w with
    | some p => .ok p
    | none   => .error .closed

-- What `try_recv` returns until it has nothing left or a close: the events, what stays in the channel and
-- whether there was a close.
def receive : List Wire → List Event × List Wire × Bool
  | []             => ([], [], false)
  | .close :: ws   => ([Wire.close.event], ws, true)
  | .binary b :: ws =>
    let (es, ws, c) := receive ws
    (.message b :: es, ws, c)
  | .text t :: ws  =>
    let (es, ws, c) := receive ws
    (.text t :: es, ws, c)

def poll (p : Pair) : Pair × List Event :=
  let opened := if p.near.announcedOpen then [] else [.opened]
  let (es, inbound, close) := receive p.near.inbound
  let p := { p with near.announcedOpen := true, near.inbound := inbound }
  if close then
    ({ p with closed := true }, opened ++ es)
  else if !p.far.alive && !p.closed then
    -- The far end was dropped without closing, which is reported as a failure.
    ({ p with closed := true }, opened ++ es ++ [.closed (.error "loopback peer dropped")])
  else
    (p, opened ++ es)

def close (p : Pair) : Pair :=
  if p.closed then p
  else { p.deliver .close |>.getD p with closed := true }

-- Drops both halves of the channels which the end holds.
def drop (p : Pair) : Pair :=
  { p with near.alive := false, near.inbound := [] }

inductive Op
  | send (bytes : List UInt8)
  | sendText (text : String)
  | poll
  | close
  | drop
  deriving DecidableEq, Repr

def accept (p : Pair) (w : Wire) : Pair :=
  match p.send w with
  | .ok p    => { p with near.accepted := p.near.accepted ++ [w] }
  | .error _ => p

-- An operation on the near end, and what its caller sees.
def act (p : Pair) : Op → Pair
  | .send bytes    => p.accept (.binary bytes)
  | .sendText text => p.accept (.text text)
  | .poll          => { p.poll.fst with near.polled := p.near.polled ++ p.poll.snd }
  | .close         =>
    { p.close with near.closing := true, near.closedFirst := p.near.closedFirst || !p.closed }
  | .drop          => p.drop

inductive Side
  | client
  | host
  deriving DecidableEq, Repr

-- The pair as seen from one of its ends.
def of (p : Pair) : Side → Pair
  | .client => p
  | .host   => p.swap

-- Any interleaving of operations on the two ends. A dropped end cannot be used any more.
def machine : Machine Pair (Side × Op) where
  step p e := if (p.of e.fst).near.alive then some <| ((p.of e.fst).act e.snd).of e.fst else none

-- What the near end is promised to have seen when it has just been polled.
def Lawful (p : Pair) : Prop :=
  ∃ (n : Nat) (reason : Option CloseReason),
    p.near.polled = .opened :: (p.far.accepted.take n).map Wire.event ++ reason.toList.map .closed ∧
    (reason.isSome ↔ p.near.closing ∨ p.far.closing ∨ p.far.alive = false) ∧
    ((p.far.closing ∨ p.far.alive = false) → p.near.closedFirst = false → p.far.accepted.length ≤ n)

-- An end leaves it to its peer to close the pair.
def Yields (side : Side) (p : Pair) (e : Side × Op) : Prop :=
  e = (side, .close) → p.closed

instance {side p e} : Decidable (Yields side p e) :=
  inferInstanceAs (Decidable (_ → _))

end Pair
end Plaza.WsClient
