import Plaza.Core.Session
import Plaza.Wire.Frame

namespace Plaza.Session

open Wire Plaza.Core

-- Why a connection is closed, as the client hears it.
structure Farewell where
  code   : BitVec 16
  detail : Option Frame
  deriving DecidableEq, Repr

-- The part of the codec that a connection uses before it is admitted.
class AdmissionCodec where
  decodeVersion : Frame → Option (BitVec 32)
  encodeGoodbye : Farewell → Option Frame

namespace Farewell

def new (code : BitVec 16) : Farewell where
  code   := code
  detail := none

-- A data frame came from a connection which had not presented a credential.
def credentialExpected : Farewell :=
  new 4401

def credentialTimeout : Farewell :=
  new 4408

-- The frame which is written last. If the codec fails it is the kind alone.
def encode [AdmissionCodec] (f : Farewell) : Frame :=
  Frame.Kind.goodbye.asByte :: (AdmissionCodec.encodeGoodbye f).getD []

end Farewell

open BitCodec in
-- What a connection uses of the bit codec.
abbrev bitCodec : AdmissionCodec where
  decodeVersion body :=
    match (decode (fun _ => .any) 4 (.newtypeStruct (.int .u32)) body).toOption with
    | some (.newtypeStruct (.int .u32 version)) => some version
    | _                                         => none
  encodeGoodbye f :=
    let detail := f.detail.map fun detail => .some <| .seq <| detail.map (.int .u8)
    (encode <| .struct [.int .u16 f.code, detail.getD .none]).toOption

def messageTooBig : BitVec 16 := 1009

-- What a frame that comes before the admission leaves to be done.
inductive Presented
  | nothing
  | credential (bytes : Frame)
  | refuse (farewell : Farewell)
  deriving DecidableEq, Repr

structure Pending where
  declared           : Option (BitVec 32)
  maxCredentialBytes : Nat
  deriving DecidableEq, Repr

namespace Pending

def new (maxCredentialBytes : Nat) : Pending where
  declared           := none
  maxCredentialBytes := maxCredentialBytes

-- A probe is neither answered nor forwarded, and neither is a kind that is not known.
def onFrame [AdmissionCodec] (p : Pending) (bytes : Frame) : Pending × Presented :=
  match bytes.split with
  | none             => (p, .nothing)
  | some (tag, body) =>
    match Frame.Kind.fromByte tag with
    | some .hello =>
      match AdmissionCodec.decodeVersion body with
      | some theirs => ({ p with declared := theirs }, .nothing)
      | none        => (p, .nothing)
    | some .credential =>
      if p.maxCredentialBytes < body.length then
        (p, .refuse <| .new messageTooBig)
      else
        (p, .credential body)
    | some .ops => (p, .refuse .credentialExpected)
    | _         => (p, .nothing)

end Pending

-- The answer of the admitter.
inductive ConnectionAdmission (ID : Type)
  | admitted (agent : Agent ID)
  | refused (farewell : Farewell)
  deriving DecidableEq, Repr

inductive PendingEnd (ID : Type)
  | admitted (agent : Agent ID)
  | refused (farewell : Farewell)
  | timedOut
  | gone
  deriving DecidableEq, Repr

def ConnectionAdmission.pendingEnd {ID : Type} : ConnectionAdmission ID → PendingEnd ID
  | admitted agent   => .admitted agent
  | refused farewell => .refused farewell

namespace PendingEnd

variable {ID : Type}

def agent? : PendingEnd ID → Option (Agent ID)
  | admitted agent => agent
  | _              => none

-- What the client is told, unless it is admitted or no longer there.
def farewell : PendingEnd ID → Option Farewell
  | refused farewell => farewell
  | timedOut         => some .credentialTimeout
  | _                => none

end PendingEnd

-- The counters of the transport that belong to the admission.
structure TransportStats where
  pending  : Nat
  admitted : Nat
  refused  : Nat
  timedOut : Nat
  overCap  : Nat
  deriving DecidableEq, Repr

namespace TransportStats

def new : TransportStats where
  pending  := 0
  admitted := 0
  refused  := 0
  timedOut := 0
  overCap  := 0

-- A slot is given back, after it recorded how the pending phase ended.
def settle {ID : Type} (s : TransportStats) : PendingEnd ID → TransportStats
  | .admitted _ => { s with admitted := s.admitted + 1, pending := s.pending - 1 }
  | .refused _  => { s with refused := s.refused + 1, pending := s.pending - 1 }
  | .timedOut   => { s with timedOut := s.timedOut + 1, pending := s.pending - 1 }
  | .gone       => { s with pending := s.pending - 1 }

end TransportStats

structure Limits where
  pendingConnections : Option Nat
  maxCredentialBytes : Nat
  credentialTimeout  : Nat
  deriving DecidableEq, Repr

-- What the task of a socket waits for. The deadline does not run while it waits for the admitter, and it holds
-- its slot until it ends.
inductive Phase (ID : Type)
  | reading
  | asking (credential : Frame)
  | closing
  | ended (how : PendingEnd ID)
  deriving DecidableEq, Repr

-- A socket, with the frames that its task read before it ended, what the admitter answered, and what then crossed
-- it in either direction.
structure Socket (ID : Type) where
  pending   : Pending
  deadline  : Nat
  phase     : Phase ID
  read      : List Frame
  answered  : Option (Frame × ConnectionAdmission ID)
  written   : List Frame
  forwarded : List Frame
  deriving DecidableEq, Repr

-- What happens to a socket. Once it is registered, frames cross it.
inductive SocketEvent (ID : Type)
  | frame (bytes : Frame)
  | answer (admission : ConnectionAdmission ID)
  | timeout (now : Nat)
  | gone
  | closed
  | outbound (frame : Frame)
  deriving DecidableEq, Repr

namespace Socket

variable {ID : Type} [AdmissionCodec]

def new (limits : Limits) (now : Nat) : Socket ID where
  pending   := .new limits.maxCredentialBytes
  deadline  := now + limits.credentialTimeout
  phase     := .reading
  read      := []
  answered  := none
  written   := []
  forwarded := []

-- The loop is left, and whoever is refused hears why.
def finish (s : Socket ID) (how : PendingEnd ID) : Socket ID :=
  { s with phase := .ended how, written := s.written ++ how.farewell.toList.map Farewell.encode }

def onFrame (s : Socket ID) (bytes : Frame) : Socket ID × Option (PendingEnd ID) :=
  let (pending, presented) := s.pending.onFrame bytes
  let s := { s with pending, read := s.read ++ [bytes] }
  match presented with
  | .nothing               => (s, none)
  | .refuse farewell       => (s.finish (.refused farewell), some (.refused farewell))
  | .credential credential => ({ s with phase := .asking credential }, none)

-- A step of the task of a socket, and how it ended if this is the step at which it gives its slot back. If the
-- client is gone that is after the socket is closed.
def step (s : Socket ID) : SocketEvent ID → Option (Socket ID × Option (PendingEnd ID))
  | .frame bytes =>
    match s.phase with
    | .reading             => s.onFrame bytes
    | .ended (.admitted _) => some ({ s with forwarded := s.forwarded ++ [bytes] }, none)
    | _                    => none
  | .answer admission =>
    match s.phase with
    | .asking credential =>
      let s := { s with answered := some (credential, admission) }
      some (s.finish admission.pendingEnd, some admission.pendingEnd)
    | _ => none
  | .timeout now =>
    match s.phase with
    | .reading => if s.deadline ≤ now then some (s.finish .timedOut, some .timedOut) else none
    | _        => none
  | .gone =>
    match s.phase with
    | .reading => some ({ s with phase := .closing }, none)
    | _        => none
  | .closed =>
    match s.phase with
    | .closing => some (s.finish .gone, some .gone)
    | _        => none
  | .outbound frame =>
    match s.phase with
    | .ended (.admitted _) => some ({ s with written := s.written ++ [frame] }, none)
    | _                    => none

end Socket

-- The door of a session, behind which the workers accept sockets. Between the look at the counter and its
-- increment other workers come in, and `passed` of them are there.
structure Door (ID : Type) where
  limits    : Limits
  workers   : Nat
  stats     : TransportStats
  passed    : Nat
  sockets   : List (Socket ID)
  announced : List (Nat × Agent ID × Option (BitVec 32))
  deriving DecidableEq, Repr

inductive DoorEvent (ID : Type)
  | check
  | enter (now : Nat)
  | socket (i : Nat) (event : SocketEvent ID)
  deriving DecidableEq, Repr

namespace Door

variable {ID : Type} [AdmissionCodec]

def new (limits : Limits) (workers : Nat) : Door ID where
  limits    := limits
  workers   := workers
  stats     := .new
  passed    := 0
  sockets   := []
  announced := []

-- The first half of `begin_pending`.
def check (d : Door ID) : Door ID :=
  if d.limits.pendingConnections.any (· ≤ d.stats.pending) then
    { d with stats := { d.stats with overCap := d.stats.overCap + 1 } }
  else
    { d with passed := d.passed + 1 }

-- The second half, and the task that is spawned.
def enter (d : Door ID) (now : Nat) : Door ID :=
  { d with
    passed  := d.passed - 1
    stats   := { d.stats with pending := d.stats.pending + 1 }
    sockets := d.sockets ++ [.new d.limits now] }

-- The registration announces the agent, and records the version which the connection declared.
def settle (d : Door ID) (i : Nat) (s : Socket ID) (how : PendingEnd ID) : Door ID :=
  { d with
    stats     := d.stats.settle how
    announced := d.announced ++ how.agent?.toList.map (i, ·, s.pending.declared) }

def socketStep (d : Door ID) (i : Nat) (event : SocketEvent ID) : Option (Door ID) := do
  let (s, how) ← (← d.sockets[i]?).step event
  let d := { d with sockets := d.sockets.set i s }
  return how.elim d (d.settle i s)

def machine : Machine (Door ID) (DoorEvent ID) where
  step d
    | .check          => if d.passed < d.workers then some d.check else none
    | .enter now      => if 0 < d.passed then some (d.enter now) else none
    | .socket i event => d.socketStep i event

end Door

end Plaza.Session
