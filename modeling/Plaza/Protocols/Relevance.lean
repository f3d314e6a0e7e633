import Plaza.Lib.Execution
import Plaza.ServerUtils.Delta

open Plaza.ClientUtils Plaza.ServerUtils

-- The delta relevance protocol: a server that plans for one subscriber, the link to it, which
-- delivers in order but loses packets, and the acknowledgements on their way back.
namespace Plaza.Protocols.Relevance

-- `current` is not on the wire: it is the set which the plan was computed from.
structure Packet where
  seq     : Nat
  current : Finset Key
  plan    : DeltaPlan

structure Ack where
  newest : Nat
  mask   : BitVec 64
  digest : UInt64
  deriving DecidableEq

structure Subscriber where
  held : Finset Key
  acks : AckWindow

namespace Subscriber

def new : Subscriber where
  held := ∅
  acks := .new

def apply (c : Subscriber) (p : Packet) : Subscriber where
  held := p.plan.apply (if p.plan.fullBaseline then ∅ else c.held)
  acks := (c.acks.observe p.seq).fst

def acknowledge (c : Subscriber) : Option Ack :=
  c.acks.encode.map fun (newest, mask) => { newest, mask, digest := digestOf c.held }

-- The subscriber drops its mirror. Which packets it has seen is not forgotten.
def clear (c : Subscriber) : Subscriber :=
  { c with held := ∅ }

end Subscriber

-- `next` is the sequence number of the next plan, `wire` lists the packets in flight, oldest first,
-- and `acks` lists every acknowledgement the subscriber has ever sent, oldest first.
structure State where
  server : DeltaBaseline
  next   : Nat
  wire   : List Packet
  client : Subscriber
  acks   : List Ack

namespace State

def start (history first : Nat) : State where
  server := .new history
  next   := first
  wire   := []
  client := .new
  acks   := []

def plan (s : State) (current : Finset Key) : State :=
  let (server, plan) := s.server.plan current s.next
  { s with server, next := s.next + 1, wire := s.wire ++ [{ seq := s.next, current, plan }] }

-- Packets at the front of the wire get dropped without being read.
def drop (s : State) (stretch : Nat) : State :=
  { s with wire := s.wire.drop stretch }

def observe (s : State) (ack : Ack) : State :=
  { s with server := s.server.observeAck ack.newest ack.mask ack.digest }

def observeAt (s : State) (ack : Ack) (now : Nat) : State :=
  { s with server := s.server.observeAckAt ack.newest ack.mask ack.digest now }

end State

-- An acknowledgement is never used up by `observe`: it may arrive at any time after it was sent,
-- in any order, any number of times, or not at all.
inductive Event
  | plan (current : Finset Key)
  | lose (i : Nat)
  | deliver
  | acknowledge
  | observe (i : Nat)
  | request
  | reset
  | setPolicy (policy : RecoveryPolicy)
  -- Resync by dropping: the subscriber discards packets unread, and drops its mirror.
  | resync (stretch : Nat)

def machine : Machine State Event where
  step s
    | .plan current => s.plan current
    | .lose i       => if i < s.wire.length then some { s with wire := s.wire.eraseIdx i } else none
    | .deliver      =>
      match s.wire with
      | []        => none
      | p :: wire => some { s with wire, client := s.client.apply p }
    | .acknowledge  => s.client.acknowledge.map fun ack => { s with acks := s.acks ++ [ack] }
    | .observe i    => s.acks[i]?.map s.observe
    | .request      => some { s with server := s.server.requestFullBaseline }
    | .reset        => some { s with server := s.server.reset }
    -- Setting the policy that the server has already is no step.
    | .setPolicy p  =>
      if p ≠ s.server.policy then some { s with server := s.server.setPolicy p } else none
    | .resync n     => some { s.drop n with client := s.client.clear }

-- The subscriber reads every packet that is delivered to it, and the server recovers by
-- acknowledgements.
def Event.isFaithful : Event → Bool
  | .resync _ | .setPolicy _ => false
  | _                        => true

def faithful : Machine State Event :=
  machine.restrict fun _ e => e.isFaithful

-- The protocol under flow control: the server decides in each round whether to send at all. `clock` is the
-- time of its last call.
namespace Flow

structure State where
  link  : Relevance.State
  clock : Nat

def State.start (history first stalledAfter keepaliveEvery : Nat) : State where
  link  := { Relevance.State.start history first with
             server := .withFlow (.new history) stalledAfter keepaliveEvery }
  clock := 0

inductive Event
  -- A round in which `shouldSend` answers true, and the plan which follows.
  | send (now : Nat) (current : Finset Key)
  -- A round in which it answers false.
  | withhold (now : Nat)
  | observe (i now : Nat)
  | lose (i : Nat)
  | deliver
  | acknowledge
  | reset

namespace State

def poll (s : State) (now : Nat) : State where
  link  := { s.link with server := (s.link.server.shouldSend now).fst }
  clock := now

def sends (s : State) (now : Nat) : Bool :=
  (s.link.server.shouldSend now).snd

def follow (s : State) (e : Relevance.Event) : Option State :=
  (Relevance.machine.step s.link e).map ({ s with link := · })

end State

def machine : Machine State Event where
  step s
    | .send now current =>
      if s.clock ≤ now ∧ s.sends now then
        let s := s.poll now
        some { s with link := s.link.plan current }
      else
        none
    | .withhold now     => if s.clock ≤ now ∧ !s.sends now then some (s.poll now) else none
    | .observe i now    =>
      if s.clock ≤ now then
        s.link.acks[i]?.map fun ack => { link := s.link.observeAt ack now, clock := now }
      else
        none
    | .lose i           => s.follow (.lose i)
    | .deliver          => s.follow .deliver
    | .acknowledge      => s.follow .acknowledge
    | .reset            => s.follow .reset

end Flow
end Plaza.Protocols.Relevance
