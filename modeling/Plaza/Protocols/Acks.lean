import Mathlib.Order.Bounds.Basic
import Plaza.Lib.Execution
import Plaza.ServerUtils.Delta

open Plaza.ClientUtils Plaza.ServerUtils

-- The way of one client's acknowledgements back to a server that recovers by them. Unlike the
-- packets they ride an unordered path, and what the client receives is of no concern here.
namespace Plaza.Protocols.Acks

-- An encoded window, as the client reports it.
structure Report where
  newest : Nat
  mask   : BitVec 64
  deriving DecidableEq

namespace Report

def window (r : Report) : AckWindow :=
  .fromEncoded r.newest r.mask

-- The order in which one client makes its reports: by the newest packet first, then by what is
-- covered before it.
instance : LE Report where
  le r₁ r₂ := r₁.newest < r₂.newest ∨ r₁.newest = r₂.newest ∧ r₁.mask &&& r₂.mask = r₁.mask

instance (r₁ r₂ : Report) : Decidable (r₁ ≤ r₂) :=
  inferInstanceAs <| Decidable (_ ∨ _)

end Report

-- `sent` lists every report the client has made and `received` every one that the server has
-- observed, in the order of arrival.
structure State where
  server   : DeltaBaseline
  client   : AckWindow
  sent     : List Report
  received : List Report

def State.start (history : Nat) : State where
  server   := .new history
  client   := .new
  sent     := []
  received := []

inductive Event
  | plan (current : Finset Key) (seq : Nat)
  | arrive (seq : Nat)
  | acknowledge
  | observe (i : Nat) (digest : UInt64)

def machine : Machine State Event where
  step s
    | .plan current seq => some { s with server := (s.server.plan current seq).fst }
    | .arrive seq       => some { s with client := (s.client.observe seq).fst }
    | .acknowledge      => s.client.encode.map fun (newest, mask) =>
      { s with sent := s.sent ++ [{ newest, mask }] }
    | .observe i digest => s.sent[i]?.map fun r =>
      { s with
        server   := s.server.observeAck r.newest r.mask digest
        received := s.received ++ [r] }

-- The report which arrives is no older than any that the server has observed.
def Event.isTimely (s : State) : Event → Bool
  | .observe i _ => s.sent[i]?.all fun r => s.received.all (· ≤ r)
  | _            => true

def timely : Machine State Event :=
  machine.restrict fun s e => e.isTimely s

end Plaza.Protocols.Acks
