import Plaza.ClientUtils.Prediction

open Plaza.ClientUtils

-- A client which predicts its player ahead of a server that works through the same inputs.
namespace Plaza.Protocols.Prediction

-- `sent` lists the inputs with the sequence numbers they were sent under, oldest first.
structure Play (σ ι κ K : Type*) where
  player : PredictedPlayer σ ι κ K
  sent   : List (Nat × ι)

inductive Event (ι K : Type*)
  | input (op : ι)
  | reconcile (ack : Nat)
  | advance (dt : K)

variable {σ ι κ K : Type*} [Field K] [LinearOrder K]

namespace Play

def start (player : PredictedPlayer σ ι κ K) : Play σ ι κ K where
  player := player
  sent   := []

def unacked (s : Play σ ι κ K) : List (Nat × ι) :=
  s.sent.filter (s.player.ackedSeq < ·.fst)

-- What the server makes of the inputs up to `ack`.
def server (s : Play σ ι κ K) (rule : σ → ι → σ) (initial : σ) (ack : Nat) : σ :=
  ((s.sent.filter (·.fst ≤ ack)).map (·.snd)).foldl rule initial

end Play

-- An input is only made while the buffer has room for it, and the server only acknowledges what it was sent.
def machine (rule : σ → ι → σ) (initial : σ) : Machine (Play σ ι κ K) (Event ι K) where
  step s
    | .input op =>
      if s.unacked.length < s.player.inputs.maxSize then
        let (player, seq) := s.player.input op
        some { player, sent := s.sent ++ [(seq, op)] }
      else none
    | .reconcile ack =>
      if s.player.ackedSeq ≤ ack ∧ ack ≤ s.sent.length then
        some { s with player := (s.player.reconcile (s.server rule initial ack) ack).fst }
      else none
    | .advance dt => some { s with player := s.player.advance dt }

end Plaza.Protocols.Prediction
