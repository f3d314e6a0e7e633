import Plaza.ClientUtils.Prediction

namespace Plaza.ClientUtils

-- Decides whether the input of a frame goes on the wire. The server holds what it was last sent.
structure InputCoalescer (ι : Type*) where
  lastSent    : Option ι
  lastSentMs  : Nat
  keepaliveMs : Nat
  enabled     : Bool
  deriving DecidableEq, Repr

namespace InputCoalescer

variable {ι : Type*} [DecidableEq ι]

def new (keepaliveMs : Nat) : InputCoalescer ι where
  lastSent    := none
  lastSentMs  := 0
  keepaliveMs := keepaliveMs
  enabled     := true

def setEnabled (c : InputCoalescer ι) (enabled : Bool) : InputCoalescer ι :=
  { c with enabled }

def shouldSend (c : InputCoalescer ι) (input : ι) (nowMs : Nat) : InputCoalescer ι × Bool :=
  let changed      := c.lastSent ≠ some input
  let keepaliveDue := c.lastSent = none ∨ c.keepaliveMs ≤ nowMs - c.lastSentMs
  if !c.enabled ∨ changed ∨ keepaliveDue then
    ({ c with lastSent := some input, lastSentMs := nowMs }, true)
  else
    (c, false)

def reset (c : InputCoalescer ι) : InputCoalescer ι :=
  { c with lastSent := none, lastSentMs := 0 }

end InputCoalescer

-- An entity which is dead reckoned under the input that its server holds. Reals stand for the floats.
structure HeldInputPredictor (σ ι κ K : Type*) where
  state     : σ
  held      : ι
  rule      : σ → ι → K → κ → σ
  lerp      : σ → σ → K → σ
  blend     : K
  ctx       : κ
  active    : Bool
  -- How far apart two states are, and how far they have to be for a snap.
  threshold : Option ((σ → σ → K) × K)

namespace HeldInputPredictor

variable {σ ι κ K : Type*} [Field K] [LinearOrder K]

def new (initial : σ) (held : ι) (blend : K) (rule : σ → ι → K → κ → σ) (lerp : σ → σ → K → σ) (ctx : κ) :
    HeldInputPredictor σ ι κ K where
  state     := initial
  held      := held
  rule      := rule
  lerp      := lerp
  blend     := max 0 (min blend 1)
  ctx       := ctx
  active    := true
  threshold := none

def withTeleport (p : HeldInputPredictor σ ι κ K) (distance : σ → σ → K) (beyond : K) : HeldInputPredictor σ ι κ K :=
  { p with threshold := some (distance, beyond) }

def hold (p : HeldInputPredictor σ ι κ K) (input : ι) : HeldInputPredictor σ ι κ K :=
  { p with held := input }

def advance (p : HeldInputPredictor σ ι κ K) (dt : K) : HeldInputPredictor σ ι κ K :=
  if p.active then { p with state := p.rule p.state p.held dt p.ctx } else p

-- Where the server has probably got to by now.
def project (p : HeldInputPredictor σ ι κ K) (authoritative : σ) (age : K) : σ :=
  p.rule authoritative p.held age p.ctx

def discontinuous (p : HeldInputPredictor σ ι κ K) (target : σ) : Bool :=
  match p.threshold with
  | some (distance, beyond) => beyond < distance p.state target
  | none                    => false

def reconcile (p : HeldInputPredictor σ ι κ K) (authoritative : σ) (age : K) :
    HeldInputPredictor σ ι κ K × Correction σ :=
  let seen := p.state
  if !p.active then
    ({ p with state := authoritative }, { seen, settled := authoritative })
  else
    let target := p.project authoritative age
    let state  := if p.discontinuous target then target else p.lerp p.state target p.blend
    ({ p with state }, { seen, settled := state })

def teleport (p : HeldInputPredictor σ ι κ K) (state : σ) : HeldInputPredictor σ ι κ K :=
  { p with state }

def setActive (p : HeldInputPredictor σ ι κ K) (active : Bool) : HeldInputPredictor σ ι κ K :=
  { p with active }

def setContext (p : HeldInputPredictor σ ι κ K) (ctx : κ) : HeldInputPredictor σ ι κ K :=
  { p with ctx }

end HeldInputPredictor
end Plaza.ClientUtils
