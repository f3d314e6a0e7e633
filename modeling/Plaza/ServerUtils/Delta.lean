import Mathlib.Data.Finset.SDiff
import Plaza.ClientUtils.Ack
import Plaza.ClientUtils.Determinism
import Plaza.Lib.Delta

open Plaza.ClientUtils

namespace Plaza.ServerUtils

abbrev Key := UInt64

-- The digest of a set of keys, as both ends compute it.
def digestOf (keys : Finset Key) : UInt64 :=
  SetDigest.fromKeys keys.val |>.digest

inductive RecoveryPolicy
  | naive
  | ackRecovery
  deriving DecidableEq, Repr

-- What to send this round. Nothing depends on the order in which the keys are listed.
structure DeltaPlan extends Delta (Finset Key) where
  fullBaseline : Bool
  baselineSeq  : Option Nat
  deriving DecidableEq

structure FlowControl where
  stalledAfter   : Nat
  keepaliveEvery : Nat
  lastAck        : Option Nat
  lastKeepalive  : Nat
  deriving DecidableEq, Repr

-- One subscriber's view of a streamed set. The sent states are listed oldest first.
@[ext]
structure DeltaBaseline where
  sent          : List (Nat × Finset Key)
  acked         : Option (Nat × Finset Key)
  assumedHeld   : Finset Key
  lastSent      : Finset Key
  lastSentSeq   : Option Nat
  history       : Nat
  history_pos   : 0 < history
  policy        : RecoveryPolicy
  needsFull     : Bool
  fullRebuilds  : Nat
  unacked       : Nat
  lastAckWindow : Option (Nat × BitVec 64)
  flow          : Option FlowControl

namespace DeltaBaseline

theorem raised_pos (history : Nat) : 0 < max history 1 := by
  omega

def new (history : Nat) : DeltaBaseline where
  sent          := []
  acked         := none
  assumedHeld   := ∅
  lastSent      := ∅
  lastSentSeq   := none
  history       := max history 1
  history_pos   := raised_pos history
  policy        := .ackRecovery
  needsFull     := true
  fullRebuilds  := 0
  unacked       := 0
  lastAckWindow := none
  flow          := none

def withPolicy (b : DeltaBaseline) (policy : RecoveryPolicy) : DeltaBaseline :=
  { b with policy }

def withFlow (b : DeltaBaseline) (stalledAfter keepaliveEvery : Nat) : DeltaBaseline :=
  { b with flow := some {
      stalledAfter, keepaliveEvery := max keepaliveEvery 1, lastAck := none, lastKeepalive := 0 } }

def stalled (b : DeltaBaseline) (now : Nat) : Bool :=
  match b.flow with
  | none      => false
  | some flow =>
    match flow.lastAck with
    | none         => false
    | some lastAck => flow.stalledAfter < now - lastAck

def shouldSend (b : DeltaBaseline) (now : Nat) : DeltaBaseline × Bool :=
  match b.flow with
  | none      => (b, true)
  | some flow =>
    -- The grace period starts at the first decision.
    if flow.lastAck.isNone then
      ({ b with flow := some { flow with lastAck := some now } }, true)
    else if !b.stalled now then
      (b, true)
    else if flow.keepaliveEvery ≤ now - flow.lastKeepalive then
      ({ b with flow := some { flow with lastKeepalive := now } }, true)
    else
      (b, false)

def reset (b : DeltaBaseline) : DeltaBaseline :=
  { b with
    sent          := []
    acked         := none
    assumedHeld   := ∅
    lastSent      := ∅
    lastSentSeq   := none
    needsFull     := true
    unacked       := 0
    lastAckWindow := none
    flow          := b.flow.map ({ · with lastAck := none, lastKeepalive := 0 }) }

def setPolicy (b : DeltaBaseline) (policy : RecoveryPolicy) : DeltaBaseline :=
  if policy ≠ b.policy then reset { b with policy } else b

def requestFullBaseline (b : DeltaBaseline) : DeltaBaseline :=
  { b with needsFull := true }

def ackedSeq (b : DeltaBaseline) : Option Nat :=
  b.acked.map (·.fst)

def oldest (b : DeltaBaseline) : Option Nat :=
  b.sent.head?.map (·.fst)

-- An acknowledged baseline older than a full history.
def baselineIsStale (b : DeltaBaseline) : Bool :=
  match b.ackedSeq with
  | none          => false
  | some ackedSeq => b.history ≤ b.sent.length && b.oldest.any (ackedSeq < ·)

-- Sent states the last window did not cover.
def recountUnacked (b : DeltaBaseline) : DeltaBaseline :=
  { b with unacked :=
      match b.lastAckWindow with
      | some (newest, mask) =>
        b.sent.countP fun e => !(AckWindow.fromEncoded newest mask).contains e.fst
      | none => b.sent.length }

-- A rebuild forgets the acknowledged baseline together with the sent history, so that no
-- acknowledgement can name a state from before it.
def startEpoch (b : DeltaBaseline) : DeltaBaseline :=
  { b with
    acked        := none
    assumedHeld  := ∅
    lastSent     := ∅
    sent         := []
    fullRebuilds := b.fullRebuilds + 1 }

-- The difference which `plan` sends: what to send assumes the least that the subscriber may hold,
-- what to retract assumes the most.
def diff (b : DeltaBaseline) (current : Finset Key) (fullBaseline recovering : Bool) :
    DeltaBaseline × DeltaPlan :=
  match b.acked, recovering with
  | some (ackedSeq, acked), true =>
    let sendBaseline := History.floor ackedSeq acked b.sent
    let assumedHeld  := History.ceil ackedSeq acked b.sent
    ({ b with assumedHeld },
     { Delta.between sendBaseline assumedHeld current with
       fullBaseline, baselineSeq := some ackedSeq })
  | _, _ =>
    if fullBaseline then
      (b, { entered := current, left := ∅, fullBaseline, baselineSeq := none })
    else
      -- The naive policy.
      (b, { Delta.between b.lastSent b.lastSent current with
            fullBaseline, baselineSeq := b.lastSentSeq })

-- Files the packet under its sequence number, as a state that an acknowledgement can name.
def remember (b : DeltaBaseline) (current : Finset Key) (seq : Nat) : DeltaBaseline :=
  let sent := b.sent ++ [(seq, current)]
  recountUnacked { b with
    sent        := sent.drop (sent.length - b.history)
    lastSent    := current
    lastSentSeq := some seq }

def recovering (b : DeltaBaseline) : Bool :=
  b.policy = .ackRecovery

def mustRebuild (b : DeltaBaseline) : Bool :=
  b.needsFull || (b.recovering && b.baselineIsStale)

def plan (b : DeltaBaseline) (current : Finset Key) (seq : Nat) : DeltaBaseline × DeltaPlan :=
  let rebuild      := b.mustRebuild
  let unknown      := b.recovering && b.acked.isNone
  let fullBaseline := rebuild || unknown
  let b            := { b with needsFull := false }
  let b            := if rebuild then b.startEpoch else b
  let (b, plan)    := b.diff current fullBaseline b.recovering
  (b.remember current seq, plan)

-- The first sequence not yet accounted for.
def firstUnsettled (b : DeltaBaseline) : Option Nat :=
  match b.ackedSeq with
  | some seq => some (seq + 1)
  | none     => b.oldest

-- The retained state at the end of the contiguous run which the window reports, if there is one.
def reached (b : DeltaBaseline) (window : AckWindow) : Option (Nat × Finset Key) := do
  let first ← b.firstUnsettled
  let base  ← window.contiguousBase first
  b.sent.find? (·.fst = base)

-- Whether the subscriber reports something else than the set we believe it reached.
def drifted (b : DeltaBaseline) (newest : Nat) (digest : UInt64) : Bool :=
  match b.acked with
  | some (ackedSeq, acked) => ackedSeq = newest && digestOf acked ≠ digest
  | none                   => false

def observeAck (b : DeltaBaseline) (newest : Nat) (mask : BitVec 64) (digest : UInt64) :
    DeltaBaseline :=
  if b.policy ≠ .ackRecovery then b
  else
    let window := AckWindow.fromEncoded newest mask
    let b := { b with acked := b.reached window <|> b.acked }
    let b := { b with needsFull := b.needsFull || b.drifted newest digest }
    recountUnacked { b with lastAckWindow := some (newest, mask) }

-- An acknowledgement from a stalled subscriber starts a fresh epoch instead of being folded in.
def observeAckAt (b : DeltaBaseline) (newest : Nat) (mask : BitVec 64) (digest : UInt64)
    (now : Nat) : DeltaBaseline :=
  let heard := { b with flow := b.flow.map fun flow : FlowControl => { flow with lastAck := some now } }
  if b.stalled now then
    let fresh := heard.reset
    { fresh with flow := fresh.flow.map fun flow : FlowControl => { flow with lastAck := some now } }
  else
    heard.observeAck newest mask digest

end DeltaBaseline
end Plaza.ServerUtils
