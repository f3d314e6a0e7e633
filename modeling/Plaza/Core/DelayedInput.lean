import Mathlib.Data.List.Nodup
import Plaza.Lib.Rust

open Rust (Overflow)

namespace Plaza.Core

-- What a server's times are: ticks, or a duration since it started.
inductive ServerTime
  | ticks (o : Overflow)
  | duration
  deriving DecidableEq, Repr

-- A duration below zero panics in every build.
def ServerTime.sub : ServerTime → Nat → Nat → Option Nat
  | ticks o,  x, y => if y ≤ x then some (x - y) else o.outcome False (2 ^ 64 + x - y)
  | duration, x, y => if y ≤ x then some (x - y) else none

structure SequencedClientInput (ι : Type*) where
  sequenceNumber : Nat
  inputData      : ι
  deriving DecidableEq, Repr

structure BufferedInput (ι : Type*) where
  clientInput        : SequencedClientInput ι
  serverReceivedTime : Nat
  deriving DecidableEq, Repr

-- The inputs of each client in the order of their arrival. The clients are listed in the order in which the
-- map happens to go through them.
structure ServerInputBuffer (κ ι : Type*) where
  inputsByClient : List (κ × List (BufferedInput ι))
  distinct       : (inputsByClient.map Prod.fst).Nodup
  deriving DecidableEq

namespace ServerInputBuffer

variable {κ ι : Type*}

def new : ServerInputBuffer κ ι where
  inputsByClient := []
  distinct       := .nil

-- The same clients with other queues.
def mapQueues (b : ServerInputBuffer κ ι) (f : κ → List (BufferedInput ι) → List (BufferedInput ι)) :
    ServerInputBuffer κ ι where
  inputsByClient := b.inputsByClient.map fun e => (e.fst, f e.fst e.snd)
  distinct       := by simpa [Function.comp_def] using b.distinct

def addInput [DecidableEq κ] (b : ServerInputBuffer κ ι) (client : κ) (input : SequencedClientInput ι)
    (received : Nat) : ServerInputBuffer κ ι :=
  let buffered := { clientInput := input, serverReceivedTime := received }
  if h : client ∈ b.inputsByClient.map Prod.fst then
    b.mapQueues fun c queue => if c = client then queue ++ [buffered] else queue
  else
    { inputsByClient := b.inputsByClient ++ [(client, [buffered])]
      distinct       := by
        rw [List.map_append, List.nodup_append]
        refine ⟨b.distinct, List.nodup_singleton _, fun c hc c' hc' he => ?_⟩
        rw [List.map_singleton, List.mem_singleton] at hc'
        rw [he, hc'] at hc
        exact h hc }

-- The loop over one client's queue: the inputs it takes from the front, and what it leaves.
def drainQueue (cutoff : Nat) : List (BufferedInput ι) → List (SequencedClientInput ι) × List (BufferedInput ι)
  | []         => ([], [])
  | b :: queue =>
    if b.serverReceivedTime ≤ cutoff then
      let (processable, rest) := drainQueue cutoff queue
      (b.clientInput :: processable, rest)
    else
      ([], b :: queue)

-- There is no outcome if the cut-off cannot be computed.
def drainDelayedInputs (b : ServerInputBuffer κ ι) (t : ServerTime) (current delay : Nat) :
    Option (List (κ × SequencedClientInput ι) × ServerInputBuffer κ ι) :=
  (t.sub current delay).map fun cutoff =>
    (b.inputsByClient.flatMap fun e => (drainQueue cutoff e.snd).fst.map (e.fst, ·),
     b.mapQueues fun _ queue => (drainQueue cutoff queue).snd)

def clearInputsForClient [DecidableEq κ] (b : ServerInputBuffer κ ι) (client : κ) : ServerInputBuffer κ ι where
  inputsByClient := b.inputsByClient.filter (·.fst ≠ client)
  distinct       := b.distinct.sublist (List.filter_sublist.map _)

end ServerInputBuffer

-- What a drain is for: each client's inputs that were received at least the delay ago are handed out in the
-- order of their arrival, and the others are kept.
def BufferedInput.isDue {ι : Type*} (current delay : Nat) (b : BufferedInput ι) : Bool :=
  b.serverReceivedTime + delay ≤ current

namespace ServerInputBuffer

variable {κ ι : Type*}

def dueInputs (b : ServerInputBuffer κ ι) (current delay : Nat) : List (κ × SequencedClientInput ι) :=
  b.inputsByClient.flatMap fun e => (e.snd.filter (·.isDue current delay)).map (e.fst, ·.clientInput)

def withoutDue (b : ServerInputBuffer κ ι) (current delay : Nat) : ServerInputBuffer κ ι :=
  b.mapQueues fun _ queue => queue.filter (!·.isDue current delay)

-- The delay fits before the current time, and no client has a due input behind one that is not due. Or the
-- difference wraps around to a cut-off which everything at the front of a queue was received after.
def Selective (b : ServerInputBuffer κ ι) (t : ServerTime) (current delay : Nat) : Prop :=
  delay ≤ current ∧
    (∀ e ∈ b.inputsByClient, e.snd.Pairwise fun x y => y.isDue current delay → x.isDue current delay) ∨
  current < delay ∧ t = .ticks .wraps ∧
    ∀ e ∈ b.inputsByClient, ∀ x ∈ e.snd.head?, 2 ^ 64 + current - delay < x.serverReceivedTime

end ServerInputBuffer
end Plaza.Core
